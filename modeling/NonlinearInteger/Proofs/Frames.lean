import NonlinearInteger.Proofs.Moves

/-!
# What a move leaves alone

Setting a variable changes the value of one variable, what is cached beside it, and
the clock of that variable. The weights of the constraints and of the objective stay,
and so do the clocks of the other variables.
-/

namespace NonlinearInteger.Search

variable {ρ : Type} {P : Problem} {lbs ubs : Array Int} {v : Variable} {x : Int}

/-- The weights of the constraints. -/
def State.weights (s : State ρ) : Array Int := s.caches.map Cache.weight

section Weights

variable {combine : Int → Int → Checked Int} {row : Row} {values : Array Int}
  {cache cache' : Cache} {caches caches' : Array Cache}

theorem weight_of_shiftTerm {term : Nat}
    (h : shiftTerm combine row values cache term = .ok cache') : cache'.weight = cache.weight := by
  obtain ⟨m, -, h⟩ := bind_eq_ok.1 h
  obtain ⟨y, -, h⟩ := bind_eq_ok.1 h
  obtain ⟨value, -, h⟩ := bind_eq_ok.1 h
  obtain ⟨slots, -, h⟩ := bind_eq_ok.1 h
  obtain ⟨slopes, -, h⟩ := bind_eq_ok.1 h
  exact (congrArg Cache.weight (pure_eq_ok.1 h)).symm

theorem weight_of_shiftTerms {slot : Nat}
    (h : shiftTerms combine row values slot cache = .ok cache') : cache'.weight = cache.weight := by
  obtain ⟨terms, -, h⟩ := bind_eq_ok.1 h
  exact foldlM_keeps (motive := fun c => c.weight = cache.weight) h rfl
    fun _ _ _ _ hb hc => (weight_of_shiftTerm hc).trans hb

theorem map_weight_of_store {c : Nat} (hfetch : fetch caches c = .ok cache)
    (hweight : cache'.weight = cache.weight) (h : store caches c cache' = .ok caches') :
    caches'.map Cache.weight = caches.map Cache.weight := by
  obtain ⟨-, hget⟩ := getElem?_of_store h
  apply Array.ext_getElem?
  intro i
  rw [Array.getElem?_map, Array.getElem?_map, hget i]
  by_cases hi : i = c
  · rw [if_pos hi, hi, fetch_eq_ok.1 hfetch, Option.map_some, Option.map_some, hweight]
  · rw [if_neg hi]

theorem map_weight_of_takeOut {delta : Int} {occurrence : Nat × Nat}
    (h : takeOut P values delta caches occurrence = .ok caches') :
    caches'.map Cache.weight = caches.map Cache.weight := by
  obtain ⟨c, slot⟩ := occurrence
  obtain ⟨row, -, h⟩ := bind_eq_ok.1 h
  obtain ⟨cache, hcache, h⟩ := bind_eq_ok.1 h
  split at h
  · obtain ⟨slope, -, h⟩ := bind_eq_ok.1 h
    obtain ⟨change, -, h⟩ := bind_eq_ok.1 h
    obtain ⟨value, -, h⟩ := bind_eq_ok.1 h
    have hweight : ({ cache with value := value } : Cache).weight = cache.weight := rfl
    exact map_weight_of_store hcache hweight h
  · obtain ⟨out, hout, h⟩ := bind_eq_ok.1 h
    exact map_weight_of_store hcache (weight_of_shiftTerms hout) h

theorem map_weight_of_putBack {occurrence : Nat × Nat}
    (h : putBack P values caches occurrence = .ok caches') :
    caches'.map Cache.weight = caches.map Cache.weight := by
  obtain ⟨c, slot⟩ := occurrence
  obtain ⟨row, -, h⟩ := bind_eq_ok.1 h
  split at h
  · rw [pure_eq_ok.1 h]
  · obtain ⟨cache, hcache, h⟩ := bind_eq_ok.1 h
    obtain ⟨full, hfull, h⟩ := bind_eq_ok.1 h
    exact map_weight_of_store hcache (weight_of_shiftTerms hfull) h

end Weights

/-- The clock of a variable starts, with a delay below the spread, and the others
are left as they are. -/
def StartsClock (P : Problem) (s : State ρ) (v : Variable) (tabuUntil : Array Nat) : Prop :=
  ∃ delay ≤ P.settings.tabuSpread - 1, ∀ w, tabuUntil[w]? =
    if w = v then some (s.step + P.settings.tabuBase + delay) else s.tabuUntil[w]?

/-- A state in which one variable has been set to another value, with all that is
left as it was. -/
structure Moved (P : Problem) (lbs ubs : Array Int) (s : State ρ) (m : Move) (t : State ρ) :
    Prop where
  allowed : Allowed P lbs ubs m
  ne : s.point m.1 ≠ m.2
  continues : Continues P lbs ubs s t
  point_eq : t.point m.1 = m.2
  point_of_ne : ∀ w, w ≠ m.1 → t.point w = s.point w
  weights_eq : t.weights = s.weights
  objectiveWeight_eq : t.objectiveWeight = s.objectiveWeight
  clock : P.settings.tabu = true → StartsClock P s m.1 t.tabuUntil

theorem Consistent.lt_of_value (hP : Posed P lbs ubs) {s : State ρ} (hs : Consistent P lbs ubs s)
    (h : s.assignment.value v = .ok x) : v < P.formula.numVariables ∧ s.point v = x := by
  have hget := fetch_eq_ok.1 h
  have hlt := (Array.getElem?_eq_some_iff.1 hget).1
  rw [getElem?_eq_valuation hlt] at hget
  rw [hs.inside.size_values, hP.size_lbs] at hlt
  exact ⟨hlt, Option.some.inj hget⟩

theorem Moved.of_source {s t : State ρ} (hs : Consistent P lbs ubs s) {source : ρ} {m : Move}
    (h : Moved P lbs ubs { s with source := source } m t) : Moved P lbs ubs s m t where
  allowed := h.allowed
  ne := h.ne
  continues := (Continues.withSource hs source).trans h.continues
  point_eq := h.point_eq
  point_of_ne := h.point_of_ne
  weights_eq := h.weights_eq
  objectiveWeight_eq := h.objectiveWeight_eq
  clock := h.clock

variable [RandomSource ρ]

theorem tabuClock_eq_ok {settings : Settings} {step clock : Nat} {source rest : ρ}
    (h : tabuClock settings step source = .ok (clock, rest)) :
    ∃ delay ≤ settings.tabuSpread - 1, clock = step + settings.tabuBase + delay := by
  unfold tabuClock at h
  split at h
  · cases h
    exact ⟨0, Nat.zero_le _, rfl⟩
  · obtain ⟨⟨delay, source'⟩, hdelay, h⟩ := bind_eq_ok.1 h
    cases pure_eq_ok.1 h
    exact ⟨delay, Nat.le_sub_one_of_lt (Random.below_lt hdelay), rfl⟩

/-- Starting a clock touches the clocks and the random source only, and without clocks it
does nothing. -/
theorem startClock_eq_ok {s t : State ρ} (h : startClock P s v = .ok t) :
    ∃ tabuUntil source, t = { s with tabuUntil := tabuUntil, source := source } ∧
      (P.settings.tabu = true → StartsClock P s v tabuUntil) ∧
      (P.settings.tabu = false → tabuUntil = s.tabuUntil ∧ source = s.source) := by
  unfold startClock at h
  split at h
  · rename_i htabu
    obtain ⟨⟨clock, source⟩, hclock, h⟩ := bind_eq_ok.1 h
    obtain ⟨delay, hdelay, rfl⟩ := tabuClock_eq_ok hclock
    obtain ⟨tabuUntil, hstore, h⟩ := bind_eq_ok.1 h
    cases pure_eq_ok.1 h
    have hstarts : StartsClock P s v tabuUntil := ⟨delay, hdelay, (getElem?_of_store hstore).2⟩
    exact ⟨tabuUntil, source, rfl, fun _ => hstarts, by simp [htabu]⟩
  · rename_i htabu
    exact ⟨s.tabuUntil, s.source, (pure_eq_ok.1 h).symm, fun h => absurd h htabu,
      fun _ => ⟨rfl, rfl⟩⟩

theorem moveTo_eq_ok {s t : State ρ} {old new : Int} (h : moveTo P s v old new = .ok t) :
    t.weights = s.weights ∧ t.objectiveWeight = s.objectiveWeight ∧
      (P.settings.tabu = true → StartsClock P s v t.tabuUntil) ∧
      (P.settings.tabu = false → t.tabuUntil = s.tabuUntil ∧ t.source = s.source) := by
  obtain ⟨delta, -, h⟩ := bind_eq_ok.1 h
  obtain ⟨occurrences, -, h⟩ := bind_eq_ok.1 h
  obtain ⟨out, hout, h⟩ := bind_eq_ok.1 h
  obtain ⟨a, -, h⟩ := bind_eq_ok.1 h
  obtain ⟨caches, hcaches, h⟩ := bind_eq_ok.1 h
  obtain ⟨violated, -, h⟩ := bind_eq_ok.1 h
  obtain ⟨coef, -, h⟩ := bind_eq_ok.1 h
  obtain ⟨change, -, h⟩ := bind_eq_ok.1 h
  obtain ⟨objective, -, h⟩ := bind_eq_ok.1 h
  obtain ⟨tabuUntil, source, rfl, hclock⟩ := startClock_eq_ok h
  refine ⟨?_, rfl, hclock⟩
  have htaken : out.map Cache.weight = s.caches.map Cache.weight :=
    foldlM_keeps (motive := fun c => c.map Cache.weight = s.caches.map Cache.weight) hout rfl
      fun _ _ _ _ hb hc => (map_weight_of_takeOut hc).trans hb
  exact foldlM_keeps (motive := fun c => c.map Cache.weight = s.caches.map Cache.weight) hcaches
    htaken fun _ _ _ _ hb hc => (map_weight_of_putBack hc).trans hb

theorem apply_of_value {s : State ρ} (h : s.assignment.value v = .ok x) :
    apply P s v x = .ok s := by
  unfold apply
  rw [h]
  exact if_pos rfl

theorem apply_eq_moveTo (hP : Posed P lbs ubs) {s : State ρ} (hs : Consistent P lbs ubs s)
    (hm : Allowed P lbs ubs (v, x)) (hne : s.point v ≠ x) :
    apply P s v x = (moveTo P s v (s.point v) x).mapError .fault := by
  have hbetween : decide (valuation lbs v ≤ x ∧ x ≤ valuation ubs v) = true :=
    decide_eq_true ⟨hm.lb_le, hm.le_ub⟩
  unfold apply
  rw [hs.value_eq hP hm.lt, hs.admits_eq hP hm.lt x, hbetween]
  exact if_neg hne

theorem allowed_of_apply (hP : Posed P lbs ubs) {s t : State ρ} (hs : Consistent P lbs ubs s)
    (h : apply P s v x = .ok t) : Allowed P lbs ubs (v, x) := by
  obtain ⟨old, hold, -⟩ := bind_eq_ok.1 h
  obtain ⟨hv, -⟩ := hs.lt_of_value hP (mapError_eq_ok.1 hold)
  by_contra hm
  have hrefused := apply_refuses hP hs hv fun hx => hm ⟨hv, hx.1, hx.2⟩
  cases hrefused.symm.trans h

theorem moved_of_apply (hP : Posed P lbs ubs) {s t : State ρ} (hs : Consistent P lbs ubs s)
    {m : Move} (hne : s.assignment.value m.1 ≠ .ok m.2) (h : apply P s m.1 m.2 = .ok t) :
    Moved P lbs ubs s m t := by
  have hm := allowed_of_apply hP hs h
  have hne : s.point m.1 ≠ m.2 := fun heq => hne (heq ▸ hs.value_eq hP hm.lt)
  obtain ⟨hcontinues, hpoint, hothers⟩ := (succeeds_apply hP hs hm).apply h
  rw [apply_eq_moveTo hP hs hm hne] at h
  obtain ⟨hweights, hobjective, hclock, -⟩ := moveTo_eq_ok (mapError_eq_ok.1 h)
  exact ⟨hm, hne, hcontinues, hpoint, hothers, hweights, hobjective, hclock⟩

end NonlinearInteger.Search
