import NonlinearInteger.Proofs.ExtremeValues
import NonlinearInteger.Proofs.StepKinds

/-!
# Lifts

A lift raises the variable that lowers the objective the most, as far as the constraints
allow by their slopes. From a feasible state that is as far as possible, and to a feasible
state again, unless a term of a constraint repeats the variable.
-/

namespace NonlinearInteger.Search

variable {ρ : Type} {P : Problem} {lbs ubs : Array Int} {s t : State ρ} {v : Variable} {x : Int}

/-- A score is above that of the best lift so far, if there is one. -/
def Above (best : Option Scored) (n : Int) : Prop := ∀ b, best = some b → b.score < n

theorem above_better {best : Option Scored} {next : Scored} {n : Int} :
    Above (some (better best next)) n ↔ Above best n ∧ next.score < n := by
  cases best with
  | none => simp [Above, better]
  | some b =>
    simp only [Above, better, Option.some.injEq, forall_eq']
    split <;> omega

/-- Takes the lift of a term into account. -/
def consider (P : Problem) (s : State ρ) (best : Option Scored) (term : Variable × Int) :
    Checked (Option Scored) := do
  match ← liftGain? P s term with
  | some next => return some (better best next)
  | none => return best

theorem succeeds_consider (hP : Posed P lbs ubs) (hs : Consistent P lbs ubs s)
    {term : Variable × Int} (hterm : term ∈ P.liftTerms) (best : Option Scored) :
    Succeeds (consider P s best term) fun next => ∀ n, Above next n ↔
      Above best n ∧ ∀ q, liftGain? P s term = .ok (some q) → q.score < n := by
  obtain ⟨gain, hgain, -⟩ := succeeds_liftGain? hP hs (hP.liftTerms hterm)
  unfold consider
  apply Succeeds.next hgain
  simp only [hgain, Except.ok.injEq]
  cases gain with
  | none => exact .of_pure (by simp)
  | some q =>
    apply Succeeds.of_pure
    intro n
    rw [above_better]
    simp

theorem exists_of_bestLift (hP : Posed P lbs ubs) (hs : Consistent P lbs ubs s)
    {best : Option Scored} (h : bestLift P s = .ok best) {term : Variable × Int}
    (hterm : term ∈ P.liftTerms) {q : Scored} (hgain : liftGain? P s term = .ok (some q)) :
    ∃ b, best = some b ∧ q.score ≤ b.score := by
  have hstep := fun term (hterm : term ∈ P.liftTerms) best => succeeds_consider hP hs hterm best
  have habove := (Succeeds.foldlM_narrows hstep none).apply h q.score
  by_contra hnone
  have hlt := (habove.1 fun b hb => not_le.1 fun hle => hnone ⟨b, hb, hle⟩).2 term hterm q hgain
  exact lt_irrefl q.score hlt

/-- A variable that lowers the objective when it rises, that is free to move, and that may
rise to a value and no further as far as the slopes can tell. -/
structure Rises (P : Problem) (lbs ubs : Array Int) (s : State ρ) (v : Variable) (a x : Int) :
    Prop where
  mem : (v, a) ∈ P.liftTerms
  free : s.isTabu P v = .ok false
  greatest : IsGreatest (promising P lbs ubs s.point v) x
  lt : s.point v < x

theorem Rises.allowed (hP : Posed P lbs ubs) {a : Int} (h : Rises P lbs ubs s v a x) :
    Allowed P lbs ubs (v, x) := by
  have hv := hP.liftTerms h.mem
  exact ⟨hv, h.greatest.1.1.1, h.greatest.1.1.2⟩

theorem liftGain?_eq (hP : Posed P lbs ubs) (hs : Consistent P lbs ubs s)
    (hfeasible : P.formula.violatedAt s.point = []) {a : Int} (hterm : (v, a) ∈ P.liftTerms) :
    ∃ x tabu, IsGreatest (promising P lbs ubs s.point v) x ∧ s.isTabu P v = .ok tabu ∧
      liftGain? P s (v, a) =
        .ok (if tabu then none else some ⟨(v, x), -a * (x - s.point v)⟩) := by
  have hv := hP.liftTerms hterm
  obtain ⟨x, hx, hgreatest⟩ := feasible_isLast hP hs hfeasible hv .up
  obtain ⟨tabu, htabu, -⟩ := succeeds_isTabu hs hv
  have hm : Allowed P lbs ubs (v, x) := ⟨hv, hgreatest.1.1.1, hgreatest.1.1.2⟩
  have hproduct := (Wide.exact_eq_ok.1 (mul_strict_of_mem hP hs hterm hm)).1
  refine ⟨x, tabu, hgreatest, htabu, ?_⟩
  unfold liftGain?
  dsimp only
  rw [htabu, hproduct]
  cases tabu with
  | true => rfl
  | false =>
    change (feasible P s v .up >>= _) = _
    rw [hx]
    change (s.assignment.value v >>= _) = _
    rw [hs.value_eq hP hv]
    change (Wide.sub x (s.point v) >>= _) = _
    rw [hs.sub_eq hP hm]
    rfl

/-- The best lift gains something exactly if a variable rises, and then it is of one that
rises and gains the most. -/
theorem bestLift_rises (hP : Posed P lbs ubs) (hs : Consistent P lbs ubs s)
    (hfeasible : P.formula.violatedAt s.point = []) {best : Option Scored}
    (h : bestLift P s = .ok best) :
    (∀ b, best = some b → 0 < b.score → ∃ a, Rises P lbs ubs s b.move.1 a b.move.2 ∧
      b.score = -a * (b.move.2 - s.point b.move.1)) ∧
    ∀ v a x, Rises P lbs ubs s v a x → 0 < -a * (x - s.point v) ∧
      ∃ b, best = some b ∧ -a * (x - s.point v) ≤ b.score := by
  constructor
  · rintro b rfl hpos
    obtain ⟨⟨v, a⟩, hterm, hgain⟩ := mem_of_bestLift h
    obtain ⟨x, tabu, hgreatest, htabu, heq⟩ := liftGain?_eq hP hs hfeasible hterm
    obtain ⟨-, -, hlt⟩ := lt_of_liftGain? hP hs hterm hgain hpos
    rw [heq, Except.ok.injEq] at hgain
    cases tabu with
    | true => cases hgain
    | false =>
      cases hgain
      exact ⟨a, ⟨hterm, htabu, hgreatest, hlt⟩, rfl⟩
  · intro v a x hrises
    have hneg : a < 0 := hP.neg_of_mem _ hrises.mem
    obtain ⟨y, tabu, hgreatest, htabu, heq⟩ := liftGain?_eq hP hs hfeasible hrises.mem
    cases hrises.free.symm.trans htabu
    cases hrises.greatest.unique hgreatest
    exact ⟨mul_pos (neg_pos.2 hneg) (sub_pos.2 hrises.lt),
      exists_of_bestLift hP hs h hrises.mem heq⟩

theorem mem_linearTerms {ms : List Monomial} {terms : List (Variable × Int)}
    (h : linearTerms ms = .ok terms) {a : Int} (hmem : Monomial.linear v a ∈ ms) :
    (v, a) ∈ terms := by
  induction ms generalizing terms with
  | nil => cases hmem
  | cons m ms ih =>
    unfold linearTerms at h
    split at h
    · split at h
      · rename_i w ws hvars
        obtain ⟨rest, hrest, h⟩ := bind_eq_ok.1 h
        rw [← pure_eq_ok.1 h]
        rcases List.mem_cons.1 hmem with rfl | hmem
        · cases hvars
          exact List.mem_cons_self
        · exact List.mem_cons_of_mem _ (ih hrest hmem)
      · cases h
    · cases h

theorem mem_liftTerms_iff {f : Formula} (hf : f.Built) {settings : Settings} {source : ρ}
    {first : State ρ} (hstart : start f settings source = .ok (P, first)) {a : Int} :
    (v, a) ∈ P.liftTerms ↔ Monomial.linear v a ∈ f.objective.monomials ∧ a < 0 := by
  constructor
  · obtain ⟨rfl, -, hP, -⟩ := start_eq_ok hf.wellFormed hstart
    intro h
    exact ⟨hP.mem_objective _ h, hP.neg_of_mem _ h⟩
  · rintro ⟨hmem, hneg⟩
    obtain ⟨b, hof, -⟩ := exists_problem_of_start hstart
    obtain ⟨rows, terms, -, hterms, -, -, -, rfl⟩ := problem_of_eq_ok hof
    exact List.mem_filter.2 ⟨mem_linearTerms hterms hmem, decide_eq_true hneg⟩

theorem mem_vars_of_linear {f : Formula} {a : Int}
    (h : Monomial.linear v a ∈ f.objective.monomials) : v ∈ f.objective.vars :=
  Polynomial.mem_vars.2 ⟨_, h, List.mem_singleton_self v⟩

/-- A variable that lowers the objective when it rises, that is free to move, and that is
below the greatest value at which nothing is violated. -/
structure Liftable (P : Problem) (f : Formula) (s : State ρ) (v : Variable) (a x : Int) :
    Prop where
  mem : Monomial.linear v a ∈ f.objective.monomials
  neg : a < 0
  free : s.isTabu P v = .ok false
  greatest : IsGreatest (s.assignment.passing v (f.violated · = .ok [])) x
  lt : s.point v < x

/-- A lift that gains the most. The objective falls by what is gained, and nothing comes to
be violated. -/
structure IsBestLift [RandomSource ρ] (P : Problem) (f : Formula) (s : State ρ) (v : Variable)
    (a x : Int) (t : State ρ) : Prop where
  liftable : Liftable P f s v a x
  most : ∀ w b y, Liftable P f s w b y → -b * (y - s.point w) ≤ -a * (x - s.point v)
  apply_eq : apply P s v x = .ok t
  point_eq : t.point = Function.update s.point v x
  objective_before : f.objectiveValue s.assignment.values = .ok s.objective
  objective_after : f.objectiveValue t.assignment.values =
    .ok (s.objective - -a * (x - s.point v))
  violated_eq : f.violated t.assignment.values = .ok []

section Linear

variable (hP : Posed P lbs ubs) (hs : Consistent P lbs ubs s)
  (hterms : ∀ v a, (v, a) ∈ P.liftTerms ↔
    Monomial.linear v a ∈ P.formula.objective.monomials ∧ a < 0)
  (hlinear : ∀ v ∈ P.formula.objective.vars, ∀ k ∈ P.formula.constraints, k.poly.LinearIn v)

include hP hs hterms hlinear

/-- What rises by the slopes is what can be lifted, as long as no term repeats a variable of
the objective. -/
theorem liftable_iff {a : Int} :
    Liftable P P.formula s v a x ↔ Rises P lbs ubs s v a x := by
  constructor
  · intro h
    have hv := mem_vars_of_linear h.mem
    have hpassing := passing_violated hP hs (vars_lt hP.formula hv) (hlinear v hv)
    exact ⟨(hterms v a).2 ⟨h.mem, h.neg⟩, h.free, hpassing ▸ h.greatest, h.lt⟩
  · intro h
    obtain ⟨hterm, hneg⟩ := (hterms v a).1 h.mem
    have hv := mem_vars_of_linear hterm
    have hpassing := passing_violated hP hs (vars_lt hP.formula hv) (hlinear v hv)
    exact ⟨hterm, hneg, h.free, hpassing.symm ▸ h.greatest, h.lt⟩

theorem isBestLift_of_rises [RandomSource ρ] (hmerged : P.formula.objective.Merged) {a : Int}
    (hrises : Rises P lbs ubs s v a x)
    (hmost : ∀ w b y, Rises P lbs ubs s w b y → -b * (y - s.point w) ≤ -a * (x - s.point v))
    (happly : apply P s v x = .ok t) : IsBestLift P P.formula s v a x t := by
  have hliftable := (liftable_iff hP hs hterms hlinear).2 hrises
  have hv := mem_vars_of_linear hliftable.mem
  obtain ⟨hcontinues, hpoint, hsame⟩ := (succeeds_apply hP hs (hrises.allowed hP)).apply happly
  have ht := hcontinues.consistent
  have hupdate := Function.eq_update_iff.2 ⟨hpoint, hsame⟩
  refine {
    liftable := hliftable
    most := ?_
    apply_eq := happly
    point_eq := hupdate
    objective_before := hs.objective_eq ▸ hP.objectiveValue_eq hs.inside
    objective_after := ?_
    violated_eq := ?_ }
  · intro w b y h
    exact hmost w b y ((liftable_iff hP hs hterms hlinear).1 h)
  · have hslope := Polynomial.slopeAt_eq_of_merged hP.linear hmerged hliftable.mem s.point
    rw [hP.objectiveValue_eq ht.inside]
    change Except.ok (P.formula.objective.eval t.point) = _
    rw [Polynomial.eval_eq_add_of_isLinear hP.linear hsame, hslope, hpoint, hs.objective_eq,
      neg_mul, sub_neg_eq_add]
  · rw [hP.violated_eq ht.inside, Except.ok.injEq, Formula.violatedAt_eq_nil_iff]
    change ∀ k ∈ P.formula.constraints, k.HoldsAt t.point
    rw [hupdate]
    intro k hk
    exact (Constraint.holdsAlong_iff (hlinear v hv k hk) x).1 (hrises.greatest.1.2 k hk)

end Linear

variable [RandomSource ρ]

/-- A lift leaves a feasible state as it is if no variable rises, and otherwise moves one
that gains the most. -/
theorem liftMove_cases (hP : Posed P lbs ubs) (hs : Consistent P lbs ubs s)
    (hfeasible : P.formula.violatedAt s.point = []) : ∃ lifted t, liftMove P s = .ok (lifted, t) ∧
      ((lifted = false ∧ t = s ∧ ∀ v a x, ¬Rises P lbs ubs s v a x) ∨
        (lifted = true ∧ ∃ v a x, Rises P lbs ubs s v a x ∧
          (∀ w b y, Rises P lbs ubs s w b y →
            -b * (y - s.point w) ≤ -a * (x - s.point v)) ∧
          apply P s v x = .ok t)) := by
  obtain ⟨best, hbest, hallowed⟩ := succeeds_bestLift hP hs
  obtain ⟨hrises, hmost⟩ := bestLift_rises hP hs hfeasible hbest
  unfold liftMove
  rw [hbest]
  cases best with
  | none =>
    refine ⟨false, s, rfl, .inl ⟨rfl, rfl, fun v a x h => ?_⟩⟩
    obtain ⟨-, b, hb, -⟩ := hmost v a x h
    cases hb
  | some b =>
    by_cases hpos : 0 < b.score
    · obtain ⟨a, hrise, hscore⟩ := hrises b rfl hpos
      obtain ⟨t, happly, -⟩ := succeeds_apply hP hs (hallowed b rfl)
      refine ⟨true, t, ?_, .inr ⟨rfl, b.move.1, a, b.move.2, hrise, ?_, happly⟩⟩
      · change (if 0 < b.score then _ else _) = _
        rw [if_pos hpos, happly]
        rfl
      · intro w c y h
        obtain ⟨-, b', hb', hle⟩ := hmost w c y h
        cases hb'
        exact hscore ▸ hle
    · refine ⟨false, s, if_neg hpos, .inl ⟨rfl, rfl, fun v a x h => hpos ?_⟩⟩
      obtain ⟨hgain, b', hb', hle⟩ := hmost v a x h
      cases hb'
      exact hgain.trans_le hle

/-- On every reachable state without a violated constraint, as long as no constraint repeats
a variable of the objective in a term, a lift sets the variable that gains the most to its
greatest value at which nothing is violated. It leaves the state as it is if there is no
variable to lift. -/
theorem liftMove_of_reachable {f : Formula} (hf : f.Built) {settings : Settings} {source : ρ}
    {first : State ρ} (hstart : start f settings source = .ok (P, first))
    (hs : Reachable P first s) (hfeasible : f.violated s.assignment.values = .ok [])
    (hlinear : ∀ v ∈ f.objective.vars, ∀ k ∈ f.constraints, k.poly.LinearIn v) :
    (∀ v ∈ f.objective.vars,
      ∃ x, IsGreatest (s.assignment.passing v (f.violated · = .ok [])) x) ∧
    ∃ lifted t, liftMove P s = .ok (lifted, t) ∧
      (lifted = false ↔ ¬∃ v a x, Liftable P f s v a x) ∧
      (lifted = false → t = s) ∧
      (lifted = true → ∃ v a x, IsBestLift P f s v a x t) := by
  have hmerged := hf.merged.1
  have hterms := fun v a => mem_liftTerms_iff (v := v) (a := a) hf hstart
  have hsound := sound_first hf hstart
  obtain ⟨rfl, -, hP, -⟩ := start_eq_ok hf.wellFormed hstart
  have hs := (sound_of_reachable hP hsound hs).consistent
  rw [hP.violated_eq hs.inside, Except.ok.injEq] at hfeasible
  constructor
  · intro v hv
    have hlt := vars_lt hP.formula hv
    rw [passing_violated hP hs hlt (hlinear v hv)]
    obtain ⟨x, -, hgreatest⟩ := feasible_isLast hP hs hfeasible hlt .up
    exact ⟨x, hgreatest⟩
  · obtain ⟨lifted, t, hlift, hcases⟩ := liftMove_cases hP hs hfeasible
    refine ⟨lifted, t, hlift, ?_⟩
    rcases hcases with ⟨rfl, rfl, hnone⟩ | ⟨rfl, v, a, x, hrises, hmost, happly⟩
    · have hnothing : ¬∃ v a x, Liftable P P.formula t v a x := by
        rintro ⟨v, a, x, h⟩
        exact hnone v a x ((liftable_iff hP hs hterms hlinear).1 h)
      simp [hnothing]
    · have hbest := isBestLift_of_rises hP hs hterms hlinear hmerged hrises hmost happly
      have hsome : ∃ v a x, Liftable P P.formula s v a x := ⟨v, a, x, hbest.liftable⟩
      simp only [hsome, not_true_eq_false, Bool.true_eq_false, false_implies, true_and, forall_const]
      exact ⟨v, a, x, hbest⟩

theorem liftMove_of_bilinear : ∃ (P : Problem) (first s : State Random.Xoshiro),
    bilinear.Built ∧ start bilinear shortRun (.ofSeed 0) = .ok (P, first) ∧ Reachable P first s ∧
      bilinear.violated s.assignment.values = .ok [] ∧
      (∀ v ∈ bilinear.objective.vars, ∀ k ∈ bilinear.constraints, k.poly.LinearIn v) ∧
      (∀ v ∈ bilinear.objective.vars,
        ∃ x, IsGreatest (s.assignment.passing v (bilinear.violated · = .ok [])) x) ∧
      ∃ lifted t, liftMove P s = .ok (lifted, t) ∧
        (lifted = false ↔ ¬∃ v a x, Liftable P bilinear s v a x) ∧
        (lifted = false → t = s) ∧
        (lifted = true → ∃ v a x, IsBestLift P bilinear s v a x t) := by
  obtain ⟨P, first, s, hstart, hs, ha⟩ := exists_reachable_bilinear
  have hfeasible : bilinear.violated s.assignment.values = .ok [] := by
    rw [ha]
    rfl
  have hlinear : ∀ v ∈ bilinear.objective.vars, ∀ k ∈ bilinear.constraints,
      k.poly.LinearIn v := by decide
  exact ⟨P, first, s, built_bilinear, hstart, hs, hfeasible, hlinear,
    liftMove_of_reachable built_bilinear hstart hs hfeasible hlinear⟩

/-- Whatever its constraints, a lift of a reachable state without a violated constraint stays
where the slopes predict that all of them hold. A constraint comes to be violated only if a
term of it repeats the variable. -/
theorem repeats_of_violated {f : Formula} (hf : f.Built) {settings : Settings} {source : ρ}
    {first : State ρ} (hstart : start f settings source = .ok (P, first))
    (hs : Reachable P first s) (hfeasible : f.violated s.assignment.values = .ok []) :
    ∃ lifted t, liftMove P s = .ok (lifted, t) ∧ (lifted = false → t = s) ∧
      (lifted = true → ∃ v x found, apply P s v x = .ok t ∧
        t.point = Function.update s.point v x ∧ s.point v < x ∧
        (∀ k ∈ f.constraints, k.HoldsAlong s.point v x) ∧
        f.violated t.assignment.values = .ok found ∧
        ∀ c ∈ found, ∀ k, f.constraints[c]? = some k →
          ∃ m ∈ k.poly.monomials, 2 ≤ m.degree v) := by
  have hsound := sound_first hf hstart
  obtain ⟨rfl, -, hP, -⟩ := start_eq_ok hf.wellFormed hstart
  have hs := (sound_of_reachable hP hsound hs).consistent
  rw [hP.violated_eq hs.inside, Except.ok.injEq] at hfeasible
  obtain ⟨lifted, t, hlift, hcases⟩ := liftMove_cases hP hs hfeasible
  refine ⟨lifted, t, hlift, ?_⟩
  rcases hcases with ⟨rfl, rfl, -⟩ | ⟨rfl, v, a, x, hrises, -, happly⟩
  · simp
  · obtain ⟨-, hholds⟩ := hrises.greatest.1
    obtain ⟨hcontinues, hpoint, hsame⟩ := (succeeds_apply hP hs (hrises.allowed hP)).apply happly
    have hupdate := Function.eq_update_iff.2 ⟨hpoint, hsame⟩
    have hviolated := hP.violated_eq hcontinues.consistent.inside
    simp only [Bool.true_eq_false, false_implies, true_and, forall_const]
    refine ⟨v, x, _, happly, hupdate, hrises.lt, hholds, hviolated, ?_⟩
    intro c hc k hk
    obtain ⟨k', hk', hfails⟩ := Formula.mem_violatedAt.1 hc
    obtain rfl : k = k' := Option.some.inj (hk.symm.trans hk')
    by_contra hnone
    have hlinear : k.poly.LinearIn v := by
      intro m hm
      by_contra hdegree
      exact hnone ⟨m, hm, not_le.1 hdegree⟩
    apply hfails
    change k.HoldsAt t.point
    rw [hupdate, ← Constraint.holdsAlong_iff hlinear]
    exact hholds k (Array.mem_of_getElem? hk)

/-- A square with a limit, and an objective that wants its root great. -/
def square : Formula where
  numVariables := 1
  constraints := #[.of (.ofMonomials [.ofFactors [0, 0] 1]) .le 10]
  objective := (Polynomial.ofMonomial (.linear 0 (-1))).normalize
  domains := #[⟨0, 5⟩]
  names := #[]

theorem built_square : square.Built := by decide

theorem lift_square : ∃ (P : Problem) (first t : State Random.Xoshiro),
    start square shortRun (.ofSeed 0) = .ok (P, first) ∧ liftMove P first = .ok (true, t) ∧
      first.assignment.values = #[0] ∧ t.assignment.values = #[5] := by
  have hrun : ((start square shortRun (Random.Xoshiro.ofSeed 0)).toOption.bind fun result =>
      (liftMove result.1 result.2).toOption.map fun lift =>
        (lift.1, result.2.assignment.values, lift.2.assignment.values)) =
      some (true, #[0], #[5]) := by
    decide +kernel
  obtain ⟨⟨P, first⟩, hstart, h⟩ := Option.bind_eq_some_iff.1 hrun
  obtain ⟨⟨lifted, t⟩, hlift, h⟩ := Option.map_eq_some_iff.1 h
  simp only [Prod.mk.injEq] at h
  obtain ⟨rfl, hfirst, ht⟩ := h
  exact ⟨P, first, t, toOption_eq_some_iff.1 hstart, toOption_eq_some_iff.1 hlift, hfirst, ht⟩

theorem repeats_of_square : ∃ (P : Problem) (first : State Random.Xoshiro),
    square.Built ∧ start square shortRun (.ofSeed 0) = .ok (P, first) ∧
      Reachable P first first ∧ square.violated first.assignment.values = .ok [] ∧
      ∃ lifted t, liftMove P first = .ok (lifted, t) ∧ (lifted = false → t = first) ∧
        (lifted = true → ∃ v x found, apply P first v x = .ok t ∧
          t.point = Function.update first.point v x ∧ first.point v < x ∧
          (∀ k ∈ square.constraints, k.HoldsAlong first.point v x) ∧
          square.violated t.assignment.values = .ok found ∧
          ∀ c ∈ found, ∀ k, square.constraints[c]? = some k →
            ∃ m ∈ k.poly.monomials, 2 ≤ m.degree v) := by
  obtain ⟨P, first, t, hstart, -, hfirst, -⟩ := lift_square
  have hs : Reachable P first first := ⟨[], by simp, rfl⟩
  have hfeasible : square.violated first.assignment.values = .ok [] := by
    rw [hfirst]
    rfl
  exact ⟨P, first, built_square, hstart, hs, hfeasible,
    repeats_of_violated built_square hstart hs hfeasible⟩

/-- A lift may violate a constraint. -/
theorem lift_violates_square : ∃ (P : Problem) (first t : State Random.Xoshiro),
    square.Built ∧ start square shortRun (.ofSeed 0) = .ok (P, first) ∧
      Reachable P first first ∧ square.violated first.assignment.values = .ok [] ∧
      liftMove P first = .ok (true, t) ∧ square.violated t.assignment.values = .ok [0] := by
  obtain ⟨P, first, t, hstart, hlift, hfirst, ht⟩ := lift_square
  refine ⟨P, first, t, built_square, hstart, ⟨[], by simp, rfl⟩, ?_, hlift, ?_⟩
  · rw [hfirst]
    rfl
  · rw [ht]
    rfl

end NonlinearInteger.Search
