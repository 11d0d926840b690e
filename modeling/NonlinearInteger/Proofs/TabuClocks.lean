import NonlinearInteger.Proofs.StepKinds

/-!
# Tabu clocks

Changing a variable starts its clock, and nothing else touches it. Whatever chooses
among moves leaves the variables alone whose clock has not run out, so such a step
changes a variable again only after the delay. Walks and single steps of the objective
may come earlier; they start the clock anew.
-/

namespace NonlinearInteger.Search

variable {ρ : Type} {P : Problem} {lbs ubs : Array Int} {s t : State ρ} {v : Variable}

/-- The kinds of steps that choose among moves. -/
def choosingKinds : List MoveKind :=
  [.lift, .feasibleSat, .feasibleUnsat, .objectiveBound, .twoLevel, .sampled]

/-- What becomes of a variable and its clock: both stay as they are, or the variable is
changed and its clock is started. -/
inductive Clocked (P : Problem) (s t : State ρ) (v : Variable) : Prop
  | kept : t.assignment.values[v]? = s.assignment.values[v]? →
      t.tabuUntil[v]? = s.tabuUntil[v]? → Clocked P s t v
  | started (delay : Nat) : t.assignment.values[v]? ≠ s.assignment.values[v]? →
      delay ≤ P.settings.tabuSpread - 1 →
      t.tabuUntil[v]? = some (s.step + P.settings.tabuBase + delay) → Clocked P s t v

theorem Clocked.congr {s' t' : State ρ} (h : Clocked P s t v) (hs : s'.assignment = s.assignment)
    (hclocks : s'.tabuUntil = s.tabuUntil) (hstep : s'.step = s.step)
    (ht : t'.assignment = t.assignment) (hclocks' : t'.tabuUntil = t.tabuUntil) :
    Clocked P s' t' v := by
  cases h with
  | kept hvalue hclock =>
    refine .kept ?_ ?_
    · rw [hs, ht, hvalue]
    · rw [hclocks, hclocks', hclock]
  | started delay hne hdelay hclock =>
    refine .started delay ?_ hdelay ?_
    · rw [hs, ht]
      exact hne
    · rw [hclocks', hstep, hclock]

theorem Moved.clocked (hP : Posed P lbs ubs) (hs : Consistent P lbs ubs s) {m : Move}
    (hm : Moved P lbs ubs s m t) (htabu : P.settings.tabu = true) (v : Variable) :
    Clocked P s t v := by
  have hchanges := hm.changesOnly hP hs
  obtain ⟨delay, hdelay, hclocks⟩ := hm.clock htabu
  by_cases hv : v = m.1
  · subst hv
    exact .started delay hchanges.ne hdelay ((hclocks m.1).trans (if_pos rfl))
  · exact .kept (hchanges.same v hv) ((hclocks v).trans (if_neg hv))

theorem isTabu_eq (htabu : P.settings.tabu = true) {c : Nat} (hc : s.tabuUntil[v]? = some c) :
    s.isTabu P v = .ok (decide (s.step < c)) := by
  rw [State.isTabu, if_pos htabu, fetch_eq_ok.2 hc]
  rfl

theorem Resort.notMem_choosingKinds {kind : MoveKind} {m : Move} (h : Resort P s kind m) :
    kind ∉ choosingKinds := by
  cases h <;> decide

section Stepped

variable [RandomSource ρ] {before taken after : State ρ} {kind : MoveKind}

theorem Stepped.clocked (h : Stepped P lbs ubs before kind taken after) (hP : Posed P lbs ubs)
    (htabu : P.settings.tabu = true) (v : Variable) : Clocked P before after v := by
  have hrecorded := h.recorded
  have htaken : Clocked P before taken v := by
    cases h.transition hP with
    | chosen _ hm => exact hm.clocked hP h.sound.consistent htabu v
    | resorted _ ha hm =>
      exact (hm.clocked hP ha.continues.consistent htabu v).congr ha.assignment_eq.symm
        ha.tabuUntil_eq.symm ha.continues.step_eq.symm rfl rfl
    | idle _ ha => exact .kept (by rw [ha.assignment_eq]) (by rw [ha.tabuUntil_eq])
  exact htaken.congr rfl rfl rfl hrecorded.assignment_eq hrecorded.tabuUntil_eq

/-- What a choosing step changes was free. -/
theorem Stepped.free (h : Stepped P lbs ubs before kind taken after) (hP : Posed P lbs ubs)
    (hkind : kind ∈ choosingKinds)
    (hne : after.assignment.values[v]? ≠ before.assignment.values[v]?) :
    before.isTabu P v = .ok false := by
  rw [h.recorded.assignment_eq] at hne
  cases h.transition hP with
  | @chosen _ m _ hchoice hm =>
    have hv : v = m.1 := by
      by_contra hv
      exact hne ((hm.changesOnly hP h.sound.consistent).same v hv)
    rw [hv]
    exact hchoice.free
  | resorted hresort _ _ => exact absurd hkind hresort.notMem_choosingKinds
  | idle _ ha => exact absurd (by rw [ha.assignment_eq]) hne

end Stepped

variable [RandomSource ρ] {clock : Clock}

namespace Run

variable (run : Run P clock s)

/-- A step of a run gives a variable another value. -/
def Changes (k : Nat) (v : Variable) : Prop :=
  ∃ before kind after, run.HasStep k before kind after ∧
    after.assignment.values[v]? ≠ before.assignment.values[v]?

variable {run} {i k : Nat} {before after moment next : State ρ} {kind : MoveKind}

theorem changes_iff (h : run.HasStep k before kind after) :
    run.Changes k v ↔ after.assignment.values[v]? ≠ before.assignment.values[v]? := by
  constructor
  · rintro ⟨before', kind', after', h', hne⟩
    cases h.before.symm.trans h'.before
    cases h.after.symm.trans h'.after
    exact hne
  · exact fun hne => ⟨before, kind, after, h, hne⟩

section Clocks

variable (hP : Posed P lbs ubs) (hs : Sound P lbs ubs s) (htabu : P.settings.tabu = true)
  (hzero : s.step = 0)

include hP hs in
theorem Changes.lt (h : run.Changes k v) : v < P.formula.numVariables := by
  obtain ⟨before, kind, after, hstep, hne⟩ := h
  obtain ⟨taken, hstepped⟩ := run.stepped hP hs hstep
  have hbefore := hP.size_values hstepped.sound.consistent.inside
  have hafter := hP.size_values (hstepped.sound_after hP).consistent.inside
  by_contra hlt
  have hle : P.formula.numVariables ≤ v := not_lt.1 hlt
  apply hne
  rw [Array.getElem?_eq_none (hafter.trans_le hle), Array.getElem?_eq_none (hbefore.trans_le hle)]

include hP hs htabu hzero in
/-- From one moment to the next, the clock of a variable stays or is started. -/
theorem clock_next (hmoment : run.moments[i]? = some moment)
    (hnext : run.moments[i + 1]? = some next) (v : Variable) :
    (¬run.Changes i v ∧ next.tabuUntil[v]? = moment.tabuUntil[v]?) ∨
      (run.Changes i v ∧ ∃ delay ≤ P.settings.tabuSpread - 1,
        next.tabuUntil[v]? = some (i + P.settings.tabuBase + delay)) := by
  obtain ⟨before, kind, after, hstep, rfl⟩ := run.exists_step hnext
  cases hmoment.symm.trans hstep.before
  obtain ⟨taken, hstepped⟩ := run.stepped hP hs hstep
  rw [changes_iff hstep]
  cases hstepped.clocked hP htabu v with
  | kept hvalue hclock => exact .inl ⟨not_not_intro hvalue, hclock⟩
  | started delay hne hdelay hclock =>
    rw [run.step_eq hP hs hmoment, hzero, Nat.zero_add] at hclock
    exact .inr ⟨hne, delay, hdelay, hclock⟩

include hP hs htabu hzero in
/-- After a change the clock does not run out before the delay, whatever follows. -/
theorem Changes.clock_ge (h : run.Changes k v) (hlt : k < i)
    (hmoment : run.moments[i]? = some moment) :
    ∃ c, moment.tabuUntil[v]? = some c ∧ k + P.settings.tabuBase ≤ c := by
  induction i, hlt using Nat.le_induction generalizing moment with
  | base =>
    obtain ⟨before, kind, after, hstep, -⟩ := run.exists_step hmoment
    rcases clock_next hP hs htabu hzero hstep.before hmoment v with
      ⟨hkept, -⟩ | ⟨-, delay, -, hclock⟩
    · exact absurd h hkept
    · exact ⟨_, hclock, Nat.le_add_right _ _⟩
  | succ i hlt ih =>
    obtain ⟨before, kind, after, hstep, -⟩ := run.exists_step hmoment
    rcases clock_next hP hs htabu hzero hstep.before hmoment v with
      ⟨-, hclock⟩ | ⟨-, delay, -, hclock⟩
    · rw [hclock]
      exact ih hstep.before
    · -- A further change only puts the clock ahead.
      exact ⟨_, hclock, by omega⟩

include hP hs htabu hzero in
/-- If no other change follows, it runs out at the latest after delay and spread. -/
theorem Changes.clock_le (h : run.Changes k v) (hlt : k < i)
    (hlast : ∀ j, k < j → j < i → ¬run.Changes j v)
    (hmoment : run.moments[i]? = some moment) : ∃ c, moment.tabuUntil[v]? = some c ∧
      c ≤ k + P.settings.tabuBase + (P.settings.tabuSpread - 1) := by
  induction i, hlt using Nat.le_induction generalizing moment with
  | base =>
    obtain ⟨before, kind, after, hstep, -⟩ := run.exists_step hmoment
    rcases clock_next hP hs htabu hzero hstep.before hmoment v with
      ⟨hkept, -⟩ | ⟨-, delay, hdelay, hclock⟩
    · exact absurd h hkept
    · exact ⟨_, hclock, by omega⟩
  | succ i hlt ih =>
    obtain ⟨before, kind, after, hstep, -⟩ := run.exists_step hmoment
    rcases clock_next hP hs htabu hzero hstep.before hmoment v with ⟨-, hclock⟩ | ⟨hchange, -⟩
    · rw [hclock]
      exact ih (fun j hj hji => hlast j hj (Nat.lt_succ_of_lt hji)) hstep.before
    · exact absurd hchange (hlast i hlt (Nat.lt_succ_self i))

include hP hs htabu hzero in
/-- No clock is ever ahead by more than delay and spread. -/
theorem clock_bound (hfirst : ∀ c, s.tabuUntil[v]? = some c → c = 0)
    (hmoment : run.moments[i]? = some moment) {c : Nat} (hc : moment.tabuUntil[v]? = some c) :
    c ≤ i + P.settings.tabuBase + (P.settings.tabuSpread - 1) := by
  induction i generalizing moment c with
  | zero =>
    cases hmoment
    rw [hfirst c hc]
    exact Nat.zero_le _
  | succ i ih =>
    obtain ⟨before, kind, after, hstep, -⟩ := run.exists_step hmoment
    rcases clock_next hP hs htabu hzero hstep.before hmoment v with
      ⟨-, hclock⟩ | ⟨-, delay, hdelay, hclock⟩
    · rw [hclock] at hc
      have := ih hstep.before hc
      omega
    · rw [hclock] at hc
      cases hc
      omega

end Clocks

end Run

/-- Tabu over a whole run. A variable that was changed is tabu until the delay is over.
It is free again after delay and spread, unless it has been changed once more, and a step
that chooses changes it only after the delay. Clocks are machine words for as long as a step,
the delay and the spread add up to one. -/
structure TabuRespected (settings : Settings) (run : Run P clock s) : Prop where
  tabu : ∀ {k i : Nat} {v : Variable} {moment : State ρ}, run.Changes k v → k < i →
    i < k + settings.tabuBase → run.moments[i]? = some moment → moment.isTabu P v = .ok true
  free : ∀ {k i : Nat} {v : Variable} {moment : State ρ}, run.Changes k v →
    (∀ j, k < j → j < i → ¬run.Changes j v) → k ≤ i →
    k + settings.tabuBase + (settings.tabuSpread - 1) ≤ i → run.moments[i]? = some moment →
    moment.isTabu P v = .ok false
  waited : ∀ {k i : Nat} {v : Variable} {before after : State ρ} {kind : MoveKind},
    run.Changes k v → k < i → run.HasStep i before kind after → kind ∈ choosingKinds →
    run.Changes i v → k + settings.tabuBase ≤ i
  word : ∀ {i : Nat} {v : Variable} {moment : State ρ} {c : Nat}, run.moments[i]? = some moment →
    moment.tabuUntil[v]? = some c →
    FitsNat64 (i + settings.tabuBase + (settings.tabuSpread - 1)) → FitsNat64 c

theorem Run.tabuRespected (hP : Posed P lbs ubs) (hs : Sound P lbs ubs s)
    (htabu : P.settings.tabu = true) (hzero : s.step = 0)
    (hfirst : ∀ (v : Variable) (c : Nat), s.tabuUntil[v]? = some c → c = 0)
    (run : Run P clock s) : TabuRespected P.settings run := by
  have hstep_eq : ∀ {i : Nat} {moment : State ρ}, run.moments[i]? = some moment →
      moment.step = i := by
    intro i moment hmoment
    rw [run.step_eq hP hs hmoment, hzero, Nat.zero_add]
  have htabu_of : ∀ {k i : Nat} {v : Variable} {moment : State ρ}, run.Changes k v → k < i →
      i < k + P.settings.tabuBase → run.moments[i]? = some moment →
      moment.isTabu P v = .ok true := by
    intro k i v moment hchange hlt hdelay hmoment
    obtain ⟨c, hclock, hge⟩ := hchange.clock_ge hP hs htabu hzero hlt hmoment
    rw [isTabu_eq htabu hclock, hstep_eq hmoment, decide_eq_true (by omega)]
  refine ⟨htabu_of, ?_, ?_, fun hmoment hc hfits =>
    (Run.clock_bound hP hs htabu hzero (hfirst _) hmoment hc).trans hfits⟩
  · intro k i v moment hchange hlast hle hspread hmoment
    have hbound : ∃ c, moment.tabuUntil[v]? = some c ∧ c ≤ i := by
      rcases Nat.lt_or_eq_of_le hle with hlt | rfl
      · obtain ⟨c, hclock, hc⟩ := hchange.clock_le hP hs htabu hzero hlt hlast hmoment
        exact ⟨c, hclock, hc.trans hspread⟩
      · -- Without delay and spread, a clock started earlier has run out by now.
        have hmem := run.sound hP hs hmoment
        have hv : v < moment.tabuUntil.size := by
          rw [hmem.consistent.size_tabuUntil]
          exact hchange.lt hP hs
        have hclock := Array.getElem?_eq_getElem hv
        have hc := Run.clock_bound hP hs htabu hzero (hfirst v) hmoment hclock
        exact ⟨_, hclock, hc.trans hspread⟩
    obtain ⟨c, hclock, hc⟩ := hbound
    rw [isTabu_eq htabu hclock, hstep_eq hmoment, decide_eq_false (by omega)]
  · intro k i v before after kind hchange hlt hstep hkind hagain
    by_contra hearly
    obtain ⟨taken, hstepped⟩ := run.stepped hP hs hstep
    have hfree := hstepped.free hP hkind ((Run.changes_iff hstep).1 hagain)
    cases hfree.symm.trans (htabu_of hchange hlt (not_le.1 hearly) hstep.before)

omit [RandomSource ρ] in
theorem clock_first {f : Formula} {settings : Settings} {source : ρ} {first : State ρ}
    (hstart : start f settings source = .ok (P, first)) {c : Nat}
    (hc : first.tabuUntil[v]? = some c) : c = 0 := by
  obtain ⟨a, caches, objective, violated, -, rfl⟩ := exists_of_start hstart
  rw [Array.getElem?_replicate] at hc
  split at hc
  · exact (Option.some.inj hc).symm
  · cases hc

/-- With tabu on, every run from a first state respects it. -/
theorem tabuRespected_of_start {f : Formula} (hf : f.Built) {settings : Settings}
    (htabu : settings.tabu = true) {source : ρ} {first : State ρ}
    (hstart : start f settings source = .ok (P, first)) (clock : Clock) :
    Nonempty (Run P clock first) ∧ ∀ run : Run P clock first, TabuRespected settings run := by
  obtain ⟨-, rfl, hP, -, -, -, hzero⟩ := start_eq_ok hf.wellFormed hstart
  have hs := sound_first hf hstart
  exact ⟨Run.nonempty hP hs clock,
    Run.tabuRespected hP hs htabu hzero fun _ _ => clock_first hstart⟩

theorem tabuRespected_of_cubic : ∃ (P : Problem) (first : State Random.Xoshiro),
    cubic.Built ∧ shortRun.tabu = true ∧ start cubic shortRun (.ofSeed 0) = .ok (P, first) ∧
      Nonempty (Run P .never first) ∧
        ∀ run : Run P .never first, TabuRespected shortRun run := by
  obtain ⟨P, first, hstart, -⟩ := start_cubic
  exact ⟨P, first, built_cubic, rfl, hstart, tabuRespected_of_start built_cubic rfl hstart .never⟩

end NonlinearInteger.Search
