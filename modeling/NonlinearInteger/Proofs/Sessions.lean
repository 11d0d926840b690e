import NonlinearInteger.Proofs.Runs

/-!
# Sessions

A search that has been started may be moved by hand and run any number of times.
Whatever the calls, its caches are what the assignment determines, and every
report tells the truth about the formula.
-/

namespace NonlinearInteger.Search

variable {ρ : Type} [RandomSource ρ]

/-- What may be asked of a search: to set a variable, or to run by a clock. -/
inductive Call where
  | move (v : Variable) (x : Int)
  | solve (clock : Clock)

namespace Call

/-- A variable that is set belongs to the formula. Its value may be any integer. -/
def Admissible (P : Problem) : Call → Prop
  | move v _ => v < P.formula.numVariables
  | solve _ => True

/-- The state after a call. A value that is refused leaves the state as it is. -/
def perform (P : Problem) (s : State ρ) : Call → Except StepError (State ρ)
  | move v x =>
    match apply P s v x with
    | .error (.outside _ _ _ _) => .ok s
    | result => result
  | solve clock => do
    let (_, t, _) ← timedRun P clock (fun _ _ => ()) () s
    return t

end Call

def performAll (P : Problem) (s : State ρ) (calls : List Call) : Except StepError (State ρ) :=
  calls.foldlM (Call.perform P) s

/-- A state that admissible calls lead to. -/
def Reachable (P : Problem) (first s : State ρ) : Prop :=
  ∃ calls : List Call, (∀ call ∈ calls, call.Admissible P) ∧ performAll P first calls = .ok s

variable {P : Problem} {lbs ubs : Array Int}

theorem succeeds_perform (hP : Posed P lbs ubs) {s : State ρ} (hs : Consistent P lbs ubs s)
    (hbest : Best P lbs ubs s) {call : Call} (hcall : call.Admissible P) :
    Succeeds (call.perform P s) fun t => Consistent P lbs ubs t ∧ Best P lbs ubs t := by
  cases call with
  | move v x =>
    by_cases hx : valuation lbs v ≤ x ∧ x ≤ valuation ubs v
    · have hm : Allowed P lbs ubs (v, x) := ⟨hcall, hx.1, hx.2⟩
      obtain ⟨t, happly, ht, -⟩ := succeeds_apply hP hs hm
      refine ⟨t, ?_, ht.consistent, hbest.of_continues ht⟩
      simp only [Call.perform, happly]
    · refine ⟨s, ?_, hs, hbest⟩
      simp only [Call.perform, apply_refuses hP hs hcall hx]
  | solve clock =>
    obtain ⟨stop, t, visited, last, hrun, -, ht, htbest⟩ :=
      succeeds_timedRun hP clock (fun _ _ => ()) () hs hbest
    refine ⟨t, ?_, ht, htbest⟩
    simp only [Call.perform, hrun]
    rfl

theorem succeeds_performAll (hP : Posed P lbs ubs) {s : State ρ} (hs : Consistent P lbs ubs s)
    (hbest : Best P lbs ubs s) {calls : List Call} (hcalls : ∀ call ∈ calls, call.Admissible P) :
    Succeeds (performAll P s calls) fun t => Consistent P lbs ubs t ∧ Best P lbs ubs t := by
  apply Succeeds.foldlM (motive := fun t => Consistent P lbs ubs t ∧ Best P lbs ubs t) ⟨hs, hbest⟩
  intro t call hmem ht
  exact succeeds_perform hP ht.1 ht.2 (hcalls call hmem)

/-- The assignment that calls lead to from a start, if nothing fails on the way. -/
def assignmentAfter (f : Formula) (settings : Settings) (source : ρ) (calls : List Call) :
    Option Assignment := do
  let (P, first) ← (start f settings source).toOption
  let s ← (performAll P first calls).toOption
  return s.assignment

/-- Calls that are seen to lead to an assignment reach a state with it. -/
theorem exists_reachable {f : Formula} (hf : f.Built) {settings : Settings} {source : ρ}
    (calls : List Call) {a : Assignment}
    (hcalls : ∀ P : Problem, P.formula = f → ∀ call ∈ calls, call.Admissible P)
    (h : assignmentAfter f settings source calls = some a) : ∃ (P : Problem) (first s : State ρ),
      start f settings source = .ok (P, first) ∧ Reachable P first s ∧ s.assignment = a := by
  obtain ⟨⟨P, first⟩, hstart, h⟩ := Option.bind_eq_some_iff.1 h
  obtain ⟨s, hperform, h⟩ := Option.bind_eq_some_iff.1 h
  have hstart := toOption_eq_some_iff.1 hstart
  have hcalls := hcalls P (start_eq_ok hf.wellFormed hstart).1
  have hs : Reachable P first s := ⟨calls, hcalls, toOption_eq_some_iff.1 hperform⟩
  exact ⟨P, first, s, hstart, hs, Option.some.inj h⟩

theorem exists_reachable_bilinear : ∃ (P : Problem) (first s : State Random.Xoshiro),
    start bilinear shortRun (.ofSeed 0) = .ok (P, first) ∧ Reachable P first s ∧
      s.assignment = ⟨#[3, 2], #[0, -3], #[5, 7]⟩ := by
  refine exists_reachable built_bilinear [.move 0 3, .move 1 2] ?_ ?_
  · intro P hformula
    simp [Call.Admissible, hformula, bilinear]
  · decide +kernel

/-- The cache of a constraint agrees with its evaluation on a table of values, also
in slots whose variable is repeated in a term. -/
structure Cache.UpToDate (row : Row) (k : Constraint) (values : Array Int) (cache : Cache) :
    Prop where
  value : k.poly.evaluate values = .ok cache.value
  size_slopes : cache.slopes.size = row.vars.size
  slopes : ∀ (slot : Nat) (v : Variable), row.vars[slot]? = some v →
    ∃ slope x free, cache.slopes[slot]? = some slope ∧ k.poly.slope v values = .ok slope ∧
      values[v]? = some x ∧ k.poly.evaluateWithout v values = .ok free ∧
        slope * x + free = cache.value

/-- Everything kept beside the assignment agrees with the formula on it. The
bounds are those of a first assignment. -/
structure UpToDate (P : Problem) (first : Assignment) (s : State ρ) : Prop where
  lbs_eq : s.assignment.lbs = first.lbs
  ubs_eq : s.assignment.ubs = first.ubs
  between : ∀ v < P.formula.numVariables, ∃ lb x ub, first.lbs[v]? = some lb ∧
    s.assignment.values[v]? = some x ∧ first.ubs[v]? = some ub ∧ lb ≤ x ∧ x ≤ ub
  size_caches : s.caches.size = P.formula.constraints.size
  caches : ∀ (c : Nat) (k : Constraint), P.formula.constraints[c]? = some k →
    ∃ row cache, P.rows[c]? = some row ∧ s.caches[c]? = some cache ∧
      cache.UpToDate row k s.assignment.values
  objective : P.formula.objectiveValue s.assignment.values = .ok s.objective
  nodup_violated : s.violated.members.toList.Nodup
  violated : ∃ found, P.formula.violated s.assignment.values = .ok found ∧
    ∀ c, c ∈ s.violated.members ↔ c ∈ found
  size_position : s.violated.position.size = P.formula.constraints.size
  position : ∀ c p : Nat,
    s.violated.position[c]? = some (some p) ↔ s.violated.members[p]? = some c

omit [RandomSource ρ] in
theorem Consistent.upToDate {first : Assignment} {s : State ρ}
    (hP : Posed P first.lbs first.ubs) (hs : Consistent P first.lbs first.ubs s) :
    UpToDate P first s := by
  have hsize := hs.inside.size_values.trans hP.size_lbs
  refine {
    lbs_eq := hs.inside.lbs_eq
    ubs_eq := hs.inside.ubs_eq
    between := ?_
    size_caches := hs.cached.size_eq.trans hP.size_rows
    caches := ?_
    objective := ?_
    nodup_violated := hs.filed.valid.nodup
    violated := ⟨_, hP.violated_eq hs.inside, ?_⟩
    size_position := hs.filed.valid.size_position.trans hP.size_rows
    position := hs.filed.valid.inverse }
  · intro v hv
    have hlt : v < first.lbs.size := hP.size_lbs ▸ hv
    have hbetween := hs.inside.between v hlt
    exact ⟨_, _, _, getElem?_eq_valuation hlt, getElem?_eq_valuation (hsize ▸ hv),
      getElem?_eq_valuation (hP.bounds.size_ubs ▸ hv), hbetween.1, hbetween.2⟩
  · intro c k hk
    obtain ⟨sense, -, hrow⟩ := hP.row c k hk
    obtain ⟨cache, hcache⟩ := hs.cache_of_row hrow
    have hshows := hs.cached.shows c k _ cache hk hrow hcache
    have htame := hP.tame_constraint hs.inside (Array.mem_of_getElem? hk)
    refine ⟨_, cache, hrow, hcache, ?_, ?_, ?_⟩
    · rw [hshows.value_eq]
      exact htame.evaluate
    · rw [hshows.slopes_eq, Array.size_map]
    · intro slot v hslot
      have hv := hP.lt_of_mem_vars hrow (Array.mem_of_getElem? hslot)
      refine ⟨_, _, _, hshows.getElem?_slopes hslot, htame.slope v,
        getElem?_eq_valuation (hsize ▸ hv), htame.evaluateWithout v, ?_⟩
      rw [hshows.value_eq]
      exact Polynomial.slopeAt_mul_add_avoiding s.point v k.poly
  · rw [hs.objective_eq]
    exact hP.objectiveValue_eq hs.inside
  · intro c
    rw [hs.filed.mem_iff, Formula.mem_violatedAt]
    rfl

/-- Caches never drift: any sequence of calls leads to a state in which they are
those computed afresh, and the check finds nothing. -/
theorem upToDate_of_calls {f : Formula} (hf : f.Built) {settings : Settings} {source : ρ}
    {first : State ρ} (hstart : start f settings source = .ok (P, first)) {calls : List Call}
    (hcalls : ∀ call ∈ calls, call.Admissible P) :
    ∃ s, performAll P first calls = .ok s ∧ UpToDate P first.assignment s ∧
      checkConsistency P s = .ok () := by
  obtain ⟨-, -, hP, hs, hbest, -⟩ := start_eq_ok hf.wellFormed hstart
  obtain ⟨s, hperform, hs, -⟩ := succeeds_performAll hP hs hbest hcalls
  exact ⟨s, hperform, hs.upToDate hP, checkConsistency_eq_ok hP hs⟩

/-- A move, a refused one, a run, and another move. -/
def cubicCalls : List Call := [.move 0 3, .move 1 1000, .solve .never, .move 1 (-5)]

theorem upToDate_of_cubicCalls : ∃ (P : Problem) (first : State Random.Xoshiro),
    cubic.Built ∧ start cubic shortRun (.ofSeed 0) = .ok (P, first) ∧
      (∀ call ∈ cubicCalls, call.Admissible P) ∧
        ∃ s, performAll P first cubicCalls = .ok s ∧ UpToDate P first.assignment s ∧
          checkConsistency P s = .ok () := by
  obtain ⟨P, first, hstart, hvars⟩ := start_cubic
  have hcalls : ∀ call ∈ cubicCalls, call.Admissible P := by
    simp [cubicCalls, Call.Admissible, hvars]
  exact ⟨P, first, built_cubic, hstart, hcalls, upToDate_of_calls built_cubic hstart hcalls⟩

/-- A report says of its assignment what the formula says. -/
structure Report.Truthful (f : Formula) (first : Assignment) (r : Report) : Prop where
  unsatCount : ∃ found, f.violated r.assignment.values = .ok found ∧ r.unsatCount = found.length
  feasible_iff : r.feasible = true ↔ r.unsatCount = 0
  verified_iff : r.verified = true ↔ r.unsatCount = 0
  violation_iff : r.violation = none ↔ r.unsatCount = 0
  verify_iff : f.verify r.assignment.values = .ok () ↔ r.unsatCount = 0
  objective_isSome_iff : r.objective.isSome = true ↔ r.feasible = true
  objective_eq : ∀ x, r.objective = some x → f.objectiveValue r.assignment.values = .ok x
  lbs_eq : r.assignment.lbs = first.lbs
  ubs_eq : r.assignment.ubs = first.ubs
  size_values : r.assignment.values.size = f.numVariables
  between : ∀ v < f.numVariables, ∃ d lb x ub, f.domains[v]? = some d ∧
    first.lbs[v]? = some lb ∧ r.assignment.values[v]? = some x ∧ first.ubs[v]? = some ub ∧
      d.lb ≤ lb ∧ lb ≤ x ∧ x ≤ ub ∧ ub ≤ d.ub

omit [RandomSource ρ] in
theorem bestViolation_eq_none_iff {s : State ρ} :
    bestViolation P s = none ↔ P.formula.verify s.best.values = .ok () := by
  unfold bestViolation
  split <;> rename_i h
  · simp [h]
  · simp [h]

omit [RandomSource ρ] in
theorem truthful_report {first : Assignment} {s : State ρ} (hP : Posed P first.lbs first.ubs)
    (hbest : Best P first.lbs first.ubs s) (stop : StopReason) :
    (s.report P stop).Truthful P.formula first := by
  have hsize := hbest.inside.size_values.trans hP.size_lbs
  have hzero : s.bestUnsat = 0 ↔ P.formula.verify s.best.values = .ok () := by
    rw [hbest.unsat_eq, List.length_eq_zero_iff, hP.verify_eq_ok_iff_violatedAt hbest.inside]
  have hfeasible : (s.bestUnsat == 0) = true ↔ s.bestUnsat = 0 := beq_iff_eq
  exact {
    unsatCount := ⟨_, hP.violated_eq hbest.inside, hbest.unsat_eq⟩
    feasible_iff := hfeasible
    verified_iff := by
      change (bestViolation P s).isNone = true ↔ s.bestUnsat = 0
      rw [Option.isNone_iff_eq_none, bestViolation_eq_none_iff, hzero]
    violation_iff := by
      change bestViolation P s = none ↔ s.bestUnsat = 0
      rw [bestViolation_eq_none_iff, hzero]
    verify_iff := hzero.symm
    objective_isSome_iff := by
      change (if s.bestUnsat == 0 then some s.bestObjective else none).isSome = true ↔ _
      split
      · rename_i h
        simp [State.report, h]
      · rename_i h
        simpa [State.report] using h
    objective_eq := by
      intro x hx
      have hx : (if s.bestUnsat == 0 then some s.bestObjective else none) = some x := hx
      split at hx
      · cases hx
        rw [hbest.objective_eq]
        exact hP.objectiveValue_eq hbest.inside
      · cases hx
    lbs_eq := hbest.inside.lbs_eq
    ubs_eq := hbest.inside.ubs_eq
    size_values := hsize
    between := by
      intro v hv
      have hlt : v < first.lbs.size := hP.size_lbs ▸ hv
      have hbetween := hbest.inside.between v hlt
      obtain ⟨d, hd, -, hlb, hub⟩ := hP.bounds.declared v hv
      exact ⟨d, _, _, _, hd, getElem?_eq_valuation hlt, getElem?_eq_valuation (hsize ▸ hv),
        getElem?_eq_valuation (hP.bounds.size_ubs ▸ hv), hlb.ge, hbetween.1, hbetween.2, hub⟩ }

/-- Every run from a reachable state gives a report, and the report is truthful. -/
theorem report_of_reachable {f : Formula} (hf : f.Built) {settings : Settings} {source : ρ}
    {first s : State ρ} (hstart : start f settings source = .ok (P, first))
    (hs : Reachable P first s) (clock : Clock) {α : Type} (observe : α → StepTrace → α)
    (seen : α) :
    Succeeds (timedRun P clock observe seen s) fun result =>
      result.1.Truthful f first.assignment := by
  obtain ⟨calls, hcalls, hperform⟩ := hs
  obtain ⟨hformula, -, hP, hfirst, hfirstBest, -⟩ := start_eq_ok hf.wellFormed hstart
  obtain ⟨hs, hbest⟩ := (succeeds_performAll hP hfirst hfirstBest hcalls).apply hperform
  obtain ⟨stop, t, visited, last, hrun, -, -, htbest⟩ :=
    succeeds_timedRun hP clock observe seen hs hbest
  refine ⟨_, hrun, ?_⟩
  rw [← hformula]
  exact truthful_report hP htbest stop

theorem report_of_cubicCalls : ∃ (P : Problem) (first s : State Random.Xoshiro),
    cubic.Built ∧ start cubic shortRun (.ofSeed 0) = .ok (P, first) ∧ Reachable P first s ∧
      Succeeds (timedRun P .never (fun n _ => n + 1) 0 s) fun result =>
        result.1.Truthful cubic first.assignment := by
  obtain ⟨P, first, hstart, hvars⟩ := start_cubic
  obtain ⟨-, -, hP, hfirst, hbest, -⟩ := start_eq_ok built_cubic.wellFormed hstart
  have hcalls : ∀ call ∈ cubicCalls, call.Admissible P := by
    simp [cubicCalls, Call.Admissible, hvars]
  obtain ⟨s, hperform, -⟩ := succeeds_performAll hP hfirst hbest hcalls
  have hs : Reachable P first s := ⟨cubicCalls, hcalls, hperform⟩
  exact ⟨P, first, s, built_cubic, hstart, hs,
    report_of_reachable built_cubic hstart hs .never (fun n _ => n + 1) 0⟩

end NonlinearInteger.Search
