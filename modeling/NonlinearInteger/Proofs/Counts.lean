import NonlinearInteger.Proofs.Sessions

/-!
# Counts over a session

Every step of every run is handed to an observer once and counted once, under its
kind. Whatever was done with a search before, its next run ends with a report, has
not made more steps than allowed, and all its counters are those of the steps
observed over the whole session.
-/

namespace NonlinearInteger.Search

variable {ρ : Type} {P : Problem} {lbs ubs : Array Int}

theorem counts_of_updateBest {s t : State ρ} (h : updateBest s = .ok t) :
    t.moves = s.moves ∧ t.step = s.step := by
  unfold updateBest at h
  split at h
  · split at h
    · cases h
      exact ⟨rfl, rfl⟩
    · cases h
  · cases h
    exact ⟨rfl, rfl⟩

theorem counts_of_settleStep {s t : State ρ} {kind : MoveKind}
    (h : settleStep P s kind = .ok t) : t.moves = s.moves.record kind ∧ t.step = s.step := by
  unfold settleStep at h
  dsimp only at h
  split at h
  · obtain ⟨-, -, hupdate⟩ := bind_eq_ok.1 h
    exact counts_of_updateBest hupdate
  · exact counts_of_updateBest h

/-- The counters of a state are those of the traces of all its steps. -/
structure Counted (s : State ρ) (traces : List StepTrace) : Prop where
  count_eq : ∀ kind, s.moves.count kind = traces.countP fun trace => trace.kind = kind
  total_eq : s.moves.total = s.step
  step_eq : s.step = traces.length

namespace Counted

variable {s t : State ρ} {traces : List StepTrace}

theorem of_continues (h : Counted s traces) (ht : Continues P lbs ubs s t) :
    Counted t traces := by
  refine ⟨?_, ?_, ?_⟩
  · rw [ht.moves_eq]
    exact h.count_eq
  · rw [ht.moves_eq, ht.step_eq]
    exact h.total_eq
  · rw [ht.step_eq]
    exact h.step_eq

theorem of_settled (h : Counted s traces) {kind : MoveKind} (ht : settleStep P s kind = .ok t) :
    Counted { t with step := t.step + 1 } (traces ++ [t.trace kind]) := by
  obtain ⟨hmoves, hstep⟩ := counts_of_settleStep ht
  refine ⟨?_, ?_, ?_⟩
  · intro other
    have hold := h.count_eq other
    simp only [hmoves, MoveCounts.count_record, hold, List.countP_append, List.countP_singleton,
      State.trace, decide_eq_true_eq]
  · have hold := h.total_eq
    simp only [hmoves, MoveCounts.total_record, hstep, hold]
  · have hold := h.step_eq
    simp [hstep, hold]

end Counted

variable [RandomSource ρ]

theorem Trail.counted (hP : Posed P lbs ubs) {s last : State ρ}
    {visited : List (MoveKind × State ρ)} (h : Trail P s visited last)
    (hs : Consistent P lbs ubs s) (hbest : Best P lbs ubs s) {traces : List StepTrace}
    (hcounted : Counted s traces) : Counted last (traces ++ tracesOf visited) := by
  induction h generalizing traces with
  | nil s => simpa [tracesOf] using hcounted
  | @cons s t u last kind rest htake hsettle _ ih =>
    have ht := (succeeds_takeStep hP hs).apply htake
    have hu := (succeeds_settleStep hP ht.consistent (hbest.of_continues ht) kind).apply hsettle
    have hnext := ih (hu.consistent.withStep _) (hu.best.withStep _)
      ((hcounted.of_continues ht).of_settled hsettle)
    simpa [tracesOf] using hnext

/-- An observer that keeps everything it is handed. -/
def collect (traces : List StepTrace) (trace : StepTrace) : List StepTrace := traces ++ [trace]

omit [RandomSource ρ] in
theorem observeAll_collect (traces : List StepTrace) (visited : List (MoveKind × State ρ)) :
    observeAll collect traces visited = traces ++ tracesOf visited := by
  induction visited generalizing traces with
  | nil => simp [observeAll, tracesOf]
  | cons entry rest ih =>
    have hrest := ih (collect traces (entry.2.trace entry.1))
    simpa [observeAll, tracesOf, collect] using hrest

/-- The state of a search with the traces of all its steps so far. -/
structure Life (ρ : Type) where
  state : State ρ
  traces : List StepTrace

/-- A call with an observer in every run. -/
def Call.observe (P : Problem) (life : Life ρ) : Call → Except StepError (Life ρ)
  | move v x => do return { life with state := ← (move v x).perform P life.state }
  | solve clock => do
    let (_, t, traces) ← timedRun P clock collect life.traces life.state
    return ⟨t, traces⟩

def observeCalls (P : Problem) (life : Life ρ) (calls : List Call) :
    Except StepError (Life ρ) :=
  calls.foldlM (Call.observe P) life

/-- A run of a session: it ends with a report, whoever observes it, and the traces
that it adds are those of the steps it makes. -/
structure Ran (P : Problem) (lbs ubs : Array Int) (life : Life ρ) (clock : Clock)
    (report : Report) (t : State ρ) (seen : List StepTrace) : Prop where
  observed : timedRun P clock collect life.traces life.state =
    .ok (report, t, life.traces ++ seen)
  unobserved : timedRun P clock (fun _ _ => ()) () life.state = .ok (report, t, ())
  consistent : Consistent P lbs ubs t
  best : Best P lbs ubs t
  counted : Counted t (life.traces ++ seen)
  moves_eq : report.moves = t.moves
  steps_eq : report.steps = t.step
  step_le : t.step ≤ max P.settings.maxSteps life.state.step

theorem exists_ran (hP : Posed P lbs ubs) {life : Life ρ} (hs : Consistent P lbs ubs life.state)
    (hbest : Best P lbs ubs life.state) (hcounted : Counted life.state life.traces)
    (clock : Clock) : ∃ report t seen, Ran P lbs ubs life clock report t seen := by
  obtain ⟨stop, t, visited, last, hrun, htrail, -, hlength, ht, htbest⟩ :=
    exists_trail hP clock (P.settings.maxSteps - life.state.step) hs hbest
  have htcounted := (htrail.counted hP hs hbest hcounted).of_continues ht
  refine ⟨t.report P stop, t, tracesOf visited, ?_⟩
  refine {
    observed := ?_
    unobserved := ?_
    consistent := ht.consistent
    best := htbest
    counted := htcounted
    moves_eq := rfl
    steps_eq := rfl
    step_le := ?_ }
  · rw [timedRun, hrun collect life.traces, observeAll_collect]
    rfl
  · rw [timedRun, hrun (fun (_ : Unit) _ => ()) ()]
    rfl
  · have hbefore := hcounted.step_eq
    have hafter := htcounted.step_eq
    simp only [List.length_append, tracesOf, List.length_map] at hafter
    omega

/-- A variable that is set, or a value that is refused, counts no step. -/
theorem succeeds_performMove (hP : Posed P lbs ubs) {s : State ρ} (hs : Consistent P lbs ubs s)
    {v : Variable} (hv : v < P.formula.numVariables) (x : Int) :
    Succeeds ((Call.move v x).perform P s) (Continues P lbs ubs s) := by
  by_cases hx : valuation lbs v ≤ x ∧ x ≤ valuation ubs v
  · obtain ⟨t, happly, ht, -⟩ := succeeds_apply hP hs (v := v) (x := x) ⟨hv, hx.1, hx.2⟩
    refine ⟨t, ?_, ht⟩
    simp only [Call.perform, happly]
  · refine ⟨s, ?_, .refl hs⟩
    simp only [Call.perform, apply_refuses hP hs hv hx]

/-- A call does the same whether it is observed or not, and everything stays
counted. -/
theorem succeeds_observe (hP : Posed P lbs ubs) {life : Life ρ}
    (hs : Consistent P lbs ubs life.state) (hbest : Best P lbs ubs life.state)
    (hcounted : Counted life.state life.traces) {call : Call} (hcall : call.Admissible P) :
    Succeeds (call.observe P life) fun next => call.perform P life.state = .ok next.state ∧
      Consistent P lbs ubs next.state ∧ Best P lbs ubs next.state ∧
      Counted next.state next.traces := by
  cases call with
  | move v x =>
    obtain ⟨t, hperform, ht⟩ := succeeds_performMove hP hs hcall x
    refine ⟨⟨t, life.traces⟩, ?_, hperform, ht.consistent, hbest.of_continues ht,
      hcounted.of_continues ht⟩
    simp only [Call.observe, hperform]
    rfl
  | solve clock =>
    obtain ⟨report, t, seen, hran⟩ := exists_ran hP hs hbest hcounted clock
    refine ⟨⟨t, life.traces ++ seen⟩, ?_, ?_, hran.consistent, hran.best, hran.counted⟩
    · simp only [Call.observe, hran.observed]
      rfl
    · simp only [Call.perform, hran.unobserved]
      rfl

theorem succeeds_observeCalls (hP : Posed P lbs ubs) {calls : List Call} (life : Life ρ)
    (hs : Consistent P lbs ubs life.state) (hbest : Best P lbs ubs life.state)
    (hcounted : Counted life.state life.traces) (hcalls : ∀ call ∈ calls, call.Admissible P) :
    Succeeds (observeCalls P life calls) fun last =>
      performAll P life.state calls = .ok last.state ∧ Consistent P lbs ubs last.state ∧
      Best P lbs ubs last.state ∧ Counted last.state last.traces := by
  induction calls generalizing life with
  | nil => exact ⟨life, rfl, rfl, hs, hbest, hcounted⟩
  | cons call calls ih =>
    obtain ⟨next, hobserve, hperform, hs, hbest, hcounted⟩ :=
      succeeds_observe hP hs hbest hcounted (hcalls call List.mem_cons_self)
    have hrest := ih next hs hbest hcounted
      fun other h => hcalls other (List.mem_cons_of_mem call h)
    have hfirst : observeCalls P life (call :: calls) = observeCalls P next calls := by
      rw [observeCalls, List.foldlM_cons, hobserve]
      rfl
    have hsecond : performAll P life.state (call :: calls) =
        performAll P next.state calls := by
      rw [performAll, List.foldlM_cons, hperform]
      rfl
    rw [hfirst, hsecond]
    exact hrest

omit [RandomSource ρ] in
theorem counted_first {f : Formula} {settings : Settings} {source : ρ} {first : State ρ}
    (hstart : start f settings source = .ok (P, first)) : Counted first [] := by
  obtain ⟨a, caches, objective, violated, -, rfl⟩ := exists_of_start hstart
  exact ⟨fun kind => by cases kind <;> rfl, rfl, rfl⟩

/-- After any calls a run succeeds. It makes no step beyond the limit, every counter
of its report is the number of steps of that kind observed since the start of the
search, and together they are the steps made. -/
theorem counted_run_of_calls {f : Formula} (hf : f.Built) {settings : Settings} {source : ρ}
    {first : State ρ} (hstart : start f settings source = .ok (P, first)) {calls : List Call}
    (hcalls : ∀ call ∈ calls, call.Admissible P) (clock : Clock) :
    ∃ life report t seen, observeCalls P ⟨first, []⟩ calls = .ok life ∧
      performAll P first calls = .ok life.state ∧
      timedRun P clock collect life.traces life.state = .ok (report, t, life.traces ++ seen) ∧
      report.steps ≤ max settings.maxSteps life.state.step ∧
      (∀ kind, report.moves.count kind =
        (life.traces ++ seen).countP fun trace => trace.kind = kind) ∧
      report.moves.total = report.steps := by
  obtain ⟨-, hsettings, hP, hs, hbest, -⟩ := start_eq_ok hf.wellFormed hstart
  obtain ⟨life, hobserve, hperform, hs, hbest, hcounted⟩ :=
    succeeds_observeCalls hP ⟨first, []⟩ hs hbest (counted_first hstart) hcalls
  obtain ⟨report, t, seen, hran⟩ := exists_ran hP hs hbest hcounted clock
  refine ⟨life, report, t, seen, hobserve, hperform, hran.observed, ?_, ?_, ?_⟩
  · rw [hran.steps_eq, ← hsettings]
    exact hran.step_le
  · rw [hran.moves_eq]
    exact hran.counted.count_eq
  · rw [hran.moves_eq, hran.steps_eq]
    exact hran.counted.total_eq

theorem counted_run_of_cubicCalls : ∃ (P : Problem) (first : State Random.Xoshiro),
    cubic.Built ∧ start cubic shortRun (.ofSeed 0) = .ok (P, first) ∧
      (∀ call ∈ cubicCalls, call.Admissible P) ∧
        ∃ life report t seen, observeCalls P ⟨first, []⟩ cubicCalls = .ok life ∧
          performAll P first cubicCalls = .ok life.state ∧
          timedRun P .never collect life.traces life.state =
            .ok (report, t, life.traces ++ seen) ∧
          report.steps ≤ max shortRun.maxSteps life.state.step ∧
          (∀ kind, report.moves.count kind =
            (life.traces ++ seen).countP fun trace => trace.kind = kind) ∧
          report.moves.total = report.steps := by
  obtain ⟨P, first, hstart, hvars⟩ := start_cubic
  have hcalls : ∀ call ∈ cubicCalls, call.Admissible P := by
    simp [cubicCalls, Call.Admissible, hvars]
  exact ⟨P, first, built_cubic, hstart, hcalls,
    counted_run_of_calls built_cubic hstart hcalls .never⟩

end NonlinearInteger.Search
