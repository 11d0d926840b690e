import NonlinearInteger.Proofs.Exactness
import NonlinearInteger.Proofs.Moments

/-!
# Budgets

Some settings say only how long a run may go on, whether it is checked and whether it
is printed. No step reads them. Of two runs that differ in these alone and that no clock
ends, the one with fewer steps allowed makes the first steps of the other, which then
reports nothing worse.
-/

namespace NonlinearInteger.Search

variable {ρ : Type}

/-- The settings that no step reads. -/
structure Budget where
  maxSteps : Nat
  stepCutoff : Bool
  validate : Bool
  printStep : Bool
  deriving DecidableEq, Repr

namespace Settings

def budget (settings : Settings) : Budget where
  maxSteps := settings.maxSteps
  stepCutoff := settings.stepCutoff
  validate := settings.validate
  printStep := settings.printStep

def under (settings : Settings) (budget : Budget) : Settings :=
  { settings with
    maxSteps := budget.maxSteps
    stepCutoff := budget.stepCutoff
    validate := budget.validate
    printStep := budget.printStep }

/-- Settings that differ in their budgets only. -/
def SameSearch (a b : Settings) : Prop := b = a.under b.budget

end Settings

def Problem.under (P : Problem) (budget : Budget) : Problem :=
  { P with settings := P.settings.under budget }

theorem Problem.of_under (f : Formula) (settings : Settings) (budget : Budget) :
    Problem.of f (settings.under budget) =
      (fun posed => (posed.1.under budget, posed.2)) <$> Problem.of f settings := by
  have hgreedy : (settings.under budget).greedyInit = settings.greedyInit := rfl
  simp only [Problem.of, hgreedy]
  split
  · rfl
  · simp only [map_bind]
    refine bind_congr fun rows => bind_congr fun terms => bind_congr fun a => ?_
    refine bind_congr fun _ => bind_congr fun fits => ?_
    split <;> rfl

theorem start_under (f : Formula) (settings : Settings) (source : ρ) (budget : Budget) :
    start f (settings.under budget) source =
      (fun begun => (begun.1.under budget, begun.2)) <$> start f settings source := by
  unfold start
  rw [Problem.of_under]
  simp only [bind_map_left, map_bind, map_pure]
  rfl

section Step

variable [RandomSource ρ] (P : Problem) (budget : Budget) (s : State ρ)

theorem drawBest_under : drawBest (P.under budget) s = drawBest P s := by
  funext n
  induction n with
  | zero => rfl
  | succ n ih =>
    funext best pool source
    simp only [drawBest, ih]
    rfl

theorem selectAndMove_under : selectAndMove (P.under budget) s = selectAndMove P s := by
  unfold selectAndMove
  simp only [drawBest_under]
  rfl

theorem randomWalk_under : randomWalk (P.under budget) s = randomWalk P s := by
  unfold randomWalk
  simp only [selectAndMove_under]
  rfl

theorem takeStep_under : takeStep (P.under budget) s = takeStep P s := by
  unfold takeStep liftStep objectiveSatStep repairStep walkSatisfied walkViolated
  simp only [selectAndMove_under, randomWalk_under]
  rfl

end Step

variable {P : Problem} {lbs ubs : Array Int} {s : State ρ}

theorem Posed.under (hP : Posed P lbs ubs) (budget : Budget) : Posed (P.under budget) lbs ubs :=
  { hP with }

theorem Sound.under (hs : Sound P lbs ubs s) (budget : Budget) :
    Sound (P.under budget) lbs ubs s where
  consistent := { hs.consistent with
    cached := { hs.consistent.cached with }
    filed := { hs.consistent.filed with } }
  best := { hs.best with }
  weighted := hs.weighted

/-- The check that may be asked for passes, so it makes no difference. -/
theorem settleStep_eq (hP : Posed P lbs ubs) (hs : Consistent P lbs ubs s) (kind : MoveKind) :
    settleStep P s kind = updateBest { s with moves := s.moves.record kind } := by
  unfold settleStep
  dsimp only
  split
  · rw [checkConsistency_eq_ok hP (hs.withMoves _)]
    rfl
  · rfl

theorem settleStep_under (hP : Posed P lbs ubs) (hs : Sound P lbs ubs s) (kind : MoveKind)
    (budget : Budget) : settleStep (P.under budget) s kind = settleStep P s kind := by
  rw [settleStep_eq hP hs.consistent, settleStep_eq (hP.under budget) (hs.under budget).consistent]

variable [RandomSource ρ] {budget : Budget} {clock clock' : Clock}

omit [RandomSource ρ] in
theorem timeIsUp_eq_false (h : P.settings.timeCutoff = false) (step : Nat) :
    timeIsUp P clock step = false := by
  simp [timeIsUp, h]

theorem Ends.takeStep_eq (htime : P.settings.timeCutoff = false) {left : Nat}
    {stop : StopReason} {t : State ρ} (h : Ends P clock s left stop t) (hleft : 0 < left) :
    takeStep P s = .ok (none, t) := by
  cases h with
  | stepLimit => exact absurd hleft (Nat.lt_irrefl 0)
  | timeLimit _ hup =>
    rw [timeIsUp_eq_false htime] at hup
    cases hup
  | exhausted _ htake => exact htake

/-- Of two runs from one state, the one with fewer steps allowed visits the first states
that the other one visits. -/
theorem Trail.eq_take (hP : Posed P lbs ubs) (htime : P.settings.timeCutoff = false)
    {visited visited' : List (MoveKind × State ρ)} {last last' t t' : State ρ}
    {stop stop' : StopReason} {m n : Nat} (hs : Sound P lbs ubs s)
    (h : Trail P s visited last) (hm : visited.length ≤ m)
    (hends : Ends P clock last (m - visited.length) stop t)
    (h' : Trail (P.under budget) s visited' last')
    (hends' : Ends (P.under budget) clock' last' (n - visited'.length) stop' t') (hmn : m ≤ n) :
    visited = visited'.take m := by
  have htime' : (P.under budget).settings.timeCutoff = false := htime
  induction h generalizing m n visited' with
  | nil s =>
    cases h' with
    | nil => rw [List.take_nil]
    | cons htake' _ _ =>
      -- The first run has made all its steps, or else the second one could make none.
      rcases Nat.eq_zero_or_pos m with rfl | hpos
      · rfl
      · rw [takeStep_under, hends.takeStep_eq htime hpos] at htake'
        cases htake'
  | @cons s t u last kind rest htake hsettle _ ih =>
    have hfirst : Stepped P lbs ubs s kind t u := ⟨hs, htake, hsettle⟩
    obtain ⟨m, rfl⟩ : ∃ k, m = k + 1 := ⟨m - 1, by simp only [List.length_cons] at hm; omega⟩
    cases h' with
    | nil =>
      have hnone := hends'.takeStep_eq htime' (Nat.sub_pos_of_lt ((Nat.succ_pos m).trans_le hmn))
      rw [takeStep_under, htake] at hnone
      cases hnone
    | cons htake' hsettle' hrest' =>
      rw [takeStep_under, htake] at htake'
      cases htake'
      rw [settleStep_under hP (hs.of_transition (hfirst.continues hP) (hfirst.transition hP)),
        hsettle] at hsettle'
      cases hsettle'
      simp only [List.length_cons] at hm hends hends'
      rw [Nat.add_sub_add_right] at hends
      have htail := ih (n := n - 1) ((hfirst.sound_after hP).withStep _) (by omega) hends hrest'
        (by rwa [Nat.sub_sub, Nat.add_comm 1]) (by omega)
      rw [List.take_succ_cons, htail]

theorem Run.getElem?_moments_of_take {run : Run P clock s} {run' : Run (P.under budget) clock' s}
    {m : Nat} (h : run.visited = run'.visited.take m) :
    run'.moments[run.visited.length]? = some run.last := by
  have hmoments : run.moments = run'.moments.take (m + 1) := by
    simp only [Run.moments, Search.moments, h, List.map_take, List.take_succ_cons]
  have hlast := run.getElem?_last
  rw [hmoments, List.getElem?_take] at hlast
  split at hlast
  · exact hlast
  · cases hlast

/-- A report that is no worse than another one. -/
structure Report.NoWorse (better worse : Report) : Prop where
  unsatCount_le : better.unsatCount ≤ worse.unsatCount
  feasible : worse.feasible = true → better.feasible = true
  objective_le : worse.feasible = true → ∃ x y, better.objective = some x ∧
    worse.objective = some y ∧ x ≤ y

omit [RandomSource ρ] in
theorem State.noWorse_report {t : State ρ} (h : t.bestRating ≤ s.bestRating) (P Q : Problem)
    (stop stop' : StopReason) : (t.report Q stop').NoWorse (s.report P stop) := by
  have hparts := Prod.Lex.toLex_le_toLex.1 h
  have hfeasible : s.bestUnsat = 0 → t.bestUnsat = 0 ∧ t.bestObjective ≤ s.bestObjective := by
    intro hzero
    dsimp only at hparts
    omega
  refine ⟨?_, ?_, ?_⟩
  · change t.bestUnsat ≤ s.bestUnsat
    exact hparts.elim Nat.le_of_lt fun heq => heq.1.le
  · intro hs
    exact beq_iff_eq.2 (hfeasible (beq_iff_eq.1 hs)).1
  · intro hs
    have hzero := beq_iff_eq.1 hs
    obtain ⟨ht, hle⟩ := hfeasible hzero
    exact ⟨t.bestObjective, s.bestObjective, by simp [State.report, ht],
      by simp [State.report, hzero], hle⟩

/-- A run and its traces beside those of a run with fewer steps allowed. -/
structure Extends (maxSteps : Nat) (short long : Report × List StepTrace) : Prop where
  traces_eq : short.2 = long.2.take (min maxSteps long.2.length)
  noWorse : long.1.NoWorse short.1

theorem Run.extends (hP : Posed P lbs ubs) (hs : Sound P lbs ubs s) (hfirst : s.step = 0)
    (htime : P.settings.timeCutoff = false) (hsteps : P.settings.maxSteps ≤ budget.maxSteps)
    (run : Run P clock s) (run' : Run (P.under budget) clock' s) :
    Extends P.settings.maxSteps (run.report, tracesOf run.visited)
      (run'.report, tracesOf run'.visited) := by
  have hvisited : run.visited = run'.visited.take P.settings.maxSteps := by
    have hlength := run.length_le
    have hends := run.ends
    have hends' := run'.ends
    rw [hfirst, Nat.sub_zero] at hlength hends hends'
    exact run.trail.eq_take hP htime hs hlength hends run'.trail hends' hsteps
  have hlength : run.visited.length ≤ run'.visited.length := by
    rw [hvisited]
    exact List.length_take_le' _ _
  have hrating : run'.result.bestRating ≤ run.result.bestRating := by
    have hlast := run'.bestRating_le (hP.under budget) (hs.under budget) hlength
      (Run.getElem?_moments_of_take hvisited) run'.getElem?_last
    have hresult := (run.continues_result hP hs).1.bestRating_eq
    have hresult' := (run'.continues_result (hP.under budget) (hs.under budget)).1.bestRating_eq
    rwa [hresult, hresult']
  refine ⟨?_, ?_⟩
  · change tracesOf run.visited = (tracesOf run'.visited).take _
    rw [← List.take_eq_take_min, tracesOf, tracesOf, ← List.map_take, ← hvisited]
  · rw [run.report_eq, run'.report_eq]
    exact State.noWorse_report hrating _ _ _ _

/-- Settings that differ in their budgets only lead to the same search. The run with more
steps allowed starts with what the other one does and reports nothing worse. -/
theorem extends_of_sameSearch {f : Formula} (hf : f.Built) {a b : Settings}
    (hsame : a.SameSearch b) (htime : a.timeCutoff = false) (hsteps : a.maxSteps ≤ b.maxSteps)
    {source : ρ} {first : State ρ} (hstart : start f a source = .ok (P, first))
    (clock clock' : Clock) : ∃ Q r t traces r' t' traces',
      start f b source = .ok (Q, first) ∧
      timedRun P clock collect [] first = .ok (r, t, traces) ∧
      timedRun Q clock' collect [] first = .ok (r', t', traces') ∧
      Extends a.maxSteps (r, traces) (r', traces') := by
  obtain ⟨-, hsettings, hP, -, -, -, hzero⟩ := start_eq_ok hf.wellFormed hstart
  have hs := sound_first hf hstart
  have hstart' : start f b source = .ok (P.under b.budget, first) := by
    rw [hsame, start_under, hstart]
    rfl
  rw [← hsettings] at htime hsteps ⊢
  obtain ⟨run⟩ := Run.nonempty hP hs clock
  obtain ⟨run'⟩ := Run.nonempty (hP.under b.budget) (hs.under b.budget) clock'
  refine ⟨P.under b.budget, run.report, run.result, tracesOf run.visited, run'.report,
    run'.result, tracesOf run'.visited, hstart', ?_, ?_, run.extends hP hs hzero htime hsteps run'⟩
  · rw [run.observed, observeAll_collect, List.nil_append]
  · rw [run'.observed, observeAll_collect, List.nil_append]

/-- Settings for runs that are longer, and checked. -/
def checkedRun : Settings := { shortRun with maxSteps := 80, validate := true }

theorem extends_of_cubic : ∃ (P : Problem) (first : State Random.Xoshiro),
    cubic.Built ∧ shortRun.SameSearch checkedRun ∧ shortRun.timeCutoff = false ∧
      shortRun.maxSteps ≤ checkedRun.maxSteps ∧
      start cubic shortRun (.ofSeed 0) = .ok (P, first) ∧ ∃ Q r t traces r' t' traces',
        start cubic checkedRun (.ofSeed 0) = .ok (Q, first) ∧
        timedRun P .never collect [] first = .ok (r, t, traces) ∧
        timedRun Q .never collect [] first = .ok (r', t', traces') ∧
        Extends shortRun.maxSteps (r, traces) (r', traces') := by
  obtain ⟨P, first, hstart, -⟩ := start_cubic
  have hsame : shortRun.SameSearch checkedRun := rfl
  have hsteps : shortRun.maxSteps ≤ checkedRun.maxSteps := by decide
  exact ⟨P, first, built_cubic, hsame, rfl, hsteps, hstart,
    extends_of_sameSearch built_cubic hsame rfl hsteps hstart .never .never⟩

end NonlinearInteger.Search
