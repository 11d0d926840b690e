import NonlinearInteger.Search.Run
import NonlinearInteger.Proofs.Steps
import NonlinearInteger.Proofs.Checks
import Mathlib.Data.Prod.Lex

/-!
# Runs

Assignments are rated by their violated constraints and then by the objective.
After each step the better one of the current and the best assignment is kept. A
run never fails; the states that it hands to its observer form a trail, one step
after another.
-/

namespace NonlinearInteger.Search

variable {ρ : Type} {P : Problem} {lbs ubs : Array Int}

/-- The number of violated constraints, and then the objective. -/
def State.rating (s : State ρ) : ℕ ×ₗ ℤ := toLex (s.violated.size, s.objective)

/-- The rating of the best assignment. -/
def State.bestRating (s : State ρ) : ℕ ×ₗ ℤ := toLex (s.bestUnsat, s.bestObjective)

theorem Continues.bestRating_eq {s t : State ρ} (h : Continues P lbs ubs s t) :
    t.bestRating = s.bestRating := by
  rw [State.bestRating, h.bestUnsat_eq, h.bestObjective_eq, State.bestRating]

/-- Before and after the first solution, better means a lower rating. -/
theorem improves_iff {s : State ρ} : improves s = true ↔ s.rating < s.bestRating := by
  unfold improves State.rating State.bestRating
  rw [Prod.Lex.toLex_lt_toLex]
  dsimp only
  split
  · simp only [Bool.or_eq_true, decide_eq_true_iff, Bool.and_eq_true, beq_iff_eq]
  · rename_i hfeasible
    have hzero : s.bestUnsat = 0 := Nat.eq_zero_of_not_pos hfeasible
    simp [hzero]

/-- A state after its assignment has been compared with the best one. -/
structure Settled (P : Problem) (lbs ubs : Array Int) (s t : State ρ) : Prop where
  consistent : Consistent P lbs ubs t
  best : Best P lbs ubs t
  assignment_eq : t.assignment = s.assignment
  rating_eq : t.rating = s.rating
  improved : s.rating < s.bestRating → t.best = s.assignment ∧ t.bestRating = s.rating
  kept : ¬s.rating < s.bestRating → t.best = s.best ∧ t.bestRating = s.bestRating

theorem succeeds_updateBest {s : State ρ} (hs : Consistent P lbs ubs s)
    (hbest : Best P lbs ubs s) : Succeeds (updateBest s) (Settled P lbs ubs s) := by
  unfold updateBest
  split
  · rename_i himproves
    have hlt := improves_iff.1 himproves
    have hsize : s.best.size = s.assignment.size :=
      hbest.inside.size_values.trans hs.inside.size_values.symm
    have hcopy : s.best.copyFrom s.assignment = .ok s.assignment := if_pos hsize
    rw [hcopy]
    refine ⟨_, rfl, ?_⟩
    exact {
      consistent := ⟨hs.inside, hs.cached, hs.filed, hs.objective_eq, hs.size_tabuUntil⟩
      best := ⟨hs.inside, hs.filed.size_eq, hs.objective_eq⟩
      assignment_eq := rfl
      rating_eq := rfl
      improved := fun _ => ⟨rfl, rfl⟩
      kept := fun hnot => absurd hlt hnot }
  · rename_i himproves
    refine ⟨s, rfl, ?_⟩
    exact {
      consistent := hs
      best := hbest
      assignment_eq := rfl
      rating_eq := rfl
      improved := fun hlt => absurd (improves_iff.2 hlt) himproves
      kept := fun _ => ⟨rfl, rfl⟩ }

/-- The check asked for passes, so a step is always settled. -/
theorem succeeds_settleStep (hP : Posed P lbs ubs) {s : State ρ} (hs : Consistent P lbs ubs s)
    (hbest : Best P lbs ubs s) (kind : MoveKind) :
    Succeeds (settleStep P s kind) (Settled P lbs ubs s) := by
  have hcounted := hs.withMoves (s.moves.record kind)
  have hupdate : Succeeds (updateBest { s with moves := s.moves.record kind })
      (Settled P lbs ubs s) := by
    apply (succeeds_updateBest hcounted (hbest.withMoves _)).mono
    intro t ht
    exact ⟨ht.consistent, ht.best, ht.assignment_eq, ht.rating_eq, ht.improved, ht.kept⟩
  unfold settleStep
  dsimp only
  split
  · exact .next (checkConsistency_eq_ok hP hcounted) hupdate
  · exact hupdate

variable [RandomSource ρ]

/-- The states that follow one another in a run, each settled after a step of the
given kind, and the state before the next step. -/
inductive Trail (P : Problem) : State ρ → List (MoveKind × State ρ) → State ρ → Prop
  | nil (s : State ρ) : Trail P s [] s
  | cons {s t u last : State ρ} {kind : MoveKind} {rest : List (MoveKind × State ρ)} :
      takeStep P s = .ok (some kind, t) → settleStep P t kind = .ok u →
      Trail P { u with step := u.step + 1 } rest last → Trail P s ((kind, u) :: rest) last

/-- The traces of the states of a trail. -/
def tracesOf (visited : List (MoveKind × State ρ)) : List StepTrace :=
  visited.map fun entry => entry.2.trace entry.1

/-- What an observer has seen after the states of a trail. -/
def observeAll {α : Type} (observe : α → StepTrace → α) (seen : α)
    (visited : List (MoveKind × State ρ)) : α :=
  visited.foldl (fun seen entry => observe seen (entry.2.trace entry.1)) seen

/-- Why a run ends at a state with so many steps left, and the state that it returns:
it has made all its steps, or the time is up, or there is no step. -/
inductive Ends (P : Problem) (clock : Clock) (s : State ρ) : Nat → StopReason → State ρ → Prop
  | stepLimit : timeIsUp P clock s.step = false → Ends P clock s 0 .stepLimit s
  | timeLimit (left : Nat) : timeIsUp P clock s.step = true → Ends P clock s left .timeLimit s
  | exhausted {left : Nat} {t : State ρ} : timeIsUp P clock s.step = false →
      takeStep P s = .ok (none, t) → Ends P clock s (left + 1) .objectiveExhausted t

/-- A run makes one step after another and ends for a reason, whoever observes it. -/
theorem exists_trail (hP : Posed P lbs ubs) (clock : Clock) (n : Nat) {s : State ρ}
    (hs : Consistent P lbs ubs s) (hbest : Best P lbs ubs s) :
    ∃ stop t visited last,
      (∀ {α : Type} (observe : α → StepTrace → α) (seen : α),
        runSteps P clock observe n s seen = .ok (stop, t, observeAll observe seen visited)) ∧
      Trail P s visited last ∧ Ends P clock last (n - visited.length) stop t ∧
      visited.length ≤ n ∧ Continues P lbs ubs last t ∧ Best P lbs ubs t := by
  induction n generalizing s with
  | zero =>
    cases htime : timeIsUp P clock s.step with
    | false =>
      refine ⟨.stepLimit, s, [], s, ?_, .nil s, .stepLimit htime, le_rfl, .refl hs, hbest⟩
      intro α observe seen
      simp only [runSteps, htime]
      rfl
    | true =>
      refine ⟨.timeLimit, s, [], s, ?_, .nil s, .timeLimit _ htime, le_rfl, .refl hs, hbest⟩
      intro α observe seen
      simp only [runSteps, htime]
      rfl
  | succ n ih =>
    cases htime : timeIsUp P clock s.step with
    | true =>
      refine ⟨.timeLimit, s, [], s, ?_, .nil s, .timeLimit _ htime, Nat.zero_le _, .refl hs, hbest⟩
      intro α observe seen
      simp only [runSteps, htime]
      rfl
    | false =>
      obtain ⟨⟨kind, t⟩, htake, ht⟩ := succeeds_takeStep hP hs
      have hbest := hbest.of_continues ht
      cases kind with
      | none =>
        refine ⟨.objectiveExhausted, t, [], s, ?_, .nil s, .exhausted htime htake, Nat.zero_le _,
          ht, hbest⟩
        intro α observe seen
        simp only [runSteps, htime, htake]
        rfl
      | some kind =>
        obtain ⟨u, hsettle, hu⟩ := succeeds_settleStep hP ht.consistent hbest kind
        obtain ⟨stop, w, visited, last, hrun, htrail, hends, hlength, hlast, hw⟩ :=
          ih (hu.consistent.withStep (u.step + 1)) (hu.best.withStep (u.step + 1))
        refine ⟨stop, w, (kind, u) :: visited, last, ?_, .cons htake hsettle htrail, ?_,
          Nat.succ_le_succ hlength, hlast, hw⟩
        · intro α observe seen
          simp only [runSteps, htime, htake, hsettle]
          exact hrun observe (observe seen (u.trace kind))
        · rw [List.length_cons, Nat.add_sub_add_right]
          exact hends

/-- A run gives a report, whatever the clock and the observer. -/
theorem succeeds_timedRun {α : Type} (hP : Posed P lbs ubs) (clock : Clock)
    (observe : α → StepTrace → α) (seen : α) {s : State ρ} (hs : Consistent P lbs ubs s)
    (hbest : Best P lbs ubs s) :
    ∃ stop t visited last, timedRun P clock observe seen s =
        .ok (t.report P stop, t, observeAll observe seen visited) ∧
      Trail P s visited last ∧ Consistent P lbs ubs t ∧ Best P lbs ubs t := by
  obtain ⟨stop, t, visited, last, hrun, htrail, -, -, ht, htbest⟩ :=
    exists_trail hP clock (P.settings.maxSteps - s.step) hs hbest
  refine ⟨stop, t, visited, last, ?_, htrail, ht.consistent, htbest⟩
  unfold timedRun
  rw [hrun observe seen]
  rfl

end NonlinearInteger.Search
