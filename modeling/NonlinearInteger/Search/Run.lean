import NonlinearInteger.Search.Steps
import NonlinearInteger.Search.Consistency

/-!
# Runs

A run makes steps until the time is up, their number reaches the limit, or the
objective is exhausted. It keeps the best assignment, and hands every step to an
observer. Of two assignments the one with fewer violated constraints is better,
and then the one with the lower objective.
-/

namespace NonlinearInteger.Search

variable {ρ : Type}

/-- Whether the current assignment is better than the best one. Once a feasible
one is known, only feasible ones count. -/
def improves (s : State ρ) : Bool :=
  let unsat := s.violated.size
  if 0 < s.bestUnsat then
    unsat < s.bestUnsat || (unsat == s.bestUnsat && decide (s.objective < s.bestObjective))
  else unsat == 0 && decide (s.objective < s.bestObjective)

/-- Keeps the current assignment if it is better than the best one. The first
feasible one gives the objective its weight. -/
def updateBest (s : State ρ) : Except StepError (State ρ) :=
  if improves s then
    match s.best.copyFrom s.assignment with
    | .ok best => .ok { s with
        best := best
        bestUnsat := s.violated.size
        bestObjective := s.objective
        objectiveWeight :=
          if 0 < s.bestUnsat ∧ s.violated.size = 0 then 1 else s.objectiveWeight }
    | .error cause => .error (.copy cause)
  else .ok s

def State.trace (s : State ρ) (kind : MoveKind) : StepTrace where
  step := s.step
  kind := kind
  values := s.assignment.values
  unsatCount := s.violated.size
  objective := s.objective
  bestUnsat := s.bestUnsat
  bestObjective := s.bestObjective

/-- What follows a step: it is counted, checked if that is asked for, and
compared with the best assignment. -/
def settleStep (P : Problem) (s : State ρ) (kind : MoveKind) : Except StepError (State ρ) := do
  let s := { s with moves := s.moves.record kind }
  if P.settings.validate then checkConsistency P s
  updateBest s

/-- Whether more than the seconds allowed have gone by, as a clock tells that is
read before a step. -/
abbrev Clock := Nat → Bool

/-- No time limit. -/
def Clock.never : Clock := fun _ => false

/-- The clock is read before every hundredth step, if there is a time limit. -/
def timeIsUp (P : Problem) (clock : Clock) (step : Nat) : Bool :=
  P.settings.timeCutoff && step % 100 == 0 && clock step

variable [RandomSource ρ]

/-- Makes at most a number of steps, folding the observer over them. -/
def runSteps {α : Type} (P : Problem) (clock : Clock) (observe : α → StepTrace → α) :
    Nat → State ρ → α → Except StepError (StopReason × State ρ × α)
  | 0, s, seen => .ok (if timeIsUp P clock s.step then .timeLimit else .stepLimit, s, seen)
  | n + 1, s, seen =>
    if timeIsUp P clock s.step then .ok (.timeLimit, s, seen)
    else
      match takeStep P s with
      | .error cause => .error cause
      | .ok (none, s) => .ok (.objectiveExhausted, s, seen)
      | .ok (some kind, s) =>
        match settleStep P s kind with
        | .error cause => .error cause
        | .ok s =>
          let seen := observe seen (s.trace kind)
          runSteps P clock observe n { s with step := s.step + 1 } seen

/-- Whether the best assignment is a solution of the formula as declared. -/
def bestViolation (P : Problem) (s : State ρ) : Option Violation :=
  match P.formula.verify s.best.values with
  | .ok _ => none
  | .error cause => some cause

def State.report (P : Problem) (s : State ρ) (stop : StopReason) : Report :=
  let feasible := s.bestUnsat == 0
  { assignment := s.best
    objective := if feasible then some s.bestObjective else none
    unsatCount := s.bestUnsat
    feasible := feasible
    steps := s.step
    stop := stop
    moves := s.moves
    violation := bestViolation P s }

/-- A run from a state, up to the limits of the settings. -/
def timedRun {α : Type} (P : Problem) (clock : Clock) (observe : α → StepTrace → α) (seen : α)
    (s : State ρ) : Except StepError (Report × State ρ × α) := do
  let (stop, s, seen) ← runSteps P clock observe (P.settings.maxSteps - s.step) s seen
  return (s.report P stop, s, seen)

/-- A run that the clock does not end. -/
def observedRun {α : Type} (P : Problem) (observe : α → StepTrace → α) (seen : α) (s : State ρ) :
    Except StepError (Report × State ρ × α) :=
  timedRun P .never observe seen s

def run (P : Problem) (s : State ρ) : Except StepError (Report × State ρ) := do
  let (report, s, _) ← observedRun P (fun _ _ => ()) () s
  return (report, s)

end NonlinearInteger.Search
