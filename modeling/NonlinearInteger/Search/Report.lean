import NonlinearInteger.Search.Assignment
import NonlinearInteger.Formula.Basic

/-!
# Reports of a search
-/

namespace NonlinearInteger.Search

/-- What a step of the search did. An idle step found nothing to change. -/
inductive MoveKind where
  | lift
  | feasibleSat
  | feasibleUnsat
  | objectiveBound
  | twoLevel
  | sampled
  | randomWalkSat
  | randomWalkUnsat
  | objectiveStep
  | idle
  deriving DecidableEq, Repr

namespace MoveKind

def all : List MoveKind :=
  [lift, feasibleSat, feasibleUnsat, objectiveBound, twoLevel, sampled, randomWalkSat,
    randomWalkUnsat, objectiveStep, idle]

def name : MoveKind → String
  | lift => "lift"
  | feasibleSat => "feasible_sat"
  | feasibleUnsat => "feasible_unsat"
  | objectiveBound => "objective_bound"
  | twoLevel => "two_level"
  | sampled => "sampled"
  | randomWalkSat => "random_walk_sat"
  | randomWalkUnsat => "random_walk_unsat"
  | objectiveStep => "objective_step"
  | idle => "idle"

def ofName? (s : String) : Option MoveKind := all.find? (·.name == s)

theorem ofName?_name (k : MoveKind) : ofName? k.name = some k := by
  cases k <;> decide

end MoveKind

/-- How often each kind of step was made. -/
structure MoveCounts where
  lift : Nat
  feasibleSat : Nat
  feasibleUnsat : Nat
  objectiveBound : Nat
  twoLevel : Nat
  sampled : Nat
  randomWalkSat : Nat
  randomWalkUnsat : Nat
  objectiveStep : Nat
  idle : Nat
  deriving DecidableEq, Repr

namespace MoveCounts

def zero : MoveCounts := ⟨0, 0, 0, 0, 0, 0, 0, 0, 0, 0⟩

def record (c : MoveCounts) : MoveKind → MoveCounts
  | .lift => { c with lift := c.lift + 1 }
  | .feasibleSat => { c with feasibleSat := c.feasibleSat + 1 }
  | .feasibleUnsat => { c with feasibleUnsat := c.feasibleUnsat + 1 }
  | .objectiveBound => { c with objectiveBound := c.objectiveBound + 1 }
  | .twoLevel => { c with twoLevel := c.twoLevel + 1 }
  | .sampled => { c with sampled := c.sampled + 1 }
  | .randomWalkSat => { c with randomWalkSat := c.randomWalkSat + 1 }
  | .randomWalkUnsat => { c with randomWalkUnsat := c.randomWalkUnsat + 1 }
  | .objectiveStep => { c with objectiveStep := c.objectiveStep + 1 }
  | .idle => { c with idle := c.idle + 1 }

def count (c : MoveCounts) : MoveKind → Nat
  | .lift => c.lift
  | .feasibleSat => c.feasibleSat
  | .feasibleUnsat => c.feasibleUnsat
  | .objectiveBound => c.objectiveBound
  | .twoLevel => c.twoLevel
  | .sampled => c.sampled
  | .randomWalkSat => c.randomWalkSat
  | .randomWalkUnsat => c.randomWalkUnsat
  | .objectiveStep => c.objectiveStep
  | .idle => c.idle

def total (c : MoveCounts) : Nat :=
  c.lift + c.feasibleSat + c.feasibleUnsat + c.objectiveBound + c.twoLevel + c.sampled +
    c.randomWalkSat + c.randomWalkUnsat + c.objectiveStep + c.idle

theorem count_record (c : MoveCounts) (k l : MoveKind) :
    (c.record k).count l = c.count l + if k = l then 1 else 0 := by
  cases k <;> cases l <;> rfl

theorem total_record (c : MoveCounts) (k : MoveKind) : (c.record k).total = c.total + 1 := by
  cases k <;> simp only [total, record] <;> omega

end MoveCounts

inductive StopReason where
  | stepLimit
  | timeLimit
  | objectiveExhausted
  deriving DecidableEq, Repr

def StopReason.name : StopReason → String
  | stepLimit => "step_limit"
  | timeLimit => "time_limit"
  | objectiveExhausted => "objective_exhausted"

structure Report where
  assignment : Assignment
  /-- Given for a solution only. -/
  objective : Option Int
  unsatCount : Nat
  feasible : Bool
  steps : Nat
  stop : StopReason
  moves : MoveCounts
  violation : Option Violation
  deriving DecidableEq

/-- Whether the reported values are a solution of the formula as declared. -/
def Report.verified (r : Report) : Bool := r.violation.isNone

/-- What an observer sees after a step. -/
structure StepTrace where
  step : Nat
  kind : MoveKind
  values : Array Int
  unsatCount : Nat
  objective : Int
  bestUnsat : Nat
  bestObjective : Int
  deriving DecidableEq, Repr

end NonlinearInteger.Search
