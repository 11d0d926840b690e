import NonlinearInteger.Search.Apply

/-!
# Feasible values and scores

With all other variables fixed, a constraint bounds a variable from one side,
by a quotient of its slope. The score of a move is the weight of the constraints
that it repairs, less the weight of those that it breaks, and the weight of the
objective with the sign of its change.
-/

namespace NonlinearInteger.Search

/-- A variable may be driven to its greatest or to its least feasible value. -/
inductive Direction where
  | up
  | down
  deriving DecidableEq, Repr

variable {ρ : Type}

/-- A value beyond the bound ahead is cut to it; one that lies before the other
bound is none. -/
def clamp (a : Assignment) (v : Variable) (x : Int) (d : Direction) : Checked (Option Int) := do
  let lb ← a.lb v
  let ub ← a.ub v
  let x := match d with
    | .up => min x ub
    | .down => max x lb
  return if lb ≤ x ∧ x ≤ ub then some x else none

/-- The direction in which a constraint bounds a variable of the given slope. -/
def boundedDirection? (sense : Sense) (slope : Int) : Option Direction :=
  if slope = 0 then none
  else
    match sense with
    | .le => some (if 0 < slope then .up else .down)
    | .ge => some (if 0 < slope then .down else .up)

/-- The last value in a direction that satisfies a constraint, whatever the
bounds of the variable. -/
def rawFeasible (P : Problem) (s : State ρ) (v : Variable) (c slot : Nat) (d : Direction) :
    Checked (Option Int) := do
  let row ← fetch P.rows c
  let cache ← fetch s.caches c
  let slope ← fetch cache.slopes slot
  if boundedDirection? row.sense slope = some d then
    let free ← Wide.sub cache.value (← Wide.mul slope (← s.assignment.value v))
    let room ← Wide.sub row.limit free
    match d with
    | .up => return some (← Wide.divFloor room slope)
    | .down => return some (← Wide.divCeil room slope)
  else return none

/-- The last feasible value on one constraint within the bounds. -/
def feasibleOn (P : Problem) (s : State ρ) (v : Variable) (c slot : Nat) (d : Direction) :
    Checked (Option Int) := do
  match ← rawFeasible P s v c slot d with
  | some x => clamp s.assignment v x d
  | none => return none

/-- The nearer of two ends. -/
def nearer (d : Direction) (x y : Int) : Int :=
  match d with
  | .up => min x y
  | .down => max x y

/-- The last value within the bounds that is feasible on every constraint. -/
def feasible (P : Problem) (s : State ρ) (v : Variable) (d : Direction) :
    Checked (Option Int) := do
  let bound ← match d with
    | .up => s.assignment.ub v
    | .down => s.assignment.lb v
  let last ← (← fetch P.occurrences v).foldlM
    (fun last (c, slot) => do
      match ← rawFeasible P s v c slot d with
      | some x => return nearer d last x
      | none => return last)
    bound
  clamp s.assignment v last d

/-- What a constraint adds to the score of a change of one of its slots. -/
def rowScore (row : Row) (cache : Cache) (slope delta : Int) : Int :=
  let before := row.isSatisfied cache
  let after := row.sense.holds
    (Wide.addSaturating cache.value (Wide.mulSaturating slope delta)) row.limit
  if before && !after then -cache.weight
  else if !before && after then cache.weight
  else 0

def hardScore (P : Problem) (s : State ρ) (v : Variable) (x : Int) : Checked Int := do
  let delta ← Wide.sub x (← s.assignment.value v)
  (← fetch P.occurrences v).foldlM
    (fun score (c, slot) => do
      let row ← fetch P.rows c
      let cache ← fetch s.caches c
      return score + rowScore row cache (← fetch cache.slopes slot) delta)
    0

def softScore (P : Problem) (s : State ρ) (v : Variable) (x : Int) : Checked Int := do
  let coef ← fetch P.objectiveCoefs v
  let delta ← Wide.sub x (← s.assignment.value v)
  let change := Wide.mulSaturating coef delta
  return if change < 0 then s.objectiveWeight
    else if 0 < change then -s.objectiveWeight
    else 0

def score (P : Problem) (s : State ρ) (v : Variable) (x : Int) : Checked Int := do
  return (← hardScore P s v x) + (← softScore P s v x)

end NonlinearInteger.Search
