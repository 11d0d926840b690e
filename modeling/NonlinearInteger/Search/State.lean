import NonlinearInteger.Search.Problem
import NonlinearInteger.Search.Report
import NonlinearInteger.Search.IndexSet
import NonlinearInteger.Random.Source

/-!
# Search states

The current assignment with everything that is kept up to date beside it: the
value and the slopes of every constraint, the violated constraints, the value of
the objective, weights, tabu clocks, the best assignment found, and the random
source.
-/

namespace NonlinearInteger.Search

/-- The value of a constraint, the slope of each of its slots, and its weight. -/
structure Cache where
  value : Int
  slopes : Array Int
  weight : Int
  deriving DecidableEq, Repr

structure State (ρ : Type) where
  assignment : Assignment
  best : Assignment
  caches : Array Cache
  violated : IndexSet
  objectiveWeight : Int
  objective : Int
  bestUnsat : Nat
  bestObjective : Int
  /-- The first step at which each variable is free to move. -/
  tabuUntil : Array Nat
  step : Nat
  moves : MoveCounts
  source : ρ

variable {ρ : Type}

/-- Whether a cached constraint holds. -/
def Row.isSatisfied (row : Row) (cache : Cache) : Bool := row.sense.holds cache.value row.limit

/-- Whether a cached constraint is at its limit. -/
def Row.isTight (row : Row) (cache : Cache) : Bool := decide (cache.value = row.limit)

def Cache.of (row : Row) (c : Constraint) (values : Array Int) : Checked Cache := do
  let slopes ← row.vars.mapM fun v => c.poly.slope v values
  let value ← c.poly.evaluate values
  return ⟨value, slopes, 1⟩

/-- The caches of rows and their constraints. -/
def cachesOf (values : Array Int) : List Row → List Constraint → Checked (List Cache)
  | row :: rows, c :: cs => do return (← Cache.of row c values) :: (← cachesOf values rows cs)
  | _, _ => .ok []

/-- The positions of the constraints that do not hold. -/
def violatedIn (rows : List Row) (caches : List Cache) : List Nat :=
  ((rows.zip caches).zipIdx.filter fun ((row, cache), _) => !row.isSatisfied cache).map Prod.snd

namespace State

/-- The state at an assignment, which is also the best one so far. -/
def of (P : Problem) (a : Assignment) (source : ρ) : Checked (State ρ) := do
  let rows := P.rows.toList
  let caches ← cachesOf a.values rows P.formula.constraints.toList
  let objective ← P.formula.objectiveValue a.values
  let violated ← (violatedIn rows caches).foldlM IndexSet.add (IndexSet.empty caches.length)
  return {
    assignment := a
    best := a
    caches := caches.toArray
    violated := violated
    objectiveWeight := if violated.isEmpty then 1 else 0
    objective := objective
    bestUnsat := violated.size
    bestObjective := objective
    tabuUntil := Array.replicate P.formula.numVariables 0
    step := 0
    moves := .zero
    source := source }

/-- Whether no constraint is violated. -/
def isFeasible (s : State ρ) : Bool := s.violated.isEmpty

/-- Whether a variable may not be moved yet. -/
def isTabu (P : Problem) (s : State ρ) (v : Variable) : Checked Bool :=
  if P.settings.tabu then do return decide (s.step < (← fetch s.tabuUntil v)) else return false

/-- The cached slope of a variable in a constraint that mentions it. -/
def slope? (P : Problem) (s : State ρ) (c : Nat) (v : Variable) : Checked (Option Int) := do
  let row ← fetch P.rows c
  let cache ← fetch s.caches c
  match row.vars.idxOf? v with
  | some slot => return some (← fetch cache.slopes slot)
  | none => return none

end State

/-- A problem and its first state. -/
def start (f : Formula) (settings : Settings) (source : ρ) :
    Except StartError (Problem × State ρ) := do
  let (P, a) ← Problem.of f settings
  let s ← State.of P a source
  return (P, s)

end NonlinearInteger.Search
