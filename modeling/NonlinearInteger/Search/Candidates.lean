import NonlinearInteger.Search.Score
import NonlinearInteger.Search.Pool

/-!
# Candidate moves

Each situation of the search has its own pool of moves. A move is a candidate
when it changes a variable that is not tabu within its bounds.
-/

namespace NonlinearInteger.Search

variable {ρ : Type}

def isCandidate (P : Problem) (s : State ρ) (v : Variable) (x : Int) : Checked Bool := do
  if x = (← s.assignment.value v) then return false
  else if ← s.assignment.admits v x then return !(← s.isTabu P v)
  else return false

/-- Adds a move that is a candidate. -/
def offer (P : Problem) (s : State ρ) (pool : Pool) (v : Variable) (x : Int) : Checked Pool := do
  if ← isCandidate P s v x then return pool.insert (v, x) else return pool

def offer? (P : Problem) (s : State ρ) (pool : Pool) (v : Variable) (x : Option Int) :
    Checked Pool :=
  match x with
  | some x => offer P s pool v x
  | none => return pool

/-- Adds the last feasible values of a slot in both directions. -/
def offerSlot (P : Problem) (s : State ρ) (c : Nat) (pool : Pool) (entry : Variable × Nat) :
    Checked Pool := do
  let greatest ← feasibleOn P s entry.1 c entry.2 .up
  let least ← feasibleOn P s entry.1 c entry.2 .down
  offer? P s (← offer? P s pool entry.1 greatest) entry.1 least

/-- Adds the last feasible values of every variable of a constraint. -/
def offerRow (P : Problem) (s : State ρ) (pool : Pool) (c : Nat) : Checked Pool := do
  (← fetch P.rows c).vars.toList.zipIdx.foldlM (offerSlot P s c) pool

/-- Moves on the given constraints. -/
def movesOn (P : Problem) (s : State ρ) (rows : List Nat) : Checked Pool :=
  rows.foldlM (offerRow P s) .empty

/-- Moves that repair a violated constraint. -/
def repairs (P : Problem) (s : State ρ) : Checked Pool :=
  movesOn P s s.violated.members.toList

def isTightAt (P : Problem) (s : State ρ) (c : Nat) : Checked Bool := do
  return (← fetch P.rows c).isTight (← fetch s.caches c)

/-- Adds the moves on a constraint unless it is tight or has been visited. -/
def offerSlack (P : Problem) (s : State ρ) (visited : List Nat × Pool) (occurrence : Nat × Nat) :
    Checked (List Nat × Pool) := do
  let c := occurrence.1
  if visited.1.elem c then return visited
  else if ← isTightAt P s c then return visited
  else return (c :: visited.1, ← offerRow P s visited.2 c)

/-- Moves around the objective variables: to their bounds, and on the slack
constraints that mention them, each once. -/
def improvements (P : Problem) (s : State ρ) : Checked Pool := do
  let (_, pool) ← P.objectiveVars.foldlM
    (fun (visited, pool) v => do
      let pool ← offer P s pool v (← s.assignment.lb v)
      let pool ← offer P s pool v (← s.assignment.ub v)
      (← fetch P.occurrences v).foldlM (offerSlack P s) (visited, pool))
    ([], Pool.empty)
  return pool

/-- Moves of the objective variables to their upper bounds. -/
def boundMoves (P : Problem) (s : State ρ) : Checked Pool :=
  P.objectiveVars.foldlM
    (fun pool v => do
      let ub ← s.assignment.ub v
      if (← s.assignment.value v) = ub then return pool else offer P s pool v ub)
    .empty

/-- Adds the move of a variable as far up as a slack constraint allows. -/
def offerRise (P : Problem) (s : State ρ) (v : Variable) (current : Int) (pool : Pool)
    (occurrence : Nat × Nat) : Checked Pool := do
  if ← isTightAt P s occurrence.1 then return pool
  else
    match ← feasibleOn P s v occurrence.1 occurrence.2 .up with
    | some x => if current < x then offer P s pool v x else return pool
    | none => return pool

/-- Moves of the objective variables as far up as each slack constraint allows
on its own. -/
def rises (P : Problem) (s : State ρ) : Checked Pool :=
  P.objectiveVars.foldlM
    (fun pool v => do
      let current ← s.assignment.value v
      if current = (← s.assignment.ub v) then return pool
      else if ← s.isTabu P v then return pool
      else (← fetch P.occurrences v).foldlM (offerRise P s v current) pool)
    .empty

end NonlinearInteger.Search
