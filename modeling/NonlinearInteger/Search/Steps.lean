import NonlinearInteger.Search.Sampling

/-!
# Steps

A step changes at most one variable. While a constraint is violated, the best of
some repairs is made if it lowers the weight of the violated constraints;
otherwise their weights grow and a random walk follows. While none is violated,
the strategy decides.
-/

namespace NonlinearInteger.Search

variable {ρ : Type} [RandomSource ρ]

/-- A move with its score. -/
structure Scored where
  move : Move
  score : Int
  deriving DecidableEq, Repr

/-- The first of the best moves. -/
def better (best : Option Scored) (next : Scored) : Scored :=
  match best with
  | some b => if b.score < next.score then next else b
  | none => next

/-- Draws moves from a pool without putting them back, and keeps the best. -/
def drawBest (P : Problem) (s : State ρ) : Nat → Option Scored → Pool → ρ →
    Checked (Option Scored × Pool × ρ)
  | 0, best, pool, source => .ok (best, pool, source)
  | n + 1, best, pool, source => do
    let (i, source) ← Random.below pool.size source
    let (m, pool) ← pool.removeAt i
    let value ← score P s m.1 m.2
    drawBest P s n (some (better best ⟨m, value⟩)) pool source

/-- Whether a score beats a threshold, if there is one. -/
def beats (value : Int) : Option Int → Bool
  | some threshold => decide (threshold < value)
  | none => true

/-- Makes the best of some moves of a pool if it beats the threshold, and tells
whether it did. -/
def selectAndMove (P : Problem) (s : State ρ) (pool : Pool) (threshold : Option Int) :
    Except StepError (Bool × Pool × State ρ) := do
  let samples := min P.settings.bmsThreshold pool.size
  let (best, pool, source) ← drawBest P s samples none pool s.source
  let s := { s with source := source }
  match best with
  | some b =>
    if beats b.score threshold then return (true, pool, ← apply P s b.move.1 b.move.2)
    else return (false, pool, s)
  | none => return (false, pool, s)

def raiseWeight (caches : Array Cache) (c : Nat) : Checked (Array Cache) := do
  let cache ← fetch caches c
  store caches c { cache with weight := cache.weight + 1 }

def maxObjectiveWeight : Int := 100

/-- The violated constraints gain weight, and so does the objective while it is
no better than the best one found. -/
def updateWeights (s : State ρ) : Checked (State ρ) := do
  let caches ← s.violated.members.toList.foldlM raiseWeight s.caches
  let stuck := decide (s.objectiveWeight < maxObjectiveWeight ∧ s.bestUnsat = 0 ∧
    s.bestObjective ≤ s.objective)
  return { s with
    caches := caches
    objectiveWeight := if stuck then s.objectiveWeight + 1 else s.objectiveWeight }

/-- The bound to flip a variable to: the one that it is not at, or either. -/
def flipTarget (lb ub current : Int) (source : ρ) : Int × ρ :=
  if current = ub then (lb, source)
  else if current = lb then (ub, source)
  else
    let (low, source) := Random.coin source
    (if low then lb else ub, source)

/-- Flips a random variable of a constraint to a bound. -/
def walkOn (P : Problem) (s : State ρ) (c : Nat) : Except StepError (Bool × State ρ) := do
  let vars := (← fetch P.rows c).vars
  if vars.isEmpty then return (false, s)
  else
    let (i, source) ← Random.below vars.size s.source
    let v ← fetch vars i
    let current ← s.assignment.value v
    let (target, source) := flipTarget (← s.assignment.lb v) (← s.assignment.ub v) current source
    let s := { s with source := source }
    if target = current then return (false, s) else return (true, ← apply P s v target)

/-- The constraints of a walk: all if they are few, and else random ones. -/
def walkRows (P : Problem) (rows : Array Nat) (source : ρ) : Checked (List Nat × ρ) :=
  sample P.settings.randomStep rows source

/-- Makes the best of some moves on the given constraints, whatever its score,
or else flips a variable of one of them. -/
def randomWalk (P : Problem) (s : State ρ) (rows : Array Nat) (kind : MoveKind) :
    Except StepError (MoveKind × State ρ) := do
  if rows.isEmpty then return (.idle, s)
  else
    let (chosen, source) ← walkRows P rows s.source
    let pool ← movesOn P s chosen
    let (moved, _, s) ← selectAndMove P { s with source := source } pool none
    if moved then return (kind, s)
    else
      let (i, source) ← Random.below rows.size s.source
      let (moved, s) ← walkOn P { s with source := source } (← fetch rows i)
      return (if moved then kind else .idle, s)

/-- The constraints that are not at their limit. -/
def slackRows (P : Problem) (s : State ρ) : Checked (List Nat) :=
  (List.range P.rows.size).filterMapM fun c => do
    return if ← isTightAt P s c then none else some c

def walkSatisfied (P : Problem) (s : State ρ) : Except StepError (MoveKind × State ρ) := do
  randomWalk P s (← slackRows P s).toArray .randomWalkSat

def walkViolated (P : Problem) (s : State ρ) : Except StepError (MoveKind × State ρ) :=
  randomWalk P s s.violated.members .randomWalkUnsat

/-- What moving a variable to its greatest feasible value gains, if it may move. -/
def liftGain? (P : Problem) (s : State ρ) (term : Variable × Int) : Checked (Option Scored) := do
  let (v, coef) := term
  if ← s.isTabu P v then return none
  else
    match ← feasible P s v .up with
    | none => return none
    | some x =>
      let rise ← Wide.sub x (← s.assignment.value v)
      return some ⟨(v, x), Wide.mulSaturating (-coef) rise⟩

/-- The first of the best lifts. -/
def bestLift (P : Problem) (s : State ρ) : Checked (Option Scored) :=
  P.liftTerms.foldlM
    (fun best term => do
      match ← liftGain? P s term with
      | some next => return some (better best next)
      | none => return best)
    none

/-- Moves one variable as far as every constraint allows, if the objective gains. -/
def liftMove (P : Problem) (s : State ρ) : Except StepError (Bool × State ρ) := do
  match ← bestLift P s with
  | some b =>
    if 0 < b.score then return (true, ← apply P s b.move.1 b.move.2) else return (false, s)
  | none => return (false, s)

/-- The objective variables below their upper bounds. -/
def unboundVars (P : Problem) (s : State ρ) : Checked (List Variable) :=
  P.objectiveVars.filterMapM fun v => do
    return if (← s.assignment.value v) < (← s.assignment.ub v) then some v else none

/-- Raises a random objective variable below its upper bound by one. -/
def objectiveStep (P : Problem) (s : State ρ) : Except StepError (Bool × State ρ) := do
  let vars := (← unboundVars P s).toArray
  if vars.isEmpty then return (false, s)
  else
    let (i, source) ← Random.below vars.size s.source
    let v ← fetch vars i
    let current ← s.assignment.value v
    return (true, ← apply P { s with source := source } v (current + 1))

/-- A step with a violated constraint. -/
def repairStep (P : Problem) (s : State ρ) : Except StepError (MoveKind × State ρ) := do
  let (moved, _, s) ← selectAndMove P s (← repairs P s) (some 0)
  if moved then return (.feasibleUnsat, s)
  else walkViolated P (← updateWeights s)

/-- A feasible step that improves the objective and then walks among slack
constraints. -/
def liftStep (P : Problem) (s : State ρ) : Except StepError (MoveKind × State ρ) := do
  let (lifted, s) ← if P.settings.lift then liftMove P s else pure (false, s)
  if lifted then return (.lift, s)
  else
    let (moved, _, s) ← selectAndMove P s (← improvements P s) (some 0)
    if moved then return (.feasibleSat, s)
    else walkSatisfied P (← updateWeights s)

/-- A feasible step that raises the objective variables. There is none once all
of them are at their upper bounds. -/
def objectiveSatStep (P : Problem) (s : State ρ) :
    Except StepError (Option MoveKind × State ρ) := do
  let (moved, _, s) ← selectAndMove P s (← boundMoves P s) (some 0)
  if moved then return (some .objectiveBound, s)
  let (moved, _, s) ← selectAndMove P s (← rises P s) (some 0)
  if moved then return (some .twoLevel, s)
  let (pool, source) ← sampled P s s.source
  let (moved, _, s) ←
    selectAndMove P { s with source := source } pool (some (-s.objectiveWeight))
  if moved then return (some .sampled, s)
  let (moved, s) ← objectiveStep P (← updateWeights s)
  return (if moved then some .objectiveStep else none, s)

/-- A step of the search, if there is one. -/
def takeStep (P : Problem) (s : State ρ) : Except StepError (Option MoveKind × State ρ) :=
  if s.isFeasible then
    match P.settings.strategy with
    | .lift => do
      let (kind, s) ← liftStep P s
      return (some kind, s)
    | .objective => objectiveSatStep P s
  else do
    let (kind, s) ← repairStep P s
    return (some kind, s)

end NonlinearInteger.Search
