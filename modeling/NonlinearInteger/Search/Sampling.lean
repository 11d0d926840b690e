import NonlinearInteger.Search.Candidates

/-!
# Sampled moves

An objective variable below its upper bound competes with other variables of its
constraints. Those outside the objective are pushed out of the way, towards
their least values or, where their terms help, towards their greatest ones. Long
lists are sampled, short ones are taken in order.
-/

namespace NonlinearInteger.Search

variable {ρ : Type} [RandomSource ρ]

def constraintCap : Nat := 50

def linearCap : Nat := 100

def nonlinearCap : Nat := 1000

/-- Random entries, one drawn after another. -/
def drawEntries {α : Type} (entries : Array α) : Nat → ρ → Checked (List α × ρ)
  | 0, source => .ok ([], source)
  | n + 1, source => do
    let (i, source) ← Random.below entries.size source
    let a ← fetch entries i
    let (rest, source) ← drawEntries entries n source
    return (a :: rest, source)

/-- All entries in order if there are no more than a cap, and else random ones. -/
def sample {α : Type} (cap : Nat) (entries : Array α) (source : ρ) : Checked (List α × ρ) :=
  if entries.size ≤ cap then .ok (entries.toList, source) else drawEntries entries cap source

/-- What is found for each member of a list, one after another. -/
def gatherAll {α β : Type} (find : α → ρ → Checked (List β × ρ)) : List α → ρ →
    Checked (List β × ρ)
  | [], source => .ok ([], source)
  | a :: as, source => do
    let (found, source) ← find a source
    let (rest, source) ← gatherAll find as source
    return (found ++ rest, source)

/-- A variable on one of its constraints. -/
structure Spot where
  var : Variable
  row : Nat
  slot : Nat
  deriving DecidableEq, Repr

/-- The sampled constraints of a variable that it has a slope in. -/
def spotsOf (P : Problem) (s : State ρ) (v : Variable) (source : ρ) :
    Checked (List Spot × ρ) := do
  let (occurrences, source) ← sample constraintCap (← fetch P.occurrences v).toArray source
  let spots ← occurrences.filterMapM fun (c, slot) => do
    let cache ← fetch s.caches c
    return if (← fetch cache.slopes slot) = 0 then none else some ⟨v, c, slot⟩
  return (spots, source)

/-- The spots of a variable below its upper bound. -/
def freeSpots (P : Problem) (s : State ρ) (v : Variable) (source : ρ) :
    Checked (List Spot × ρ) := do
  if (← s.assignment.value v) = (← s.assignment.ub v) then return ([], source)
  else spotsOf P s v source

/-- Whether two variables form a term of a constraint. -/
def arePartners (row : Row) (a b : Variable) : Bool :=
  row.monomials.any fun m => m.vars == [min a b, max a b]

/-- The sampled slots of a row with their variables. -/
def sampleSlots (cap : Nat) (row : Row) (source : ρ) : Checked (List (Variable × Nat) × ρ) :=
  sample cap row.vars.zipIdx source

/-- The variables that compete with one at a spot, and the way to push each. A
linear constraint counts only if it limits from above, another one only if the
slope of the variable is negative. -/
def rivalsAt (P : Problem) (s : State ρ) (spot : Spot) (source : ρ) :
    Checked (List (Variable × Direction) × ρ) := do
  let row ← fetch P.rows spot.row
  let cache ← fetch s.caches spot.row
  if row.linear then
    if row.sense = .ge then return ([], source)
    else
      let (slots, source) ← sampleSlots linearCap row source
      let rivals ← slots.filterMapM fun (v, _) => do
        return if ← fetch P.isObjective v then none else some (v, Direction.down)
      return (rivals, source)
  else if 0 ≤ (← fetch cache.slopes spot.slot) then return ([], source)
  else
    let (slots, source) ← sampleSlots nonlinearCap row source
    let rivals ← slots.filterMapM fun (v, slot) => do
      if ← fetch P.isObjective v then return none
      else
        let helps := !arePartners row spot.var v && decide (0 < (← fetch cache.slopes slot))
        return some (v, if helps then Direction.up else Direction.down)
    return (rivals, source)

/-- Adds the moves of a rival on its sampled constraints. -/
def offerRival (P : Problem) (s : State ρ) (v : Variable) (d : Direction) (pool : Pool)
    (source : ρ) : Checked (Pool × ρ) := do
  let (spots, source) ← spotsOf P s v source
  let pool ← spots.foldlM
    (fun pool spot => do offer? P s pool v (← feasibleOn P s v spot.row spot.slot d))
    pool
  return (pool, source)

/-- Moves that make room for the objective. -/
def sampled (P : Problem) (s : State ρ) (source : ρ) : Checked (Pool × ρ) := do
  let (spots, source) ← gatherAll (freeSpots P s) P.objectiveVars source
  let (targets, source) ← gatherAll (rivalsAt P s) spots source
  targets.foldlM (fun (pool, source) (v, d) => offerRival P s v d pool source)
    (Pool.empty, source)

end NonlinearInteger.Search
