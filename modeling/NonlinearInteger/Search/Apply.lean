import NonlinearInteger.Search.State

/-!
# Moving a variable

Setting a variable updates every cache that depends on it. In a linear
constraint the value changes by slope times difference. Of another constraint
the terms with the variable are taken out on the old values and put back on the
new ones, from the value and from the slopes of all their slots.
-/

namespace NonlinearInteger.Search

/-- A cache that differs from the value computed afresh. -/
inductive Inconsistency where
  | outside (name : String) (value lb ub : Int)
  | constraintValue (index : Nat) (cached expected : Int)
  | slope (index : Nat) (cached : Int) (name : String) (expected : Int)
  | misfiled (index : Nat)
  | stalePosition (index : Nat)
  | objective (cached expected : Int)
  deriving DecidableEq, Repr

/-- Why a step of the search fails. -/
inductive StepError where
  | outside (name : String) (value lb ub : Int)
  | copy (cause : SizeMismatch)
  | inconsistent (cause : Inconsistency)
  | fault (cause : Fault)
  deriving DecidableEq, Repr

def Inconsistency.message : Inconsistency → String
  | outside name value lb ub =>
    name ++ " = " ++ toString value ++ " outside [" ++ toString lb ++ ", " ++ toString ub ++ "]"
  | constraintValue index cached expected =>
    "Constraint '" ++ toString index ++ "' cached value " ++ toString cached ++
      " but evaluates to " ++ toString expected
  | slope index cached name expected =>
    "Constraint '" ++ toString index ++ "' cached coefficient " ++ toString cached ++ " of " ++
      name ++ " but recomputes to " ++ toString expected
  | misfiled index => "Constraint '" ++ toString index ++ "' misfiled in the unsatisfied set"
  | stalePosition index =>
    "Unsatisfied set index of constraint '" ++ toString index ++ "' is stale"
  | objective cached expected =>
    "Cached objective " ++ toString cached ++ " but evaluates to " ++ toString expected

def StepError.message : StepError → String
  | outside name value lb ub =>
    "Value " ++ toString value ++ " for " ++ name ++ " outside [" ++ toString lb ++ ", " ++
      toString ub ++ "]"
  | copy cause => cause.message
  | inconsistent cause => cause.message
  | fault _ => "Incomplete state"

instance : MonadLift Checked (Except StepError) :=
  ⟨fun x => x.mapError .fault⟩

variable {ρ : Type}

/-- Adds the slope of a slot in a term to its cached slope, or subtracts it. -/
def shiftSlope (combine : Int → Int → Checked Int) (row : Row) (m : Monomial)
    (values : Array Int) (slopes : Array Int) (slot : Nat) : Checked (Array Int) := do
  let v ← fetch row.vars slot
  let old ← fetch slopes slot
  store slopes slot (← combine old (← m.slope v values))

/-- Adds a term to the cache of its constraint, or subtracts it. -/
def shiftTerm (combine : Int → Int → Checked Int) (row : Row) (values : Array Int)
    (cache : Cache) (term : Nat) : Checked Cache := do
  let m ← fetch row.monomials term
  let value ← combine cache.value (← m.evaluate values)
  let slots ← fetch row.monoSlots term
  let slopes ← slots.foldlM (shiftSlope combine row m values) cache.slopes
  return { cache with value := value, slopes := slopes }

/-- Adds all terms that contain a slot, or subtracts them. -/
def shiftTerms (combine : Int → Int → Checked Int) (row : Row) (values : Array Int)
    (slot : Nat) (cache : Cache) : Checked Cache := do
  (← fetch row.slotMonos slot).foldlM (shiftTerm combine row values) cache

/-- Takes a variable out of a constraint, or moves it at once if that is linear. -/
def takeOut (P : Problem) (values : Array Int) (delta : Int) (caches : Array Cache)
    (occurrence : Nat × Nat) : Checked (Array Cache) := do
  let (c, slot) := occurrence
  let row ← fetch P.rows c
  let cache ← fetch caches c
  if row.linear then
    let slope ← fetch cache.slopes slot
    let value ← Wide.add cache.value (← Wide.mul slope delta)
    store caches c { cache with value := value }
  else store caches c (← shiftTerms Wide.sub row values slot cache)

/-- Puts a variable back into a constraint that is not linear. -/
def putBack (P : Problem) (values : Array Int) (caches : Array Cache)
    (occurrence : Nat × Nat) : Checked (Array Cache) := do
  let (c, slot) := occurrence
  let row ← fetch P.rows c
  if row.linear then return caches
  else store caches c (← shiftTerms Wide.add row values slot (← fetch caches c))

/-- Files a constraint among the violated ones or takes it out. -/
def refile (P : Problem) (caches : Array Cache) (violated : IndexSet)
    (occurrence : Nat × Nat) : Checked IndexSet := do
  let row ← fetch P.rows occurrence.1
  let cache ← fetch caches occurrence.1
  violated.file occurrence.1 (!row.isSatisfied cache)

variable [RandomSource ρ]

/-- The step from which a variable moved now is free again. A positive spread
adds a random delay below it. -/
def tabuClock (settings : Settings) (step : Nat) (source : ρ) : Checked (Nat × ρ) :=
  if settings.tabuSpread = 0 then .ok (step + settings.tabuBase, source)
  else do
    let (delay, source) ← Random.below settings.tabuSpread source
    return (step + settings.tabuBase + delay, source)

/-- Starts the tabu clock of a variable. -/
def startClock (P : Problem) (s : State ρ) (v : Variable) : Checked (State ρ) :=
  if P.settings.tabu then do
    let (clock, source) ← tabuClock P.settings s.step s.source
    return { s with tabuUntil := ← store s.tabuUntil v clock, source := source }
  else return s

/-- Moves a variable to another value within its bounds. -/
def moveTo (P : Problem) (s : State ρ) (v : Variable) (old new : Int) : Checked (State ρ) := do
  let delta ← Wide.sub new old
  let occurrences ← fetch P.occurrences v
  let out ← occurrences.foldlM (takeOut P s.assignment.values delta) s.caches
  let assignment ← s.assignment.setValue v new
  let caches ← occurrences.foldlM (putBack P assignment.values) out
  let violated ← occurrences.foldlM (refile P caches) s.violated
  let coef ← fetch P.objectiveCoefs v
  let objective ← Wide.add s.objective (← Wide.mul coef delta)
  startClock P { s with assignment, caches, violated, objective } v

/-- Sets a variable. Its current value leaves everything as it is, and a value
outside its bounds is refused. -/
def apply (P : Problem) (s : State ρ) (v : Variable) (x : Int) : Except StepError (State ρ) := do
  let old ← s.assignment.value v
  if old = x then return s
  else if ← s.assignment.admits v x then moveTo P s v old x
  else throw (.outside (P.formula.name v) x (← s.assignment.lb v) (← s.assignment.ub v))

end NonlinearInteger.Search
