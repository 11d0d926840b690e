import NonlinearInteger.Search.Apply

/-!
# Consistency

Everything that is kept up to date is computed afresh and compared.
-/

namespace NonlinearInteger.Search

variable {ρ : Type}

def inconsistent {α : Type} (cause : Inconsistency) : Except StepError α :=
  .error (.inconsistent cause)

/-- Whether a variable lies within its bounds. -/
def checkValue (P : Problem) (a : Assignment) (v : Variable) : Except StepError Unit := do
  let x ← a.value v
  unless ← a.admits v x do
    inconsistent (.outside (P.formula.name v) x (← a.lb v) (← a.ub v))

/-- Whether the slope of a slot is right, and completes to the value. -/
def checkSlot (P : Problem) (a : Assignment) (c : Nat) (p : Polynomial) (cache : Cache)
    (entry : Variable × Nat) : Except StepError Unit := do
  let (v, slot) := entry
  let slope ← p.slope v a.values
  let free ← p.evaluateWithout v a.values
  let cached ← fetch cache.slopes slot
  if cached ≠ slope then inconsistent (.slope c cached (P.formula.name v) slope)
  else
    let value ← Wide.add (← Wide.mul slope (← a.value v)) free
    unless value = cache.value do inconsistent (.slope c cached (P.formula.name v) slope)

def checkConstraint (P : Problem) (s : State ρ) (entry : Constraint × Nat) :
    Except StepError Unit := do
  let (constraint, c) := entry
  let row ← fetch P.rows c
  let cache ← fetch s.caches c
  let expected ← constraint.poly.evaluate s.assignment.values
  unless cache.value = expected do
    inconsistent (.constraintValue c cache.value expected)
  row.vars.toList.zipIdx.forM (checkSlot P s.assignment c constraint.poly cache)
  if row.isSatisfied cache = (← s.violated.contains c) then inconsistent (.misfiled c)

/-- Whether a member of the violated constraints is at its recorded position. -/
def checkPosition (s : State ρ) (entry : Nat × Nat) : Except StepError Unit := do
  unless (← fetch s.violated.position entry.1) = some entry.2 do
    inconsistent (.stalePosition entry.1)

def checkObjective (P : Problem) (s : State ρ) : Except StepError Unit := do
  let expected ← P.formula.objectiveValue s.assignment.values
  unless expected = s.objective do inconsistent (.objective s.objective expected)

def checkConsistency (P : Problem) (s : State ρ) : Except StepError Unit := do
  (List.range s.assignment.size).forM (checkValue P s.assignment)
  P.formula.constraints.toList.zipIdx.forM (checkConstraint P s)
  s.violated.members.toList.zipIdx.forM (checkPosition s)
  checkObjective P s

end NonlinearInteger.Search
