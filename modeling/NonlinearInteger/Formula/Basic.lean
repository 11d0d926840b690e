import NonlinearInteger.Formula.Constraint

/-!
# Formulas

Constraints over integer variables with an objective to minimise. A formula is
built step by step; a step that does not fit leaves it as it was. A list of
values is a solution when it has one value for each variable, each inside its
domain, and satisfies every constraint.
-/

namespace NonlinearInteger

structure Formula where
  numVariables : Nat
  constraints : Array Constraint
  objective : Polynomial
  domains : Array Domain
  names : Array String
  deriving DecidableEq

/-- Why a formula refuses a part. -/
inductive BuildError where
  | variableBeyond (v : Variable) (numVariables : Nat)
  | noSuchVariable (v : Variable)
  | emptyDomain (name : String) (lb ub : Int)
  | nameCount (expected actual : Nat)
  deriving DecidableEq, Repr

def BuildError.message : BuildError → String
  | variableBeyond v n =>
    "Variable " ++ toString v ++ " out of range. Number of variables: " ++ toString n
  | noSuchVariable v => "Variable " ++ toString v ++ " out of range"
  | emptyDomain name lb ub =>
    "Empty domain for " ++ name ++ ": [" ++ toString lb ++ ", " ++ toString ub ++ "]"
  | nameCount expected actual =>
    "Invalid number of names. Expected: " ++ toString expected ++ ", Actual: " ++ toString actual

/-- Why values are no solution. -/
inductive Violation where
  | fault (cause : Fault)
  | undefinedRelation (constraint : Constraint)
  | valueCount (expected actual : Nat)
  | outsideDomain (name : String) (value : Int) (domain : Domain)
  | unsatisfied (index : Nat)
  deriving DecidableEq

def Violation.message : Violation → String
  | fault _ => "Incomplete values"
  | undefinedRelation c => "Constraint with undefined operator: " ++ c.text
  | valueCount expected actual =>
    "Invalid number of variables. Expected: " ++ toString expected ++
      ", Actual: " ++ toString actual
  | outsideDomain name value d =>
    "Variable '" ++ name ++ "' = " ++ toString value ++
      " outside [" ++ toString d.lb ++ ", " ++ toString d.ub ++ "]"
  | unsatisfied index => "Constraint '" ++ toString index ++ "' not satisfied"

/-- Whether a constraint holds on a table of values. -/
def Constraint.satisfied (c : Constraint) (values : Array Int) : Except Violation Bool :=
  match c.poly.evaluate values with
  | .error cause => .error (.fault cause)
  | .ok value =>
    match c.relation.holds value c.limit with
    | some b => .ok b
    | none => .error (.undefinedRelation c)

namespace Formula

def empty (numVariables : Nat) : Formula where
  numVariables := numVariables
  constraints := #[]
  objective := .empty
  domains := Array.replicate numVariables .standard
  names := #[]

/-- The declared name, or `x` and the position. -/
def name (f : Formula) (v : Variable) : String :=
  match f.names[v]? with
  | some name => name
  | none => "x" ++ toString v

/-- Whether a polynomial mentions only variables of the formula. -/
def checkVariables (f : Formula) (p : Polynomial) : Except BuildError Unit :=
  match p.maxVariable? with
  | some v => if f.numVariables ≤ v then .error (.variableBeyond v f.numVariables) else .ok ()
  | none => .ok ()

def addConstraint (f : Formula) (p : Polynomial) (relation : Relation) (limit : Int) :
    Except BuildError Formula := do
  f.checkVariables p
  return { f with constraints := f.constraints.push (.of p relation limit) }

def setObjective (f : Formula) (p : Polynomial) : Except BuildError Formula := do
  f.checkVariables p
  return { f with objective := p.normalize }

def setDomain (f : Formula) (v : Variable) (lb ub : Int) : Except BuildError Formula :=
  if f.numVariables ≤ v then .error (.noSuchVariable v)
  else if ub < lb then .error (.emptyDomain (f.name v) lb ub)
  else .ok { f with domains := f.domains.setIfInBounds v ⟨lb, ub⟩ }

def setNames (f : Formula) (names : Array String) : Except BuildError Formula :=
  if names.size = f.numVariables then .ok { f with names := names }
  else .error (.nameCount f.numVariables names.size)

def objectiveValue (f : Formula) (values : Array Int) : Checked Int :=
  f.objective.evaluate values

/-- The positions of the constraints that do not hold. -/
def violated (f : Formula) (values : Array Int) : Except Violation (List Nat) :=
  f.constraints.toList.zipIdx.filterMapM fun (c, i) => do
    return if ← c.satisfied values then none else some i

/-- The first variable whose value lies outside its domain. -/
def firstOutside? (f : Formula) (values : Array Int) : Option (Variable × Int × Domain) :=
  ((values.toList.zip f.domains.toList).zipIdx.find? fun ((x, d), _) => !d.contains x).map
    fun ((x, d), v) => (v, x, d)

def verify (f : Formula) (values : Array Int) : Except Violation Unit :=
  if values.size = f.numVariables then
    match f.firstOutside? values with
    | some (v, x, d) => .error (.outsideDomain (f.name v) x d)
    | none => do
      match ← f.violated values with
      | [] => return ()
      | i :: _ => throw (.unsatisfied i)
  else .error (.valueCount f.numVariables values.size)

end Formula
end NonlinearInteger
