import NonlinearInteger.Search.Assignment
import NonlinearInteger.Search.Settings
import NonlinearInteger.Formula.Basic

/-!
# Search problems

What the search knows of a formula before it starts: for every constraint its
distinct variables, called slots, and which terms contain which; for every
variable the constraints that mention it; the objective by variables; and the
bounds within which everything fits into 128 bits. The search handles
inequalities and linear objectives only.
-/

namespace NonlinearInteger.Search

inductive Sense where
  | le
  | ge
  deriving DecidableEq, Repr

namespace Sense

def ofRelation? : Relation → Option Sense
  | .le => some le
  | .ge => some ge
  | .eq => none
  | .undefined => none

def holds (sense : Sense) (value limit : Int) : Bool :=
  match sense with
  | le => decide (value ≤ limit)
  | ge => decide (limit ≤ value)

theorem holds_ofRelation? {r : Relation} {sense : Sense} (h : ofRelation? r = some sense)
    (value limit : Int) : r.holds value limit = some (sense.holds value limit) := by
  cases r <;> simp [ofRelation?] at h <;> subst h <;> rfl

end Sense

/-- Why the search cannot start. -/
inductive StartError where
  | greedyInit
  | unsupportedRelation (index : Nat) (relation : Relation)
  | nonlinearObjective (term : Monomial)
  | constraintMagnitude (index : Nat)
  | objectiveMagnitude
  | fault (cause : Fault)
  deriving DecidableEq

def StartError.message : StartError → String
  | greedyInit => "Greedy initial assignment is not implemented"
  | unsupportedRelation index relation =>
    "Constraint '" ++ toString index ++ "' uses unsupported operator '" ++ relation.text ++ "'"
  | nonlinearObjective term => "Objective term '" ++ term.text ++ "' is not linear"
  | constraintMagnitude index =>
    "Constraint '" ++ toString index ++
      "' can exceed 128-bit arithmetic within the variable bounds"
  | objectiveMagnitude => "Objective can exceed 128-bit arithmetic within the variable bounds"
  | fault _ => "Incomplete formula"

instance : MonadLift Checked (Except StartError) :=
  ⟨fun x => x.mapError .fault⟩

/-- A constraint with its slots. The terms are numbered in order. -/
structure Row where
  sense : Sense
  limit : Int
  linear : Bool
  monomials : Array Monomial
  vars : Array Variable
  /-- The slots in each term. -/
  monoSlots : Array (List Nat)
  /-- The terms that contain each slot. -/
  slotMonos : Array (List Nat)

structure Problem where
  formula : Formula
  settings : Settings
  rows : Array Row
  /-- The constraints that mention each variable, with its slot there. -/
  occurrences : Array (List (Nat × Nat))
  objectiveVars : List Variable
  isObjective : Array Bool
  objectiveCoefs : Array Int
  /-- The objective terms with a negative coefficient. -/
  liftTerms : List (Variable × Int)

/-- Of equal neighbours one is kept. -/
def dropRepeats : List Nat → List Nat
  | [] => []
  | [a] => [a]
  | a :: b :: rest => if a = b then dropRepeats (b :: rest) else a :: dropRepeats (b :: rest)

/-- The slots of the variables of a term. -/
def slotsOf (vars : Array Variable) (m : Monomial) : List Nat :=
  dropRepeats (m.vars.filterMap vars.idxOf?)

/-- The numbers of the terms whose slots include the given one. -/
def monosOf (monoSlots : Array (List Nat)) (slot : Nat) : List Nat :=
  (monoSlots.toList.zipIdx.filter fun (slots, _) => slots.elem slot).map Prod.snd

def Row.of (c : Constraint) (sense : Sense) : Row :=
  let monomials := c.poly.monomials.toArray
  let vars := c.poly.vars.toArray
  let monoSlots := monomials.map (slotsOf vars)
  { sense := sense
    limit := c.limit
    linear := c.isLinear
    monomials := monomials
    vars := vars
    monoSlots := monoSlots
    slotMonos := ((List.range vars.size).map (monosOf monoSlots)).toArray }

/-- The occurrences of a variable in rows, in order. -/
def occurrencesOf (rows : Array Row) (v : Variable) : List (Nat × Nat) :=
  rows.toList.zipIdx.filterMap fun (row, c) => (row.vars.idxOf? v).map fun slot => (c, slot)

/-- The rows of constraints, the first of which has the given number. -/
def rowsOf (index : Nat) : List Constraint → Except StartError (List Row)
  | [] => .ok []
  | c :: cs =>
    match Sense.ofRelation? c.relation with
    | none => .error (.unsupportedRelation index c.relation)
    | some sense => do return .of c sense :: (← rowsOf (index + 1) cs)

/-- The terms of a linear objective as pairs. -/
def linearTerms : List Monomial → Except StartError (List (Variable × Int))
  | [] => .ok []
  | m :: ms =>
    if m.isLinear then
      match m.vars with
      | v :: _ => do return (v, m.coef) :: (← linearTerms ms)
      | [] => .error (.nonlinearObjective m)
    else .error (.nonlinearObjective m)

/-- The coefficients of one variable added up. -/
def coefficientOf (v : Variable) : List (Variable × Int) → Int
  | [] => 0
  | (u, coef) :: terms => (if u = v then coef else 0) + coefficientOf v terms

/-- The declared domains as bounds, every value still zero. -/
def declared (f : Formula) : Assignment :=
  ⟨Array.replicate f.numVariables 0, f.domains.map Domain.lb, f.domains.map Domain.ub⟩

/-- Caps a variable, unless the cap lies below its lower bound. -/
def cap (limit : Int) (a : Assignment) (v : Variable) : Checked Assignment := do
  let lb ← a.lb v
  let ub ← a.ub v
  if lb ≤ limit ∧ limit < ub then a.setUb v limit else return a

theorem lbs_of_cap {limit : Int} {a b : Assignment} {v : Variable}
    (h : cap limit a v = .ok b) : b.lbs = a.lbs := by
  obtain ⟨lb, -, h⟩ := bind_eq_ok.1 h
  obtain ⟨ub, -, h⟩ := bind_eq_ok.1 h
  split at h
  · obtain ⟨ubs, -, h⟩ := bind_eq_ok.1 h
    exact pure_eq_ok.1 h ▸ rfl
  · exact pure_eq_ok.1 h ▸ rfl

/-- A constraint with an upper limit caps all variables that it mentions. -/
def capRow (a : Assignment) (row : Row) : Checked Assignment :=
  match row.sense with
  | .le => row.vars.toList.foldlM (cap row.limit) a
  | .ge => return a

/-- The value within bounds that is nearest to zero. -/
def nearestZero (lb ub : Int) : Int := if 0 < lb then lb else if ub < 0 then ub else 0

def settle (a : Assignment) : Assignment :=
  { a with values := Array.zipWith nearestZero a.lbs a.ubs }

def initial (f : Formula) (rows : Array Row) : Checked Assignment := do
  return settle (← rows.toList.foldlM capRow (declared f))

/-- The greatest absolute value within the bounds of a variable, at least one. -/
def magnitude (a : Assignment) (v : Variable) : Checked Int := do
  let lb ← a.lb v
  let ub ← a.ub v
  return max (max lb.natAbs ub.natAbs) 1

/-- What a constraint or the objective may reach. An eighth of the 128-bit range
leaves room for every sum on the way from one value to the next. -/
def maxMagnitude : Int := Wide.greatest / 8

/-- Whether a polynomial stays small within bounds. -/
def fitsWithin (a : Assignment) (p : Polynomial) : Checked Bool :=
  match p.magnitudeBound (magnitude a) with
  | .ok bound => .ok (decide (bound ≤ maxMagnitude))
  | .error .overflow => .ok false
  | .error cause => .error cause

/-- Checks the constraints, the first of which has the given number. -/
def checkMagnitudes (a : Assignment) (index : Nat) : List Constraint → Except StartError Unit
  | [] => .ok ()
  | c :: cs => do
    if ← fitsWithin a c.poly then checkMagnitudes a (index + 1) cs
    else throw (.constraintMagnitude index)

namespace Problem

/-- The problem of a formula with its initial assignment. -/
def of (f : Formula) (settings : Settings) : Except StartError (Problem × Assignment) := do
  if settings.greedyInit then throw .greedyInit
  let rows := (← rowsOf 0 f.constraints.toList).toArray
  let terms ← linearTerms f.objective.monomials
  let a ← initial f rows
  checkMagnitudes a 0 f.constraints.toList
  unless ← fitsWithin a f.objective do throw .objectiveMagnitude
  let vars := List.range f.numVariables
  let objectiveVars := f.objective.vars
  return ({
    formula := f
    settings := settings
    rows := rows
    occurrences := (vars.map (occurrencesOf rows)).toArray
    objectiveVars := objectiveVars
    isObjective := (vars.map objectiveVars.elem).toArray
    objectiveCoefs := (vars.map fun v => coefficientOf v terms).toArray
    liftTerms := terms.filter fun (_, coef) => decide (coef < 0) }, a)

end Problem
end NonlinearInteger.Search
