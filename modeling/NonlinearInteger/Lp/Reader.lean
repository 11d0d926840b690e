import NonlinearInteger.Lp.Expression
import NonlinearInteger.Text.Blank

/-!
# Reading the LP format

A text is read line by line; blank lines and lines that start with a backslash
are passed over, and a section header opens a section. The lines fill a draft,
from which the formula is built at the end.
-/

namespace NonlinearInteger.Lp

inductive Section where
  | preamble
  | objective
  | constraints
  | bounds
  | generals
  | finished
  deriving DecidableEq, Repr

/-- The section that a header opens, in any mixture of cases. -/
def header? (line : String) : Option Section :=
  let s := line.map Char.toLower
  if s = "minimize" ∨ s = "minimise" ∨ s = "min" then some .objective
  else if s = "subject to" ∨ s = "such that" ∨ s = "st" ∨ s = "s.t." then some .constraints
  else if s = "bounds" then some .bounds
  else if s = "generals" ∨ s = "general" ∨ s = "gen" then some .generals
  else if s = "end" then some .finished
  else none

/-- The ends that one line sets for a variable. -/
structure Bound where
  var : Variable
  lb : Option Int
  ub : Option Int
  deriving DecidableEq, Repr

/-- What has been read of a text. -/
structure Draft where
  part : Section
  names : Array String
  objective : Polynomial
  constraints : Array (Polynomial × Relation × Int)
  bounds : Array Bound

namespace Draft

def empty : Draft := ⟨.preamble, #[], .empty, #[], #[]⟩

end Draft

def readInteger (token : String) : Except LineError Int :=
  match Text.int64? token with
  | some x => .ok x
  | none => .error (.notInteger token)

def readObjective (d : Draft) (line : String) : Except LineError Draft := do
  let e ← readExpression d.names (Text.words (Text.afterColon line))
  if e.relation.isSome then throw .relationInObjective
  let objective ← merge (d.objective.monomials ++ e.poly.monomials)
  return { d with names := e.names, objective := objective }

def readConstraint (d : Draft) (line : String) : Except LineError Draft := do
  let e ← readExpression d.names (Text.words (Text.afterColon line))
  match e.relation, e.rest with
  | none, _ => throw .missingRelation
  | some _, [] => throw .missingInteger
  | some relation, token :: rest =>
    let limit ← readInteger token
    match rest with
    | extra :: _ => throw (.trailingToken extra)
    | [] =>
      return { d with
        names := e.names, constraints := d.constraints.push (e.poly, relation, limit) }

/-- `name relation value`: the value bounds the name. -/
def boundOf (v : Variable) (value : Int) : Relation → Bound
  | .le => ⟨v, none, some value⟩
  | .ge => ⟨v, some value, none⟩
  | _ => ⟨v, some value, some value⟩

/-- The relation seen from the other side. -/
def converse : Relation → Relation
  | .le => .ge
  | .ge => .le
  | r => r

def readInterval (d : Draft) (lo op₁ name op₂ hi : String) : Except LineError Draft := do
  if relation? op₁ ≠ some .le ∨ relation? op₂ ≠ some .le then throw .notInterval
  let (names, v) := intern d.names name
  let lb ← readInteger lo
  let ub ← readInteger hi
  return { d with names := names, bounds := d.bounds.push ⟨v, some lb, some ub⟩ }

/-- One side of a bound is a name; the relation is read with the name on its
left, after the given change. -/
def readSide (d : Draft) (name op value : String) (turn : Relation → Relation) :
    Except LineError Draft := do
  let (names, v) := intern d.names name
  let x ← readInteger value
  match relation? op with
  | some relation =>
    return { d with names := names, bounds := d.bounds.push (boundOf v x (turn relation)) }
  | none => throw (.boundRelation op)

def readBound (d : Draft) (line : String) : Except LineError Draft :=
  match Text.words line with
  | [lo, op₁, name, op₂, hi] =>
    if isName name then readInterval d lo op₁ name op₂ hi else .error .unrecognisedBound
  | [a, op, b] =>
    if isName a then readSide d a op b id
    else if isName b then readSide d b op a converse
    else .error .unrecognisedBound
  | _ => .error .unrecognisedBound

def readGenerals (d : Draft) (line : String) : Except LineError Draft := do
  let names ← (Text.words line).foldlM
    (fun names token =>
      if isName token then .ok (intern names token).1 else .error (.invalidName token))
    d.names
  return { d with names := names }

/-- Reads a line of the open section. -/
def readContent (d : Draft) (line : String) : Except LineError Draft :=
  match d.part with
  | .preamble => .error .beforeObjective
  | .objective => readObjective d line
  | .constraints => readConstraint d line
  | .bounds => readBound d line
  | .generals => readGenerals d line
  | .finished => .error .afterEnd

/-- Whether a trimmed line says nothing. -/
def isSilent (line : String) : Bool :=
  match line.toList with
  | [] => true
  | c :: _ => c == '\\'

def readLine (d : Draft) (line : String) : Except LineError Draft :=
  if isSilent line then .ok d
  else
    match header? line with
    | some part => .ok { d with part := part }
    | none => readContent d line

/-- Reads lines, the first of which has the given number. -/
def readLines (d : Draft) (number : Nat) : List String → Except ReadError Draft
  | [] => .ok d
  | raw :: lines =>
    let line := Text.trim raw
    match readLine d line with
    | .ok d => readLines d (number + 1) lines
    | .error cause => .error (.line number line cause)

/-- Sets the ends of a domain that a bound gives. -/
def applyBound (f : Formula) (b : Bound) : Except BuildError Formula :=
  let current := f.domains[b.var]?.getD .standard
  f.setDomain b.var (b.lb.getD current.lb) (b.ub.getD current.ub)

namespace Draft

def build (d : Draft) : Except BuildError Formula := do
  let f ← d.constraints.foldlM (fun f (p, relation, limit) => f.addConstraint p relation limit)
    (Formula.empty d.names.size)
  let f ← f.setObjective d.objective
  let f ← d.bounds.foldlM applyBound f
  f.setNames d.names

end Draft

def read (text : String) : Except ReadError Formula :=
  match readLines .empty 1 (Text.splitAt '\n' text) with
  | .error e => .error e
  | .ok d =>
    match d.build with
    | .error cause => .error (.build cause)
    | .ok f => .ok f

end NonlinearInteger.Lp
