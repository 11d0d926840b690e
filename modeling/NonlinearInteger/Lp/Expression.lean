import NonlinearInteger.Lp.Error
import NonlinearInteger.Text.Integer

/-!
# Expressions of the LP format

An expression is a row of tokens: terms with optional signs and coefficients,
products written with `*`, and brackets that mean nothing. It ends at a
relation or with the line. Variables are numbered in order of first appearance.
-/

namespace NonlinearInteger.Lp

def relation? (token : String) : Option Relation :=
  if token = "<=" ∨ token = "=<" ∨ token = "<" then some .le
  else if token = ">=" ∨ token = "=>" ∨ token = ">" then some .ge
  else if token = "=" then some .eq
  else none

/-- A name starts with an ASCII letter or an underscore. -/
def isName (token : String) : Bool :=
  match token.toList with
  | c :: _ => c.isAlpha || c == '_'
  | [] => false

/-- The number of a name, a new one at the end of the table if need be. -/
def intern (names : Array String) (name : String) : Array String × Variable :=
  match names.idxOf? name with
  | some v => (names, v)
  | none => (names.push name, names.size)

/-- What has been read of an expression: the finished terms, the sign and the
coefficient of the next one, and the product that may still grow. -/
structure Reading where
  terms : List Monomial
  sign : Int
  coef : Option Int
  current : Option Monomial

namespace Reading

def empty : Reading := ⟨[], 1, none, none⟩

/-- All terms, the growing one last. -/
def close (e : Reading) : List Monomial := e.terms ++ e.current.toList

def flip (e : Reading) : Reading := { e with sign := -e.sign }

/-- Multiplies the growing product by a variable. -/
def times (e : Reading) (v : Variable) : Except LineError Reading :=
  match e.current with
  | some m => .ok { e with current := some (m.product (.linear v 1)) }
  | none => .error .missingOperand

/-- A coefficient ends the growing product and takes the sign. -/
def withCoefficient (e : Reading) (token : String) (value : Int) : Except LineError Reading :=
  if e.coef.isSome then .error (.twoCoefficients token)
  else if FitsInt64 (e.sign * value) then .ok ⟨e.close, 1, some (e.sign * value), none⟩
  else .error (.coefficientRange token)

/-- A variable starts the next term, with the coefficient or else the sign. -/
def startTerm (e : Reading) (v : Variable) : Reading :=
  ⟨e.close, 1, none, some (.linear v (e.coef.getD e.sign))⟩

end Reading

/-- An expression with the relation that ended it and the tokens behind. -/
structure Expression where
  poly : Polynomial
  relation : Option Relation
  rest : List String
  names : Array String

/-- The merged terms, unless merging overflows a coefficient. -/
def merge (terms : List Monomial) : Except LineError Polynomial :=
  match (Polynomial.ofTerms terms).normalize? with
  | some p => .ok p
  | none => .error .mergeOverflow

theorem merge_eq (terms : List Monomial) : merge terms =
    if Polynomial.sumsFit [] terms then .ok (.ofMonomials terms) else .error .mergeOverflow := by
  rw [merge, Polynomial.normalize?, Polynomial.normalize, Polynomial.monomials_ofTerms]
  cases Polynomial.sumsFit [] terms <;> rfl

def readTerms (names : Array String) (e : Reading) : List String → Except LineError Expression
  | [] =>
    if e.coef.isSome then .error .danglingAtEnd
    else do return ⟨← merge e.close, none, [], names⟩
  | token :: rest =>
    match relation? token with
    | some relation =>
      if e.coef.isSome then .error (.danglingBefore token)
      else do return ⟨← merge e.close, some relation, rest, names⟩
    | none =>
      if token = "+" ∨ token = "[" ∨ token = "]" then readTerms names e rest
      else if token = "-" then readTerms names e.flip rest
      else if token = "*" then
        match rest with
        | name :: rest =>
          if isName name then
            let (names, v) := intern names name
            match e.times v with
            | .ok e => readTerms names e rest
            | .error cause => .error cause
          else .error .missingVariable
        | [] => .error .missingVariable
      else
        match Text.int64? token with
        | some value =>
          match e.withCoefficient token value with
          | .ok e => readTerms names e rest
          | .error cause => .error cause
        | none =>
          if isName token then
            let (names, v) := intern names token
            readTerms names (e.startTerm v) rest
          else .error (.unexpectedToken token)

def readExpression (names : Array String) (tokens : List String) : Except LineError Expression :=
  readTerms names .empty tokens

end NonlinearInteger.Lp
