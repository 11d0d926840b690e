import NonlinearInteger.Formula.Basic

/-!
# Errors of the LP format
-/

namespace NonlinearInteger.Lp

/-- Why a line cannot be read. -/
inductive LineError where
  | danglingBefore (token : String)
  | danglingAtEnd
  | missingVariable
  | missingOperand
  | twoCoefficients (token : String)
  | coefficientRange (token : String)
  | unexpectedToken (token : String)
  | mergeOverflow
  | missingInteger
  | notInteger (token : String)
  | relationInObjective
  | missingRelation
  | trailingToken (token : String)
  | notInterval
  | boundRelation (token : String)
  | unrecognisedBound
  | invalidName (token : String)
  | beforeObjective
  | afterEnd
  deriving DecidableEq, Repr

def LineError.message : LineError → String
  | danglingBefore token => "Dangling coefficient before '" ++ token ++ "'"
  | danglingAtEnd => "Dangling coefficient at end of expression"
  | missingVariable => "Expected a variable after '*'"
  | missingOperand => "'*' without a left operand"
  | twoCoefficients token => "Two coefficients in a row at '" ++ token ++ "'"
  | coefficientRange token => "Coefficient -(" ++ token ++ ") out of range"
  | unexpectedToken token => "Unexpected token '" ++ token ++ "'"
  | mergeOverflow => "Coefficient overflow when merging equal terms"
  | missingInteger => "Missing integer"
  | notInteger token => "Expected an integer, found '" ++ token ++ "'"
  | relationInObjective => "Relational operator in objective"
  | missingRelation => "Constraint without relational operator"
  | trailingToken token => "Trailing token '" ++ token ++ "'"
  | notInterval => "Expected 'lo <= x <= hi'"
  | boundRelation token => "Unexpected operator '" ++ token ++ "'"
  | unrecognisedBound => "Unrecognised bound"
  | invalidName token => "Invalid variable name '" ++ token ++ "'"
  | beforeObjective => "Expected 'Minimize' section"
  | afterEnd => "Content after 'End'"

/-- Why a text is no formula: a line, counted from one, or the parts together. -/
inductive ReadError where
  | line (number : Nat) (text : String) (cause : LineError)
  | build (cause : BuildError)
  deriving DecidableEq, Repr

def ReadError.message : ReadError → String
  | line number text cause =>
    "line " ++ toString number ++ ": '" ++ text ++ "': " ++ cause.message
  | build cause => cause.message

/-- Why a formula has no text. -/
inductive WriteError where
  | undefinedRelation (index : Nat)
  deriving DecidableEq, Repr

def WriteError.message : WriteError → String
  | undefinedRelation index => "Constraint '" ++ toString index ++ "' has an undefined operator"

end NonlinearInteger.Lp
