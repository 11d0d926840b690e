import NonlinearInteger.CommandLine.Arguments
import NonlinearInteger.CommandLine.Dialogue
import NonlinearInteger.Allocation.Instance
import NonlinearInteger.Json.Reader
import NonlinearInteger.Json.Writer
import NonlinearInteger.Lp.Reader
import NonlinearInteger.Lp.Writer
import NonlinearInteger.Search.ReportJson
import NonlinearInteger.Search.Solve

/-!
# Commands

What the commands do, as dialogues. Solving ends with code 85 when the best
assignment found is no solution, and every other failure with code 1.
-/

namespace NonlinearInteger.CommandLine

open Search

/-- Why a command fails. -/
inductive CommandError where
  | unreadableFormula (path : String)
  | malformedFormula (path : String)
  | unreadableFile (path : String)
  | unreadableInput
  | malformedSettings
  | settingsNoObject
  | unwritable (path : String)
  | solve (cause : SolveError)
  | generate (cause : Allocation.GenerateError)
  | write (cause : Lp.WriteError)
  | difficultyPart (part : String)
  | difficultyCount (count : Nat)
  | malformedAssignment
  | invalidValues
  | missingValue (name : String)
  | unsupportedAssignment

def CommandError.message : CommandError → String
  | unreadableFormula path => "Failed to read LP file " ++ path
  | malformedFormula path => "Failed to parse LP file " ++ path
  | unreadableFile path => "Failed to read file: " ++ path
  | unreadableInput => "Failed to read from stdin"
  | malformedSettings => "Failed to parse settings"
  | settingsNoObject => "Settings must be a json object"
  | unwritable path => "Failed to write " ++ path
  | solve cause => cause.message
  | generate cause => cause.message
  | write cause => cause.message
  | difficultyPart part => "Invalid difficulty parameter '" ++ part ++ "'"
  | difficultyCount count => "Expected 4 difficulty parameters, got " ++ toString count
  | malformedAssignment => "Failed to parse assignment"
  | invalidValues => "Invalid assignment values"
  | missingValue name => "Missing integer value for '" ++ name ++ "'"
  | unsupportedAssignment => "Unsupported assignment format"

def fail (cause : CommandError) : Dialogue :=
  .finish ⟨1, "", "Error: " ++ cause.message ++ "\n"⟩

/-- Goes on with a result, or fails. -/
def orFail {α : Type} (x : Except CommandError α) (next : α → Dialogue) : Dialogue :=
  match x with
  | .ok a => next a
  | .error cause => fail cause

/-- The text of a file that is there and valid. -/
def decoded? (contents : Option ByteArray) : Option String := contents.bind String.fromUTF8?

def parseFormula (path text : String) : Except CommandError Formula :=
  (Lp.read text).mapError fun _ => .malformedFormula path

def withFormula (path : String) (next : Formula → Dialogue) : Dialogue :=
  .readFile path fun contents =>
    match decoded? contents with
    | some text => orFail (parseFormula path text) next
    | none => fail (.unreadableFormula path)

/-- The text that an argument stands for: the standard input, a file whose name
ends in `.json`, or the argument itself. -/
def withText (arg : String) (next : String → Dialogue) : Dialogue :=
  if arg = "-" then .readInput fun contents =>
    match String.fromUTF8? contents with
    | some text => next text
    | none => fail .unreadableInput
  else if arg.endsWith ".json" then .readFile arg fun contents =>
    match decoded? contents with
    | some text => next text
    | none => fail (.unreadableFile arg)
  else next arg

def parseSettings (text : String) : Except CommandError Json.Fields :=
  match Json.read? text with
  | some (.object fields) => .ok fields
  | some _ => .error .settingsNoObject
  | none => .error .malformedSettings

def withSettings (settings : Option String) (next : Json.Fields → Dialogue) : Dialogue :=
  match settings with
  | some arg => withText arg fun text => orFail (parseSettings text) next
  | none => next []

/-- A seed given beside the settings overrides theirs. -/
def overrideSeed (fields : Json.Fields) : Option Nat → Json.Fields
  | some seed => Json.insertField "seed" (.int seed) fields
  | none => fields

/-- A line for every variable. -/
def valuesText (f : Formula) (values : Array Int) : String :=
  String.join (values.toList.zipIdx.map fun (x, v) => f.name v ++ " = " ++ toString x ++ "\n")

def reportText (f : Formula) (report : Report) (elapsed : Seconds) (valuesOnly : Bool) : String :=
  if valuesOnly then valuesText f report.assignment.values else (report.toJson elapsed).pretty 0

/-- The end of solving. -/
def solveOutcome (report : Report) (stdout : String) : Outcome :=
  if report.feasible then ⟨0, stdout, ""⟩ else ⟨85, stdout, "No satisfying assignment found\n"⟩

def printReport (report : Report) (text : String) : Option String → Dialogue
  | some path => .writeFile path text fun written =>
    if written then .finish (solveOutcome report ("Report written to: " ++ path ++ "\n"))
    else fail (.unwritable path)
  | none => .finish (solveOutcome report (text ++ "\n"))

def solve (formula : String) (settings : Option String) (seed : Option Nat)
    (output : Option String) (valuesOnly : Bool) : Dialogue :=
  withFormula formula fun f =>
    withSettings settings fun fields =>
      orFail ((Search.solve f (overrideSeed fields seed)).mapError .solve) fun report =>
        .readClock fun elapsed =>
          printReport report (reportText f report elapsed valuesOnly) output

def difficultyPart (part : String) : Except CommandError Nat :=
  match Text.natUpTo? 65535 (Text.trim part) with
  | some n => .ok n
  | none => .error (.difficultyPart part)

/-- Four sizes between commas. -/
def parseDifficulty (text : String) : Except CommandError Allocation.Difficulty := do
  let sizes ← (Text.splitAt ',' text).mapM difficultyPart
  match sizes with
  | [users, supplies, demands, ratios] => return ⟨users, supplies, demands, ratios⟩
  | sizes => throw (.difficultyCount sizes.length)

/-- The text of an instance whose seed is derived from a number. -/
def instanceText (seed : Nat) (difficulty : String) : Except CommandError String := do
  let d ← parseDifficulty difficulty
  let i ← (Allocation.generate (Random.ChaCha.derive (Random.seedBytes seed)) d).mapError .generate
  (Lp.write i.formula).mapError .write

def generate (seed : Nat) (difficulty : String) (output : Option String) : Dialogue :=
  orFail (instanceText seed difficulty) fun text =>
    match output with
    | some path => .writeFile path text fun written =>
      if written then .finish ⟨0, "Instance written to: " ++ path ++ "\n", ""⟩
      else fail (.unwritable path)
    | none => .finish ⟨0, text, ""⟩

/-- An integer of 64 bits. -/
def int64? : Json → Option Int
  | .int x => if FitsInt64 x then some x else none
  | _ => none

def valuesOf (j : Json) : Except CommandError (Array Int) :=
  match j with
  | .array items =>
    match items.mapM int64? with
    | some values => .ok values.toArray
    | none => .error .invalidValues
  | _ => .error .invalidValues

def namedValue (fields : Json.Fields) (name : String) : Except CommandError Int :=
  match (Json.field? name fields).bind int64? with
  | some x => .ok x
  | none => .error (.missingValue name)

/-- The values of all variables by their names. -/
def namedValues (f : Formula) (fields : Json.Fields) : Except CommandError (Array Int) := do
  let values ← (List.range f.numVariables).mapM fun v => namedValue fields (f.name v)
  return values.toArray

/-- The assignment in a report, or the value itself. -/
def inner : Json → Json
  | .object fields => (Json.field? "assignment" fields).getD (.object fields)
  | j => j

/-- Values are a list, the list in a field `values`, or fields named for the
variables; a report has them in its assignment. -/
def loadValues (f : Formula) (j : Json) : Except CommandError (Array Int) :=
  match inner j with
  | .array items => valuesOf (.array items)
  | .object fields =>
    match Json.field? "values" fields with
    | some values => valuesOf values
    | none => namedValues f fields
  | _ => .error .unsupportedAssignment

def loadAssignment (f : Formula) (text : String) : Except CommandError (Array Int) :=
  match Json.read? text with
  | some j => loadValues f j
  | none => .error .malformedAssignment

/-- The verdict on values, with the objective if they are a solution. -/
def verdict (f : Formula) (values : Array Int) : Outcome :=
  match f.verify values with
  | .error violation => ⟨1, "", "Verification error: " ++ violation.message ++ "\n"⟩
  | .ok _ =>
    match f.objectiveValue values with
    | .ok objective => ⟨0, "Assignment is valid\nObjective: " ++ toString objective ++ "\n", ""⟩
    | .error _ => ⟨1, "", "Verification error: Incomplete values\n"⟩

def verify (formula assignment : String) : Dialogue :=
  withFormula formula fun f =>
    withText assignment fun text =>
      orFail (loadAssignment f text) fun values => .finish (verdict f values)

def Command.dialogue : Command → Dialogue
  | .solve formula settings seed output valuesOnly =>
    CommandLine.solve formula settings seed output valuesOnly
  | .generate seed difficulty output => CommandLine.generate seed difficulty output
  | .verify formula assignment => CommandLine.verify formula assignment

/-- Arguments that ask for no command end with code 2. -/
def dialogue (args : List String) : Dialogue :=
  match command? args with
  | some command => command.dialogue
  | none => .finish ⟨2, "", "error: invalid arguments\n"⟩

end NonlinearInteger.CommandLine
