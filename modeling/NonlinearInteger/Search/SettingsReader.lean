import NonlinearInteger.Search.Settings
import NonlinearInteger.Json.Writer
import NonlinearInteger.Text.Quoted

/-!
# Reading settings

Settings are given as the fields of a JSON object; those left out keep their
standard values. Fields are read in the order of their names, and the first one
that does not fit is reported.
-/

namespace NonlinearInteger.Search

/-- What a field should have held. -/
inductive Expected where
  | size
  | word
  | number
  | boolean
  | variant
  | singleKey
  | unit
  deriving DecidableEq, Repr

def Expected.text : Expected → String
  | size => "usize"
  | word => "u64"
  | number => "f64"
  | boolean => "a boolean"
  | variant => "string or map"
  | singleKey => "map with a single key"
  | unit => "unit"

inductive SettingsError where
  | unknownField (name : String)
  | wrongType (found : Json) (expected : Expected)
  | wrongValue (found : Json) (expected : Expected)
  | unknownStrategy (name : String)
  | zeroThreshold
  | negativeSeconds

/-- The names of all settings. -/
def fieldNames : List String :=
  ["greedy_init", "bms_threshold", "max_steps", "max_seconds", "step_cutoff", "time_cutoff",
    "lift", "tabu", "tabu_base", "tabu_spread", "random_step", "print_step", "validate",
    "variant", "seed"]

/-- A word between grave accents. -/
def marked (s : String) : String := "`" ++ s ++ "`"

/-- How a value is named in an error. -/
def describe : Json → String
  | .null => "null"
  | .bool b => "boolean " ++ marked (if b then "true" else "false")
  | .int x => "integer " ++ marked (toString x)
  | .float x => "floating point " ++ marked (Json.floatText x)
  | .string s => "string " ++ Text.quoted s
  | .array _ => "sequence"
  | .object _ => "map"

def SettingsError.message : SettingsError → String
  | unknownField name =>
    "Invalid solver settings: unknown field " ++ marked name ++ ", expected one of " ++
      ", ".intercalate (fieldNames.map marked)
  | wrongType found expected =>
    "Invalid solver settings: invalid type: " ++ describe found ++ ", expected " ++ expected.text
  | wrongValue found expected =>
    "Invalid solver settings: invalid value: " ++ describe found ++ ", expected " ++ expected.text
  | unknownStrategy name =>
    "Invalid solver settings: unknown variant " ++ marked name ++ ", expected " ++
      marked Strategy.lift.name ++ " or " ++ marked Strategy.objective.name
  | zeroThreshold => "bms_threshold must be at least 1"
  | negativeSeconds => "max_seconds must be non-negative"

def readBool : Json → Except SettingsError Bool
  | .bool b => .ok b
  | found => .error (.wrongType found .boolean)

def readWord (expected : Expected) : Json → Except SettingsError Nat
  | .int x => if x < 0 then .error (.wrongValue (.int x) expected) else .ok x.toNat
  | found => .error (.wrongType found expected)

/-- The nearest floating-point number to an integer of 64 bits. -/
def floatOfInt (x : Int) : Float :=
  let y := (UInt64.ofNat x.natAbs).toFloat
  if x < 0 then -y else y

def readFloat : Json → Except SettingsError Float
  | .int x => .ok (floatOfInt x)
  | .float x => .ok x
  | found => .error (.wrongType found .number)

def readStrategyName (name : String) : Except SettingsError Strategy :=
  match Strategy.ofName? name with
  | some strategy => .ok strategy
  | none => .error (.unknownStrategy name)

/-- A strategy is a name, or an object with the name as its only field and
nothing in it. -/
def readStrategy : Json → Except SettingsError Strategy
  | .string name => readStrategyName name
  | .object [(name, content)] => do
    let strategy ← readStrategyName name
    match content with
    | .null => return strategy
    | found => throw (.wrongType found .unit)
  | .object fields => .error (.wrongValue (.object fields) .singleKey)
  | found => .error (.wrongType found .variant)

def setField (s : Settings) (name : String) (value : Json) : Except SettingsError Settings :=
  match name with
  | "greedy_init" => do return { s with greedyInit := ← readBool value }
  | "bms_threshold" => do return { s with bmsThreshold := ← readWord .size value }
  | "max_steps" => do return { s with maxSteps := ← readWord .word value }
  | "max_seconds" => do return { s with maxSeconds := ← readFloat value }
  | "step_cutoff" => do return { s with stepCutoff := ← readBool value }
  | "time_cutoff" => do return { s with timeCutoff := ← readBool value }
  | "lift" => do return { s with lift := ← readBool value }
  | "tabu" => do return { s with tabu := ← readBool value }
  | "tabu_base" => do return { s with tabuBase := ← readWord .word value }
  | "tabu_spread" => do return { s with tabuSpread := ← readWord .word value }
  | "random_step" => do return { s with randomStep := ← readWord .size value }
  | "print_step" => do return { s with printStep := ← readBool value }
  | "validate" => do return { s with validate := ← readBool value }
  | "variant" => do return { s with strategy := ← readStrategy value }
  | "seed" => do return { s with seed := ← readWord .word value }
  | _ => .error (.unknownField name)

namespace Settings

def ofFields (fields : Json.Fields) : Except SettingsError Settings := do
  let s ← fields.foldlM (fun s (name, value) => setField s name value) standard
  if s.bmsThreshold = 0 then throw .zeroThreshold
  else if s.maxSeconds ≥ 0 then return s
  else throw .negativeSeconds

def toJson (s : Settings) : Json :=
  .object [
    ("bms_threshold", .int s.bmsThreshold),
    ("greedy_init", .bool s.greedyInit),
    ("lift", .bool s.lift),
    ("max_seconds", .float s.maxSeconds),
    ("max_steps", .int s.maxSteps),
    ("print_step", .bool s.printStep),
    ("random_step", .int s.randomStep),
    ("seed", .int s.seed),
    ("step_cutoff", .bool s.stepCutoff),
    ("tabu", .bool s.tabu),
    ("tabu_base", .int s.tabuBase),
    ("tabu_spread", .int s.tabuSpread),
    ("time_cutoff", .bool s.timeCutoff),
    ("validate", .bool s.validate),
    ("variant", .string s.strategy.name)]

end Settings
end NonlinearInteger.Search
