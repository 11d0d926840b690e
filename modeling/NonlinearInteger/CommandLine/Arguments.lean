import NonlinearInteger.Text.Integer

/-!
# Arguments

A command is followed by positional arguments and options in any order. An
option is given once, with its value behind an equals sign or in the next
argument; the value may be left out. After two hyphens everything is positional.
A single hyphen is an ordinary argument, but nothing else that starts with one.
-/

namespace NonlinearInteger.CommandLine

inductive Command where
  | solve (formula : String) (settings : Option String) (seed : Option Nat)
      (output : Option String) (valuesOnly : Bool)
  | generate (seed : Nat) (difficulty : String) (output : Option String)
  | verify (formula assignment : String)
  deriving DecidableEq, Repr

/-- The arguments of a command, sorted out. -/
structure Arguments where
  positional : List String
  given : List (String × Option String)
  deriving DecidableEq, Repr

namespace Arguments

def empty : Arguments := ⟨[], []⟩

def addPositional (a : Arguments) (args : List String) : Arguments :=
  { a with positional := args ++ a.positional }

/-- Adds an option that has not been given yet. -/
def addOption (a : Arguments) (name : String) (value : Option String) : Option Arguments :=
  if a.given.any fun (n, _) => n == name then none
  else some { a with given := (name, value) :: a.given }

/-- The value of an option, if the option is given with one. -/
def value? (a : Arguments) (name : String) : Option String :=
  (a.given.find? fun (n, _) => n == name).bind Prod.snd

/-- A switch is on when it is given without a value or with `true`, and off when
it is not given or given with `false`; it takes no other value. -/
def switch? (a : Arguments) (name : String) : Option Bool :=
  match a.given.find? fun (n, _) => n == name with
  | none => some false
  | some (_, none) => some true
  | some (_, some "true") => some true
  | some (_, some "false") => some false
  | some (_, some _) => none

end Arguments

/-- Whether an argument is taken for an option. -/
def isHyphenated (arg : String) : Bool :=
  match arg.toList with
  | '-' :: _ :: _ => true
  | _ => false

/-- The name of a long option and the value attached to it. -/
def longOption? (arg : String) : Option (String × Option String) :=
  match arg.toList with
  | '-' :: '-' :: cs =>
    let name := String.ofList (cs.takeWhile (· != '='))
    match cs.dropWhile (· != '=') with
    | _ :: value => some (name, some (String.ofList value))
    | [] => some (name, none)
  | _ => none

/-- Sorts arguments out; `none` if an option is not among the known ones. -/
def sortOut (options : List String) : List String → Option Arguments
  | [] => some .empty
  | arg :: rest =>
    if arg = "--" then some (Arguments.empty.addPositional rest)
    else
      match longOption? arg with
      | some (name, attached) =>
        if options.elem name then
          match attached, rest with
          | some value, rest => do (← sortOut options rest).addOption name (some value)
          | none, next :: more =>
            if isHyphenated next then do (← sortOut options (next :: more)).addOption name none
            else do (← sortOut options more).addOption name (some next)
          | none, [] => Arguments.empty.addOption name none
        else none
      | none =>
        if isHyphenated arg then none
        else do return (← sortOut options rest).addPositional [arg]

def seed? (s : String) : Option Nat := Text.natUpTo? 18446744073709551615 s

/-- A path is not empty. -/
def path? (s : String) : Option String := if s.isEmpty then none else some s

/-- The value of an option read by a function that must not fail on it. -/
def optionWith {α : Type} (read : String → Option α) (a : Arguments) (name : String) :
    Option (Option α) :=
  match a.value? name with
  | some s => (read s).map some
  | none => some none

def solveCommand? (args : List String) : Option Command := do
  let a ← sortOut ["settings", "seed", "output", "values"] args
  match a.positional with
  | [formula] =>
    let formula ← path? formula
    let seed ← optionWith seed? a "seed"
    let output ← optionWith path? a "output"
    let valuesOnly ← a.switch? "values"
    return .solve formula (a.value? "settings") seed output valuesOnly
  | _ => none

def generateCommand? (args : List String) : Option Command := do
  let a ← sortOut ["output"] args
  match a.positional with
  | [seed, difficulty] =>
    let seed ← seed? seed
    let output ← optionWith path? a "output"
    return .generate seed difficulty output
  | _ => none

def verifyCommand? (args : List String) : Option Command := do
  let a ← sortOut [] args
  match a.positional with
  | [formula, assignment] => return .verify (← path? formula) assignment
  | _ => none

/-- The command that arguments ask for; `none` if they ask for none. -/
def command? : List String → Option Command
  | "solve" :: args => solveCommand? args
  | "generate" :: args => generateCommand? args
  | "verify" :: args => verifyCommand? args
  | _ => none

end NonlinearInteger.CommandLine
