import NonlinearInteger.Seconds
import NonlinearInteger.Text.Blank

/-!
# Dialogues

A command reads files and the standard input, asks how long it has worked,
writes files, and ends with an exit code and two texts. A dialogue lists these
actions, each with the answer it waits for. It can be carried out in a directory
of files in memory, where the time that the work takes is given.
-/

namespace NonlinearInteger.CommandLine

/-- How a command ends. -/
structure Outcome where
  exit : Nat
  stdout : String
  stderr : String
  deriving DecidableEq, Repr

inductive Dialogue where
  | finish (outcome : Outcome)
  | readFile (path : String) (next : Option ByteArray → Dialogue)
  | readInput (next : ByteArray → Dialogue)
  | readClock (next : Seconds → Dialogue)
  | writeFile (path text : String) (next : Bool → Dialogue)

/-- Files by their paths, and the standard input. -/
structure Directory where
  files : List (String × ByteArray)
  input : ByteArray

/-- The parts of a relative path to a file; `none` for another path. -/
def parts? (path : String) : Option (List String) :=
  if path.isEmpty || path.startsWith "/" || path.endsWith "/" then none
  else
    let parts := (Text.splitAt '/' path).filter fun part => !part.isEmpty && part != "."
    if parts.isEmpty || parts.elem ".." || path.endsWith "/." then none else some parts

namespace Directory

/-- The contents of a file. -/
def read? (d : Directory) (path : String) : Option ByteArray := do
  let parts ← parts? path
  (d.files.find? fun (name, _) => parts? name == some parts).map Prod.snd

/-- Whether a directory of the given parts holds a file. -/
def hasDirectory (d : Directory) (parts : List String) : Bool :=
  parts.isEmpty || d.files.any fun (name, _) =>
    match parts? name with
    | some fileParts => parts.isPrefixOf fileParts && parts != fileParts
    | none => false

/-- Writes a file into a directory that is there, unless the path is one itself. -/
def write? (d : Directory) (path : String) (contents : ByteArray) : Option Directory := do
  let parts ← parts? path
  if d.hasDirectory parts.dropLast && !d.hasDirectory parts then
    let others := d.files.filter fun (name, _) => parts? name != some parts
    return { d with files := (path, contents) :: others }
  else none

theorem read?_of_write? {d e : Directory} {path : String} {contents : ByteArray}
    (h : d.write? path contents = some e) : e.read? path = some contents := by
  unfold write? at h
  cases hp : parts? path with
  | none => simp [hp] at h
  | some parts =>
    simp only [hp, Option.bind_eq_bind, Option.bind_some] at h
    split at h
    · cases h
      simp [read?, hp]
    · cases h

theorem read?_of_write?_of_ne {d e : Directory} {path other : String} {contents : ByteArray}
    (h : d.write? path contents = some e) (hne : parts? other ≠ parts? path) :
    e.read? other = d.read? other := by
  unfold write? at h
  cases hpath : parts? path with
  | none => simp [hpath] at h
  | some parts =>
    simp only [hpath, Option.bind_eq_bind, Option.bind_some] at h
    split at h
    · cases h
      cases hother : parts? other with
      | none => simp [read?, hother]
      | some others =>
        have hparts : parts ≠ others := by
          rintro rfl
          exact hne (hother.trans hpath.symm)
        have hsame : (fun file : String × ByteArray => !decide (parts? file.1 = some parts) &&
            decide (parts? file.1 = some others)) = fun file => parts? file.1 == some others := by
          funext file
          by_cases hfile : parts? file.1 = some others
          · simp [hfile, Ne.symm hparts]
          · simp [hfile]
        simp [read?, hother, hpath, hparts, List.find?_filter, hsame]
    · cases h

end Directory

namespace Dialogue

/-- Carries a dialogue out, where all work takes the given time. -/
def runTimed (elapsed : Seconds) : Dialogue → Directory → Outcome × Directory
  | finish outcome, d => (outcome, d)
  | readFile path next, d => (next (d.read? path)).runTimed elapsed d
  | readInput next, d => (next d.input).runTimed elapsed d
  | readClock next, d => (next elapsed).runTimed elapsed d
  | writeFile path text next, d =>
    match d.write? path text.toUTF8 with
    | some d => (next true).runTimed elapsed d
    | none => (next false).runTimed elapsed d

/-- Carries a dialogue out, where all work takes no time. -/
def run (x : Dialogue) (d : Directory) : Outcome × Directory := x.runTimed .zero d

end Dialogue
end NonlinearInteger.CommandLine
