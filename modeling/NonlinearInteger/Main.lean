import NonlinearInteger.CommandLine.Commands

/-!
# The program

Carries the dialogue of a command line out on the file system.
-/

open NonlinearInteger.CommandLine

/-- The contents of a file, if it can be read. -/
def readContents (path : String) : IO (Option ByteArray) := do
  try
    return some (← IO.FS.readBinFile path)
  catch _ => return none

/-- Writes a file, and tells whether that was possible. -/
def writeContents (path text : String) : IO Bool := do
  try
    IO.FS.writeBinFile path text.toUTF8
    return true
  catch _ => return false

/-- Reads the standard input to its end. -/
partial def readAll (stream : IO.FS.Stream) (read : ByteArray) : IO ByteArray := do
  let chunk ← stream.read 65536
  if chunk.isEmpty then return read else readAll stream (read ++ chunk)

/-- Carries a dialogue out. Work is timed from the last answer on. -/
def carryOut (start : Nat) : Dialogue → IO UInt32
  | .finish outcome => do
    IO.print outcome.stdout
    IO.eprint outcome.stderr
    return UInt32.ofNat outcome.exit
  | .readFile path next => do
    let contents ← readContents path
    carryOut (← IO.monoNanosNow) (next contents)
  | .readInput next => do
    let contents ← readAll (← IO.getStdin) .empty
    carryOut (← IO.monoNanosNow) (next contents)
  | .readClock next => do
    let now ← IO.monoNanosNow
    carryOut now (next (.ofNanos (now - start)))
  | .writeFile path text next => do
    let written ← writeContents path text
    carryOut (← IO.monoNanosNow) (next written)

def main (args : List String) : IO UInt32 := do
  carryOut (← IO.monoNanosNow) (dialogue args)
