import NonlinearInteger.Search.Run
import NonlinearInteger.Search.SettingsReader
import NonlinearInteger.Random.Xoshiro

/-!
# Solving a formula

The search with the small generator, seeded as the settings say.
-/

namespace NonlinearInteger.Search

open NonlinearInteger.Random

inductive SolveError where
  | settings (cause : SettingsError)
  | start (cause : StartError)
  | step (cause : StepError)

def SolveError.message : SolveError → String
  | settings cause => cause.message
  | start cause => cause.message
  | step cause => cause.message

/-- The first state of a search with the seed of the settings. -/
def startSeeded (f : Formula) (settings : Settings) :
    Except StartError (Problem × State Xoshiro) :=
  start f settings (Xoshiro.ofSeed settings.seed)

/-- One run from the first state. -/
def solveWith (f : Formula) (settings : Settings) : Except SolveError Report :=
  match startSeeded f settings with
  | .error cause => .error (.start cause)
  | .ok (P, s) =>
    match run P s with
    | .error cause => .error (.step cause)
    | .ok (report, _) => .ok report

def solve (f : Formula) (fields : Json.Fields) : Except SolveError Report :=
  match Settings.ofFields fields with
  | .error cause => .error (.settings cause)
  | .ok settings => solveWith f settings

end NonlinearInteger.Search
