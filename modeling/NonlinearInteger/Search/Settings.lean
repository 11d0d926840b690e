/-!
# Search settings
-/

namespace NonlinearInteger.Search

/-- What is done while every constraint holds: lift the objective and walk among
slack constraints, or raise the objective variables until all are at their
upper bounds. -/
inductive Strategy where
  | lift
  | objective
  deriving DecidableEq, Repr

def Strategy.name : Strategy → String
  | lift => "lift"
  | objective => "objective"

def Strategy.ofName? : String → Option Strategy
  | "lift" => some .lift
  | "objective" => some .objective
  | _ => none

theorem Strategy.ofName?_name (s : Strategy) : Strategy.ofName? s.name = some s := by
  cases s <;> rfl

/-- The number of steps is bounded whether or not the step cutoff is on. -/
structure Settings where
  greedyInit : Bool
  bmsThreshold : Nat
  maxSteps : Nat
  maxSeconds : Float
  stepCutoff : Bool
  timeCutoff : Bool
  lift : Bool
  tabu : Bool
  tabuBase : Nat
  tabuSpread : Nat
  randomStep : Nat
  printStep : Bool
  validate : Bool
  strategy : Strategy
  seed : Nat

namespace Settings

def standard : Settings where
  greedyInit := false
  bmsThreshold := 100
  maxSteps := 18446744073709551615
  maxSeconds := 60
  stepCutoff := true
  timeCutoff := true
  lift := true
  tabu := true
  tabuBase := 3
  tabuSpread := 10
  randomStep := 10
  printStep := false
  validate := false
  strategy := .objective
  seed := 0

end Settings
end NonlinearInteger.Search
