import NonlinearInteger.Search.Report
import NonlinearInteger.Json.Value
import NonlinearInteger.Seconds

/-!
# Reports as JSON
-/

namespace NonlinearInteger.Search

def assignmentJson (a : Assignment) : Json :=
  .object [
    ("values", Json.ofInts a.values.toList),
    ("lbs", Json.ofInts a.lbs.toList),
    ("ubs", Json.ofInts a.ubs.toList)]

def MoveCounts.toJson (c : MoveCounts) : Json :=
  .object (MoveKind.all.map fun k => (k.name, .int (c.count k)))

/-- A report of a run that took the given time. -/
def Report.toJson (r : Report) (elapsed : Seconds) : Json :=
  .object [
    ("assignment", assignmentJson r.assignment),
    ("objective", match r.objective with
      | some x => .int x
      | none => .null),
    ("unsat_count", .int r.unsatCount),
    ("feasible", .bool r.feasible),
    ("steps", .int r.steps),
    ("elapsed_secs", .float elapsed.value),
    ("stop", .string r.stop.name),
    ("moves", r.moves.toJson),
    ("verified", .bool r.verified),
    ("violation", match r.violation with
      | some v => .string v.message
      | none => .null)]

end NonlinearInteger.Search
