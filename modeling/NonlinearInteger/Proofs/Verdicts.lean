import NonlinearInteger.CommandLine.Commands
import NonlinearInteger.Proofs.Accepted
import NonlinearInteger.Proofs.ReportTexts

/-!
# Verifying what solving reports

The report of a solved formula is kept in a file, by the solver itself or from the
standard output. Whatever the formula and the settings, verifying that file gives
the verdict of the solver: a solution is valid with the objective of its report, and
any other assignment is refused.
-/

namespace NonlinearInteger.CommandLine

open Search

variable {α : Type} {d e g : Directory} {o : Outcome} {elapsed : Seconds}

theorem fromUTF8?_toUTF8 (s : String) : String.fromUTF8? s.toUTF8 = some s :=
  dif_pos s.isValidUTF8

theorem exit_of_fail {cause : CommandError} (h : (fail cause).runTimed elapsed d = (o, e)) : o.exit = 1 := by
  cases h
  rfl

theorem exists_of_orFail {x : Except CommandError α} {next : α → Dialogue}
    (h : (orFail x next).runTimed elapsed d = (o, e)) (ho : o.exit ≠ 1) :
    ∃ a, x = .ok a ∧ (next a).runTimed elapsed d = (o, e) := by
  cases x with
  | ok a => exact ⟨a, rfl, h⟩
  | error cause => exact absurd (exit_of_fail h) ho

theorem exists_of_withFormula {path : String} {next : Formula → Dialogue}
    (h : (withFormula path next).runTimed elapsed d = (o, e)) (ho : o.exit ≠ 1) :
    ∃ text f, decoded? (d.read? path) = some text ∧ Lp.read text = .ok f ∧
      (next f).runTimed elapsed d = (o, e) := by
  rw [withFormula, Dialogue.runTimed] at h
  split at h
  · rename_i text htext
    obtain ⟨f, hf, h⟩ := exists_of_orFail h ho
    exact ⟨text, f, htext, mapError_eq_ok.1 hf, h⟩
  · exact absurd (exit_of_fail h) ho

theorem exists_of_withText {arg : String} {next : String → Dialogue}
    (h : (withText arg next).runTimed elapsed d = (o, e)) (ho : o.exit ≠ 1) :
    ∃ text, (next text).runTimed elapsed d = (o, e) := by
  unfold withText at h
  split at h
  · rw [Dialogue.runTimed] at h
    split at h
    · exact ⟨_, h⟩
    · exact absurd (exit_of_fail h) ho
  · split at h
    · rw [Dialogue.runTimed] at h
      split at h
      · exact ⟨_, h⟩
      · exact absurd (exit_of_fail h) ho
    · exact ⟨_, h⟩

/-- Settings that are read do not allow more steps than a word counts. -/
theorem exists_of_withSettings {settings : Option String} {next : Json.Fields → Dialogue}
    (h : (withSettings settings next).runTimed elapsed d = (o, e)) (ho : o.exit ≠ 1) :
    ∃ fields, (∀ entry ∈ fields, entry.2.AtMostWord) ∧ (next fields).runTimed elapsed d = (o, e) := by
  cases settings with
  | none => exact ⟨[], by simp, h⟩
  | some arg =>
    obtain ⟨text, h⟩ := exists_of_withText h ho
    obtain ⟨fields, hfields, h⟩ := exists_of_orFail h ho
    refine ⟨fields, ?_, h⟩
    unfold parseSettings at hfields
    split at hfields
    · rename_i hread
      cases hfields
      exact Json.atMostWord_of_read? hread
    · cases hfields
    · cases hfields

theorem atMostWord_overrideSeed {fields : Json.Fields} {seed : Option Nat}
    (h : ∀ entry ∈ fields, entry.2.AtMostWord) :
    ∀ value, ("max_steps", value) ∈ overrideSeed fields seed → value.AtMostWord := by
  intro value hvalue
  cases seed with
  | none => exact h _ hvalue
  | some seed =>
    rcases Json.mem_insertField hvalue with heq | hvalue
    · exact absurd (Prod.mk.inj heq).1 (by decide)
    · exact h _ hvalue

/-- What solving leaves: the file that it was told to write, or the standard output. -/
def keptReport (output : Option String) (o : Outcome) (d : Directory) : Option ByteArray :=
  match output with
  | some path => d.read? path
  | none => some o.stdout.toUTF8

/-- A file that holds the text of a report on a run of some time, with or without a line break
at its end. -/
def HoldsReport (d : Directory) (path : String) (report : Report) (elapsed : Seconds) : Prop :=
  ∃ ending, (ending = "" ∨ ending = "\n") ∧
    d.read? path = some ((report.toJson elapsed).pretty 0 ++ ending).toUTF8

theorem exit_solveOutcome (report : Report) (stdout : String) :
    (solveOutcome report stdout).exit = if report.feasible then 0 else 85 := by
  unfold solveOutcome
  split <;> rfl

theorem stdout_solveOutcome (report : Report) (stdout : String) :
    (solveOutcome report stdout).stdout = stdout := by
  unfold solveOutcome
  split <;> rfl

theorem kept_of_printReport {report : Report} {text : String} {output : Option String}
    (h : (printReport report text output).runTimed elapsed d = (o, e)) (ho : o.exit ≠ 1) :
    o.exit = (if report.feasible then 0 else 85) ∧
      ∃ ending, (ending = "" ∨ ending = "\n") ∧
        keptReport output o e = some (text ++ ending).toUTF8 := by
  cases output with
  | none =>
    cases h
    refine ⟨exit_solveOutcome .., "\n", .inr rfl, ?_⟩
    rw [keptReport, stdout_solveOutcome]
  | some path =>
    rw [printReport, Dialogue.runTimed] at h
    split at h
    · rename_i hwrite
      cases h
      refine ⟨exit_solveOutcome .., "", .inl rfl, ?_⟩
      rw [String.append_empty]
      exact Directory.read?_of_write? hwrite
    · exact absurd (exit_of_fail h) ho

theorem read?_of_printReport {report : Report} {text path : String} {output : Option String}
    (h : (printReport report text output).runTimed elapsed d = (o, e)) (ho : o.exit ≠ 1)
    (hpath : ∀ written ∈ output, parts? path ≠ parts? written) : e.read? path = d.read? path := by
  cases output with
  | none =>
    cases h
    rfl
  | some written =>
    rw [printReport, Dialogue.runTimed] at h
    split at h
    · rename_i hwrite
      cases h
      exact Directory.read?_of_write?_of_ne hwrite (hpath written rfl)
    · exact absurd (exit_of_fail h) ho

/-- Solving that leaves a report has read a formula and searched. -/
theorem solved_of_solve {formula : String} {settings : Option String} {seed : Option Nat}
    {output : Option String} {valuesOnly : Bool}
    (h : (CommandLine.solve formula settings seed output valuesOnly).runTimed elapsed d = (o, e))
    (ho : o.exit ≠ 1) :
    ∃ text f limits first report, decoded? (d.read? formula) = some text ∧
      Lp.read text = .ok f ∧ FitsNat64 limits.maxSteps ∧ report.Solved f limits first ∧
      (printReport report (reportText f report elapsed valuesOnly) output).runTimed elapsed d =
        (o, e) := by
  obtain ⟨text, f, htext, hf, h⟩ := exists_of_withFormula h ho
  obtain ⟨fields, hfields, h⟩ := exists_of_withSettings h ho
  obtain ⟨report, hsolve, h⟩ := exists_of_orFail h ho
  have hsolve := mapError_eq_ok.1 hsolve
  unfold Search.solve at hsolve
  split at hsolve
  · cases hsolve
  · rename_i limits hlimits
    obtain ⟨first, hsolved⟩ := solved_of_solveWith (Lp.accepted_of_read hf).built hsolve
    have hsteps := maxSteps_of_ofFields (atMostWord_overrideSeed hfields) hlimits
    exact ⟨text, f, limits, first, report, htext, hf, hsteps, hsolved, h⟩

theorem read?_of_solve {formula path : String} {settings : Option String} {seed : Option Nat}
    {output : Option String} {valuesOnly : Bool}
    (h : (CommandLine.solve formula settings seed output valuesOnly).runTimed elapsed d = (o, e))
    (ho : o.exit ≠ 1) (hpath : ∀ written ∈ output, parts? path ≠ parts? written) :
    e.read? path = d.read? path := by
  obtain ⟨_, _, _, _, _, _, _, _, _, hprint⟩ := solved_of_solve h ho
  exact read?_of_printReport hprint ho hpath

theorem read?_report (report : Report) (elapsed : Seconds) {ending : String}
    (hending : ending = "" ∨ ending = "\n") :
    Json.read? ((report.toJson elapsed).pretty 0 ++ ending) =
      Json.reread (report.toJson elapsed) := by
  rcases hending with rfl | rfl
  · exact Json.read?_pretty (plain_toJson report elapsed) (by simp) (by simp [Json.skipBlanks])
  · exact Json.read?_pretty (plain_toJson report elapsed) (by simp) (by simp [Json.skipBlanks])

theorem mapM_int64? {xs : List Int} (h : ∀ x ∈ xs, FitsInt64 x) :
    (xs.map Json.int).mapM int64? = some xs := by
  induction xs with
  | nil => rfl
  | cons x xs ih =>
    have hx : int64? (.int x) = some x := if_pos (h x List.mem_cons_self)
    rw [List.map_cons, List.mapM_cons, hx, ih fun y hy => h y (List.mem_cons_of_mem _ hy)]
    rfl

/-- Verifying reads the formula, loads the values and judges them. -/
theorem run_verify {formula saved text contents : String} {f : Formula}
    (htext : decoded? (g.read? formula) = some text) (hf : Lp.read text = .ok f)
    (hjson : saved.endsWith ".json" = true) (hsaved : g.read? saved = some contents.toUTF8) :
    (CommandLine.verify formula saved).runTimed elapsed g =
      (orFail (loadAssignment f contents) fun values => .finish (verdict f values)).runTimed elapsed g := by
  have hfile : saved ≠ "-" := by
    rintro rfl
    exact absurd hjson (by decide)
  have hcontents : decoded? (g.read? saved) = some contents := by
    rw [hsaved]
    exact fromUTF8?_toUTF8 contents
  simp only [CommandLine.verify, withFormula, Dialogue.runTimed, htext, parseFormula, hf]
  simp only [Except.mapError, orFail, withText, if_neg hfile, if_pos hjson, Dialogue.runTimed,
    hcontents]

section Verdict

variable {f : Formula} {limits : Settings} {first : Assignment} {report : Report}
  (h : report.Solved f limits first)
include h

/-- The values of a report that can be read are loaded from it. -/
theorem loadAssignment_report (time : Seconds) {ending : String}
    (hending : ending = "" ∨ ending = "\n") :
    loadAssignment f ((report.toJson time).pretty 0 ++ ending) =
      match Json.reread (report.toJson time) with
      | some _ => .ok report.assignment.values
      | none => .error .malformedAssignment := by
  rw [loadAssignment, read?_report report time hending]
  cases hj : Json.reread (report.toJson time) with
  | none => rfl
  | some j =>
    obtain ⟨fields, inner, rfl, hassignment, hvalues⟩ :=
      exists_values_of_reread h.fits_values hj
    simp only [loadValues, CommandLine.inner, hassignment, Option.getD_some, hvalues, Json.ofInts,
      valuesOf, mapM_int64? h.fits_values]

theorem verdict_of_feasible {x : Int} (hfeasible : report.unsatCount = 0)
    (hx : report.objective = some x) :
    verdict f report.assignment.values =
      ⟨0, "Assignment is valid\nObjective: " ++ toString x ++ "\n", ""⟩ := by
  simp only [verdict, h.truthful.verify_iff.2 hfeasible, h.truthful.objective_eq x hx]

theorem verdict_of_infeasible (hinfeasible : report.unsatCount ≠ 0) :
    (verdict f report.assignment.values).exit = 1 := by
  cases hverify : f.verify report.assignment.values with
  | ok => exact absurd (h.truthful.verify_iff.1 hverify) hinfeasible
  | error violation => simp only [verdict, hverify]

variable {formula saved text : String} {time : Seconds} (htext : decoded? (g.read? formula) = some text)
  (hf : Lp.read text = .ok f) (hjson : saved.endsWith ".json" = true)
  (hsaved : HoldsReport g saved report time)
include htext hf hjson hsaved

theorem run_verify_of_feasible (elapsed : Seconds) {x : Int} (hlimits : FitsNat64 limits.maxSteps)
    (hfeasible : report.unsatCount = 0) (hx : report.objective = some x) :
    (CommandLine.verify formula saved).runTimed elapsed g =
      (⟨0, "Assignment is valid\nObjective: " ++ toString x ++ "\n", ""⟩, g) := by
  obtain ⟨ending, hending, hbytes⟩ := hsaved
  obtain ⟨j, hj⟩ := Option.isSome_iff_exists.1 ((h.sized hlimits hfeasible).isSome_reread time)
  rw [run_verify htext hf hjson hbytes, loadAssignment_report h time hending, hj,
    ← verdict_of_feasible h hfeasible hx]
  rfl

/-- A report that cannot be read is refused as well. -/
theorem run_verify_of_infeasible (elapsed : Seconds) (hinfeasible : report.unsatCount ≠ 0) :
    ∃ verdict, (CommandLine.verify formula saved).runTimed elapsed g = (verdict, g) ∧ verdict.exit = 1 := by
  obtain ⟨ending, hending, hbytes⟩ := hsaved
  rw [run_verify htext hf hjson hbytes, loadAssignment_report h time hending]
  cases Json.reread (report.toJson time) with
  | none => exact ⟨_, rfl, rfl⟩
  | some j => exact ⟨_, rfl, verdict_of_infeasible h hinfeasible⟩

end Verdict

/-- Solving and verifying agree, however long they take. If solving exits with 0, verifying the report that it
leaves accepts the assignment with the objective of the report; if it exits with 85,
verifying refuses the assignment. -/
theorem verify_of_solve {formula saved : String} {settings : Option String} {seed : Option Nat}
    {output : Option String} {time : Seconds}
    (hsolve : (Command.solve formula settings seed output false).dialogue.runTimed time d = (o, e))
    (hreport : o.exit ≠ 1) (hformula : g.read? formula = d.read? formula)
    (hjson : saved.endsWith ".json" = true) (hsaved : g.read? saved = keptReport output o e) :
    ∃ report verdict, HoldsReport g saved report time ∧
      (Command.verify formula saved).dialogue.runTimed elapsed g = (verdict, g) ∧
      ((o.exit = 0 ∧ ∃ x, report.objective = some x ∧
          verdict = ⟨0, "Assignment is valid\nObjective: " ++ toString x ++ "\n", ""⟩) ∨
        (o.exit = 85 ∧ report.objective = none ∧ verdict.exit = 1)) := by
  obtain ⟨text, f, limits, first, report, htext, hf, hlimits, hsolved, hprint⟩ :=
    solved_of_solve hsolve hreport
  obtain ⟨hexit, ending, hending, hkept⟩ := kept_of_printReport hprint hreport
  have hholds : HoldsReport g saved report time := ⟨ending, hending, hsaved.trans hkept⟩
  have hsolution := hsolved.truthful.feasible_iff
  have hobjective := hsolved.truthful.objective_isSome_iff
  rw [← hformula] at htext
  by_cases hunsat : report.unsatCount = 0
  · have hfeasible := hsolution.2 hunsat
    obtain ⟨x, hx⟩ := Option.isSome_iff_exists.1 (hobjective.2 hfeasible)
    have hverify := run_verify_of_feasible hsolved htext hf hjson hholds elapsed hlimits hunsat hx
    rw [if_pos hfeasible] at hexit
    exact ⟨report, _, hholds, hverify, .inl ⟨hexit, x, hx, rfl⟩⟩
  · have hinfeasible : ¬report.feasible = true := fun h => hunsat (hsolution.1 h)
    obtain ⟨verdict, hverify, hrefused⟩ :=
      run_verify_of_infeasible hsolved htext hf hjson hholds elapsed hunsat
    have hnone : report.objective = none := by
      rwa [← hobjective, Option.not_isSome_iff_eq_none] at hinfeasible
    rw [if_neg hinfeasible] at hexit
    exact ⟨report, verdict, hholds, hverify, .inr ⟨hexit, hnone, hrefused⟩⟩

def areaText : String :=
  "Minimize\n obj: - x - y\nSubject To\n area: x * y + y <= 12\n" ++
    "Bounds\n 1 <= x <= 5\n 2 <= y <= 5\nGenerals\n x y\nEnd\n"

def areaDirectory : Directory := ⟨[("area.lp", areaText.toUTF8)], ByteArray.empty⟩

/-- One step lifts a variable as far as the constraint allows. -/
def solveArea : Command :=
  .solve "area.lp" (some "\x7b\"max_steps\": 1, \"variant\": \"lift\"\x7d") none
    (some "report.json") false

def quarterSecond : Seconds := .ofFloat 0.25

def solvedArea : Outcome × Directory := solveArea.dialogue.runTimed quarterSecond areaDirectory

theorem exit_solvedArea : solvedArea.1.exit = 0 := by decide +kernel

theorem verify_of_solvedArea : solvedArea.1.exit = 0 ∧
    ∃ report verdict, HoldsReport solvedArea.2 "report.json" report quarterSecond ∧
      (Command.verify "area.lp" "report.json").dialogue.run solvedArea.2 =
        (verdict, solvedArea.2) ∧
      ((solvedArea.1.exit = 0 ∧ ∃ x, report.objective = some x ∧
          verdict = ⟨0, "Assignment is valid\nObjective: " ++ toString x ++ "\n", ""⟩) ∨
        (solvedArea.1.exit = 85 ∧ report.objective = none ∧ verdict.exit = 1)) := by
  have hexit := exit_solvedArea
  have hsolve : solveArea.dialogue.runTimed quarterSecond areaDirectory = (solvedArea.1, solvedArea.2) :=
    (Prod.mk.eta (p := solvedArea)).symm
  have hreport : solvedArea.1.exit ≠ 1 := by
    rw [hexit]
    decide
  have hformula : solvedArea.2.read? "area.lp" = areaDirectory.read? "area.lp" := by
    refine read?_of_solve hsolve hreport ?_
    rintro written ⟨⟩
    decide +kernel
  exact ⟨hexit, verify_of_solve hsolve hreport hformula (by decide +kernel) rfl⟩

end NonlinearInteger.CommandLine
