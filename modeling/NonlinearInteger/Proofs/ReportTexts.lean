import NonlinearInteger.Proofs.Counts
import NonlinearInteger.Proofs.FloatTexts
import NonlinearInteger.Proofs.JsonTexts
import NonlinearInteger.Proofs.ReadIntegers
import NonlinearInteger.Proofs.Sessions
import NonlinearInteger.Search.ReportJson
import NonlinearInteger.Search.Solve

/-!
# Reading back reports

A report that is written and read is an object whose assignment holds the values
of the report. The report of a solution can always be read: its counters are
words and its objective fits into 128 bits.
-/

namespace NonlinearInteger

namespace Json

theorem field?_of_rereadFields {name : String} {read fields result : Fields}
    (hname : ∀ entry ∈ fields, entry.1 ≠ name) (h : rereadFields read fields = some result) :
    field? name result = field? name read := by
  induction fields generalizing read with
  | nil =>
    cases h
    rfl
  | cons entry fields ih =>
    obtain ⟨value, -, h⟩ := Option.bind_eq_some_iff.1 h
    rw [ih (fun entry h => hname entry (List.mem_cons_of_mem _ h)) h, field?_insertField,
      if_neg (hname entry List.mem_cons_self).symm]

/-- The first field keeps its place if no later one has its name. -/
theorem exists_field?_of_rereadFields {name : String} {value : Json} {fields result : Fields}
    (hname : ∀ entry ∈ fields, entry.1 ≠ name)
    (h : rereadFields [] ((name, value) :: fields) = some result) :
    ∃ read, reread value = some read ∧ field? name result = some read := by
  obtain ⟨read, hread, h⟩ := Option.bind_eq_some_iff.1 h
  refine ⟨read, hread, ?_⟩
  rw [field?_of_rereadFields hname h, field?_insertField, if_pos rfl]

theorem isSome_rereadFields {fields : Fields} (h : ∀ entry ∈ fields, (reread entry.2).isSome)
    (read : Fields) : (rereadFields read fields).isSome := by
  induction fields generalizing read with
  | nil => rfl
  | cons entry fields ih =>
    obtain ⟨value, hvalue⟩ := Option.isSome_iff_exists.1 (h entry List.mem_cons_self)
    rw [rereadFields, hvalue]
    exact ih (fun entry h' => h entry (List.mem_cons_of_mem _ h')) _

theorem reread_int {x : Int} (h : FitsInt64 x) : reread (.int x) = some (.int x) := by
  rw [reread, rereadInteger_of_fits h.1 (by have := h.2; omega)]

theorem reread_nat {n : Nat} (h : FitsNat64 n) : reread (.int n) = some (.int n) := by
  unfold FitsNat64 at h
  rw [reread, rereadInteger_of_fits (by omega) (by omega)]

theorem isSome_reread_wide {x : Int} (h : Wide.Fits x) : (reread (.int x)).isSome := by
  simp only [Wide.Fits, Wide.least, Wide.greatest] at h
  rw [reread]
  exact isSome_rereadInteger _ (by omega)

theorem reread_ofInts {xs : List Int} (h : ∀ x ∈ xs, FitsInt64 x) :
    reread (ofInts xs) = some (ofInts xs) := by
  have hitems : rereadItems (xs.map .int) = some (xs.map .int) := by
    induction xs with
    | nil => rfl
    | cons x xs ih =>
      rw [List.map_cons, rereadItems, reread_int (h x List.mem_cons_self),
        ih fun x hx => h x (List.mem_cons_of_mem _ hx)]
      rfl
  rw [ofInts, reread, hitems]
  rfl

theorem plain_ofInts {depth : Nat} (hdepth : 1 < depth) (xs : List Int) :
    Plain depth (ofInts xs) := by
  refine ⟨hdepth, ?_⟩
  induction xs with
  | nil => trivial
  | cons x xs ih => exact ⟨trivial, ih⟩

end Json

/-- Evaluation saturates after every term. -/
theorem Polynomial.fits_of_evaluate {p : Polynomial} {values : Array Int} {x : Int}
    (h : p.evaluate values = .ok x) : Wide.Fits x := by
  refine foldlM_keeps (motive := Wide.Fits) h (by decide) ?_
  intro total m next _ _ hnext
  obtain ⟨value, -, rfl⟩ := map_eq_ok.1 hnext
  exact Wide.fits_saturate _

namespace Search

open Json

theorem plain_toJson (r : Report) (elapsed : Seconds) : Plain 128 (r.toJson elapsed) := by
  obtain ⟨a, objective, unsat, feasible, steps, stop, moves, violation⟩ := r
  have hints : ∀ xs, Plain 126 (ofInts xs) := plain_ofInts (by decide)
  have htime := exists_readsAs_seconds elapsed
  cases objective <;> cases violation <;>
    simp [Report.toJson, assignmentJson, MoveCounts.toJson, MoveKind.all, Plain, PlainFields, hints, htime]

/-- Whatever a report is read back as, its values are where they were. -/
theorem exists_values_of_reread {r : Report} {elapsed : Seconds} {j : Json}
    (hvalues : ∀ x ∈ r.assignment.values.toList, FitsInt64 x)
    (h : reread (r.toJson elapsed) = some j) :
    ∃ fields inner, j = .object fields ∧ field? "assignment" fields = some (.object inner) ∧
      field? "values" inner = some (ofInts r.assignment.values.toList) := by
  obtain ⟨fields, hfields, rfl⟩ := Option.map_eq_some_iff.1 h
  obtain ⟨read, hread, hassignment⟩ := exists_field?_of_rereadFields (by simp) hfields
  obtain ⟨inner, hinner, rfl⟩ := Option.map_eq_some_iff.1 hread
  obtain ⟨read, hread, hfield⟩ := exists_field?_of_rereadFields (by simp) hinner
  rw [reread_ofInts hvalues] at hread
  cases hread
  exact ⟨fields, inner, rfl, hassignment, hfield⟩

/-- Every integer of a report has few enough digits. -/
structure Report.Sized (r : Report) : Prop where
  values : ∀ x ∈ r.assignment.values.toList, FitsInt64 x
  lbs : ∀ x ∈ r.assignment.lbs.toList, FitsInt64 x
  ubs : ∀ x ∈ r.assignment.ubs.toList, FitsInt64 x
  objective : ∀ x, r.objective = some x → Wide.Fits x
  unsatCount : FitsNat64 r.unsatCount
  steps : FitsNat64 r.steps
  moves : ∀ kind, FitsNat64 (r.moves.count kind)

theorem Report.Sized.isSome_reread {r : Report} (h : r.Sized) (elapsed : Seconds) :
    (reread (r.toJson elapsed)).isSome := by
  obtain ⟨time, htime⟩ := exists_readsAs_seconds elapsed
  have hassignment : (reread (assignmentJson r.assignment)).isSome := by
    rw [assignmentJson, reread, Option.isSome_map]
    apply isSome_rereadFields
    simp [reread_ofInts h.values, reread_ofInts h.lbs, reread_ofInts h.ubs]
  have hmoves : (reread r.moves.toJson).isSome := by
    rw [MoveCounts.toJson, reread, Option.isSome_map]
    apply isSome_rereadFields
    simp [reread_nat (h.moves _)]
  rw [Report.toJson, reread, Option.isSome_map]
  apply isSome_rereadFields
  cases hx : r.objective with
  | none =>
    cases r.violation <;>
      simp [hassignment, hmoves, reread_nat h.unsatCount, reread_nat h.steps,
        htime.reread_float]
  | some x =>
    cases r.violation <;>
      simp [hassignment, hmoves, reread_nat h.unsatCount, reread_nat h.steps,
        htime.reread_float, isSome_reread_wide (h.objective x hx)]

theorem MoveCounts.count_le_total (c : MoveCounts) (kind : MoveKind) : c.count kind ≤ c.total := by
  cases kind <;> simp only [count, total] <;> omega

/-- What solving reports: the assignment keeps to its bounds, the report is truthful,
and no step is counted beyond the limit. -/
structure Report.Solved (f : Formula) (settings : Settings) (first : Assignment) (r : Report) :
    Prop where
  bounds : Bounds f first.lbs first.ubs
  inside : Inside first.lbs first.ubs r.assignment
  truthful : r.Truthful f first
  steps_le : r.steps ≤ settings.maxSteps
  total_eq : r.moves.total = r.steps

theorem solved_of_solveWith {f : Formula} (hf : f.Built) {settings : Settings} {report : Report}
    (h : solveWith f settings = .ok report) :
    ∃ first, report.Solved f settings first := by
  unfold solveWith at h
  split at h
  · cases h
  · rename_i P s hstart
    obtain ⟨hformula, hsettings, hP, hs, hbest, -, hstep⟩ := start_eq_ok hf.wellFormed hstart
    obtain ⟨stop, t, visited, last, hrun, -, -, ht⟩ :=
      succeeds_timedRun hP .never (fun (_ : Unit) _ => ()) () hs hbest
    obtain ⟨ran, u, seen, hran⟩ : ∃ ran u seen,
        Ran P s.assignment.lbs s.assignment.ubs ⟨s, []⟩ .never ran u seen :=
      exists_ran hP hs hbest (counted_first hstart) .never
    have hsame := hrun.symm.trans hran.unobserved
    have hresult : run P s = .ok (t.report P stop, t) := by
      rw [run, observedRun, hrun]
      rfl
    simp only [hresult] at h
    cases h
    cases hsame
    subst hformula hsettings
    refine ⟨s.assignment, hP.bounds.toBounds, ht.inside, truthful_report hP ht stop, ?_, ?_⟩
    · rw [hran.steps_eq]
      simpa [hstep] using hran.step_le
    · rw [hran.moves_eq, hran.steps_eq]
      exact hran.counted.total_eq

theorem fits_of_mem {xs : Array Int} (h : ∀ v < xs.size, FitsInt64 (valuation xs v)) :
    ∀ x ∈ xs.toList, FitsInt64 x := by
  intro x hx
  obtain ⟨v, hv, rfl⟩ := List.mem_iff_getElem.1 hx
  have hfits := h v (by simpa using hv)
  rwa [valuation, Array.getD_eq_getD_getElem?,
    Array.getElem?_eq_getElem (by simpa using hv)] at hfits

namespace Report.Solved

variable {f : Formula} {settings : Settings} {first : Assignment} {r : Report}

theorem fits_values (h : r.Solved f settings first) :
    ∀ x ∈ r.assignment.values.toList, FitsInt64 x := by
  apply fits_of_mem
  intro v hv
  have hlt : v < first.lbs.size := h.inside.size_values ▸ hv
  have hbetween := h.inside.between v hlt
  obtain ⟨hlb, hub⟩ := h.bounds.fits (h.bounds.size_lbs ▸ hlt)
  unfold FitsInt64 at *
  omega

theorem fits_lbs (h : r.Solved f settings first) :
    ∀ x ∈ r.assignment.lbs.toList, FitsInt64 x := by
  rw [h.inside.lbs_eq]
  exact fits_of_mem fun v hv => (h.bounds.fits (h.bounds.size_lbs ▸ hv)).1

theorem fits_ubs (h : r.Solved f settings first) :
    ∀ x ∈ r.assignment.ubs.toList, FitsInt64 x := by
  rw [h.inside.ubs_eq]
  exact fits_of_mem fun v hv => (h.bounds.fits (h.bounds.size_ubs ▸ hv)).2

theorem sized (h : r.Solved f settings first) (hsettings : FitsNat64 settings.maxSteps)
    (hfeasible : r.unsatCount = 0) : r.Sized where
  values := h.fits_values
  lbs := h.fits_lbs
  ubs := h.fits_ubs
  objective := fun x hx => Polynomial.fits_of_evaluate (h.truthful.objective_eq x hx)
  unsatCount := by
    rw [hfeasible]
    decide
  steps := h.steps_le.trans hsettings
  moves := fun kind =>
    ((r.moves.count_le_total kind).trans_eq h.total_eq).trans (h.steps_le.trans hsettings)

end Report.Solved

end Search
end NonlinearInteger
