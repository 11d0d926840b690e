import NonlinearInteger.Proofs.JsonSuffixes
import NonlinearInteger.Proofs.Verdicts
import NonlinearInteger.Proofs.WrittenLines

/-!
# Assignments by name

An object can map the name of every variable to its value, whatever the names are. As an argument
it stands for itself, and its values are loaded in the order of the variables. Two names do not
work: a variable that is called like a field of a report or of a list of values is taken for it.
-/

namespace NonlinearInteger

namespace Json

theorem field?_eq_none {name : String} {fields : Fields} (h : ∀ entry ∈ fields, entry.1 ≠ name) :
    field? name fields = none := by
  rw [field?, Option.map_eq_none_iff, List.find?_eq_none]
  intro entry hentry
  simpa using h entry hentry

theorem exists_field_of_rereadFields {read fields result : Fields} {entry : String × Json}
    (h : rereadFields read fields = some result) (hentry : entry ∈ result) :
    entry ∈ read ∨ ∃ field ∈ fields, field.1 = entry.1 := by
  induction fields generalizing read with
  | nil =>
    cases h
    exact .inl hentry
  | cons field fields ih =>
    obtain ⟨value, -, h⟩ := Option.bind_eq_some_iff.1 h
    rcases ih h with hread | ⟨other, hother, hname⟩
    · rcases mem_insertField hread with rfl | hread
      · exact .inr ⟨field, List.mem_cons_self, rfl⟩
      · exact .inl hread
    · exact .inr ⟨other, List.mem_cons_of_mem _ hother, hname⟩

theorem exists_field?_of_mem {name : String} {value : Json} {read fields result : Fields}
    (hnodup : (fields.map Prod.fst).Nodup) (hmem : (name, value) ∈ fields)
    (h : rereadFields read fields = some result) :
    ∃ again, reread value = some again ∧ field? name result = some again := by
  induction fields generalizing read with
  | nil => cases hmem
  | cons field fields ih =>
    obtain ⟨again, hagain, h⟩ := Option.bind_eq_some_iff.1 h
    obtain ⟨hfresh, hnodup⟩ := List.nodup_cons.1 hnodup
    rcases List.mem_cons.1 hmem with rfl | hmem
    · have hname : ∀ entry ∈ fields, entry.1 ≠ name := by
        rintro entry hentry rfl
        exact hfresh (List.mem_map.2 ⟨entry, hentry, rfl⟩)
      refine ⟨again, hagain, ?_⟩
      rw [field?_of_rereadFields hname h, field?_insertField, if_pos rfl]
    · exact ih hnodup hmem h

end Json

namespace CommandLine

variable {f : Formula} {values : Array Int} {arg : String} {fields : Json.Fields}

/-- Whether a variable has this name. -/
def HasName (f : Formula) (name : String) : Prop := ∃ v < f.numVariables, f.name v = name

/-- Fields that map the name of every variable to its value, and no other name. -/
structure NamesAll (f : Formula) (values : Array Int) (fields : Json.Fields) : Prop where
  field?_name : ∀ v < f.numVariables,
    Json.field? (f.name v) fields = some (.int (valuation values v))
  hasName : ∀ entry ∈ fields, HasName f entry.1

/-- A text of an object that maps the name of every variable to its value. -/
def ByName (f : Formula) (values : Array Int) (arg : String) : Prop :=
  ∃ fields, Json.read? arg = some (.object fields) ∧ NamesAll f values fields

/-- Every value of a variable is an integer of 64 bits. -/
def AllFit (f : Formula) (values : Array Int) : Prop :=
  ∀ v < f.numVariables, FitsInt64 (valuation values v)

theorem NamesAll.field?_eq_none (h : NamesAll f values fields) {name : String}
    (hname : ¬HasName f name) : Json.field? name fields = none := by
  apply Json.field?_eq_none
  rintro entry hentry rfl
  exact hname (h.hasName entry hentry)

theorem NamesAll.exists_field? (h : NamesAll f values fields) {name : String}
    (hname : HasName f name) : ∃ x, Json.field? name fields = some (.int x) := by
  obtain ⟨v, hv, rfl⟩ := hname
  exact ⟨_, h.field?_name v hv⟩

/-- The fields in the order of the variables. -/
def namedFields (f : Formula) (values : Array Int) : Json.Fields :=
  (List.range f.numVariables).map fun v => (f.name v, .int (valuation values v))

theorem mem_namedFields {entry : String × Json} : entry ∈ namedFields f values ↔
    ∃ v < f.numVariables, (f.name v, .int (valuation values v)) = entry := by
  simp [namedFields]

theorem plain_namedFields (f : Formula) (values : Array Int) :
    Json.Plain 128 (.object (namedFields f values)) := by
  constructor
  · decide
  · unfold namedFields
    induction List.range f.numVariables with
    | nil => trivial
    | cons v vs ih => exact ⟨trivial, ih⟩

theorem exists_rereadFields (hfits : AllFit f values) :
    ∃ fields, Json.rereadFields [] (namedFields f values) = some fields := by
  apply Option.isSome_iff_exists.1
  apply Json.isSome_rereadFields
  intro entry hentry
  obtain ⟨v, hv, rfl⟩ := mem_namedFields.1 hentry
  rw [Json.reread_int (hfits v hv)]
  rfl

/-- Fields in any order of their names map them all, as no two variables have one name. -/
theorem namesAll_of_rereadFields (h : Lp.Naming f.numVariables f.name) (hfits : AllFit f values)
    (hfields : Json.rereadFields [] (namedFields f values) = some fields) :
    NamesAll f values fields := by
  have hnodup : ((namedFields f values).map Prod.fst).Nodup := by
    rw [namedFields, List.map_map]
    exact h.nodup
  constructor
  · intro v hv
    obtain ⟨again, hagain, hfield⟩ :=
      Json.exists_field?_of_mem hnodup (mem_namedFields.2 ⟨v, hv, rfl⟩) hfields
    rw [Json.reread_int (hfits v hv)] at hagain
    cases hagain
    exact hfield
  · intro entry hentry
    rcases Json.exists_field_of_rereadFields hfields hentry with hmem | ⟨field, hmem, hname⟩
    · cases hmem
    · obtain ⟨v, hv, rfl⟩ := mem_namedFields.1 hmem
      exact ⟨v, hv, hname⟩

theorem exists_byName (h : Lp.Naming f.numVariables f.name) (hfits : AllFit f values) :
    ∃ arg, ByName f values arg := by
  obtain ⟨fields, hfields⟩ := exists_rereadFields hfits
  have hread : Json.read? (Json.pretty 0 (.object (namedFields f values)) ++ "") =
      some (.object fields) := by
    rw [Json.read?_pretty (plain_namedFields f values) (by simp) (by simp [Json.skipBlanks]),
      Json.reread, hfields]
    rfl
  exact ⟨_, fields, hread, namesAll_of_rereadFields h hfits hfields⟩

/-- An object stands for itself: it ends in a brace, and so neither in a dash nor as a path does. -/
theorem withText_of_object (h : Json.read? arg = some (.object fields))
    (next : String → Dialogue) : withText arg next = next arg := by
  obtain ⟨front, blanks, htext, hblank⟩ := Json.exists_brace_of_read? h
  have hbrace : '\x7d' :: blanks <:+ arg.toList := ⟨front, htext.symm⟩
  have hinput : arg ≠ "-" := by
    rintro rfl
    exact absurd (hbrace.mem List.mem_cons_self) (by decide)
  have hpath : arg.endsWith ".json" = false := by
    refine Bool.eq_false_iff.2 fun hends => ?_
    have hjson : ".json".toList <:+ arg.toList := by
      have hslice := (String.Slice.endsWith_string_iff (s := arg.toSlice)).1 hends
      rwa [String.copy_toSlice] at hslice
    rcases List.suffix_or_suffix_of_suffix hjson hbrace with hsuffix | hsuffix
    · rcases List.mem_cons.1 (hsuffix.mem (a := '.') (by decide)) with hdot | hdot
      · exact absurd hdot (by decide)
      · exact absurd (hblank '.' hdot) (by decide)
    · exact absurd (hsuffix.mem List.mem_cons_self) (by decide)
  rw [withText, if_neg hinput, hpath]
  rfl

theorem toArray_map_valuation (values : Array Int) :
    ((List.range values.size).map (valuation values)).toArray = values := by
  apply Array.ext
  · simp
  · intro v _ hv
    simp [valuation, hv]

section Loading

variable (h : NamesAll f values fields) (harg : Json.read? arg = some (.object fields))
include h

theorem namedValues_of_namesAll (hsize : values.size = f.numVariables)
    (hfits : AllFit f values) : namedValues f fields = .ok values := by
  have hvalue : ∀ v ∈ List.range f.numVariables,
      namedValue fields (f.name v) = .ok (valuation values v) := by
    intro v hv
    have hv := List.mem_range.1 hv
    have hint : int64? (.int (valuation values v)) = some (valuation values v) :=
      if_pos (hfits v hv)
    rw [namedValue, h.field?_name v hv, Option.bind_some, hint]
  rw [namedValues, Lp.mapM_eq_ok hvalue, ← hsize]
  exact congrArg Except.ok (toArray_map_valuation values)

include harg

theorem loadAssignment_of_hasName_assignment (hname : HasName f "assignment") :
    loadAssignment f arg = .error .unsupportedAssignment := by
  obtain ⟨x, hx⟩ := h.exists_field? hname
  simp only [loadAssignment, harg, loadValues, inner, hx, Option.getD_some]

theorem loadAssignment_of_hasName_values (hassignment : ¬HasName f "assignment")
    (hname : HasName f "values") : loadAssignment f arg = .error .invalidValues := by
  obtain ⟨x, hx⟩ := h.exists_field? hname
  simp only [loadAssignment, harg, loadValues, inner, h.field?_eq_none hassignment,
    Option.getD_none, hx, valuesOf]

theorem loadAssignment_of_namesAll (hsize : values.size = f.numVariables)
    (hfits : AllFit f values) (hassignment : ¬HasName f "assignment")
    (hvalues : ¬HasName f "values") : loadAssignment f arg = .ok values := by
  simp only [loadAssignment, harg, loadValues, inner, h.field?_eq_none hassignment,
    Option.getD_none, h.field?_eq_none hvalues, namedValues_of_namesAll h hsize hfits]

end Loading

/-- How values are loaded from an object that maps the names of the variables to them. -/
structure LoadsByName (f : Formula) (values : Array Int) : Prop where
  exists_byName : ∃ arg, ByName f values arg
  inline : ∀ arg, ByName f values arg → ∀ next, withText arg next = next arg
  asReport : ∀ arg, ByName f values arg → HasName f "assignment" →
    loadAssignment f arg = .error .unsupportedAssignment
  asList : ∀ arg, ByName f values arg → ¬HasName f "assignment" → HasName f "values" →
    loadAssignment f arg = .error .invalidValues
  faithful : ∀ arg, ByName f values arg → ¬HasName f "assignment" → ¬HasName f "values" →
    loadAssignment f arg = .ok values

/-- Values of 64 bits are loaded as they are named, unless a variable that was read is called
`assignment` or `values`. -/
theorem loadsByName_of_read {text : String} (hread : Lp.read text = .ok f)
    (hsize : values.size = f.numVariables) (hfits : ∀ x ∈ values, FitsInt64 x) :
    LoadsByName f values := by
  have hfits : AllFit f values := by
    intro v hv
    have hvalue := getElem?_eq_valuation (hsize ▸ hv)
    exact hfits _ (Array.mem_of_getElem? hvalue)
  constructor
  · exact exists_byName (Lp.accepted_of_read hread).naming hfits
  · rintro arg ⟨fields, harg, h⟩ next
    exact withText_of_object harg next
  · rintro arg ⟨fields, harg, h⟩ hassignment
    exact loadAssignment_of_hasName_assignment h harg hassignment
  · rintro arg ⟨fields, harg, h⟩ hassignment hvalues
    exact loadAssignment_of_hasName_values h harg hassignment hvalues
  · rintro arg ⟨fields, harg, h⟩ hassignment hvalues
    exact loadAssignment_of_namesAll h harg hsize hfits hassignment hvalues

/-- A formula whose objective is the sum of variables with these names. -/
def sumOf (names : Array String) : Formula where
  numVariables := names.size
  constraints := #[]
  objective := .normalize (.ofMonomials ((List.range names.size).map fun v => .linear v 1))
  domains := Array.replicate names.size .standard
  names := names

theorem loadsByName_of_value :
    Lp.read "Minimize\n obj: x + value\nEnd\n" = .ok (sumOf #["x", "value"]) ∧
      LoadsByName (sumOf #["x", "value"]) #[-3, 9223372036854775807] := by
  have hread : Lp.read "Minimize\n obj: x + value\nEnd\n" = .ok (sumOf #["x", "value"]) := by
    decide +kernel
  exact ⟨hread, loadsByName_of_read hread (by decide) (by decide)⟩

/-- A variable `values` has no value by name, though its formula is read. -/
theorem values_not_loaded :
    Lp.read "Minimize\n obj: values\nEnd\n" = .ok (sumOf #["values"]) ∧
      ByName (sumOf #["values"]) #[3] "\x7b\"values\": 3\x7d" ∧
      loadAssignment (sumOf #["values"]) "\x7b\"values\": 3\x7d" = .error .invalidValues := by
  have hobject : Json.read? "\x7b\"values\": 3\x7d" = some (.object [("values", .int 3)]) := by
    cbv
  have hnames : NamesAll (sumOf #["values"]) #[3] [("values", .int 3)] := by
    constructor
    · intro v hv
      obtain rfl := Nat.lt_one_iff.1 hv
      rfl
    · intro entry hentry
      obtain rfl := List.mem_singleton.1 hentry
      exact ⟨0, by decide, rfl⟩
  have hload : loadAssignment (sumOf #["values"]) "\x7b\"values\": 3\x7d" =
      .error .invalidValues := by
    rw [loadAssignment, hobject]
    rfl
  exact ⟨by decide +kernel, ⟨_, hobject, hnames⟩, hload⟩

end CommandLine
end NonlinearInteger
