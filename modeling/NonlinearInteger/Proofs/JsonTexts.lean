import NonlinearInteger.Proofs.JsonScalars
import Mathlib.Data.List.DropRight

/-!
# Reading back JSON texts

A value written one item a line is read back whole. Its strings, its shape and
its integers of 64 bits are the same, and of fields with one name the last one
stays. Longer integers and floating-point numbers change, and a longer integer
can be too long to be read.
-/

namespace NonlinearInteger.Json

mutual

def reread : Json → Option Json
  | .int x => rereadInteger (decide (x < 0)) x.natAbs
  | .float x => (readNumber (floatText x).toList).map Prod.fst
  | .array items => (rereadItems items).map .array
  | .object fields => (rereadFields [] fields).map .object
  | value => some value

def rereadItems : List Json → Option (List Json)
  | [] => some []
  | item :: items => do
    let item ← reread item
    let items ← rereadItems items
    return item :: items

/-- The fields are added to those read before. -/
def rereadFields : Fields → Fields → Option Fields
  | read, [] => some read
  | read, (name, value) :: fields => do
    let value ← reread value
    rereadFields (insertField name value read) fields

end

@[simp]
theorem reread_null : reread .null = some .null := by simp [reread]

@[simp]
theorem reread_bool (b : Bool) : reread (.bool b) = some (.bool b) := by simp [reread]

theorem ReadsAs.reread_float {x : Float} {j : Json} (h : ReadsAs (floatText x).toList j) :
    reread (.float x) = some j := by
  have hread := h.reads [] follows_nil
  rw [List.append_nil] at hread
  rw [reread, hread]
  rfl

@[simp]
theorem reread_string (s : String) : reread (.string s) = some (.string s) := by simp [reread]

mutual

/-- Whether a value nests less deep than a bound, and its floating-point numbers
are read back as numbers. -/
def Plain : Nat → Json → Prop
  | _, .float x => ∃ j, ReadsAs (floatText x).toList j
  | depth, .array items => 1 < depth ∧ PlainItems (depth - 1) items
  | depth, .object fields => 1 < depth ∧ PlainFields (depth - 1) fields
  | _, _ => True

def PlainItems : Nat → List Json → Prop
  | _, [] => True
  | depth, item :: items => Plain depth item ∧ PlainItems depth items

def PlainFields : Nat → Fields → Prop
  | _, [] => True
  | depth, (_, value) :: fields => Plain depth value ∧ PlainFields depth fields

end

theorem skipBlanks_idem (cs : List Char) : skipBlanks (skipBlanks cs) = skipBlanks cs :=
  List.dropWhile_idempotent _ cs

theorem skipBlanks_newline (level : Nat) (cs : List Char) :
    skipBlanks ((newline level).toList ++ cs) = skipBlanks cs := by
  have hblanks : ∀ c ∈ (newline level).toList,
      (c == ' ' || c == '\n' || c == '\t' || c == '\r') = true := by
    intro c hc
    simp only [newline, String.toList_append, String.toList_ofList, List.mem_append,
      List.mem_replicate] at hc
    rcases hc with hc | ⟨-, rfl⟩
    · obtain rfl : c = '\n' := by simpa using hc
      rfl
    · rfl
  exact List.dropWhile_append_of_pos hblanks

section Blanks

variable {cs ds : List Char} (h : skipBlanks cs = skipBlanks ds)
include h

theorem readValue_congr (fuel depth : Nat) : readValue fuel depth cs = readValue fuel depth ds := by
  cases fuel with
  | zero => rfl
  | succ fuel => rw [readValue, readValue, h]

theorem readItems_congr (fuel depth : Nat) : readItems fuel depth cs = readItems fuel depth ds := by
  cases fuel with
  | zero => rfl
  | succ fuel => rw [readItems, readItems, readValue_congr h]

theorem readFields_congr (fuel depth : Nat) (fields : Fields) :
    readFields fuel depth fields cs = readFields fuel depth fields ds := by
  cases fuel with
  | zero => rfl
  | succ fuel => rw [readFields, readFields, h]

end Blanks

/-- A character that starts a value. -/
def Starts (c : Char) : Prop :=
  (c == ' ' || c == '\n' || c == '\t' || c == '\r') = false ∧ c ≠ ']'

instance : DecidablePred Starts := fun _ => inferInstanceAs (Decidable (_ ∧ _))

theorem starts_of_isDigit {c : Char} (h : c.isDigit = true) : Starts c := by
  refine ⟨?_, ?_⟩
  · simp only [Bool.or_eq_false_iff, beq_eq_false_iff_ne]
    refine ⟨⟨⟨?_, ?_⟩, ?_⟩, ?_⟩ <;> rintro rfl <;> exact absurd h (by decide)
  · rintro rfl
    exact absurd h (by decide)

theorem skipBlanks_cons {c : Char} (h : Starts c) (cs : List Char) :
    skipBlanks (c :: cs) = c :: cs := by
  simp only [skipBlanks, List.dropWhile_cons, h.1]
  rfl

@[simp]
theorem toList_pretty_null (level : Nat) : (pretty level .null).toList = ['n', 'u', 'l', 'l'] := by
  simp [pretty, scalarText]

@[simp]
theorem toList_pretty_true (level : Nat) :
    (pretty level (.bool true)).toList = ['t', 'r', 'u', 'e'] := by
  simp [pretty, scalarText]

@[simp]
theorem toList_pretty_false (level : Nat) :
    (pretty level (.bool false)).toList = ['f', 'a', 'l', 's', 'e'] := by
  simp [pretty, scalarText]

@[simp]
theorem toList_pretty_float (level : Nat) (x : Float) :
    (pretty level (.float x)).toList = (floatText x).toList := by
  simp [pretty, scalarText]

@[simp]
theorem toList_pretty_array_nil (level : Nat) : (pretty level (.array [])).toList = ['[', ']'] := by
  simp [pretty, prettyItems, block]

@[simp]
theorem toList_pretty_object_nil (level : Nat) :
    (pretty level (.object [])).toList = ['\x7b', '\x7d'] := by
  simp [pretty, prettyFields, block]

/-- Items one a line, with commas between them. -/
def separated (level : Nat) : List String → List Char
  | [] => []
  | [item] => (newline level).toList ++ item.toList
  | item :: items => (newline level).toList ++ (item.toList ++ ',' :: separated level items)

theorem toList_intercalate_newline (level : Nat) (item : String) (items : List String) :
    (",".intercalate ((item :: items).map (newline level ++ ·))).toList =
      separated level (item :: items) := by
  rw [String.toList_intercalate]
  induction items generalizing item with
  | nil => simp [separated, List.intercalate]
  | cons next items ih =>
    have hrest := ih next
    rw [List.map_cons, List.map_cons] at hrest
    rw [List.map_cons, List.map_cons, List.map_cons, List.map_cons,
      List.intercalate_cons_cons, hrest]
    simp [separated]

theorem toList_block (level : Nat) (opening closing item : String) (items : List String) :
    (block level opening closing (item :: items)).toList =
      opening.toList ++ (separated (level + 1) (item :: items) ++
        ((newline level).toList ++ closing.toList)) := by
  unfold block
  rw [if_neg (by simp), String.toList_append, String.toList_append, String.toList_append,
    toList_intercalate_newline]
  simp

theorem toList_pretty_array (level : Nat) (item : Json) (items : List Json) :
    (pretty level (.array (item :: items))).toList =
      '[' :: (separated (level + 1) (prettyItems (level + 1) (item :: items)) ++
        ((newline level).toList ++ [']'])) := by
  rw [pretty, prettyItems, toList_block]
  rfl

theorem toList_pretty_object (level : Nat) (field : String × Json) (fields : Fields) :
    (pretty level (.object (field :: fields))).toList =
      '\x7b' :: (separated (level + 1) (prettyFields (level + 1) (field :: fields)) ++
        ((newline level).toList ++ ['\x7d'])) := by
  rw [pretty, prettyFields, toList_block]
  rfl

theorem exists_pretty_cons (level : Nat) {depth : Nat} {j : Json} (hj : Plain depth j) :
    ∃ c cs, (pretty level j).toList = c :: cs ∧ Starts c := by
  cases j with
  | null => exact ⟨'n', _, toList_pretty_null level, by decide⟩
  | bool b =>
    cases b with
    | false => exact ⟨'f', _, toList_pretty_false level, by decide⟩
    | true => exact ⟨'t', _, toList_pretty_true level, by decide⟩
  | int x =>
    obtain ⟨c, cs, hcs, hc⟩ := Text.exists_int_cons x
    refine ⟨c, cs, hcs, ?_⟩
    rcases hc with hc | rfl
    · exact starts_of_isDigit hc
    · decide
  | float x =>
    obtain ⟨_, hj⟩ := hj
    obtain ⟨c, cs, hcs, hc⟩ := hj.start
    exact ⟨c, cs, (toList_pretty_float level x).trans hcs, starts_of_isDigit hc⟩
  | string s => exact ⟨'"', _, toList_quote s, by decide⟩
  | array items =>
    cases items with
    | nil => exact ⟨'[', _, toList_pretty_array_nil level, by decide⟩
    | cons item items => exact ⟨'[', _, toList_pretty_array level item items, by decide⟩
  | object fields =>
    cases fields with
    | nil => exact ⟨'\x7b', _, toList_pretty_object_nil level, by decide⟩
    | cons field fields => exact ⟨'\x7b', _, toList_pretty_object level field fields, by decide⟩

theorem readValue_number {c : Char} (hc : c.isDigit = true ∨ c = '-') (fuel depth : Nat)
    (cs : List Char) : readValue (fuel + 1) depth (c :: cs) = readNumber (c :: cs) := by
  have hstarts : Starts c := by
    rcases hc with hc | rfl
    · exact starts_of_isDigit hc
    · decide
  rw [readValue, skipBlanks_cons hstarts]
  split <;> first
    | rfl
    | next heq =>
      cases heq
      exact absurd hc (by decide)

theorem readValue_quote (s : String) (fuel depth : Nat) (rest : List Char) :
    readValue (fuel + 1) depth ((quote s).toList ++ rest) = some (.string s, rest) := by
  rw [toList_quote, List.cons_append, List.append_assoc, readValue, skipBlanks_cons (by decide)]
  all_goals simp [readChars_quote]

theorem readValue_array {cs : List Char} {fuel depth : Nat} (hdepth : 1 < depth)
    (hcs : ∀ ds, skipBlanks cs ≠ ']' :: ds) :
    readValue (fuel + 1) depth ('[' :: cs) =
      (readItems fuel (depth - 1) cs).map fun (items, cs) => (.array items, cs) := by
  rw [readValue, skipBlanks_cons (by decide), readItems_congr (skipBlanks_idem cs).symm]
  simp only [if_neg (show ¬depth ≤ 1 by omega)]

theorem readValue_object {cs : List Char} {fuel depth : Nat} (hdepth : 1 < depth)
    (hcs : ∀ ds, skipBlanks cs ≠ '\x7d' :: ds) :
    readValue (fuel + 1) depth ('\x7b' :: cs) =
      (readFields fuel (depth - 1) [] cs).map fun (fields, cs) => (.object fields, cs) := by
  rw [readValue, skipBlanks_cons (by decide), readFields_congr (skipBlanks_idem cs).symm]
  simp only [if_neg (show ¬depth ≤ 1 by omega)]

/-- What stands after an item: a comma and the other items, or the closing line. -/
def afterItem (level : Nat) (items : List String) (closing : List Char) : List Char :=
  match items with
  | [] => closing
  | item :: items => ',' :: separated level (item :: items) ++ closing

theorem separated_cons (level : Nat) (item : String) (items : List String) (closing : List Char) :
    separated level (item :: items) ++ closing =
      (newline level).toList ++ (item.toList ++ afterItem level items closing) := by
  cases items <;> simp [separated, afterItem]

theorem follows_afterItem (level outer : Nat) (items : List String) (cs : List Char) :
    Follows (afterItem level items ((newline outer).toList ++ cs)) := by
  cases items with
  | nil => simp [afterItem, newline]
  | cons item items => simp [afterItem]

theorem skipBlanks_separated (level : Nat) {item : String} (items : List String)
    (closing : List Char) {c : Char} {cs : List Char} (hitem : item.toList = c :: cs)
    (hc : Starts c) :
    skipBlanks (separated level (item :: items) ++ closing) =
      c :: (cs ++ afterItem level items closing) := by
  rw [separated_cons, skipBlanks_newline, hitem, List.cons_append, skipBlanks_cons hc]

theorem length_separated_cons (level : Nat) (item : String) (items : List String) :
    item.toList.length + (separated level items).length <
      (separated level (item :: items)).length := by
  have hline : 0 < (newline level).toList.length := by simp [newline]
  cases items with
  | nil =>
    simp only [separated, List.length_append, List.length_nil]
    omega
  | cons next items =>
    simp only [separated, List.length_append, List.length_cons]
    omega

theorem toList_field (name : String) (text : String) :
    (quote name ++ ": " ++ text).toList =
      '"' :: (name.toList.flatMap escapeChar ++ '"' :: ':' :: ' ' :: text.toList) := by
  simp [toList_quote]

/-- A field is a name, a colon and a value, and a comma or the closing brace follows. -/
theorem readFields_quote (fuel depth : Nat) (read : Fields) (name : String) (cs : List Char) :
    readFields (fuel + 1) depth read
        ('"' :: (name.toList.flatMap escapeChar ++ '"' :: ':' :: ' ' :: cs)) =
      (readValue fuel depth cs).bind fun (value, cs) =>
        match skipBlanks cs with
        | ',' :: cs => readFields fuel depth (insertField name value read) cs
        | '\x7d' :: cs => some (insertField name value read, cs)
        | _ => none := by
  have hcolon : ∀ ds, skipBlanks (':' :: ds) = ':' :: ds := fun _ => rfl
  have hblank : readValue fuel depth (' ' :: cs) = readValue fuel depth cs :=
    readValue_congr (show skipBlanks (' ' :: cs) = skipBlanks cs from rfl) fuel depth
  rw [readFields, skipBlanks_cons (by decide)]
  simp only [readChars_quote, Option.bind_eq_bind, Option.bind_some, hcolon, hblank]
  rfl

mutual

/-- By recursion on the value. The text that is left is always longer than what one
more call reads, so the length of the text is fuel enough. -/
theorem readValue_pretty (level : Nat) : ∀ (j : Json) (fuel depth : Nat) (rest : List Char),
    Plain depth j → Follows rest → (pretty level j).toList.length ≤ fuel →
    readValue fuel depth ((pretty level j).toList ++ rest) = (reread j).map (·, rest)
  | j, 0 => fun depth rest hj _ hfuel => by
    obtain ⟨c, cs, hcs, -⟩ := exists_pretty_cons level hj
    simp [hcs] at hfuel
  | .null, fuel + 1 => fun depth rest _ _ _ => by simp [readValue, skipBlanks]
  | .bool true, fuel + 1 => fun depth rest _ _ _ => by simp [readValue, skipBlanks]
  | .bool false, fuel + 1 => fun depth rest _ _ _ => by simp [readValue, skipBlanks]
  | .int x, fuel + 1 => fun depth rest _ hrest _ => by
    obtain ⟨c, cs, hcs, hc⟩ := Text.exists_int_cons x
    have hnumber := readNumber_toString x hrest
    rw [hcs, List.cons_append] at hnumber
    have htext : (pretty level (.int x)).toList = c :: cs := by simpa [pretty, scalarText] using hcs
    rw [htext, List.cons_append, readValue_number hc, hnumber]
    simp [reread]
  | .float x, fuel + 1 => fun depth rest hj hrest _ => by
    obtain ⟨j, hj⟩ := hj
    obtain ⟨c, cs, hcs, hc⟩ := hj.start
    have hnumber := hj.reads rest hrest
    rw [hcs, List.cons_append] at hnumber
    rw [toList_pretty_float, hcs, List.cons_append, readValue_number (.inl hc), hnumber,
      hj.reread_float]
    rfl
  | .string s, fuel + 1 => fun depth rest _ _ _ => by
    have htext : pretty level (.string s) = quote s := by simp [pretty, scalarText]
    rw [htext, readValue_quote, reread_string]
    rfl
  | .array [], fuel + 1 => fun depth rest hj _ _ => by
    have hdepth : ¬depth ≤ 1 := Nat.not_le.2 hj.1
    simp [readValue, skipBlanks, reread, rereadItems, hdepth]
  | .array (item :: items), fuel + 1 => fun depth rest hj _ hfuel => by
    obtain ⟨c, cs, hcs, hc⟩ := exists_pretty_cons (level + 1) hj.2.1
    have hfirst := skipBlanks_separated (level + 1) (prettyItems (level + 1) items)
      ((newline level).toList ++ ']' :: rest) hcs hc
    rw [toList_pretty_array] at hfuel ⊢
    have hitems := readItems_pretty (level + 1) level (item :: items) fuel (depth - 1) rest
      (by simp) hj.2 (by simp at hfuel; omega)
    rw [List.cons_append, List.append_assoc, List.append_assoc, List.singleton_append,
      readValue_array hj.1, hitems]
    · simp [reread, Function.comp_def]
    · rw [prettyItems, hfirst]
      exact fun ds heq => hc.2 (List.cons.inj heq).1
  | .object [], fuel + 1 => fun depth rest hj _ _ => by
    have hdepth : ¬depth ≤ 1 := Nat.not_le.2 hj.1
    simp [readValue, skipBlanks, reread, rereadFields, hdepth]
  | .object ((name, value) :: fields), fuel + 1 => fun depth rest hj _ hfuel => by
    have hfirst := skipBlanks_separated (level + 1) (prettyFields (level + 1) fields)
      ((newline level).toList ++ '\x7d' :: rest) (toList_field name (pretty (level + 1) value))
      (by decide)
    rw [toList_pretty_object] at hfuel ⊢
    have hfields := readFields_pretty (level + 1) level ((name, value) :: fields) [] fuel
      (depth - 1) rest (by simp) hj.2 (by simp at hfuel; omega)
    rw [List.cons_append, List.append_assoc, List.append_assoc, List.singleton_append,
      readValue_object hj.1, hfields]
    · simp [reread, Function.comp_def]
    · rw [prettyFields, hfirst]
      exact fun ds heq => absurd (List.cons.inj heq).1 (by decide)

theorem readItems_pretty (level outer : Nat) : ∀ (items : List Json) (fuel depth : Nat)
    (rest : List Char), items ≠ [] → PlainItems depth items →
    (separated level (prettyItems level items)).length ≤ fuel →
    readItems fuel depth (separated level (prettyItems level items) ++
        ((newline outer).toList ++ ']' :: rest)) =
      (rereadItems items).map (·, rest)
  | [], fuel, depth, rest, hne, hj, hfuel => absurd rfl hne
  | item :: items, 0, depth, rest, hne, hj, hfuel => by
    have hlength := length_separated_cons level (pretty level item) (prettyItems level items)
    rw [prettyItems] at hfuel
    omega
  | item :: items, fuel + 1, depth, rest, hne, hj, hfuel => by
    have hlength := length_separated_cons level (pretty level item) (prettyItems level items)
    rw [prettyItems] at hfuel
    have hvalue := readValue_pretty level item fuel depth _ hj.1
      (follows_afterItem level outer (prettyItems level items) (']' :: rest)) (by omega)
    rw [prettyItems, separated_cons, readItems_congr (skipBlanks_newline _ _), readItems, hvalue,
      rereadItems]
    cases reread item with
    | none => rfl
    | some value =>
      cases items with
      | nil =>
        have hclose : skipBlanks ((newline outer).toList ++ ']' :: rest) = ']' :: rest :=
          skipBlanks_newline outer _
        simp [prettyItems, afterItem, hclose, rereadItems]
      | cons next items =>
        have hitems := readItems_pretty level outer (next :: items) fuel depth rest (by simp)
          hj.2 (by omega)
        rw [prettyItems] at hitems ⊢
        simp [afterItem, skipBlanks, hitems]
        cases rereadItems (next :: items) <;> rfl

theorem readFields_pretty (level outer : Nat) : ∀ (fields read : Fields) (fuel depth : Nat)
    (rest : List Char), fields ≠ [] → PlainFields depth fields →
    (separated level (prettyFields level fields)).length ≤ fuel →
    readFields fuel depth read (separated level (prettyFields level fields) ++
        ((newline outer).toList ++ '\x7d' :: rest)) =
      (rereadFields read fields).map (·, rest)
  | [], read, fuel, depth, rest, hne, hj, hfuel => absurd rfl hne
  | (name, value) :: fields, read, 0, depth, rest, hne, hj, hfuel => by
    have hlength := length_separated_cons level (quote name ++ ": " ++ pretty level value)
      (prettyFields level fields)
    rw [prettyFields] at hfuel
    omega
  | (name, value) :: fields, read, fuel + 1, depth, rest, hne, hj, hfuel => by
    have hlength := length_separated_cons level (quote name ++ ": " ++ pretty level value)
      (prettyFields level fields)
    have htext : (pretty level value).toList.length ≤
        (quote name ++ ": " ++ pretty level value).toList.length := by
      simp
      omega
    rw [prettyFields] at hfuel
    have hvalue := readValue_pretty level value fuel depth _ hj.1
      (follows_afterItem level outer (prettyFields level fields) ('\x7d' :: rest)) (by omega)
    rw [prettyFields, separated_cons, readFields_congr (skipBlanks_newline _ _), toList_field,
      List.cons_append, List.append_assoc, List.cons_append, List.cons_append, List.cons_append,
      readFields_quote, hvalue, rereadFields]
    cases reread value with
    | none => rfl
    | some value =>
      cases fields with
      | nil =>
        have hclose : skipBlanks ((newline outer).toList ++ '\x7d' :: rest) = '\x7d' :: rest :=
          skipBlanks_newline outer _
        simp [prettyFields, afterItem, hclose, rereadFields]
      | cons next fields =>
        have hfields := readFields_pretty level outer (next :: fields)
          (insertField name value read) fuel depth rest (by simp) hj.2 (by omega)
        rw [prettyFields] at hfields ⊢
        simp [afterItem, skipBlanks, hfields]

end

/-- A value written one item a line is read back, with or without a line break after it. -/
theorem read?_pretty {j : Json} (hj : Plain 128 j) {ending : String}
    (hfollows : Follows ending.toList) (hblank : skipBlanks ending.toList = []) :
    read? (pretty 0 j ++ ending) = reread j := by
  have hvalue := readValue_pretty 0 j (2 * (pretty 0 j ++ ending).toList.length + 2) 128
    ending.toList hj hfollows (by simp; omega)
  rw [← String.toList_append] at hvalue
  rw [read?, hvalue]
  cases reread j <;> simp [hblank]

end NonlinearInteger.Json
