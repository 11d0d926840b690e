import NonlinearInteger.Text.Blank
import NonlinearInteger.Text.Integer
import Mathlib.Data.List.Basic

/-!
# Lines and words of a text

A text written line by line is cut into the same lines, and a line of words with a
blank before each is cut into the same words. A label with its colon and the blanks
around a line are dropped, and decimal integers are read back.
-/

namespace NonlinearInteger.Text

/-- Lines one after another, each with its line feed. -/
def ofLines (lines : List String) : String := String.join (lines.map (· ++ "\n"))

@[simp]
theorem ofLines_nil : ofLines [] = "" := rfl

theorem ofLines_cons (l : String) (ls : List String) :
    ofLines (l :: ls) = l ++ "\n" ++ ofLines ls :=
  String.join_cons

theorem ofLines_append (ls ms : List String) :
    ofLines (ls ++ ms) = ofLines ls ++ ofLines ms := by
  rw [← String.toList_inj]
  simp [ofLines]

theorem pieces_append {sep : Char} {l : List Char} (h : sep ∉ l) (piece rest : List Char) :
    pieces sep piece (l ++ sep :: rest) = (piece.reverse ++ l) :: pieces sep [] rest := by
  induction l generalizing piece with
  | nil => simp [pieces]
  | cons c l ih =>
    rw [List.mem_cons, not_or] at h
    rw [List.cons_append, pieces, if_neg (Ne.symm h.1), ih h.2]
    simp

/-- A text is cut at its line feeds; after the last one nothing is left. -/
theorem splitAt_ofLines {lines : List String} (h : ∀ l ∈ lines, '\n' ∉ l.toList) :
    splitAt '\n' (ofLines lines) = lines ++ [""] := by
  have hrun : pieces '\n' [] (ofLines lines).toList = lines.map String.toList ++ [[]] := by
    induction lines with
    | nil => rfl
    | cons l ls ih =>
      have htext : (ofLines (l :: ls)).toList = l.toList ++ '\n' :: (ofLines ls).toList := by
        simp [ofLines]
      rw [htext, pieces_append (h l List.mem_cons_self),
        ih fun m hm => h m (List.mem_cons_of_mem l hm)]
      rfl
  simp [splitAt, hrun, Function.comp_def]

/-- A nonempty string without blanks. -/
structure IsWord (w : String) : Prop where
  ne_nil : w.toList ≠ []
  not_blank : ∀ c ∈ w.toList, isBlank c = false

instance : DecidablePred IsWord := fun w =>
  decidable_of_iff (w.toList.isEmpty = false ∧ w.toList.all (fun c => !isBlank c) = true)
    ⟨fun h => ⟨by simpa using h.1, by simpa using h.2⟩,
      fun h => ⟨by simpa using h.ne_nil, by simpa using h.not_blank⟩⟩

/-- Words with a blank before each. -/
def spaced (ws : List String) : String := String.join (ws.map (" " ++ ·))

@[simp]
theorem spaced_nil : spaced [] = "" := rfl

theorem spaced_cons (w : String) (ws : List String) :
    spaced (w :: ws) = " " ++ (w ++ spaced ws) := by
  rw [spaced, List.map_cons, String.join_cons, String.append_assoc]
  rfl

theorem spaced_append (us ws : List String) : spaced (us ++ ws) = spaced us ++ spaced ws := by
  rw [← String.toList_inj]
  simp [spaced]

theorem toList_spaced_cons (w : String) (ws : List String) :
    (spaced (w :: ws)).toList = ' ' :: (w.toList ++ (spaced ws).toList) := by
  simp [spaced_cons]

theorem intercalate_cons (w : String) (ws : List String) :
    " ".intercalate (w :: ws) = w ++ spaced ws := by
  rw [← String.toList_inj, String.toList_intercalate]
  induction ws generalizing w with
  | nil => simp [spaced, List.intercalate]
  | cons u us ih =>
    have htail := ih u
    rw [List.map_cons] at htail
    rw [List.map_cons, List.map_cons, List.intercalate_cons_cons, htail]
    simp [toList_spaced_cons]

theorem runs_append {w : List Char} (h : ∀ c ∈ w, isBlank c = false) (run rest : List Char) :
    runs run (w ++ rest) = runs (w.reverse ++ run) rest := by
  induction w generalizing run with
  | nil => rfl
  | cons c w ih =>
    have hc : ¬isBlank c = true := by simp [h c List.mem_cons_self]
    rw [List.cons_append, runs, if_neg hc, ih fun d hd => h d (List.mem_cons_of_mem c hd)]
    simp

theorem runs_spaced {ws : List String} (h : ∀ w ∈ ws, IsWord w) (run : List Char) :
    runs run (spaced ws).toList =
      (if run.isEmpty then [] else [run.reverse]) ++ ws.map String.toList := by
  induction ws generalizing run with
  | nil => simp [spaced, runs]
  | cons w ws ih =>
    have hw := h w List.mem_cons_self
    have hrest : runs [] (w.toList ++ (spaced ws).toList) = w.toList :: ws.map String.toList := by
      rw [runs_append hw.not_blank, ih fun u hu => h u (List.mem_cons_of_mem w hu)]
      simp [hw.ne_nil]
    rw [toList_spaced_cons, runs, if_pos (by decide), hrest]
    split <;> simp

theorem words_spaced {ws : List String} (h : ∀ w ∈ ws, IsWord w) : words (spaced ws) = ws := by
  rw [words, runs_spaced h]
  simp [Function.comp_def]

theorem words_append_spaced {w : String} {ws : List String} (hw : IsWord w)
    (h : ∀ u ∈ ws, IsWord u) : words (w ++ spaced ws) = w :: ws := by
  rw [words, String.toList_append, runs_append hw.not_blank, runs_spaced h]
  simp [hw.ne_nil, Function.comp_def]

theorem not_isBlank_of_mem_words {w s : String} (h : w ∈ words s) :
    ∀ c ∈ w.toList, isBlank c = false := by
  obtain ⟨run, hrun, rfl⟩ := List.mem_map.1 h
  rw [String.toList_ofList]
  exact not_isBlank_of_mem_runs (by simp) hrun

theorem newline_notMem_spaced {ws : List String} (h : ∀ w ∈ ws, IsWord w) :
    '\n' ∉ (spaced ws).toList := by
  induction ws with
  | nil => simp [spaced]
  | cons w ws ih =>
    have hw : '\n' ∉ w.toList := by
      intro hmem
      have hblank := (h w List.mem_cons_self).not_blank _ hmem
      exact absurd hblank (by decide)
    have hrest := ih fun u hu => h u (List.mem_cons_of_mem w hu)
    simp [toList_spaced_cons, hw, hrest]

theorem trimChars_cons {cs : List Char} (hhead : ∀ c ∈ cs.head?, isBlank c = false)
    (hlast : ∀ c ∈ cs.getLast?, isBlank c = false) : trimChars (' ' :: cs) = cs := by
  have hfront : (' ' :: cs).dropWhile isBlank = cs := by
    cases cs with
    | nil => rfl
    | cons c cs =>
      have hc := hhead c rfl
      have hspace : isBlank ' ' = true := by decide
      simp [hspace, hc]
  have hback : cs.reverse.dropWhile isBlank = cs.reverse := by
    cases hrev : cs.reverse with
    | nil => rfl
    | cons c rest =>
      have hc : isBlank c = false := by
        apply hlast
        rw [← List.head?_reverse, hrev]
        rfl
      simp [hc]
  rw [trimChars, hfront, hback, List.reverse_reverse]

theorem getLast?_append_spaced {w : String} {ws : List String} (hw : IsWord w)
    (h : ∀ u ∈ ws, IsWord u) :
    ∀ c ∈ (w.toList ++ (spaced ws).toList).getLast?, isBlank c = false := by
  induction ws generalizing w with
  | nil =>
    intro c hc
    exact hw.not_blank c (List.mem_of_getLast? (by simpa [spaced] using hc))
  | cons u us ih =>
    have hu := h u List.mem_cons_self
    have hne : u.toList ++ (spaced us).toList ≠ [] := by simp [hu.ne_nil]
    have hrest := ih hu fun x hx => h x (List.mem_cons_of_mem u hx)
    intro c hc
    rw [toList_spaced_cons, ← List.singleton_append, ← List.append_assoc,
      List.getLast?_append_of_ne_nil _ hne] at hc
    exact hrest c hc

theorem trim_spaced {w : String} {ws : List String} (hw : IsWord w) (h : ∀ u ∈ ws, IsWord u) :
    trim (spaced (w :: ws)) = w ++ spaced ws := by
  have hhead : ∀ c ∈ (w.toList ++ (spaced ws).toList).head?, isBlank c = false := by
    intro c hc
    rw [List.head?_append_of_ne_nil _ hw.ne_nil] at hc
    exact hw.not_blank c (List.mem_of_mem_head? hc)
  rw [trim, toList_spaced_cons, trimChars_cons hhead (getLast?_append_spaced hw h),
    ← String.toList_inj]
  simp

theorem afterColon_append {l : String} (h : ':' ∉ l.toList) (rest : String) :
    afterColon (l ++ ":" ++ rest) = rest := by
  have hdrop : (l ++ ":" ++ rest).toList.dropWhile (· != ':') = ':' :: rest.toList := by
    have hl : ∀ c ∈ l.toList, (c != ':') = true := by
      intro c hc
      have hne : c ≠ ':' := fun heq => h (heq ▸ hc)
      simpa using hne
    rw [String.toList_append, String.toList_append, List.append_assoc,
      List.dropWhile_append_of_pos hl]
    rfl
  rw [afterColon, hdrop]
  exact String.ofList_toList

theorem isDigit_of_mem_repr {n : Nat} {c : Char} (h : c ∈ (toString n).toList) :
    c.isDigit = true := by
  rw [Nat.toString_eq_repr, Nat.toList_repr] at h
  exact isDigit_of_mem_toDigits h

theorem range_of_isDigit {c : Char} (h : c.isDigit = true) : 48 ≤ c.toNat ∧ c.toNat ≤ 57 := by
  simpa [Char.isDigit, UInt32.le_iff_toNat_le] using h

theorem toLower_of_isDigit {c : Char} (h : c.isDigit = true) : c.toLower = c := by
  have hrange := range_of_isDigit h
  refine dif_neg ?_
  rintro ⟨hlow, -⟩
  have hlow : 65 ≤ c.toNat := by simpa [UInt32.le_iff_toNat_le] using hlow
  omega

theorem isBlank_of_isDigit {c : Char} (h : c.isDigit = true) : isBlank c = false := by
  have hrange := range_of_isDigit h
  simp only [isBlank, Bool.or_eq_false_iff, Bool.and_eq_false_iff, decide_eq_false_iff_not,
    beq_eq_false_iff_ne]
  omega

theorem toList_toString_ne_nil (n : Nat) : (toString n).toList ≠ [] := by
  rw [Nat.toString_eq_repr, Nat.toList_repr]
  exact Nat.toDigits_ne_nil

theorem isWord_toString_nat (n : Nat) : IsWord (toString n) :=
  ⟨toList_toString_ne_nil n, fun _ hc => isBlank_of_isDigit (isDigit_of_mem_repr hc)⟩

theorem exists_digit_cons (n : Nat) :
    ∃ c cs, (toString n).toList = c :: cs ∧ c.isDigit = true := by
  cases hcs : (toString n).toList with
  | nil => exact absurd hcs (toList_toString_ne_nil n)
  | cons c cs => exact ⟨c, cs, rfl, isDigit_of_mem_repr (hcs ▸ List.mem_cons_self)⟩

theorem natOfDigits?_toString (n : Nat) : natOfDigits? (toString n).toList = some n := by
  rw [Nat.toString_eq_repr, Nat.toList_repr]
  exact natOfDigits?_toDigits n

theorem intOfChars?_cons {c : Char} (hminus : c ≠ '-') (hplus : c ≠ '+') (cs : List Char) :
    intOfChars? (c :: cs) = (natOfDigits? (c :: cs)).map Int.ofNat := by
  unfold intOfChars?
  split
  · rename_i heq
    exact absurd (List.cons.inj heq).1 hminus
  · unfold natOfChars?
    split
    · rename_i heq
      exact absurd (List.cons.inj heq).1 hplus
    · rfl

theorem intOfChars?_toString_nat (n : Nat) : intOfChars? (toString n).toList = some (n : Int) := by
  have hdigits := natOfDigits?_toString n
  obtain ⟨c, cs, hcs, hc⟩ := exists_digit_cons n
  rw [hcs] at hdigits ⊢
  have hminus : c ≠ '-' := by
    rintro rfl
    exact absurd hc (by decide)
  have hplus : c ≠ '+' := by
    rintro rfl
    exact absurd hc (by decide)
  rw [intOfChars?_cons hminus hplus, hdigits]
  rfl

theorem toString_int_of_neg {x : Int} (h : x < 0) : toString x = "-" ++ toString x.natAbs := by
  rw [Int.toString_eq_repr, Int.repr_eq_if, if_neg (by omega), Nat.toString_eq_repr]
  congr 2
  omega

theorem toString_int_of_nonneg {x : Int} (h : 0 ≤ x) : toString x = toString x.natAbs := by
  rw [Int.toString_eq_repr, Int.repr_eq_if, if_pos h, Nat.toString_eq_repr]
  congr 1
  omega

theorem intOfChars?_toString (x : Int) : intOfChars? (toString x).toList = some x := by
  by_cases hx : x < 0
  · have hcs : (toString x).toList = '-' :: (toString x.natAbs).toList := by
      rw [toString_int_of_neg hx, String.toList_append]
      rfl
    rw [hcs, intOfChars?, natOfDigits?_toString]
    have hx : -(x.natAbs : Int) = x := by omega
    exact congrArg some hx
  · rw [toString_int_of_nonneg (by omega), intOfChars?_toString_nat]
    congr 1
    omega

theorem int64?_toString_nat {n : Nat} (h : FitsInt64 n) : int64? (toString n) = some (n : Int) := by
  rw [int64?, intOfChars?_toString_nat, Option.filter_some, if_pos (decide_eq_true h)]

theorem int64?_toString {x : Int} (h : FitsInt64 x) : int64? (toString x) = some x := by
  rw [int64?, intOfChars?_toString, Option.filter_some, if_pos (decide_eq_true h)]

theorem exists_int_cons (x : Int) :
    ∃ c cs, (toString x).toList = c :: cs ∧ (c.isDigit = true ∨ c = '-') := by
  by_cases hx : x < 0
  · rw [toString_int_of_neg hx]
    exact ⟨'-', (toString x.natAbs).toList, String.toList_append, .inr rfl⟩
  · rw [toString_int_of_nonneg (by omega)]
    obtain ⟨c, cs, hcs, hc⟩ := exists_digit_cons x.natAbs
    exact ⟨c, cs, hcs, .inl hc⟩

theorem isWord_toString_int (x : Int) : IsWord (toString x) := by
  have hword := isWord_toString_nat x.natAbs
  by_cases hx : x < 0
  · rw [toString_int_of_neg hx]
    refine ⟨by simp, ?_⟩
    intro c hc
    rcases List.mem_append.1 (String.toList_append ▸ hc) with hc | hc
    · obtain rfl : c = '-' := by simpa using hc
      decide
    · exact hword.not_blank c hc
  · rw [toString_int_of_nonneg (by omega)]
    exact hword

theorem intOfChars?_eq_none {c : Char} (hdigit : c.isDigit = false) (hminus : c ≠ '-')
    (hplus : c ≠ '+') (cs : List Char) : intOfChars? (c :: cs) = none := by
  have hdigits : natOfDigits? (c :: cs) = none := by simp [natOfDigits?, hdigit]
  rw [intOfChars?_cons hminus hplus, hdigits]
  rfl

theorem intOfChars?_of_int64? {w : String} {x : Int} (h : int64? w = some x) :
    intOfChars? w.toList = some x :=
  (Option.filter_eq_some_iff.1 h).1

theorem int64?_eq_none {w : String} (h : intOfChars? w.toList = none) : int64? w = none := by
  rw [int64?, h]
  rfl

end NonlinearInteger.Text
