import NonlinearInteger.Json.Reader
import NonlinearInteger.Json.Writer
import NonlinearInteger.Proofs.FloatRanges
import NonlinearInteger.Proofs.Texts

/-!
# Reading back JSON strings and integers

A string comes back as it was written, and so does an integer of 64 bits. A
longer integer comes back as a floating-point number: its first digits make the
significand, and each digit left over multiplies by ten.
-/

namespace NonlinearInteger.Json

/-- What comes after a value where values stand one a line: nothing, a comma or
a line break. -/
def Follows : List Char → Prop
  | [] => True
  | c :: _ => c = ',' ∨ c = '\n'

@[simp]
theorem follows_nil : Follows [] := trivial

@[simp]
theorem follows_comma (cs : List Char) : Follows (',' :: cs) := .inl rfl

@[simp]
theorem follows_newline (cs : List Char) : Follows ('\n' :: cs) := .inr rfl

/-- A text that is read as one value, whatever follows where values stand one a line. -/
structure ReadsAs (cs : List Char) (j : Json) : Prop where
  start : ∃ c ds, cs = c :: ds ∧ c.isDigit = true
  reads : ∀ rest, Follows rest → readNumber (cs ++ rest) = some (j, rest)

theorem hexFour?_control {n : Nat} (h : n < 32) :
    hexFour? '0' '0' (hexDigit (n / 16)) (hexDigit n) = some n := by
  have hall : ∀ m < 32, hexFour? '0' '0' (hexDigit (m / 16)) (hexDigit m) = some m := by decide
  exact hall n h

theorem readChars_escapeChar (read : List Char) (c : Char) (rest : List Char) :
    readChars read (escapeChar c ++ rest) = readChars (c :: read) rest := by
  unfold escapeChar
  split
  · next h => subst h; rfl
  split
  · next h => subst h; rfl
  split
  · next h => subst h; rfl
  split
  · next h => subst h; rfl
  split
  · next h => subst h; rfl
  split
  · next h => subst h; rfl
  split
  · next h => subst h; rfl
  split
  · next h =>
    have hlow : isLow c.toNat = false := by simp [isLow]; omega
    have hhigh : isHigh c.toNat = false := by simp [isHigh]; omega
    rw [List.cons_append, List.cons_append, List.cons_append, List.cons_append, List.cons_append,
      List.cons_append, List.nil_append, readChars]
    simp only [hexFour?_control h, hlow, hhigh, Char.ofNat_toNat]
    rfl
  · next hquote hback _ _ _ _ _ h =>
    rw [List.cons_append, List.nil_append, readChars]
    · simp [h, hback]
    · exact hquote
    · exact fun _ _ _ _ _ heq => absurd heq hback
    · exact fun _ _ heq => absurd heq hback

theorem readChars_flatMap_escapeChar (cs read rest : List Char) :
    readChars read (cs.flatMap escapeChar ++ '"' :: rest) =
      some (String.ofList (read.reverse ++ cs), rest) := by
  induction cs generalizing read with
  | nil => simp [readChars]
  | cons c cs ih =>
    rw [List.flatMap_cons, List.append_assoc, readChars_escapeChar, ih]
    simp

theorem readChars_quote (s : String) (rest : List Char) :
    readChars [] (s.toList.flatMap escapeChar ++ '"' :: rest) = some (s, rest) := by
  simpa using readChars_flatMap_escapeChar s.toList [] rest

theorem toList_quote (s : String) :
    (quote s).toList = '"' :: (s.toList.flatMap escapeChar ++ ['"']) := by
  simp [quote]

theorem digits_append_of_stop {ds cs : List Char} (hds : ∀ c ∈ ds, c.isDigit = true)
    (hstop : ∀ c ∈ cs.head?, c.isDigit = false) : digits (ds ++ cs) = (ds, cs) := by
  have hcs : cs.takeWhile Char.isDigit = [] ∧ cs.dropWhile Char.isDigit = cs := by
    cases cs with
    | nil => exact ⟨rfl, rfl⟩
    | cons c cs => simp [hstop c rfl]
  rw [digits, List.takeWhile_append_of_pos hds, List.dropWhile_append_of_pos hds, hcs.1, hcs.2,
    List.append_nil]

theorem Follows.not_isDigit {rest : List Char} (h : Follows rest) :
    ∀ c ∈ rest.head?, c.isDigit = false := by
  cases rest with
  | nil => simp
  | cons c cs =>
    rintro _ ⟨⟩
    rcases h with rfl | rfl <;> decide

theorem digits_append {ds rest : List Char} (hds : ∀ c ∈ ds, c.isDigit = true)
    (hrest : Follows rest) : digits (ds ++ rest) = (ds, rest) :=
  digits_append_of_stop hds hrest.not_isDigit

theorem le_ofDigitChars (ds : List Char) (acc : Nat) : acc ≤ Nat.ofDigitChars 10 ds acc := by
  induction ds generalizing acc with
  | nil => simp
  | cons c ds ih =>
    rw [Nat.ofDigitChars_cons]
    exact le_trans (by omega) (ih _)

/-- All digits of a number that fits are gathered. -/
theorem gather_eq_of_fits {ds : List Char} {acc : Nat} (taken : Nat)
    (h : FitsNat64 (Nat.ofDigitChars 10 ds acc)) :
    gather acc taken ds = (Nat.ofDigitChars 10 ds acc, taken + ds.length) := by
  induction ds generalizing acc taken with
  | nil => simp [gather]
  | cons c ds ih =>
    have hnext : acc * 10 + digitValue c = 10 * acc + (c.toNat - '0'.toNat) := by
      rw [Nat.mul_comm]
      rfl
    rw [Nat.ofDigitChars_cons] at h ⊢
    have hfits : FitsNat64 (10 * acc + (c.toNat - '0'.toNat)) :=
      Nat.le_trans (le_ofDigitChars ds _) h
    rw [gather, hnext, if_pos hfits, ih (taken + 1) h, List.length_cons]
    congr 1
    omega

theorem head?_toDigits_ne_zero {n : Nat} (h : 0 < n) : (Nat.toDigits 10 n).head? ≠ some '0' := by
  induction n using Nat.strong_induction_on with
  | h n ih =>
    by_cases hn : n < 10
    · have hall : ∀ m < 10, 0 < m → (Nat.toDigits 10 m).head? ≠ some '0' := by decide
      exact hall n hn h
    · rw [Nat.toDigits_of_base_le (by decide) (by omega),
        List.head?_append_of_ne_nil _ Nat.toDigits_ne_nil]
      exact ih (n / 10) (by omega) (by omega)

theorem toDigits_no_leading_zero (n : Nat) :
    ¬((Nat.toDigits 10 n).head? = some '0' ∧ 1 < (Nat.toDigits 10 n).length) := by
  rintro ⟨hhead, hlength⟩
  rcases Nat.eq_zero_or_pos n with rfl | hn
  · exact absurd hlength (by decide)
  · exact head?_toDigits_ne_zero hn hhead

/-- What an integer of a sign and an absolute value is read back as. -/
def rereadInteger (negative : Bool) (n : Nat) : Option Json :=
  let ds := Nat.toDigits 10 n
  let (significand, taken) := gather 0 0 ds
  let dropped := ds.length - taken
  if dropped = 0 then some (ofInteger negative significand)
  else ofParts negative significand dropped

theorem readUnsigned_toDigits (negative : Bool) (n : Nat) {rest : List Char}
    (hrest : Follows rest) :
    readUnsigned negative (Nat.toDigits 10 n ++ rest) =
      (rereadInteger negative n).map (·, rest) := by
  have hdigits := digits_append (fun _ => Text.isDigit_of_mem_toDigits (n := n)) hrest
  have hstart : ¬((Nat.toDigits 10 n).isEmpty ∨
      (Nat.toDigits 10 n).head? = some '0' ∧ 1 < (Nat.toDigits 10 n).length) := by
    rw [not_or]
    exact ⟨by simp [Nat.toDigits_ne_nil], toDigits_no_leading_zero n⟩
  unfold readUnsigned rereadInteger
  simp only [hdigits, if_neg hstart]
  generalize gather 0 0 (Nat.toDigits 10 n) = gathered
  rw [apply_ite (Option.map (·, rest))]
  cases rest with
  | nil => rfl
  | cons c cs => rcases hrest with rfl | rfl <;> rfl

theorem readNumber_toString (x : Int) {rest : List Char} (hrest : Follows rest) :
    readNumber ((toString x).toList ++ rest) =
      (rereadInteger (decide (x < 0)) x.natAbs).map (·, rest) := by
  by_cases hx : x < 0
  · have htext : (toString x).toList = '-' :: Nat.toDigits 10 x.natAbs := by
      rw [Text.toString_int_of_neg hx, String.toList_append, Nat.toString_eq_repr, Nat.toList_repr]
      rfl
    rw [htext, List.cons_append, readNumber, readUnsigned_toDigits true _ hrest, decide_eq_true hx]
  · obtain ⟨c, cs, hcs, hc⟩ := Text.exists_digit_cons x.natAbs
    have hminus : c ≠ '-' := by
      rintro rfl
      exact absurd hc (by decide)
    have hunsigned := readUnsigned_toDigits false x.natAbs hrest
    rw [← Nat.toList_repr, ← Nat.toString_eq_repr, hcs] at hunsigned
    rw [Text.toString_int_of_nonneg (by omega), hcs, decide_eq_false hx, ← hunsigned,
      List.cons_append, readNumber]
    exact fun _ heq => hminus (List.cons.inj heq).1

theorem rereadInteger_of_fits {x : Int} (hmin : -9223372036854775808 ≤ x)
    (hmax : x ≤ 18446744073709551615) :
    rereadInteger (decide (x < 0)) x.natAbs = some (.int x) := by
  have hfits : FitsNat64 (Nat.ofDigitChars 10 (Nat.toDigits 10 x.natAbs) 0) := by
    rw [Nat.ofDigitChars_ten_toDigits]
    unfold FitsNat64
    omega
  have hgather := gather_eq_of_fits 0 hfits
  rw [Nat.ofDigitChars_ten_toDigits] at hgather
  simp only [rereadInteger, hgather, Nat.zero_add, Nat.sub_self, if_true, ofInteger]
  by_cases hx : x < 0
  · rw [decide_eq_true hx, if_neg (by simp), if_neg (by omega)]
    congr 2
    omega
  · rw [decide_eq_false hx, if_pos (by rfl)]
    congr 2
    omega

/-- An integer of up to forty places comes back. -/
theorem isSome_rereadInteger (negative : Bool) {n : Nat} (h : n < 10 ^ 40) :
    (rereadInteger negative n).isSome := by
  have hlength : (Nat.toDigits 10 n).length ≤ 40 :=
    (Nat.length_toDigits_le_iff (by decide) (by decide)).2 h
  unfold rereadInteger
  dsimp only
  split
  · rfl
  · exact isSome_ofParts _ _ (by omega) (by omega)

end NonlinearInteger.Json
