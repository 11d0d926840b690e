import NonlinearInteger.Seconds
import NonlinearInteger.Proofs.Decimals
import NonlinearInteger.Proofs.JsonScalars

/-!
# Texts of times

A time is written with a point, an exponent or both, in any number of digits. Its text is read
as one number again: it has no leading zero, and whatever digits are kept, the exponent that is
left keeps the number finite.
-/

namespace NonlinearInteger.Json

open Decimal

theorem gather_taken (significand taken : Nat) (ds : List Char) :
    taken ≤ (gather significand taken ds).2 ∧
      (gather significand taken ds).2 ≤ taken + ds.length := by
  induction ds generalizing significand taken with
  | nil => exact ⟨le_rfl, le_rfl⟩
  | cons c ds ih =>
    rw [gather, List.length_cons]
    by_cases hfits : FitsNat64 (significand * 10 + digitValue c)
    · have hrest := ih (significand * 10 + digitValue c) (taken + 1)
      rw [if_pos hfits]
      omega
    · rw [if_neg hfits]
      exact ⟨le_rfl, Nat.le_add_right _ _⟩

/-- An exponent with its mark, or nothing. -/
def marked : Option Int → List Char
  | none => []
  | some t => 'e' :: (if t < 0 then '-' else '+') :: Nat.toDigits 10 t.natAbs

theorem marked_not_isDigit (t : Option Int) {rest : List Char} (hrest : Follows rest) :
    ∀ c ∈ (marked t ++ rest).head?, c.isDigit = false := by
  cases t with
  | none => exact hrest.not_isDigit
  | some t =>
    rintro _ ⟨⟩
    rfl

section Exponents

variable {significand : Nat} {start : Int} {rest : List Char}

theorem readExponent_toDigits {t : Int} (ht : t.natAbs ≤ 2000)
    (hstart : -10000 ≤ start ∧ start ≤ 10000) (hrest : Follows rest) :
    readExponent false significand start
        ((if t < 0 then '-' else '+') :: Nat.toDigits 10 t.natAbs ++ rest) =
      (ofParts false significand (start + t)).map (·, rest) := by
  have hdigits := digits_append (fun _ => Text.isDigit_of_mem_toDigits (n := t.natAbs)) hrest
  have hsmall : ¬2147483647 < t.natAbs := by omega
  by_cases hneg : t < 0
  · have hexponent : clampExponent (start - |t|) = start + t := by
      rw [abs_of_neg hneg]
      unfold clampExponent
      omega
    simp [readExponent, hneg, hdigits, Nat.ofDigitChars_ten_toDigits, hsmall, hexponent,
      Nat.toDigits_ne_nil]
  · have hexponent : clampExponent (start + |t|) = start + t := by
      rw [abs_of_nonneg (not_lt.1 hneg)]
      unfold clampExponent
      omega
    simp [readExponent, hneg, hdigits, Nat.ofDigitChars_ten_toDigits, hsmall, hexponent,
      Nat.toDigits_ne_nil]

theorem readScale_marked {t : Option Int} (ht : (t.getD 0).natAbs ≤ 2000)
    (hstart : -10000 ≤ start ∧ start ≤ 10000) (hrest : Follows rest) :
    readScale false significand start (marked t ++ rest) =
      (ofParts false significand (start + t.getD 0)).map (·, rest) := by
  cases t with
  | none =>
    rw [Option.getD_none, add_zero]
    cases rest with
    | nil => rfl
    | cons c cs => rcases hrest with rfl | rfl <;> rfl
  | some t => exact readExponent_toDigits ht hstart hrest

end Exponents

/-- The digits before the point: a zero alone, or no zero first. -/
structure Whole (ds : List Char) : Prop where
  ne_nil : ds ≠ []
  isDigit : ∀ c ∈ ds, c.isDigit = true
  noZero : ¬(ds.head? = some '0' ∧ 1 < ds.length)

theorem Whole.start {ds cs : List Char} (h : Whole ds) :
    ∃ c rest, ds ++ cs = c :: rest ∧ c.isDigit = true := by
  obtain ⟨c, ds, rfl⟩ := List.exists_cons_of_ne_nil h.ne_nil
  exact ⟨c, ds ++ cs, rfl, h.isDigit c List.mem_cons_self⟩

theorem readNumber_of_start {cs : List Char} (h : ∃ c rest, cs = c :: rest ∧ c.isDigit = true) :
    readNumber cs = readUnsigned false cs := by
  obtain ⟨c, rest, rfl, hc⟩ := h
  rw [readNumber]
  rintro _ ⟨⟩
  exact absurd hc (by decide)

theorem readsAs_pointed {whole : List Char} (frac : List Char) {t : Option Int}
    (hwhole : Whole whole) (hfrac : frac ≠ []) (hdigits : ∀ c ∈ frac, c.isDigit = true)
    (ht : (t.getD 0).natAbs ≤ 2000)
    (hmin : -2464 ≤ t.getD 0 - frac.length) (hmax : whole.length + t.getD 0 ≤ 40) :
    ∃ j, ReadsAs (whole ++ '.' :: frac ++ marked t) j := by
  obtain ⟨significand, taken, hgather⟩ : ∃ m k, gather 0 0 whole = (m, k) := ⟨_, _, rfl⟩
  obtain ⟨significand', taken', hgather'⟩ : ∃ m k, gather significand 0 frac = (m, k) :=
    ⟨_, _, rfl⟩
  have htaken := gather_taken 0 0 whole
  have htaken' := gather_taken significand 0 frac
  rw [hgather] at htaken
  rw [hgather'] at htaken'
  dsimp only at htaken htaken'
  have hpart : (ofParts false significand'
      ((whole.length - taken : Nat) - taken' + t.getD 0)).isSome :=
    isSome_ofParts _ _ (by omega) (by omega)
  obtain ⟨j, hj⟩ := Option.isSome_iff_exists.1 hpart
  refine ⟨j, by simpa using hwhole.start, fun rest hrest => ?_⟩
  have htext : whole ++ '.' :: frac ++ marked t ++ rest =
      whole ++ '.' :: (frac ++ (marked t ++ rest)) := by simp
  have hfraction := digits_append_of_stop hdigits (marked_not_isDigit t hrest)
  have hunsigned : digits (whole ++ '.' :: (frac ++ (marked t ++ rest))) =
      (whole, '.' :: (frac ++ (marked t ++ rest))) :=
    digits_append_of_stop hwhole.isDigit (by rintro _ ⟨⟩; rfl)
  have hscale : readScale false significand' ((whole.length - taken : Nat) - taken')
      (marked t ++ rest) = (ofParts false significand'
        ((whole.length - taken : Nat) - taken' + t.getD 0)).map (·, rest) :=
    readScale_marked ht (by omega) hrest
  rw [htext, readNumber_of_start hwhole.start, readUnsigned]
  simp only [hunsigned, hgather, readFraction, hfraction, hgather', hscale, hj]
  simp [hwhole.ne_nil, hwhole.noZero, hfrac]

theorem readsAs_marked {whole : List Char} {t : Int} (hwhole : Whole whole)
    (ht : t.natAbs ≤ 2000) (hmax : whole.length + t ≤ 40) :
    ∃ j, ReadsAs (whole ++ marked (some t)) j := by
  obtain ⟨significand, taken, hgather⟩ : ∃ m k, gather 0 0 whole = (m, k) := ⟨_, _, rfl⟩
  have htaken := gather_taken 0 0 whole
  rw [hgather] at htaken
  dsimp only at htaken
  have hpart : (ofParts false significand ((whole.length - taken : Nat) + t)).isSome :=
    isSome_ofParts _ _ (by omega) (by omega)
  obtain ⟨j, hj⟩ := Option.isSome_iff_exists.1 hpart
  refine ⟨j, hwhole.start, fun rest hrest => ?_⟩
  have hexponent : readExponent false significand (whole.length - taken : Nat)
      ((if t < 0 then '-' else '+') :: Nat.toDigits 10 t.natAbs ++ rest) =
        (ofParts false significand ((whole.length - taken : Nat) + t)).map (·, rest) :=
    readExponent_toDigits ht (by omega) hrest
  have htext : whole ++ marked (some t) ++ rest =
      whole ++ 'e' :: ((if t < 0 then '-' else '+') :: Nat.toDigits 10 t.natAbs ++ rest) := by
    simp [marked]
  rw [htext, readNumber_of_start hwhole.start]
  generalize (if t < 0 then '-' else '+') :: Nat.toDigits 10 t.natAbs ++ rest = tail at *
  have hunsigned : digits (whole ++ 'e' :: tail) = (whole, 'e' :: tail) :=
    digits_append_of_stop hwhole.isDigit (by rintro _ ⟨⟩; rfl)
  simp [readUnsigned, hunsigned, hgather, hwhole.ne_nil, hwhole.noZero, hexponent, hj]

theorem Whole.of_head {ds : List Char} (hne : ds ≠ []) (hdigits : ∀ c ∈ ds, c.isDigit = true)
    (hhead : ds.head? ≠ some '0') : Whole ds :=
  ⟨hne, hdigits, fun h => hhead h.1⟩

theorem toList_scientific (ds : List Char) (first : Int) :
    (scientific ds first).toList = (match ds with
      | d :: e :: rest => d :: '.' :: e :: rest
      | ds => ds) ++ marked (some first) := by
  have hmark : (if first < 0 then "e-" else "e+").toList ++ (toString first.natAbs).toList =
      marked (some first) := by
    rw [marked, Nat.toString_eq_repr, Nat.toList_repr]
    split <;> rfl
  unfold scientific
  rw [String.toList_append, String.toList_append, List.append_assoc, hmark]
  rcases ds with _ | ⟨d, _ | ⟨e, ds⟩⟩ <;> simp

section Rendered

variable {d : Numeral} (hpos : 0 < d.digits) (hexponent : -1074 ≤ d.exponent)

include hpos hexponent

theorem exists_readsAs_positional
    (hfirst : (Nat.toDigits 10 d.digits).length + d.exponent ≤ 16) : ∃ j, ReadsAs
      (positional layout (Nat.toDigits 10 d.digits) d.exponent).toList j := by
  have hhead := head?_toDigits_ne_zero hpos
  have hdigits : ∀ c ∈ Nat.toDigits 10 d.digits, c.isDigit = true :=
    fun _ => Text.isDigit_of_mem_toDigits
  have hne : Nat.toDigits 10 d.digits ≠ [] := Nat.toDigits_ne_nil
  generalize Nat.toDigits 10 d.digits = ds at *
  rw [positional]
  by_cases hinteger : 0 ≤ d.exponent
  · have hwhole : Whole (ds ++ List.replicate d.exponent.toNat '0') := by
      refine .of_head (by simp [hne]) ?_ ?_
      · simpa [or_imp, forall_and] using hdigits
      · rwa [List.head?_append_of_ne_nil _ hne]
    obtain ⟨j, hj⟩ := readsAs_pointed ['0'] (t := none) hwhole (by simp) (by simp)
      (by simp) (by simp) (by simp; omega)
    refine ⟨j, ?_⟩
    simpa [hinteger, marked, layout] using hj
  by_cases hpoint : 0 < ds.length + d.exponent
  · have hsome : (ds.length + d.exponent).toNat ≠ 0 := by omega
    have hwhole : Whole (ds.take (ds.length + d.exponent).toNat) := by
      refine .of_head ?_ (fun c hc => hdigits c (List.mem_of_mem_take hc)) ?_
      · simp [hne, hsome]
      · rwa [List.head?_take, if_neg hsome]
    obtain ⟨j, hj⟩ := readsAs_pointed (ds.drop (ds.length + d.exponent).toNat)
      (t := none) hwhole (by simp; omega) (fun c hc => hdigits c (List.mem_of_mem_drop hc))
      (by simp) (by simp; omega) (by simp; omega)
    refine ⟨j, ?_⟩
    simpa [hinteger, hpoint, marked] using hj
  · have hwhole : Whole ['0'] := ⟨by simp, by simp, by simp⟩
    obtain ⟨j, hj⟩ := readsAs_pointed
      (List.replicate (-(ds.length + d.exponent)).toNat '0' ++ ds)
      (t := none) hwhole (by simp [hne]) (by simpa [or_imp, forall_and] using hdigits)
      (by simp) (by simp; omega) (by simp)
    refine ⟨j, ?_⟩
    simpa [hinteger, hpoint, marked] using hj

theorem exists_readsAs_scientific
    (hfirst : (Nat.toDigits 10 d.digits).length + d.exponent ≤ 20) :
    ∃ j, ReadsAs (scientific (Nat.toDigits 10 d.digits)
      ((Nat.toDigits 10 d.digits).length + d.exponent - 1)).toList j := by
  have hhead := head?_toDigits_ne_zero hpos
  have hdigits : ∀ c ∈ Nat.toDigits 10 d.digits, c.isDigit = true :=
    fun _ => Text.isDigit_of_mem_toDigits
  have hne : Nat.toDigits 10 d.digits ≠ [] := Nat.toDigits_ne_nil
  generalize Nat.toDigits 10 d.digits = ds at *
  obtain ⟨first, hplace⟩ : ∃ first, first = ds.length + d.exponent - 1 := ⟨_, rfl⟩
  rw [← hplace]
  cases ds with
  | nil => exact absurd rfl hne
  | cons a ds =>
    have hwhole : Whole [a] :=
      .of_head (by simp) (by simpa using hdigits a List.mem_cons_self) (by simpa using hhead)
    rw [List.length_cons] at hfirst hplace
    cases ds with
    | nil =>
      obtain ⟨j, hj⟩ := readsAs_marked (t := first) hwhole (by simp at *; omega)
        (by simp at *; omega)
      refine ⟨j, ?_⟩
      rwa [toList_scientific]
    | cons b ds =>
      obtain ⟨j, hj⟩ := readsAs_pointed (b :: ds) (t := some first) hwhole (by simp)
        (fun c hc => hdigits c (List.mem_cons_of_mem a hc)) (by simp at *; omega)
        (by simp at *; omega) (by simp at *; omega)
      refine ⟨j, ?_⟩
      rwa [toList_scientific]

theorem exists_readsAs_numeral
    (hfirst : (Nat.toDigits 10 d.digits).length + d.exponent ≤ 20) :
    ∃ j, ReadsAs (d.render layout).toList j := by
  unfold Numeral.render
  dsimp only
  split
  · rename_i hplace
    exact exists_readsAs_positional hpos hexponent (by simp [layout] at hplace; omega)
  · exact exists_readsAs_scientific hpos hexponent hfirst

end Rendered

theorem ofBits_bounds {bits : UInt64} (h : bits ≤ 0x43F0000000000000) :
    (Binary.ofBits bits).m < 2 ^ 53 ∧ -1074 ≤ (Binary.ofBits bits).q ∧
      (Binary.ofBits bits).q ≤ 12 := by
  have hbits : bits.toNat ≤ 0x43F0000000000000 := h
  have hexponent : ((bits >>> 52) &&& 0x7FF).toNat ≤ 1087 := by
    have hle := Nat.and_le_left (n := bits.toNat >>> 52) (m := 0x7FF)
    have hshift := Nat.shiftRight_eq_div_pow bits.toNat 52
    simp [UInt64.toNat_and, UInt64.toNat_shiftRight]
    omega
  have hfraction : (bits &&& 0xFFFFFFFFFFFFF).toNat < 2 ^ 52 := by
    have hle := Nat.and_le_right (n := bits.toNat) (m := 0xFFFFFFFFFFFFF)
    simp [UInt64.toNat_and]
    omega
  unfold Binary.ofBits
  dsimp only
  split <;> refine ⟨?_, ?_, ?_⟩ <;> dsimp only <;> omega

theorem unsigned_of_le {bits : UInt64} (h : bits ≤ 0x43F0000000000000) :
    (bits >>> 63 == 1) = false := by
  have hbits : bits.toNat ≤ 0x43F0000000000000 := h
  have hshift := Nat.shiftRight_eq_div_pow bits.toNat 63
  refine beq_eq_false_iff_ne.2 fun hsign => ?_
  have hone := congrArg UInt64.toNat hsign
  simp [UInt64.toNat_shiftRight] at hone
  omega

/-- Every time is read back as some number. -/
theorem exists_readsAs_seconds (t : Seconds) : ∃ j, ReadsAs (floatText t.value).toList j := by
  obtain ⟨x, hbits⟩ := t
  obtain ⟨hm, hmin, hmax⟩ := ofBits_bounds hbits
  rw [floatText, Decimal.render, unsigned_of_le hbits]
  by_cases hzero : (Binary.ofBits x.toBits).m = 0
  · have hwhole : Whole ['0'] := ⟨by simp, by simp, by simp⟩
    obtain ⟨j, hj⟩ := readsAs_pointed ['0'] (t := none) hwhole (by simp) (by simp)
      (by simp) (by simp) (by simp)
    refine ⟨j, ?_⟩
    simpa [hzero, layout, marked] using hj
  · have hnear := Binary.near_shortest (Nat.pos_of_ne_zero hzero) hmin
    have hsize : (Binary.ofBits x.toBits).shortest.value < 10 ^ (20 : Int) := by
      have hdigits : 4 * (Binary.ofBits x.toBits).m + 2 ≤ 2 ^ 55 := by omega
      calc (Binary.ofBits x.toBits).shortest.value
          ≤ (4 * (Binary.ofBits x.toBits).m + 2 : Nat) * 2 ^ ((Binary.ofBits x.toBits).q - 2) :=
            hnear.value_le
        _ ≤ 2 ^ 55 * 2 ^ (10 : Int) := by
            gcongr
            · exact_mod_cast hdigits
            · norm_num
            · omega
        _ < 10 ^ (20 : Int) := by norm_num
    have hfirst := Numeral.first_lt hnear.pos hsize
    obtain ⟨j, hj⟩ := exists_readsAs_numeral hnear.pos hnear.exponent_ge (by omega)
    refine ⟨j, ?_⟩
    simpa [hzero] using hj

end NonlinearInteger.Json
