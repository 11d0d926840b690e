import NonlinearInteger.Json.Number
import Mathlib

/-!
# The range of floating-point products

A number read from many digits is a product of two floating-point numbers, and
no number at all if the product is infinite. Rounding raises an exponent by no
more than twice the length of the mantissa, a bound far from sharp. It is
enough: a significand of 64 bits times a power of ten of up to forty places
stays a number.
-/

namespace NonlinearInteger.Json

open Float.Model Float.Model.UnpackedFloat

/-- A mantissa of at most so many bits and an exponent up to a bound, unless
the number is zero or none at all. Infinity is excluded. -/
def Below (bits : Nat) (bound : Int) : UnpackedFloat → Prop
  | .infinity _ => False
  | .finite _ m e _ => m < 2 ^ bits ∧ e ≤ bound
  | _ => True

instance (bits : Nat) (bound : Int) : DecidablePred (Below bits bound)
  | .infinity _ => inferInstanceAs (Decidable False)
  | .finite .. => inferInstanceAs (Decidable (_ ∧ _))
  | .zero _ => inferInstanceAs (Decidable True)
  | .notANumber => inferInstanceAs (Decidable True)

theorem Below.mono {a b : Nat} {E F : Int} {u : UnpackedFloat} (h : Below a E u) (hab : a ≤ b)
    (hEF : E ≤ F) : Below b F u := by
  cases u with
  | infinity => exact h
  | finite s m e hm =>
    exact ⟨lt_of_lt_of_le h.1 (Nat.pow_le_pow_right (by decide) hab), le_trans h.2 hEF⟩
  | zero => trivial
  | notANumber => trivial

theorem Below.not_isInf {bits : Nat} {bound : Int} {u : UnpackedFloat} (h : Below bits bound u) :
    u.isInf = false := by
  cases u with
  | infinity => exact h.elim
  | finite | zero | notANumber => rfl

theorem mantissa_shiftRight_le (em : ExtendedMantissa) (n : Nat) :
    (em >>> n).mantissa ≤ em.mantissa := by
  change (n.repeat ExtendedMantissa.shiftRightOne em).mantissa ≤ em.mantissa
  induction n with
  | zero => exact le_refl _
  | succ n ih => exact le_trans (Nat.div_le_self _ 2) ih

theorem roundedMantissa_le (em : ExtendedMantissa) : em.roundedMantissa ≤ em.mantissa + 1 := by
  obtain ⟨m, r, s⟩ := em
  cases r <;> cases s <;>
    simp [ExtendedMantissa.roundedMantissa, ExtendedMantissa.accuracy,
      Accuracy.roundToNearestEven]
  omega

theorem log2_le_of_le {m bits : Nat} (h : m ≤ 2 ^ bits) : m.log2 ≤ bits := by
  by_cases hm : m = 0
  · simp [hm]
  · have hlt : m < 2 ^ (bits + 1) := by omega
    have := (Nat.log2_lt hm).2 hlt
    omega

section Rounding

variable {m bits : Nat} {e bound : Int}

/-- Shifting to the exponent of the format raises the exponent by at most the
length of the mantissa. -/
theorem shiftToTargetExponent_le (hm : m ≤ 2 ^ bits) (he : e ≤ bound) (hmin : -1074 ≤ bound)
    (a : Accuracy) :
    (shiftToTargetExponent Format.binary64 m e a).1.mantissa ≤ m ∧
      (shiftToTargetExponent Format.binary64 m e a).2 ≤ bound + bits := by
  have hlog := log2_le_of_le hm
  constructor
  · have hm' : (ExtendedMantissa.ofMantissaAndAccuracy m a).mantissa = m := by
      unfold ExtendedMantissa.ofMantissaAndAccuracy
      split <;> rfl
    exact le_of_le_of_eq (mantissa_shiftRight_le _ _) hm'
  · simp only [shiftToTargetExponent, shiftToExponent, Format.targetExponent, totalExponent,
      Format.mantissaBits, Format.minExponent]
    omega

theorem below_roundWithAccuracy (s : Sign) (hm : m < 2 ^ bits) (he : e ≤ bound)
    (hmin : -1074 ≤ bound) (a : Accuracy) :
    Below (bits + 1) (bound + 2 * bits) (roundWithAccuracy Format.binary64 s m e a) := by
  obtain ⟨hm₁, he₁⟩ := shiftToTargetExponent_le (le_of_lt hm) he hmin a
  unfold roundWithAccuracy
  generalize shiftToTargetExponent Format.binary64 m e a = first at *
  obtain ⟨em, e₁⟩ := first
  have hr : em.roundedMantissa ≤ 2 ^ bits :=
    le_trans (roundedMantissa_le em) (Nat.succ_le_of_lt (lt_of_le_of_lt hm₁ hm))
  -- The rounded mantissa may have one bit more, so it is shifted again.
  obtain ⟨hm₂, he₂⟩ := shiftToTargetExponent_le hr he₁ (by omega) .exact
  dsimp only at he₂ ⊢
  split
  · trivial
  · constructor
    · calc
        _ ≤ 2 ^ bits := le_trans hm₂ hr
        _ < 2 ^ (bits + 1) := Nat.pow_lt_pow_right (by decide) (Nat.lt_succ_self bits)
    · omega

end Rounding

theorem below_mul {a b : Nat} {E F : Int} {x y : UnpackedFloat} (hx : Below a E x)
    (hy : Below b F y) (hmin : -1074 ≤ E + F) :
    Below (a + b + 1) (E + F + 2 * (a + b : Nat))
      (UnpackedFloat.mul Format.binary64 x y) := by
  cases x <;> cases y <;> try trivial
  next s m e hm t n f hn =>
    have hlt : m * n < 2 ^ (a + b) := by
      rw [pow_add]
      exact Nat.mul_lt_mul'' hx.1 hy.1
    exact below_roundWithAccuracy (s * t) hlt (add_le_add hx.2 hy.2) hmin .exact

/-- What is unpacked has 53 bits, and the exponent it is packed with. -/
theorem below_unpack {b : BitVec 64} {bound : Int}
    (hinf : @unpackExponent Format.binary64 b ≠ -1#11)
    (hb : (@unpackExponent Format.binary64 b).toNat ≤ bound + 1075) (hmin : -1074 ≤ bound) :
    Below 53 bound (UnpackedFloat.unpack Format.binary64 b) := by
  have hbias : (Format.binary64.exponentBias : Int) = 1023 := by decide
  unfold UnpackedFloat.unpack
  dsimp only
  rw [if_neg hinf]
  split
  · split
    · trivial
    · refine ⟨lt_trans (BitVec.isLt _) (by decide), ?_⟩
      simp_all
  · refine ⟨BitVec.isLt _, ?_⟩
    rw [hbias]
    push_cast
    omega

theorem Below.unpack_pack {bits : Nat} {bound : Int} {u : UnpackedFloat} (h : Below bits bound u)
    (hmin : -1074 ≤ bound) (hmax : bound ≤ 970) :
    Below 53 bound (Float.Model.pack u).unpack := by
  cases u with
  | infinity => exact h.elim
  | notANumber =>
    have hnan : (Float.Model.pack .notANumber).unpack = .notANumber := by rfl
    rw [hnan]
    trivial
  | zero s =>
    have hzero : (Float.Model.pack (.zero s)).unpack = .zero s := by cases s <;> rfl
    rw [hzero]
    trivial
  | finite s m e hm =>
    have he := h.2
    have hbias : Format.binary64.exponentBias = 1023 := by decide
    have hbits : (Float.Model.pack (.finite s m e hm)).toBits.toBitVec =
      UnpackedFloat.pack Format.binary64 (.finite s m e hm) := rfl
    have hlt : (e + 1023 + 52).toNat < 2047 := by omega
    unfold Float.Model.unpack
    rw [hbits, UnpackedFloat.pack]
    dsimp only
    rw [hbias, if_neg (by norm_num; omega)]
    split
    · apply below_unpack
      · rw [unpackExponent_packComponents]
        intro hinf
        have := congrArg BitVec.toNat hinf
        simp at this
        omega
      · rw [unpackExponent_packComponents]
        simp
        omega
      · exact hmin
    · apply below_unpack _ _ hmin
      · rw [unpackExponent_packComponents]; decide
      · rw [unpackExponent_packComponents]; simp; omega

/-- A mantissa of 64 bits is moved to the left by up to 52 places before rounding. -/
theorem below_round (s : Sign) {m : Nat} (hm : m < 2 ^ 64) :
    Below 117 232 (UnpackedFloat.round Format.binary64 s m 0) := by
  have hshift : (0 - Format.binary64.targetExponent (totalExponent m 0)).toNat ≤ 52 := by
    simp only [Format.targetExponent, totalExponent, Format.mantissaBits, Format.minExponent]
    omega
  rw [UnpackedFloat.round, decreaseExponent]
  generalize (0 - Format.binary64.targetExponent (totalExponent m 0)).toNat = k at *
  have hlt : m <<< k < 2 ^ 116 := by
    rw [Nat.shiftLeft_eq]
    calc
      m * 2 ^ k < 2 ^ 64 * 2 ^ k := Nat.mul_lt_mul_of_pos_right hm (Nat.two_pow_pos k)
      _ ≤ 2 ^ 64 * 2 ^ 52 := Nat.mul_le_mul_left _ (Nat.pow_le_pow_right (by decide) hshift)
  have hround := below_roundWithAccuracy s hlt (show 0 - (k : Int) ≤ 0 by omega) (by decide) .exact
  exact hround.mono (by decide) (by decide)

theorem below_toFloat (n : UInt64) : Below 53 232 n.toFloat.toModel.unpack := by
  have hn : n.toNat < 2 ^ 64 := n.toNat_lt
  suffices Below 117 232 (UnpackedFloat.ofUInt64 Format.binary64 n) from
    this.unpack_pack (by decide) (by decide)
  unfold UnpackedFloat.ofUInt64 UnpackedFloat.ofNat UnpackedFloat.ofInt
    UnpackedFloat.normalize
  split
  · next hlt => exact absurd (Int.compare_eq_lt.1 hlt) (by omega)
  · trivial
  · exact below_round .positive hn

theorem below_powerOfTen {k : Nat} (hk : k ≤ 40) : Below 53 200 (powerOfTen k).toModel.unpack := by
  have hall : ∀ i ≤ 40, Below 53 200 (powerOfTen i).toModel.unpack := by decide +kernel
  exact hall k hk

theorem not_isInf_toFloat_mul_powerOfTen (n : UInt64) {k : Nat} (hk : k ≤ 40) :
    (n.toFloat * powerOfTen k).isInf = false := by
  have hmul := below_mul (below_toFloat n) (below_powerOfTen hk) (by decide)
  exact (hmul.unpack_pack (by decide) (by decide)).not_isInf

/-- Every step brings the exponent closer to zero by 308. -/
theorem isSome_scale {steps : Nat} {x : Float} {exponent : Int} (hneg : exponent < 0)
    (hmin : -(308 * steps) ≤ exponent) : (scale steps x exponent).isSome := by
  induction steps generalizing x exponent with
  | zero => omega
  | succ steps ih =>
    rw [scale]
    split
    · rw [if_neg (by omega)]
      rfl
    · split
      · rfl
      · rw [if_neg (by omega)]
        exact ih (by omega) (by omega)

theorem isSome_ofParts (negative : Bool) (significand : Nat) {exponent : Int}
    (hmin : -2464 ≤ exponent) (hmax : exponent ≤ 40) :
    (ofParts negative significand exponent).isSome := by
  rw [ofParts, Option.isSome_map]
  rcases lt_or_ge exponent 0 with hneg | hpos
  · exact isSome_scale hneg (by omega)
  · rw [scale, if_pos (by omega), if_pos hpos]
    simp [not_isInf_toFloat_mul_powerOfTen _ (show exponent.natAbs ≤ 40 by omega)]

end NonlinearInteger.Json
