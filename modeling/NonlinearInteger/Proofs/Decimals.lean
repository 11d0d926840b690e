import NonlinearInteger.Decimal.Shortest
import Mathlib

/-!
# The size of shortest decimals

The shortest decimal of a binary number has a digit that is not zero, no more places after the
point than binary places, and lies no further above the number than half a unit of its last
binary place.
-/

namespace NonlinearInteger.Decimal

/-- The number that a numeral stands for. -/
def Numeral.value (d : Numeral) : ℚ := d.digits * 10 ^ d.exponent

theorem power_pos {base : Nat} (h : 0 < base) (e : Int) : 0 < power base e := Nat.pow_pos h

theorem zpow_eq_div (base : Nat) (e : Int) :
    (base : ℚ) ^ e = power base e / power base (-e) := by
  rcases le_total 0 e with h | h
  · obtain ⟨n, rfl⟩ := Int.eq_ofNat_of_zero_le h
    simp [power]
  · obtain ⟨n, hn⟩ := Int.eq_ofNat_of_zero_le (neg_nonneg.2 h)
    obtain rfl : e = -(n : Int) := by omega
    simp [power]

theorem compareScaled_ne_gt {a n : Nat} {i j : Int} :
    compareScaled a i n j ≠ .gt ↔ (a : ℚ) * 10 ^ i ≤ n * 2 ^ j := by
  have hten : (0 : ℚ) < power 10 (-i) := by exact_mod_cast power_pos (by decide) (-i)
  have htwo : (0 : ℚ) < power 2 (-j) := by exact_mod_cast power_pos (by decide) (-j)
  have hpowten := zpow_eq_div 10 i
  have hpowtwo := zpow_eq_div 2 j
  push_cast at hpowten hpowtwo
  rw [compareScaled, ne_eq, compare_gt_iff_gt, not_lt, hpowten, hpowtwo, ← mul_div_assoc,
    ← mul_div_assoc, div_le_div_iff₀ hten htwo]
  exact_mod_cast Iff.rfl

theorem ne_lt_of_zero {i j : Int} {n : Nat} (hn : 0 < n) : compareScaled 0 i n j = .lt := by
  rw [compareScaled, compare_lt_iff_lt, Nat.zero_mul, Nat.zero_mul]
  exact Nat.mul_pos (Nat.mul_pos hn (power_pos (by decide) j)) (power_pos (by decide) (-i))

/-- A numeral that rounds to a positive number is positive, and exceeds it by half a unit of its
last place at most. -/
theorem Binary.readsBack_bounds {x : Binary} (hx : 0 < x.m) {d : Numeral}
    (h : x.readsBack d = true) : 0 < d.digits ∧ d.value ≤ (4 * x.m + 2 : Nat) * 2 ^ (x.q - 2) := by
  unfold readsBack at h
  rw [Bool.and_eq_true] at h
  obtain ⟨hlow, hhigh⟩ := h
  constructor
  · by_contra hzero
    have hdigits : d.digits = 0 := by omega
    have hpositive : 0 < 4 * x.m - if x.narrow then 1 else 2 := by split <;> omega
    rw [hdigits, ne_lt_of_zero hpositive] at hlow
    simp at hlow
  · refine compareScaled_ne_gt.1 fun hgt => ?_
    rw [hgt] at hhigh
    simp at hhigh

theorem Binary.onGrid?_eq_some {x : Binary} {i : Int} {d : Numeral} (h : x.onGrid? i = some d) :
    x.readsBack d = true ∧ d.exponent = i := by
  unfold onGrid? at h
  dsimp only at h
  split at h
  · rename_i hlower hupper
    split at h <;> cases h
    · exact ⟨hlower, rfl⟩
    · exact ⟨hupper, rfl⟩
    · split
      · exact ⟨hlower, rfl⟩
      · exact ⟨hupper, rfl⟩
  · cases h
    exact ⟨‹_›, rfl⟩
  · cases h
    exact ⟨‹_›, rfl⟩
  · cases h

theorem Binary.search_eq_some {x : Binary} {steps : Nat} {i : Int} {d : Numeral}
    (h : x.search steps i = some d) : x.readsBack d = true ∧ i - steps < d.exponent := by
  induction steps generalizing i with
  | zero => cases h
  | succ steps ih =>
    rw [search] at h
    split at h
    · rename_i hgrid
      cases h
      obtain ⟨hreads, rfl⟩ := onGrid?_eq_some hgrid
      exact ⟨hreads, by omega⟩
    · obtain ⟨hreads, hlt⟩ := ih h
      exact ⟨hreads, by omega⟩

/-- Zeros that are moved into the exponent change no number. -/
theorem Numeral.strip_bounds (steps : Nat) (d : Numeral) (hd : 0 < d.digits) :
    0 < (d.strip steps).digits ∧ d.exponent ≤ (d.strip steps).exponent ∧
      (d.strip steps).value = d.value := by
  induction steps generalizing d with
  | zero => exact ⟨hd, le_rfl, rfl⟩
  | succ steps ih =>
    rw [strip]
    split
    · rename_i hzero
      rw [Bool.and_eq_true, bne_iff_ne, beq_iff_eq] at hzero
      obtain ⟨hpos, hle, hvalue⟩ := ih ⟨d.digits / 10, d.exponent + 1⟩ (by dsimp only; omega)
      refine ⟨hpos, by dsimp only at hle; omega, hvalue.trans ?_⟩
      have hdigits : (d.digits : ℚ) = (d.digits / 10 : Nat) * 10 := by
        exact_mod_cast (Nat.div_mul_cancel (Nat.dvd_of_mod_eq_zero hzero.2)).symm
      rw [value, value, hdigits, zpow_add_one₀ (by norm_num)]
      ring
    · exact ⟨hd, le_rfl, rfl⟩

theorem Binary.le_magnitude (x : Binary) (steps : Nat) (k : Int) : k ≤ x.magnitude steps k := by
  induction steps generalizing k with
  | zero => exact le_rfl
  | succ steps ih =>
    rw [magnitude]
    split
    · exact le_rfl
    · exact (Int.le_add_one le_rfl).trans (ih (k + 1))

theorem Binary.scale_ge {x : Binary} (hq : -1074 ≤ x.q) : -325 ≤ x.scale := by
  refine le_trans ?_ (x.le_magnitude 4 _)
  rw [Int.fdiv_eq_ediv_of_nonneg _ (by decide)]
  omega

/-- What the shortest decimal of a positive number keeps of it. -/
structure Binary.Near (x : Binary) (d : Numeral) : Prop where
  pos : 0 < d.digits
  exponent_ge : -1074 ≤ d.exponent
  value_le : d.value ≤ (4 * x.m + 2 : Nat) * 2 ^ (x.q - 2)

/-- The exact value, in case that no short numeral is found. -/
theorem Binary.near_exact {x : Binary} (hx : 0 < x.m) (hq : -1074 ≤ x.q) :
    x.Near ⟨x.m * power 2 x.q * power 5 (-x.q), if 0 ≤ x.q then 0 else x.q⟩ where
  pos := Nat.mul_pos (Nat.mul_pos hx (power_pos (by decide) x.q)) (power_pos (by decide) (-x.q))
  exponent_ge := by
    dsimp only
    split <;> omega
  value_le := by
    have hexact : Numeral.value
        ⟨x.m * power 2 x.q * power 5 (-x.q), if 0 ≤ x.q then 0 else x.q⟩ = x.m * 2 ^ x.q := by
      unfold Numeral.value
      rcases le_or_gt 0 x.q with h | h
      · obtain ⟨n, hn⟩ := Int.eq_ofNat_of_zero_le h
        simp [hn, power]
      · obtain ⟨n, hn⟩ := Int.eq_ofNat_of_zero_le (neg_nonneg.2 h.le)
        obtain hn : x.q = -(n : Int) := by omega
        have hten : (10 : ℚ) ^ n = 2 ^ n * 5 ^ n := by rw [← mul_pow]; norm_num
        rw [if_neg (by omega), hn]
        simp [power, hten]
        field_simp
    have hpow : (0 : ℚ) < 2 ^ (x.q - 2) := by positivity
    have hsplit : (2 : ℚ) ^ x.q = 4 * 2 ^ (x.q - 2) := by
      rw [zpow_sub₀ (by norm_num)]
      norm_num
      ring
    rw [hexact, hsplit]
    push_cast
    nlinarith

theorem Binary.near_shortest {x : Binary} (hx : 0 < x.m) (hq : -1074 ≤ x.q) :
    x.Near x.shortest := by
  unfold shortest
  split
  · rename_i d hd
    obtain ⟨hreads, hexponent⟩ := search_eq_some hd
    obtain ⟨hpos, hvalue⟩ := readsBack_bounds hx hreads
    obtain ⟨hpos', hle, heq⟩ := d.strip_bounds 17 hpos
    have hscale := scale_ge hq
    exact ⟨hpos', by omega, heq.trans_le hvalue⟩
  · exact near_exact hx hq

theorem pow_le_of_length_toDigits {n : Nat} (hn : 0 < n) :
    10 ^ ((Nat.toDigits 10 n).length - 1) ≤ n := by
  rcases Nat.eq_zero_or_pos ((Nat.toDigits 10 n).length - 1) with hone | hmore
  · rw [hone]
    exact hn
  · by_contra hlt
    have hle := (Nat.length_toDigits_le_iff (by decide) hmore).2 (not_le.1 hlt)
    omega

theorem Numeral.first_lt {d : Numeral} (hd : 0 < d.digits) {k : Int} (h : d.value < 10 ^ k) :
    (Nat.toDigits 10 d.digits).length + d.exponent - 1 < k := by
  have hplace : ((Nat.toDigits 10 d.digits).length + d.exponent - 1 : Int) =
      ((Nat.toDigits 10 d.digits).length - 1 : Nat) + d.exponent := by
    have hpos := Nat.length_toDigits_pos (b := 10) (n := d.digits)
    omega
  have hfirst :
      (10 : ℚ) ^ ((Nat.toDigits 10 d.digits).length + d.exponent - 1 : Int) ≤ d.value := by
    rw [hplace, zpow_add₀ (by norm_num), zpow_natCast, value]
    have hdigits := pow_le_of_length_toDigits hd
    gcongr
    exact_mod_cast hdigits
  exact (zpow_lt_zpow_iff_right₀ (by norm_num)).1 (hfirst.trans_lt h)

end NonlinearInteger.Decimal
