import NonlinearInteger.Polynomial.Value
import NonlinearInteger.Proofs.Success
import Mathlib.Algebra.Order.BigOperators.Group.List
import Mathlib.Tactic.Linarith
import Mathlib.Tactic.Ring

/-!
# Saturating arithmetic

A saturated product is the exact one, or both are out of reach on the same
side. Of a saturated sum this holds only as long as the terms of one sign stay
small: what saturates on one side is not brought back by the other.
-/

namespace NonlinearInteger

namespace Wide

theorem exact_of_not_fits {x : Int} (h : ¬Fits x) : exact x = .error .overflow := if_neg h

theorem fits_iff_of_nonneg {x : Int} (h : 0 ≤ x) : Fits x ↔ x ≤ greatest := by
  simp only [Fits, least]
  omega

theorem not_fits_mono {x y : Int} (hx : 0 ≤ x) (hxy : x ≤ y) (h : ¬Fits x) : ¬Fits y := by
  rw [fits_iff_of_nonneg hx] at h
  rw [fits_iff_of_nonneg (hx.trans hxy)]
  omega

/-- A saturated result and the exact one are equal, or both are beyond the
greatest magnitude, with the same sign. -/
def Clips (x exact : Int) : Prop :=
  x = exact ∨ (greatest ≤ x ∧ greatest < exact) ∨ (x ≤ -greatest ∧ exact < -greatest)

theorem Clips.refl (x : Int) : Clips x x := .inl rfl

theorem Clips.neg_side {x e : Int} (h : Clips x e) : Clips (-x) (-e) := by
  unfold Clips at *
  omega

/-- Saturating keeps a result on its side. -/
theorem clips_saturate {x e : Int} (h : Clips x e) : Clips (saturate x) e := by
  simp only [Clips, saturate, greatest, least] at *
  omega

theorem Clips.mul_pos {x e f : Int} (h : Clips x e) (hf : 0 < f) : Clips (x * f) (e * f) := by
  rcases h with rfl | ⟨hx, he⟩ | ⟨hx, he⟩
  · exact .refl _
  · refine .inr (.inl ⟨?_, ?_⟩) <;> simp only [greatest] at * <;> nlinarith
  · refine .inr (.inr ⟨?_, ?_⟩) <;> simp only [greatest] at * <;> nlinarith

/-- A zero factor brings both back; every other one leaves them on one side. -/
theorem Clips.mulSaturating {x e : Int} (h : Clips x e) (f : Int) :
    Clips (mulSaturating x f) (e * f) := by
  apply clips_saturate
  rcases Int.lt_trichotomy f 0 with hf | rfl | hf
  · have hneg := (h.mul_pos (Int.neg_pos_of_neg hf)).neg_side
    simpa using hneg
  · simpa using Clips.refl 0
  · exact h.mul_pos hf

/-- Within reach a saturated result is exact. -/
theorem Clips.eq_of_abs_le {x e : Int} (h : Clips x e) (he : |e| ≤ greatest) : x = e := by
  have := abs_le.1 he
  simp only [Clips, greatest] at *
  omega

theorem saturate_neg_iff {x : Int} : saturate x < 0 ↔ x < 0 := by
  simp only [saturate, greatest, least]
  omega

theorem saturate_pos_iff {x : Int} : 0 < saturate x ↔ 0 < x := by
  simp only [saturate, greatest, least]
  omega

theorem fits_of_abs_le {x : Int} (h : |x| ≤ greatest) : Fits x := by
  have := abs_le.1 h
  simp only [Fits, least, greatest] at *
  omega

theorem exact_of_abs_le {x : Int} (h : |x| ≤ greatest) : exact x = .ok x :=
  exact_of_fits (fits_of_abs_le h)

theorem addSaturating_eq {x y : Int} (h : |x + y| ≤ greatest) : addSaturating x y = x + y :=
  saturate_of_fits (fits_of_abs_le h)

/-- What the terms on one side of zero may add up to before a sum that has
saturated on the other side could come back into the range of a limit. -/
def margin : Int := greatest - 18446744073709551616

/-- A saturating sum and the exact one agree, or neither has come back from the
side that `side` stands for. The terms of the other side add up to `back`. -/
def Escapes (side back x exact : Int) : Prop :=
  (x = exact ∧ -back ≤ side * exact) ∨ (greatest - back ≤ side * x ∧ greatest - back < side * exact)

/-- How far a term goes against a side. -/
def against (side x : Int) : Int := max 0 (-(side * x))

theorem against_nonneg (side x : Int) : 0 ≤ against side x := Int.le_max_left ..

theorem Escapes.add {side back x e y t : Int} (hside : side = 1 ∨ side = -1) (hback : 0 ≤ back)
    (hx : Fits x) (h : Escapes side back x e) (hy : Clips y t)
    (hmargin : back + against side t ≤ margin) :
    Escapes side (back + against side t) (addSaturating x y) (e + t) := by
  simp only [Escapes, Clips, Fits, against, addSaturating, saturate, margin, greatest, least] at *
  rcases hside with rfl | rfl <;> omega

/-- With few terms on one side, a comparison with a 64-bit limit is right. -/
theorem Escapes.compare {side back x e limit : Int} (hside : side = 1 ∨ side = -1)
    (h : Escapes side back x e) (hback : back ≤ margin) (hlimit : FitsInt64 limit) :
    (x ≤ limit ↔ e ≤ limit) ∧ (limit ≤ x ↔ limit ≤ e) ∧ (x = limit ↔ e = limit) := by
  simp only [Escapes, FitsInt64, margin, greatest] at *
  rcases hside with rfl | rfl <;> omega

end Wide

/-- The exact assignment that a table of values stands for. -/
def valuation (values : Array Int) (v : Variable) : Int := values.getD v 0

theorem getElem?_eq_valuation {values : Array Int} {v : Variable} (h : v < values.size) :
    values[v]? = some (valuation values v) := by
  simp [valuation, h]

theorem mapM_fetch {values : Array Int} {vs : List Variable} (h : ∀ v ∈ vs, v < values.size) :
    vs.mapM (fetch values) = .ok (vs.map (valuation values)) := by
  induction vs with
  | nil => rfl
  | cons v vs ih =>
    have hv : fetch values v = .ok (valuation values v) :=
      fetch_eq_ok.2 (getElem?_eq_valuation (h v List.mem_cons_self))
    rw [List.mapM_cons, hv, ih fun w hw => h w (List.mem_cons_of_mem v hw)]
    rfl

theorem eq_of_mapM_fetch {vs : List Variable} {factors : List Int}
    (h : vs.mapM (fetch values) = .ok factors) : factors = vs.map (valuation values) := by
  induction vs generalizing factors with
  | nil => exact (pure_eq_ok.1 h).symm
  | cons v vs ih =>
    rw [List.mapM_cons] at h
    obtain ⟨x, hx, h⟩ := bind_eq_ok.1 h
    obtain ⟨xs, hxs, h⟩ := bind_eq_ok.1 h
    obtain rfl := pure_eq_ok.1 h
    have hvalue : valuation values v = x := by simp [valuation, fetch_eq_ok.1 hx]
    rw [List.map_cons, hvalue, ih hxs]

namespace Monomial

theorem multiply_clips {x e : Int} (h : Wide.Clips x e) (σ : Variable → Int)
    (vs : List Variable) : Wide.Clips (multiply x (vs.map σ)) (e * factorValue σ vs) := by
  induction vs generalizing x e with
  | nil => simpa [multiply, factorValue] using h
  | cons v vs ih =>
    rw [factorValue, ← mul_assoc]
    exact ih (h.mulSaturating (σ v))

/-- What a monomial evaluates to, saturated. -/
def clipped (σ : Variable → Int) (m : Monomial) : Int :=
  if m.isEmpty then 0 else multiply m.coef (m.vars.map σ)

theorem evaluate_eq_clipped {m : Monomial} {values : Array Int}
    (h : ∀ v ∈ m.vars, v < values.size) :
    m.evaluate values = .ok (m.clipped (valuation values)) := by
  unfold evaluate clipped
  split
  · rfl
  · rw [mapM_fetch h]
    rfl

theorem clipped_clips {m : Monomial} (hm : m.vars ≠ []) (σ : Variable → Int) :
    Wide.Clips (m.clipped σ) (m.eval σ) := by
  unfold clipped
  split
  · rename_i hempty
    have hcoef : m.coef = 0 := by simpa [isEmpty, hm] using hempty
    simpa [eval, hcoef] using Wide.Clips.refl 0
  · exact multiply_clips (.refl m.coef) σ m.vars

end Monomial

namespace Polynomial

theorem accumulate_eq_foldl {value : Monomial → Checked Int} {x : Monomial → Int}
    {ms : List Monomial} (h : ∀ m ∈ ms, value m = .ok (x m)) (total : Int) :
    ms.foldlM (fun total m => Wide.addSaturating total <$> value m) total =
      .ok (ms.foldl (fun total m => Wide.addSaturating total (x m)) total) := by
  induction ms generalizing total with
  | nil => rfl
  | cons m ms ih =>
    rw [List.foldlM_cons, h m List.mem_cons_self]
    exact ih (fun n hn => h n (List.mem_cons_of_mem m hn)) _

/-- A sum is exact when the magnitudes of its terms add up to at most the
greatest integer. -/
theorem accumulate_exact {value : Monomial → Checked Int} {x : Monomial → Int}
    {ms : List Monomial} (h : ∀ m ∈ ms, value m = .ok (x m))
    (hsize : (ms.map fun m => |x m|).sum ≤ Wide.greatest) :
    accumulate value ms = .ok (ms.map x).sum := by
  have hrun : ∀ (ns : List Monomial) (total : Int),
      |total| + (ns.map fun m => |x m|).sum ≤ Wide.greatest →
      ns.foldl (fun total m => Wide.addSaturating total (x m)) total =
        total + (ns.map x).sum := by
    intro ns
    induction ns with
    | nil => simp
    | cons n ns ih =>
      intro total hns
      simp only [List.map_cons, List.sum_cons] at hns ⊢
      have hstep := abs_add_le total (x n)
      have hrest : 0 ≤ (ns.map fun m => |x m|).sum :=
        List.sum_nonneg (by simp)
      rw [List.foldl_cons, Wide.addSaturating_eq (by omega), ih _ (by omega)]
      ring
  unfold accumulate
  rw [accumulate_eq_foldl h, hrun ms 0 (by simpa using hsize), Int.zero_add]

end Polynomial
end NonlinearInteger
