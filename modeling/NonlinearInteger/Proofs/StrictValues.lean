import NonlinearInteger.Proofs.Arithmetic
import NonlinearInteger.Proofs.Magnitude

/-!
# Values without saturation

The strict arithmetic refuses every product and every sum beyond the 128-bit range, those on the
way included, so what it computes is exact. A magnitude bound that fits lets it pass: then values,
slopes and the rest of the terms are computed exactly, whether or not sums and products may
saturate.
-/

namespace NonlinearInteger

namespace Monomial

variable {n : Nat} {bound : Variable → Int} {values : Array Int}

/-- Every partial product is at most the magnitude of the whole one, since the
bounds are at least one. -/
theorem multiplyBy_strict {σ : Variable → Int} (h : Within n bound σ) {vs : List Variable}
    (hvs : ∀ v ∈ vs, v < n) {coef : Int}
    (hsize : |coef| * factorValue bound vs ≤ Wide.greatest) :
    multiplyBy .strict coef (vs.map σ) = .ok (coef * factorValue σ vs) := by
  induction vs generalizing coef with
  | nil => simp [multiplyBy, factorValue, pure, Except.pure]
  | cons v vs ih =>
    have hv := hvs v List.mem_cons_self
    have htail : ∀ w ∈ vs, w < n := fun w hw => hvs w (List.mem_cons_of_mem v hw)
    have hone : 1 ≤ factorValue bound vs :=
      one_le_factorValue fun w hw => h.one_le w (htail w hw)
    have hstep : |coef * σ v| * factorValue bound vs ≤ Wide.greatest := by
      calc
        |coef * σ v| * factorValue bound vs = |coef| * (|σ v| * factorValue bound vs) := by
          rw [abs_mul, mul_assoc]
        _ ≤ |coef| * (bound v * factorValue bound vs) :=
          mul_le_mul_of_nonneg_left
            (mul_le_mul_of_nonneg_right (h.abs_le v hv) (zero_le_one.trans hone)) (abs_nonneg _)
        _ ≤ Wide.greatest := hsize
    have hfits : |coef * σ v| ≤ Wide.greatest :=
      (le_mul_of_one_le_right (abs_nonneg _) hone).trans hstep
    have hmul : Arithmetic.strict.mul coef (σ v) = .ok (coef * σ v) := Wide.exact_of_abs_le hfits
    rw [multiplyBy, List.map_cons, List.foldlM_cons, hmul, factorValue, ← mul_assoc]
    exact ih htail hstep

theorem factorValue_erase_le {vs : List Variable} (h : ∀ v ∈ vs, 1 ≤ bound v) (v : Variable) :
    factorValue bound (vs.erase v) ≤ factorValue bound vs := by
  by_cases hmem : v ∈ vs
  · have hone : 1 ≤ factorValue bound (vs.erase v) :=
      one_le_factorValue fun w hw => h w (List.mem_of_mem_erase hw)
    rw [← factorValue_erase bound hmem]
    exact le_mul_of_one_le_right (zero_le_one.trans hone) (h v hmem)
  · rw [List.erase_of_not_mem hmem]

theorem evaluateBy_strict {m : Monomial} (hne : m.vars ≠ []) (hvars : ∀ v ∈ m.vars, v < values.size)
    (h : Within values.size bound (valuation values)) (hsize : m.size bound ≤ Wide.greatest) :
    m.evaluateBy .strict values = .ok (m.eval (valuation values)) := by
  cases hm : m.isEmpty with
  | true =>
    have hcoef : m.coef = 0 := by simpa [isEmpty, hne] using hm
    rw [evaluateBy, if_pos hm, eval, hcoef, zero_mul]
  | false =>
    rw [evaluateBy, hm, mapM_fetch hvars]
    exact multiplyBy_strict h hvars hsize

theorem slopeBy_strict {m : Monomial} (hvars : ∀ v ∈ m.vars, v < values.size)
    (h : Within values.size bound (valuation values)) (hsize : m.size bound ≤ Wide.greatest)
    (v : Variable) : m.slopeBy .strict v values = .ok (m.slopeAt (valuation values) v) := by
  cases hm : m.isEmpty with
  | true => rw [slopeBy, if_pos hm, slopeAt_of_isEmpty _ hm]
  | false =>
    have hothers : ∀ w ∈ m.vars.erase v, w < values.size :=
      fun w hw => hvars w (List.mem_of_mem_erase hw)
    have herase := factorValue_erase_le (fun w hw => h.one_le w (hvars w hw)) v
    have hproduct := multiplyBy_strict h hothers
      ((mul_le_mul_of_nonneg_left herase (abs_nonneg m.coef)).trans hsize)
    rw [slopeBy, hm, mapM_fetch hothers]
    change (multiplyBy .strict m.coef _ >>= _) = _
    rw [hproduct]
    rfl

theorem eq_of_multiplyBy {σ : Variable → Int} {vs : List Variable} {coef x : Int}
    (h : multiplyBy .strict coef (vs.map σ) = .ok x) :
    x = coef * factorValue σ vs := by
  induction vs generalizing coef with
  | nil => simpa [factorValue] using (pure_eq_ok.1 h).symm
  | cons v vs ih =>
    rw [multiplyBy, List.map_cons, List.foldlM_cons] at h
    obtain ⟨y, hy, h⟩ := bind_eq_ok.1 h
    obtain ⟨rfl, -⟩ := Wide.exact_eq_ok.1 hy
    rw [ih h, factorValue, Int.mul_assoc]

theorem eq_of_evaluateBy {m : Monomial} {x : Int} (h : m.evaluateBy .strict values = .ok x) :
    x = if m.vars.isEmpty then 0 else m.eval (valuation values) := by
  unfold evaluateBy at h
  split at h
  · rename_i hempty
    obtain rfl := Except.ok.inj h
    rcases Bool.or_eq_true_iff.1 hempty with hvars | hcoef
    · rw [if_pos hvars]
    · rw [eval, eq_of_beq hcoef, Int.zero_mul, ite_self]
  · rename_i hempty
    obtain ⟨factors, hfactors, h⟩ := bind_eq_ok.1 h
    rw [eq_of_mapM_fetch hfactors] at h
    rw [if_neg fun hvars => hempty (Bool.or_eq_true_iff.2 (.inl hvars)), eq_of_multiplyBy h,
      eval]

end Monomial

namespace Polynomial

variable {bound : Variable → Int} {values : Array Int} {p : Polynomial}

theorem accumulateBy_strict {value : Monomial → Checked Int} {f : Monomial → Int}
    {ms : List Monomial} (h : ∀ m ∈ ms, value m = .ok (f m))
    (hsize : (ms.map fun m => |f m|).sum ≤ Wide.greatest) :
    accumulateBy .strict value ms = .ok (ms.map f).sum := by
  have hrun : ∀ (ns : List Monomial) (total : Int), (∀ m ∈ ns, value m = .ok (f m)) →
      |total| + (ns.map fun m => |f m|).sum ≤ Wide.greatest →
      ns.foldlM (fun total m => do Arithmetic.strict.add total (← value m)) total =
        .ok (total + (ns.map f).sum) := by
    intro ns
    induction ns with
    | nil => simp [pure, Except.pure]
    | cons n ns ih =>
      intro total hvalue hns
      simp only [List.map_cons, List.sum_cons] at hns ⊢
      have hstep := abs_add_le total (f n)
      have hrest : 0 ≤ (ns.map fun m => |f m|).sum := List.sum_nonneg (by simp)
      have hadd : Arithmetic.strict.add total (f n) = .ok (total + f n) :=
        Wide.exact_of_abs_le (by omega)
      rw [List.foldlM_cons, hvalue n List.mem_cons_self, ← add_assoc]
      change (Arithmetic.strict.add total (f n) >>= _) = _
      rw [hadd]
      exact ih _ (fun m hm => hvalue m (List.mem_cons_of_mem n hm)) (by omega)
  rw [accumulateBy, hrun ms 0 h (by simpa using hsize), zero_add]

theorem eq_of_accumulateBy {value : Monomial → Checked Int} {f : Monomial → Int}
    {ms : List Monomial} {x : Int}
    (hvalue : ∀ m y, value m = .ok y → y = f m) (h : accumulateBy .strict value ms = .ok x) :
    x = (ms.map f).sum := by
  have hrun : ∀ (ks : List Monomial) (total : Int),
      ks.foldlM (fun total m => do Arithmetic.strict.add total (← value m)) total = .ok x →
      x = total + (ks.map f).sum := by
    intro ks
    induction ks with
    | nil =>
      intro total hks
      rw [List.map_nil, List.sum_nil, Int.add_zero]
      exact (pure_eq_ok.1 hks).symm
    | cons k ks ih =>
      intro total hks
      rw [List.foldlM_cons] at hks
      obtain ⟨next, hnext, hks⟩ := bind_eq_ok.1 hks
      obtain ⟨y, hy, hnext⟩ := bind_eq_ok.1 hnext
      obtain ⟨rfl, -⟩ := Wide.exact_eq_ok.1 hnext
      rw [ih _ hks, hvalue k y hy, List.map_cons, List.sum_cons, Int.add_assoc]
  rw [hrun ms 0 h, Int.zero_add]

theorem eq_of_evaluateBy {x : Int} (h : p.evaluateBy .strict values = .ok x) :
    x = (p.monomials.map fun m => if m.vars.isEmpty then 0 else m.eval (valuation values)).sum :=
  eq_of_accumulateBy (fun _ _ => Monomial.eq_of_evaluateBy) h

section Fitting

variable (hp : p.Among values.size) (h : Within values.size bound (valuation values))
  (hsize : p.size bound ≤ Wide.greatest)

include hp h in
theorem size_term_le {m : Monomial} (hm : m ∈ p.monomials) : m.size bound ≤ p.size bound := by
  have hnonneg : ∀ x ∈ p.monomials.map (·.size bound), 0 ≤ x := by
    intro x hx
    obtain ⟨k, hk, rfl⟩ := List.mem_map.1 hx
    exact Monomial.size_nonneg h (hp k hk).2
  exact List.single_le_sum hnonneg _ (List.mem_map_of_mem hm)

include hp h hsize

theorem evaluateBy_term_strict {m : Monomial} (hm : m ∈ p.monomials) :
    m.evaluateBy .strict values = .ok (m.eval (valuation values)) :=
  Monomial.evaluateBy_strict (hp m hm).1 (hp m hm).2 h ((size_term_le hp h hm).trans hsize)

theorem slopeBy_term_strict {m : Monomial} (hm : m ∈ p.monomials) (v : Variable) :
    m.slopeBy .strict v values = .ok (m.slopeAt (valuation values) v) :=
  Monomial.slopeBy_strict (hp m hm).2 h ((size_term_le hp h hm).trans hsize) v

theorem evaluateBy_strict : p.evaluateBy .strict values = .ok (p.eval (valuation values)) := by
  have hsum := sum_abs_eval_le hp h (List.Sublist.refl p.monomials)
  rw [eval, evalTerms_eq_sum]
  exact accumulateBy_strict (fun m => evaluateBy_term_strict hp h hsize) (hsum.trans hsize)

theorem evaluateWithoutBy_strict (v : Variable) : p.evaluateWithoutBy .strict v values =
    .ok (evalTerms (valuation values) (p.avoiding v)) := by
  have hsub : (p.avoiding v).Sublist p.monomials := List.filter_sublist
  rw [evalTerms_eq_sum]
  exact accumulateBy_strict (fun m hm => evaluateBy_term_strict hp h hsize (hsub.subset hm))
    ((sum_abs_eval_le hp h hsub).trans hsize)

theorem slopeBy_strict (v : Variable) :
    p.slopeBy .strict v values = .ok (p.slopeAt (valuation values) v) := by
  have hsum := sum_abs_slopeAt_le hp h v (List.Sublist.refl p.monomials)
  exact accumulateBy_strict (fun m hm => slopeBy_term_strict hp h hsize hm v) (hsum.trans hsize)

/-- The computed slope and the computed rest make up the computed value. The product of slope and
value fits, since there is room for it in the bound. -/
theorem slope_mul_add_rest {v : Variable} (hv : v < values.size) : (do
    let product ← Wide.mul (← p.slope v values) (← fetch values v)
    Wide.add product (← p.evaluateWithout v values)) = p.evaluate values := by
  have hvalue : values[v] = valuation values v := by simp [valuation, hv]
  have hproduct : |p.slopeAt (valuation values) v * valuation values v| ≤ Wide.greatest := by
    rw [abs_mul]
    calc
      |p.slopeAt (valuation values) v| * |valuation values v|
        ≤ |p.slopeAt (valuation values) v| * bound v :=
          mul_le_mul_of_nonneg_left (h.abs_le v hv) (abs_nonneg _)
      _ ≤ p.size bound := abs_slopeAt_mul_le hp h hv
      _ ≤ Wide.greatest := hsize
  have hsum : |p.slopeAt (valuation values) v * valuation values v +
      evalTerms (valuation values) (p.avoiding v)| ≤ Wide.greatest := by
    rw [slopeAt_mul_add_avoiding]
    exact (abs_eval_le hp h).trans hsize
  have hmul : Wide.mul (p.slopeAt (valuation values) v) (valuation values v) = .ok _ :=
    Wide.exact_of_abs_le hproduct
  rw [slope_exact hp h hsize, evaluateWithout_exact hp h hsize, evaluate_exact hp h hsize,
    fetch_of_lt hv, hvalue, ← slopeAt_mul_add_avoiding (valuation values) v p]
  change (Wide.mul _ _ >>= fun product => Wide.add product _) = _
  rw [hmul]
  exact Wide.exact_of_abs_le hsum

end Fitting

/-- A computation that is exact, saturating or not, with a result within a bound. -/
structure Exactly (compute : Arithmetic → Checked Int) (x b : Int) : Prop where
  saturating : compute .saturating = .ok x
  strict : compute .strict = .ok x
  abs_le : |x| ≤ b

/-- What a magnitude bound says about the values of a table. -/
structure Tight (p : Polynomial) (bound : Variable → Int) (values : Array Int) (b : Int) :
    Prop where
  value : Exactly (p.evaluateBy · values) (p.eval (valuation values)) b
  rest : ∀ v, Exactly (p.evaluateWithoutBy · v values)
    (evalTerms (valuation values) (p.avoiding v)) b
  slope : ∀ v, Exactly (p.slopeBy · v values) (p.slopeAt (valuation values) v) b
  /-- There is room for a value of the variable. -/
  abs_slope_mul_le : ∀ v, |p.slopeAt (valuation values) v| * bound v ≤ b
  /-- One occurrence is divided out of each power, and the terms without the variable remain. -/
  decomposed : ∀ v, p.slopeAt (valuation values) v * valuation values v +
    evalTerms (valuation values) (p.avoiding v) = p.eval (valuation values)
  /-- The decomposition holds of the computed values, and overflows nowhere. -/
  recomputed : ∀ v < values.size, (do
    let product ← Wide.mul (← p.slope v values) (← fetch values v)
    Wide.add product (← p.evaluateWithout v values)) = p.evaluate values

/-- A magnitude bound that fits into 128 bits makes evaluation exact. -/
theorem tight_of_magnitudeBound {b : Int} (hp : p.Among values.size)
    (h : Within values.size bound (valuation values))
    (hbound : p.magnitudeBound (fun v => .ok (bound v)) = .ok b) : p.Tight bound values b := by
  rw [magnitudeBound_eq hp (fun _ _ => rfl) h.one_le] at hbound
  obtain ⟨rfl, hfits⟩ := Wide.exact_eq_ok.1 hbound
  have hsize : p.size bound ≤ Wide.greatest := hfits.2
  constructor
  case value =>
    constructor
    · rw [evaluateBy_saturating]
      exact evaluate_exact hp h hsize
    · exact evaluateBy_strict hp h hsize
    · exact abs_eval_le hp h
  case rest =>
    intro v
    constructor
    · rw [evaluateWithoutBy_saturating]
      exact evaluateWithout_exact hp h hsize v
    · exact evaluateWithoutBy_strict hp h hsize v
    · exact abs_evalTerms_le hp h List.filter_sublist
  case slope =>
    intro v
    constructor
    · rw [slopeBy_saturating]
      exact slope_exact hp h hsize v
    · exact slopeBy_strict hp h hsize v
    · exact abs_slopeTerms_le hp h v (List.Sublist.refl _)
  case abs_slope_mul_le =>
    intro v
    by_cases hv : v < values.size
    · exact abs_slopeAt_mul_le hp h hv
    · have hzero := slopeAt_eq_zero (fun m hm hmem => hv ((hp m hm).2 v hmem)) (valuation values)
      rw [hzero, abs_zero, zero_mul]
      exact size_nonneg h hp
  case decomposed => exact fun v => slopeAt_mul_add_avoiding (valuation values) v p
  case recomputed => exact fun v hv => slope_mul_add_rest hp h hsize hv

/-- Two squares, a product written twice and a zero, none of them merged. -/
def squaresAndZero : Polynomial :=
  .ofTerms
    [.ofFactors [0, 0, 1] 5, .ofFactors [2, 2] (-2), .linear 1 0, .ofFactors [1, 0, 0] (-3)]

theorem tight_of_squaresAndZero :
    squaresAndZero.Among 3 ∧ Within 3 (fun _ => 10) (valuation #[4, -5, 7]) ∧
      squaresAndZero.magnitudeBound (fun _ => .ok 10) = .ok 8200 ∧
        squaresAndZero.Tight (fun _ => 10) #[4, -5, 7] 8200 := by
  have hamong : squaresAndZero.Among 3 := by
    unfold Among
    decide
  have hwithin : Within 3 (fun _ => 10) (valuation #[4, -5, 7]) := ⟨by decide, by decide⟩
  have hbound : squaresAndZero.magnitudeBound (fun _ => .ok 10) = .ok 8200 := by decide
  exact ⟨hamong, hwithin, hbound, tight_of_magnitudeBound hamong hwithin hbound⟩

end Polynomial
end NonlinearInteger
