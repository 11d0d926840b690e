import NonlinearInteger.Proofs.Saturation
import NonlinearInteger.Proofs.WellFormed
import Mathlib.Algebra.BigOperators.Ring.List
import Mathlib.Algebra.Order.Ring.Abs

/-!
# Slopes and magnitudes

The exact slope of a variable completes, with the terms that do not mention it,
to the exact value. A bound of the magnitudes of the variables bounds values,
slopes and all their partial sums, and when it fits into 128 bits, evaluation
computes them exactly.
-/

namespace NonlinearInteger

/-- The variables below `n` have values within positive bounds. -/
structure Within (n : Nat) (bound σ : Variable → Int) : Prop where
  one_le : ∀ v < n, 1 ≤ bound v
  abs_le : ∀ v < n, |σ v| ≤ bound v

theorem Within.self {n : Nat} {bound : Variable → Int} (h : ∀ v < n, 1 ≤ bound v) :
    Within n bound bound :=
  ⟨h, fun v hv => (abs_of_nonneg (zero_le_one.trans (h v hv))).le⟩

namespace Monomial

theorem factorValue_perm (σ : Variable → Int) {vs ws : List Variable} (h : vs.Perm ws) :
    factorValue σ vs = factorValue σ ws := by
  induction h with
  | nil => rfl
  | cons v _ ih => rw [factorValue, factorValue, ih]
  | swap v w vs => simp only [factorValue, mul_left_comm]
  | trans _ _ ih₁ ih₂ => exact ih₁.trans ih₂

theorem factorValue_erase (σ : Variable → Int) {v : Variable} {vs : List Variable}
    (h : v ∈ vs) : factorValue σ (vs.erase v) * σ v = factorValue σ vs := by
  rw [factorValue_perm σ (List.perm_cons_erase h), factorValue, mul_comm]

theorem one_le_factorValue {σ : Variable → Int} {vs : List Variable}
    (h : ∀ v ∈ vs, 1 ≤ σ v) : 1 ≤ factorValue σ vs := by
  induction vs with
  | nil => exact le_refl 1
  | cons v vs ih =>
    have hrest := ih fun w hw => h w (List.mem_cons_of_mem v hw)
    exact one_le_mul_of_one_le_of_one_le (h v List.mem_cons_self) hrest

theorem factorValue_congr {σ τ : Variable → Int} {vs : List Variable}
    (h : ∀ v ∈ vs, σ v = τ v) : factorValue σ vs = factorValue τ vs := by
  induction vs with
  | nil => rfl
  | cons v vs ih =>
    rw [factorValue, factorValue, h v List.mem_cons_self,
      ih fun w hw => h w (List.mem_cons_of_mem v hw)]

theorem contains_iff {m : Monomial} {v : Variable} : m.contains v = true ↔ v ∈ m.vars := by
  simp [contains]

/-- The exact coefficient of a variable, one of its occurrences divided out. -/
def slopeAt (σ : Variable → Int) (v : Variable) (m : Monomial) : Int :=
  if m.contains v then m.coef * factorValue σ (m.vars.erase v) else 0

theorem slopeAt_mul (σ : Variable → Int) {v : Variable} {m : Monomial} (h : v ∈ m.vars) :
    m.slopeAt σ v * σ v = m.eval σ := by
  rw [slopeAt, if_pos (contains_iff.2 h), eval, ← factorValue_erase σ h, mul_assoc]

theorem slopeAt_of_notMem (σ : Variable → Int) {v : Variable} {m : Monomial}
    (h : v ∉ m.vars) : m.slopeAt σ v = 0 :=
  if_neg (mt contains_iff.1 h)

theorem eval_congr {σ τ : Variable → Int} {m : Monomial} (h : ∀ v ∈ m.vars, σ v = τ v) :
    m.eval σ = m.eval τ := by
  rw [eval, eval, factorValue_congr h]

theorem slopeAt_congr {σ τ : Variable → Int} {m : Monomial} (h : ∀ v ∈ m.vars, σ v = τ v)
    (u : Variable) : m.slopeAt σ u = m.slopeAt τ u := by
  rw [slopeAt, slopeAt, factorValue_congr fun v hv => h v (List.mem_of_mem_erase hv)]

/-- The magnitude of a term at the given magnitudes of its factors. -/
def size (bound : Variable → Int) (m : Monomial) : Int :=
  |m.coef| * factorValue bound m.vars

variable {n : Nat} {bound σ : Variable → Int}

theorem abs_factorValue_le (h : Within n bound σ) {vs : List Variable}
    (hvs : ∀ v ∈ vs, v < n) : |factorValue σ vs| ≤ factorValue bound vs := by
  induction vs with
  | nil => simp [factorValue]
  | cons v vs ih =>
    have hv := hvs v List.mem_cons_self
    rw [factorValue, factorValue, abs_mul]
    exact mul_le_mul (h.abs_le v hv) (ih fun w hw => hvs w (List.mem_cons_of_mem v hw))
      (abs_nonneg _) (zero_le_one.trans (h.one_le v hv))

theorem abs_eval_le (h : Within n bound σ) {m : Monomial} (hm : ∀ v ∈ m.vars, v < n) :
    |m.eval σ| ≤ m.size bound := by
  rw [eval, abs_mul]
  exact mul_le_mul_of_nonneg_left (abs_factorValue_le h hm) (abs_nonneg _)

theorem size_nonneg (h : Within n bound σ) {m : Monomial} (hm : ∀ v ∈ m.vars, v < n) :
    0 ≤ m.size bound :=
  (abs_nonneg _).trans (abs_eval_le h hm)

/-- With one factor taken out there is room for a value of that factor. -/
theorem abs_slopeAt_mul_le (h : Within n bound σ) {m : Monomial} (hm : ∀ v ∈ m.vars, v < n)
    {v : Variable} (hv : v < n) : |m.slopeAt σ v| * bound v ≤ m.size bound := by
  by_cases hmem : v ∈ m.vars
  · have herase : ∀ w ∈ m.vars.erase v, w < n := fun w hw => hm w (List.mem_of_mem_erase hw)
    calc
      |m.slopeAt σ v| * bound v = |m.coef| * (|factorValue σ (m.vars.erase v)| * bound v) := by
        rw [slopeAt, if_pos (contains_iff.2 hmem), abs_mul, mul_assoc]
      _ ≤ |m.coef| * (factorValue bound (m.vars.erase v) * bound v) := by
        have hbound : 0 ≤ bound v := zero_le_one.trans (h.one_le v hv)
        exact mul_le_mul_of_nonneg_left
          (mul_le_mul_of_nonneg_right (abs_factorValue_le h herase) hbound) (abs_nonneg _)
      _ = m.size bound := by rw [factorValue_erase bound hmem, size]
  · rw [slopeAt_of_notMem σ hmem, abs_zero, zero_mul]
    exact size_nonneg h hm

theorem abs_slopeAt_le (h : Within n bound σ) {m : Monomial} (hm : ∀ v ∈ m.vars, v < n)
    (v : Variable) : |m.slopeAt σ v| ≤ m.size bound := by
  by_cases hmem : v ∈ m.vars
  · have hone := h.one_le v (hm v hmem)
    exact (le_mul_of_one_le_right (abs_nonneg _) hone).trans
      (abs_slopeAt_mul_le h hm (hm v hmem))
  · rw [slopeAt_of_notMem σ hmem, abs_zero]
    exact size_nonneg h hm

variable {values : Array Int}

theorem evaluate_exact {m : Monomial} (hne : m.vars ≠ [])
    (hvars : ∀ v ∈ m.vars, v < values.size)
    (hsize : |m.eval (valuation values)| ≤ Wide.greatest) :
    m.evaluate values = .ok (m.eval (valuation values)) := by
  rw [evaluate_eq_clipped hvars, (clipped_clips hne _).eq_of_abs_le hsize]

theorem slopeAt_of_isEmpty (σ : Variable → Int) {m : Monomial} (hm : m.isEmpty = true)
    (v : Variable) : m.slopeAt σ v = 0 := by
  rcases Bool.or_eq_true_iff.1 hm with hvars | hcoef
  · exact slopeAt_of_notMem σ (by simp [List.isEmpty_iff.1 hvars])
  · rw [slopeAt, eq_of_beq hcoef, Int.zero_mul, ite_self]

theorem slope_exact {m : Monomial} (hvars : ∀ v ∈ m.vars, v < values.size) (v : Variable)
    (hsize : |m.slopeAt (valuation values) v| ≤ Wide.greatest) :
    m.slope v values = .ok (m.slopeAt (valuation values) v) := by
  cases hm : m.isEmpty with
  | true => rw [slope, if_pos hm, slopeAt_of_isEmpty _ hm]
  | false =>
    have hread := mapM_fetch fun w hw => hvars w (List.mem_of_mem_erase (b := v) hw)
    unfold slope
    rw [hm, hread]
    cases hv : m.contains v with
    | false => simp [slopeAt, hv, bind, Except.bind, pure, Except.pure]
    | true =>
      have hclips := multiply_clips (.refl m.coef) (valuation values) (m.vars.erase v)
      have hslope : m.slopeAt (valuation values) v =
          m.coef * factorValue (valuation values) (m.vars.erase v) := if_pos hv
      rw [← hslope] at hclips
      simp [hclips.eq_of_abs_le hsize, bind, Except.bind, pure, Except.pure]

end Monomial

namespace Polynomial

theorem evalTerms_eq_sum (σ : Variable → Int) (ms : List Monomial) :
    evalTerms σ ms = (ms.map (·.eval σ)).sum := by
  induction ms with
  | nil => rfl
  | cons m ms ih => rw [evalTerms, ih, List.map_cons, List.sum_cons]

/-- The exact slope of a variable in a sum of terms. -/
def slopeTerms (σ : Variable → Int) (v : Variable) (ms : List Monomial) : Int :=
  (ms.map (·.slopeAt σ v)).sum

/-- The exact linear coefficient of a variable. -/
def slopeAt (σ : Variable → Int) (v : Variable) (p : Polynomial) : Int :=
  slopeTerms σ v p.monomials

theorem slopeAt_eq_zero {p : Polynomial} {v : Variable}
    (h : ∀ m ∈ p.monomials, v ∉ m.vars) (σ : Variable → Int) : p.slopeAt σ v = 0 := by
  unfold slopeAt slopeTerms
  apply List.sum_eq_zero
  intro x hx
  obtain ⟨m, hm, rfl⟩ := List.mem_map.1 hx
  exact Monomial.slopeAt_of_notMem σ (h m hm)

/-- The terms that mention a variable. -/
def mentioning (v : Variable) (p : Polynomial) : List Monomial :=
  p.monomials.filter (·.contains v)

/-- The terms that do not mention a variable. -/
def avoiding (v : Variable) (p : Polynomial) : List Monomial :=
  p.monomials.filter fun m => !m.contains v

theorem sum_mentioning_add_sum_avoiding (f : Monomial → Int) (v : Variable) (p : Polynomial) :
    ((p.mentioning v).map f).sum + ((p.avoiding v).map f).sum = (p.monomials.map f).sum := by
  have h := List.sum_map_filter_add_sum_map_filter_not (fun m : Monomial => m.contains v = true) f
    p.monomials
  simpa [mentioning, avoiding] using h

theorem evalTerms_avoiding_add_mentioning (σ : Variable → Int) (v : Variable) (p : Polynomial) :
    evalTerms σ (p.avoiding v) + evalTerms σ (p.mentioning v) = p.eval σ := by
  rw [eval, evalTerms_eq_sum, evalTerms_eq_sum, evalTerms_eq_sum, add_comm]
  exact sum_mentioning_add_sum_avoiding (·.eval σ) v p

theorem slopeTerms_avoiding_add_mentioning (σ : Variable → Int) (u v : Variable)
    (p : Polynomial) :
    slopeTerms σ u (p.avoiding v) + slopeTerms σ u (p.mentioning v) = p.slopeAt σ u := by
  rw [slopeAt, slopeTerms, slopeTerms, slopeTerms, add_comm]
  exact sum_mentioning_add_sum_avoiding (·.slopeAt σ u) v p

/-- Slope times value and the terms without the variable make up the value. -/
theorem slopeAt_mul_add_avoiding (σ : Variable → Int) (v : Variable) (p : Polynomial) :
    p.slopeAt σ v * σ v + evalTerms σ (p.avoiding v) = p.eval σ := by
  have hslope : p.slopeAt σ v = ((p.mentioning v).map (·.slopeAt σ v)).sum := by
    have hzero : ((p.avoiding v).map (·.slopeAt σ v)).sum = 0 := by
      refine List.sum_eq_zero fun x hx => ?_
      obtain ⟨m, hm, rfl⟩ := List.mem_map.1 hx
      refine Monomial.slopeAt_of_notMem σ fun hv => ?_
      simpa [Monomial.contains_iff.2 hv] using (List.mem_filter.1 hm).2
    have h := sum_mentioning_add_sum_avoiding (·.slopeAt σ v) v p
    rw [hzero, add_zero] at h
    exact h.symm
  have hvalue : p.slopeAt σ v * σ v = ((p.mentioning v).map (·.eval σ)).sum := by
    rw [hslope, ← List.sum_map_mul_right]
    refine congrArg List.sum (List.map_congr_left fun m hm => ?_)
    exact Monomial.slopeAt_mul σ (Monomial.contains_iff.1 (List.mem_filter.1 hm).2)
  rw [hvalue, ← evalTerms_eq_sum, add_comm]
  exact evalTerms_avoiding_add_mentioning σ v p

theorem map_avoiding_congr {f g : Monomial → Int} {v : Variable} (p : Polynomial)
    (h : ∀ m : Monomial, v ∉ m.vars → f m = g m) :
    ((p.avoiding v).map f).sum = ((p.avoiding v).map g).sum := by
  refine congrArg List.sum (List.map_congr_left fun m hm => h m fun hv => ?_)
  simpa [Monomial.contains_iff.2 hv] using (List.mem_filter.1 hm).2

/-- Every term has factors, all of them variables below a bound. -/
def Among (n : Nat) (p : Polynomial) : Prop :=
  ∀ m ∈ p.monomials, m.vars ≠ [] ∧ ∀ v ∈ m.vars, v < n

theorem Over.among {n : Nat} {p : Polynomial} (h : p.Over n) : p.Among n := by
  intro m hm
  obtain ⟨hempty, hvars⟩ := h m hm
  refine ⟨fun hnil => ?_, hvars⟩
  simp [Monomial.isEmpty, hnil] at hempty

/-- The magnitude of a sum at the given magnitudes of the variables. -/
def size (bound : Variable → Int) (p : Polynomial) : Int :=
  (p.monomials.map (·.size bound)).sum

variable {n : Nat} {bound σ : Variable → Int} {p : Polynomial}

theorem size_nonneg (h : Within n bound σ) (hp : p.Among n) : 0 ≤ p.size bound := by
  apply List.sum_nonneg
  intro x hx
  obtain ⟨m, hm, rfl⟩ := List.mem_map.1 hx
  exact Monomial.size_nonneg h (hp m hm).2

theorem abs_sum_le_sum_abs (f : Monomial → Int) (ms : List Monomial) :
    |(ms.map f).sum| ≤ (ms.map fun m => |f m|).sum := by
  induction ms with
  | nil => simp
  | cons m ms ih =>
    simp only [List.map_cons, List.sum_cons]
    exact (abs_add_le _ _).trans (add_le_add_right ih _)

/-- Terms that are small one by one are small in every partial sum. -/
theorem sum_abs_le_size {f : Monomial → Int} (hp : p.Among n) (h : Within n bound σ)
    (hf : ∀ m ∈ p.monomials, |f m| ≤ m.size bound) {ms : List Monomial}
    (hms : ms.Sublist p.monomials) : (ms.map fun m => |f m|).sum ≤ p.size bound := by
  calc
    (ms.map fun m => |f m|).sum ≤ (ms.map (·.size bound)).sum :=
      List.sum_le_sum fun m hm => hf m (hms.subset hm)
    _ ≤ p.size bound := by
      refine (hms.map (·.size bound)).sum_le_sum fun x hx => ?_
      obtain ⟨m, hm, rfl⟩ := List.mem_map.1 hx
      exact Monomial.size_nonneg h (hp m hm).2

theorem sum_abs_eval_le (hp : p.Among n) (h : Within n bound σ) {ms : List Monomial}
    (hms : ms.Sublist p.monomials) : (ms.map fun m => |m.eval σ|).sum ≤ p.size bound :=
  sum_abs_le_size hp h (fun m hm => Monomial.abs_eval_le h (hp m hm).2) hms

theorem sum_abs_slopeAt_le (hp : p.Among n) (h : Within n bound σ) (v : Variable)
    {ms : List Monomial} (hms : ms.Sublist p.monomials) :
    (ms.map fun m => |m.slopeAt σ v|).sum ≤ p.size bound :=
  sum_abs_le_size hp h (fun m hm => Monomial.abs_slopeAt_le h (hp m hm).2 v) hms

theorem abs_evalTerms_le (hp : p.Among n) (h : Within n bound σ) {ms : List Monomial}
    (hms : ms.Sublist p.monomials) : |evalTerms σ ms| ≤ p.size bound := by
  rw [evalTerms_eq_sum]
  exact (abs_sum_le_sum_abs _ _).trans (sum_abs_eval_le hp h hms)

theorem abs_slopeTerms_le (hp : p.Among n) (h : Within n bound σ) (v : Variable)
    {ms : List Monomial} (hms : ms.Sublist p.monomials) : |slopeTerms σ v ms| ≤ p.size bound :=
  (abs_sum_le_sum_abs _ _).trans (sum_abs_slopeAt_le hp h v hms)

theorem abs_eval_le (hp : p.Among n) (h : Within n bound σ) : |p.eval σ| ≤ p.size bound :=
  abs_evalTerms_le hp h (List.Sublist.refl _)

theorem abs_slopeAt_mul_le (hp : p.Among n) (h : Within n bound σ) {v : Variable} (hv : v < n) :
    |p.slopeAt σ v| * bound v ≤ p.size bound := by
  have hbound : 0 ≤ bound v := zero_le_one.trans (h.one_le v hv)
  calc
    |p.slopeAt σ v| * bound v ≤ (p.monomials.map fun m => |m.slopeAt σ v|).sum * bound v :=
      mul_le_mul_of_nonneg_right (abs_sum_le_sum_abs _ _) hbound
    _ = (p.monomials.map fun m => |m.slopeAt σ v| * bound v).sum :=
      (List.sum_map_mul_right ..).symm
    _ ≤ p.size bound :=
      List.sum_le_sum fun m hm => Monomial.abs_slopeAt_mul_le h (hp m hm).2 hv

variable {values : Array Int}

/-- Sums over some of the terms are exact, whatever is added up of each term. -/
theorem accumulate_eq_sum {value : Monomial → Checked Int} {f : Monomial → Int}
    {ms : List Monomial} (hms : ms.Sublist p.monomials)
    (hvalue : ∀ m ∈ p.monomials, |f m| ≤ Wide.greatest → value m = .ok (f m))
    (hsum : ∀ {ns : List Monomial}, ns.Sublist p.monomials →
      (ns.map fun m => |f m|).sum ≤ p.size bound)
    (hsize : p.size bound ≤ Wide.greatest) : accumulate value ms = .ok (ms.map f).sum := by
  refine accumulate_exact (fun m hm => ?_) ((hsum hms).trans hsize)
  have hone := hsum (List.singleton_sublist.2 (hms.subset hm))
  simp only [List.map_cons, List.map_nil, List.sum_cons, List.sum_nil, add_zero] at hone
  exact hvalue m (hms.subset hm) (hone.trans hsize)

theorem evaluate_exact (hp : p.Among values.size) (h : Within values.size bound (valuation values))
    (hsize : p.size bound ≤ Wide.greatest) :
    p.evaluate values = .ok (p.eval (valuation values)) := by
  rw [eval, evalTerms_eq_sum]
  exact accumulate_eq_sum (List.Sublist.refl _)
    (fun m hm => Monomial.evaluate_exact (hp m hm).1 (hp m hm).2) (sum_abs_eval_le hp h) hsize

theorem evaluateWithout_exact (hp : p.Among values.size)
    (h : Within values.size bound (valuation values)) (hsize : p.size bound ≤ Wide.greatest)
    (v : Variable) :
    p.evaluateWithout v values = .ok (evalTerms (valuation values) (p.avoiding v)) := by
  rw [evalTerms_eq_sum]
  exact accumulate_eq_sum List.filter_sublist
    (fun m hm => Monomial.evaluate_exact (hp m hm).1 (hp m hm).2) (sum_abs_eval_le hp h) hsize

theorem slope_exact (hp : p.Among values.size) (h : Within values.size bound (valuation values))
    (hsize : p.size bound ≤ Wide.greatest) (v : Variable) :
    p.slope v values = .ok (p.slopeAt (valuation values) v) :=
  accumulate_eq_sum (List.Sublist.refl _)
    (fun m hm => Monomial.slope_exact (hp m hm).2 v) (sum_abs_slopeAt_le hp h v) hsize

section ComputedBound

variable {read : Variable → Checked Int}

/-- Products of positive factors only grow, so they fit one after another exactly when the
last one does. -/
theorem foldlM_mul_eq {vs : List Variable} (hread : ∀ v ∈ vs, read v = .ok (bound v))
    (hone : ∀ v ∈ vs, 1 ≤ bound v) {x : Int} (hx : 0 ≤ x) (hfirst : vs = [] → Wide.Fits x) :
    vs.foldlM (fun term v => do Wide.mul term (← read v)) x =
      Wide.exact (x * Monomial.factorValue bound vs) := by
  induction vs generalizing x with
  | nil =>
    rw [Monomial.factorValue, mul_one, Wide.exact_of_fits (hfirst rfl)]
    rfl
  | cons v vs ih =>
    have hv : 1 ≤ bound v := hone v List.mem_cons_self
    have hrest : ∀ w ∈ vs, 1 ≤ bound w := fun w hw => hone w (List.mem_cons_of_mem v hw)
    have hmul : 0 ≤ x * bound v := mul_nonneg hx (zero_le_one.trans hv)
    rw [List.foldlM_cons, hread v List.mem_cons_self, Monomial.factorValue, ← mul_assoc]
    change (Wide.exact (x * bound v) >>= fun y =>
      vs.foldlM (fun term v => do Wide.mul term (← read v)) y) = _
    by_cases hfits : Wide.Fits (x * bound v)
    · rw [Wide.exact_of_fits hfits]
      exact ih (fun w hw => hread w (List.mem_cons_of_mem v hw)) hrest hmul fun _ => hfits
    · have hgrows : x * bound v ≤ x * bound v * Monomial.factorValue bound vs :=
        le_mul_of_one_le_right hmul (Monomial.one_le_factorValue hrest)
      rw [Wide.exact_of_not_fits hfits, Wide.exact_of_not_fits (Wide.not_fits_mono hmul hgrows hfits)]
      rfl

/-- The bound of a term is its magnitude, unless that is beyond 128 bits. -/
theorem termBound_eq {m : Monomial} (hne : m.vars ≠ [])
    (hread : ∀ v ∈ m.vars, read v = .ok (bound v)) (hone : ∀ v ∈ m.vars, 1 ≤ bound v) :
    termBound read m = Wide.exact (m.size bound) := by
  rw [Monomial.size, ← Int.natCast_natAbs]
  exact foldlM_mul_eq hread hone (Int.natCast_nonneg _) fun hnil => absurd hnil hne

theorem foldlM_add_eq {value : Monomial → Checked Int} {size : Monomial → Int}
    {ms : List Monomial} (hvalue : ∀ m ∈ ms, value m = Wide.exact (size m))
    (hnonneg : ∀ m ∈ ms, 0 ≤ size m) {x : Int} (hx : 0 ≤ x) (hfits : Wide.Fits x) :
    ms.foldlM (fun total m => do Wide.add total (← value m)) x =
      Wide.exact (x + (ms.map size).sum) := by
  induction ms generalizing x with
  | nil =>
    rw [List.map_nil, List.sum_nil, add_zero, Wide.exact_of_fits hfits]
    rfl
  | cons m ms ih =>
    have hm : 0 ≤ size m := hnonneg m List.mem_cons_self
    have hsum : 0 ≤ (ms.map size).sum := by
      apply List.sum_nonneg
      intro y hy
      obtain ⟨k, hk, rfl⟩ := List.mem_map.1 hy
      exact hnonneg k (List.mem_cons_of_mem m hk)
    rw [List.foldlM_cons, hvalue m List.mem_cons_self, List.map_cons, List.sum_cons, ← add_assoc]
    by_cases hterm : Wide.Fits (size m)
    · rw [Wide.exact_of_fits hterm]
      change (Wide.exact (x + size m) >>= fun y =>
        ms.foldlM (fun total m => do Wide.add total (← value m)) y) = _
      by_cases htotal : Wide.Fits (x + size m)
      · rw [Wide.exact_of_fits htotal]
        exact ih (fun k hk => hvalue k (List.mem_cons_of_mem m hk))
          (fun k hk => hnonneg k (List.mem_cons_of_mem m hk)) (add_nonneg hx hm) htotal
      · have hgrows : x + size m ≤ x + size m + (ms.map size).sum := le_add_of_nonneg_right hsum
        rw [Wide.exact_of_not_fits htotal,
          Wide.exact_of_not_fits (Wide.not_fits_mono (add_nonneg hx hm) hgrows htotal)]
        rfl
    · have hgrows : size m ≤ x + size m + (ms.map size).sum := by omega
      rw [Wide.exact_of_not_fits hterm, Wide.exact_of_not_fits (Wide.not_fits_mono hm hgrows hterm)]
      rfl

/-- The computed bound is the magnitude at the bounds of the variables, unless that is
beyond 128 bits. -/
theorem magnitudeBound_eq (hp : p.Among n) (hread : ∀ v < n, read v = .ok (bound v))
    (hone : ∀ v < n, 1 ≤ bound v) : p.magnitudeBound read = Wide.exact (p.size bound) := by
  have hterm : ∀ m ∈ p.monomials, termBound read m = Wide.exact (m.size bound) := fun m hm =>
    termBound_eq (hp m hm).1 (fun v hv => hread v ((hp m hm).2 v hv))
      fun v hv => hone v ((hp m hm).2 v hv)
  have hnonneg : ∀ m ∈ p.monomials, 0 ≤ m.size bound := fun m hm =>
    Monomial.size_nonneg (.self hone) (hp m hm).2
  rw [← zero_add (p.size bound)]
  exact foldlM_add_eq hterm hnonneg le_rfl (by decide)

end ComputedBound

end Polynomial
end NonlinearInteger
