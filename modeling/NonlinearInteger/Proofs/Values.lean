import NonlinearInteger.Proofs.Renaming
import NonlinearInteger.Proofs.Magnitude

/-!
# Values of sums and products

Merging keeps the value of terms with factors and the coefficient of every product of
variables. So the arithmetic of normal forms is that of their values.
-/

namespace NonlinearInteger.Polynomial

variable {σ : Variable → Int} {p q : Polynomial}

theorem evalTerms_filter {ms : List Monomial} {keep : Monomial → Bool}
    (h : ∀ m ∈ ms, keep m = false → m.eval σ = 0) :
    evalTerms σ (ms.filter keep) = evalTerms σ ms := by
  induction ms with
  | nil => rfl
  | cons m ms ih =>
    have hrest := ih fun n hn => h n (List.mem_cons_of_mem m hn)
    cases hkeep : keep m with
    | true => rw [List.filter_cons_of_pos hkeep, evalTerms, evalTerms, hrest]
    | false =>
      have hzero := h m List.mem_cons_self hkeep
      rw [List.filter_cons_of_neg (by simp [hkeep]), evalTerms, hrest, hzero, Int.zero_add]

theorem evalTerms_foldl_absorb (σ : Variable → Int) (ms merged : List Monomial) :
    evalTerms σ (ms.foldl (fun merged m => absorb m merged) merged) =
      evalTerms σ merged + evalTerms σ ms := by
  induction ms generalizing merged with
  | nil => simp [evalTerms]
  | cons m ms ih =>
    rw [List.foldl_cons, ih, evalTerms_absorb, evalTerms]
    ring

/-- Merging keeps the value: what it drops are zeros. -/
theorem evalTerms_mergeTerms {ms : List Monomial} (h : ∀ m ∈ ms, m.vars ≠ []) :
    evalTerms σ (mergeTerms ms) = evalTerms σ ms := by
  have hvars : ms.filter (fun m => !m.vars.isEmpty) = ms :=
    List.filter_eq_self.2 fun m hm => by simp [h m hm]
  have hdropped : ∀ n ∈ ms.foldl (fun merged m => absorb m merged) [],
      (!n.isEmpty) = false → n.eval σ = 0 := by
    intro n hn hempty
    obtain ⟨m, hm, hsame⟩ := vars_of_mem_foldl_absorb hn
    have hne : n.vars ≠ [] := hsame ▸ h m (by simpa using hm)
    have hcoef : n.coef = 0 := by simpa [Monomial.isEmpty, hne] using hempty
    rw [Monomial.eval, hcoef, Int.zero_mul]
  rw [mergeTerms, hvars, evalTerms_filter hdropped, evalTerms_foldl_absorb, evalTerms, Int.zero_add]

theorem coefficient_filter {vars : List Variable} {ms : List Monomial} {keep : Monomial → Bool}
    (h : ∀ m ∈ ms, m.vars = vars → keep m = false → m.coef = 0) :
    coefficient vars (ms.filter keep) = coefficient vars ms := by
  induction ms with
  | nil => rfl
  | cons m ms ih =>
    have hrest := ih fun n hn => h n (List.mem_cons_of_mem m hn)
    cases hkeep : keep m with
    | true => rw [List.filter_cons_of_pos hkeep, coefficient, coefficient, hrest]
    | false =>
      have hzero : (if m.vars = vars then m.coef else 0) = 0 := by
        split
        · exact h m List.mem_cons_self ‹_› hkeep
        · rfl
      rw [List.filter_cons_of_neg (by simp [hkeep]), coefficient, hrest, hzero, Int.zero_add]

theorem coefficient_foldl_absorb (vars : List Variable) (ms merged : List Monomial) :
    coefficient vars (ms.foldl (fun merged m => absorb m merged) merged) =
      coefficient vars merged + coefficient vars ms := by
  induction ms generalizing merged with
  | nil => simp [coefficient]
  | cons m ms ih =>
    rw [List.foldl_cons, ih, coefficient_absorb, coefficient, coefficient]
    ring

theorem coefficient_map_negate (vars : List Variable) (ms : List Monomial) :
    coefficient vars (ms.map Monomial.negate) = -coefficient vars ms := by
  induction ms with
  | nil => rfl
  | cons m ms ih =>
    rw [List.map_cons, coefficient, coefficient, ih, Int.neg_add]
    congr 1
    change (if m.vars = vars then -m.coef else 0) = _
    split <;> simp

/-- Merging keeps the coefficient of every product. -/
theorem coefficient_mergeTerms {vars : List Variable} (hvars : vars ≠ []) (ms : List Monomial) :
    coefficient vars (mergeTerms ms) = coefficient vars ms := by
  have hproper : ∀ m ∈ ms, m.vars = vars → (!m.vars.isEmpty) = false → m.coef = 0 := by
    intro m _ hsame hempty
    simp [hsame, hvars] at hempty
  have hdropped : ∀ n ∈ (ms.filter fun m => !m.vars.isEmpty).foldl
      (fun merged m => absorb m merged) [], n.vars = vars → (!n.isEmpty) = false → n.coef = 0 := by
    intro n _ hsame hempty
    simpa [Monomial.isEmpty, hsame, hvars] using hempty
  rw [mergeTerms, coefficient_filter hdropped, coefficient_foldl_absorb, coefficient_filter hproper,
    coefficient, Int.zero_add]

theorem Merged.vars_ne_nil (h : p.Merged) {m : Monomial} (hm : m ∈ p.monomials) : m.vars ≠ [] := by
  have hempty := h.proper m hm
  simp only [Monomial.isEmpty, Bool.or_eq_false_iff] at hempty
  simpa using hempty.1

theorem merged_ofMonomials (ms : List Monomial) : (ofMonomials ms).Merged :=
  (monomials_ofTerms ms) ▸ merged_normalize (ofTerms ms)

theorem coef_of_mem_mergeTerms {m : Monomial} {ms : List Monomial} (h : m ∈ mergeTerms ms) :
    m.coef = coefficient m.vars ms := by
  have hmerged := merged_ofMonomials ms
  rw [coef_eq_coefficient hmerged.distinct h, ← coefficient_mergeTerms (hmerged.vars_ne_nil h) ms]
  rfl

variable {n : Nat}

theorem over_ofMonomials {ms : List Monomial} (h : ∀ m ∈ ms, ∀ v ∈ m.vars, v < n) :
    (ofMonomials ms).Over n := by
  intro m hm
  obtain ⟨hempty, k, hk, hvars⟩ := of_mem_mergeTerms hm
  exact ⟨hempty, hvars ▸ h k hk⟩

theorem over_negate (hp : p.Over n) : p.negate.Over n := by
  refine over_ofMonomials fun m hm => ?_
  obtain ⟨k, hk, rfl⟩ := List.mem_map.1 hm
  exact (hp k hk).2

theorem over_difference (hp : p.Over n) (hq : q.Over n) : (p.difference q).Over n := by
  refine over_ofMonomials fun m hm => ?_
  rcases List.mem_append.1 hm with hm | hm
  · exact (hp m hm).2
  · obtain ⟨k, hk, rfl⟩ := List.mem_map.1 hm
    exact (hq k hk).2

theorem over_product (hp : p.Over n) (hq : q.Over n) : (p.product q).Over n := by
  refine over_ofMonomials fun m hm v hv => ?_
  obtain ⟨k, hk, hm⟩ := List.mem_flatMap.1 hm
  obtain ⟨l, hl, rfl⟩ := List.mem_map.1 hm
  rcases Monomial.mem_vars_product.1 hv with hv | hv
  · exact (hp k hk).2 v hv
  · exact (hq l hl).2 v hv

theorem merged_product (p q : Polynomial) : (p.product q).Merged := merged_ofMonomials _

theorem merged_difference (p q : Polynomial) : (p.difference q).Merged := merged_ofMonomials _

theorem merged_negate (p : Polynomial) : p.negate.Merged := merged_ofMonomials _

theorem eval_ofMonomials {ms : List Monomial} (h : ∀ m ∈ ms, m.vars ≠ []) :
    (ofMonomials ms).eval σ = evalTerms σ ms :=
  evalTerms_mergeTerms h

theorem evalTerms_product (σ : Variable → Int) (ms ns : List Monomial) :
    evalTerms σ (ms.flatMap fun m => ns.map m.product) = evalTerms σ ms * evalTerms σ ns := by
  have hrow : ∀ (m : Monomial) (ks : List Monomial),
      evalTerms σ (ks.map m.product) = m.eval σ * evalTerms σ ks := by
    intro m ks
    induction ks with
    | nil => simp [evalTerms]
    | cons k ks ih =>
      rw [List.map_cons, evalTerms, evalTerms, ih, Monomial.eval_product]
      ring
  induction ms with
  | nil => simp [evalTerms]
  | cons m ms ih =>
    rw [List.flatMap_cons, evalTerms_append, hrow, ih, evalTerms]
    ring

theorem eval_sum (hp : p.Merged) (hq : q.Merged) : (p.sum q).eval σ = p.eval σ + q.eval σ := by
  have hvars : ∀ m ∈ p.monomials ++ q.monomials, m.vars ≠ [] := fun m hm =>
    (List.mem_append.1 hm).elim hp.vars_ne_nil hq.vars_ne_nil
  rw [sum, eval_ofMonomials hvars, evalTerms_append, eval, eval]

theorem vars_ne_nil_of_mem_negated (hp : p.Merged) {m : Monomial}
    (hm : m ∈ p.monomials.map Monomial.negate) : m.vars ≠ [] := by
  obtain ⟨n, hn, rfl⟩ := List.mem_map.1 hm
  exact (hp.vars_ne_nil hn : n.vars ≠ [])

theorem eval_difference (hp : p.Merged) (hq : q.Merged) :
    (p.difference q).eval σ = p.eval σ - q.eval σ := by
  have hvars : ∀ m ∈ p.monomials ++ q.monomials.map Monomial.negate, m.vars ≠ [] := fun m hm =>
    (List.mem_append.1 hm).elim hp.vars_ne_nil (vars_ne_nil_of_mem_negated hq)
  rw [difference, eval_ofMonomials hvars, evalTerms_append, evalTerms_map_negate, eval, eval,
    Int.sub_eq_add_neg]

theorem eval_negate (hp : p.Merged) : p.negate.eval σ = -p.eval σ := by
  rw [negate, eval_ofMonomials fun m => vars_ne_nil_of_mem_negated hp, evalTerms_map_negate, eval]

theorem eval_product (hp : p.Merged) : (p.product q).eval σ = p.eval σ * q.eval σ := by
  have hvars : ∀ m ∈ p.monomials.flatMap (fun m => q.monomials.map m.product), m.vars ≠ [] := by
    intro k hk
    obtain ⟨m, hm, hk⟩ := List.mem_flatMap.1 hk
    obtain ⟨n, -, rfl⟩ := List.mem_map.1 hk
    have hlength : (m.product n).vars.length = m.vars.length + n.vars.length := by
      rw [← List.length_append]
      exact (sortFactors_perm (m.vars ++ n.vars)).length_eq
    have hpos := List.length_pos_iff.2 (hp.vars_ne_nil hm)
    exact List.length_pos_iff.1 (by omega)
  rw [product, eval_ofMonomials hvars, evalTerms_product, eval, eval]

end NonlinearInteger.Polynomial
