import NonlinearInteger.Allocation.Instance
import NonlinearInteger.Proofs.Rows
import NonlinearInteger.Proofs.Values

/-!
# Totals and cross products

A total is a sum of variables. The difference of two products of totals consists of
products of two distinct variables when no variable is in both totals of a product. A
term that is in both products cancels, and all others have coefficient one or minus one.
-/

namespace NonlinearInteger.Allocation

open NonlinearInteger.Polynomial

variable {σ : Variable → Int} {vs ws : List Variable}

theorem merged_total (vs : List Variable) : (total vs).Merged := merged_ofMonomials _

theorem eval_total (σ : Variable → Int) (vs : List Variable) :
    (total vs).eval σ = (vs.map σ).sum := by
  have hvars : ∀ m ∈ vs.map fun v => Monomial.linear v 1, m.vars ≠ [] := by
    intro m hm
    obtain ⟨v, -, rfl⟩ := List.mem_map.1 hm
    exact List.cons_ne_nil v []
  rw [total, eval_ofMonomials hvars, evalTerms_eq_sum, List.map_map]
  congr 1
  refine List.map_congr_left fun v _ => ?_
  rw [Function.comp_apply, Monomial.eval_linear, one_mul]

theorem monomials_total (h : vs.Nodup) :
    (total vs).monomials = vs.map fun v => .linear v 1 := by
  refine mergeTerms_eq ?_ ?_
  · intro m hm
    obtain ⟨v, -, rfl⟩ := List.mem_map.1 hm
    rfl
  · refine List.pairwise_map.2 (h.imp fun {v w} hvw heq => ?_)
    exact hvw (List.cons.inj heq).1

theorem isLinear_total (h : vs.Nodup) : (total vs).isLinear = true := by
  rw [isLinear, (total vs).linear_eq rfl, monomials_total h, List.all_map]
  exact List.all_eq_true.2 fun _ _ => rfl

theorem contains_total (h : vs.Nodup) {v : Variable} :
    (total vs).contains v = true ↔ v ∈ vs := by
  rw [contains_iff, monomials_total h]
  constructor
  · rintro ⟨m, hm, hv⟩
    obtain ⟨w, hw, rfl⟩ := List.mem_map.1 hm
    exact List.mem_singleton.1 hv ▸ hw
  · intro hv
    exact ⟨.linear v 1, List.mem_map_of_mem hv, List.mem_singleton.2 rfl⟩

theorem over_total {n : Nat} (h : ∀ v ∈ vs, v < n) : (total vs).Over n := by
  refine over_ofMonomials fun m hm w hw => ?_
  obtain ⟨v, hv, rfl⟩ := List.mem_map.1 hm
  exact List.mem_singleton.1 hw ▸ h v hv

/-- Two lists of variables without repeats, and without one in common. -/
structure Apart (vs ws : List Variable) : Prop where
  left : vs.Nodup
  right : ws.Nodup
  disjoint : vs.Disjoint ws

/-- The product of two variables. -/
def pair (v w : Variable) : Monomial := (Monomial.linear v 1).product (.linear w 1)

def crossTerms (vs ws : List Variable) : List Monomial := vs.flatMap fun v => ws.map (pair v)

theorem perm_pair (v w : Variable) : (pair v w).vars.Perm [v, w] := sortFactors_perm [v, w]

theorem vars_pair {v w : Variable} (h : v ≠ w) : ∃ a b, a < b ∧ (pair v w).vars = [a, b] := by
  have hsorted : (pair v w).vars = if v ≤ w then [v, w] else [w, v] := rfl
  rw [hsorted]
  split
  · exact ⟨v, w, lt_of_le_of_ne ‹_› h, rfl⟩
  · exact ⟨w, v, lt_of_not_ge ‹_›, rfl⟩

theorem isEmpty_pair (v w : Variable) : (pair v w).isEmpty = false := by
  have hne : (pair v w).vars ≠ [] := by
    intro hnil
    have hlength := (perm_pair v w).length_eq
    rw [hnil] at hlength
    cases hlength
  have hcoef : (pair v w).coef = 1 := rfl
  simp [Monomial.isEmpty, hne, hcoef]

theorem mem_crossTerms {m : Monomial} :
    m ∈ crossTerms vs ws ↔ ∃ v ∈ vs, ∃ w ∈ ws, pair v w = m := by
  simp [crossTerms, List.mem_flatMap]

theorem coefficient_of_ones {vars : List Variable} {ms : List Monomial} (hdistinct : Distinct ms)
    (hone : ∀ m ∈ ms, m.coef = 1) : coefficient vars ms = 0 ∨ coefficient vars ms = 1 := by
  by_cases h : ∃ m ∈ ms, m.vars = vars
  · obtain ⟨m, hm, rfl⟩ := h
    exact .inr ((coef_eq_coefficient hdistinct hm).symm.trans (hone m hm))
  · exact .inl (coefficient_eq_zero fun m hm hvars => h ⟨m, hm, hvars⟩)

namespace Apart

theorem distinct_crossTerms (h : Apart vs ws) : Distinct (crossTerms vs ws) := by
  rw [crossTerms, Distinct, List.pairwise_flatMap]
  constructor
  · intro v _
    refine List.pairwise_map.2 (h.right.imp fun {w x} hwx heq => ?_)
    have hperm : [v, w].Perm [v, x] := (perm_pair v w).symm.trans (heq ▸ perm_pair v x)
    exact hwx (List.singleton_perm_singleton.1 ((List.perm_cons v).1 hperm))
  · refine h.left.imp_of_mem fun {v u} hv _ hvu m hm n hn heq => ?_
    obtain ⟨w, -, rfl⟩ := List.mem_map.1 hm
    obtain ⟨x, hx, rfl⟩ := List.mem_map.1 hn
    have hperm : [v, w].Perm [u, x] := (perm_pair v w).symm.trans (heq ▸ perm_pair u x)
    rcases List.mem_pair.1 (hperm.subset List.mem_cons_self) with hsame | hsame
    · exact hvu hsame
    · exact h.disjoint hv (hsame ▸ hx)

/-- The products of the terms are the terms of the product. -/
theorem monomials_product (h : Apart vs ws) :
    ((total vs).product (total ws)).monomials = crossTerms vs ws := by
  have hproduct : (total vs).product (total ws) = ofMonomials (crossTerms vs ws) := by
    rw [Polynomial.product, monomials_total h.left, monomials_total h.right, List.flatMap_map]
    simp only [List.map_map]
    rfl
  rw [hproduct]
  refine mergeTerms_eq ?_ h.distinct_crossTerms
  intro m hm
  obtain ⟨v, -, w, -, rfl⟩ := mem_crossTerms.1 hm
  exact isEmpty_pair v w

theorem coefficient_crossTerms (h : Apart vs ws) (vars : List Variable) :
    coefficient vars (crossTerms vs ws) = 0 ∨ coefficient vars (crossTerms vs ws) = 1 := by
  refine coefficient_of_ones h.distinct_crossTerms fun m hm => ?_
  obtain ⟨v, -, w, -, rfl⟩ := mem_crossTerms.1 hm
  rfl

theorem vars_of_mem (h : Apart vs ws) {m : Monomial} (hm : m ∈ crossTerms vs ws) :
    ∃ a b, a < b ∧ m.vars = [a, b] := by
  obtain ⟨v, hv, w, hw, rfl⟩ := mem_crossTerms.1 hm
  refine vars_pair fun heq => ?_
  subst heq
  exact h.disjoint hv hw

end Apart

/-- The product of two distinct variables, added or taken away. -/
structure IsExchange (m : Monomial) : Prop where
  vars : ∃ a b, a < b ∧ m.vars = [a, b]
  coef : m.coef = 1 ∨ m.coef = -1

/-- What does not cancel in a difference of products. -/
theorem isExchange_of_mem_difference {vs' ws' : List Variable} (h : Apart vs ws)
    (h' : Apart vs' ws') {m : Monomial} (hm : m ∈ (((total vs).product (total ws)).difference
      ((total vs').product (total ws'))).monomials) : IsExchange m := by
  change m ∈ mergeTerms (_ ++ _) at hm
  rw [h.monomials_product, h'.monomials_product] at hm
  obtain ⟨hempty, k, hk, hvars⟩ := of_mem_mergeTerms hm
  constructor
  · rw [← hvars]
    rcases List.mem_append.1 hk with hk | hk
    · exact h.vars_of_mem hk
    · obtain ⟨n, hn, rfl⟩ := List.mem_map.1 hk
      exact (h'.vars_of_mem hn : ∃ a b, a < b ∧ n.vars = [a, b])
  · have hcoef := coef_of_mem_mergeTerms hm
    rw [coefficient_append, coefficient_map_negate] at hcoef
    have hne : m.coef ≠ 0 := by
      simp only [Monomial.isEmpty, Bool.or_eq_false_iff, beq_eq_false_iff_ne] at hempty
      exact hempty.2
    -- Each product has the term once or not at all, and a term in both has cancelled.
    have hleft := h.coefficient_crossTerms m.vars
    have hright := h'.coefficient_crossTerms m.vars
    omega

theorem eval_cross (σ : Variable → Int) (vs ws vs' ws' : List Variable) :
    (((total vs).product (total ws)).difference ((total vs').product (total ws'))).eval σ =
      (vs.map σ).sum * (ws.map σ).sum - (vs'.map σ).sum * (ws'.map σ).sum := by
  rw [eval_difference (merged_product _ _) (merged_product _ _), eval_product (merged_total _),
    eval_product (merged_total _), eval_total, eval_total, eval_total, eval_total]

end NonlinearInteger.Allocation
