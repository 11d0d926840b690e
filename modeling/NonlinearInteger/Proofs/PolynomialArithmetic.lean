import NonlinearInteger.Proofs.IndexedMerge
import NonlinearInteger.Proofs.Values

/-!
# The arithmetic of normal forms

A polynomial is normal when merging its terms changes nothing. Sums, differences, negations and
products are normal whatever they are made of, and of normal polynomials they have the values
that their names say. Coefficients are unbounded here, so this holds as long as none of them
leaves its range.
-/

namespace NonlinearInteger.Polynomial

variable {p q : Polynomial}

/-- What is known of a normal form: each product is there once, with its factors in order,
without constants and zeros, and it is linear when every product is a single variable. To merge
its terms again changes nothing, by search or through an index. -/
structure Normal (p : Polynomial) : Prop where
  merged : p.Merged
  normalize_eq : p.normalize = p
  mergeIndexed_eq : mergeIndexed p.monomials = p.monomials
  sorted : ∀ m ∈ p.monomials, m.vars.Pairwise (· ≤ ·)
  linear_iff : p.isLinear = true ↔ ∀ m ∈ p.monomials, m.vars.length = 1

theorem merged_iff_normalize_eq : p.Merged ↔ p.normalize = p := by
  constructor
  · exact Merged.normalize_eq
  · exact fun h => h ▸ merged_normalize p

/-- Without zeros a term is linear when it is a single variable. -/
theorem Merged.isLinear_iff (h : p.Merged) :
    p.isLinear = true ↔ ∀ m ∈ p.monomials, m.vars.length = 1 := by
  rw [isLinear, p.linear_eq h.normalized, List.all_eq_true]
  apply forall₂_congr
  intro m hm
  have hcoef : m.coef ≠ 0 := by
    have hempty := h.proper m hm
    simp only [Monomial.isEmpty, Bool.or_eq_false_iff, beq_eq_false_iff_ne] at hempty
    exact hempty.2
  simp [Monomial.isLinear, hcoef]

theorem Merged.normal (h : p.Merged) : p.Normal where
  merged := h
  normalize_eq := h.normalize_eq
  mergeIndexed_eq := (Polynomial.mergeIndexed_eq _).trans (congrArg monomials h.normalize_eq)
  sorted := fun m _ => m.sorted
  linear_iff := h.isLinear_iff

/-- Every operation on two polynomials leads to a normal form with the right values. -/
structure Calculates (p q : Polynomial) : Prop where
  sum : (p.sum q).Normal ∧ ∀ σ, (p.sum q).eval σ = p.eval σ + q.eval σ
  difference : (p.difference q).Normal ∧ ∀ σ, (p.difference q).eval σ = p.eval σ - q.eval σ
  negate : p.negate.Normal ∧ ∀ σ, p.negate.eval σ = -p.eval σ
  product : (p.product q).Normal ∧ ∀ σ, (p.product q).eval σ = p.eval σ * q.eval σ

/-- The arithmetic of normal polynomials is that of their values. -/
theorem calculates_of_normalize_eq (hp : p.normalize = p) (hq : q.normalize = q) :
    Calculates p q := by
  have hp := merged_iff_normalize_eq.2 hp
  have hq := merged_iff_normalize_eq.2 hq
  exact {
    sum := ⟨(merged_ofMonomials _).normal, fun σ => eval_sum hp hq⟩
    difference := ⟨(merged_difference p q).normal, fun σ => eval_difference hp hq⟩
    negate := ⟨(merged_negate p).normal, fun σ => eval_negate hp⟩
    product := ⟨(merged_product p q).normal, fun σ => eval_product hp⟩ }

/-- The polynomial of one variable. -/
def single (v : Variable) : Polynomial := ofMonomial (.linear v 1)

theorem calculates_of_binomials :
    ((single 0).sum (single 1)).normalize = (single 0).sum (single 1) ∧
      ((single 0).difference (single 1)).normalize = (single 0).difference (single 1) ∧
        Calculates ((single 0).sum (single 1)) ((single 0).difference (single 1)) := by
  have hsum : ((single 0).sum (single 1)).normalize = (single 0).sum (single 1) := by decide
  have hdifference : ((single 0).difference (single 1)).normalize =
      (single 0).difference (single 1) := by decide
  exact ⟨hsum, hdifference, calculates_of_normalize_eq hsum hdifference⟩

/-- In `(x + y) * (x - y)` the mixed terms cancel. -/
example : ((single 0).sum (single 1)).product ((single 0).difference (single 1)) =
    ((single 0).product (single 0)).difference ((single 1).product (single 1)) := by
  decide

end NonlinearInteger.Polynomial
