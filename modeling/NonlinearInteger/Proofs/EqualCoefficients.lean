import NonlinearInteger.Proofs.CanonicalForms
import NonlinearInteger.Proofs.StrictValues
import Mathlib.Data.List.Perm.Subperm
import Mathlib.Logic.Relation

/-!
# Equality of polynomials

Comparison merges the terms on both sides and looks for each term of the first polynomial among
those of the second, which has to have as many. The products of a normal form are distinct, so
one inclusion is enough. Two polynomials compare equal exactly if no product tells them apart, and
exactly if the terms of one can be permuted, split and merged into those of the other.
-/

namespace NonlinearInteger.Polynomial

variable {vars : List Variable} {ms ns : List Monomial} {p q : Polynomial}

theorem exists_of_coefficient_ne_zero (h : coefficient vars ms ≠ 0) : ∃ m ∈ ms, m.vars = vars := by
  by_contra hnone
  exact h (coefficient_eq_zero fun m hm hsame => hnone ⟨m, hm, hsame⟩)

theorem coefficient_perm (vars : List Variable) (h : ms.Perm ns) :
    coefficient vars ms = coefficient vars ns := by
  induction h with
  | nil => rfl
  | cons m _ ih => rw [coefficient, coefficient, ih]
  | swap m n ks => simp only [coefficient, Int.add_left_comm]
  | trans _ _ ih₁ ih₂ => exact ih₁.trans ih₂

/-- Factors are kept in order, so the other lists have no coefficients. -/
theorem coefficient_of_not_sorted (h : ¬vars.Pairwise (· ≤ ·)) (ms : List Monomial) :
    coefficient vars ms = 0 :=
  coefficient_eq_zero fun m _ hvars => h (hvars ▸ m.sorted)

theorem nodup_mergeTerms (ms : List Monomial) : (mergeTerms ms).Nodup :=
  (merged_ofMonomials ms).distinct.imp fun hvars heq => hvars (congrArg Monomial.vars heq)

theorem mem_mergeTerms_iff {m : Monomial} :
    m ∈ mergeTerms ms ↔ m.vars ≠ [] ∧ m.coef = coefficient m.vars ms ∧ m.coef ≠ 0 := by
  have hmerged := merged_ofMonomials ms
  constructor
  · intro hm
    have hempty := hmerged.proper m hm
    simp only [Monomial.isEmpty, Bool.or_eq_false_iff, beq_eq_false_iff_ne] at hempty
    exact ⟨hmerged.vars_ne_nil hm, coef_of_mem_mergeTerms hm, hempty.2⟩
  · rintro ⟨hvars, hcoef, hne⟩
    rw [hcoef, ← coefficient_mergeTerms hvars] at hne
    obtain ⟨n, hn, hsame⟩ := exists_of_coefficient_ne_zero hne
    have heq : n = m := by
      apply Monomial.eq_of_perm (.of_eq hsame)
      rw [coef_of_mem_mergeTerms hn, hcoef, hsame]
    exact heq ▸ hn

/-- Distinct terms of the same number, each of them found on the other side. -/
theorem sameTerms_iff_perm :
    p.sameTerms q = true ↔ (mergeTerms p.monomials).Perm (mergeTerms q.monomials) := by
  have hfound : ∀ m : Monomial, ((mergeTerms q.monomials).any fun n =>
      m.sameFactors n && m.coef == n.coef) = true ↔ m ∈ mergeTerms q.monomials := by
    intro m
    rw [List.any_eq_true]
    constructor
    · rintro ⟨n, hn, hsame⟩
      simp only [Monomial.sameFactors, Bool.and_eq_true, beq_iff_eq] at hsame
      exact Monomial.eq_of_perm (.of_eq hsame.1) hsame.2 ▸ hn
    · exact fun hm => ⟨m, hm, by simp [Monomial.sameFactors]⟩
  simp only [sameTerms, Bool.and_eq_true, beq_iff_eq, List.all_eq_true, hfound]
  constructor
  · rintro ⟨hlength, hsubset⟩
    have hsubperm := List.subperm_of_subset (nodup_mergeTerms p.monomials) hsubset
    exact hsubperm.perm_of_length_le hlength.ge
  · exact fun hperm => ⟨hperm.length_eq, fun m hm => hperm.subset hm⟩

theorem sameTerms_iff_coefficient : p.sameTerms q = true ↔
    ∀ vars ≠ [], coefficient vars p.monomials = coefficient vars q.monomials := by
  rw [sameTerms_iff_perm]
  constructor
  · intro hperm vars hvars
    rw [← coefficient_mergeTerms hvars, coefficient_perm vars hperm, coefficient_mergeTerms hvars]
  · intro hcoefs
    apply (List.perm_ext_iff_of_nodup (nodup_mergeTerms _) (nodup_mergeTerms _)).2
    intro m
    rw [mem_mergeTerms_iff, mem_mergeTerms_iff]
    apply and_congr_right
    intro hvars
    rw [hcoefs m.vars hvars]

theorem equivalence_sameTerms : Equivalence fun p q : Polynomial => p.sameTerms q = true where
  refl _ := sameTerms_iff_perm.2 (.refl _)
  symm h := sameTerms_iff_perm.2 (sameTerms_iff_perm.1 h).symm
  trans h₁ h₂ := sameTerms_iff_perm.2 ((sameTerms_iff_perm.1 h₁).trans (sameTerms_iff_perm.1 h₂))

/-- One way to write the same terms differently. -/
inductive Regroup : List Monomial → List Monomial → Prop
  | permute {ms ns : List Monomial} : ms.Perm ns → Regroup ms ns
  | split (m : Monomial) (a b : Int) (ms : List Monomial) :
      Regroup (m.withCoef (a + b) :: ms) (m.withCoef a :: m.withCoef b :: ms)
  | drop {m : Monomial} (hm : m.isEmpty = true) (ms : List Monomial) : Regroup (m :: ms) ms

/-- The terms of one list become those of the other step by step. A split undone is a merge. -/
def Regrouped : List Monomial → List Monomial → Prop := Relation.EqvGen Regroup

namespace Regrouped

variable {ks : List Monomial}

theorem refl (ms : List Monomial) : Regrouped ms ms := Relation.EqvGen.refl ms

theorem symm (h : Regrouped ms ns) : Regrouped ns ms := Relation.EqvGen.symm ms ns h

theorem trans (h₁ : Regrouped ks ms) (h₂ : Regrouped ms ns) : Regrouped ks ns :=
  Relation.EqvGen.trans ks ms ns h₁ h₂

instance : Trans Regrouped Regrouped Regrouped := ⟨trans⟩

theorem of_step (h : Regroup ms ns) : Regrouped ms ns := Relation.EqvGen.rel ms ns h

theorem permute (h : ms.Perm ns) : Regrouped ms ns := of_step (.permute h)

theorem cons (m : Monomial) (h : Regrouped ms ns) : Regrouped (m :: ms) (m :: ns) := by
  induction h with
  | rel ms ns hstep =>
    cases hstep with
    | permute hperm => exact permute (hperm.cons m)
    | split k a b ls =>
      calc
        Regrouped (m :: k.withCoef (a + b) :: ls) (k.withCoef (a + b) :: m :: ls) :=
          permute (.swap _ _ ls)
        Regrouped _ (k.withCoef a :: k.withCoef b :: m :: ls) := of_step (.split k a b _)
        Regrouped _ (m :: k.withCoef a :: k.withCoef b :: ls) :=
          permute (@List.perm_middle _ m [_, _] ls)
    | drop hk => exact (permute (.swap _ _ _)).trans (of_step (.drop hk _))
  | refl ms => exact refl _
  | symm ms ns _ ih => exact ih.symm
  | trans ks ms ns _ _ ih₁ ih₂ => exact ih₁.trans ih₂

theorem append_left (ks : List Monomial) (h : Regrouped ms ns) :
    Regrouped (ks ++ ms) (ks ++ ns) := by
  induction ks with
  | nil => exact h
  | cons k ks ih => exact ih.cons k

theorem absorb (m : Monomial) (ms : List Monomial) : Regrouped (m :: ms) (absorb m ms) := by
  induction ms with
  | nil => exact refl [m]
  | cons n ns ih =>
    have hswap : Regrouped (m :: n :: ns) (n :: m :: ns) := permute (.swap n m ns)
    unfold Polynomial.absorb
    split
    · rename_i hsame
      have hsame : n.vars = m.vars := by simpa [Monomial.sameFactors] using hsame
      have hm : n.withCoef m.coef = m := Monomial.eq_of_perm (.of_eq hsame) rfl
      have hmerge := (of_step (.split n n.coef m.coef ns)).symm
      rw [hm] at hmerge
      exact hswap.trans hmerge
    · exact hswap.trans (ih.cons n)

theorem foldl_absorb (ms merged : List Monomial) :
    Regrouped (ms ++ merged) (ms.foldl (fun merged m => Polynomial.absorb m merged) merged) := by
  induction ms generalizing merged with
  | nil => exact refl merged
  | cons m ms ih =>
    calc
      Regrouped (m :: ms ++ merged) (ms ++ m :: merged) := permute List.perm_middle.symm
      Regrouped _ (ms ++ Polynomial.absorb m merged) := (absorb m merged).append_left ms
      Regrouped _ _ := ih _

theorem filter {keep : Monomial → Bool} (h : ∀ m ∈ ms, keep m = false → m.isEmpty = true) :
    Regrouped ms (ms.filter keep) := by
  induction ms with
  | nil => exact refl []
  | cons m ms ih =>
    have hrest := ih fun n hn => h n (List.mem_cons_of_mem m hn)
    cases hm : keep m with
    | true =>
      rw [List.filter_cons_of_pos hm]
      exact hrest.cons m
    | false =>
      rw [List.filter_cons_of_neg (by simp [hm])]
      exact (of_step (.drop (h m List.mem_cons_self hm) ms)).trans hrest

theorem mergeTerms (ms : List Monomial) : Regrouped ms (mergeTerms ms) := by
  have hconstants : Regrouped ms (ms.filter fun m => !m.vars.isEmpty) := by
    apply filter
    intro m _ hm
    simpa [Monomial.isEmpty] using Or.inl hm
  have hmerged := foldl_absorb (ms.filter fun m => !m.vars.isEmpty) []
  rw [List.append_nil] at hmerged
  exact (hconstants.trans hmerged).trans (filter fun m _ hm => by simpa using hm)

theorem invariant {α : Type} {f : List Monomial → α} (h : Regrouped ms ns)
    (hstep : ∀ {ks ls}, Regroup ks ls → f ks = f ls) : f ms = f ns := by
  induction h with
  | rel _ _ hone => exact hstep hone
  | refl _ => rfl
  | symm _ _ _ ih => exact ih.symm
  | trans _ _ _ _ _ ih₁ ih₂ => exact ih₁.trans ih₂

end Regrouped

theorem Regroup.coefficient_eq (h : Regroup ms ns) (hvars : vars ≠ []) :
    coefficient vars ms = coefficient vars ns := by
  cases h with
  | permute hperm => exact coefficient_perm vars hperm
  | split m a b ks =>
    by_cases hm : m.vars = vars
    · simp only [coefficient, Monomial.withCoef, hm, if_true]
      omega
    · simp only [coefficient, Monomial.withCoef, hm, if_false, Int.zero_add]
  | drop hm =>
    rename_i m
    have hzero : (if m.vars = vars then m.coef else 0) = 0 := by
      split
      · rename_i hsame
        subst hsame
        simpa [Monomial.isEmpty, hvars] using hm
      · rfl
    rw [coefficient, hzero, Int.zero_add]

/-- Equal polynomials are the same terms written differently. -/
theorem sameTerms_iff_regrouped : p.sameTerms q = true ↔ Regrouped p.monomials q.monomials := by
  constructor
  · intro h
    have hperm := Regrouped.permute (sameTerms_iff_perm.1 h)
    exact ((Regrouped.mergeTerms _).trans hperm).trans (Regrouped.mergeTerms _).symm
  · intro h
    apply sameTerms_iff_coefficient.2
    intro vars hvars
    exact h.invariant fun hstep => hstep.coefficient_eq hvars

/-- The exact value as evaluation takes it, where constants count nothing. -/
def properValue (σ : Variable → Int) (p : Polynomial) : Int :=
  evalTerms σ (p.monomials.filter fun m => !m.vars.isEmpty)

theorem properValue_add_constants (σ : Variable → Int) (p : Polynomial) :
    p.properValue σ + coefficient [] p.monomials = p.eval σ := by
  unfold properValue eval
  induction p.monomials with
  | nil => rfl
  | cons m ms ih =>
    rw [evalTerms, coefficient, ← ih]
    by_cases hm : m.vars = []
    · rw [List.filter_cons_of_neg (by simp [hm]), if_pos hm, Monomial.eval, hm,
        Monomial.factorValue, Int.mul_one, Int.add_left_comm]
    · rw [List.filter_cons_of_pos (by simp [hm]), if_neg hm, evalTerms, Int.zero_add, Int.add_assoc]

theorem eval_normalize (σ : Variable → Int) (p : Polynomial) :
    p.normalize.eval σ = p.properValue σ := by
  have hterms : mergeTerms p.monomials =
      mergeTerms (p.monomials.filter fun m => !m.vars.isEmpty) := by
    simp only [mergeTerms, List.filter_filter, Bool.and_self]
  have hfactors : ∀ m ∈ p.monomials.filter (fun m => !m.vars.isEmpty), m.vars ≠ [] :=
    fun m hm => by simpa using (List.mem_filter.1 hm).2
  change evalTerms σ (mergeTerms p.monomials) = _
  rw [hterms, evalTerms_mergeTerms hfactors, properValue]

theorem evalTerms_perm (σ : Variable → Int) (h : ms.Perm ns) : evalTerms σ ms = evalTerms σ ns := by
  rw [evalTerms_eq_sum, evalTerms_eq_sum]
  exact (h.map _).sum_eq

theorem properValue_eq (h : p.sameTerms q = true) (σ : Variable → Int) :
    p.properValue σ = q.properValue σ := by
  rw [← eval_normalize, ← eval_normalize]
  exact evalTerms_perm σ (sameTerms_iff_perm.1 h)

theorem properValue_eq_sum (σ : Variable → Int) (p : Polynomial) : p.properValue σ =
    (p.monomials.map fun m => if m.vars.isEmpty then 0 else m.eval σ).sum := by
  unfold properValue
  induction p.monomials with
  | nil => rfl
  | cons m ms ih =>
    by_cases hm : m.vars = []
    · simp [hm, ih]
    · simp [hm, ih, evalTerms]

theorem eq_properValue {values : Array Int} {x : Int} (h : p.evaluateBy .strict values = .ok x) :
    x = p.properValue (valuation values) := by
  rw [properValue_eq_sum]
  exact eq_of_evaluateBy h

/-- Comparison where every sum of a merge has to fit into 64 bits. -/
def sameTerms? (p q : Polynomial) : Option Bool := do
  let ps ← mergeIndexed? p.monomials
  let qs ← mergeIndexed? q.monomials
  return ps.length == qs.length &&
    ps.all fun m => qs.any fun n => m.sameFactors n && m.coef == n.coef

/-- What equality says about two polynomials. -/
structure Compared (p q : Polynomial) : Prop where
  iff_coefficient : p.sameTerms q = true ↔ ∀ vars ≠ [], vars.Pairwise (· ≤ ·) →
    coefficient vars p.monomials = coefficient vars q.monomials
  iff_regrouped : p.sameTerms q = true ↔ Regrouped p.monomials q.monomials
  properValue_eq : p.sameTerms q = true → ∀ σ, p.properValue σ = q.properValue σ
  /-- Only the constants can make a difference, which are no terms of a polynomial. -/
  eval_eq : p.sameTerms q = true → ∀ σ,
    p.eval σ - coefficient [] p.monomials = q.eval σ - coefficient [] q.monomials
  /-- The values that are computed without saturation are the same. -/
  computed_eq : p.sameTerms q = true → ∀ values x y, p.evaluateBy .strict values = .ok x →
    q.evaluateBy .strict values = .ok y → x = y
  /-- As long as the running sums fit, no merge on either side overflows. -/
  checked : (∀ vars ≠ [], RunningSumFits vars p.monomials ∧ RunningSumFits vars q.monomials) →
    p.sameTerms? q = some (p.sameTerms q)

theorem iff_coefficient_sorted : p.sameTerms q = true ↔ ∀ vars ≠ [], vars.Pairwise (· ≤ ·) →
    coefficient vars p.monomials = coefficient vars q.monomials := by
  rw [sameTerms_iff_coefficient]
  apply forall₂_congr
  intro vars _
  constructor
  · exact fun h _ => h
  · intro h
    by_cases hsorted : vars.Pairwise (· ≤ ·)
    · exact h hsorted
    · rw [coefficient_of_not_sorted hsorted, coefficient_of_not_sorted hsorted]

theorem compared (p q : Polynomial) : p.Compared q where
  iff_coefficient := iff_coefficient_sorted
  iff_regrouped := sameTerms_iff_regrouped
  properValue_eq := properValue_eq
  eval_eq := by
    intro h σ
    have hvalue := properValue_eq h σ
    have hp := properValue_add_constants σ p
    have hq := properValue_add_constants σ q
    omega
  computed_eq := by
    intro h values x y hx hy
    rw [eq_properValue hx, eq_properValue hy]
    exact properValue_eq h (valuation values)
  checked := by
    intro h
    rw [sameTerms?, mergeIndexed?_eq fun vars hvars => (h vars hvars).1,
      mergeIndexed?_eq fun vars hvars => (h vars hvars).2]
    rfl

/-- Equality of polynomials is equality of their coefficients. -/
theorem equality_of_coefficients :
    Equivalence (fun p q : Polynomial => p.sameTerms q = true) ∧ ∀ p q : Polynomial, p.Compared q :=
  ⟨equivalence_sameTerms, compared⟩

/-- Terms that are split, cancel and stand in another order, with a constant in between. -/
example : sameTerms
    (.ofTerms [.linear 0 2, .ofFactors [2, 1] 3, .ofFactors [] 4, .linear 0 1])
    (.ofTerms [.ofFactors [1, 2] 5, .linear 0 3, .linear 3 1, .ofFactors [2, 1] (-2),
      .linear 3 (-1)]) = true := by
  decide

end NonlinearInteger.Polynomial
