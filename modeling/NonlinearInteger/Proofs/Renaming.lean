import NonlinearInteger.Proofs.WellFormed
import Mathlib.Data.Set.Function

/-!
# Normal forms and renaming

The polynomials of a formula are in normal form: proper terms of distinct products.
A normal form is left as it is by merging, and renaming the variables, two of which
never get one name, makes another.
-/

namespace NonlinearInteger

namespace Monomial

theorem eq_of_perm {m n : Monomial} (hvars : m.vars.Perm n.vars) (hcoef : m.coef = n.coef) :
    m = n := by
  have hvars : m.vars = n.vars :=
    hvars.eq_of_pairwise (fun _ _ _ _ => Nat.le_antisymm) m.sorted n.sorted
  cases m
  cases n
  cases hvars
  cases hcoef
  rfl

theorem mem_vars_product {m n : Monomial} {v : Variable} :
    v ∈ (m.product n).vars ↔ v ∈ m.vars ∨ v ∈ n.vars :=
  (sortFactors_perm (m.vars ++ n.vars)).mem_iff.trans List.mem_append

theorem ofFactors_product_linear (vs : List Variable) (coef : Int) (v : Variable) :
    (ofFactors vs coef).product (linear v 1) = ofFactors (vs ++ [v]) coef := by
  apply eq_of_perm
  · exact (sortFactors_perm _).trans
      (((sortFactors_perm vs).append_right [v]).trans (sortFactors_perm _).symm)
  · exact Int.mul_one coef

def rename (π : Variable → Variable) (m : Monomial) : Monomial :=
  ofFactors (m.vars.map π) m.coef

variable {π τ : Variable → Variable} {m n : Monomial}

theorem rename_congr (h : ∀ v ∈ m.vars, π v = τ v) : m.rename π = m.rename τ := by
  rw [rename, rename, List.map_congr_left h]

theorem mem_vars_rename {w : Variable} : w ∈ (m.rename π).vars ↔ ∃ v ∈ m.vars, π v = w := by
  rw [rename, ofFactors, (sortFactors_perm _).mem_iff, List.mem_map]

theorem length_vars_rename : (m.rename π).vars.length = m.vars.length := by
  rw [rename, ofFactors, (sortFactors_perm _).length_eq, List.length_map]

theorem isLinear_rename : (m.rename π).isLinear = m.isLinear :=
  congrArg (fun n => m.coef != 0 && n == 1) length_vars_rename

theorem isEmpty_rename : (m.rename π).isEmpty = m.isEmpty := by
  have hempty : (m.rename π).vars.isEmpty = m.vars.isEmpty := by
    rw [Bool.eq_iff_iff, List.isEmpty_iff_length_eq_zero, List.isEmpty_iff_length_eq_zero,
      length_vars_rename]
  rw [isEmpty, isEmpty, hempty]
  rfl

theorem vars_eq_of_rename {s : Set Variable} (hπ : Set.InjOn π s) (hm : ∀ v ∈ m.vars, v ∈ s)
    (hn : ∀ v ∈ n.vars, v ∈ s) (h : (m.rename π).vars = (n.rename π).vars) : m.vars = n.vars := by
  have hperm : (m.vars.map π).Perm (n.vars.map π) := by
    refine (sortFactors_perm _).symm.trans (.trans ?_ (sortFactors_perm _))
    exact List.Perm.of_eq h
  have hback : ∀ ws : List Variable, (∀ v ∈ ws, v ∈ s) →
      (ws.map π).map (Function.invFunOn π s) = ws := by
    intro ws hws
    rw [List.map_map]
    exact (List.map_congr_left fun v hv => hπ.leftInvOn_invFunOn (hws v hv)).trans (List.map_id ws)
  have hvars := hperm.map (Function.invFunOn π s)
  rw [hback _ hm, hback _ hn] at hvars
  exact hvars.eq_of_pairwise (fun _ _ _ _ => Nat.le_antisymm) m.sorted n.sorted

end Monomial

namespace Polynomial

/-- Terms with different products. -/
def Distinct (ms : List Monomial) : Prop := ms.Pairwise fun m n => m.vars ≠ n.vars

structure Merged (p : Polynomial) : Prop where
  normalized : p.normalized = true
  proper : ∀ m ∈ p.monomials, m.isEmpty = false
  distinct : Distinct p.monomials

theorem merged_empty : empty.Merged := ⟨rfl, by simp [empty], .nil⟩

theorem distinct_absorb {m : Monomial} {ms : List Monomial} (h : Distinct ms) :
    Distinct (absorb m ms) := by
  induction ms with
  | nil => exact List.pairwise_singleton _ m
  | cons n ns ih =>
    have ⟨hn, hns⟩ := List.pairwise_cons.1 h
    unfold absorb
    split
    · exact List.pairwise_cons.2 ⟨hn, hns⟩
    · rename_i hdiffer
      have hdiffer : n.vars ≠ m.vars := by simpa [Monomial.sameFactors] using hdiffer
      refine List.pairwise_cons.2 ⟨?_, ih hns⟩
      intro k hk
      obtain ⟨l, hl, hvars⟩ := vars_of_mem_absorb hk
      rw [← hvars]
      rcases List.mem_cons.1 hl with rfl | hl
      · exact hdiffer
      · exact hn l hl

theorem distinct_foldl_absorb {ms merged : List Monomial} (h : Distinct merged) :
    Distinct (ms.foldl (fun merged m => absorb m merged) merged) := by
  induction ms generalizing merged with
  | nil => exact h
  | cons m ms ih => exact ih (distinct_absorb h)

theorem merged_normalize (p : Polynomial) : p.normalize.Merged where
  normalized := rfl
  proper := fun _ hm => (of_mem_mergeTerms hm).1
  distinct := (distinct_foldl_absorb List.Pairwise.nil).filter _

theorem absorb_eq_append {m : Monomial} {ms : List Monomial} (h : ∀ n ∈ ms, n.vars ≠ m.vars) :
    absorb m ms = ms ++ [m] := by
  induction ms with
  | nil => rfl
  | cons n ns ih =>
    have hdiffer : ¬n.sameFactors m = true := by
      simpa [Monomial.sameFactors] using h n List.mem_cons_self
    rw [absorb, if_neg hdiffer, ih fun k hk => h k (List.mem_cons_of_mem n hk), List.cons_append]

theorem foldl_absorb_eq_append {ms merged : List Monomial} (h : Distinct (merged ++ ms)) :
    ms.foldl (fun merged m => absorb m merged) merged = merged ++ ms := by
  induction ms generalizing merged with
  | nil => simp
  | cons m ms ih =>
    have hdiffer : ∀ n ∈ merged, n.vars ≠ m.vars := fun n hn =>
      (List.pairwise_append.1 h).2.2 n hn m List.mem_cons_self
    have hnext : Distinct (merged ++ [m] ++ ms) := by simpa using h
    rw [List.foldl_cons, absorb_eq_append hdiffer, ih hnext, List.append_assoc,
      List.singleton_append]

theorem mergeTerms_eq {ms : List Monomial} (hproper : ∀ m ∈ ms, m.isEmpty = false)
    (hdistinct : Distinct ms) : mergeTerms ms = ms := by
  have hvars : ms.filter (fun m => !m.vars.isEmpty) = ms := by
    refine List.filter_eq_self.2 fun m hm => ?_
    have hempty := hproper m hm
    simp only [Monomial.isEmpty, Bool.or_eq_false_iff] at hempty
    simp [hempty.1]
  have hterms : ms.filter (fun m => !m.isEmpty) = ms :=
    List.filter_eq_self.2 fun m hm => by simp [hproper m hm]
  rw [mergeTerms, hvars, foldl_absorb_eq_append (by simpa using hdistinct), List.nil_append, hterms]

theorem coefficient_eq_zero {vars : List Variable} {ms : List Monomial}
    (h : ∀ m ∈ ms, m.vars ≠ vars) : coefficient vars ms = 0 := by
  induction ms with
  | nil => rfl
  | cons m ms ih =>
    rw [coefficient, if_neg (h m List.mem_cons_self),
      ih fun n hn => h n (List.mem_cons_of_mem m hn), Int.add_zero]

theorem coef_eq_coefficient {m : Monomial} {ms : List Monomial} (hdistinct : Distinct ms)
    (hm : m ∈ ms) : m.coef = coefficient m.vars ms := by
  induction ms with
  | nil => cases hm
  | cons n ns ih =>
    have ⟨hn, hns⟩ := List.pairwise_cons.1 hdistinct
    rw [coefficient]
    rcases List.mem_cons.1 hm with rfl | hm
    · rw [if_pos rfl, coefficient_eq_zero fun k hk => (hn k hk).symm, Int.add_zero]
    · rw [if_neg (hn m hm), Int.zero_add]
      exact ih hns hm

theorem mem_of_mem_absorb {m n : Monomial} {ms : List Monomial} (h : n ∈ absorb m ms)
    (hvars : n.vars ≠ m.vars) : n ∈ ms := by
  induction ms with
  | nil =>
    rw [List.mem_singleton.1 h] at hvars
    exact absurd rfl hvars
  | cons k ks ih =>
    unfold absorb at h
    split at h
    · rename_i hsame
      have hsame : k.vars = m.vars := by simpa [Monomial.sameFactors] using hsame
      rcases List.mem_cons.1 h with rfl | h
      · exact absurd hsame hvars
      · exact List.mem_cons_of_mem k h
    · rcases List.mem_cons.1 h with rfl | h
      · exact List.mem_cons_self
      · exact List.mem_cons_of_mem k (ih h)

/-- Sums that fit make coefficients that fit: each is the sum at the last term of
its product. -/
theorem fits_of_mem_foldl_absorb {ms merged seen : List Monomial} (hdistinct : Distinct merged)
    (hseen : ∀ vars ≠ [], coefficient vars merged = coefficient vars seen)
    (hfits : ∀ n ∈ merged, FitsInt64 n.coef) (hsums : sumsFit seen ms = true) :
    ∀ n ∈ (ms.filter fun m => !m.vars.isEmpty).foldl (fun merged m => absorb m merged) merged,
      FitsInt64 n.coef := by
  induction ms generalizing merged seen with
  | nil => exact hfits
  | cons m ms ih =>
    obtain ⟨hm, hsums⟩ := Bool.and_eq_true_iff.1 hsums
    have hm : FitsInt64 (coefficient m.vars (m :: seen)) := of_decide_eq_true hm
    -- Constants are not merged, and no product counts them.
    by_cases hvars : m.vars = []
    · rw [List.filter_cons_of_neg (by simp [hvars])]
      refine ih hdistinct (fun vars hne => ?_) hfits hsums
      rw [hseen vars hne, coefficient, if_neg (by rw [hvars]; exact hne.symm), Int.zero_add]
    · rw [List.filter_cons_of_pos (by simpa using hvars), List.foldl_cons]
      refine ih (distinct_absorb hdistinct) (fun vars hne => ?_) (fun n hn => ?_) hsums
      · rw [coefficient_absorb, coefficient, coefficient, hseen vars hne]
      · by_cases hsame : n.vars = m.vars
        · rw [coef_eq_coefficient (distinct_absorb hdistinct) hn, hsame, coefficient_absorb,
            coefficient, hseen m.vars hvars]
          exact hm
        · exact hfits n (mem_of_mem_absorb hn hsame)

theorem eq_normalize_of_normalize? {p q : Polynomial} (h : p.normalize? = some q) :
    q = p.normalize := by
  unfold normalize? at h
  split at h
  · exact (Option.some.inj h).symm
  · cases h

/-- What is merged within the range is a normal form within the range. -/
theorem merged_of_normalize? {p q : Polynomial} (h : p.normalize? = some q) :
    q.Merged ∧ ∀ m ∈ q.monomials, FitsInt64 m.coef := by
  unfold normalize? at h
  split at h
  · rename_i hsums
    cases h
    refine ⟨merged_normalize p, fun m hm => ?_⟩
    exact fits_of_mem_foldl_absorb List.Pairwise.nil (fun _ _ => rfl) (by simp) hsums m
      (List.mem_filter.1 hm).1
  · cases h

theorem sumsFit_of_distinct {ms seen : List Monomial} (hdistinct : Distinct ms)
    (happart : ∀ m ∈ ms, ∀ n ∈ seen, n.vars ≠ m.vars) (hfits : ∀ m ∈ ms, FitsInt64 m.coef) :
    sumsFit seen ms = true := by
  induction ms generalizing seen with
  | nil => rfl
  | cons m ms ih =>
    have ⟨hm, hms⟩ := List.pairwise_cons.1 hdistinct
    have hcoef : coefficient m.vars (m :: seen) = m.coef := by
      rw [coefficient, if_pos rfl, coefficient_eq_zero (happart m List.mem_cons_self), Int.add_zero]
    have hrest : ∀ n ∈ ms, ∀ k ∈ m :: seen, k.vars ≠ n.vars := by
      intro n hn k hk
      rcases List.mem_cons.1 hk with rfl | hk
      · exact hm n hn
      · exact happart n (List.mem_cons_of_mem m hn) k hk
    rw [sumsFit, hcoef, decide_eq_true (hfits m List.mem_cons_self), Bool.true_and]
    exact ih hms hrest fun n hn => hfits n (List.mem_cons_of_mem m hn)

namespace Merged

variable {p : Polynomial}

theorem normalize_eq (h : p.Merged) : p.normalize = p := by
  obtain ⟨ms, linear, normalized, hlinear⟩ := p
  obtain rfl : normalized = true := h.normalized
  obtain rfl : linear = ms.all Monomial.isLinear := hlinear rfl
  simp only [normalize, ofMonomials, mergeTerms_eq h.proper h.distinct]

theorem normalize?_eq (h : p.Merged) (hfits : ∀ m ∈ p.monomials, FitsInt64 m.coef) :
    (ofTerms p.monomials).normalize? = some p := by
  have hmerge : (ofTerms p.monomials).normalize = p := by
    rw [normalize, monomials_ofTerms]
    exact h.normalize_eq
  rw [normalize?, monomials_ofTerms, if_pos (sumsFit_of_distinct h.distinct (by simp) hfits),
    hmerge]

end Merged

def rename (π : Variable → Variable) (p : Polynomial) : Polynomial where
  monomials := p.monomials.map (·.rename π)
  linear := p.linear
  normalized := p.normalized
  linear_eq h := by simp [p.linear_eq h, Function.comp_def, Monomial.isLinear_rename]

variable {p : Polynomial} {π τ : Variable → Variable}

theorem rename_congr (h : ∀ m ∈ p.monomials, ∀ v ∈ m.vars, π v = τ v) :
    p.rename π = p.rename τ := by
  simp only [rename, List.map_congr_left fun m hm => Monomial.rename_congr (h m hm)]

theorem Merged.rename (h : p.Merged) {s : Set Variable}
    (hp : ∀ m ∈ p.monomials, ∀ v ∈ m.vars, v ∈ s) (hπ : Set.InjOn π s) :
    (p.rename π).Merged where
  normalized := h.normalized
  proper := by
    intro m hm
    obtain ⟨l, hl, rfl⟩ := List.mem_map.1 hm
    exact Monomial.isEmpty_rename.trans (h.proper l hl)
  distinct := by
    refine List.pairwise_map.2 (h.distinct.imp_of_mem ?_)
    intro l m hl hm hne heq
    exact hne (Monomial.vars_eq_of_rename hπ (hp l hl) (hp m hm) heq)

end Polynomial

def Constraint.rename (π : Variable → Variable) (c : Constraint) : Constraint :=
  ⟨c.poly.rename π, c.relation, c.limit⟩

namespace Formula

theorem Built.merged {f : Formula} (h : f.Built) :
    f.objective.Merged ∧ ∀ c ∈ f.constraints, c.poly.Merged := by
  induction h with
  | empty n => exact ⟨Polynomial.merged_empty, by simp [Formula.empty]⟩
  | addConstraint _ _ hg ih =>
    obtain ⟨-, rfl⟩ := addConstraint_eq_ok.1 hg
    refine ⟨ih.1, ?_⟩
    intro c hc
    rcases Array.mem_push.1 hc with hc | rfl
    · exact ih.2 c hc
    · exact Polynomial.merged_normalize _
  | setObjective _ hg ih =>
    obtain ⟨-, rfl⟩ := setObjective_eq_ok.1 hg
    exact ⟨Polynomial.merged_normalize _, ih.2⟩
  | setDomain _ _ _ hg ih =>
    obtain ⟨-, -, rfl⟩ := setDomain_eq_ok.1 hg
    exact ih
  | setNames _ hg ih =>
    obtain ⟨-, rfl⟩ := setNames_eq_ok.1 hg
    exact ih

theorem checkVariables_of_over {f : Formula} {p : Polynomial} (hp : p.Over f.numVariables) :
    f.checkVariables p = .ok () :=
  checkVariables_eq_ok_iff.2 fun m hm => (hp m hm).2

theorem addConstraint_of_merged {f : Formula} {p : Polynomial} (hp : p.Over f.numVariables)
    (h : p.Merged) (relation : Relation) (limit : Int) :
    f.addConstraint p relation limit =
      .ok { f with constraints := f.constraints.push ⟨p, relation, limit⟩ } := by
  rw [addConstraint, checkVariables_of_over hp, Constraint.of, h.normalize_eq]
  rfl

theorem foldlM_addConstraint {cs : List (Polynomial × Relation × Int)} {g : Formula}
    (hcs : ∀ c ∈ cs, c.1.Over g.numVariables ∧ c.1.Merged) :
    cs.foldlM (fun f (c : Polynomial × Relation × Int) => f.addConstraint c.1 c.2.1 c.2.2) g =
      .ok { g with
        constraints := g.constraints ++ (cs.map fun c => ⟨c.1, c.2.1, c.2.2⟩).toArray } := by
  induction cs generalizing g with
  | nil => simp [pure, Except.pure]
  | cons c cs ih =>
    obtain ⟨hover, hmerged⟩ := hcs c List.mem_cons_self
    rw [List.foldlM_cons, addConstraint_of_merged hover hmerged]
    refine (ih (g := { g with constraints := g.constraints.push ⟨c.1, c.2.1, c.2.2⟩ })
      fun k hk => hcs k (List.mem_cons_of_mem c hk)).trans ?_
    simp

theorem setObjective_of_merged {f : Formula} {p : Polynomial} (hp : p.Over f.numVariables)
    (h : p.Merged) : f.setObjective p = .ok { f with objective := p } := by
  rw [setObjective, checkVariables_of_over hp, h.normalize_eq]
  rfl

end Formula
end NonlinearInteger
