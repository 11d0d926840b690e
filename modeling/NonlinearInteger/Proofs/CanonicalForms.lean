import NonlinearInteger.Proofs.IndexedMerge
import NonlinearInteger.Proofs.Values
import Mathlib.Data.List.Induction

/-!
# Canonical forms

Merging leaves one term for each product whose coefficients do not cancel, in the order in which
the products first appear. The sums of coefficients that it forms on the way are among those that
the checked normal form adds up beforehand. So when none of these leaves the 64-bit range, no
addition of the merge does either.
-/

namespace NonlinearInteger.Polynomial

variable {vars : List Variable} {ms : List Monomial} {p : Polynomial}

/-- The coefficients of a product, added up one after another, stay in the 64-bit range. -/
def RunningSumFits (vars : List Variable) (ms : List Monomial) : Prop :=
  ∀ seen, seen <+: ms → FitsInt64 (coefficient vars seen)

theorem coefficient_singleton (m : Monomial) : coefficient m.vars [m] = m.coef := by
  simp [coefficient]

theorem coefficient_cons (vars : List Variable) (m : Monomial) (ms : List Monomial) :
    coefficient vars (m :: ms) = coefficient vars [m] + coefficient vars ms :=
  coefficient_append vars [m] ms

theorem sumsFit_eq_true_iff {seen : List Monomial}
    (hseen : ∀ vars, FitsInt64 (coefficient vars seen)) :
    sumsFit seen ms = true ↔
      ∀ vars ks, ks <+: ms → FitsInt64 (coefficient vars seen + coefficient vars ks) := by
  induction ms generalizing seen with
  | nil => simpa [sumsFit, coefficient] using hseen
  | cons m ms ih =>
    have hnext : ∀ vars, coefficient vars (m :: seen) =
        coefficient vars seen + coefficient vars [m] := by
      intro vars
      rw [coefficient_cons, Int.add_comm]
    have hstep : FitsInt64 (coefficient m.vars (m :: seen)) ↔
        ∀ vars, FitsInt64 (coefficient vars (m :: seen)) := by
      constructor
      · intro hm vars
        by_cases hvars : m.vars = vars
        · exact hvars ▸ hm
        · rw [coefficient, if_neg hvars, Int.zero_add]
          exact hseen vars
      · exact fun h => h m.vars
    rw [sumsFit, Bool.and_eq_true, decide_eq_true_iff, hstep]
    constructor
    · rintro ⟨hm, hrest⟩ vars ks hks
      rcases List.prefix_cons_iff.1 hks with rfl | ⟨ls, rfl, hls⟩
      · simpa [coefficient] using hseen vars
      · rw [coefficient_cons, ← Int.add_assoc, ← hnext]
        exact (ih hm).1 hrest vars ls hls
    · intro h
      have hm : ∀ vars, FitsInt64 (coefficient vars (m :: seen)) := by
        intro vars
        rw [hnext]
        exact h vars [m] (List.prefix_append [m] ms)
      refine ⟨hm, (ih hm).2 fun vars ks hks => ?_⟩
      rw [hnext, Int.add_assoc, ← coefficient_cons]
      exact h vars (m :: ks) (List.prefix_cons_inj m |>.2 hks)

theorem sumsFit_iff : sumsFit [] ms = true ↔ ∀ vars, RunningSumFits vars ms := by
  have hnone : ∀ vars, FitsInt64 (coefficient vars []) := by simp [coefficient, FitsInt64]
  rw [sumsFit_eq_true_iff hnone]
  simp only [coefficient, Int.zero_add]
  rfl

/-- The sums of the coefficients so far, one for each product. -/
abbrev SumTable := Std.HashMap (List Variable) Int

/-- Adds a coefficient to the sum of its product, which starts at zero. A sum beyond 64 bits
stops the loop. -/
def SumTable.add? (sums : SumTable) (m : Monomial) : Option SumTable :=
  let sum := sums.getD m.vars 0 + m.coef
  if FitsInt64 sum then some (sums.insert m.vars sum) else none

theorem isSome_foldlM_add? {sums : SumTable} {seen : List Monomial}
    (hsums : ∀ vars, sums.getD vars 0 = coefficient vars seen) :
    (ms.foldlM SumTable.add? sums).isSome = sumsFit seen ms := by
  induction ms generalizing sums seen with
  | nil => rfl
  | cons m ms ih =>
    have hsum : sums.getD m.vars 0 + m.coef = coefficient m.vars (m :: seen) := by
      rw [hsums, coefficient_cons, coefficient_singleton, Int.add_comm]
    rw [List.foldlM_cons, sumsFit, SumTable.add?, hsum]
    by_cases hfits : FitsInt64 (coefficient m.vars (m :: seen))
    · have hnext : ∀ vars,
          (sums.insert m.vars (coefficient m.vars (m :: seen))).getD vars 0 =
            coefficient vars (m :: seen) := by
        intro vars
        rw [Std.HashMap.getD_insert]
        by_cases hvars : m.vars = vars
        · simp [hvars]
        · simp [hvars, coefficient, hsums]
      simp only [hfits, if_true, decide_true, Bool.true_and]
      exact ih hnext
    · simp [hfits]

/-- Adds a term as before. Where it is added to another one, that one has to be there and the sum
has to fit into 64 bits. -/
def TermTable.add? (t : TermTable) (m : Monomial) : Option TermTable :=
  match t.index[m.vars]? with
  | some i =>
    if t.terms[i]?.any fun n => decide (FitsInt64 (n.coef + m.coef)) then some (t.add m) else none
  | none => some (t.add m)

theorem TermTable.add?_eq {t : TermTable} {m : Monomial} (h : t.Indexed)
    (hdistinct : Distinct t.terms.toList)
    (hfits : FitsInt64 (coefficient m.vars t.terms.toList + m.coef)) :
    t.add? m = some (t.add m) := by
  unfold TermTable.add?
  split
  · rename_i i hfound
    obtain ⟨n, hn, hvars⟩ := Option.map_eq_some_iff.1 ((h m.vars i).1 hfound)
    have hcoef : n.coef = coefficient m.vars t.terms.toList := by
      rw [← hvars]
      exact coef_eq_coefficient hdistinct (Array.mem_def.1 (Array.mem_of_getElem? hn))
    rw [hn, Option.any_some, hcoef, decide_eq_true hfits]
    rfl
  · rfl

theorem foldlM_add?_eq {t : TermTable} (h : t.Indexed) (hdistinct : Distinct t.terms.toList)
    (hfits : ∀ vars ≠ [], ∀ ks, ks <+: ms →
      FitsInt64 (coefficient vars t.terms.toList + coefficient vars ks)) :
    (ms.filter fun m => !m.vars.isEmpty).foldlM TermTable.add? t =
      some ((ms.filter fun m => !m.vars.isEmpty).foldl TermTable.add t) := by
  induction ms generalizing t with
  | nil => rfl
  | cons m ms ih =>
    have hlater : ∀ vars ≠ [], ∀ ks, ks <+: ms → FitsInt64
        (coefficient vars t.terms.toList + (coefficient vars [m] + coefficient vars ks)) := by
      intro vars hvars ks hks
      rw [← coefficient_cons]
      exact hfits vars hvars (m :: ks) (List.prefix_cons_inj m |>.2 hks)
    by_cases hm : m.vars = []
    · rw [List.filter_cons_of_neg (by simp [hm])]
      refine ih h hdistinct fun vars hvars ks hks => ?_
      have hnone : coefficient vars [m] = 0 := by simp [coefficient, hm, hvars.symm]
      simpa [hnone] using hlater vars hvars ks hks
    · have hsum : FitsInt64 (coefficient m.vars t.terms.toList + m.coef) := by
        rw [← coefficient_singleton m]
        exact hfits m.vars hm [m] (List.prefix_append [m] ms)
      rw [List.filter_cons_of_pos (by simp [hm]), List.foldlM_cons, List.foldl_cons,
        TermTable.add?_eq h hdistinct hsum]
      have hlist := TermTable.toList_add h m
      refine ih (h.add m) (hlist ▸ distinct_absorb hdistinct) fun vars hvars ks hks => ?_
      rw [hlist, coefficient_absorb, coefficient_cons, Int.add_comm (coefficient vars [m]),
        Int.add_assoc]
      exact hlater vars hvars ks hks

/-- Terms merged through an index, where every sum has to fit into 64 bits. -/
def mergeIndexed? (ms : List Monomial) : Option (List Monomial) := do
  let t ← (ms.filter fun m => !m.vars.isEmpty).foldlM TermTable.add? .empty
  return t.terms.toList.filter fun m => !m.isEmpty

theorem mergeIndexed?_eq (h : ∀ vars ≠ [], RunningSumFits vars ms) :
    mergeIndexed? ms = some (mergeTerms ms) := by
  have hrun := foldlM_add?_eq (t := .empty) TermTable.indexed_empty .nil fun vars hvars ks hks => by
    simpa [TermTable.empty, coefficient] using h vars hvars ks hks
  rw [mergeIndexed?, hrun, ← mergeIndexed_eq]
  rfl

/-- Two loops through tables: the sums are checked, and then the terms are merged. -/
def normalizeIndexed? (p : Polynomial) : Option Polynomial := do
  let _ ← p.monomials.foldlM SumTable.add? ∅
  let merged ← mergeIndexed? p.monomials
  return ⟨merged, merged.all Monomial.isLinear, true, fun _ => rfl⟩

theorem normalizeIndexed?_eq (p : Polynomial) : p.normalizeIndexed? = p.normalize? := by
  have hsums : (p.monomials.foldlM SumTable.add? ∅).isSome = sumsFit [] p.monomials :=
    isSome_foldlM_add? fun vars => by simp [coefficient]
  unfold normalizeIndexed? normalize?
  cases hchecked : p.monomials.foldlM SumTable.add? ∅ with
  | none =>
    rw [hchecked, Option.isSome_none] at hsums
    rw [← hsums]
    rfl
  | some sums =>
    rw [hchecked, Option.isSome_some] at hsums
    have hmerge := mergeIndexed?_eq fun vars _ => sumsFit_iff.1 hsums.symm vars
    rw [← hsums, hmerge]
    rfl

theorem map_vars_absorb (m : Monomial) (ms : List Monomial) :
    (absorb m ms).map Monomial.vars = if m.vars ∈ ms.map Monomial.vars then
      ms.map Monomial.vars else ms.map Monomial.vars ++ [m.vars] := by
  induction ms with
  | nil => rfl
  | cons n ns ih =>
    unfold absorb
    split
    · rename_i hsame
      have hsame : n.vars = m.vars := by simpa [Monomial.sameFactors] using hsame
      rw [if_pos (List.mem_map.2 ⟨n, List.mem_cons_self, hsame⟩)]
      rfl
    · rename_i hdiffer
      have hdiffer : n.vars ≠ m.vars := by simpa [Monomial.sameFactors] using hdiffer
      simp only [List.map_cons, List.mem_cons, hdiffer.symm, false_or, ih]
      split <;> rfl

theorem eraseDups_concat {α : Type} [BEq α] [LawfulBEq α] (xs : List α) (x : α) :
    (xs ++ [x]).eraseDups = if xs.contains x then xs.eraseDups else xs.eraseDups ++ [x] := by
  rw [List.eraseDups_append]
  cases hx : xs.contains x <;> simp_all [List.removeAll, List.eraseDups_cons]

theorem map_vars_foldl_absorb (ms : List Monomial) :
    (ms.foldl (fun merged m => absorb m merged) []).map Monomial.vars =
      (ms.map Monomial.vars).eraseDups := by
  induction ms using List.reverseRecOn with
  | nil => rfl
  | append_singleton ms m ih =>
    rw [List.foldl_append, List.foldl_cons, List.foldl_nil, map_vars_absorb, ih, List.map_append,
      List.map_singleton, eraseDups_concat]
    simp only [List.mem_eraseDups, List.contains_iff_mem]

theorem eraseDups_filter {α : Type} [BEq α] [LawfulBEq α] (keep : α → Bool) (xs : List α) :
    (xs.filter keep).eraseDups = xs.eraseDups.filter keep := by
  induction xs using List.reverseRecOn with
  | nil => rfl
  | append_singleton xs x ih =>
    rw [List.filter_append, eraseDups_concat]
    cases hx : keep x with
    | false =>
      rw [List.filter_singleton, hx, Bool.cond_false, List.append_nil, ih]
      split <;> simp [hx]
    | true =>
      rw [List.filter_singleton, hx, Bool.cond_true, eraseDups_concat, ih]
      simp only [List.contains_iff_mem, List.mem_filter, hx, and_true]
      split <;> simp [hx]

/-- The products with their coefficients in order of first appearance, without constants and
without those that cancel. -/
def canonicalTerms (ms : List Monomial) : List (List Variable × Int) :=
  ((ms.map Monomial.vars).eraseDups.filter fun vars =>
    decide (vars ≠ [] ∧ coefficient vars ms ≠ 0)).map fun vars => (vars, coefficient vars ms)

theorem mergeTerms_canonical (ms : List Monomial) :
    (mergeTerms ms).map (fun m => (m.vars, m.coef)) = canonicalTerms ms := by
  let merged := (ms.filter fun m => !m.vars.isEmpty).foldl (fun merged m => absorb m merged) []
  have hcoef : ∀ m ∈ merged, m.vars ≠ [] ∧ m.coef = coefficient m.vars ms := by
    intro m hm
    obtain ⟨k, hk, hvars⟩ := vars_of_mem_foldl_absorb hm
    have hne : m.vars ≠ [] := by
      have hfactors := (List.mem_filter.1 (List.nil_append _ ▸ hk)).2
      simpa [hvars] using hfactors
    have hkept : ∀ n ∈ ms, n.vars = m.vars → (!n.vars.isEmpty) = false → n.coef = 0 := by
      intro n _ hsame hempty
      simp [hsame, hne] at hempty
    refine ⟨hne, ?_⟩
    rw [coef_eq_coefficient (distinct_foldl_absorb .nil) hm, coefficient_foldl_absorb,
      coefficient_filter hkept, coefficient, Int.zero_add]
  have hkeep : ∀ m ∈ merged, (!m.isEmpty) = decide (coefficient m.vars ms ≠ 0) := by
    intro m hm
    obtain ⟨hne, hcoef⟩ := hcoef m hm
    rw [Monomial.isEmpty, List.isEmpty_eq_false_iff.2 hne, hcoef, Bool.false_or, Bool.beq_eq_decide_eq]
    exact (decide_not).symm
  have hproducts : merged.map Monomial.vars =
      (ms.map Monomial.vars).eraseDups.filter fun vars => !vars.isEmpty := by
    rw [map_vars_foldl_absorb, ← eraseDups_filter, List.filter_map]
    rfl
  calc
    (mergeTerms ms).map (fun m => (m.vars, m.coef))
      = (merged.filter fun m => !m.isEmpty).map fun m => (m.vars, coefficient m.vars ms) :=
        List.map_congr_left fun m hm => by rw [(hcoef m (List.mem_filter.1 hm).1).2]
    _ = (merged.filter fun m => decide (coefficient m.vars ms ≠ 0)).map fun m =>
          (m.vars, coefficient m.vars ms) := by rw [List.filter_congr hkeep]
    _ = ((merged.map Monomial.vars).filter fun vars =>
          decide (coefficient vars ms ≠ 0)).map fun vars => (vars, coefficient vars ms) := by
      rw [List.filter_map, List.map_map]
      rfl
    _ = canonicalTerms ms := by
      rw [hproducts, List.filter_filter, canonicalTerms]
      congr 2
      funext vars
      cases vars <;> simp

/-- A term that cancels on the way comes back at its first place. -/
example : canonicalTerms [.linear 0 2, .linear 1 3, .linear 0 (-2), .ofFactors [] 7, .linear 0 4] =
    [([0], 4), ([1], 3)] := by
  decide

/-- A normal form has nothing left to add up. -/
theorem runningSumFits_mergeTerms (h : ∀ vars ≠ [], RunningSumFits vars ms) :
    ∀ vars, RunningSumFits vars (mergeTerms ms) := by
  have hmerged := merged_ofMonomials ms
  have hfits : ∀ m ∈ mergeTerms ms, FitsInt64 m.coef := by
    intro m hm
    rw [coef_of_mem_mergeTerms hm]
    exact h m.vars (hmerged.vars_ne_nil hm) ms List.prefix_rfl
  exact sumsFit_iff.1 (sumsFit_of_distinct hmerged.distinct (by simp) hfits)

/-- What merging makes of the terms of a polynomial, and when it can be made in machine
integers. -/
structure Canonical (p : Polynomial) : Prop where
  /-- One term for each product with factors whose coefficients do not cancel. -/
  terms_eq : p.normalize.monomials.map (fun m => (m.vars, m.coef)) = canonicalTerms p.monomials
  /-- As long as the running sums fit, so does every sum of the merge. -/
  merges : (∀ vars ≠ [], RunningSumFits vars p.monomials) →
    mergeIndexed? p.monomials = some p.normalize.monomials
  /-- Merging again adds nothing up. -/
  settled : p.normalize.normalize = p.normalize ∧
    ((∀ vars ≠ [], RunningSumFits vars p.monomials) →
      mergeIndexed? p.normalize.monomials = some p.normalize.monomials)
  /-- The check refuses a running sum that does not fit, that of the constants included. -/
  isSome_iff : p.normalize?.isSome = true ↔ ∀ vars, RunningSumFits vars p.monomials
  /-- What passes the check is the normal form, and merging it overflows nowhere. -/
  of_eq_some : ∀ q, p.normalize? = some q →
    q = p.normalize ∧ mergeIndexed? p.monomials = some q.monomials
  /-- The check and the merge may each keep a table of their own. -/
  indexed_eq : p.normalizeIndexed? = p.normalize?

theorem isSome_normalize?_iff :
    p.normalize?.isSome = true ↔ ∀ vars, RunningSumFits vars p.monomials := by
  rw [← sumsFit_iff, normalize?]
  cases sumsFit [] p.monomials <;> simp

/-- Merging computes the canonical form, and the check beforehand guards all of its sums. -/
theorem canonical_normalize (p : Polynomial) : p.Canonical where
  terms_eq := mergeTerms_canonical p.monomials
  merges := mergeIndexed?_eq
  settled := by
    have hmerged := merged_normalize p
    constructor
    · exact hmerged.normalize_eq
    · intro h
      have hagain := mergeIndexed?_eq fun vars _ => runningSumFits_mergeTerms h vars
      have hsame : mergeTerms (mergeTerms p.monomials) = mergeTerms p.monomials :=
        mergeTerms_eq hmerged.proper hmerged.distinct
      rwa [hsame] at hagain
  isSome_iff := isSome_normalize?_iff
  of_eq_some := by
    intro q hq
    obtain rfl := eq_normalize_of_normalize? hq
    have hfits := isSome_normalize?_iff.1 (Option.isSome_of_eq_some hq)
    exact ⟨rfl, mergeIndexed?_eq fun vars _ => hfits vars⟩
  indexed_eq := normalizeIndexed?_eq p

end NonlinearInteger.Polynomial
