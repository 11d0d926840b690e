import NonlinearInteger.Proofs.Positions
import NonlinearInteger.Proofs.Renaming

/-!
# Merging through an index

Terms can be merged without a search when the position of each product among the merged terms
is kept in a hash table. The table answers for the positions throughout, so the result is the
same list of terms.
-/

namespace NonlinearInteger.Polynomial

/-- The terms merged so far, and where each product is among them. -/
structure TermTable where
  index : Std.HashMap (List Variable) Nat
  terms : Array Monomial

namespace TermTable

def empty : TermTable := ⟨∅, #[]⟩

/-- Adds a term to the one that the index finds, or at the end. -/
def add (t : TermTable) (m : Monomial) : TermTable :=
  match t.index[m.vars]? with
  | some i => { t with terms := t.terms.modify i fun n => n.withCoef (n.coef + m.coef) }
  | none => ⟨t.index.insert m.vars t.terms.size, t.terms.push m⟩

/-- The index knows the position of every product that is there, and of no other. -/
def Indexed (t : TermTable) : Prop :=
  ∀ (vars : List Variable) (i : Nat),
    t.index[vars]? = some i ↔ t.terms[i]?.map Monomial.vars = some vars

variable {t : TermTable} {m : Monomial}

theorem indexed_iff : t.Indexed ↔ Locates t.index (t.terms.toList.map Monomial.vars) := by
  simp [Indexed, Locates]

theorem indexed_empty : empty.Indexed := indexed_iff.2 .empty

theorem Indexed.add (h : t.Indexed) (m : Monomial) : (t.add m).Indexed := by
  unfold TermTable.add
  split
  · -- A product stays where it is.
    intro vars j
    rw [h vars j, Array.getElem?_modify]
    split
    · rw [Option.map_map]
      rfl
    · rfl
  · rename_i hnew
    have hlocates := indexed_iff.1 h
    have hnext := hlocates.insert (hlocates.getElem?_eq_none_iff.1 hnew)
    exact indexed_iff.2 (by simpa using hnext)

theorem absorb_eq_modify {ms : List Monomial} {i : Nat}
    (hi : ms[i]?.map Monomial.vars = some m.vars)
    (honly : ∀ j, ms[j]?.map Monomial.vars = some m.vars → j = i) :
    absorb m ms = ms.modify i fun n => n.withCoef (n.coef + m.coef) := by
  induction ms generalizing i with
  | nil => cases hi
  | cons k ks ih =>
    cases i with
    | zero =>
      have hk : k.vars = m.vars := by simpa using hi
      rw [absorb, if_pos (by simpa [Monomial.sameFactors] using hk)]
      rfl
    | succ i =>
      have hk : ¬k.sameFactors m = true := by
        intro hsame
        cases honly 0 (by simpa [Monomial.sameFactors] using hsame)
      rw [absorb, if_neg hk, ih hi fun j hj => Nat.succ.inj (honly (j + 1) hj)]
      rfl

/-- The index saves the search. -/
theorem toList_add (h : t.Indexed) (m : Monomial) :
    (t.add m).terms.toList = absorb m t.terms.toList := by
  have hlist : ∀ i, t.terms.toList[i]?.map Monomial.vars = some m.vars ↔
      t.index[m.vars]? = some i := by
    intro i
    rw [Array.getElem?_toList, h]
  unfold add
  split
  · rename_i i hfound
    have honly : ∀ j, t.terms.toList[j]?.map Monomial.vars = some m.vars → j = i :=
      fun j hj => Option.some.inj (((hlist j).1 hj).symm.trans hfound)
    rw [absorb_eq_modify ((hlist i).2 hfound) honly]
    exact Array.toList_modify
  · rename_i hnew
    have hdiffer : ∀ n ∈ t.terms.toList, n.vars ≠ m.vars := by
      intro n hn hsame
      obtain ⟨i, hi⟩ := List.mem_iff_getElem?.1 hn
      have hfound := (hlist i).1 (by rw [hi, Option.map_some, hsame])
      cases hnew.symm.trans hfound
    rw [absorb_eq_append hdiffer]
    exact Array.toList_push

theorem toList_foldl_add (h : t.Indexed) (ms : List Monomial) :
    (ms.foldl add t).terms.toList = ms.foldl (fun merged m => absorb m merged) t.terms.toList := by
  induction ms generalizing t with
  | nil => rfl
  | cons m ms ih => rw [List.foldl_cons, List.foldl_cons, ih (h.add m), toList_add h]

end TermTable

/-- Merges terms through an index: constants are skipped, and zeros are dropped at the end. -/
def mergeIndexed (ms : List Monomial) : List Monomial :=
  ((ms.filter fun m => !m.vars.isEmpty).foldl TermTable.add .empty).terms.toList.filter
    fun m => !m.isEmpty

theorem mergeIndexed_eq (ms : List Monomial) : mergeIndexed ms = mergeTerms ms := by
  rw [mergeIndexed, TermTable.toList_foldl_add TermTable.indexed_empty, mergeTerms]
  rfl

end NonlinearInteger.Polynomial
