import NonlinearInteger.Search.Pool
import NonlinearInteger.Proofs.Success
import Mathlib.Data.List.Nodup
import Mathlib.Data.Set.Insert

/-!
# Pools as sets

A pool stands for the set of its moves. It lists each of them once, and its index answers for
the list. Adding a move adds it to the set, taking one out takes it out of the set, and a loop
that adds to a pool adds to the set what each of its steps does.
-/

namespace NonlinearInteger.Pool

/-- No move is listed twice, and the index knows the moves that are listed. -/
structure Indexed (pool : Pool) : Prop where
  nodup : pool.entries.toList.Nodup
  contains_iff : ∀ m, pool.contains m = true ↔ m ∈ pool.entries

/-- The moves of a set are listed. -/
structure Lists (S : Set Move) (pool : Pool) : Prop extends pool.Indexed where
  mem_iff : ∀ m, m ∈ pool.entries ↔ m ∈ S

variable {pool : Pool} {S : Set Move} {m : Move}

theorem mem_entries_insert (h : pool.Indexed) {n : Move} :
    n ∈ (pool.insert m).entries ↔ n ∈ pool.entries ∨ n = m := by
  unfold insert push
  split
  · rename_i hcontains
    have hm := (h.contains_iff m).1 hcontains
    exact (or_iff_left_of_imp fun hn => hn ▸ hm).symm
  · exact Array.mem_push

theorem lists_empty : empty.Lists ∅ where
  nodup := by simp [empty]
  contains_iff := by simp [empty, contains]
  mem_iff := by simp [empty]

theorem Lists.congr {T : Set Move} (h : pool.Lists S) (hST : ∀ m, m ∈ S ↔ m ∈ T) :
    pool.Lists T where
  nodup := h.nodup
  contains_iff := h.contains_iff
  mem_iff := fun m => (h.mem_iff m).trans (hST m)

theorem Lists.insert (h : pool.Lists S) (m : Move) : (pool.insert m).Lists (S ∪ {m}) := by
  have hmem : ∀ n, n ∈ (pool.insert m).entries ↔ n ∈ S ∪ {m} := by
    intro n
    rw [mem_entries_insert h.toIndexed, h.mem_iff n]
    rfl
  refine ⟨⟨?_, fun n => ?_⟩, hmem⟩
  · unfold Pool.insert push
    split
    · exact h.nodup
    · rename_i hcontains
      have hm : m ∉ pool.entries := fun hm => hcontains ((h.contains_iff m).2 hm)
      rw [Array.toList_push, ← List.concat_eq_append]
      exact (List.nodup_concat _ _).2 ⟨mt Array.mem_def.2 hm, h.nodup⟩
  · rw [contains_insert, mem_entries_insert h.toIndexed, ← h.contains_iff n, Bool.or_eq_true,
      beq_iff_eq, or_comm]
    exact or_congr_right eq_comm

theorem Indexed.dropAt (h : pool.Indexed) {i : Nat} (hi : i < pool.entries.size) :
    Indexed ⟨Pool.dropAt pool.entries i hi, pool.members.erase pool.entries[i]⟩ := by
  have hperm := perm_dropAt hi
  have hnodup : (pool.entries[i] :: (Pool.dropAt pool.entries i hi).toList).Nodup :=
    hperm.nodup_iff.2 h.nodup
  refine ⟨(List.nodup_cons.1 hnodup).2, fun n => ?_⟩
  have hindex : pool.members.contains n = true ↔ n ∈ pool.entries := h.contains_iff n
  have hmem : n ∈ pool.entries ↔
      n = pool.entries[i] ∨ n ∈ Pool.dropAt pool.entries i hi := by
    rw [Array.mem_def, Array.mem_def, ← hperm.mem_iff, List.mem_cons]
  have hgone : pool.entries[i] ∉ Pool.dropAt pool.entries i hi :=
    fun hmem => (List.nodup_cons.1 hnodup).1 (Array.mem_def.1 hmem)
  simp only [contains, Std.HashSet.contains_erase, Bool.and_eq_true, Bool.not_eq_true',
    beq_eq_false_iff_ne, hindex, hmem]
  grind

theorem succeeds_removeAt {i : Nat} (hi : i < pool.size) :
    Succeeds (pool.removeAt i) fun r => r.2.size + 1 = pool.size ∧
      (r.1 :: r.2.entries.toList).Perm pool.entries.toList ∧ (pool.Indexed → r.2.Indexed) := by
  have hlt : i < pool.entries.size := hi
  have hsize : (Pool.dropAt pool.entries i hlt).size + 1 = pool.entries.size := by
    rw [size_dropAt hlt]
    omega
  exact ⟨_, dif_pos hlt, hsize, perm_dropAt hlt, fun h => h.dropAt hlt⟩

theorem lt_of_removeAt {rest : Pool} {i : Nat} (h : pool.removeAt i = .ok (m, rest)) :
    i < pool.size := by
  by_contra hi
  have hi : ¬i < pool.entries.size := hi
  simp [removeAt, hi] at h

theorem Lists.foldlM {ε α : Type} {f : Pool → α → Except ε Pool} {as : List α}
    (adds : α → Set Move)
    (step : ∀ a ∈ as, ∀ (pool : Pool) (S : Set Move), pool.Lists S →
      Succeeds (f pool a) (Lists (S ∪ adds a)))
    (h : pool.Lists S) :
    Succeeds (as.foldlM f pool) (Lists (S ∪ {m | ∃ a ∈ as, m ∈ adds a})) := by
  induction as generalizing pool S with
  | nil => exact .of_pure (h.congr (by simp))
  | cons a as ih =>
    rw [List.foldlM_cons]
    apply (step a List.mem_cons_self pool S h).bind
    intro next hnext
    apply (ih (fun a' ha' => step a' (List.mem_cons_of_mem a ha')) hnext).mono
    intro last hlast
    apply hlast.congr
    intro m
    simp [or_assoc]

end NonlinearInteger.Pool
