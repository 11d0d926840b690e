import Std.Data.HashMap
import Mathlib.Data.List.Basic

/-!
# Positions in a hash table

A hash table beside a list answers where a member is, as a search of the list would.
-/

namespace NonlinearInteger

variable {α : Type} [BEq α] [Hashable α]

/-- A table knows the position of every member of a list, and of nothing else. -/
def Locates (index : Std.HashMap α Nat) (as : List α) : Prop :=
  ∀ (a : α) (i : Nat), index[a]? = some i ↔ as[i]? = some a

namespace Locates

variable {index : Std.HashMap α Nat} {as : List α} {a : α}

theorem empty : Locates (∅ : Std.HashMap α Nat) [] := by
  simp [Locates]

theorem getElem?_eq_none_iff (h : Locates index as) : index[a]? = none ↔ a ∉ as := by
  rw [Option.eq_none_iff_forall_ne_some, List.mem_iff_getElem?, not_exists]
  exact forall_congr' fun i => not_congr (h a i)

variable [LawfulBEq α]

theorem getElem?_of_mem (h : Locates index as) (ha : a ∈ as) : index[a]? = some (as.idxOf a) :=
  (h a _).2 (List.getElem?_idxOf ha)

theorem insert (h : Locates index as) (ha : a ∉ as) :
    Locates (index.insert a as.length) (as ++ [a]) := by
  intro b i
  rw [Std.HashMap.getElem?_insert, List.getElem?_append]
  by_cases hb : a = b
  · subst hb
    have hbefore : as[i]? ≠ some a := fun hi => ha (List.mem_of_getElem? hi)
    rw [if_pos (beq_self_eq_true a), Option.some_inj]
    split
    · rename_i hlt
      exact iff_of_false (Nat.ne_of_gt hlt) hbefore
    · rename_i hle
      have hlast : i - as.length = 0 ↔ as.length = i := by omega
      rw [List.getElem?_singleton, ← hlast]
      simp
  · rw [if_neg (by simpa using hb), h]
    split
    · rfl
    · rename_i hle
      rw [List.getElem?_eq_none (Nat.not_lt.1 hle)]
      refine iff_of_false nofun fun hlast => hb ?_
      exact (List.mem_singleton.1 (List.mem_of_getElem? hlast)).symm

theorem insertIfNew (h : Locates index as) (ha : a ∉ as) :
    Locates (index.insertIfNew a as.length) (as ++ [a]) := by
  have hnew : a ∉ index := by
    rw [Std.HashMap.mem_iff_isSome_getElem?, h.getElem?_eq_none_iff.2 ha]
    exact Bool.false_ne_true
  intro b i
  rw [← h.insert ha b i, Std.HashMap.getElem?_insertIfNew, Std.HashMap.getElem?_insert]
  simp only [hnew, not_false_eq_true, and_true]

end Locates
end NonlinearInteger
