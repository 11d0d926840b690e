import NonlinearInteger.Monomial
import Std.Data.HashSet

/-!
# Pools of moves

A pool lists candidate moves, a variable and its new value, without repeats. A
move is taken out by its position, and the last one fills the gap. An index of
the members answers whether a move is present.
-/

namespace NonlinearInteger

abbrev Move := Variable × Int

structure Pool where
  entries : Array Move
  members : Std.HashSet Move

namespace Pool

def empty : Pool := ⟨#[], ∅⟩

def size (p : Pool) : Nat := p.entries.size

def isEmpty (p : Pool) : Bool := p.entries.isEmpty

def contains (p : Pool) (m : Move) : Bool := p.members.contains m

/-- Appends a move, and tells whether it is new. -/
def push (p : Pool) (m : Move) : Bool × Pool :=
  if p.contains m then (false, p) else (true, ⟨p.entries.push m, p.members.insert m⟩)

/-- Appends a move that is new. -/
def insert (p : Pool) (m : Move) : Pool := (p.push m).2

theorem push_of_contains {p : Pool} {m : Move} (h : p.contains m = true) :
    p.push m = (false, p) := if_pos h

theorem contains_insert (p : Pool) (m n : Move) :
    (p.insert m).contains n = (m == n || p.contains n) := by
  unfold insert push
  split
  · rename_i h
    by_cases hmn : m = n
    · simp [← hmn, h]
    · simp [hmn]
  · simp [contains, Std.HashSet.contains_insert]

/-- Fills the gap at a position with the last entry. -/
def dropAt {α : Type} (a : Array α) (i : Nat) (h : i < a.size) : Array α :=
  (a.swap i (a.size - 1) h (by omega)).pop

theorem perm_dropAt {α : Type} {a : Array α} {i : Nat} (h : i < a.size) :
    (a[i] :: (dropAt a i h).toList).Perm a.toList := by
  have hlast : a.size - 1 < a.size := by omega
  let b := a.swap i (a.size - 1) h hlast
  have hsize : b.size = a.size := Array.size_swap ..
  have hne : b.toList ≠ [] := by
    intro hb
    have := congrArg List.length hb
    simp only [Array.length_toList, List.length_nil] at this
    omega
  have hback : b.toList.getLast hne = a[i] := by
    simp [b, List.getLast_eq_getElem]
  have hsplit : (dropAt a i h).toList ++ [a[i]] = b.toList := by
    rw [← hback, dropAt, Array.toList_pop]
    exact List.dropLast_concat_getLast hne
  have hperm : b.toList.Perm a.toList := (Array.swap_perm h hlast).toList
  exact (List.perm_append_singleton a[i] _).symm.trans (hsplit ▸ hperm)

theorem size_dropAt {α : Type} {a : Array α} {i : Nat} (h : i < a.size) :
    (dropAt a i h).size = a.size - 1 := by
  simp [dropAt]

/-- The last entry moves to the position, and every other one stays where it is. -/
theorem getElem?_dropAt {α : Type} {a : Array α} {i : Nat} (h : i < a.size) (j : Nat) :
    (dropAt a i h)[j]? =
      if j + 1 < a.size then if j = i then a.back? else a[j]? else none := by
  have hlast : a.back? = some a[a.size - 1] := by
    rw [Array.back?_eq_getElem?, Array.getElem?_eq_getElem]
  rw [dropAt, Array.getElem?_pop, Array.size_swap, Array.getElem?_swap, hlast]
  by_cases hj : j + 1 < a.size
  · have hne : a.size - 1 ≠ j := by omega
    rw [if_pos (Nat.lt_sub_of_add_lt hj), if_neg hne, if_pos hj]
    simp only [eq_comm]
  · rw [if_neg fun h => hj (Nat.add_lt_of_lt_sub h), if_neg hj]

theorem map_dropAt {α β : Type} (f : α → β) {a : Array α} {i : Nat} (h : i < a.size) :
    (dropAt a i h).map f = dropAt (a.map f) i (by simpa using h) := by
  apply Array.ext_getElem?
  intro j
  rw [Array.getElem?_map, getElem?_dropAt, getElem?_dropAt, Array.size_map, Array.back?_map,
    Array.getElem?_map]
  split
  · split <;> rfl
  · rfl

def removeAt (p : Pool) (i : Nat) : Checked (Move × Pool) :=
  if h : i < p.entries.size then
    let m := p.entries[i]
    .ok (m, ⟨dropAt p.entries i h, p.members.erase m⟩)
  else .error .missingEntry

def entryAt (p : Pool) (i : Nat) : Checked Move := fetch p.entries i

/-- Every move is taken out. -/
def clear (_ : Pool) : Pool := empty

end Pool
end NonlinearInteger
