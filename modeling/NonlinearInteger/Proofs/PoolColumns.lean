import NonlinearInteger.Proofs.PoolSets
import Std.Data.HashMap

/-!
# Pools in columns

The moves of a pool can also be kept in two columns, the variables and the values, while the
members are looked up in one set of values for each variable, which is dropped when nothing is
left in it. Whatever is done to a new pool, the columns and the sets stay in step with the list
of moves, and the list stays without repeats.
-/

namespace NonlinearInteger

/-- What may be done to a pool. -/
inductive Pool.Operation where
  | push (m : Move)
  | removeAt (i : Nat)
  | clear
  deriving DecidableEq, Repr

/-- What an operation answers: whether a move is new, or which one is taken out. -/
inductive Pool.Answer where
  | pushed (new : Bool)
  | removed (m : Move)
  | cleared
  deriving DecidableEq, Repr

/-- Steps made one after another, with what each of them answers. -/
def answerAll {σ ω α : Type} (step : σ → ω → Checked (α × σ)) (s : σ) :
    List ω → Checked (List α × σ)
  | [] => .ok ([], s)
  | op :: ops => do
    let (answer, t) ← step s op
    let (answers, u) ← answerAll step t ops
    return (answer :: answers, u)

theorem answerAll_cons {σ ω α : Type} {step : σ → ω → Checked (α × σ)} {s t u : σ} {op : ω}
    {ops : List ω} {answer : α} {answers : List α} (hstep : step s op = .ok (answer, t))
    (hrest : answerAll step t ops = .ok (answers, u)) :
    answerAll step s (op :: ops) = .ok (answer :: answers, u) :=
  bind_eq_ok.2 ⟨_, hstep, bind_eq_ok.2 ⟨_, hrest, rfl⟩⟩

namespace Pool

/-- An operation on a pool of any kind, given by what it does to push, to remove and to clear. -/
def performBy {π : Type} (push : π → Move → Bool × π) (removeAt : π → Nat → Checked (Move × π))
    (clear : π → π) (pool : π) : Operation → Checked (Answer × π)
  | .push m => return (.pushed (push pool m).1, (push pool m).2)
  | .removeAt i => do
    let (m, rest) ← removeAt pool i
    return (.removed m, rest)
  | .clear => return (.cleared, clear pool)

def perform (pool : Pool) : Operation → Checked (Answer × Pool) :=
  performBy push removeAt clear pool

/-- The values of each variable. A variable without values is not there. -/
abbrev ValueSets := Std.HashMap Variable (Std.HashSet Int)

namespace ValueSets

/-- The values of a variable. -/
def valuesOf (sets : ValueSets) (v : Variable) : Std.HashSet Int := sets.getD v ∅

def contains (sets : ValueSets) (m : Move) : Bool := (sets.valuesOf m.1).contains m.2

def add (sets : ValueSets) (m : Move) : ValueSets :=
  sets.insert m.1 ((sets.valuesOf m.1).insert m.2)

/-- Leaves some values to a variable. It is dropped if there are none. -/
def leave (sets : ValueSets) (v : Variable) (left : Std.HashSet Int) : ValueSets :=
  if left.isEmpty then sets.erase v else sets.insert v left

def remove (sets : ValueSets) (m : Move) : ValueSets :=
  match sets[m.1]? with
  | some (known : Std.HashSet Int) => sets.leave m.1 (known.erase m.2)
  | none => sets

/-- No set is empty. -/
def Tight (sets : ValueSets) : Prop :=
  ∀ (v : Variable) (known : Std.HashSet Int), sets[v]? = some known → known.isEmpty = false

variable {sets : ValueSets}

theorem contains_add (m n : Move) : (sets.add m).contains n = (m == n || sets.contains n) := by
  rw [Bool.eq_iff_iff]
  by_cases hvar : m.1 = n.1
  · simp [contains, add, valuesOf, hvar, Prod.ext_iff]
  · simp [contains, add, valuesOf, Std.HashMap.getD_insert, hvar, Prod.ext_iff]

theorem Tight.add (h : sets.Tight) (m : Move) : Tight (sets.add m) := by
  intro v known hknown
  rw [ValueSets.add, Std.HashMap.getElem?_insert] at hknown
  split at hknown
  · cases hknown
    exact Std.HashSet.isEmpty_insert
  · exact h v known hknown

theorem contains_valuesOf_leave (v w : Variable) (left : Std.HashSet Int) (x : Int) :
    ((sets.leave v left).valuesOf w).contains x =
      if v = w then left.contains x else (sets.valuesOf w).contains x := by
  unfold leave valuesOf
  split
  · rename_i hempty
    rw [Std.HashMap.getD_erase]
    by_cases hvw : v = w
    · simp [hvw, Std.HashSet.isEmpty_iff_forall_contains.1 hempty x]
    · simp [hvw]
  · rw [Std.HashMap.getD_insert]
    by_cases hvw : v = w <;> simp [hvw]

theorem Tight.leave (h : sets.Tight) (v : Variable) (left : Std.HashSet Int) :
    Tight (sets.leave v left) := by
  intro w known hknown
  unfold ValueSets.leave at hknown
  split at hknown
  · rw [Std.HashMap.getElem?_erase] at hknown
    split at hknown
    · cases hknown
    · exact h w known hknown
  · rename_i hsome
    rw [Std.HashMap.getElem?_insert] at hknown
    split at hknown
    · cases hknown
      exact Bool.eq_false_iff.2 hsome
    · exact h w known hknown

theorem contains_remove (m n : Move) :
    (sets.remove m).contains n = (!(m == n) && sets.contains n) := by
  have hvalues : sets.valuesOf m.1 = (sets[m.1]?).getD ∅ := Std.HashMap.getD_eq_getD_getElem?
  rw [Bool.eq_iff_iff, contains, contains, remove]
  cases hknown : sets[m.1]? with
  | none =>
    rw [hknown, Option.getD_none] at hvalues
    by_cases hvar : m.1 = n.1
    · simp [← hvar, hvalues]
    · simp [hvar, Prod.ext_iff]
  | some known =>
    rw [hknown, Option.getD_some] at hvalues
    dsimp only
    rw [contains_valuesOf_leave]
    by_cases hvar : m.1 = n.1
    · simp [← hvar, hvalues, Prod.ext_iff]
    · simp [hvar, Prod.ext_iff]

theorem Tight.remove (h : sets.Tight) (m : Move) : Tight (sets.remove m) := by
  unfold ValueSets.remove
  split
  · exact h.leave m.1 _
  · exact h

end ValueSets

/-- The variables and the values of the moves in two columns, with an index by variable. -/
structure Columns where
  vars : Array Variable
  values : Array Int
  members : ValueSets

/-- Takes the entry at a position out of a column. -/
def takeAt {α : Type} (a : Array α) (i : Nat) : Checked (α × Array α) :=
  if h : i < a.size then .ok (a[i], dropAt a i h) else .error .missingEntry

namespace Columns

def empty : Columns := ⟨#[], #[], ∅⟩

def contains (t : Columns) (m : Move) : Bool := t.members.contains m

/-- The set of a variable is written first, also if the value is there already. -/
def push (t : Columns) (m : Move) : Bool × Columns :=
  if t.contains m then (false, { t with members := t.members.add m })
  else (true, ⟨t.vars.push m.1, t.values.push m.2, t.members.add m⟩)

def removeAt (t : Columns) (i : Nat) : Checked (Move × Columns) := do
  let (v, vars) ← takeAt t.vars i
  let (x, values) ← takeAt t.values i
  return ((v, x), ⟨vars, values, t.members.remove (v, x)⟩)

def clear (_ : Columns) : Columns := empty

def perform (t : Columns) : Operation → Checked (Answer × Columns) :=
  performBy push removeAt clear t

/-- The columns list the moves of a pool in the same order, and know the same members. -/
structure Holds (t : Columns) (pool : Pool) : Prop where
  vars_eq : t.vars = pool.entries.map Prod.fst
  values_eq : t.values = pool.entries.map Prod.snd
  contains_eq : ∀ m, t.contains m = pool.contains m
  /-- No variable keeps a set without values. -/
  tight : t.members.Tight

variable {t : Columns} {pool : Pool}

theorem holds_empty : empty.Holds Pool.empty where
  vars_eq := by simp [empty, Pool.empty]
  values_eq := by simp [empty, Pool.empty]
  contains_eq := by
    simp [contains, ValueSets.contains, ValueSets.valuesOf, empty, Pool.contains, Pool.empty]
  tight := by simp [ValueSets.Tight, empty]

theorem Holds.push (h : t.Holds pool) (m : Move) :
    (t.push m).1 = (pool.push m).1 ∧ (t.push m).2.Holds (pool.push m).2 := by
  have hindex : ∀ n, (t.members.add m).contains n = (pool.insert m).contains n := by
    intro n
    rw [ValueSets.contains_add, contains_insert, ← h.contains_eq n]
    rfl
  have htight := h.tight.add m
  unfold insert at hindex
  unfold Columns.push Pool.push at *
  rw [h.contains_eq m]
  split
  · rename_i hknown
    rw [if_pos hknown] at hindex
    exact ⟨rfl, h.vars_eq, h.values_eq, hindex, htight⟩
  · rename_i hnew
    rw [if_neg hnew] at hindex
    refine ⟨rfl, ?_, ?_, hindex, htight⟩
    · rw [Array.map_push, h.vars_eq]
    · rw [Array.map_push, h.values_eq]

theorem takeAt_map {α β : Type} (f : α → β) {a : Array α} {i : Nat} (h : i < a.size) :
    takeAt (a.map f) i = .ok (f a[i], (dropAt a i h).map f) := by
  rw [takeAt, dif_pos (by simpa using h), map_dropAt f h, Array.getElem_map]

theorem Holds.removeAt (h : t.Holds pool) {i : Nat} (hi : i < pool.entries.size) :
    ∃ left, t.removeAt i = .ok (pool.entries[i], left) ∧
      left.Holds ⟨dropAt pool.entries i hi, pool.members.erase pool.entries[i]⟩ := by
  have hvars := takeAt_map Prod.fst hi
  have hvalues := takeAt_map Prod.snd hi
  rw [← h.vars_eq] at hvars
  rw [← h.values_eq] at hvalues
  refine ⟨_, bind_eq_ok.2 ⟨_, hvars, bind_eq_ok.2 ⟨_, hvalues, rfl⟩⟩, rfl, rfl, ?_, ?_⟩
  · intro n
    have hknown : t.members.contains n = pool.members.contains n := h.contains_eq n
    rw [contains, ValueSets.contains_remove, hknown]
    exact Std.HashSet.contains_erase.symm
  · exact h.tight.remove _

end Columns

/-- The moves are listed without repeats, the index answers for the list, and the operations
change the list as they say. -/
structure Exact (pool : Pool) : Prop extends pool.Indexed where
  /-- A move that is not there is appended. -/
  push_new : ∀ m, m ∉ pool.entries →
    ∃ next, pool.push m = (true, next) ∧ next.entries = pool.entries.push m
  /-- A move that is there changes nothing. -/
  push_known : ∀ m ∈ pool.entries, pool.push m = (false, pool)
  /-- The last entry fills the gap of the one taken out, and the others stay where they are. What
  is taken out is gone, and can be pushed again. -/
  removeAt : ∀ (i : Nat) (m : Move), pool.entries[i]? = some m → ∃ rest,
    pool.removeAt i = .ok (m, rest) ∧ rest.size + 1 = pool.size ∧
      (∀ j < rest.size, rest.entries[j]? = if j = i then pool.entries.back? else pool.entries[j]?) ∧
        rest.contains m = false ∧ m ∉ rest.entries ∧
          ∃ next, rest.push m = (true, next) ∧ next.entries = rest.entries.push m

variable {pool : Pool}

theorem Indexed.push_of_notMem (h : pool.Indexed) {m : Move} (hm : m ∉ pool.entries) :
    pool.push m = (true, ⟨pool.entries.push m, pool.members.insert m⟩) :=
  if_neg fun hknown => hm ((h.contains_iff m).1 hknown)

theorem Indexed.exact (h : pool.Indexed) : pool.Exact where
  nodup := h.nodup
  contains_iff := h.contains_iff
  push_new := fun m hm => ⟨_, h.push_of_notMem hm, rfl⟩
  push_known := fun m hm => push_of_contains ((h.contains_iff m).2 hm)
  removeAt := by
    intro i m hm
    obtain ⟨hi, rfl⟩ := Array.getElem?_eq_some_iff.1 hm
    let rest : Pool := ⟨Pool.dropAt pool.entries i hi, pool.members.erase pool.entries[i]⟩
    have hrest : rest.Indexed := h.dropAt hi
    have hsize : rest.size + 1 = pool.size := by
      have hdrop : rest.size = pool.entries.size - 1 := size_dropAt hi
      rw [hdrop]
      exact Nat.sub_add_cancel (Nat.zero_lt_of_lt hi)
    have hgone : rest.contains pool.entries[i] = false := by
      rw [contains, Std.HashSet.contains_erase, beq_self_eq_true]
      rfl
    have hnotMem : pool.entries[i] ∉ rest.entries := by
      rw [← hrest.contains_iff, hgone]
      exact Bool.false_ne_true
    refine ⟨rest, dif_pos hi, hsize, ?_, hgone, hnotMem, _, hrest.push_of_notMem hnotMem, rfl⟩
    intro j hj
    have hj : j + 1 < pool.entries.size := by
      have hsize : rest.size + 1 = pool.entries.size := hsize
      omega
    exact (getElem?_dropAt hi j).trans (if_pos hj)

theorem Indexed.push (h : pool.Indexed) (m : Move) : (pool.push m).2.Indexed :=
  (Lists.insert (S := {m | m ∈ pool.entries}) ⟨h, fun _ => Iff.rfl⟩ m).toIndexed

variable {t : Columns}

/-- A removal wants an entry at a position where there is none by then. -/
def Overruns (pool : Pool) (ops : List Operation) : Prop :=
  ∃ done i rest answers last, ops = done ++ .removeAt i :: rest ∧
    answerAll perform pool done = .ok (answers, last) ∧ last.size ≤ i

theorem Overruns.cons {op : Operation} {ops : List Operation} {answer : Answer} {next : Pool}
    (hop : pool.perform op = .ok (answer, next)) (h : next.Overruns ops) :
    pool.Overruns (op :: ops) := by
  obtain ⟨done, i, rest, answers, last, rfl, hrun, hi⟩ := h
  exact ⟨op :: done, i, rest, _, last, rfl, answerAll_cons hop hrun, hi⟩

/-- An operation keeps the columns in step with the list. -/
theorem perform_cases (h : pool.Indexed) (ht : t.Holds pool) (op : Operation) :
    (∃ answer next left, pool.perform op = .ok (answer, next) ∧ t.perform op = .ok (answer, left) ∧
      next.Indexed ∧ left.Holds next) ∨
    ∃ i, op = .removeAt i ∧ pool.size ≤ i := by
  cases op with
  | push m =>
    obtain ⟨hanswer, hnext⟩ := ht.push m
    refine .inl ⟨.pushed (pool.push m).1, _, _, rfl, ?_, h.push m, hnext⟩
    rw [← hanswer]
    rfl
  | removeAt i =>
    by_cases hi : i < pool.entries.size
    · obtain ⟨left, hremove, hleft⟩ := ht.removeAt hi
      have hpool : pool.removeAt i = _ := dif_pos hi
      exact .inl ⟨_, _, left, bind_eq_ok.2 ⟨_, hpool, rfl⟩, bind_eq_ok.2 ⟨_, hremove, rfl⟩,
        h.dropAt hi, hleft⟩
    · exact .inr ⟨i, rfl, Nat.le_of_not_lt hi⟩
  | clear => exact .inl ⟨.cleared, _, _, rfl, rfl, lists_empty.toIndexed, Columns.holds_empty⟩

theorem performAll_cases (h : pool.Indexed) (ht : t.Holds pool) (ops : List Operation) :
    (∃ answers last columns, answerAll perform pool ops = .ok (answers, last) ∧
      answerAll Columns.perform t ops = .ok (answers, columns) ∧ last.Indexed ∧
        columns.Holds last) ∨
    pool.Overruns ops := by
  induction ops generalizing pool t with
  | nil => exact .inl ⟨[], pool, t, rfl, rfl, h, ht⟩
  | cons op ops ih =>
    rcases perform_cases h ht op with ⟨answer, next, left, hpool, hcolumns, hnext, hleft⟩ | hout
    · rcases ih hnext hleft with ⟨answers, last, columns, hrun, hrunColumns, hlast⟩ | hlater
      · exact .inl ⟨_, last, columns, answerAll_cons hpool hrun,
          answerAll_cons hcolumns hrunColumns, hlast⟩
      · exact .inr (hlater.cons hpool)
    · obtain ⟨i, rfl, hi⟩ := hout
      exact .inr ⟨[], i, ops, [], pool, rfl, rfl, hi⟩

/-- Whatever is done to a new pool, it lists its moves without repeats and finds each of them, as
long as every removal has an entry to take out. Columns with sets of values give the same answers
and hold the same moves. -/
theorem exact_of_operations (ops : List Operation) :
    (∃ answers pool columns, answerAll perform empty ops = .ok (answers, pool) ∧
      answerAll Columns.perform .empty ops = .ok (answers, columns) ∧ pool.Exact ∧
        columns.Holds pool) ∨
    empty.Overruns ops := by
  rcases performAll_cases lists_empty.toIndexed Columns.holds_empty ops with
    ⟨answers, pool, columns, hrun, hrunColumns, hpool, hcolumns⟩ | hout
  · exact .inl ⟨answers, pool, columns, hrun, hrunColumns, hpool.exact, hcolumns⟩
  · exact .inr hout

end Pool
end NonlinearInteger
