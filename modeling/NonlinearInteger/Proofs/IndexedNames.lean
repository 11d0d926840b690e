import NonlinearInteger.Proofs.Positions
import NonlinearInteger.Proofs.Readings

/-!
# Names numbered through an index

A name can be numbered without a search when a hash table beside the names knows the number of
each. The index answers as a search would, so the names come out in the same order and with the
same numbers.
-/

namespace NonlinearInteger.Lp

/-- The names numbered so far, and the number of each. -/
structure NameTable where
  index : Std.HashMap String Variable
  names : Array String

namespace NameTable

def empty : NameTable := ⟨∅, #[]⟩

/-- The number that the index finds, or the next one for a name that is new. -/
def number (t : NameTable) (name : String) : Variable × NameTable :=
  match t.index[name]? with
  | some v => (v, t)
  | none => (t.names.size, ⟨t.index.insert name t.names.size, t.names.push name⟩)

/-- The numbers of names that come one after another. -/
def numberAll (t : NameTable) : List String → List Variable × NameTable
  | [] => ([], t)
  | name :: names =>
    let (v, t) := t.number name
    let (vs, t) := t.numberAll names
    (v :: vs, t)

/-- The index knows the number of every name. -/
def Indexed (t : NameTable) : Prop := Locates t.index t.names.toList

variable {t : NameTable}

theorem indexed_empty : empty.Indexed := .empty

/-- The index saves the search. -/
theorem intern_eq_number (h : t.Indexed) (name : String) :
    intern t.names name = ((t.number name).2.names, (t.number name).1) := by
  by_cases hmem : name ∈ t.names
  · have hfound : t.index[name]? = some (position t.names name) :=
      Locates.getElem?_of_mem h (Array.mem_toList_iff.2 hmem)
    rw [intern_of_mem hmem, number, hfound]
  · have hnew := h.getElem?_eq_none_iff.2 (mt Array.mem_toList_iff.1 hmem)
    rw [intern_of_notMem hmem, number, hnew]

theorem Indexed.number (h : t.Indexed) (name : String) : (t.number name).2.Indexed := by
  unfold NameTable.number
  split
  · exact h
  · rename_i hnew
    have hnext := Locates.insert h (h.getElem?_eq_none_iff.1 hnew)
    rwa [Array.length_toList, ← Array.toList_push] at hnext

/-- What the index makes of names that come one after another. -/
structure NumbersAll (t : NameTable) (names : List String) : Prop where
  indexed : (t.numberAll names).2.Indexed
  names_eq : (t.numberAll names).2.names = internAll t.names names
  numbers_eq : (t.numberAll names).1 = names.map (position (internAll t.names names))

theorem numbersAll (h : t.Indexed) (names : List String) : NumbersAll t names := by
  induction names generalizing t with
  | nil => exact ⟨h, rfl, rfl⟩
  | cons name names ih =>
    have hintern := intern_eq_number h name
    have hrest := ih (h.number name)
    have hnames : internAll t.names (name :: names) =
        internAll (t.number name).2.names names := by
      rw [internAll, List.foldl_cons, hintern, internAll]
    refine ⟨hrest.indexed, hrest.names_eq.trans hnames.symm, ?_⟩
    -- The names behind do not change the number of the first.
    have hfirst := position_internAll_of_intern hintern names
    rw [hnames, List.map_cons, hfirst, ← hrest.numbers_eq]
    rfl

end NameTable
end NonlinearInteger.Lp
