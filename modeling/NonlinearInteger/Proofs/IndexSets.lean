import Mathlib.Data.List.Basic
import NonlinearInteger.Search.IndexSet
import NonlinearInteger.Proofs.Success

/-!
# Sets of indices with positions

The table of positions is the inverse of the list of members. From this alone
there are no repeats, and what is in the set is read off the table.
-/

namespace NonlinearInteger
namespace IndexSet

/-- Positions below a bound, and exactly those of the members. -/
structure Valid (bound : Nat) (s : IndexSet) : Prop where
  size_position : s.position.size = bound
  inverse : ∀ i p : Nat, s.position[i]? = some (some p) ↔ s.members[p]? = some i

variable {bound : Nat} {s : IndexSet}

theorem valid_empty (bound : Nat) : (empty bound).Valid bound :=
  ⟨by simp [empty], fun i p => by simp [empty, Array.getElem?_replicate]⟩

namespace Valid

theorem lt_of_mem (h : s.Valid bound) {i : Nat} (hi : i ∈ s.members) : i < bound := by
  obtain ⟨p, hp⟩ := Array.mem_iff_getElem?.1 hi
  have hpos := (h.inverse i p).2 hp
  rw [← h.size_position]
  exact (Array.getElem?_eq_some_iff.1 hpos).1

theorem eq_of_member (h : s.Valid bound) {i p q : Nat} (hp : s.members[p]? = some i)
    (hq : s.members[q]? = some i) : q = p := by
  have hpos := (h.inverse i p).2 hp
  rw [(h.inverse i q).2 hq] at hpos
  simpa using hpos

theorem nodup (h : s.Valid bound) : s.members.toList.Nodup := by
  rw [List.nodup_iff_pairwise_ne, List.pairwise_iff_getElem]
  intro p q hp hq hpq heq
  simp only [Array.length_toList, Array.getElem_toList] at hp hq heq
  have hmember := Array.getElem?_eq_getElem hq
  rw [← heq] at hmember
  have hsame := h.eq_of_member (Array.getElem?_eq_getElem hp) hmember
  omega

/-- The entry of an index tells whether and where it is a member. -/
theorem position_cases (h : s.Valid bound) {i : Nat} (hi : i < bound) :
    (s.position[i]? = some none ∧ i ∉ s.members) ∨
      ∃ p, s.position[i]? = some (some p) ∧ s.members[p]? = some i := by
  have hlt : i < s.position.size := h.size_position ▸ hi
  rcases hentry : s.position[i] with - | p
  · refine .inl ⟨by simp [hlt, hentry], fun hmem => ?_⟩
    obtain ⟨p, hp⟩ := Array.mem_iff_getElem?.1 hmem
    have hpos := (h.inverse i p).2 hp
    simp [hlt, hentry] at hpos
  · have hpos : s.position[i]? = some (some p) := by simp [hlt, hentry]
    exact .inr ⟨p, hpos, (h.inverse i p).1 hpos⟩

theorem contains_eq (h : s.Valid bound) {i : Nat} (hi : i < bound) :
    s.contains i = .ok (decide (i ∈ s.members)) := by
  unfold contains
  rcases h.position_cases hi with ⟨hpos, hmem⟩ | ⟨p, hpos, hp⟩
  · rw [fetch_eq_ok.2 hpos]
    simp [hmem, bind, Except.bind, pure, Except.pure]
  · rw [fetch_eq_ok.2 hpos]
    simp [Array.mem_of_getElem? hp, bind, Except.bind, pure, Except.pure]

theorem add (h : s.Valid bound) {i : Nat} (hi : i < bound) :
    Succeeds (s.add i) fun t =>
      t.Valid bound ∧ ∀ j, j ∈ t.members ↔ j = i ∨ j ∈ s.members := by
  unfold IndexSet.add
  rcases h.position_cases hi with ⟨hpos, hmem⟩ | ⟨p, hpos, hp⟩
  · rw [fetch_eq_ok.2 hpos]
    have hlt : i < s.position.size := h.size_position ▸ hi
    refine (succeeds_store _ hlt).bind fun position hposition => .of_pure ⟨⟨?_, ?_⟩, ?_⟩
    · exact hposition.1.trans h.size_position
    · intro j q
      have hinv := h.inverse j q
      rw [hposition.2 j, Array.getElem?_push]
      have hfree : s.members[q]? ≠ some i := fun hq => hmem (Array.mem_of_getElem? hq)
      have hend : s.members[s.members.size]? = none := by simp
      by_cases hj : j = i <;> by_cases hq : q = s.members.size <;> grind
    · intro j
      simp [or_comm]
  · rw [fetch_eq_ok.2 hpos]
    refine .of_pure ⟨h, fun j => ⟨.inr, ?_⟩⟩
    rintro (rfl | hj)
    · exact Array.mem_of_getElem? hp
    · exact hj

theorem pop (h : s.Valid bound) {i p : Nat} (hp : s.members[p]? = some i)
    (hend : p + 1 = s.members.size) {position : Array (Option Nat)}
    (hsize : position.size = s.position.size)
    (hposition : ∀ j, position[j]? = if j = i then some none else s.position[j]?) :
    Valid bound ⟨s.members.pop, position⟩ ∧
      ∀ j, j ∈ s.members.pop ↔ j ≠ i ∧ j ∈ s.members := by
  have hunique : ∀ q, s.members[q]? = some i → q = p := fun q hq => h.eq_of_member hp hq
  have hpop : ∀ q : Nat, s.members.pop[q]? = if q = p then none else s.members[q]? := by
    intro q
    rw [Array.getElem?_pop]
    grind
  refine ⟨⟨hsize.trans h.size_position, fun j q => ?_⟩, fun j => ?_⟩
  · have hinv := h.inverse j q
    rw [hposition, hpop]
    grind
  · simp only [Array.mem_iff_getElem?, hpop]
    grind

/-- A member leaves, and the last one fills the gap. -/
theorem fill (h : s.Valid bound) {i p last : Nat} (hp : s.members[p]? = some i)
    (hend : p + 1 ≠ s.members.size) (hlast : s.members[s.members.size - 1]? = some last)
    {members : Array Nat} (hmembers : members.size = s.members.size ∧
      ∀ q, members[q]? = if q = p then some last else s.members[q]?)
    {position : Array (Option Nat)} (hsize : position.size = s.position.size)
    (hposition : ∀ j, position[j]? =
      if j = last then some (some p) else if j = i then some none else s.position[j]?) :
    Valid bound ⟨members.pop, position⟩ ∧
      ∀ j, j ∈ members.pop ↔ j ≠ i ∧ j ∈ s.members := by
  have hlt := (Array.getElem?_eq_some_iff.1 hp).1
  have hunique : ∀ q, s.members[q]? = some i → q = p := fun q hq => h.eq_of_member hp hq
  have hposlast := (h.inverse last _).2 hlast
  have hpop : ∀ q : Nat, members.pop[q]? =
      if q = p then some last else if q = s.members.size - 1 then none
      else s.members[q]? := by
    intro q
    rw [Array.getElem?_pop, hmembers.1, hmembers.2]
    grind
  have hne : last ≠ i := by
    rintro rfl
    have := hunique _ hlast
    omega
  refine ⟨⟨hsize.trans h.size_position, fun j q => ?_⟩, fun j => ?_⟩
  · have hinv := h.inverse j q
    rw [hposition, hpop]
    grind
  · simp only [Array.mem_iff_getElem?, hpop]
    grind

theorem remove (h : s.Valid bound) {i : Nat} (hi : i < bound) :
    Succeeds (s.remove i) fun t =>
      t.Valid bound ∧ ∀ j, j ∈ t.members ↔ j ≠ i ∧ j ∈ s.members := by
  unfold IndexSet.remove
  rcases h.position_cases hi with ⟨hpos, hmem⟩ | ⟨p, hpos, hp⟩
  · rw [fetch_eq_ok.2 hpos]
    refine .of_pure ⟨h, fun j => ⟨fun hj => ⟨?_, hj⟩, fun hj => hj.2⟩⟩
    rintro rfl
    exact hmem hj
  · rw [fetch_eq_ok.2 hpos]
    have hlt : i < s.position.size := h.size_position ▸ hi
    have hp_lt : p < s.members.size := (Array.getElem?_eq_some_iff.1 hp).1
    apply (succeeds_store none hlt).bind
    rintro position ⟨hsize, hposition⟩
    split
    · rename_i hend
      exact .of_pure (h.pop hp hend hsize hposition)
    · rename_i hend
      obtain ⟨last, hlast⟩ : ∃ last, s.members[s.members.size - 1]? = some last :=
        ⟨_, Array.getElem?_eq_getElem (by omega)⟩
      have hbound : last < position.size := by
        rw [hsize]
        exact (Array.getElem?_eq_some_iff.1 ((h.inverse last _).2 hlast)).1
      apply Succeeds.next (fetch_eq_ok.2 hlast)
      apply (succeeds_store last hp_lt).bind
      intro members hmembers
      apply (succeeds_store (some p) hbound).bind
      intro moved hmoved
      have hentries : ∀ j, moved[j]? =
          if j = last then some (some p) else if j = i then some none else s.position[j]? := by
        intro j
        rw [hmoved.2, hposition]
      exact .of_pure (h.fill hp hend hlast hmembers (hmoved.1.trans hsize) hentries)

theorem file (h : s.Valid bound) {i : Nat} (hi : i < bound) (present : Bool) :
    Succeeds (s.file i present) fun t => t.Valid bound ∧
      ∀ j, j ∈ t.members ↔ if j = i then present = true else j ∈ s.members := by
  unfold IndexSet.file
  cases present with
  | true =>
    refine (h.add hi).mono fun t ht => ⟨ht.1, fun j => ?_⟩
    rw [ht.2 j]
    by_cases hj : j = i <;> simp [hj]
  | false =>
    refine (h.remove hi).mono fun t ht => ⟨ht.1, fun j => ?_⟩
    rw [ht.2 j]
    by_cases hj : j = i <;> simp [hj]

theorem foldlM_file {ε β : Type} {f : IndexSet → β → Except ε IndexSet} (key : β → Nat)
    (present : Nat → Prop) {bs : List β}
    (step : ∀ (t : IndexSet) (b : β), b ∈ bs → t.Valid bound → Succeeds (f t b) fun u =>
      u.Valid bound ∧ ∀ j, j ∈ u.members ↔
        if j = key b then present j else j ∈ t.members)
    (h : s.Valid bound) :
    Succeeds (bs.foldlM f s) fun t => t.Valid bound ∧
      ∀ j, j ∈ t.members ↔ if j ∈ bs.map key then present j else j ∈ s.members := by
  induction bs generalizing s with
  | nil => exact .of_pure ⟨h, by simp⟩
  | cons b bs ih =>
    rw [List.foldlM_cons]
    apply (step s b List.mem_cons_self h).bind
    intro t ht
    have hrest := ih (fun t b' hb' => step t b' (List.mem_cons_of_mem b hb')) ht.1
    refine hrest.mono fun u hu => ⟨hu.1, fun j => ?_⟩
    rw [hu.2 j, ht.2 j]
    grind

end Valid
end IndexSet
end NonlinearInteger
