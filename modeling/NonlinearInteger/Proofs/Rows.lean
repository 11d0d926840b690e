import NonlinearInteger.Search.Problem
import NonlinearInteger.Proofs.Magnitude
import Mathlib.Data.List.Forall2
import Mathlib.Data.List.Nodup

/-!
# Rows and occurrences

A row lists every variable of its constraint in one slot. The slots of a term
have no repeats although its factors may, since those are sorted, and the terms
of a slot are those that mention its variable.
-/

namespace NonlinearInteger

theorem Polynomial.mem_firstAppearances {v : Variable} {vs : List Variable} :
    v ∈ firstAppearances vs ↔ v ∈ vs := by
  have hrun : ∀ (us seen : List Variable),
      v ∈ us.foldl (fun seen v => if seen.elem v then seen else seen ++ [v]) seen ↔
        v ∈ seen ∨ v ∈ us := by
    intro us
    induction us with
    | nil => simp
    | cons u us ih =>
      intro seen
      rw [List.foldl_cons, ih]
      by_cases hu : u ∈ seen
      · simp only [List.elem_eq_mem, hu, decide_true, if_true, List.mem_cons]
        constructor
        · rintro (h | h)
          · exact .inl h
          · exact .inr (.inr h)
        · rintro (h | rfl | h)
          · exact .inl h
          · exact .inl hu
          · exact .inr h
      · simp [hu, or_assoc]
  simpa [firstAppearances] using hrun vs []

theorem Polynomial.mem_vars {p : Polynomial} {v : Variable} :
    v ∈ p.vars ↔ ∃ m ∈ p.monomials, v ∈ m.vars := by
  rw [vars, mem_firstAppearances, List.mem_flatMap]

theorem Polynomial.contains_iff {p : Polynomial} {v : Variable} :
    p.contains v = true ↔ ∃ m ∈ p.monomials, v ∈ m.vars := by
  simp [contains, Monomial.contains_iff]

theorem Polynomial.nodup_firstAppearances (vs : List Variable) :
    (firstAppearances vs).Nodup := by
  have hrun : ∀ (us seen : List Variable), seen.Nodup →
      (us.foldl (fun seen v => if seen.elem v then seen else seen ++ [v]) seen).Nodup := by
    intro us
    induction us with
    | nil => exact fun _ h => h
    | cons u us ih =>
      intro seen hseen
      rw [List.foldl_cons]
      apply ih
      split
      · exact hseen
      · rename_i hu
        have hu : u ∉ seen := by simpa using hu
        exact List.nodup_append.2 ⟨hseen, List.nodup_singleton u, by
          rintro a ha b hb rfl
          exact hu (List.mem_singleton.1 hb ▸ ha)⟩
  exact hrun vs [] List.nodup_nil

theorem idxOf?_eq_some_iff {vs : Array Nat} (hvs : vs.toList.Nodup) {v i : Nat} :
    vs.idxOf? v = some i ↔ vs[i]? = some v := by
  constructor
  · intro h
    exact fetch_eq_ok.1 (fetch_of_idxOf? h)
  · intro h
    have hmem : v ∈ vs := Array.mem_of_getElem? h
    cases hfind : vs.idxOf? v with
    | none => exact absurd hmem (Array.idxOf?_eq_none_iff.1 hfind)
    | some j =>
      have hj := fetch_eq_ok.1 (fetch_of_idxOf? hfind)
      rw [← Array.getElem?_toList] at h hj
      have hlt : i < vs.toList.length := (List.getElem?_eq_some_iff.1 h).1
      rw [(List.getElem?_inj hlt hvs).1 (h.trans hj.symm)]

namespace Search

theorem mem_dropRepeats {a : Nat} {as : List Nat} : a ∈ dropRepeats as ↔ a ∈ as := by
  fun_induction dropRepeats as with
  | case1 => rfl
  | case2 b => rfl
  | case3 b rest ih => simp [ih]
  | case4 b c rest hne ih => simp [ih]

/-- Values that are sorted by a key are strictly sorted by it when equal
neighbours are dropped. -/
theorem pairwise_dropRepeats {key : Nat → Nat} {as : List Nat}
    (hinj : ∀ a ∈ as, ∀ b ∈ as, key a = key b → a = b)
    (h : as.Pairwise fun a b => key a ≤ key b) :
    (dropRepeats as).Pairwise fun a b => key a < key b := by
  fun_induction dropRepeats as with
  | case1 => exact .nil
  | case2 a => exact List.pairwise_singleton ..
  | case3 a rest ih =>
    exact ih (fun b hb c hc => hinj b (List.mem_cons_of_mem a hb) c (List.mem_cons_of_mem a hc))
      (List.pairwise_cons.1 h).2
  | case4 a b rest hne ih =>
    obtain ⟨ha, hrest⟩ := List.pairwise_cons.1 h
    refine List.pairwise_cons.2 ⟨fun c hc => ?_, ?_⟩
    · have hlt : key a < key b := by
        have hab := ha b List.mem_cons_self
        have hkey : key a ≠ key b := fun heq =>
          hne (hinj a List.mem_cons_self b (List.mem_cons_of_mem a List.mem_cons_self) heq)
        omega
      rcases List.mem_cons.1 (mem_dropRepeats.1 hc) with rfl | hc
      · exact hlt
      · exact Nat.lt_of_lt_of_le hlt ((List.pairwise_cons.1 hrest).1 c hc)
    · exact ih (fun b hb c hc =>
        hinj b (List.mem_cons_of_mem a hb) c (List.mem_cons_of_mem a hc)) hrest

section Slots

variable {vars : Array Variable} {m : Monomial}

theorem mem_slotsOf (hvars : vars.toList.Nodup) {slot : Nat} :
    slot ∈ slotsOf vars m ↔ ∃ v ∈ m.vars, vars[slot]? = some v := by
  simp only [slotsOf, mem_dropRepeats, List.mem_filterMap, idxOf?_eq_some_iff hvars]

theorem nodup_slotsOf (hvars : vars.toList.Nodup) : (slotsOf vars m).Nodup := by
  have hkey : ∀ {slot v : Nat}, vars.idxOf? v = some slot → vars.getD slot 0 = v := by
    intro slot v h
    simp [(idxOf?_eq_some_iff hvars).1 h]
  have hsorted : (m.vars.filterMap vars.idxOf?).Pairwise
      fun a b => vars.getD a 0 ≤ vars.getD b 0 := by
    rw [List.pairwise_filterMap]
    refine m.sorted.imp fun {v w} hvw a ha b hb => ?_
    rw [hkey ha, hkey hb]
    exact hvw
  have hinj : ∀ a ∈ m.vars.filterMap vars.idxOf?, ∀ b ∈ m.vars.filterMap vars.idxOf?,
      vars.getD a 0 = vars.getD b 0 → a = b := by
    intro a ha b hb heq
    obtain ⟨v, -, hv⟩ := List.mem_filterMap.1 ha
    obtain ⟨w, -, hw⟩ := List.mem_filterMap.1 hb
    rw [hkey hv, hkey hw] at heq
    rw [heq, hw] at hv
    exact (Option.some.inj hv).symm
  exact (pairwise_dropRepeats hinj hsorted).imp fun h heq => by simp [heq] at h

end Slots

namespace Row

variable (c : Constraint) (sense : Sense)

theorem nodup_vars : (Row.of c sense).vars.toList.Nodup := by
  simpa [Row.of, Polynomial.vars] using Polynomial.nodup_firstAppearances _

theorem mem_vars {v : Variable} :
    v ∈ (Row.of c sense).vars ↔ ∃ m ∈ c.poly.monomials, v ∈ m.vars := by
  simp [Row.of, Polynomial.vars, Polynomial.mem_firstAppearances]

theorem getElem?_monoSlots (t : Nat) : (Row.of c sense).monoSlots[t]? =
    (Row.of c sense).monomials[t]?.map (slotsOf (Row.of c sense).vars) :=
  Array.getElem?_map

theorem monoSlots_of_monomials {t : Nat} {m : Monomial}
    (h : (Row.of c sense).monomials[t]? = some m) :
    (Row.of c sense).monoSlots[t]? = some (slotsOf (Row.of c sense).vars m) := by
  rw [getElem?_monoSlots, h, Option.map_some]

theorem zipIdx_monoSlots : (Row.of c sense).monoSlots.toList.zipIdx =
    c.poly.monomials.zipIdx.map fun e => (slotsOf (Row.of c sense).vars e.1, e.2) := by
  simp [Row.of, List.zipIdx_map, Prod.map]

theorem getElem?_slotMonos {slot : Nat} (h : slot < (Row.of c sense).vars.size) :
    (Row.of c sense).slotMonos[slot]? = some (monosOf (Row.of c sense).monoSlots slot) := by
  have hmap := List.getElem?_map (f := monosOf (Row.of c sense).monoSlots)
    (l := List.range (Row.of c sense).vars.size) (i := slot)
  rw [List.getElem?_range h] at hmap
  simpa only [Row.of, List.getElem?_toArray, Option.map_some] using hmap

/-- The terms of a slot, in order, are those that mention its variable. -/
theorem slotMonos_mentioning {slot : Nat} {v : Variable}
    (h : (Row.of c sense).vars[slot]? = some v) :
    ∃ terms, (Row.of c sense).slotMonos[slot]? = some terms ∧
      List.Forall₂ (fun t m => (Row.of c sense).monomials[t]? = some m) terms
        (c.poly.mentioning v) := by
  have hnodup := nodup_vars c sense
  have hlt : slot < (Row.of c sense).vars.size := (Array.getElem?_eq_some_iff.1 h).1
  refine ⟨monosOf (Row.of c sense).monoSlots slot, getElem?_slotMonos c sense hlt, ?_⟩
  have hkept : ∀ m ∈ c.poly.monomials,
      (slotsOf (Row.of c sense).vars m).elem slot = m.contains v := by
    intro m hm
    rw [Bool.eq_iff_iff, List.elem_iff, mem_slotsOf hnodup, Monomial.contains_iff, h]
    simp
  have hterms : monosOf (Row.of c sense).monoSlots slot =
      (c.poly.monomials.zipIdx.filter fun e => e.1.contains v).map Prod.snd := by
    rw [monosOf, zipIdx_monoSlots, List.filter_map, List.map_map]
    refine congrArg (List.map Prod.snd) (List.filter_congr fun e he => ?_)
    exact hkept e.1 (List.fst_mem_of_mem_zipIdx he)
  have hmonos : c.poly.mentioning v =
      (c.poly.monomials.zipIdx.filter fun e => e.1.contains v).map Prod.fst := by
    have hfst := List.filter_map (f := (Prod.fst : Monomial × Nat → Monomial))
      (p := fun m => m.contains v) (l := c.poly.monomials.zipIdx)
    rw [List.zipIdx_map_fst] at hfst
    exact hfst
  rw [hterms, hmonos, List.forall₂_map_left_iff, List.forall₂_map_right_iff, List.forall₂_same]
  intro e he
  have hmem := List.mem_zipIdx_iff_getElem?.1 (List.mem_filter.1 he).1
  simpa [Row.of] using hmem

end Row

section Occurrences

variable {rows : Array Row} {v : Variable}

theorem mem_occurrencesOf (hrows : ∀ row ∈ rows, row.vars.toList.Nodup) {c slot : Nat} :
    (c, slot) ∈ occurrencesOf rows v ↔
      ∃ row, rows[c]? = some row ∧ row.vars[slot]? = some v := by
  simp only [occurrencesOf, List.mem_filterMap, Option.map_eq_some_iff, Prod.mk.injEq, Prod.exists,
    List.mem_zipIdx_iff_getElem?, Array.getElem?_toList]
  constructor
  · rintro ⟨row, c', hrow, slot', hslot, rfl, rfl⟩
    have hnodup := hrows row (Array.mem_of_getElem? hrow)
    exact ⟨row, hrow, (idxOf?_eq_some_iff hnodup).1 hslot⟩
  · rintro ⟨row, hrow, hslot⟩
    have hnodup := hrows row (Array.mem_of_getElem? hrow)
    exact ⟨row, c, hrow, slot, (idxOf?_eq_some_iff hnodup).2 hslot, rfl, rfl⟩

theorem nodup_occurrencesOf : ((occurrencesOf rows v).map Prod.fst).Nodup := by
  have hsub : ∀ entries : List (Row × Nat), List.Sublist
      ((entries.filterMap fun entry =>
        (entry.1.vars.idxOf? v).map fun slot => (entry.2, slot)).map Prod.fst)
      (entries.map Prod.snd) := by
    intro entries
    induction entries with
    | nil => exact .slnil
    | cons entry entries ih =>
      obtain ⟨row, c⟩ := entry
      cases hslot : row.vars.idxOf? v with
      | none => simpa [hslot] using ih.cons c
      | some slot => simpa [hslot] using ih.cons_cons c
  refine (hsub rows.toList.zipIdx).nodup ?_
  rw [List.zipIdx_map_snd]
  exact List.nodup_range'

end Occurrences

end Search
end NonlinearInteger
