import NonlinearInteger.Proofs.Tallies
import Std.Data.HashSet

/-!
# Tables of occurrences

The tables of a problem say where each variable occurs: in which constraints and in which of
their terms. They can be filled by loops that append to one list after another. Each of these
lists comes out complete and without repeats, also for a variable that is repeated in a term.
-/

namespace NonlinearInteger

section Filing

variable {α : Type}

/-- The lists for the indices below a bound. -/
def tableOf (n : Nat) (lists : Nat → List α) : Array (List α) :=
  ((List.range n).map lists).toArray

/-- Appends to one list of a table. -/
def fileAt (table : Array (List α)) (entry : Nat × α) : Checked (Array (List α)) := do
  store table entry.1 ((← fetch table entry.1) ++ [entry.2])

/-- What is filed at an index, in order. -/
def filedAt (i : Nat) (entries : List (Nat × α)) : List α :=
  entries.filterMap fun entry => if entry.1 = i then some entry.2 else none

variable {n i : Nat} {lists : Nat → List α} {entries : List (Nat × α)}

theorem size_tableOf : (tableOf n lists).size = n := by
  simp [tableOf]

theorem getElem?_tableOf : (tableOf n lists)[i]? = if i < n then some (lists i) else none := by
  rw [tableOf, List.getElem?_toArray, List.getElem?_map]
  split
  · rename_i hi
    rw [List.getElem?_range hi, Option.map_some]
  · rename_i hi
    rw [List.getElem?_eq_none (by simpa using hi), Option.map_none]

theorem replicate_eq_tableOf : Array.replicate n [] = tableOf n fun _ => ([] : List α) := by
  apply Array.ext_getElem?
  intro i
  rw [Array.getElem?_replicate, getElem?_tableOf]

theorem filedAt_cons (entry : Nat × α) :
    filedAt i (entry :: entries) = (if entry.1 = i then [entry.2] else []) ++ filedAt i entries := by
  by_cases h : entry.1 = i <;> simp [filedAt, h]

theorem fileAt_tableOf {entry : Nat × α} (h : entry.1 < n) :
    fileAt (tableOf n lists) entry =
      .ok (tableOf n fun i => lists i ++ filedAt i [entry]) := by
  have hsize : entry.1 < (tableOf n lists).size := size_tableOf.symm ▸ h
  have hfetch : fetch (tableOf n lists) entry.1 = .ok (lists entry.1) :=
    fetch_eq_ok.2 (getElem?_tableOf.trans (if_pos h))
  refine bind_eq_ok.2 ⟨_, hfetch, (store_of_lt hsize).trans (congrArg Except.ok ?_)⟩
  apply Array.ext_getElem?
  intro j
  rw [Array.getElem?_set, getElem?_tableOf, getElem?_tableOf]
  by_cases hj : entry.1 = j
  · subst hj
    simp [filedAt, h]
  · simp [filedAt, hj]

theorem foldlM_fileAt (lists : Nat → List α) (h : ∀ entry ∈ entries, entry.1 < n) :
    entries.foldlM fileAt (tableOf n lists) =
      .ok (tableOf n fun i => lists i ++ filedAt i entries) := by
  induction entries generalizing lists with
  | nil => simp [filedAt, pure, Except.pure]
  | cons entry entries ih =>
    rw [List.foldlM_cons, fileAt_tableOf (h entry List.mem_cons_self)]
    refine (ih _ fun e he => h e (List.mem_cons_of_mem entry he)).trans ?_
    simp only [filedAt, List.append_assoc, ← List.filterMap_append, List.singleton_append]

theorem filedAt_of_notMem (h : i ∉ entries.map Prod.fst) : filedAt i entries = [] := by
  rw [filedAt, List.filterMap_eq_nil_iff]
  intro entry hentry
  have hne : entry.1 ≠ i := fun heq => h (List.mem_map.2 ⟨entry, hentry, heq⟩)
  exact if_neg hne

theorem filedAt_of_mem (hkeys : (entries.map Prod.fst).Nodup) {x : α} (h : (i, x) ∈ entries) :
    filedAt i entries = [x] := by
  induction entries with
  | nil => cases h
  | cons entry entries ih =>
    rw [List.map_cons, List.nodup_cons] at hkeys
    rw [filedAt_cons]
    rcases List.mem_cons.1 h with rfl | hmem
    · rw [if_pos rfl, filedAt_of_notMem hkeys.1, List.append_nil]
    · have hne : entry.1 ≠ i := fun heq => hkeys.1 (List.mem_map.2 ⟨_, hmem, heq.symm⟩)
      rw [if_neg hne, ih hkeys.2 hmem, List.nil_append]

end Filing

namespace Polynomial

/-- Appends a variable that has not been seen. -/
def gatherNew (gathered : Std.HashSet Variable × Array Variable) (v : Variable) :
    Std.HashSet Variable × Array Variable :=
  if gathered.1.contains v then gathered else (gathered.1.insert v, gathered.2.push v)

/-- The variables in order of first appearance, with a set of those that have been seen. -/
def gatherVars (p : Polynomial) : Array Variable :=
  ((p.monomials.flatMap Monomial.vars).foldl gatherNew (∅, #[])).2

/-- The set answers for the variables gathered so far, so none is looked for in their list. -/
theorem toList_foldl_gatherNew (vs : List Variable) {seen : Std.HashSet Variable}
    {found : Array Variable} (h : ∀ v, seen.contains v = found.toList.elem v) :
    (vs.foldl gatherNew (seen, found)).2.toList =
      vs.foldl (fun found v => if found.elem v then found else found ++ [v]) found.toList := by
  induction vs generalizing seen found with
  | nil => rfl
  | cons v vs ih =>
    rw [List.foldl_cons, List.foldl_cons, gatherNew, h v]
    split
    · exact ih h
    · have hnext : ∀ w, (seen.insert v).contains w = (found.push v).toList.elem w := by
        intro w
        rw [Std.HashSet.contains_insert, h w, Array.toList_push, Bool.eq_iff_iff]
        simp only [Bool.or_eq_true, beq_iff_eq, List.elem_iff, List.mem_append, List.mem_singleton]
        rw [or_comm, eq_comm]
      rw [ih hnext, Array.toList_push]

theorem gatherVars_eq (p : Polynomial) : p.gatherVars = p.vars.toArray := by
  have hnone : ∀ v, (∅ : Std.HashSet Variable).contains v = (#[] : Array Variable).toList.elem v :=
    fun _ => Std.HashSet.contains_empty
  exact Array.toList_inj.1 (toList_foldl_gatherNew (p.monomials.flatMap Monomial.vars) hnone)

end Polynomial

namespace Search

section Terms

variable {vars : Array Variable} {m : Monomial} {monoSlots : Array (List Nat)} {t slot : Nat}

theorem mem_monosOf :
    t ∈ monosOf monoSlots slot ↔ ∃ slots, monoSlots[t]? = some slots ∧ slot ∈ slots := by
  simp [monosOf, List.mem_zipIdx_iff_getElem?]

theorem nodup_monosOf : (monosOf monoSlots slot).Nodup := by
  have hsub := (List.filter_sublist (p := fun e : List Nat × Nat => e.1.elem slot)
    (l := monoSlots.toList.zipIdx)).map Prod.snd
  rw [List.zipIdx_map_snd] at hsub
  exact hsub.nodup List.nodup_range'

/-- Files the number of a term at each of its slots, and the slots of the term. -/
def fileTerm (vars : Array Variable) (tables : Array (List Nat) × Array (List Nat))
    (term : Monomial × Nat) : Checked (Array (List Nat) × Array (List Nat)) := do
  let slots := slotsOf vars term.1
  let slotMonos ← (slots.map fun slot => (slot, term.2)).foldlM fileAt tables.1
  return (slotMonos, tables.2.push slots)

theorem lt_of_mem_slotsOf (hvars : vars.toList.Nodup) (h : slot ∈ slotsOf vars m) :
    slot < vars.size := by
  obtain ⟨v, -, hv⟩ := (mem_slotsOf hvars).1 h
  exact (Array.getElem?_eq_some_iff.1 hv).1

/-- A term is filed once at a slot, although its variable may be repeated. -/
theorem filedAt_slotsOf (hvars : vars.toList.Nodup) :
    filedAt slot ((slotsOf vars m).map fun slot => (slot, t)) =
      if slot ∈ slotsOf vars m then [t] else [] := by
  have hkeys : ((slotsOf vars m).map fun slot => (slot, t)).map Prod.fst = slotsOf vars m := by
    rw [List.map_map]
    exact List.map_id _
  split
  · rename_i hmem
    apply filedAt_of_mem
    · rw [hkeys]
      exact nodup_slotsOf hvars
    · exact List.mem_map_of_mem hmem
  · rename_i hmem
    apply filedAt_of_notMem
    rwa [hkeys]

theorem fileTerm_tableOf (hvars : vars.toList.Nodup) {lists : Nat → List Nat}
    {before : Array (List Nat)} {term : Monomial × Nat} :
    fileTerm vars (tableOf vars.size lists, before) term =
      .ok (tableOf vars.size fun slot => lists slot ++
          if slot ∈ slotsOf vars term.1 then [term.2] else [],
        before.push (slotsOf vars term.1)) := by
  have hlt : ∀ entry ∈ (slotsOf vars term.1).map fun slot => (slot, term.2),
      entry.1 < vars.size := by
    intro entry hentry
    obtain ⟨slot, hslot, rfl⟩ := List.mem_map.1 hentry
    exact lt_of_mem_slotsOf hvars hslot
  have hfile := foldlM_fileAt lists hlt
  simp only [filedAt_slotsOf hvars] at hfile
  exact bind_eq_ok.2 ⟨_, hfile, rfl⟩

/-- Filing all terms gives the terms of each slot and the slots of each term. -/
theorem foldlM_fileTerm (hvars : vars.toList.Nodup) (lists : Nat → List Nat)
    (before : Array (List Nat)) (ms : List Monomial) (first : Nat) :
    (ms.zipIdx first).foldlM (fileTerm vars) (tableOf vars.size lists, before) =
      .ok (tableOf vars.size fun slot => lists slot ++
          ((ms.zipIdx first).filter fun term => (slotsOf vars term.1).elem slot).map Prod.snd,
        before ++ (ms.map (slotsOf vars)).toArray) := by
  induction ms generalizing lists before first with
  | nil => simp [pure, Except.pure]
  | cons m ms ih =>
    rw [List.zipIdx_cons, List.foldlM_cons, fileTerm_tableOf hvars]
    refine (ih _ _ _).trans (congrArg Except.ok (Prod.ext ?_ ?_))
    · refine congrArg (tableOf vars.size) (funext fun slot => ?_)
      by_cases hslot : slot ∈ slotsOf vars m <;> simp [hslot]
    · simp

end Terms

namespace Row

variable (c : Constraint) (sense : Sense)

/-- The row of a constraint, its tables filled term by term. -/
def filed : Checked Row := do
  let vars := c.poly.gatherVars
  let (slotMonos, monoSlots) ←
    c.poly.monomials.zipIdx.foldlM (fileTerm vars) (Array.replicate vars.size [], #[])
  return {
    sense := sense
    limit := c.limit
    linear := c.isLinear
    monomials := c.poly.monomials.toArray
    vars := vars
    monoSlots := monoSlots
    slotMonos := slotMonos }

theorem filed_eq : filed c sense = .ok (Row.of c sense) := by
  have hvars : c.poly.vars.toArray.toList.Nodup := nodup_vars c sense
  have hrun := foldlM_fileTerm hvars (fun _ => []) #[] c.poly.monomials 0
  have hmonoSlots : #[] ++ (c.poly.monomials.map (slotsOf c.poly.vars.toArray)).toArray =
      (Row.of c sense).monoSlots := by
    simp [Row.of]
  have hslotMonos : ∀ slot, ([] : List Nat) ++ (c.poly.monomials.zipIdx.filter fun term =>
      (slotsOf c.poly.vars.toArray term.1).elem slot).map Prod.snd =
        monosOf (Row.of c sense).monoSlots slot := by
    intro slot
    rw [List.nil_append, monosOf, zipIdx_monoSlots, List.filter_map, List.map_map]
    rfl
  simp only [hmonoSlots, hslotMonos] at hrun
  rw [filed, Polynomial.gatherVars_eq, replicate_eq_tableOf, hrun]
  rfl

/-- The tables of a row are those of its polynomial. -/
structure Tabulates (row : Row) (p : Polynomial) : Prop where
  monomials_eq : row.monomials.toList = p.monomials
  nodup_vars : row.vars.toList.Nodup
  /-- The slots are those of the variables of the polynomial. -/
  mem_vars : ∀ v, v ∈ row.vars ↔ ∃ m ∈ p.monomials, v ∈ m.vars
  size_monoSlots : row.monoSlots.size = row.monomials.size
  /-- The slots of a term are those of its distinct variables, each listed once. -/
  monoSlots : ∀ (t : Nat) (m : Monomial), row.monomials[t]? = some m →
    ∃ slots, row.monoSlots[t]? = some slots ∧ slots.Nodup ∧
      ∀ slot, slot ∈ slots ↔ ∃ v ∈ m.vars, row.vars[slot]? = some v
  size_slotMonos : row.slotMonos.size = row.vars.size
  /-- The terms of a slot are those that contain its variable, each listed once. -/
  slotMonos : ∀ (slot : Nat) (v : Variable), row.vars[slot]? = some v →
    ∃ terms, row.slotMonos[slot]? = some terms ∧ terms.Nodup ∧
      ∀ t, t ∈ terms ↔ ∃ m, row.monomials[t]? = some m ∧ v ∈ m.vars
  /-- A term lists a slot exactly if the slot lists the term. -/
  mem_iff : ∀ (slot t : Nat) (slots terms : List Nat), row.monoSlots[t]? = some slots →
    row.slotMonos[slot]? = some terms → (slot ∈ slots ↔ t ∈ terms)

theorem tabulates : (Row.of c sense).Tabulates c.poly where
  monomials_eq := rfl
  nodup_vars := nodup_vars c sense
  mem_vars := fun v => mem_vars c sense
  size_monoSlots := by simp [Row.of]
  monoSlots := by
    intro t m hm
    have hvars := nodup_vars c sense
    exact ⟨_, monoSlots_of_monomials c sense hm, nodup_slotsOf hvars, fun slot => mem_slotsOf hvars⟩
  size_slotMonos := by simp [Row.of]
  slotMonos := by
    intro slot v hv
    have hlt := (Array.getElem?_eq_some_iff.1 hv).1
    refine ⟨_, getElem?_slotMonos c sense hlt, nodup_monosOf, fun t => ?_⟩
    rw [mem_monosOf, getElem?_monoSlots]
    simp [mem_slotsOf (nodup_vars c sense), hv]
  mem_iff := by
    intro slot t slots terms hslots hterms
    have hsize : (Row.of c sense).slotMonos.size = (Row.of c sense).vars.size := by simp [Row.of]
    have hlt : slot < (Row.of c sense).vars.size :=
      hsize ▸ (Array.getElem?_eq_some_iff.1 hterms).1
    rw [getElem?_slotMonos c sense hlt, Option.some.injEq] at hterms
    rw [← hterms, mem_monosOf, hslots]
    simp

/-- A term with a square is listed once for the slot of its variable. -/
example :
    let row := Row.of (.of (.ofMonomials [.ofFactors [1, 0, 0] 1, .linear 1 (-2)]) .ge 12) .ge
    row.vars = #[0, 1] ∧ row.monoSlots = #[[0, 1], [1]] ∧ row.slotMonos = #[[0], [0, 1]] := by
  decide +kernel

end Row

section Occurrences

variable {vars : Array Variable} {c : Nat} {v : Variable}

/-- Files a constraint and the slot there at each of its variables. -/
def fileRow (table : Array (List (Nat × Nat))) (row : Row × Nat) :
    Checked (Array (List (Nat × Nat))) :=
  (row.1.vars.toList.zipIdx.map fun (v, slot) => (v, row.2, slot)).foldlM fileAt table

/-- The occurrences of all variables, filled constraint by constraint. -/
def filedOccurrences (n : Nat) (rows : Array Row) : Checked (Array (List (Nat × Nat))) :=
  rows.toList.zipIdx.foldlM fileRow (Array.replicate n [])

theorem filedAt_vars (hvars : vars.toList.Nodup) :
    filedAt v (vars.toList.zipIdx.map fun (v, slot) => (v, c, slot)) =
      ((vars.idxOf? v).map fun slot => (c, slot)).toList := by
  have hkeys : (vars.toList.zipIdx.map fun (v, slot) => (v, c, slot)).map Prod.fst =
      vars.toList := by
    rw [List.map_map]
    exact List.zipIdx_map_fst 0 vars.toList
  cases hslot : vars.idxOf? v with
  | none =>
    apply filedAt_of_notMem
    rw [hkeys, Array.mem_toList_iff]
    exact Array.idxOf?_eq_none_iff.1 hslot
  | some slot =>
    apply filedAt_of_mem
    · rw [hkeys]
      exact hvars
    · have hentry : (v, slot) ∈ vars.toList.zipIdx := by
        rw [List.mem_zipIdx_iff_getElem?, Array.getElem?_toList]
        exact (idxOf?_eq_some_iff hvars).1 hslot
      exact List.mem_map.2 ⟨(v, slot), hentry, rfl⟩

theorem fileRow_tableOf {n : Nat} {lists : Nat → List (Nat × Nat)} {row : Row × Nat}
    (hvars : row.1.vars.toList.Nodup) (hlt : ∀ v ∈ row.1.vars, v < n) :
    fileRow (tableOf n lists) row =
      .ok (tableOf n fun v => lists v ++
        ((row.1.vars.idxOf? v).map fun slot => (row.2, slot)).toList) := by
  have hlt : ∀ entry ∈ row.1.vars.toList.zipIdx.map fun (v, slot) => (v, row.2, slot),
      entry.1 < n := by
    intro entry hentry
    obtain ⟨⟨v, slot⟩, hmem, rfl⟩ := List.mem_map.1 hentry
    exact hlt v (Array.mem_def.2 (List.fst_mem_of_mem_zipIdx hmem))
  refine (foldlM_fileAt lists hlt).trans ?_
  simp only [filedAt_vars hvars]

theorem foldlM_fileRow {n : Nat} {lists : Nat → List (Nat × Nat)} {rows : List (Row × Nat)}
    (hrows : ∀ row ∈ rows, row.1.vars.toList.Nodup ∧ ∀ v ∈ row.1.vars, v < n) :
    rows.foldlM fileRow (tableOf n lists) =
      .ok (tableOf n fun v => lists v ++
        rows.filterMap fun (row, c) => (row.vars.idxOf? v).map fun slot => (c, slot)) := by
  induction rows generalizing lists with
  | nil => simp [pure, Except.pure]
  | cons row rows ih =>
    obtain ⟨⟨hvars, hlt⟩, hrest⟩ := List.forall_mem_cons.1 hrows
    rw [List.foldlM_cons, fileRow_tableOf hvars hlt]
    refine (ih hrest).trans (congrArg (fun f => Except.ok (tableOf n f)) (funext fun v => ?_))
    cases hslot : row.1.vars.idxOf? v <;> simp [hslot]

theorem filedOccurrences_eq {n : Nat} {rows : Array Row}
    (hrows : ∀ row ∈ rows, row.vars.toList.Nodup ∧ ∀ v ∈ row.vars, v < n) :
    filedOccurrences n rows = .ok (tableOf n (occurrencesOf rows)) := by
  rw [filedOccurrences, replicate_eq_tableOf]
  refine (foldlM_fileRow fun row hrow => ?_).trans ?_
  · exact hrows row.1 (Array.mem_def.2 (List.fst_mem_of_mem_zipIdx hrow))
  · simp only [List.nil_append]
    rfl

end Occurrences

/-- The tables of a problem are those of a formula. -/
structure Problem.Tabulates (P : Problem) (f : Formula) : Prop where
  size_rows : P.rows.size = f.constraints.size
  rows : ∀ (c : Nat) (k : Constraint), f.constraints[c]? = some k →
    ∃ row sense, P.rows[c]? = some row ∧ Sense.ofRelation? k.relation = some sense ∧
      row.Tabulates k.poly ∧ Row.filed k sense = .ok row
  size_occurrences : P.occurrences.size = f.numVariables
  /-- Each constraint that mentions a variable is listed once, with the slot of the variable, and
  nothing else is listed. -/
  occurrences : ∀ v < f.numVariables, ∃ found, P.occurrences[v]? = some found ∧
    (found.map Prod.fst).Nodup ∧
    (∀ c, c ∈ found.map Prod.fst ↔
      ∃ k, f.constraints[c]? = some k ∧ ∃ m ∈ k.poly.monomials, v ∈ m.vars) ∧
    ∀ c slot, (c, slot) ∈ found ↔ ∃ row, P.rows[c]? = some row ∧ row.vars[slot]? = some v
  filed : filedOccurrences f.numVariables P.rows = .ok P.occurrences

variable {ρ : Type} {P : Problem} {lbs ubs : Array Int}

theorem Posed.mem_map_fst_occurrences (hP : Posed P lbs ubs) {v : Variable} {c : Nat} :
    c ∈ (occurrencesOf P.rows v).map Prod.fst ↔
      ∃ k, P.formula.constraints[c]? = some k ∧ ∃ m ∈ k.poly.monomials, v ∈ m.vars := by
  constructor
  · intro hc
    obtain ⟨⟨c, slot⟩, hmem, rfl⟩ := List.mem_map.1 hc
    obtain ⟨row, hrow, hslot⟩ := hP.mem_occurrences.1 hmem
    obtain ⟨k, sense, hk, -, rfl⟩ := hP.row_cases hrow
    exact ⟨k, hk, (Row.mem_vars k sense).1 (Array.mem_of_getElem? hslot)⟩
  · rintro ⟨k, hk, hmentions⟩
    obtain ⟨sense, -, hrow⟩ := hP.row c k hk
    obtain ⟨slot, hslot⟩ := Array.mem_iff_getElem?.1 ((Row.mem_vars k sense).2 hmentions)
    exact List.mem_map_of_mem (hP.mem_occurrences.2 ⟨_, hrow, hslot⟩)

theorem occurrences_of_start {f : Formula} {settings : Settings} {source : ρ} {first : State ρ}
    (hstart : start f settings source = .ok (P, first)) :
    P.occurrences = tableOf f.numVariables (occurrencesOf P.rows) := by
  obtain ⟨a, hof, -⟩ := exists_problem_of_start hstart
  obtain ⟨rows, terms, -, -, -, -, -, rfl⟩ := problem_of_eq_ok hof
  rfl

/-- The tables of every accepted formula are complete and without repeats, and they are those
that the loops fill. -/
theorem tabulates_of_start {f : Formula} (hf : f.Built) {settings : Settings} {source : ρ}
    {first : State ρ} (hstart : start f settings source = .ok (P, first)) : P.Tabulates f := by
  have htable := occurrences_of_start hstart
  obtain ⟨rfl, -, hP, -⟩ := start_eq_ok hf.wellFormed hstart
  exact {
    size_rows := hP.size_rows
    rows := by
      intro c k hk
      obtain ⟨sense, hsense, hrow⟩ := hP.row c k hk
      exact ⟨_, sense, hrow, hsense, Row.tabulates k sense, Row.filed_eq k sense⟩
    size_occurrences := htable ▸ size_tableOf
    occurrences := by
      intro v hv
      exact ⟨_, hP.occurrences v hv, nodup_occurrencesOf, fun c => hP.mem_map_fst_occurrences,
        fun c slot => hP.mem_occurrences⟩
    filed := by
      rw [htable]
      apply filedOccurrences_eq
      intro row hrow
      obtain ⟨c, hc⟩ := Array.mem_iff_getElem?.1 hrow
      exact ⟨hP.nodup_vars hrow, fun v => hP.lt_of_mem_vars hc⟩ }

theorem tabulates_of_cubic : ∃ (P : Problem) (first : State Random.Xoshiro),
    cubic.Built ∧ start cubic shortRun (.ofSeed 0) = .ok (P, first) ∧ P.Tabulates cubic := by
  obtain ⟨P, first, hstart, -⟩ := start_cubic
  exact ⟨P, first, built_cubic, hstart, tabulates_of_start built_cubic hstart⟩

end Search
end NonlinearInteger
