import NonlinearInteger.Proofs.Builders
import NonlinearInteger.Proofs.Drafts
import Mathlib.Data.List.Perm.Subperm

/-!
# Writing and reading back

A formula whose names are fit for a text and whose polynomials have terms is
written and read back with its variables renumbered and everything else the same.
-/

namespace NonlinearInteger.Lp

open Text (spaced ofLines IsWord)

variable {f : Formula}

theorem newline_notMem_linesOf (h : Printable f) : ∀ l ∈ linesOf f, '\n' ∉ l.toList := by
  intro l hl
  simp only [linesOf, List.mem_append, List.mem_cons, List.not_mem_nil, or_false] at hl
  rcases hl with ((((rfl | rfl | rfl) | hl) | rfl) | hl) | rfl | rfl | rfl
  · decide
  · refine Text.newline_notMem_spaced (List.forall_mem_cons.2 ⟨by decide, ?_⟩)
    exact isWord_termsTokens h.naming h.objective.isOver
  · decide
  · obtain ⟨⟨c, i⟩, hentry, rfl⟩ := List.mem_map.1 hl
    have hc : c ∈ f.constraints :=
      Array.mem_toList_iff.1 (List.fst_mem_of_mem_zipIdx hentry)
    refine Text.newline_notMem_spaced (List.forall_mem_cons.2 ⟨isWord_label i, ?_⟩)
    exact isWord_constraint h.naming (h.constraints c hc).isOver
  · decide
  · obtain ⟨⟨d, v⟩, hentry, rfl⟩ := List.mem_map.1 hl
    have hv : v < f.numVariables := lt_of_mem_narrowed h hentry
    refine Text.newline_notMem_spaced (List.forall_mem_cons.2 ⟨Text.isWord_toString_int d.lb, ?_⟩)
    exact isWord_bound h.naming d hv
  · decide
  · refine Text.newline_notMem_spaced fun w hw => ?_
    obtain ⟨v, hv, rfl⟩ := List.mem_map.1 hw
    exact h.naming.isWord (List.mem_range.1 hv)
  · decide

/-- The lines of a formula draft it, with all its names unless their line is a header. -/
theorem exists_draft (h : Printable f) (hobjective : f.objective.monomials ≠ [])
    (hconstraints : ∀ c ∈ f.constraints, c.poly.monomials ≠ []) :
    ∃ d, readAll .empty (linesOf f) = .ok d ∧ Drafted f f.constraints.toList (narrowed f) d ∧
      (header? (" ".intercalate ((List.range f.numVariables).map f.name)) = none →
        ∀ v < f.numVariables, f.name v ∈ d.names) := by
  have hgenerals : ∀ d, readLine d (Text.trim "Generals") = .ok { d with part := .generals } :=
    readLine_header (by decide +kernel) (by decide +kernel)
  have hend : ∀ d, readLine d (Text.trim "End") = .ok { d with part := .finished } :=
    readLine_header (by decide +kernel) (by decide +kernel)
  obtain ⟨d, hread, hd, -⟩ := drafted_lines h hobjective hconstraints
  have hrun : ∀ e, readLine { d with part := .generals } (Text.trim (namesLine f)) = .ok e →
      readAll .empty (linesOf f) = .ok { e with part := .finished } := by
    intro e hnames
    rw [linesOf, readAll_append hread, readAll_cons (hgenerals d), readAll_cons hnames,
      readAll_cons (hend e), readAll_nil]
  cases hheader : header? (" ".intercalate ((List.range f.numVariables).map f.name)) with
  -- The names open a section: only those already in the table are left.
  | some part =>
    have hnames := readLine_names_of_header h.naming hheader { d with part := .generals }
    exact ⟨_, hrun _ hnames, hd.withPart .finished, fun hnone => by cases hnone⟩
  | none =>
    obtain ⟨names, hgrows, hnames⟩ :=
      readLine_names (d := { d with part := .generals }) h.naming hheader rfl
    have hknown : ∀ x ∈ (List.range f.numVariables).map f.name,
        ∃ v < f.numVariables, f.name v = x := by
      intro x hx
      obtain ⟨v, hv, rfl⟩ := List.mem_map.1 hx
      exact ⟨v, List.mem_range.1 hv, rfl⟩
    refine ⟨_, hrun _ hnames, (hd.grow hgrows hknown).withPart .finished, ?_⟩
    intro _ v hv
    exact hgrows.mem_of_seen (List.mem_map_of_mem (List.mem_range.2 hv))

/-- The variables of two formulas correspond by their names, and then the formulas are
the same. -/
structure Renamed (f g : Formula) (π : Variable → Variable) : Prop where
  bijOn : Set.BijOn π {v | v < f.numVariables} {w | w < g.numVariables}
  name_iff : ∀ v < f.numVariables, ∀ w < g.numVariables, g.name w = f.name v ↔ w = π v
  objective : g.objective = f.objective.rename π
  constraints : g.constraints = f.constraints.map (·.rename π)
  domains : ∀ v < f.numVariables, g.domains[π v]? = f.domains[v]?

theorem bijOn_numbered {n : Nat} {name : Variable → String} (h : Naming n name)
    {names : Array String} (hnodup : names.toList.Nodup)
    (hknown : ∀ x ∈ names, ∃ v < n, name v = x) (hall : ∀ v < n, name v ∈ names) :
    Set.BijOn (numbered names name) {v | v < n} {w | w < names.size} := by
  refine ⟨?_, ?_, ?_⟩
  · intro v hv
    exact position_lt (hall v hv)
  · intro v hv w hw
    exact h.injOn_numbered names ⟨hv, hall v hv⟩ ⟨hw, hall w hw⟩
  · intro w hw
    obtain ⟨v, hv, hname⟩ := hknown names[w] (Array.getElem_mem hw)
    refine ⟨v, hv, ?_⟩
    rw [numbered, hname, position]
    exact hnodup.idxOf_getElem w hw

theorem getElem_eq_iff {names : Array String} (hnodup : names.toList.Nodup) {x : String}
    (hx : x ∈ names) {w : Nat} (hw : w < names.size) : names[w] = x ↔ w = position names x := by
  constructor
  · rintro rfl
    exact (hnodup.idxOf_getElem w hw).symm
  · rintro rfl
    exact List.getElem_idxOf hw

theorem Rebuilt.numVariables_le {g : Formula} (h : Rebuilt f g) :
    g.numVariables ≤ f.numVariables := by
  have hsub : g.names.toList ⊆ (List.range f.numVariables).map f.name := by
    intro x hx
    obtain ⟨v, hv, rfl⟩ := h.known x (Array.mem_toList_iff.1 hx)
    exact List.mem_map_of_mem (List.mem_range.2 hv)
  have hlength := (List.Nodup.subperm h.nodup hsub).length_le
  rwa [List.length_map, List.length_range, Array.length_toList, ← h.numVariables] at hlength

theorem Rebuilt.numVariables_eq {g : Formula} (h : Rebuilt f g)
    (hnaming : Naming f.numVariables f.name) (hall : ∀ v < f.numVariables, f.name v ∈ g.names) :
    g.numVariables = f.numVariables := by
  refine Nat.le_antisymm h.numVariables_le ?_
  have hsub : (List.range f.numVariables).map f.name ⊆ g.names.toList := by
    intro x hx
    obtain ⟨v, hv, rfl⟩ := List.mem_map.1 hx
    exact Array.mem_toList_iff.2 (hall v (List.mem_range.1 hv))
  have hlength := (List.Nodup.subperm hnaming.nodup hsub).length_le
  rwa [List.length_map, List.length_range, Array.length_toList, ← h.numVariables] at hlength

theorem Rebuilt.renamed {g : Formula} (h : Rebuilt f g) (hnaming : Naming f.numVariables f.name)
    (hall : ∀ v < f.numVariables, f.name v ∈ g.names) :
    Renamed f g (numbered g.names f.name) where
  bijOn := by
    rw [h.numVariables]
    exact bijOn_numbered hnaming h.nodup h.known hall
  name_iff := by
    intro v hv w hw
    rw [h.numVariables] at hw
    have hname : g.name w = g.names[w] := by
      rw [Formula.name, Array.getElem?_eq_getElem hw]
    rw [hname]
    exact getElem_eq_iff h.nodup (hall v hv) hw
  objective := h.objective
  constraints := h.constraints
  domains v hv := h.domains v hv (hall v hv)

theorem write_eq_of_printable (h : Printable f) : write f = .ok (ofLines (linesOf f)) :=
  write_eq (fun m hm => (h.objective.isOver m hm).1)
    (fun c hc m hm => ((h.constraints c hc).isOver m hm).1) h.relations

/-- What is written of a formula with terms everywhere is read as that formula, with all
its variables unless the line of their names is a header. -/
theorem exists_rebuilt (h : Printable f) (hobjective : f.objective.monomials ≠ [])
    (hconstraints : ∀ c ∈ f.constraints, c.poly.monomials ≠ []) :
    ∃ g, read (ofLines (linesOf f)) = .ok g ∧ Rebuilt f g ∧
      (header? (" ".intercalate ((List.range f.numVariables).map f.name)) = none →
        ∀ v < f.numVariables, f.name v ∈ g.names) := by
  obtain ⟨d, hread, hd, hall⟩ := exists_draft h hobjective hconstraints
  obtain ⟨g, hbuild, hnames, hg⟩ := build_drafted h hd
  rw [← hnames] at hall
  exact ⟨g, read_ofLines (newline_notMem_linesOf h) hread hbuild, hg, hall⟩

theorem printable_of_built (h : f.Built) (hnaming : Naming f.numVariables f.name)
    (hobjective : ∀ m ∈ f.objective.monomials, Writable m.coef)
    (hconstraints : ∀ c ∈ f.constraints, ∀ m ∈ c.poly.monomials, Writable m.coef)
    (hrelations : ∀ c ∈ f.constraints, c.relation ≠ .undefined) : Printable f :=
  have hwell := h.wellFormed
  have hmerged := h.merged
  { naming := hnaming
    objective := ⟨hmerged.1, hwell.objective, hobjective⟩
    constraints := fun c hc => ⟨hmerged.2 c hc, hwell.constraints c hc, hconstraints c hc⟩
    relations := hrelations
    limits := hwell.limits
    domainCount := hwell.domainCount
    domains := hwell.domains }

/-- Every formula of the builders that the format can express is read back as it was
written, up to the numbers of its variables. -/
theorem exists_renamed_of_write (h : f.Built) (hnaming : Naming f.numVariables f.name)
    (hobjective : f.objective.monomials ≠ [])
    (hconstraints : ∀ c ∈ f.constraints, c.poly.monomials ≠ [])
    (hrelations : ∀ c ∈ f.constraints, c.relation ≠ .undefined)
    (hobjectiveCoefs : ∀ m ∈ f.objective.monomials, Writable m.coef)
    (hconstraintCoefs : ∀ c ∈ f.constraints, ∀ m ∈ c.poly.monomials, Writable m.coef)
    (hheader : header? (" ".intercalate ((List.range f.numVariables).map f.name)) = none) :
    ∃ text g π, write f = .ok text ∧ read text = .ok g ∧ Renamed f g π := by
  have hprintable := printable_of_built h hnaming hobjectiveCoefs hconstraintCoefs hrelations
  obtain ⟨g, hread, hg, hall⟩ := exists_rebuilt hprintable hobjective hconstraints
  exact ⟨ofLines (linesOf f), g, numbered g.names f.name, write_eq_of_printable hprintable, hread,
    hg.renamed hnaming (hall hheader)⟩

/-- The second variable comes first in the text and is number zero of what is read. -/
def crossed : Formula where
  numVariables := 3
  constraints := #[.of (.ofMonomials [.ofFactors [0, 1, 1] 3, .linear 2 (-4)]) .ge (-7)]
  objective := .normalize (.ofMonomials [.linear 1 (-1)])
  domains := #[.standard, ⟨-5, 5⟩, .standard]
  names := #["End", "_b", "c1:"]

theorem built_crossed : crossed.Built := by decide

theorem naming_crossed : Naming crossed.numVariables crossed.name := by
  have hwords : ∀ v < crossed.numVariables, IsWord (crossed.name v) := by decide
  exact ⟨by decide, fun v hv => (hwords v hv).not_blank, by decide⟩

example : write crossed = .ok ("Minimize\n obj: - 1 _b\nSubject To\n" ++
    " c0: + [ 3 End * _b * _b ] - 4 c1: >= -7\nBounds\n -5 <= _b <= 5\nGenerals\n" ++
    " End _b c1:\nEnd\n") := by
  decide +kernel

theorem exists_renamed_of_write_crossed :
    crossed.Built ∧ Naming crossed.numVariables crossed.name ∧
      ∃ text g π, write crossed = .ok text ∧ read text = .ok g ∧ Renamed crossed g π :=
  ⟨built_crossed, naming_crossed, exists_renamed_of_write built_crossed naming_crossed (by decide)
    (by decide) (by decide) (by decide) (by decide) (by decide +kernel)⟩

end NonlinearInteger.Lp
