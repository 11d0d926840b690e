import NonlinearInteger.Proofs.DeclaredDomains
import NonlinearInteger.Proofs.IndexedNames

/-!
# Numbered variables

The reader gives each name its number when it first comes up, whichever section that is in. The
table grows with the text and is handed over at the end, so the variables of a formula that was
read are the different names of its text in their order, and all numbers in the formula are below
the size of the table. For this reason nothing but an empty domain can stop the formula once all
lines are read.
-/

namespace NonlinearInteger.Lp

section

variable {text : String} {d : Draft} {f : Formula}

/-- A formula whose variables are the names of a text, in order of first appearance, numbered as
an index numbers them. -/
structure NumberedBy (text : String) (f : Formula) : Prop where
  names_eq : f.names.toList = (variableTokens text).eraseDups
  table_eq : (NameTable.empty.numberAll (variableTokens text)).2.names = f.names
  numbers_eq : (NameTable.empty.numberAll (variableTokens text)).1 =
    (variableTokens text).map (position f.names)
  nodup : f.names.toList.Nodup
  isName : ∀ x ∈ f.names, isName x = true
  not_blank : ∀ x ∈ f.names, ∀ c ∈ x.toList, Text.isBlank c = false
  numVariables_eq : f.numVariables = f.names.size
  objective : f.objective.Over f.numVariables ∧ f.objective.Merged
  constraints : ∀ c ∈ f.constraints, c.poly.Over f.numVariables ∧ c.poly.Merged

theorem numberedBy_of_read (h : read text = .ok f) : NumberedBy text f := by
  obtain ⟨d, hd⟩ := exists_readContents_of_read text (by simp [h])
  have hfilled := filled_of_readContents hd
  have hsound := sound_of_readContents hd
  rw [read_of_neverEmpty hd ((isOk_read_iff hd).1 ⟨f, h⟩)] at h
  cases h
  have htable := NameTable.numbersAll NameTable.indexed_empty (variableTokens text)
  have hnames : internAll #[] (variableTokens text) = d.names := hfilled.names_eq.symm
  refine ⟨?_, htable.names_eq.trans hnames, htable.numbers_eq.trans (hnames ▸ rfl),
    hsound.names.nodup, hsound.names.isName, hsound.names.not_blank, rfl,
    ⟨hfilled.objective, hsound.objective.merged⟩, ?_⟩
  · change d.names.toList = _
    rw [hfilled.names_eq, toList_internAll, variableTokens]
  · intro c hc
    obtain ⟨entry, hentry, rfl⟩ := Array.mem_map.1 hc
    exact ⟨hfilled.constraints entry hentry, (hsound.polys entry hentry).merged⟩

/-- Sections may come in any order and more than once. -/
example : (variableTokens
    "Bounds\n 2 <= z <= 5\nMin\n obj: y * x + [ 3 y ]\nGen\n w x\nBounds\n x >= 1\n").eraseDups =
      ["z", "y", "x", "w"] := by
  decide +kernel

theorem numVariables_of_foldlM_applyBound {bounds : Array Bound} {g : Formula}
    (h : bounds.foldlM applyBound f = .ok g) : g.numVariables = f.numVariables := by
  rw [← Array.foldlM_toList] at h
  refine foldlM_keeps (motive := fun k => k.numVariables = f.numVariables) h rfl ?_
  intro k b k' _ hk happly
  obtain ⟨-, -, rfl⟩ := Formula.setDomain_eq_ok.1 happly
  exact hk

/-- What is left to do once all lines are read: no constraint, no objective and no table of names
is refused. -/
structure Draft.Completed (d : Draft) (filled posed : Formula) : Prop where
  constraints :
    d.constraints.foldlM (fun f (p, relation, limit) => f.addConstraint p relation limit)
      (Formula.empty d.names.size) = .ok filled
  objective : filled.setObjective d.objective = .ok posed
  names : ∀ bounded, d.bounds.foldlM applyBound posed = .ok bounded →
    ∃ f, bounded.setNames d.names = .ok f

theorem exists_completed_of_readLines (h : readLines .empty 1 (Text.splitAt '\n' text) = .ok d) :
    ∃ filled posed, d.Completed filled posed := by
  obtain ⟨e, he, part, rfl⟩ := exists_of_readLines h
  obtain ⟨filled, hconstraints, hobjective⟩ :=
    (filled_of_readContents he).exists_posed (sound_of_readContents he)
  refine ⟨filled, e.posed, hconstraints, hobjective, ?_⟩
  intro bounded hbounded
  exact ⟨_, Formula.setNames_eq_ok.2 ⟨(numVariables_of_foldlM_applyBound hbounded).symm, rfl⟩⟩

/-- How a text is read. -/
structure ReadConsistently (text : String) : Prop where
  numbered : ∀ f, read text = .ok f → NumberedBy text f
  completed : ∀ d, readLines .empty 1 (Text.splitAt '\n' text) = .ok d →
    ∃ filled posed, d.Completed filled posed
  /-- An error without a line is an empty domain. -/
  error_eq : ∀ cause, read text = .error (.build cause) →
    ∃ name lb ub, cause = .emptyDomain name lb ub ∧ ub < lb

/-- Whatever the text: its names are numbered as they appear, and once its lines are read only an
empty domain is refused. -/
theorem readConsistently (text : String) : ReadConsistently text where
  numbered _ h := numberedBy_of_read h
  completed _ h := exists_completed_of_readLines h
  error_eq := by
    intro cause h
    obtain ⟨d, hd⟩ := exists_readContents_of_read text (by simp [h])
    rcases neverEmpty_or_exists (declarations text) with hne | ⟨_, _, _, heq, hdone, hempty⟩
    · rw [read_of_neverEmpty hd hne] at h
      cases h
    · rw [read_of_empty hd heq hdone hempty] at h
      cases h
      exact ⟨_, _, _, rfl, hempty⟩

end

end NonlinearInteger.Lp
