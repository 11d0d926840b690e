import NonlinearInteger.Proofs.Accepted
import NonlinearInteger.Proofs.RoundTrip

/-!
# Reading again

What is read can be written. It is read again if its objective and its constraints have
terms: a polynomial without terms is written as a zero, which the reader takes for a
coefficient and refuses. Then the constraints are the same, and the variables are unless
their names together make a header.
-/

namespace NonlinearInteger.Lp

open Text (spaced ofLines IsWord)

theorem readLines_append {d e : Draft} {ls : List String} (h : readAll d ls = .ok e) (number : Nat)
    (ms : List String) : readLines d number (ls ++ ms) = readLines e (number + ls.length) ms := by
  induction ls generalizing d number with
  | nil =>
    cases h
    rfl
  | cons raw ls ih =>
    rw [readAll, List.foldlM_cons] at h
    obtain ⟨k, hline, hrest⟩ := bind_eq_ok.1 h
    have hnext := ih hrest (number + 1)
    rw [List.cons_append, readLines]
    simp only [hline]
    rw [hnext, List.length_cons, Nat.add_assoc, Nat.add_comm 1]

theorem read_ofLines_error {ls ms : List String} {raw : String}
    (hlines : ∀ l ∈ ls ++ raw :: ms, '\n' ∉ l.toList) {d : Draft}
    (hread : readAll .empty ls = .ok d) {cause : LineError}
    (hline : readLine d (Text.trim raw) = .error cause) :
    read (ofLines (ls ++ raw :: ms)) = .error (.line (1 + ls.length) (Text.trim raw) cause) := by
  rw [read, Text.splitAt_ofLines hlines, List.append_assoc, readLines_append hread,
    List.cons_append, readLines]
  simp only [hline]

/-- A zero waits for its variable as any coefficient does. -/
theorem readExpression_zero (names : Array String) (rest : List String) :
    readExpression names ("0" :: rest) = readTerms names ⟨[], 1, some 0, none⟩ rest := by
  have hzero : Text.int64? "0" = some 0 := rfl
  rw [readExpression, readTerms_numeral hzero]
  rfl

section Named

variable {n : Nat} {name : Variable → String} {d : Draft}

theorem termsTokens_of_nil {p : Polynomial} (h : p.monomials = []) :
    termsTokens name p = ["0"] := by
  rw [termsTokens, Polynomial.isEmpty, h]
  rfl

theorem over_of_nil {p : Polynomial} (h : p.monomials = []) : p.Over n := by
  simp [Polynomial.Over, h]

theorem readLine_objective_of_nil (h : Naming n name) {p : Polynomial} (hnil : p.monomials = [])
    (hpart : d.part = .objective) :
    readLine d (Text.trim (objectiveLine name p)) = .error .danglingAtEnd := by
  obtain ⟨line, hline, hcontent⟩ := readLine_objectiveLine h (over_of_nil hnil) hpart
  rw [hcontent, readObjective, hline, termsTokens_of_nil hnil, readExpression_zero]
  rfl

theorem readLine_constraint_of_nil (h : Naming n name) {c : Constraint}
    (hnil : c.poly.monomials = []) (hr : c.relation ≠ .undefined) (hpart : d.part = .constraints)
    (index : Nat) :
    readLine d (Text.trim (constraintLine name c index)) =
      .error (.danglingBefore c.relation.text) := by
  obtain ⟨line, hline, hcontent⟩ :=
    readLine_constraintLine (c := c) h (over_of_nil hnil) hpart index
  rw [hcontent, readConstraint, hline, termsTokens_of_nil hnil, List.singleton_append,
    readExpression_zero, readTerms.eq_def]
  simp only [relation?_text hr]
  rfl

end Named

variable {f : Formula}

/-- The text of a formula without an objective is refused at the line of the objective. -/
theorem read_of_no_objective (h : Printable f) (hnil : f.objective.monomials = []) :
    read (ofLines (linesOf f)) = .error (.line 2 "obj: 0" .danglingAtEnd) := by
  have hread : readAll .empty ["Minimize"] = .ok ⟨.objective, #[], .empty, #[], #[]⟩ := by
    rw [readAll_cons readLine_minimize, readAll_nil]
  have hlines : linesOf f = ["Minimize"] ++ objectiveLine f.name f.objective :: ("Subject To" ::
      (constraintLines f ++ "Bounds" :: (boundLines f ++ ["Generals", namesLine f, "End"]))) := by
    simp [linesOf]
  have hline : Text.trim (objectiveLine f.name f.objective) = "obj: 0" := by
    rw [objectiveLine, termsTokens_of_nil hnil]
    decide +kernel
  have hno := newline_notMem_linesOf h
  rw [hlines] at hno ⊢
  rw [read_ofLines_error hno hread (readLine_objective_of_nil h.naming hnil rfl), hline]
  rfl

theorem read_of_no_terms (h : Printable f) (hobjective : f.objective.monomials ≠ [])
    {cs rest : List Constraint} {c : Constraint} (hsplit : f.constraints.toList = cs ++ c :: rest)
    (hcs : ∀ k ∈ cs, k.poly.monomials ≠ []) (hnil : c.poly.monomials = []) :
    read (ofLines (linesOf f)) = .error (.line (4 + cs.length)
      (Text.trim (constraintLine f.name c cs.length)) (.danglingBefore c.relation.text)) := by
  have hmem : ∀ k ∈ cs ++ c :: rest, k ∈ f.constraints := by
    intro k hk
    rw [← hsplit] at hk
    exact Array.mem_toList_iff.1 hk
  have hentries : ∀ entry ∈ cs.zipIdx,
      entry.1 ∈ f.constraints ∧ entry.1.poly.monomials ≠ [] := by
    intro entry hentry
    have hk := List.fst_mem_of_mem_zipIdx hentry
    exact ⟨hmem entry.1 (List.mem_append_left _ hk), hcs entry.1 hk⟩
  obtain ⟨d, hread, hd, hpart⟩ := drafted_objective h hobjective
  obtain ⟨e, hread', -, hpart'⟩ := drafted_constraints h _ hentries hd hpart
  have hlines : linesOf f = (["Minimize", objectiveLine f.name f.objective, "Subject To"] ++
      cs.zipIdx.map fun entry => constraintLine f.name entry.1 entry.2) ++
        constraintLine f.name c cs.length ::
          ((rest.zipIdx (cs.length + 1)).map (fun entry => constraintLine f.name entry.1 entry.2) ++
            ("Bounds" :: (boundLines f ++ ["Generals", namesLine f, "End"]))) := by
    simp [linesOf, constraintLines, hsplit, List.zipIdx_append, List.zipIdx_cons]
  have hrelation : c.relation ≠ .undefined := h.relations c (hmem c (by simp))
  have hno := newline_notMem_linesOf h
  rw [hlines] at hno ⊢
  rw [read_ofLines_error hno ((readAll_append hread _).trans hread')
    (readLine_constraint_of_nil h.naming hnil hrelation hpart' cs.length)]
  simp only [List.length_append, List.length_map, List.length_zipIdx, List.length_cons,
    List.length_nil]
  congr 2
  omega

theorem not_read_of_nil (h : Printable f)
    (hnil : ¬(f.objective.monomials ≠ [] ∧ ∀ c ∈ f.constraints, c.poly.monomials ≠ [])) :
    ∃ e, read (ofLines (linesOf f)) = .error e := by
  by_cases hobjective : f.objective.monomials = []
  · exact ⟨_, read_of_no_objective h hobjective⟩
  · cases hfirst : f.constraints.toList.find? fun c => c.poly.isEmpty with
    | none =>
      refine absurd ⟨hobjective, fun c hc hempty => ?_⟩ hnil
      have hfull := List.find?_eq_none.1 hfirst c (Array.mem_toList_iff.2 hc)
      exact hfull (List.isEmpty_iff.2 hempty)
    | some c =>
      obtain ⟨hempty, cs, rest, hsplit, hcs⟩ := List.find?_eq_some_iff_append.1 hfirst
      refine ⟨_, read_of_no_terms h hobjective hsplit ?_ (List.isEmpty_iff.1 hempty)⟩
      intro k hk hnone
      have hfull := hcs k hk
      rw [Polynomial.isEmpty, hnone] at hfull
      cases hfull

/-- What is read can be written, and it is read again unless some part has no terms.
Then all constraints are there, and all variables unless their names make a header. -/
theorem reread_of_read {text : String} (hread : read text = .ok f)
    (hobjective : ∀ m ∈ f.objective.monomials, m.coef ≠ -9223372036854775808)
    (hconstraints : ∀ c ∈ f.constraints, ∀ m ∈ c.poly.monomials, m.coef ≠ -9223372036854775808) :
    ∃ written, write f = .ok written ∧
      ((∃ g, read written = .ok g) ↔
        f.objective.monomials ≠ [] ∧ ∀ c ∈ f.constraints, c.poly.monomials ≠ []) ∧
      ∀ g, read written = .ok g →
        g.constraints.size = f.constraints.size ∧ g.numVariables ≤ f.numVariables ∧
          (header? (" ".intercalate ((List.range f.numVariables).map f.name)) = none →
            g.numVariables = f.numVariables ∧ ∃ π, Renamed f g π) := by
  have haccepted := accepted_of_read hread
  have hprintable := printable_of_built haccepted.built haccepted.naming
    (fun m hm => ⟨haccepted.objective m hm, hobjective m hm⟩)
    (fun c hc m hm => ⟨haccepted.constraints c hc m hm, hconstraints c hc m hm⟩)
    haccepted.relations
  have hwrite := write_eq_of_printable hprintable
  refine ⟨ofLines (linesOf f), hwrite, ?_⟩
  by_cases hterms : f.objective.monomials ≠ [] ∧ ∀ c ∈ f.constraints, c.poly.monomials ≠ []
  · obtain ⟨g, hagain, hg, hall⟩ := exists_rebuilt hprintable hterms.1 hterms.2
    refine ⟨⟨fun _ => hterms, fun _ => ⟨g, hagain⟩⟩, ?_⟩
    intro g' hg'
    obtain rfl : g = g' := Except.ok.inj (hagain.symm.trans hg')
    refine ⟨?_, hg.numVariables_le, fun hheader => ?_⟩
    · rw [hg.constraints, Array.size_map]
    · have hall := hall hheader
      exact ⟨hg.numVariables_eq haccepted.naming hall, _, hg.renamed haccepted.naming hall⟩
  · obtain ⟨e, he⟩ := not_read_of_nil hprintable hterms
    have hnone : ∀ g, read (ofLines (linesOf f)) ≠ .ok g := by
      intro g hg
      rw [he] at hg
      cases hg
    exact ⟨⟨fun ⟨g, hg⟩ => absurd hg (hnone g), fun h => absurd h hterms⟩,
      fun g hg => absurd hg (hnone g)⟩

/-- The formula of a text with products, a narrowed domain and a variable that has none. -/
def threefold : Formula where
  numVariables := 3
  constraints := #[.of (.ofMonomials [.ofFactors [0, 1] 2, .linear 2 (-1)]) .ge 0]
  objective := .normalize (.ofMonomials [.linear 0 (-1)])
  domains := #[⟨0, 5⟩, ⟨0, 4⟩, .standard]
  names := #["x", "y", "z"]

theorem reread_of_read_threefold :
    read ("Minimize\n obj: - x\nSubject To\n c2: [ 2 x * y ] - z >= 0\n" ++
      "Bounds\n 0 <= x <= 5\n y <= 4\nGenerals\n x y z\nEnd\n") = .ok threefold ∧
    ∃ written, write threefold = .ok written ∧
      ((∃ g, read written = .ok g) ↔ threefold.objective.monomials ≠ [] ∧
        ∀ c ∈ threefold.constraints, c.poly.monomials ≠ []) ∧
      ∀ g, read written = .ok g →
        g.constraints.size = threefold.constraints.size ∧
          g.numVariables ≤ threefold.numVariables ∧
          (header? (" ".intercalate
            ((List.range threefold.numVariables).map threefold.name)) = none →
            g.numVariables = threefold.numVariables ∧ ∃ π, Renamed threefold g π) := by
  have hread : read ("Minimize\n obj: - x\nSubject To\n c2: [ 2 x * y ] - z >= 0\n" ++
      "Bounds\n 0 <= x <= 5\n y <= 4\nGenerals\n x y z\nEnd\n") = .ok threefold := by
    decide +kernel
  exact ⟨hread, reread_of_read hread (by decide) (by decide)⟩

/-- Terms that cancel leave no objective, and what is written of it is refused. -/
theorem read_refuses_written :
    ∃ f written, read "Minimize\n obj: x - x\nSubject To\n c0: x <= 5\nEnd\n" = .ok f ∧
      (∀ m ∈ f.objective.monomials, m.coef ≠ -9223372036854775808) ∧
      (∀ c ∈ f.constraints, ∀ m ∈ c.poly.monomials, m.coef ≠ -9223372036854775808) ∧
      write f = .ok written ∧ read written = .error (.line 2 "obj: 0" .danglingAtEnd) := by
  refine ⟨⟨1, #[.of (.ofMonomials [.linear 0 1]) .le 5], .empty, #[.standard], #["x"]⟩,
    "Minimize\n obj: 0\nSubject To\n c0: + 1 x <= 5\nBounds\nGenerals\n x\nEnd\n", ?_⟩
  exact ⟨by decide +kernel, by decide, by decide, by decide +kernel, by decide +kernel⟩

/-- Names that make a header together are lost, though the text is read. -/
example : ∃ f written g, read "Minimize\n obj: subject\nGenerals\n to\nEnd\n" = .ok f ∧
    write f = .ok written ∧ read written = .ok g ∧ f.numVariables = 2 ∧ g.numVariables = 1 := by
  refine ⟨⟨2, #[], .normalize (.ofMonomials [.linear 0 1]), #[.standard, .standard],
      #["subject", "to"]⟩,
    "Minimize\n obj: + 1 subject\nSubject To\nBounds\nGenerals\n subject to\nEnd\n",
    ⟨1, #[], .normalize (.ofMonomials [.linear 0 1]), #[.standard], #["subject"]⟩, ?_⟩
  exact ⟨by decide +kernel, by decide +kernel, by decide +kernel, rfl, rfl⟩

end NonlinearInteger.Lp
