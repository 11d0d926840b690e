import NonlinearInteger.Lp.Reader
import NonlinearInteger.Proofs.Expressions

/-!
# Written lines

A formula is written in lines of words under five headers. Every line is cut into
the words it was written with, no line of an objective, a constraint or a bound is
taken for a header, and each fills the draft with what it says.
-/

namespace NonlinearInteger.Lp

open Text (spaced ofLines IsWord)

def objectiveLine (name : Variable → String) (p : Polynomial) : String :=
  spaced ("obj:" :: termsTokens name p)

def labelOf (index : Nat) : String := "c" ++ toString index ++ ":"

def constraintLine (name : Variable → String) (c : Constraint) (index : Nat) : String :=
  spaced (labelOf index :: (termsTokens name c.poly ++ [c.relation.text, toString c.limit]))

def boundLine (name : Variable → String) (d : Domain) (v : Variable) : String :=
  spaced [toString d.lb, "<=", name v, "<=", toString d.ub]

def namesLine (f : Formula) : String := spaced ((List.range f.numVariables).map f.name)

/-- The domains that are written, each with its variable. -/
def narrowed (f : Formula) : List (Domain × Variable) :=
  f.domains.toList.zipIdx.filter fun (d, _) => decide (d ≠ .standard)

def constraintLines (f : Formula) : List String :=
  f.constraints.toList.zipIdx.map fun (c, i) => constraintLine f.name c i

def boundLines (f : Formula) : List String :=
  (narrowed f).map fun (d, v) => boundLine f.name d v

def linesOf (f : Formula) : List String :=
  ["Minimize", objectiveLine f.name f.objective, "Subject To"] ++ constraintLines f ++
    ["Bounds"] ++ boundLines f ++ ["Generals", namesLine f, "End"]

theorem mapM_eq_ok {ε α β : Type} {f : α → Except ε β} {g : α → β} {as : List α}
    (h : ∀ a ∈ as, f a = .ok (g a)) : as.mapM f = .ok (as.map g) := by
  induction as with
  | nil => rfl
  | cons a as ih =>
    rw [List.mapM_cons, h a List.mem_cons_self, ih fun b hb => h b (List.mem_cons_of_mem a hb)]
    rfl

theorem constraintText_eq {name : Variable → String} {c : Constraint}
    (hp : ∀ m ∈ c.poly.monomials, m.isEmpty = false) (hr : c.relation ≠ .undefined) (i : Nat) :
    constraintText name c i = .ok (constraintLine name c i ++ "\n") := by
  have hlimit : spaced [c.relation.text, toString c.limit] =
      " " ++ c.relation.text ++ " " ++ toString c.limit := by
    simp only [Text.spaced_cons, Text.spaced_nil, String.append_empty, String.append_assoc]
  have hlabel : " c" = " " ++ "c" := rfl
  rw [constraintText, if_neg hr, constraintLine, Text.spaced_cons, Text.spaced_append,
    termsText_eq hp, hlimit, labelOf, hlabel]
  simp only [String.append_assoc]

theorem join_boundText (name : Variable → String) (ds : List (Domain × Variable)) :
    String.join (ds.map fun (d, v) => boundText name d v) =
      ofLines ((ds.filter fun (d, _) => decide (d ≠ .standard)).map
        fun (d, v) => boundLine name d v) := by
  induction ds with
  | nil => rfl
  | cons entry ds ih =>
    obtain ⟨d, v⟩ := entry
    rw [List.map_cons, String.join_cons, ih]
    dsimp only
    by_cases hd : d = .standard
    · simp [boundText, hd]
    · have hbounds : " " ++ toString d.lb ++ " <= " ++ name v ++ " <= " ++ toString d.ub =
          boundLine name d v := by
        have hle : " <= " = " " ++ "<=" ++ " " := rfl
        simp only [boundLine, hle, Text.spaced_cons, Text.spaced_nil, String.append_empty,
          String.append_assoc]
      rw [boundText, if_neg hd, hbounds]
      simp [hd, Text.ofLines_cons]

theorem join_names (f : Formula) :
    String.join ((List.range f.numVariables).map fun v => " " ++ f.name v) = namesLine f := by
  rw [namesLine, spaced, List.map_map]
  rfl

theorem write_eq {f : Formula} (hobjective : ∀ m ∈ f.objective.monomials, m.isEmpty = false)
    (hconstraints : ∀ c ∈ f.constraints, ∀ m ∈ c.poly.monomials, m.isEmpty = false)
    (hrelations : ∀ c ∈ f.constraints, c.relation ≠ .undefined) :
    write f = .ok (ofLines (linesOf f)) := by
  have hmapM : f.constraints.toList.zipIdx.mapM (fun (c, i) => constraintText f.name c i) =
      .ok ((constraintLines f).map (· ++ "\n")) := by
    rw [constraintLines, List.map_map]
    apply mapM_eq_ok
    rintro ⟨c, i⟩ hentry
    have hc : c ∈ f.constraints :=
      Array.mem_toList_iff.1 (List.fst_mem_of_mem_zipIdx hentry)
    exact constraintText_eq (hconstraints c hc) (hrelations c hc) i
  have hobj : "Minimize\n obj:" = "Minimize" ++ "\n" ++ " " ++ "obj:" := rfl
  have hsubject : "\nSubject To\n" = "\n" ++ "Subject To" ++ "\n" := rfl
  have hbounds : "Bounds\n" = "Bounds" ++ "\n" := rfl
  have hgenerals : "Generals\n" = "Generals" ++ "\n" := rfl
  have hend : "\nEnd\n" = "\n" ++ "End" ++ "\n" := rfl
  have hlines : String.join ((constraintLines f).map (· ++ "\n")) = ofLines (constraintLines f) :=
    rfl
  rw [write, hmapM]
  change Except.ok _ = Except.ok _
  congr 1
  rw [hlines, join_boundText, join_names, termsText_eq hobjective, linesOf, hobj, hsubject, hbounds,
    hgenerals, hend]
  simp only [Text.ofLines_append, Text.ofLines_cons, Text.ofLines_nil, objectiveLine,
    Text.spaced_cons, narrowed, boundLines, String.append_assoc, String.append_empty]

theorem isWord_text (r : Relation) : IsWord r.text := by
  cases r <;> decide

theorem isWord_label (index : Nat) : IsWord (labelOf index) := by
  refine ⟨by simp [labelOf], ?_⟩
  intro c hc
  simp only [labelOf, String.toList_append, List.mem_append] at hc
  rcases hc with (hc | hc) | hc
  · obtain rfl : c = 'c' := by simpa using hc
    decide
  · exact (Text.isWord_toString_nat index).not_blank c hc
  · obtain rfl : c = ':' := by simpa using hc
    decide

theorem colon_notMem_label (index : Nat) : ':' ∉ ("c" ++ toString index).toList := by
  rw [String.toList_append, List.mem_append]
  rintro (hc | hc)
  · exact absurd hc (by decide)
  · exact absurd (Text.isDigit_of_mem_repr hc) (by decide)

section Named

variable {n : Nat} {name : Variable → String}

theorem Naming.isWord (h : Naming n name) {v : Variable} (hv : v < n) : IsWord (name v) := by
  refine ⟨?_, h.not_blank v hv⟩
  obtain ⟨c, cs, hcs, -⟩ := exists_letter_cons (h.isName v hv)
  simp [hcs]

theorem isWord_productTokens {xs : List String} (hxs : ∀ x ∈ xs, IsWord x) :
    ∀ token ∈ productTokens xs, IsWord token := by
  cases xs with
  | nil => simp [productTokens]
  | cons x xs =>
    obtain ⟨hx, hxs⟩ := List.forall_mem_cons.1 hxs
    have hstar : IsWord "*" := by decide
    refine List.forall_mem_cons.2 ⟨hx, ?_⟩
    intro token htoken
    obtain ⟨y, hy, htoken⟩ := List.mem_flatMap.1 htoken
    simp only [List.mem_cons, List.not_mem_nil, or_false] at htoken
    rcases htoken with rfl | rfl
    · exact hstar
    · exact hxs token hy

theorem isWord_termTokens (h : Naming n name) {m : Monomial} (hm : ∀ v ∈ m.vars, v < n) :
    ∀ token ∈ termTokens name m, IsWord token := by
  have hnames : ∀ x ∈ m.vars.map name, IsWord x := by
    intro x hx
    obtain ⟨v, hv, rfl⟩ := List.mem_map.1 hx
    exact h.isWord (hm v hv)
  have hbody : ∀ token ∈ toString m.coef.natAbs :: productTokens (m.vars.map name),
      IsWord token :=
    List.forall_mem_cons.2 ⟨Text.isWord_toString_nat m.coef.natAbs, isWord_productTokens hnames⟩
  have hsign : IsWord (if m.coef < 0 then "-" else "+") := by
    split <;> decide
  have hopen : IsWord "[" := by decide
  have hclose : ∀ token ∈ ["]"], IsWord token := by
    intro token htoken
    rw [List.mem_singleton.1 htoken]
    decide
  unfold termTokens
  dsimp only
  split
  · exact List.forall_mem_cons.2 ⟨hsign, hbody⟩
  · refine List.forall_mem_cons.2 ⟨hsign, List.forall_mem_cons.2 ⟨hopen, ?_⟩⟩
    exact List.forall_mem_append.2 ⟨hbody, hclose⟩

theorem isWord_termsTokens (h : Naming n name) {p : Polynomial} (hp : p.Over n) :
    ∀ token ∈ termsTokens name p, IsWord token := by
  unfold termsTokens
  split
  · intro token htoken
    rw [List.mem_singleton.1 htoken]
    decide
  · intro token htoken
    obtain ⟨m, hm, htoken⟩ := List.mem_flatMap.1 htoken
    exact isWord_termTokens h (hp m hm).2 token htoken

theorem isWord_constraint (h : Naming n name) {c : Constraint} (hp : c.poly.Over n) :
    ∀ token ∈ termsTokens name c.poly ++ [c.relation.text, toString c.limit], IsWord token := by
  intro token htoken
  rcases List.mem_append.1 htoken with htoken | htoken
  · exact isWord_termsTokens h hp token htoken
  · simp only [List.mem_cons, List.not_mem_nil, or_false] at htoken
    rcases htoken with rfl | rfl
    · exact isWord_text c.relation
    · exact Text.isWord_toString_int c.limit

theorem isWord_bound (h : Naming n name) (d : Domain) {v : Variable} (hv : v < n) :
    ∀ token ∈ ["<=", name v, "<=", toString d.ub], IsWord token := by
  intro token htoken
  simp only [List.mem_cons, List.not_mem_nil, or_false] at htoken
  rcases htoken with rfl | rfl | rfl | rfl
  · exact isWord_text .le
  · exact h.isWord hv
  · exact isWord_text .le
  · exact Text.isWord_toString_int d.ub

end Named

theorem header?_eq_none {line : String} {c : Char} {cs : List Char} (h : line.toList = c :: cs)
    (hc : c.toLower ∉ ['m', 's', 'b', 'g', 'e']) : header? line = none := by
  have hne : ∀ (s : String) (d : Char), s.toList.head? = some d →
      d ∈ ['m', 's', 'b', 'g', 'e'] → line.map Char.toLower ≠ s := by
    rintro s d hd hmem rfl
    rw [String.toList_map, h] at hd
    exact hc (Option.some.inj hd ▸ hmem)
  unfold header?
  dsimp only
  rw [if_neg, if_neg, if_neg, if_neg, if_neg]
  · exact hne "end" 'e' rfl (by decide)
  · rintro (heq | heq | heq)
    · exact hne "generals" 'g' rfl (by decide) heq
    · exact hne "general" 'g' rfl (by decide) heq
    · exact hne "gen" 'g' rfl (by decide) heq
  · exact hne "bounds" 'b' rfl (by decide)
  · rintro (heq | heq | heq | heq)
    · exact hne "subject to" 's' rfl (by decide) heq
    · exact hne "such that" 's' rfl (by decide) heq
    · exact hne "st" 's' rfl (by decide) heq
    · exact hne "s.t." 's' rfl (by decide) heq
  · rintro (heq | heq | heq)
    · exact hne "minimize" 'm' rfl (by decide) heq
    · exact hne "minimise" 'm' rfl (by decide) heq
    · exact hne "min" 'm' rfl (by decide) heq

theorem isSilent_append {w : String} (hw : IsWord w) (hsilent : w.toList.head? ≠ some '\\')
    (rest : String) : isSilent (w ++ rest) = false := by
  cases hcs : w.toList with
  | nil => exact absurd hcs hw.ne_nil
  | cons c cs =>
    have hc : c ≠ '\\' := by
      rintro rfl
      simp [hcs] at hsilent
    simp [isSilent, hcs, hc]

/-- A line of words is content unless it is a header. -/
theorem readLine_spaced {w : String} {ws : List String} (hw : IsWord w)
    (hws : ∀ u ∈ ws, IsWord u) (hsilent : w.toList.head? ≠ some '\\')
    (hheader : header? (w ++ spaced ws) = none) (d : Draft) :
    readLine d (Text.trim (spaced (w :: ws))) = readContent d (w ++ spaced ws) := by
  rw [Text.trim_spaced hw hws, readLine, isSilent_append hw hsilent, hheader]
  rfl

theorem readLine_header {raw : String} {part : Section}
    (hsilent : isSilent (Text.trim raw) = false) (hheader : header? (Text.trim raw) = some part)
    (d : Draft) : readLine d (Text.trim raw) = .ok { d with part := part } := by
  rw [readLine, hsilent, hheader]
  rfl

section Named

variable {n : Nat} {name : Variable → String} {d : Draft}

theorem readLine_objectiveLine (h : Naming n name) {p : Polynomial} (hp : p.Over n)
    (hpart : d.part = .objective) :
    ∃ line, Text.words (Text.afterColon line) = termsTokens name p ∧
      readLine d (Text.trim (objectiveLine name p)) = readObjective d line := by
  have hwords := isWord_termsTokens h hp
  have hlabel : IsWord "obj:" := by decide
  have htext : ∀ rest : String, "obj:" ++ rest = "obj" ++ ":" ++ rest := fun _ => rfl
  have hheader : header? ("obj:" ++ spaced (termsTokens name p)) = none :=
    header?_eq_none String.toList_append (by decide)
  refine ⟨"obj:" ++ spaced (termsTokens name p), ?_, ?_⟩
  · rw [htext, Text.afterColon_append (by decide), Text.words_spaced hwords]
  · rw [objectiveLine, readLine_spaced hlabel hwords (by decide) hheader, readContent, hpart]

theorem readLine_objective (h : Naming n name) {p : Polynomial} (hp : Legible n p)
    (hne : p.monomials ≠ []) (hpart : d.part = .objective) (hempty : d.objective = .empty) :
    ∃ names, Grows d.names (namesOf name p.monomials) names ∧
      readLine d (Text.trim (objectiveLine name p)) =
        .ok { d with names := names, objective := p.rename (numbered names name) } := by
  obtain ⟨line, hline, hcontent⟩ := readLine_objectiveLine h hp.isOver hpart
  obtain ⟨names, hgrows, hread⟩ := readExpression_of_polynomial h hp hne d.names
  have hmerge := hp.merge_rename h fun m hm v hv => hgrows.mem_of_seen (mem_namesOf hm hv)
  refine ⟨names, hgrows, ?_⟩
  rw [hcontent, readObjective, hline, hread, hempty]
  exact congrArg (· >>= fun q => pure { d with names := names, objective := q }) hmerge

/-- The line of a constraint is read in its section, label and tokens apart. -/
theorem readLine_constraintLine (h : Naming n name) {c : Constraint} (hp : c.poly.Over n)
    (hpart : d.part = .constraints) (index : Nat) :
    ∃ line, Text.words (Text.afterColon line) =
        termsTokens name c.poly ++ [c.relation.text, toString c.limit] ∧
      readLine d (Text.trim (constraintLine name c index)) = readConstraint d line := by
  have hwords := isWord_constraint h hp
  have hstart : (labelOf index).toList = 'c' :: ((toString index).toList ++ [':']) := by
    simp [labelOf]
  have hheader : header? (labelOf index ++ spaced (termsTokens name c.poly ++
      [c.relation.text, toString c.limit])) = none := by
    apply header?_eq_none
    · rw [String.toList_append, hstart]
      rfl
    · decide
  refine ⟨labelOf index ++ spaced (termsTokens name c.poly ++
    [c.relation.text, toString c.limit]), ?_, ?_⟩
  · rw [labelOf, Text.afterColon_append (colon_notMem_label index), Text.words_spaced hwords]
  · rw [constraintLine, readLine_spaced (isWord_label index) hwords (by simp [hstart]) hheader,
      readContent, hpart]

theorem readLine_constraint (h : Naming n name) {c : Constraint} (hp : Legible n c.poly)
    (hne : c.poly.monomials ≠ []) (hr : c.relation ≠ .undefined) (hlimit : FitsInt64 c.limit)
    (hpart : d.part = .constraints) (index : Nat) :
    ∃ names, Grows d.names (namesOf name c.poly.monomials) names ∧
      readLine d (Text.trim (constraintLine name c index)) =
        .ok { d with
          names := names
          constraints := d.constraints.push
            (c.poly.rename (numbered names name), c.relation, c.limit) } := by
  obtain ⟨line, hline, hcontent⟩ := readLine_constraintLine h hp.isOver hpart index
  obtain ⟨names, hgrows, hread⟩ :=
    readExpression_of_relation h hp hne d.names hr [toString c.limit]
  have hinteger : readInteger (toString c.limit) = .ok c.limit := by
    rw [readInteger, Text.int64?_toString hlimit]
  refine ⟨names, hgrows, ?_⟩
  rw [hcontent, readConstraint, hline, hread]
  change (readInteger (toString c.limit) >>= _) = _
  rw [hinteger]
  rfl

theorem readLine_bound (h : Naming n name) {dom : Domain} (hdom : dom.Proper) {v : Variable}
    (hv : v < n) (hpart : d.part = .bounds) :
    ∃ names, Grows d.names [name v] names ∧
      readLine d (Text.trim (boundLine name dom v)) =
        .ok { d with
          names := names
          bounds := d.bounds.push ⟨numbered names name v, some dom.lb, some dom.ub⟩ } := by
  have hfirst := Text.isWord_toString_int dom.lb
  have hwords := isWord_bound h dom hv
  obtain ⟨c, cs, hcs, hc⟩ := Text.exists_int_cons dom.lb
  have hsilent : (toString dom.lb).toList.head? ≠ some '\\' := by
    rw [hcs]
    rintro heq
    cases heq
    rcases hc with hc | hc <;> exact absurd hc (by decide)
  have hheader : header? (toString dom.lb ++ spaced ["<=", name v, "<=", toString dom.ub]) =
      none := by
    apply header?_eq_none
    · rw [String.toList_append, hcs]
      rfl
    · intro hmem
      rcases hc with hc | rfl
      · rw [Text.toLower_of_isDigit hc] at hmem
        simp only [List.mem_cons, List.not_mem_nil, or_false] at hmem
        rcases hmem with rfl | rfl | rfl | rfl | rfl <;> exact absurd hc (by decide)
      · exact absurd hmem (by decide)
  have hcontent : ∀ line, readContent d line = readBound d line := by
    intro line
    rw [readContent, hpart]
  have hinteger : ∀ x : Int, FitsInt64 x → readInteger (toString x) = .ok x := by
    intro x hx
    rw [readInteger, Text.int64?_toString hx]
  obtain ⟨names, hintern, hgrows⟩ := exists_intern d.names (name v)
  refine ⟨names, hgrows, ?_⟩
  rw [boundLine, readLine_spaced hfirst hwords hsilent hheader, hcontent, readBound,
    Text.words_append_spaced hfirst hwords]
  dsimp only
  rw [if_pos (h.isName v hv), readInterval, hintern, hinteger _ hdom.lb_fits,
    hinteger _ hdom.ub_fits]
  rfl

theorem readNames {ns : List String} (hns : ∀ x ∈ ns, isName x = true) (names : Array String) :
    ∃ names', Grows names ns names' ∧ ns.foldlM (fun names token =>
      if isName token then .ok (intern names token).1 else .error (.invalidName token)) names =
        (.ok names' : Except LineError (Array String)) := by
  induction ns generalizing names with
  | nil => exact ⟨names, .refl names, rfl⟩
  | cons x xs ih =>
    obtain ⟨names', hintern, hgrows⟩ := exists_intern names x
    obtain ⟨names'', hgrows', hread⟩ := ih (fun y hy => hns y (List.mem_cons_of_mem x hy)) names'
    refine ⟨names'', hgrows.trans hgrows', ?_⟩
    rw [List.foldlM_cons, if_pos (hns x List.mem_cons_self), hintern]
    exact hread

theorem head?_ne_of_isName {x : String} (h : isName x = true) : x.toList.head? ≠ some '\\' := by
  obtain ⟨c, cs, hcs, hc⟩ := exists_letter_cons h
  rw [hcs]
  intro heq
  cases heq
  rcases hc with hc | hc <;> exact absurd hc (by decide)

theorem words_of_naming {f : Formula} (h : Naming f.numVariables f.name) :
    ∀ x ∈ (List.range f.numVariables).map f.name, IsWord x ∧ isName x = true := by
  intro x hx
  obtain ⟨v, hv, rfl⟩ := List.mem_map.1 hx
  have hv := List.mem_range.1 hv
  exact ⟨h.isWord hv, h.isName v hv⟩

theorem readLine_names {f : Formula} (h : Naming f.numVariables f.name)
    (hheader : header? (" ".intercalate ((List.range f.numVariables).map f.name)) = none)
    (hpart : d.part = .generals) :
    ∃ names, Grows d.names ((List.range f.numVariables).map f.name) names ∧
      readLine d (Text.trim (namesLine f)) = .ok { d with names := names } := by
  have hwords := words_of_naming h
  rw [namesLine]
  generalize (List.range f.numVariables).map f.name = ns at hwords hheader
  cases ns with
  | nil =>
    have hsilent : isSilent (Text.trim (spaced [])) = true := rfl
    refine ⟨d.names, .refl d.names, ?_⟩
    rw [readLine, if_pos hsilent]
  | cons x xs =>
    rw [Text.intercalate_cons] at hheader
    obtain ⟨hx, hname⟩ := hwords x List.mem_cons_self
    have hxs : ∀ y ∈ xs, IsWord y := fun y hy => (hwords y (List.mem_cons_of_mem x hy)).1
    have hcontent : ∀ line, readContent d line = readGenerals d line := by
      intro line
      rw [readContent, hpart]
    obtain ⟨names, hgrows, hread⟩ := readNames (fun y hy => (hwords y hy).2) d.names
    refine ⟨names, hgrows, ?_⟩
    rw [readLine_spaced hx hxs (head?_ne_of_isName hname) hheader, hcontent, readGenerals,
      Text.words_append_spaced hx hxs, hread]
    rfl

/-- Names that make a header together open its section and are not looked up. -/
theorem readLine_names_of_header {f : Formula} (h : Naming f.numVariables f.name) {part : Section}
    (hheader : header? (" ".intercalate ((List.range f.numVariables).map f.name)) = some part)
    (d : Draft) : readLine d (Text.trim (namesLine f)) = .ok { d with part := part } := by
  have hwords := words_of_naming h
  rw [namesLine]
  generalize (List.range f.numVariables).map f.name = ns at hwords hheader
  cases ns with
  | nil =>
    have hnone : header? (" ".intercalate []) = none := by decide +kernel
    rw [hnone] at hheader
    cases hheader
  | cons x xs =>
    rw [Text.intercalate_cons] at hheader
    obtain ⟨hx, hname⟩ := hwords x List.mem_cons_self
    have hxs : ∀ y ∈ xs, IsWord y := fun y hy => (hwords y (List.mem_cons_of_mem x hy)).1
    have htrim := Text.trim_spaced hx hxs
    refine readLine_header ?_ (by rw [htrim, hheader]) d
    rw [htrim]
    exact isSilent_append hx (head?_ne_of_isName hname) (spaced xs)

end Named

end NonlinearInteger.Lp
