import NonlinearInteger.Proofs.WrittenLines
import Mathlib.Data.List.Nodup

/-!
# Drafts of written formulas

The lines of a formula fill a draft part by part: the objective, the constraints in
order, and the domains that are written. What the draft has of the formula is the
formula with its variables numbered by the table of names, and so is what is built.
-/

namespace NonlinearInteger.Lp

/-- The draft after some lines. -/
def readAll (d : Draft) (lines : List String) : Except LineError Draft :=
  lines.foldlM (fun d raw => readLine d (Text.trim raw)) d

theorem readLines_eq_ok {d e : Draft} {number : Nat} {lines : List String} :
    readLines d number lines = .ok e ↔ readAll d lines = .ok e := by
  induction lines generalizing d number with
  | nil => simp [readLines, readAll, pure, Except.pure]
  | cons raw lines ih =>
    rw [readAll, List.foldlM_cons, bind_eq_ok, readLines]
    cases hline : readLine d (Text.trim raw) with
    | error cause => simp
    | ok next =>
      simp only [Except.ok.injEq, exists_eq_left']
      exact ih

theorem readAll_nil (d : Draft) : readAll d [] = .ok d := rfl

theorem readAll_cons {d e : Draft} {raw : String} (h : readLine d (Text.trim raw) = .ok e)
    (lines : List String) : readAll d (raw :: lines) = readAll e lines := by
  rw [readAll, List.foldlM_cons, h]
  rfl

theorem readAll_append {d e : Draft} {ls : List String} (h : readAll d ls = .ok e)
    (ms : List String) : readAll d (ls ++ ms) = readAll e ms := by
  rw [readAll, List.foldlM_append]
  change (readAll d ls >>= _) = _
  rw [h]
  rfl

theorem read_ofLines {lines : List String} (h : ∀ l ∈ lines, '\n' ∉ l.toList) {d : Draft}
    (hread : readAll .empty lines = .ok d) {g : Formula} (hbuild : d.build = .ok g) :
    read (Text.ofLines lines) = .ok g := by
  have hsilent : readAll d [""] = .ok d := rfl
  have hall := readAll_append hread [""]
  rw [hsilent] at hall
  rw [read, Text.splitAt_ofLines h, readLines_eq_ok.2 hall]
  simp only [hbuild]

/-- A formula with a text: its names tell its variables apart, and nothing in it is
beyond the format. -/
structure Printable (f : Formula) : Prop where
  naming : Naming f.numVariables f.name
  objective : Legible f.numVariables f.objective
  constraints : ∀ c ∈ f.constraints, Legible f.numVariables c.poly
  relations : ∀ c ∈ f.constraints, c.relation ≠ .undefined
  limits : ∀ c ∈ f.constraints, FitsInt64 c.limit
  domainCount : f.domains.size = f.numVariables
  domains : ∀ d ∈ f.domains, d.Proper

/-- What the lines of a formula have made of a draft: its objective, the first of its
constraints and of its narrowed domains, with the variables numbered by the table. -/
structure Drafted (f : Formula) (cs : List Constraint) (bs : List (Domain × Variable))
    (d : Draft) : Prop where
  nodup : d.names.toList.Nodup
  known : ∀ x ∈ d.names, ∃ v < f.numVariables, f.name v = x
  objective : d.objective = f.objective.rename (numbered d.names f.name)
  constraints : d.constraints.toList =
    cs.map fun c => (c.poly.rename (numbered d.names f.name), c.relation, c.limit)
  bounds : d.bounds.toList =
    bs.map fun (dom, v) => ⟨numbered d.names f.name v, some dom.lb, some dom.ub⟩
  seen_objective : ∀ m ∈ f.objective.monomials, ∀ v ∈ m.vars, f.name v ∈ d.names
  seen_constraints : ∀ c ∈ cs, ∀ m ∈ c.poly.monomials, ∀ v ∈ m.vars, f.name v ∈ d.names
  seen_bounds : ∀ b ∈ bs, f.name b.2 ∈ d.names

namespace Drafted

variable {f : Formula} {cs : List Constraint} {bs : List (Domain × Variable)} {d : Draft}

theorem grow (h : Drafted f cs bs d) {seen : List String} {names : Array String}
    (hgrows : Grows d.names seen names) (hseen : ∀ x ∈ seen, ∃ v < f.numVariables, f.name v = x) :
    Drafted f cs bs { d with names := names } where
  nodup := hgrows.nodup h.nodup
  known := by
    intro x hx
    rcases (hgrows.mem_iff x).1 hx with hx | hx
    · exact h.known x hx
    · exact hseen x hx
  objective := by
    refine h.objective.trans (Polynomial.rename_congr fun m hm v hv => ?_)
    exact (hgrows.position_eq (h.seen_objective m hm v hv)).symm
  constraints := by
    refine h.constraints.trans (List.map_congr_left fun c hc => ?_)
    congr 1
    refine Polynomial.rename_congr fun m hm v hv => ?_
    exact (hgrows.position_eq (h.seen_constraints c hc m hm v hv)).symm
  bounds := by
    refine h.bounds.trans (List.map_congr_left fun b hb => ?_)
    simp only [numbered, hgrows.position_eq (h.seen_bounds b hb)]
  seen_objective m hm v hv := hgrows.mem_of_mem (h.seen_objective m hm v hv)
  seen_constraints c hc m hm v hv := hgrows.mem_of_mem (h.seen_constraints c hc m hm v hv)
  seen_bounds b hb := hgrows.mem_of_mem (h.seen_bounds b hb)

theorem withPart (h : Drafted f cs bs d) (part : Section) :
    Drafted f cs bs { d with part := part } :=
  ⟨h.nodup, h.known, h.objective, h.constraints, h.bounds, h.seen_objective, h.seen_constraints,
    h.seen_bounds⟩

end Drafted

variable {f : Formula}

theorem exists_of_mem_namesOf {n : Nat} {name : Variable → String} {p : Polynomial}
    (hp : p.Over n) : ∀ x ∈ namesOf name p.monomials, ∃ v < n, name v = x := by
  intro x hx
  obtain ⟨m, hm, hx⟩ := List.mem_flatMap.1 hx
  obtain ⟨v, hv, rfl⟩ := List.mem_map.1 hx
  exact ⟨v, (hp m hm).2 v hv, rfl⟩

theorem readLine_minimize :
    readLine .empty (Text.trim "Minimize") = .ok ⟨.objective, #[], .empty, #[], #[]⟩ :=
  readLine_header (by decide +kernel) (by decide +kernel) .empty

theorem drafted_objective (h : Printable f) (hne : f.objective.monomials ≠ []) :
    ∃ d, readAll .empty ["Minimize", objectiveLine f.name f.objective, "Subject To"] = .ok d ∧
      Drafted f [] [] d ∧ d.part = .constraints := by
  have hsubject : ∀ d, readLine d (Text.trim "Subject To") = .ok { d with part := .constraints } :=
    readLine_header (by decide +kernel) (by decide +kernel)
  obtain ⟨names, hgrows, hobjective⟩ := readLine_objective h.naming h.objective hne
    (d := ⟨.objective, #[], .empty, #[], #[]⟩) rfl rfl
  refine ⟨⟨.constraints, names, f.objective.rename (numbered names f.name), #[], #[]⟩, ?_, ?_, rfl⟩
  · rw [readAll_cons readLine_minimize, readAll_cons hobjective, readAll_cons (hsubject _),
      readAll_nil]
  · exact {
      nodup := hgrows.nodup (by simp)
      known := by
        intro x hx
        rcases (hgrows.mem_iff x).1 hx with hx | hx
        · simp at hx
        · exact exists_of_mem_namesOf h.objective.isOver x hx
      objective := rfl
      constraints := rfl
      bounds := rfl
      seen_objective := fun m hm v hv => hgrows.mem_of_seen (mem_namesOf hm hv)
      seen_constraints := by simp
      seen_bounds := by simp }

theorem drafted_constraints (h : Printable f) (entries : List (Constraint × Nat))
    (hentries : ∀ entry ∈ entries, entry.1 ∈ f.constraints ∧ entry.1.poly.monomials ≠ [])
    {cs : List Constraint} {d : Draft} (hd : Drafted f cs [] d) (hpart : d.part = .constraints) :
    ∃ e, readAll d (entries.map fun (c, i) => constraintLine f.name c i) = .ok e ∧
      Drafted f (cs ++ entries.map Prod.fst) [] e ∧ e.part = .constraints := by
  induction entries generalizing cs d with
  | nil => exact ⟨d, rfl, by simpa using hd, hpart⟩
  | cons entry entries ih =>
    obtain ⟨c, i⟩ := entry
    obtain ⟨hc, hne⟩ := hentries (c, i) List.mem_cons_self
    have hp := h.constraints c hc
    obtain ⟨names, hgrows, hread⟩ :=
      readLine_constraint h.naming hp hne (h.relations c hc) (h.limits c hc) hpart i
    have hgrown := hd.grow hgrows (exists_of_mem_namesOf hp.isOver)
    have hnext : Drafted f (cs ++ [c]) [] { d with
        names := names
        constraints := d.constraints.push
          (c.poly.rename (numbered names f.name), c.relation, c.limit) } := {
      nodup := hgrown.nodup
      known := hgrown.known
      objective := hgrown.objective
      constraints := by
        have hold := hgrown.constraints
        simp only at hold
        simp [hold]
      bounds := hgrown.bounds
      seen_objective := hgrown.seen_objective
      seen_constraints := by
        intro k hk m hm v hv
        rcases List.mem_append.1 hk with hk | hk
        · exact hgrown.seen_constraints k hk m hm v hv
        · rw [List.mem_singleton.1 hk] at hm
          exact hgrows.mem_of_seen (mem_namesOf hm hv)
      seen_bounds := by simp }
    obtain ⟨e, hrest, he, hepart⟩ :=
      ih (fun k hk => hentries k (List.mem_cons_of_mem (c, i) hk)) hnext hpart
    refine ⟨e, ?_, by simpa using he, hepart⟩
    rw [List.map_cons, readAll_cons hread]
    exact hrest

theorem drafted_bounds (h : Printable f) (entries : List (Domain × Variable))
    (hentries : ∀ entry ∈ entries, entry.1 ∈ f.domains ∧ entry.2 < f.numVariables)
    {cs : List Constraint} {bs : List (Domain × Variable)} {d : Draft} (hd : Drafted f cs bs d)
    (hpart : d.part = .bounds) :
    ∃ e, readAll d (entries.map fun (dom, v) => boundLine f.name dom v) = .ok e ∧
      Drafted f cs (bs ++ entries) e ∧ e.part = .bounds := by
  induction entries generalizing bs d with
  | nil => exact ⟨d, rfl, by simpa using hd, hpart⟩
  | cons entry entries ih =>
    obtain ⟨dom, u⟩ := entry
    obtain ⟨hdom, hu⟩ := hentries (dom, u) List.mem_cons_self
    obtain ⟨names, hgrows, hread⟩ := readLine_bound h.naming (h.domains dom hdom) hu hpart
    have hgrown := hd.grow hgrows (by
      intro x hx
      exact ⟨u, hu, (List.mem_singleton.1 hx).symm⟩)
    have hnext : Drafted f cs (bs ++ [(dom, u)]) { d with
        names := names
        bounds := d.bounds.push ⟨numbered names f.name u, some dom.lb, some dom.ub⟩ } := {
      nodup := hgrown.nodup
      known := hgrown.known
      objective := hgrown.objective
      constraints := hgrown.constraints
      bounds := by
        have hold := hgrown.bounds
        simp only at hold
        simp [hold]
      seen_objective := hgrown.seen_objective
      seen_constraints := hgrown.seen_constraints
      seen_bounds := by
        intro b hb
        rcases List.mem_append.1 hb with hb | hb
        · exact hgrown.seen_bounds b hb
        · rw [List.mem_singleton.1 hb]
          exact hgrows.mem_of_seen List.mem_cons_self }
    obtain ⟨e, hrest, he, hepart⟩ :=
      ih (fun b hb => hentries b (List.mem_cons_of_mem (dom, u) hb)) hnext hpart
    refine ⟨e, ?_, by simpa using he, hepart⟩
    rw [List.map_cons, readAll_cons hread]
    exact hrest

theorem mem_of_mem_narrowed {entry : Domain × Variable} (h : entry ∈ narrowed f) :
    f.domains[entry.2]? = some entry.1 := by
  have hget := List.mem_zipIdx_iff_getElem?.1 (List.mem_filter.1 h).1
  rwa [Array.getElem?_toList] at hget

theorem lt_of_mem_narrowed (h : Printable f) {b : Domain × Variable} (hb : b ∈ narrowed f) :
    b.2 < f.numVariables := by
  rw [← h.domainCount]
  exact (Array.getElem?_eq_some_iff.1 (mem_of_mem_narrowed hb)).1

theorem nodup_narrowed (f : Formula) : ((narrowed f).map Prod.snd).Nodup := by
  have hsub : ((narrowed f).map Prod.snd).Sublist (f.domains.toList.zipIdx.map Prod.snd) :=
    List.filter_sublist.map _
  refine hsub.nodup ?_
  rw [List.zipIdx_map_snd]
  exact List.nodup_range'

/-- All lines up to the names draft the formula. -/
theorem drafted_lines (h : Printable f) (hobjective : f.objective.monomials ≠ [])
    (hconstraints : ∀ c ∈ f.constraints, c.poly.monomials ≠ []) :
    ∃ d, readAll .empty (["Minimize", objectiveLine f.name f.objective, "Subject To"] ++
        constraintLines f ++ ["Bounds"] ++ boundLines f) = .ok d ∧
      Drafted f f.constraints.toList (narrowed f) d ∧ d.part = .bounds := by
  have hbounds : ∀ d, readLine d (Text.trim "Bounds") = .ok { d with part := .bounds } :=
    readLine_header (by decide +kernel) (by decide +kernel)
  have hentries : ∀ entry ∈ f.constraints.toList.zipIdx,
      entry.1 ∈ f.constraints ∧ entry.1.poly.monomials ≠ [] := by
    intro entry hentry
    have hc := Array.mem_toList_iff.1 (List.fst_mem_of_mem_zipIdx hentry)
    exact ⟨hc, hconstraints entry.1 hc⟩
  have hdomains : ∀ entry ∈ narrowed f, entry.1 ∈ f.domains ∧ entry.2 < f.numVariables :=
    fun _ hentry =>
      ⟨Array.mem_of_getElem? (mem_of_mem_narrowed hentry), lt_of_mem_narrowed h hentry⟩
  obtain ⟨d, hread, hd, hpart⟩ := drafted_objective h hobjective
  obtain ⟨e, hread', he, hpart'⟩ := drafted_constraints h _ hentries hd hpart
  rw [List.nil_append, List.zipIdx_map_fst] at he
  obtain ⟨k, hread'', hk, hpart''⟩ := drafted_bounds h _ hdomains (he.withPart .bounds) rfl
  refine ⟨k, ?_, by simpa using hk, hpart''⟩
  rw [List.append_assoc, List.append_assoc, readAll_append hread]
  rw [constraintLines, readAll_append hread', List.singleton_append, readAll_cons (hbounds e)]
  exact hread''

theorem applyBound_eq {g : Formula} {w : Variable} {dom : Domain} (hw : w < g.numVariables)
    (hdom : dom.lb ≤ dom.ub) :
    applyBound g ⟨w, some dom.lb, some dom.ub⟩ =
      .ok { g with domains := g.domains.setIfInBounds w dom } := by
  have hlt : ¬g.numVariables ≤ w := Nat.not_le_of_lt hw
  have hle : ¬dom.ub < dom.lb := Int.not_lt.2 hdom
  rw [applyBound, Formula.setDomain]
  exact (if_neg hlt).trans (if_neg hle)

theorem foldlM_applyBound {bs : List (Domain × Variable)} {π : Variable → Variable} {g : Formula}
    (hsize : g.domains.size = g.numVariables)
    (hbs : ∀ b ∈ bs, b.1.lb ≤ b.1.ub ∧ π b.2 < g.numVariables)
    (hnodup : (bs.map fun b => π b.2).Nodup) :
    ∃ domains : Array Domain,
      (bs.map fun b => (⟨π b.2, some b.1.lb, some b.1.ub⟩ : Bound)).foldlM applyBound g =
        .ok { g with domains := domains } ∧
      (∀ b ∈ bs, domains[π b.2]? = some b.1) ∧
      ∀ w, w ∉ bs.map (fun b => π b.2) → domains[w]? = g.domains[w]? := by
  induction bs generalizing g with
  | nil => exact ⟨g.domains, rfl, by simp, fun _ _ => rfl⟩
  | cons b bs ih =>
    obtain ⟨hle, hlt⟩ := hbs b List.mem_cons_self
    rw [List.map_cons, List.nodup_cons] at hnodup
    obtain ⟨domains, hfold, hset, hkept⟩ :=
      ih (g := { g with domains := g.domains.setIfInBounds (π b.2) b.1 }) (by simpa using hsize)
        (fun k hk => hbs k (List.mem_cons_of_mem b hk)) hnodup.2
    refine ⟨domains, ?_, ?_, ?_⟩
    · rw [List.map_cons, List.foldlM_cons, applyBound_eq hlt hle]
      exact hfold
    · intro k hk
      rcases List.mem_cons.1 hk with rfl | hk
      · rw [hkept _ hnodup.1]
        simp [hsize, hlt]
      · exact hset k hk
    · intro w hw
      rw [List.map_cons, List.mem_cons, not_or] at hw
      rw [hkept w hw.2]
      simp [Ne.symm hw.1]

theorem over_numbered {names : Array String} {name : Variable → String} {n : Nat} {p : Polynomial}
    (hp : p.Over n) (hnames : ∀ m ∈ p.monomials, ∀ v ∈ m.vars, name v ∈ names) :
    (p.rename (numbered names name)).Over names.size := by
  intro m hm
  obtain ⟨l, hl, rfl⟩ := List.mem_map.1 hm
  refine ⟨Monomial.isEmpty_rename.trans (hp l hl).1, ?_⟩
  intro w hw
  obtain ⟨v, hv, rfl⟩ := Monomial.mem_vars_rename.1 hw
  exact position_lt (hnames l hl v hv)

theorem domain_of_notMem_narrowed {dom : Domain} {v : Variable} (hget : f.domains[v]? = some dom)
    (h : v ∉ (narrowed f).map Prod.snd) : dom = .standard := by
  by_contra hdom
  refine h (List.mem_map.2 ⟨(dom, v), List.mem_filter.2 ⟨?_, by simpa using hdom⟩, rfl⟩)
  rw [List.mem_zipIdx_iff_getElem?, Array.getElem?_toList]
  exact hget

theorem nodup_numbered_narrowed (h : Printable f) {names : Array String}
    (hnames : ∀ b ∈ narrowed f, f.name b.2 ∈ names) :
    ((narrowed f).map fun b => numbered names f.name b.2).Nodup := by
  have hinj : ∀ v ∈ (narrowed f).map Prod.snd, ∀ w ∈ (narrowed f).map Prod.snd,
      numbered names f.name v = numbered names f.name w → v = w := by
    intro v hv w hw
    obtain ⟨b, hb, rfl⟩ := List.mem_map.1 hv
    obtain ⟨k, hk, rfl⟩ := List.mem_map.1 hw
    exact h.naming.injOn_numbered names ⟨lt_of_mem_narrowed h hb, hnames b hb⟩
      ⟨lt_of_mem_narrowed h hk, hnames k hk⟩
  have hmap := List.Nodup.map_on hinj (nodup_narrowed f)
  rwa [List.map_map] at hmap

/-- The domains of a formula built from a draft: each variable in the table has its
own, whether it was written or not. -/
theorem exists_domains (h : Printable f) {names : Array String}
    (hnames : ∀ b ∈ narrowed f, f.name b.2 ∈ names) {g : Formula}
    (hcount : g.numVariables = names.size)
    (hdomains : g.domains = Array.replicate names.size .standard) :
    ∃ domains : Array Domain,
      ((narrowed f).map fun (dom, v) =>
        (⟨numbered names f.name v, some dom.lb, some dom.ub⟩ : Bound)).foldlM applyBound g =
          .ok { g with domains := domains } ∧
      ∀ v < f.numVariables, f.name v ∈ names →
        domains[numbered names f.name v]? = f.domains[v]? := by
  have hbound : ∀ b ∈ narrowed f,
      b.1.lb ≤ b.1.ub ∧ numbered names f.name b.2 < g.numVariables := by
    intro b hb
    have hdom := h.domains b.1 (Array.mem_of_getElem? (mem_of_mem_narrowed hb))
    rw [hcount]
    exact ⟨hdom.ordered, position_lt (hnames b hb)⟩
  obtain ⟨domains, hfold, hset, hkept⟩ := foldlM_applyBound (g := g) (by simp [hdomains, hcount])
    hbound (nodup_numbered_narrowed h hnames)
  refine ⟨domains, hfold, ?_⟩
  intro v hv hmem
  have hget : ∃ dom, f.domains[v]? = some dom := by
    rw [← h.domainCount] at hv
    exact ⟨f.domains[v], Array.getElem?_eq_getElem hv⟩
  obtain ⟨dom, hget⟩ := hget
  -- A domain that is not written is the standard one, which nothing has changed.
  by_cases hnarrowed : v ∈ (narrowed f).map Prod.snd
  · obtain ⟨b, hb, rfl⟩ := List.mem_map.1 hnarrowed
    rw [hset b hb, mem_of_mem_narrowed hb]
  · have hapart : numbered names f.name v ∉
        (narrowed f).map fun b => numbered names f.name b.2 := by
      intro hnumber
      obtain ⟨b, hb, heq⟩ := List.mem_map.1 hnumber
      obtain rfl : b.2 = v := h.naming.injOn_numbered names
        ⟨lt_of_mem_narrowed h hb, hnames b hb⟩ ⟨hv, hmem⟩ heq
      exact hnarrowed (List.mem_map_of_mem hb)
    rw [hkept _ hapart, hget, domain_of_notMem_narrowed hget hnarrowed, hdomains,
      Array.getElem?_replicate]
    exact if_pos (position_lt hmem)

/-- A formula built from the draft of another: the same with the variables that are in
its table of names, numbered by it. -/
structure Rebuilt (f g : Formula) : Prop where
  numVariables : g.numVariables = g.names.size
  nodup : g.names.toList.Nodup
  known : ∀ x ∈ g.names, ∃ v < f.numVariables, f.name v = x
  objective : g.objective = f.objective.rename (numbered g.names f.name)
  constraints : g.constraints = f.constraints.map (·.rename (numbered g.names f.name))
  domains : ∀ v < f.numVariables, f.name v ∈ g.names →
    g.domains[numbered g.names f.name v]? = f.domains[v]?

/-- A draft of the whole formula can be built. -/
theorem build_drafted (h : Printable f) {d : Draft}
    (hd : Drafted f f.constraints.toList (narrowed f) d) :
    ∃ g, d.build = .ok g ∧ g.names = d.names ∧ Rebuilt f g := by
  have hconstraint : ∀ c ∈ d.constraints.toList, c.1.Over d.names.size ∧ c.1.Merged := by
    intro c hc
    rw [hd.constraints] at hc
    obtain ⟨k, hk, rfl⟩ := List.mem_map.1 hc
    have hlegible := h.constraints k (Array.mem_toList_iff.1 hk)
    exact ⟨over_numbered hlegible.isOver (hd.seen_constraints k hk),
      hlegible.merged_rename h.naming (hd.seen_constraints k hk)⟩
  have hobjective : d.objective.Over d.names.size ∧ d.objective.Merged := by
    rw [hd.objective]
    exact ⟨over_numbered h.objective.isOver hd.seen_objective,
      h.objective.merged_rename h.naming hd.seen_objective⟩
  have hconstraints :
      (d.constraints.toList.map fun c => (⟨c.1, c.2.1, c.2.2⟩ : Constraint)).toArray =
        f.constraints.map (·.rename (numbered d.names f.name)) := by
    rw [hd.constraints, List.map_map, ← Array.toList_inj, Array.toList_map]
    rfl
  let filled : Formula := { Formula.empty d.names.size with
    constraints := f.constraints.map (·.rename (numbered d.names f.name)) }
  have hfill : d.constraints.foldlM (fun (g : Formula) (c : Polynomial × Relation × Int) =>
      g.addConstraint c.1 c.2.1 c.2.2) (Formula.empty d.names.size) = .ok filled := by
    have hfold := Formula.foldlM_addConstraint (g := Formula.empty d.names.size) hconstraint
    rw [hconstraints, Array.foldlM_toList] at hfold
    rw [hfold]
    simp [filled, Formula.empty]
  have hposed : filled.setObjective d.objective = .ok { filled with objective := d.objective } :=
    Formula.setObjective_of_merged hobjective.1 hobjective.2
  obtain ⟨domains, hfold, hdomains⟩ :=
    exists_domains h hd.seen_bounds (g := { filled with objective := d.objective }) rfl rfl
  rw [← hd.bounds, Array.foldlM_toList] at hfold
  let built : Formula :=
    { filled with objective := d.objective, domains := domains, names := d.names }
  have hnamed : Formula.setNames { filled with objective := d.objective, domains := domains }
      d.names = .ok built :=
    if_pos rfl
  refine ⟨built, ?_, rfl, rfl, hd.nodup, hd.known, hd.objective, rfl, hdomains⟩
  rw [Draft.build]
  exact bind_eq_ok.2 ⟨_, hfill, bind_eq_ok.2 ⟨_, hposed, bind_eq_ok.2 ⟨_, hfold, hnamed⟩⟩⟩

end NonlinearInteger.Lp
