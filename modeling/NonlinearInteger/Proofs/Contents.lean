import NonlinearInteger.Proofs.Accepted
import NonlinearInteger.Proofs.CanonicalForms
import NonlinearInteger.Proofs.Drafts
import NonlinearInteger.Proofs.Readings

/-!
# Contents of texts

A text is the row of its lines that say something, each in its section. Every such line adds to
the draft what its section allows, and with it the names that stand in it. So the table of a draft
has the names of all lines in their order, its polynomials are over the table, and its bounds are
what the lines of the bounds declare.
-/

namespace NonlinearInteger.Lp

/-- The lines that say something, trimmed, each with the section it stands in. -/
def contents (part : Section) : List String → List (Section × String)
  | [] => []
  | raw :: lines =>
    if isSilent (Text.trim raw) then contents part lines
    else
      match header? (Text.trim raw) with
      | some next => contents next lines
      | none => (part, Text.trim raw) :: contents part lines

/-- Reads each line in its own section. -/
def readContents (d : Draft) (cs : List (Section × String)) : Except LineError Draft :=
  cs.foldlM (fun d c => readContent { d with part := c.1 } c.2) d

/-- The ends that a line of the bounds sets. -/
structure Declaration where
  name : String
  lb : Option Int
  ub : Option Int
  deriving DecidableEq, Repr

namespace Declaration

/-- What a value on the right of a name declares. -/
def ofRelation (name : String) (value : Int) : Relation → Declaration
  | .le => ⟨name, none, some value⟩
  | .ge => ⟨name, some value, none⟩
  | _ => ⟨name, some value, some value⟩

theorem ofRelation_name (name : String) (value : Int) (r : Relation) :
    (ofRelation name value r).name = name := by
  cases r <;> rfl

/-- The name is replaced by its number. -/
def numbered (b : Declaration) (names : Array String) : Bound :=
  ⟨position names b.name, b.lb, b.ub⟩

end Declaration

/-- A relation between a name and an integer, turned so that the name is on its left. -/
def side? (name op value : String) (turn : Relation → Relation) : Option Declaration := do
  return .ofRelation name (← Text.int64? value) (turn (← relation? op))

def interval? (lo op₁ name op₂ hi : String) : Option Declaration :=
  if relation? op₁ = some .le ∧ relation? op₂ = some .le then do
    return ⟨name, some (← Text.int64? lo), some (← Text.int64? hi)⟩
  else none

/-- What a line declares: `lo <= x <= hi`, or a relation with the name on either side. -/
def declared? (line : String) : Option Declaration :=
  match Text.words line with
  | [lo, op₁, name, op₂, hi] => if isName name then interval? lo op₁ name op₂ hi else none
  | [a, op, b] =>
    if isName a then side? a op b id else if isName b then side? b op a converse else none
  | _ => none

/-- The names in a line, one after another. In the objective and the constraints a label comes
before them. -/
def namesIn : Section × String → List String
  | (.objective, line) => (Text.words (Text.afterColon line)).filter isName
  | (.constraints, line) => (Text.words (Text.afterColon line)).filter isName
  | (_, line) => (Text.words line).filter isName

theorem readInteger_eq_ok {token : String} {x : Int} :
    readInteger token = .ok x ↔ Text.int64? token = some x := by
  unfold readInteger
  cases Text.int64? token <;> simp

theorem isName_eq_false_of_relation? {token : String} {r : Relation}
    (h : relation? token = some r) : isName token = false := by
  by_contra hname
  rw [(plain_of_isName (Bool.not_eq_false _ ▸ hname)).relation] at h
  cases h

theorem isName_eq_false_of_int64? {token : String} {x : Int}
    (h : Text.int64? token = some x) : isName token = false := by
  by_contra hname
  rw [int64?_of_isName (Bool.not_eq_false _ ▸ hname)] at h
  cases h

theorem side?_eq_some {name op value : String} {turn : Relation → Relation} {b : Declaration} :
    side? name op value turn = some b ↔
      ∃ x r, Text.int64? value = some x ∧ relation? op = some r ∧
        .ofRelation name x (turn r) = b := by
  unfold side?
  cases Text.int64? value <;> cases relation? op <;> simp

theorem interval?_eq_some {lo op₁ name op₂ hi : String} {b : Declaration} :
    interval? lo op₁ name op₂ hi = some b ↔
      (relation? op₁ = some .le ∧ relation? op₂ = some .le) ∧
        ∃ lb ub, Text.int64? lo = some lb ∧ Text.int64? hi = some ub ∧
          ⟨name, some lb, some ub⟩ = b := by
  unfold interval?
  split
  · cases Text.int64? lo <;> cases Text.int64? hi <;> simp [*]
  · simp [*]

theorem filter_isName_of_declared? {line : String} {b : Declaration}
    (h : declared? line = some b) : (Text.words line).filter isName = [b.name] := by
  unfold declared? at h
  split at h
  · rename_i lo op₁ name op₂ hi hwords
    split at h
    · rename_i hname
      obtain ⟨⟨hop₁, hop₂⟩, lb, ub, hlo, hhi, rfl⟩ := interval?_eq_some.1 h
      simp [hwords, hname, isName_eq_false_of_relation? hop₁, isName_eq_false_of_relation? hop₂,
        isName_eq_false_of_int64? hlo, isName_eq_false_of_int64? hhi]
    · cases h
  · rename_i a op c hwords
    split at h
    · rename_i hname
      obtain ⟨x, r, hvalue, hop, rfl⟩ := side?_eq_some.1 h
      simp [hwords, hname, isName_eq_false_of_relation? hop, isName_eq_false_of_int64? hvalue,
        Declaration.ofRelation_name]
    · split at h
      · rename_i hname
        obtain ⟨x, r, hvalue, hop, rfl⟩ := side?_eq_some.1 h
        simp [hwords, hname, isName_eq_false_of_relation? hop, isName_eq_false_of_int64? hvalue,
          Declaration.ofRelation_name]
      · cases h
  · cases h

/-- A draft with one more bound. -/
def Draft.declare (d : Draft) (b : Declaration) : Draft :=
  { d with
    names := internAll d.names [b.name]
    bounds := d.bounds.push (b.numbered (internAll d.names [b.name])) }

/-- What a line does to a draft, by the open section. -/
inductive Fills (d : Draft) (line : String) : Draft → Prop
  | objective {x : Expression} {p : Polynomial} (hpart : d.part = .objective)
      (hread : readExpression d.names (Text.words (Text.afterColon line)) = .ok x)
      (hrelation : x.relation = none)
      (hmerge : merge (d.objective.monomials ++ x.poly.monomials) = .ok p) :
      Fills d line { d with names := x.names, objective := p }
  | constraint {x : Expression} {relation : Relation} {token : String} {limit : Int}
      (hpart : d.part = .constraints)
      (hread : readExpression d.names (Text.words (Text.afterColon line)) = .ok x)
      (hrelation : x.relation = some relation) (hrest : x.rest = [token])
      (hlimit : Text.int64? token = some limit) :
      Fills d line { d with
        names := x.names, constraints := d.constraints.push (x.poly, relation, limit) }
  | bound {b : Declaration} (hpart : d.part = .bounds) (hdeclared : declared? line = some b) :
      Fills d line (d.declare b)
  | generals (hpart : d.part = .generals) (hnames : ∀ x ∈ Text.words line, isName x = true) :
      Fills d line { d with names := internAll d.names (Text.words line) }

section Inversion

variable {d e : Draft} {line : String}

theorem readObjective_eq_ok (hpart : d.part = .objective) :
    readObjective d line = .ok e ↔ Fills d line e := by
  constructor
  · intro h
    obtain ⟨x, hread, h⟩ := bind_eq_ok.1 h
    dsimp only at h
    split at h
    · cases h
    · rename_i hrelation
      obtain ⟨p, hmerge, h⟩ := bind_eq_ok.1 h
      cases pure_eq_ok.1 h
      exact .objective hpart hread (by simpa using hrelation) hmerge
  · intro h
    cases h with
    | objective _ hread hrelation hmerge =>
      refine bind_eq_ok.2 ⟨_, hread, ?_⟩
      simp only [hrelation, Option.isSome_none, Bool.false_eq_true, if_false]
      exact bind_eq_ok.2 ⟨_, hmerge, rfl⟩
    | constraint h | bound h | generals h => simp [hpart] at h

theorem readConstraint_eq_ok (hpart : d.part = .constraints) :
    readConstraint d line = .ok e ↔ Fills d line e := by
  constructor
  · intro h
    obtain ⟨x, hread, h⟩ := bind_eq_ok.1 h
    split at h
    · cases h
    · cases h
    · rename_i relation token rest hrelation hrest
      obtain ⟨limit, hlimit, h⟩ := bind_eq_ok.1 h
      split at h
      · cases h
      · cases pure_eq_ok.1 h
        exact .constraint hpart hread hrelation hrest (readInteger_eq_ok.1 hlimit)
  · intro h
    cases h with
    | constraint _ hread hrelation hrest hlimit =>
      refine bind_eq_ok.2 ⟨_, hread, ?_⟩
      simp only [hrelation, hrest]
      exact bind_eq_ok.2 ⟨_, readInteger_eq_ok.2 hlimit, rfl⟩
    | objective h | bound h | generals h => simp [hpart] at h

theorem intern_eq (names : Array String) (name : String) :
    intern names name = (internAll names [name], position (internAll names [name]) name) := by
  obtain ⟨names', hintern, -⟩ := exists_intern names name
  have hnames : internAll names [name] = names' := congrArg Prod.fst hintern
  rw [hnames, hintern]

theorem readSide_eq_ok {name op value : String} {turn : Relation → Relation} :
    readSide d name op value turn = .ok e ↔
      ∃ b, side? name op value turn = some b ∧ d.declare b = e := by
  have hbound : ∀ (names : Array String) (x : Int) (r : Relation),
      boundOf (position names name) x r =
        (Declaration.ofRelation name x r).numbered names := by
    intro names x r
    cases r <;> rfl
  simp only [readSide, intern_eq, bind_eq_ok, readInteger_eq_ok, side?_eq_some]
  constructor
  · rintro ⟨x, hvalue, h⟩
    split at h
    · rename_i r hop
      cases pure_eq_ok.1 h
      refine ⟨_, ⟨x, r, hvalue, hop, rfl⟩, ?_⟩
      rw [hbound, Draft.declare, Declaration.ofRelation_name]
    · cases h
  · rintro ⟨_, ⟨x, r, hvalue, hop, rfl⟩, rfl⟩
    refine ⟨x, hvalue, ?_⟩
    rw [hop, Draft.declare, Declaration.ofRelation_name, ← hbound]
    rfl

theorem readInterval_eq_ok {lo op₁ name op₂ hi : String} :
    readInterval d lo op₁ name op₂ hi = .ok e ↔
      ∃ b, interval? lo op₁ name op₂ hi = some b ∧ d.declare b = e := by
  simp only [readInterval, intern_eq, interval?_eq_some]
  constructor
  · intro h
    split at h
    · cases h
    · rename_i hops
      obtain ⟨lb, hlo, h⟩ := bind_eq_ok.1 h
      obtain ⟨ub, hhi, h⟩ := bind_eq_ok.1 h
      cases pure_eq_ok.1 h
      refine ⟨_, ⟨by simpa [not_or] using hops, lb, ub, ?_, ?_, rfl⟩, rfl⟩
      · exact readInteger_eq_ok.1 hlo
      · exact readInteger_eq_ok.1 hhi
  · rintro ⟨_, ⟨⟨hop₁, hop₂⟩, lb, ub, hlo, hhi, rfl⟩, rfl⟩
    simp only [hop₁, hop₂, ne_eq, not_true_eq_false, or_self, if_false]
    exact bind_eq_ok.2 ⟨lb, readInteger_eq_ok.2 hlo,
      bind_eq_ok.2 ⟨ub, readInteger_eq_ok.2 hhi, rfl⟩⟩

theorem readBound_eq_ok (hpart : d.part = .bounds) :
    readBound d line = .ok e ↔ Fills d line e := by
  have hfills : Fills d line e ↔ ∃ b, declared? line = some b ∧ d.declare b = e := by
    constructor
    · intro h
      cases h with
      | bound _ hdeclared => exact ⟨_, hdeclared, rfl⟩
      | objective h | constraint h | generals h => simp [hpart] at h
    · rintro ⟨b, hdeclared, rfl⟩
      exact .bound hpart hdeclared
  rw [hfills]
  unfold readBound declared?
  generalize Text.words line = tokens
  split
  · rename_i lo op₁ name op₂ hi
    by_cases hname : isName name = true
    · simpa only [if_pos hname] using readInterval_eq_ok
    · simp [hname]
  · rename_i a op b
    by_cases ha : isName a = true
    · simpa only [if_pos ha] using readSide_eq_ok
    · by_cases hb : isName b = true
      · simpa only [if_neg ha, if_pos hb] using readSide_eq_ok
      · simp [ha, hb]
  · simp

theorem foldlM_intern_eq_ok {names names' : Array String} {tokens : List String} :
    tokens.foldlM (fun names token =>
        if isName token then .ok (intern names token).1 else .error (.invalidName token)) names =
      (.ok names' : Except LineError (Array String)) ↔
      (∀ x ∈ tokens, isName x = true) ∧ internAll names tokens = names' := by
  induction tokens generalizing names with
  | nil => simp [internAll, pure_eq_ok]
  | cons token tokens ih =>
    rw [List.foldlM_cons, bind_eq_ok]
    cases hname : isName token with
    | false => simp [hname]
    | true => simp [hname, ih, internAll]

theorem readGenerals_eq_ok (hpart : d.part = .generals) :
    readGenerals d line = .ok e ↔ Fills d line e := by
  unfold readGenerals
  simp only [bind_eq_ok, foldlM_intern_eq_ok, pure_eq_ok]
  constructor
  · rintro ⟨_, ⟨hnames, rfl⟩, rfl⟩
    exact .generals hpart hnames
  · intro h
    cases h with
    | generals _ hnames => exact ⟨_, ⟨hnames, rfl⟩, rfl⟩
    | objective h | constraint h | bound h => simp [hpart] at h

theorem readContent_eq_ok : readContent d line = .ok e ↔ Fills d line e := by
  have hnone : ∀ part, d.part = part → part = .preamble ∨ part = .finished →
      ¬Fills d line e := by
    intro part hpart hcases h
    cases h with
    | objective h | constraint h | bound h | generals h =>
      rcases hcases with rfl | rfl <;> simp [hpart] at h
  unfold readContent
  split
  · rename_i hpart
    simpa using hnone _ hpart (.inl rfl)
  · exact readObjective_eq_ok ‹_›
  · exact readConstraint_eq_ok ‹_›
  · exact readBound_eq_ok ‹_›
  · exact readGenerals_eq_ok ‹_›
  · rename_i hpart
    simpa using hnone _ hpart (.inr rfl)

end Inversion

section Variables

variable {names names' : Array String} {e e' : Reading} {group tokens : List String}

theorem lt_of_intern {name : String} {v : Variable} (h : intern names name = (names', v)) :
    v < names'.size ∧ names.size ≤ names'.size := by
  obtain ⟨names'', hintern, hgrows⟩ := exists_intern names name
  obtain ⟨rfl, rfl⟩ := Prod.mk.inj (h.symm.trans hintern)
  exact ⟨position_lt (hgrows.mem_of_seen List.mem_cons_self), hgrows.start.length_le⟩

/-- All variables of the terms have numbers below a bound. -/
def Reading.Within (e : Reading) (n : Nat) : Prop := ∀ m ∈ e.close, ∀ v ∈ m.vars, v < n

theorem Step.within (h : Step names e group names' e') (he : e.Within names.size) :
    e'.Within names'.size := by
  cases h with
  | skip => exact he
  | minus => exact he
  | star _ hintern htimes =>
    obtain ⟨grown, hgrown, rfl⟩ := Reading.times_eq_ok.1 htimes
    obtain ⟨hv, hle⟩ := lt_of_intern hintern
    rw [Reading.Within, Reading.close, hgrown] at he
    intro m hm w hw
    rcases List.mem_append.1 hm with hm | hm
    · exact Nat.lt_of_lt_of_le (he m (List.mem_append_left _ hm) w hw) hle
    · obtain rfl := List.mem_singleton.1 hm
      rcases Monomial.mem_vars_product.1 hw with hw | hw
      · exact Nat.lt_of_lt_of_le (he grown (List.mem_append_right _ List.mem_cons_self) w hw) hle
      · rwa [List.mem_singleton.1 hw]
  | numeral _ hcoefficient =>
    obtain ⟨-, -, rfl⟩ := Reading.withCoefficient_eq_ok.1 hcoefficient
    simpa [Reading.Within, Reading.close] using he
  | name _ hintern =>
    obtain ⟨hv, hle⟩ := lt_of_intern hintern
    intro m hm w hw
    rcases List.mem_append.1 hm with hm | hm
    · exact Nat.lt_of_lt_of_le (he m hm w hw) hle
    · obtain rfl := List.mem_singleton.1 hm
      rwa [List.mem_singleton.1 hw]

theorem Reads.within (h : Reads names e tokens names' e') (he : e.Within names.size) :
    e'.Within names'.size :=
  h.keeps (motive := fun names e => e.Within names.size) Step.within he

end Variables

theorem over_of_merge {ms : List Monomial} {p : Polynomial} {n : Nat} (h : merge ms = .ok p)
    (hms : ∀ m ∈ ms, ∀ v ∈ m.vars, v < n) : p.Over n := by
  rw [merge_eq] at h
  split at h
  · cases h
    exact Polynomial.over_ofMonomials hms
  · cases h

/-- What an expression puts in the table, and what of the table it is over. -/
theorem exists_names_of_readExpression {names : Array String} {tokens : List String}
    {x : Expression} (h : readExpression names tokens = .ok x) :
    ∃ body tail, tokens = body ++ tail ∧ Ends tail x.relation x.rest ∧
      x.names = internAll names (body.filter isName) ∧ x.poly.Over x.names.size := by
  obtain ⟨body, tail, last, hconsumed⟩ := exists_consumed h
  have hempty : Reading.empty.Within names.size := by
    intro m hm
    cases hm
  exact ⟨body, tail, hconsumed.tokens_eq, hconsumed.ends, hconsumed.reads.names_eq,
    over_of_merge hconsumed.merged (hconsumed.reads.within hempty)⟩

theorem Ends.eq_nil {tail rest : List String} (h : Ends tail none rest) : tail = [] := by
  generalize hrelation : (none : Option Relation) = relation at h
  cases h with
  | line => rfl
  | relation => cases hrelation

theorem Ends.exists_cons {tail rest : List String} {r : Relation} (h : Ends tail (some r) rest) :
    ∃ op, relation? op = some r ∧ tail = op :: rest := by
  generalize hrelation : some r = relation at h
  cases h with
  | line => cases hrelation
  | relation hop =>
    obtain rfl := Option.some.inj hrelation
    exact ⟨_, hop, rfl⟩

section Filling

variable {d e : Draft} {line : String}

theorem Fills.part_eq (h : Fills d line e) : e.part = d.part := by
  cases h <;> rfl

theorem Fills.names_eq (h : Fills d line e) :
    e.names = internAll d.names (namesIn (d.part, line)) := by
  cases h with
  | objective hpart hread hrelation hmerge =>
    obtain ⟨body, tail, htokens, hends, hnames, -⟩ := exists_names_of_readExpression hread
    rw [hrelation] at hends
    rw [hends.eq_nil, List.append_nil] at htokens
    simpa only [hpart, namesIn, htokens] using hnames
  | constraint hpart hread hrelation hrest hlimit =>
    obtain ⟨body, tail, htokens, hends, hnames, -⟩ := exists_names_of_readExpression hread
    rw [hrelation, hrest] at hends
    obtain ⟨op, hop, rfl⟩ := hends.exists_cons
    -- Neither the relation nor the limit behind it is a name.
    have hfilter : (Text.words (Text.afterColon line)).filter isName = body.filter isName := by
      simp [htokens, isName_eq_false_of_relation? hop, isName_eq_false_of_int64? hlimit]
    simpa only [hpart, namesIn, hfilter] using hnames
  | bound hpart hdeclared =>
    simp only [hpart, namesIn, filter_isName_of_declared? hdeclared, Draft.declare]
  | generals hpart hnames => simp only [hpart, namesIn, List.filter_eq_self.2 hnames]

theorem Fills.grows (h : Fills d line e) : Grows d.names (namesIn (d.part, line)) e.names :=
  h.names_eq ▸ grows_internAll d.names _

/-- What a line declares, if it is one of the bounds. -/
def declaration? : Section × String → Option Declaration
  | (.bounds, line) => declared? line
  | _ => none

theorem mem_namesIn_of_declaration? {c : Section × String} {b : Declaration}
    (h : declaration? c = some b) : b.name ∈ namesIn c := by
  obtain ⟨part, line⟩ := c
  cases part <;> simp only [declaration?, reduceCtorEq] at h
  simp [namesIn, filter_isName_of_declared? h]

/-- What some lines have made of a draft. -/
structure Filled (cs : List (Section × String)) (d : Draft) : Prop where
  names_eq : d.names = internAll #[] (cs.flatMap namesIn)
  objective : d.objective.Over d.names.size
  constraints : ∀ c ∈ d.constraints, c.1.Over d.names.size
  bounds_eq : d.bounds.toList = (cs.filterMap declaration?).map (·.numbered d.names)

theorem filled_nil : Filled [] .empty where
  names_eq := rfl
  objective := Polynomial.over_empty _
  constraints := by simp [Draft.empty]
  bounds_eq := rfl

variable {cs : List (Section × String)} {c : Section × String}

theorem Filled.mem_names (h : Filled cs d) {b : Declaration} (hb : b ∈ cs.filterMap declaration?) :
    b.name ∈ d.names := by
  obtain ⟨c, hc, hdeclared⟩ := List.mem_filterMap.1 hb
  rw [h.names_eq]
  exact (grows_internAll #[] _).mem_of_seen
    (List.mem_flatMap.2 ⟨c, hc, mem_namesIn_of_declaration? hdeclared⟩)

theorem intern_fst (names : Array String) (x : String) :
    (intern names x).1 = if x ∈ names then names else names.push x := by
  by_cases hmem : x ∈ names
  · rw [if_pos hmem, intern_of_mem hmem]
  · rw [if_neg hmem, intern_of_notMem hmem]

theorem toList_internAll (xs : List String) : (internAll #[] xs).toList = xs.eraseDups := by
  induction xs using List.reverseRecOn with
  | nil => rfl
  | append_singleton xs x ih =>
    have hmem : x ∈ internAll #[] xs ↔ x ∈ xs := by simp [(grows_internAll #[] xs).mem_iff]
    have hlast : internAll #[] (xs ++ [x]) = (intern (internAll #[] xs) x).1 :=
      internAll_append #[] xs [x]
    rw [hlast, intern_fst, Polynomial.eraseDups_concat]
    by_cases hx : x ∈ xs
    · rw [if_pos (hmem.2 hx), if_pos (List.contains_iff_mem.2 hx), ih]
    · rw [if_neg (mt hmem.1 hx), if_neg (mt List.contains_iff_mem.1 hx), Array.toList_push, ih]

theorem Filled.numbered_eq (h : Filled cs d) {seen : List String} {names : Array String}
    (hgrows : Grows d.names seen names) :
    d.bounds.toList = (cs.filterMap declaration?).map (·.numbered names) := by
  refine h.bounds_eq.trans (List.map_congr_left fun b hb => ?_)
  rw [Declaration.numbered, Declaration.numbered, hgrows.position_eq (h.mem_names hb)]

/-- Each line adds what is its own and keeps what the others have made. -/
theorem Filled.concat (h : Filled cs d) (hfills : Fills { d with part := c.1 } c.2 e) :
    Filled (cs ++ [c]) e := by
  obtain ⟨part, line⟩ := c
  have hgrows : Grows d.names (namesIn (part, line)) e.names := hfills.grows
  have hle : d.names.size ≤ e.names.size := hgrows.start.length_le
  have hnames : e.names = internAll #[] ((cs ++ [(part, line)]).flatMap namesIn) := by
    rw [hfills.names_eq, List.flatMap_append, internAll_append, ← h.names_eq,
      List.flatMap_singleton]
  have hobjective := h.objective.mono hle
  have hconstraints : ∀ c ∈ d.constraints, c.1.Over e.names.size :=
    fun c hc => (h.constraints c hc).mono hle
  have hbounds := h.numbered_eq hgrows
  have hdeclarations : (cs ++ [(part, line)]).filterMap declaration? =
      cs.filterMap declaration? ++ (declaration? (part, line)).toList := by
    rw [List.filterMap_append, List.filterMap_cons]
    cases declaration? (part, line) <;> rfl
  have hsame : declaration? (part, line) = none → d.bounds.toList =
      ((cs ++ [(part, line)]).filterMap declaration?).map (·.numbered e.names) := by
    intro hnone
    rw [hdeclarations, hnone, hbounds, Option.toList_none, List.append_nil]
  cases hfills with
  | @objective x p hpart hread _ hmerge =>
    obtain rfl : part = .objective := hpart
    obtain ⟨_, _, _, _, _, hover⟩ := exists_names_of_readExpression hread
    have hsum : ∀ m ∈ d.objective.monomials ++ x.poly.monomials, ∀ v ∈ m.vars, v < x.names.size :=
      List.forall_mem_append.2 ⟨fun m hm => (hobjective m hm).2, fun m hm => (hover m hm).2⟩
    exact ⟨hnames, over_of_merge hmerge hsum, hconstraints, hsame rfl⟩
  | @constraint x relation token limit hpart hread =>
    obtain rfl : part = .constraints := hpart
    obtain ⟨_, _, _, _, _, hover⟩ := exists_names_of_readExpression hread
    refine ⟨hnames, hobjective, ?_, hsame rfl⟩
    intro c hc
    rcases Array.mem_push.1 hc with hc | rfl
    · exact hconstraints c hc
    · exact hover
  | @bound b hpart hdeclared =>
    obtain rfl : part = .bounds := hpart
    refine ⟨hnames, hobjective, hconstraints, ?_⟩
    have hdeclaration : declaration? (.bounds, line) = some b := hdeclared
    rw [hdeclarations, hdeclaration, List.map_append, ← hbounds]
    exact Array.toList_push
  | generals hpart =>
    obtain rfl : part = .generals := hpart
    exact ⟨hnames, hobjective, hconstraints, hsame rfl⟩

/-- By induction on the lines from the front. -/
theorem filled_of_readContents (h : readContents .empty cs = .ok d) : Filled cs d := by
  induction cs using List.reverseRecOn generalizing d with
  | nil =>
    cases h
    exact filled_nil
  | append_singleton cs c ih =>
    rw [readContents, List.foldlM_append] at h
    obtain ⟨e, hcs, hc⟩ := bind_eq_ok.1 h
    rw [List.foldlM_cons] at hc
    obtain ⟨f, hc, hf⟩ := bind_eq_ok.1 hc
    cases pure_eq_ok.1 hf
    exact (ih hcs).concat (readContent_eq_ok.1 hc)

end Filling

section Texts

variable {d e : Draft} {cs : List (Section × String)} {text : String}

theorem readContents_cons (d : Draft) (c : Section × String) (cs : List (Section × String)) :
    readContents d (c :: cs) = readContent { d with part := c.1 } c.2 >>= (readContents · cs) :=
  List.foldlM_cons

theorem readContents_append (d : Draft) (cs ks : List (Section × String)) :
    readContents d (cs ++ ks) = readContents d cs >>= (readContents · ks) :=
  List.foldlM_append

theorem readContents_withPart (d : Draft) (part final : Section) (cs : List (Section × String)) :
    (fun e : Draft => { e with part := final }) <$> readContents { d with part := part } cs =
      (fun e : Draft => { e with part := final }) <$> readContents d cs := by
  cases cs <;> rfl

/-- Lines fill a draft as their contents do, and leave some section open. -/
theorem exists_readAll_eq (d : Draft) (lines : List String) :
    ∃ final, readAll d lines =
      (fun e : Draft => { e with part := final }) <$> readContents d (contents d.part lines) := by
  induction lines generalizing d with
  | nil => exact ⟨d.part, rfl⟩
  | cons raw lines ih =>
    have hcons : readAll d (raw :: lines) = readLine d (Text.trim raw) >>= (readAll · lines) :=
      List.foldlM_cons
    rw [hcons, readLine, contents]
    cases isSilent (Text.trim raw) with
    | true => exact ih d
    | false =>
      cases header? (Text.trim raw) with
      | some next =>
        obtain ⟨final, hfinal⟩ := ih { d with part := next }
        exact ⟨final, hfinal.trans (readContents_withPart d next final _)⟩
      | none =>
        change ∃ final, readContent d (Text.trim raw) >>= (readAll · lines) = _ <$>
          (readContent d (Text.trim raw) >>= (readContents · (contents d.part lines)))
        cases hread : readContent d (Text.trim raw) with
        | error cause => exact ⟨.finished, rfl⟩
        | ok e =>
          rw [← (readContent_eq_ok.1 hread).part_eq]
          exact ih e

/-- The contents of a text. -/
def contentsOf (text : String) : List (Section × String) :=
  contents .preamble (Text.splitAt '\n' text)

/-- All names in a text, line by line. -/
def variableTokens (text : String) : List String := (contentsOf text).flatMap namesIn

/-- What a text declares, line by line. -/
def declarations (text : String) : List Declaration := (contentsOf text).filterMap declaration?

theorem exists_of_readLines (h : readLines .empty 1 (Text.splitAt '\n' text) = .ok d) :
    ∃ e, readContents .empty (contentsOf text) = .ok e ∧ ∃ part, { e with part := part } = d := by
  obtain ⟨final, hfinal⟩ := exists_readAll_eq .empty (Text.splitAt '\n' text)
  rw [readLines_eq_ok, hfinal] at h
  obtain ⟨e, he, heq⟩ := map_eq_ok.1 h
  exact ⟨e, he, final, heq⟩

theorem exists_readLines (h : readContents .empty (contentsOf text) = .ok e) :
    ∃ part, readLines .empty 1 (Text.splitAt '\n' text) = .ok { e with part := part } := by
  obtain ⟨final, hfinal⟩ := exists_readAll_eq .empty (Text.splitAt '\n' text)
  refine ⟨final, readLines_eq_ok.2 (hfinal.trans ?_)⟩
  exact map_eq_ok.2 ⟨e, h, rfl⟩

theorem exists_line_of_readLines {number : Nat} {lines : List String} {cause : ReadError}
    (h : readLines d number lines = .error cause) : ∃ n line why, cause = .line n line why := by
  induction lines generalizing d number with
  | nil => cases h
  | cons raw lines ih =>
    unfold readLines at h
    dsimp only at h
    split at h
    · exact ih h
    · cases h
      exact ⟨_, _, _, rfl⟩

theorem exists_readLines_of_read (text : String)
    (h : ∀ n line why, read text ≠ .error (.line n line why)) :
    ∃ d, readLines .empty 1 (Text.splitAt '\n' text) = .ok d := by
  cases hlines : readLines .empty 1 (Text.splitAt '\n' text) with
  | ok d => exact ⟨d, rfl⟩
  | error cause =>
    obtain ⟨n, line, why, rfl⟩ := exists_line_of_readLines hlines
    refine absurd ?_ (h n line why)
    rw [read, hlines]

theorem exists_readContents_of_read (text : String)
    (h : ∀ n line why, read text ≠ .error (.line n line why)) :
    ∃ d, readContents .empty (contentsOf text) = .ok d := by
  obtain ⟨d, hlines⟩ := exists_readLines_of_read text h
  obtain ⟨e, he, -⟩ := exists_of_readLines hlines
  exact ⟨e, he⟩

theorem read_eq_of_readContents (h : readContents .empty (contentsOf text) = .ok e) :
    read text = e.build.mapError .build := by
  obtain ⟨part, hlines⟩ := exists_readLines h
  have hbuild : Draft.build { e with part := part } = e.build := rfl
  rw [read, hlines]
  simp only [hbuild]
  cases e.build <;> rfl

theorem sound_of_readContents (h : readContents .empty cs = .ok d) : d.Sound :=
  foldlM_keeps (motive := Draft.Sound) h Draft.sound_empty fun _ c _ _ hd hread =>
    (hd.withPart c.1).readContent hread

end Texts

/-- The formula of a draft before its bounds and its names. -/
def Draft.posed (d : Draft) : Formula where
  numVariables := d.names.size
  constraints := d.constraints.map fun c => ⟨c.1, c.2.1, c.2.2⟩
  objective := d.objective
  domains := Array.replicate d.names.size .standard
  names := #[]

section Building

variable {cs : List (Section × String)} {d : Draft}

theorem Filled.exists_posed (h : Filled cs d) (hd : d.Sound) :
    ∃ filled, d.constraints.foldlM (fun f (p, relation, limit) => f.addConstraint p relation limit)
        (Formula.empty d.names.size) = .ok filled ∧
      filled.setObjective d.objective = .ok d.posed := by
  have hconstraints : ∀ c ∈ d.constraints.toList, c.1.Over d.names.size ∧ c.1.Merged := by
    intro c hc
    have hc := Array.mem_toList_iff.1 hc
    exact ⟨h.constraints c hc, (hd.polys c hc).merged⟩
  have hfold := Formula.foldlM_addConstraint (g := Formula.empty d.names.size) hconstraints
  rw [Array.foldlM_toList] at hfold
  have hpushed : (d.constraints.toList.map fun c => (⟨c.1, c.2.1, c.2.2⟩ : Constraint)).toArray =
      d.posed.constraints := by
    rw [← Array.toList_inj, List.toList_toArray]
    exact Array.toList_map.symm
  refine ⟨_, hfold, (Formula.setObjective_of_merged h.objective hd.objective.merged).trans ?_⟩
  rw [hpushed]
  simp [Draft.posed, Formula.empty]

/-- Only the bounds and the number of names can be refused. -/
theorem Filled.build_eq (h : Filled cs d) (hd : d.Sound) :
    d.build = d.bounds.toList.foldlM applyBound d.posed >>= (·.setNames d.names) := by
  obtain ⟨filled, hfilled, hposed⟩ := h.exists_posed hd
  rw [Draft.build, hfilled, Array.foldlM_toList]
  change (filled.setObjective d.objective >>= _) = _
  rw [hposed]
  rfl

end Building

end NonlinearInteger.Lp
