import NonlinearInteger.Lp.Writer
import NonlinearInteger.Proofs.Grammar
import NonlinearInteger.Proofs.Renaming
import NonlinearInteger.Proofs.Texts
import Mathlib.Data.List.Nodup

/-!
# Expressions written and read

The terms of a polynomial are written as tokens of the grammar. Read again, each term is the one
that was written with its variables numbered by the table of names, and the table grows by the
names of the term. So an expression is read as the renamed polynomial.
-/

namespace NonlinearInteger.Lp

/-- The variables below `n` have different names, each fit for a text. -/
structure Naming (n : Nat) (name : Variable → String) : Prop where
  isName : ∀ v < n, isName (name v) = true
  not_blank : ∀ v < n, ∀ c ∈ (name v).toList, Text.isBlank c = false
  injective : ∀ v < n, ∀ w < n, name v = name w → v = w

theorem Naming.isName_of_mem {n : Nat} {name : Variable → String} (h : Naming n name)
    {vs : List Variable} (hvs : ∀ v ∈ vs, v < n) {x : String} (hx : x ∈ vs.map name) :
    Lp.isName x = true := by
  obtain ⟨v, hv, rfl⟩ := List.mem_map.1 hx
  exact h.isName v (hvs v hv)

theorem Naming.nodup {n : Nat} {name : Variable → String} (h : Naming n name) :
    ((List.range n).map name).Nodup :=
  List.Nodup.map_on (fun v hv w hw => h.injective v (List.mem_range.1 hv) w (List.mem_range.1 hw))
    List.nodup_range

/-- The number that a table gives to a variable by its name. -/
def numbered (names : Array String) (name : Variable → String) (v : Variable) : Variable :=
  position names (name v)

theorem Naming.injOn_numbered {n : Nat} {name : Variable → String} (h : Naming n name)
    (names : Array String) :
    Set.InjOn (numbered names name) {v | v < n ∧ name v ∈ names} := by
  rintro v ⟨hv, hmem⟩ w ⟨hw, -⟩ heq
  exact h.injective v hv w hw ((List.idxOf_inj (Array.mem_toList_iff.2 hmem)).1 heq)

def termTokens (name : Variable → String) (m : Monomial) : List String :=
  let sign := if m.coef < 0 then "-" else "+"
  let product := toString m.coef.natAbs :: productTokens (m.vars.map name)
  if m.isLinear then sign :: product else sign :: "[" :: (product ++ ["]"])

def termsTokens (name : Variable → String) (p : Polynomial) : List String :=
  if p.isEmpty then ["0"] else p.monomials.flatMap (termTokens name)

open Text in
theorem intercalate_star (x : String) (xs : List String) :
    " * ".intercalate (x :: xs) = x ++ spaced (xs.flatMap fun y => ["*", y]) := by
  rw [← String.toList_inj, String.toList_intercalate]
  induction xs generalizing x with
  | nil => simp [spaced, List.intercalate]
  | cons y ys ih =>
    have htail := ih y
    rw [List.map_cons] at htail
    rw [List.map_cons, List.map_cons, List.intercalate_cons_cons, htail, List.flatMap_cons,
      spaced_append]
    simp [toList_spaced_cons]

open Text in
theorem termText_eq {name : Variable → String} {m : Monomial} (hm : m.isEmpty = false) :
    termText name m = spaced (termTokens name m) := by
  obtain ⟨v, vs, hvars⟩ : ∃ v vs, m.vars = v :: vs := by
    cases hvars : m.vars with
    | nil => simp [Monomial.isEmpty, hvars] at hm
    | cons v vs => exact ⟨v, vs, rfl⟩
  have hspaced : spaced (toString m.coef.natAbs :: productTokens (m.vars.map name)) =
      " " ++ (toString m.coef.natAbs ++ " " ++ " * ".intercalate (m.vars.map name)) := by
    rw [hvars, List.map_cons, intercalate_star, spaced_cons, productTokens, spaced_cons,
      String.append_assoc]
  have hsign : (if m.coef < 0 then " - " else " + ") =
      " " ++ (if m.coef < 0 then "-" else "+") ++ " " := by
    split <;> rfl
  unfold termText termTokens
  dsimp only
  rw [hsign]
  split
  · rw [spaced_cons, hspaced]
    simp only [String.append_assoc]
  · rw [spaced_cons, spaced_cons, spaced_append, hspaced]
    have hclose : spaced ["]"] = " ]" := rfl
    have hopen : "[ " = "[" ++ " " := rfl
    rw [hclose, hopen]
    simp only [String.append_assoc]

open Text in
theorem termsText_eq {name : Variable → String} {p : Polynomial}
    (hp : ∀ m ∈ p.monomials, m.isEmpty = false) :
    termsText name p = spaced (termsTokens name p) := by
  unfold termsText termsTokens
  split
  · rfl
  · generalize p.monomials = ms at hp
    induction ms with
    | nil => rfl
    | cons m ms ih =>
      rw [List.map_cons, String.join_cons, List.flatMap_cons, spaced_append,
        termText_eq (hp m List.mem_cons_self), ih fun k hk => hp k (List.mem_cons_of_mem m hk)]

section Written

variable {n : Nat} {name : Variable → String}

/-- A coefficient that can be written: the least machine integer has no opposite. -/
structure Writable (coef : Int) : Prop where
  fits : FitsInt64 coef
  ne_least : coef ≠ -9223372036854775808

instance : DecidablePred Writable := fun coef =>
  decidable_of_iff (FitsInt64 coef ∧ coef ≠ -9223372036854775808)
    ⟨fun h => ⟨h.1, h.2⟩, fun h => ⟨h.fits, h.ne_least⟩⟩

theorem Writable.fits_natAbs {coef : Int} (h : Writable coef) : FitsInt64 (coef.natAbs : Int) := by
  have hfits := h.fits
  have hne := h.ne_least
  unfold FitsInt64 at *
  omega

def signOf (coef : Int) : Sign := if coef < 0 then .minus else .plus

theorem token_signOf (coef : Int) : (signOf coef).token = if coef < 0 then "-" else "+" := by
  unfold signOf
  split <;> rfl

theorem pow_signOf_mul_natAbs (coef : Int) :
    (-1) ^ [signOf coef].count .minus * (coef.natAbs : Int) = coef := by
  unfold signOf
  split
  · rw [List.count_singleton_self]
    omega
  · rw [List.count_singleton, if_neg (by decide)]
    omega

section WrittenTerm

variable {xs : List String} (hne : xs ≠ []) (hxs : ∀ x ∈ xs, isName x = true) {coef : Int}
  (hcoef : Writable coef)

/-- A product of names behind a sign and a numeral. -/
def writtenTerm : Term where
  signs := [signOf coef]
  numeral := some
    ⟨toString coef.natAbs, coef.natAbs, Text.int64?_toString_nat hcoef.fits_natAbs⟩
  first := ⟨xs.head hne, hxs _ (List.head_mem hne)⟩
  others := xs.tail.pmap Subtype.mk fun x hx => hxs x (List.mem_of_mem_tail hx)

theorem factors_writtenTerm : (writtenTerm hne hxs hcoef).factors = xs := by
  have hothers : (writtenTerm hne hxs hcoef).others.map Subtype.val = xs.tail := by
    simp [writtenTerm, List.map_pmap]
  rw [Term.factors, hothers]
  exact List.cons_head_tail hne

theorem coefficient_writtenTerm : (writtenTerm hne hxs hcoef).coefficient = coef :=
  pow_signOf_mul_natAbs coef

theorem tokens_writtenTerm : (writtenTerm hne hxs hcoef).tokens =
    (if coef < 0 then "-" else "+") :: toString coef.natAbs :: productTokens xs := by
  rw [Term.tokens, factors_writtenTerm, ← token_signOf]
  rfl

end WrittenTerm

theorem exists_term (h : Naming n name) {m : Monomial} (hm : m.isEmpty = false)
    (hvars : ∀ v ∈ m.vars, v < n) (hcoef : Writable m.coef) :
    ∃ t : Term, t.factors = m.vars.map name ∧ t.coefficient = m.coef ∧
      (termTokens name m).filter (fun token => !isBracket token) = t.tokens := by
  have hne : m.vars.map name ≠ [] := by
    rw [Ne, List.map_eq_nil_iff]
    intro hnil
    simp [Monomial.isEmpty, hnil] at hm
  have hnames : ∀ x ∈ m.vars.map name, isName x = true := fun _ => h.isName_of_mem hvars
  have htokens := tokens_writtenTerm hne hnames hcoef
  have hkept : (writtenTerm hne hnames hcoef).tokens.filter (fun token => !isBracket token) =
      (writtenTerm hne hnames hcoef).tokens :=
    List.filter_eq_self.2 fun token htoken => by simp [Term.isBracket_eq_false htoken]
  have hdeleted : (termTokens name m).filter (fun token => !isBracket token) =
      (writtenTerm hne hnames hcoef).tokens := by
    rw [← hkept, htokens, termTokens]
    split
    · rfl
    · simp [List.filter_cons, isBracket]
  exact ⟨writtenTerm hne hnames hcoef, factors_writtenTerm hne hnames hcoef,
    coefficient_writtenTerm hne hnames hcoef, hdeleted⟩

/-- No bracket follows a star, nor can one do so when more tokens are added. -/
structure Tidy (tokens : List String) : Prop where
  chain : tokens.IsChain fun token next => token = "*" → isBracket next = false
  last : ∀ token ∈ tokens.getLast?, token ≠ "*"

theorem tidy_singleton {token : String} (h : token ≠ "*") : Tidy [token] :=
  ⟨.singleton token, by simpa using h⟩

theorem Tidy.append {left right : List String} (hl : Tidy left) (hr : Tidy right) :
    Tidy (left ++ right) where
  chain := List.isChain_append.2
    ⟨hl.chain, hr.chain, fun token htoken _ _ hstar => absurd hstar (hl.last token htoken)⟩
  last := by
    intro token htoken
    rw [List.getLast?_append, Option.mem_def, Option.or_eq_some_iff] at htoken
    rcases htoken with hright | ⟨-, hleft⟩
    · exact hr.last token hright
    · exact hl.last token hleft

theorem tidy_flatMap {α : Type} {f : α → List String} {as : List α} (h : ∀ a ∈ as, Tidy (f a)) :
    Tidy (as.flatMap f) := by
  induction as with
  | nil => exact ⟨.nil, by simp⟩
  | cons a as ih =>
    rw [List.flatMap_cons]
    exact (h a List.mem_cons_self).append (ih fun b hb => h b (List.mem_cons_of_mem a hb))

theorem Plain.ne_star {token : String} (h : Plain token) : token ≠ "*" := by
  rintro rfl
  exact h.ne_mark (by simp)

theorem tidy_productTokens {xs : List String} (h : ∀ x ∈ xs, Plain x) :
    Tidy (productTokens xs) := by
  cases xs with
  | nil => exact ⟨.nil, by simp [productTokens]⟩
  | cons x xs =>
    have hfirst : Tidy [x] := tidy_singleton (h x List.mem_cons_self).ne_star
    have hothers : Tidy (xs.flatMap fun y => ["*", y]) := by
      apply tidy_flatMap
      intro y hy
      have hplain := h y (List.mem_cons_of_mem x hy)
      exact ⟨.cons_cons (fun _ => hplain.isBracket_eq_false) (.singleton y), by
        simpa using hplain.ne_star⟩
    exact hfirst.append hothers

theorem tidy_termTokens (h : Naming n name) {m : Monomial} (hvars : ∀ v ∈ m.vars, v < n)
    (hcoef : Writable m.coef) : Tidy (termTokens name m) := by
  have hsize : Plain (toString m.coef.natAbs) :=
    plain_of_int64? (Text.int64?_toString_nat hcoef.fits_natAbs)
  have hnames : ∀ x ∈ m.vars.map name, Plain x :=
    fun _ hx => plain_of_isName (h.isName_of_mem hvars hx)
  have hsign : Tidy [if m.coef < 0 then "-" else "+"] := tidy_singleton (by split <;> decide)
  have hproduct : Tidy (toString m.coef.natAbs :: productTokens (m.vars.map name)) :=
    (tidy_singleton hsize.ne_star).append (tidy_productTokens hnames)
  have hopen : Tidy ["["] := tidy_singleton (by decide)
  have hclose : Tidy ["]"] := tidy_singleton (by decide)
  rw [termTokens]
  split
  · exact hsign.append hproduct
  · exact hsign.append (hopen.append (hproduct.append hclose))

/-- Terms with the factors and the coefficients of monomials. -/
def Spells (name : Variable → String) (ts : List Term) (ms : List Monomial) : Prop :=
  ts.map (fun t => (t.factors, t.coefficient)) = ms.map fun m => (m.vars.map name, m.coef)

theorem exists_written (h : Naming n name) {ms : List Monomial}
    (hms : ∀ m ∈ ms, m.isEmpty = false ∧ (∀ v ∈ m.vars, v < n) ∧ Writable m.coef) :
    ∃ ts, Written (ms.flatMap (termTokens name)) ts ∧ Spells name ts ms := by
  have htidy : Tidy (ms.flatMap (termTokens name)) :=
    tidy_flatMap fun m hm => tidy_termTokens h (hms m hm).2.1 (hms m hm).2.2
  have hterms : ∃ ts : List Term,
      (ms.flatMap (termTokens name)).filter (fun token => !isBracket token) =
        ts.flatMap Term.tokens ∧ Spells name ts ms := by
    clear htidy
    induction ms with
    | nil => exact ⟨[], rfl, rfl⟩
    | cons m ms ih =>
      obtain ⟨hm, hvars, hcoef⟩ := hms m List.mem_cons_self
      obtain ⟨t, hfactors, hvalue, htokens⟩ := exists_term h hm hvars hcoef
      obtain ⟨ts, hdeleted, hsame⟩ := ih fun k hk => hms k (List.mem_cons_of_mem m hk)
      refine ⟨t :: ts, ?_, ?_⟩
      · rw [List.flatMap_cons, List.filter_append, htokens, hdeleted, List.flatMap_cons]
      · rw [Spells, List.map_cons, List.map_cons, hfactors, hvalue, hsame]
  obtain ⟨ts, hdeleted, hsame⟩ := hterms
  exact ⟨ts, ⟨hdeleted, htidy.chain⟩, hsame⟩

/-- The names of the variables of terms, in order. -/
def namesOf (name : Variable → String) (ms : List Monomial) : List String :=
  ms.flatMap fun m => m.vars.map name

theorem mem_namesOf {name : Variable → String} {ms : List Monomial} {m : Monomial} {v : Variable}
    (hm : m ∈ ms) (hv : v ∈ m.vars) : name v ∈ namesOf name ms :=
  List.mem_flatMap.2 ⟨m, hm, List.mem_map_of_mem hv⟩

/-- A normal form with writable coefficients over named variables. -/
structure Legible (n : Nat) (p : Polynomial) : Prop where
  merged : p.Merged
  isOver : p.Over n
  writable : ∀ m ∈ p.monomials, Writable m.coef

namespace Legible

variable {p : Polynomial} {names : Array String}

theorem merged_rename (hp : Legible n p) (h : Naming n name)
    (hnames : ∀ m ∈ p.monomials, ∀ v ∈ m.vars, name v ∈ names) :
    (p.rename (numbered names name)).Merged :=
  hp.merged.rename (s := {v | v < n ∧ name v ∈ names})
    (fun m hm v hv => ⟨(hp.isOver m hm).2 v hv, hnames m hm v hv⟩) (h.injOn_numbered names)

/-- Terms with different products and machine coefficients merge into themselves. -/
theorem merge_rename (hp : Legible n p) (h : Naming n name)
    (hnames : ∀ m ∈ p.monomials, ∀ v ∈ m.vars, name v ∈ names) :
    merge (p.monomials.map (·.rename (numbered names name))) =
      .ok (p.rename (numbered names name)) := by
  have hfits : ∀ m ∈ (p.rename (numbered names name)).monomials, FitsInt64 m.coef := by
    intro m hm
    obtain ⟨l, hl, rfl⟩ := List.mem_map.1 hm
    exact (hp.writable l hl).fits
  have hnormal := (hp.merged_rename h hnames).normalize?_eq hfits
  change (Polynomial.ofTerms (p.monomials.map _)).normalize? = _ at hnormal
  rw [merge, hnormal]

end Legible

namespace Spells

variable {ts : List Term} {ms : List Monomial}

theorem fits (h : Spells name ts ms) (hms : ∀ m ∈ ms, FitsInt64 m.coef) :
    ∀ t ∈ ts, FitsInt64 t.coefficient := by
  intro t ht
  have hmem : (t.factors, t.coefficient) ∈ ts.map fun t => (t.factors, t.coefficient) :=
    List.mem_map_of_mem ht
  rw [h] at hmem
  obtain ⟨m, hm, hpair⟩ := List.mem_map.1 hmem
  have hcoef : m.coef = t.coefficient := congrArg Prod.snd hpair
  exact hcoef ▸ hms m hm

theorem flatMap_factors (h : Spells name ts ms) :
    ts.flatMap Term.factors = namesOf name ms := by
  have hfirst := congrArg (List.flatMap Prod.fst) h
  simpa [List.flatMap_map, namesOf] using hfirst

theorem map_monomial (h : Spells name ts ms) (names : Array String) :
    ts.map (·.monomial names) = ms.map (·.rename (numbered names name)) := by
  have hnumbered := congrArg (List.map fun term : List String × Int =>
    Monomial.ofFactors (term.1.map (position names)) term.2) h
  rw [List.map_map, List.map_map] at hnumbered
  refine hnumbered.trans (List.map_congr_left fun m _ => ?_)
  change Monomial.ofFactors ((m.vars.map name).map (position names)) m.coef = _
  rw [List.map_map]
  rfl

end Spells

/-- The written terms are read as the renamed ones. -/
theorem readExpression_eq (h : Naming n name) {p : Polynomial} (hp : Legible n p)
    (hne : p.monomials ≠ []) (names : Array String) {tail rest : List String}
    {relation : Option Relation} (htail : Ends tail relation rest) :
    ∃ names', Grows names (namesOf name p.monomials) names' ∧
      readExpression names (termsTokens name p ++ tail) =
        .ok ⟨p.rename (numbered names' name), relation, rest, names'⟩ := by
  have htokens : termsTokens name p = p.monomials.flatMap (termTokens name) :=
    if_neg (by simpa [Polynomial.isEmpty] using hne)
  obtain ⟨ts, hwritten, hspells⟩ := exists_written h fun m hm =>
    ⟨(hp.isOver m hm).1, (hp.isOver m hm).2, hp.writable m hm⟩
  have hfits := hspells.fits fun m hm => (hp.writable m hm).fits
  obtain ⟨names', hgrows, -, hread⟩ := hwritten.exists_merge htail hfits names
  rw [hspells.flatMap_factors] at hgrows
  have hmem : ∀ m ∈ p.monomials, ∀ v ∈ m.vars, name v ∈ names' :=
    fun m hm v hv => hgrows.mem_of_seen (mem_namesOf hm hv)
  refine ⟨names', hgrows, ?_⟩
  rw [htokens, hread, hspells.map_monomial, hp.merge_rename h hmem]
  rfl

/-- A polynomial with terms is read back with its variables renumbered. -/
theorem readExpression_of_polynomial (h : Naming n name) {p : Polynomial} (hp : Legible n p)
    (hne : p.monomials ≠ []) (names : Array String) :
    ∃ names', Grows names (namesOf name p.monomials) names' ∧
      readExpression names (termsTokens name p) =
        .ok ⟨p.rename (numbered names' name), none, [], names'⟩ := by
  have hread := readExpression_eq h hp hne names .line
  rwa [List.append_nil] at hread

theorem readExpression_of_relation (h : Naming n name) {p : Polynomial} (hp : Legible n p)
    (hne : p.monomials ≠ []) (names : Array String) {r : Relation} (hr : r ≠ .undefined)
    (rest : List String) :
    ∃ names', Grows names (namesOf name p.monomials) names' ∧
      readExpression names (termsTokens name p ++ r.text :: rest) =
        .ok ⟨p.rename (numbered names' name), some r, rest, names'⟩ :=
  readExpression_eq h hp hne names (.relation (relation?_text hr) rest)

end Written

end NonlinearInteger.Lp
