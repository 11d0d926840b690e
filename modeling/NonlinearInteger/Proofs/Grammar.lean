import NonlinearInteger.Proofs.CanonicalForms
import NonlinearInteger.Proofs.Tokens
import Mathlib.Data.List.Chain

/-!
# The grammar of expressions

An expression is a row of terms, and a relation or the end of the line behind them. Brackets may
stand anywhere but behind a star. The reader takes the terms one after another: before and after
each of them no sign and no coefficient is left over. What it makes of them is their sum, unless
a coefficient or a sum of coefficients leaves the 64-bit range.
-/

namespace NonlinearInteger.Lp

inductive Sign where
  | plus
  | minus
  deriving DecidableEq

def Sign.token : Sign → String
  | .plus => "+"
  | .minus => "-"

/-- A token that is read as a 64-bit integer. -/
structure Numeral where
  token : String
  value : Int
  read : Text.int64? token = some value

abbrev Name := {x : String // isName x = true}

/-- Signs, a coefficient that may be missing, and a product. -/
structure Term where
  signs : List Sign
  numeral : Option Numeral
  first : Name
  others : List Name

/-- The factors of a product with stars between them. -/
def productTokens : List String → List String
  | [] => []
  | x :: xs => x :: xs.flatMap fun y => ["*", y]

namespace Term

variable (t : Term)

def factors : List String := t.first.val :: t.others.map Subtype.val

/-- Each minus sign turns the coefficient round. -/
def coefficient : Int := (-1) ^ t.signs.count .minus * (t.numeral.map Numeral.value).getD 1

/-- The tokens before the product. -/
def head : List String := t.signs.map Sign.token ++ (t.numeral.map Numeral.token).toList

def tokens : List String := t.head ++ productTokens t.factors

/-- The value of a term, given those of the names. -/
def value (σ : String → Int) : Int := t.coefficient * (t.factors.map σ).prod

theorem factors_ne_nil : t.factors ≠ [] := List.cons_ne_nil _ _

theorem isName_of_mem {t : Term} {x : String} (hx : x ∈ t.factors) : isName x = true := by
  rcases List.mem_cons.1 hx with rfl | hx
  · exact t.first.property
  · obtain ⟨y, -, rfl⟩ := List.mem_map.1 hx
    exact y.property

/-- The term with the names numbered by a table. -/
def monomial (names : Array String) : Monomial :=
  .ofFactors (t.factors.map (position names)) t.coefficient

end Term

def isBracket (token : String) : Bool := token == "[" || token == "]"

theorem Plain.isBracket_eq_false {token : String} (h : Plain token) : isBracket token = false := by
  have hne := h.ne_mark
  simp only [List.mem_cons, List.not_mem_nil, or_false, not_or] at hne
  simp [isBracket, hne]

/-- Tokens that are the terms of a list once the brackets are deleted. -/
structure Written (body : List String) (ts : List Term) : Prop where
  deleted : body.filter (fun token => !isBracket token) = ts.flatMap Term.tokens
  not_after_star : body.IsChain fun token next => token = "*" → isBracket next = false

/-- What stands behind the terms, with the relation read there and the tokens left. -/
inductive Ends : List String → Option Relation → List String → Prop
  | line : Ends [] none []
  | relation {token : String} {relation : Relation} (h : relation? token = some relation)
      (rest : List String) : Ends (token :: rest) (some relation) rest

section Brackets

variable {names : Array String} {e : Reading} {token : String} {left right : List String}

theorem readTerms_congr (hrelation : relation? token = none) (hstar : token ≠ "*")
    (h : ∀ names e, readTerms names e left = readTerms names e right) :
    readTerms names e (token :: left) = readTerms names e (token :: right) := by
  rw [readTerms.eq_def, readTerms.eq_def names e (token :: right)]
  simp only [hrelation, hstar, if_false, h]

theorem readTerms_star_congr (h : ∀ names e, readTerms names e left = readTerms names e right) :
    readTerms names e ("*" :: token :: left) = readTerms names e ("*" :: token :: right) := by
  have hrelation : relation? "*" = none := rfl
  rw [readTerms.eq_def, readTerms.eq_def names e ("*" :: token :: right)]
  simp [hrelation, h]

/-- Brackets that do not follow a star mean nothing. The second part is what the induction
needs where a star came before. -/
theorem readTerms_brackets {body : List String} (tail : List String)
    (hrelation : ∀ token ∈ body, relation? token = none)
    (hchain : body.IsChain fun token next => token = "*" → isBracket next = false) :
    (∀ names e, readTerms names e (body ++ tail) =
      readTerms names e (body.filter (fun token => !isBracket token) ++ tail)) ∧
    ((∀ token ∈ body.head?, isBracket token = false) → ∀ names e,
      readTerms names e ("*" :: (body ++ tail)) =
        readTerms names e ("*" :: (body.filter (fun token => !isBracket token) ++ tail))) := by
  induction body with
  | nil => exact ⟨fun _ _ => rfl, fun _ _ _ => rfl⟩
  | cons token body ih =>
    obtain ⟨hnext, htail⟩ := List.isChain_cons.1 hchain
    obtain ⟨hread, hstar⟩ := ih (fun token h => hrelation token (List.mem_cons_of_mem _ h)) htail
    have htoken := hrelation token List.mem_cons_self
    constructor
    · intro names e
      cases hbracket : isBracket token with
      | true =>
        have hmark : token ∈ ["+", "[", "]"] := by
          simp only [isBracket, Bool.or_eq_true, beq_iff_eq] at hbracket
          simp [hbracket]
        rw [List.cons_append, readTerms_skip hmark, List.filter_cons_of_neg (by simp [hbracket])]
        exact hread names e
      | false =>
        rw [List.filter_cons_of_pos (by simp [hbracket]), List.cons_append, List.cons_append]
        by_cases hsame : token = "*"
        · subst hsame
          exact hstar (fun next h => hnext next h rfl) names e
        · exact readTerms_congr htoken hsame hread
    · intro hfirst names e
      have hbracket := hfirst token rfl
      rw [List.filter_cons_of_pos (by simp [hbracket]), List.cons_append, List.cons_append]
      exact readTerms_star_congr hread

end Brackets

theorem readTerms_factors (ms : List Monomial) (coef : Int) {xs : List String}
    (hxs : ∀ x ∈ xs, isName x = true) (us : List String) (names : Array String)
    (hus : ∀ u ∈ us, u ∈ names) (rest : List String) :
    ∃ names', Grows names xs names' ∧
      readTerms names ⟨ms, 1, none, some (.ofFactors (us.map (position names)) coef)⟩
        (xs.flatMap (fun x => ["*", x]) ++ rest) =
      readTerms names' ⟨ms, 1, none, some (.ofFactors ((us ++ xs).map (position names')) coef)⟩
        rest := by
  induction xs generalizing us names with
  | nil => exact ⟨names, .refl names, by simp⟩
  | cons x xs ih =>
    obtain ⟨names', hintern, hgrows⟩ := exists_intern names x
    have hknown : ∀ u ∈ us ++ [x], u ∈ names' := by
      intro u hu
      rcases List.mem_append.1 hu with hu | hu
      · exact hgrows.mem_of_mem (hus u hu)
      · exact hgrows.mem_of_seen hu
    obtain ⟨names'', hgrows', hread⟩ :=
      ih (fun y hy => hxs y (List.mem_cons_of_mem x hy)) (us ++ [x]) names' hknown
    have hsame : us.map (position names) = us.map (position names') :=
      List.map_congr_left fun u hu => (hgrows.position_eq (hus u hu)).symm
    have htimes : Reading.times ⟨ms, 1, none, some (.ofFactors (us.map (position names)) coef)⟩
        (position names' x) =
        .ok ⟨ms, 1, none, some (.ofFactors ((us ++ [x]).map (position names')) coef)⟩ := by
      rw [hsame, List.map_append]
      simp only [Reading.times, Monomial.ofFactors_product_linear]
      rfl
    have htokens : (x :: xs).flatMap (fun y => ["*", y]) ++ rest =
        "*" :: x :: (xs.flatMap (fun y => ["*", y]) ++ rest) := rfl
    refine ⟨names'', hgrows.trans hgrows', ?_⟩
    rw [htokens, readTerms_star (hxs x List.mem_cons_self) hintern htimes, hread,
      List.append_assoc, List.singleton_append]

theorem readTerms_product {xs : List String} (hne : xs ≠ []) (hxs : ∀ x ∈ xs, isName x = true)
    (names : Array String) (e : Reading) (rest : List String) :
    ∃ names', Grows names xs names' ∧
      readTerms names e (productTokens xs ++ rest) =
      readTerms names' ⟨e.close, 1, none,
        some (.ofFactors (xs.map (position names')) (e.coef.getD e.sign))⟩ rest := by
  cases xs with
  | nil => exact absurd rfl hne
  | cons x xs =>
    obtain ⟨names', hintern, hgrows⟩ := exists_intern names x
    have hmem : x ∈ names' := hgrows.mem_of_seen List.mem_cons_self
    obtain ⟨names'', hgrows', hread⟩ := readTerms_factors e.close (e.coef.getD e.sign)
      (fun y hy => hxs y (List.mem_cons_of_mem x hy)) [x] names' (by simpa using hmem) rest
    refine ⟨names'', hgrows.trans hgrows', ?_⟩
    rw [productTokens, List.cons_append, readTerms_name (hxs x List.mem_cons_self) hintern]
    exact hread

section OneTerm

variable {names : Array String} {e : Reading} {t : Term}

theorem readTerms_signs (signs : List Sign) (e : Reading) (rest : List String) :
    readTerms names e (signs.map Sign.token ++ rest) =
      readTerms names { e with sign := e.sign * (-1) ^ signs.count .minus } rest := by
  induction signs generalizing e with
  | nil => simp
  | cons sign signs ih =>
    cases sign with
    | plus =>
      rw [List.count_cons_of_ne (by decide)]
      exact (readTerms_skip (by simp [Sign.token])).trans (ih e)
    | minus =>
      have hsign : e.flip.sign * (-1) ^ signs.count .minus =
          e.sign * (-1) ^ (signs.count .minus + 1) := by
        rw [pow_succ, Reading.flip]
        ring
      rw [List.count_cons_self, ← hsign]
      exact readTerms_minus.trans (ih e.flip)

theorem Term.fits_of_numeral_eq_none (h : t.numeral = none) : FitsInt64 t.coefficient := by
  rw [Term.coefficient, h]
  rcases neg_one_pow_eq_or Int (t.signs.count .minus) with hsign | hsign <;>
    rw [hsign] <;> decide

variable (hsign : e.sign = 1) (hnone : e.coef = none)

include hsign hnone

/-- A numeral takes the signs before it, and the result has to fit. -/
theorem readTerms_head_numeral {numeral : Numeral} (hnumeral : t.numeral = some numeral)
    (rest : List String) : readTerms names e (t.head ++ rest) =
      if FitsInt64 t.coefficient then readTerms names ⟨e.close, 1, some t.coefficient, none⟩ rest
      else .error (.coefficientRange numeral.token) := by
  have hcoef : t.coefficient = (-1) ^ t.signs.count .minus * numeral.value := by
    rw [Term.coefficient, hnumeral]
    rfl
  rw [Term.head, hnumeral, List.append_assoc, readTerms_signs]
  change readTerms names _ (numeral.token :: rest) = _
  rw [readTerms_numeral numeral.read, Reading.withCoefficient]
  simp only [hnone, hsign, one_mul, ← hcoef, Option.isSome_none, Bool.false_eq_true, if_false]
  by_cases hfits : FitsInt64 t.coefficient
  · rw [if_pos hfits, if_pos hfits]
    rfl
  · rw [if_neg hfits, if_neg hfits]
    rfl

theorem readTerms_head (hfits : FitsInt64 t.coefficient) (rest : List String) :
    ∃ e' : Reading, e'.close = e.close ∧ e'.coef.getD e'.sign = t.coefficient ∧
      readTerms names e (t.head ++ rest) = readTerms names e' rest := by
  cases hnumeral : t.numeral with
  | none =>
    have hcoef : e.coef.getD (e.sign * (-1) ^ t.signs.count .minus) = t.coefficient := by
      simp [Term.coefficient, hnumeral, hnone, hsign]
    rw [Term.head, hnumeral, Option.map_none, Option.toList_none, List.append_nil]
    exact ⟨{ e with sign := e.sign * (-1) ^ t.signs.count .minus }, rfl, hcoef,
      readTerms_signs t.signs e rest⟩
  | some numeral =>
    have hclose : Reading.close ⟨e.close, 1, some t.coefficient, none⟩ = e.close :=
      List.append_nil e.close
    have hread : readTerms names e (t.head ++ rest) =
        readTerms names ⟨e.close, 1, some t.coefficient, none⟩ rest := by
      rw [readTerms_head_numeral hsign hnone hnumeral, if_pos hfits]
    exact ⟨_, hclose, rfl, hread⟩

/-- A coefficient beyond the range stops the reader at its numeral. -/
theorem readTerms_head_range (hrange : ¬FitsInt64 t.coefficient) :
    ∃ numeral, t.numeral = some numeral ∧ ∀ rest,
      readTerms names e (t.head ++ rest) = .error (.coefficientRange numeral.token) := by
  cases hnumeral : t.numeral with
  | none => exact absurd (Term.fits_of_numeral_eq_none hnumeral) hrange
  | some numeral =>
    have hread : ∀ rest, readTerms names e (t.head ++ rest) =
        .error (.coefficientRange numeral.token) := by
      intro rest
      rw [readTerms_head_numeral hsign hnone hnumeral, if_neg hrange]
    exact ⟨numeral, rfl, hread⟩

theorem readTerms_term (hfits : FitsInt64 t.coefficient) (rest : List String) :
    ∃ names', Grows names t.factors names' ∧ readTerms names e (t.tokens ++ rest) =
      readTerms names' ⟨e.close, 1, none, some (t.monomial names')⟩ rest := by
  obtain ⟨e', hclose, hcoef, hhead⟩ :=
    readTerms_head hsign hnone hfits (productTokens t.factors ++ rest)
  obtain ⟨names', hgrows, hproduct⟩ :=
    readTerms_product t.factors_ne_nil (fun _ => Term.isName_of_mem) names e' rest
  refine ⟨names', hgrows, ?_⟩
  rw [Term.tokens, List.append_assoc, hhead, hproduct, hclose, hcoef]
  rfl

end OneTerm

/-- Some terms have been read, and the next one may start. -/
structure Reading.Holds (names : Array String) (ts : List Term) (e : Reading) : Prop where
  sign_eq : e.sign = 1
  coef_eq : e.coef = none
  close_eq : e.close = ts.map (·.monomial names)
  mem : ∀ t ∈ ts, ∀ x ∈ t.factors, x ∈ names

theorem Reading.holds_empty (names : Array String) : Reading.empty.Holds names [] :=
  ⟨rfl, rfl, rfl, by simp⟩

theorem Grows.monomial_eq {names names' : Array String} {seen : List String}
    (h : Grows names seen names') {t : Term} (ht : ∀ x ∈ t.factors, x ∈ names) :
    t.monomial names' = t.monomial names := by
  rw [Term.monomial, Term.monomial, List.map_congr_left fun x hx => h.position_eq (ht x hx)]

theorem Reading.Holds.concat {names names' : Array String} {ts : List Term} {e : Reading}
    (he : e.Holds names ts) {t : Term} (hgrows : Grows names t.factors names') :
    Reading.Holds names' (ts ++ [t]) ⟨e.close, 1, none, some (t.monomial names')⟩ where
  sign_eq := rfl
  coef_eq := rfl
  close_eq := by
    have hold : ts.map (·.monomial names) = ts.map (·.monomial names') :=
      List.map_congr_left fun t ht => (hgrows.monomial_eq (he.mem t ht)).symm
    rw [Reading.close, he.close_eq, hold, List.map_append]
    rfl
  mem := by
    intro u hu x hx
    rcases List.mem_append.1 hu with hu | hu
    · exact hgrows.mem_of_mem (he.mem u hu x hx)
    · rw [List.mem_singleton.1 hu] at hx
      exact hgrows.mem_of_seen hx

theorem readTerms_terms {ts : List Term} (hfits : ∀ t ∈ ts, FitsInt64 t.coefficient)
    (done : List Term) (names : Array String) (e : Reading) (he : e.Holds names done)
    (rest : List String) :
    ∃ names' e', Grows names (ts.flatMap Term.factors) names' ∧ e'.Holds names' (done ++ ts) ∧
      readTerms names e (ts.flatMap Term.tokens ++ rest) = readTerms names' e' rest := by
  induction ts generalizing done names e with
  | nil => exact ⟨names, e, .refl names, by simpa using he, rfl⟩
  | cons t ts ih =>
    obtain ⟨names', hgrows, hread⟩ := readTerms_term he.sign_eq he.coef_eq
      (hfits t List.mem_cons_self) (ts.flatMap Term.tokens ++ rest)
    obtain ⟨names'', e'', hgrows', he'', hrest⟩ :=
      ih (fun u hu => hfits u (List.mem_cons_of_mem t hu)) (done ++ [t]) names' _ (he.concat hgrows)
    refine ⟨names'', e'', hgrows.trans hgrows', by simpa using he'', ?_⟩
    rw [List.flatMap_cons, List.append_assoc, hread, hrest]

/-- Where nothing is pending, a relation or the end of the line closes the expression. -/
theorem readTerms_ends {names : Array String} {e : Reading} (hnone : e.coef = none)
    {tail rest : List String} {relation : Option Relation} (h : Ends tail relation rest) :
    readTerms names e tail = do return ⟨← merge e.close, relation, rest, names⟩ := by
  cases h with
  | line =>
    rw [readTerms.eq_def]
    simp [hnone]
  | relation hrelation =>
    rw [readTerms.eq_def]
    simp [hrelation, hnone]

/-- The sum of the coefficients of one product, whatever the order of its factors. -/
def productSum (xs : List String) : List Term → Int
  | [] => 0
  | t :: ts => (if t.factors.Perm xs then t.coefficient else 0) + productSum xs ts

/-- The coefficients of every product, added up one after another, stay in the 64-bit range. -/
def SumsFit (ts : List Term) : Prop :=
  ∀ xs seen, seen <+: ts → FitsInt64 (productSum xs seen)

theorem productSum_eq_zero {xs : List String} {ts : List Term}
    (h : ∀ t ∈ ts, ¬t.factors.Perm xs) : productSum xs ts = 0 := by
  induction ts with
  | nil => rfl
  | cons t ts ih =>
    rw [productSum, if_neg (h t List.mem_cons_self),
      ih fun u hu => h u (List.mem_cons_of_mem t hu), Int.add_zero]

theorem productSum_perm {xs ys : List String} (h : xs.Perm ys) (ts : List Term) :
    productSum xs ts = productSum ys ts := by
  induction ts with
  | nil => rfl
  | cons t ts ih => simp only [productSum, ih, h.congr_right]

theorem sortFactors_eq_iff {vs ws : List Variable} :
    sortFactors vs = sortFactors ws ↔ vs.Perm ws := by
  constructor
  · intro h
    exact (sortFactors_perm vs).symm.trans (h ▸ sortFactors_perm ws)
  · intro h
    have hperm := (sortFactors_perm vs).trans (h.trans (sortFactors_perm ws).symm)
    exact hperm.eq_of_pairwise (fun _ _ _ _ => Nat.le_antisymm) (pairwise_sortFactors vs)
      (pairwise_sortFactors ws)

theorem fetch_position {names : Array String} {x : String} (h : x ∈ names) :
    fetch names (position names x) = .ok x := by
  have hlt := position_lt h
  have hx : names[position names x] = x := by
    rw [← Array.getElem_toList]
    exact List.getElem_idxOf _
  rw [fetch_of_lt hlt, hx]

theorem map_position_perm_iff {names : Array String} {xs ys : List String}
    (hxs : ∀ x ∈ xs, x ∈ names) (hys : ∀ y ∈ ys, y ∈ names) :
    (xs.map (position names)).Perm (ys.map (position names)) ↔ xs.Perm ys := by
  have hback : ∀ zs : List String, (∀ z ∈ zs, z ∈ names) →
      (zs.map (position names)).map (fetch names) = zs.map Except.ok := by
    intro zs hzs
    rw [List.map_map]
    exact List.map_congr_left fun z hz => fetch_position (hzs z hz)
  have hok : Function.Injective (Except.ok : String → Checked String) := fun _ _ => Except.ok.inj
  constructor
  · intro h
    have hfetched := h.map (fetch names)
    rw [hback xs hxs, hback ys hys] at hfetched
    exact (List.map_perm_map_iff hok).1 hfetched
  · exact fun h => h.map _

section Known

variable {names : Array String} {ts : List Term}

theorem vars_monomial_eq_iff {t u : Term} (ht : ∀ x ∈ t.factors, x ∈ names)
    (hu : ∀ x ∈ u.factors, x ∈ names) :
    (t.monomial names).vars = (u.monomial names).vars ↔ t.factors.Perm u.factors :=
  sortFactors_eq_iff.trans (map_position_perm_iff ht hu)

theorem coefficient_monomials (hts : ∀ t ∈ ts, ∀ x ∈ t.factors, x ∈ names) {u : Term}
    (hu : ∀ x ∈ u.factors, x ∈ names) :
    Polynomial.coefficient (u.monomial names).vars (ts.map (·.monomial names)) =
      productSum u.factors ts := by
  induction ts with
  | nil => rfl
  | cons t ts ih =>
    have hrest := ih fun s hs => hts s (List.mem_cons_of_mem t hs)
    have hsame := vars_monomial_eq_iff (hts t List.mem_cons_self) hu
    rw [List.map_cons, Polynomial.coefficient, productSum, hrest]
    simp only [hsame]
    rfl

theorem sumsFit_iff (hts : ∀ t ∈ ts, ∀ x ∈ t.factors, x ∈ names) :
    SumsFit ts ↔ ∀ vars, Polynomial.RunningSumFits vars (ts.map (·.monomial names)) := by
  have hzero : FitsInt64 0 := by decide
  have hknown : ∀ {us : List Term}, us <+: ts → ∀ u ∈ us, ∀ x ∈ u.factors, x ∈ names :=
    fun hus u hu => hts u (hus.subset hu)
  constructor
  · intro h vars seen hseen
    obtain ⟨us, hus, rfl⟩ := List.prefix_map_iff.1 hseen
    by_cases hsome : ∃ u ∈ us, (u.monomial names).vars = vars
    · obtain ⟨u, hu, rfl⟩ := hsome
      rw [coefficient_monomials (hknown hus) (hknown hus u hu)]
      exact h u.factors us hus
    · rw [Polynomial.coefficient_eq_zero]
      · exact hzero
      · intro m hm hvars
        obtain ⟨u, hu, rfl⟩ := List.mem_map.1 hm
        exact hsome ⟨u, hu, hvars⟩
  · intro h xs us hus
    by_cases hsome : ∃ u ∈ us, u.factors.Perm xs
    · obtain ⟨u, hu, hperm⟩ := hsome
      rw [← productSum_perm hperm, ← coefficient_monomials (hknown hus) (hknown hus u hu)]
      exact h _ _ (hus.map _)
    · rw [productSum_eq_zero fun u hu hperm => hsome ⟨u, hu, hperm⟩]
      exact hzero

theorem merge_of_sumsFit (hts : ∀ t ∈ ts, ∀ x ∈ t.factors, x ∈ names) (h : SumsFit ts) :
    merge (ts.map (·.monomial names)) = .ok (.ofMonomials (ts.map (·.monomial names))) := by
  have hfits := Polynomial.sumsFit_iff.2 ((sumsFit_iff hts).1 h)
  rw [merge_eq, if_pos hfits]

theorem merge_of_not_sumsFit (hts : ∀ t ∈ ts, ∀ x ∈ t.factors, x ∈ names) (h : ¬SumsFit ts) :
    merge (ts.map (·.monomial names)) = .error .mergeOverflow := by
  have hfits := mt Polynomial.sumsFit_iff.1 (mt (sumsFit_iff hts).2 h)
  rw [merge_eq, if_neg hfits]

theorem factorValue_eq_prod (τ : Variable → Int) (vs : List Variable) :
    Monomial.factorValue τ vs = (vs.map τ).prod := by
  induction vs with
  | nil => rfl
  | cons v vs ih => rw [Monomial.factorValue, ih, List.map_cons, List.prod_cons]

theorem Term.eval_monomial (t : Term) (names : Array String) (τ : Variable → Int) :
    (t.monomial names).eval τ = t.value fun x => τ (position names x) := by
  change t.coefficient * Monomial.factorValue τ (sortFactors (t.factors.map (position names))) = _
  rw [Monomial.factorValue_sortFactors, factorValue_eq_prod, List.map_map]
  rfl

theorem Term.vars_monomial_ne_nil (t : Term) (names : Array String) :
    (t.monomial names).vars ≠ [] := by
  intro hnil
  have hlength := (sortFactors_perm (t.factors.map (position names))).length_eq
  have hvars : sortFactors (t.factors.map (position names)) = [] := hnil
  rw [hvars] at hlength
  simp [Term.factors] at hlength

theorem eval_monomials (ts : List Term) (names : Array String) (τ : Variable → Int) :
    (Polynomial.ofMonomials (ts.map (·.monomial names))).eval τ =
      (ts.map (·.value fun x => τ (position names x))).sum := by
  have hproper : ∀ m ∈ ts.map (·.monomial names), m.vars ≠ [] := by
    intro m hm
    obtain ⟨t, -, rfl⟩ := List.mem_map.1 hm
    exact t.vars_monomial_ne_nil names
  rw [Polynomial.eval_ofMonomials hproper, Polynomial.evalTerms_eq_sum, List.map_map]
  exact congrArg List.sum (List.map_congr_left fun t _ => t.eval_monomial names τ)

end Known

theorem Term.kind_of_mem {t : Term} {token : String} (h : token ∈ t.tokens) :
    token ∈ ["+", "-", "*"] ∨ Plain token := by
  rw [Term.tokens, Term.head, List.mem_append, List.mem_append] at h
  rcases h with (hsign | hnumeral) | hproduct
  · obtain ⟨sign, -, rfl⟩ := List.mem_map.1 hsign
    cases sign <;> simp [Sign.token]
  · obtain ⟨numeral, -, rfl⟩ := Option.map_eq_some_iff.1 (Option.mem_toList.1 hnumeral)
    exact .inr (plain_of_int64? numeral.read)
  · rcases List.mem_cons.1 hproduct with rfl | hothers
    · exact .inr (plain_of_isName t.first.property)
    · obtain ⟨x, hx, hstar⟩ := List.mem_flatMap.1 hothers
      rcases List.mem_pair.1 hstar with rfl | rfl
      · simp
      · exact .inr (plain_of_isName (Term.isName_of_mem (List.mem_cons_of_mem _ hx)))

theorem Term.relation?_eq_none {t : Term} {token : String} (h : token ∈ t.tokens) :
    relation? token = none := by
  have hmarks : ∀ mark ∈ ["+", "-", "*"], relation? mark = none := by decide
  exact (Term.kind_of_mem h).elim (hmarks token) Plain.relation

theorem Term.isBracket_eq_false {t : Term} {token : String} (h : token ∈ t.tokens) :
    isBracket token = false := by
  have hmarks : ∀ mark ∈ ["+", "-", "*"], isBracket mark = false := by decide
  rcases Term.kind_of_mem h with hmark | hplain
  · exact hmarks token hmark
  · exact hplain.isBracket_eq_false

section Whole

variable {body tail rest : List String} {ts : List Term} {relation : Option Relation}

/-- The brackets are of no consequence. -/
theorem Written.readExpression_eq (h : Written body ts) (names : Array String)
    (tail : List String) : readExpression names (body ++ tail) =
      readTerms names .empty (ts.flatMap Term.tokens ++ tail) := by
  have hrelation : ∀ token ∈ body, relation? token = none := by
    intro token htoken
    cases hbracket : isBracket token with
    | true =>
      simp only [isBracket, Bool.or_eq_true, beq_iff_eq] at hbracket
      rcases hbracket with rfl | rfl <;> rfl
    | false =>
      have hkept : token ∈ ts.flatMap Term.tokens := by
        rw [← h.deleted]
        exact List.mem_filter.2 ⟨htoken, by simp [hbracket]⟩
      obtain ⟨t, -, ht⟩ := List.mem_flatMap.1 hkept
      exact Term.relation?_eq_none ht
  rw [readExpression, (readTerms_brackets tail hrelation h.not_after_star).1, h.deleted]

/-- Written terms whose coefficients fit are read one by one and merged at their end. -/
theorem Written.exists_merge (h : Written body ts) (htail : Ends tail relation rest)
    (hfits : ∀ t ∈ ts, FitsInt64 t.coefficient) (names : Array String) :
    ∃ names', Grows names (ts.flatMap Term.factors) names' ∧
      (∀ t ∈ ts, ∀ x ∈ t.factors, x ∈ names') ∧
      readExpression names (body ++ tail) =
        (do return ⟨← merge (ts.map (·.monomial names')), relation, rest, names'⟩) := by
  obtain ⟨names', e, hgrows, he, hread⟩ :=
    readTerms_terms hfits [] names .empty (Reading.holds_empty names) tail
  refine ⟨names', hgrows, he.mem, ?_⟩
  rw [h.readExpression_eq, hread, readTerms_ends he.coef_eq htail, he.close_eq]
  rfl

theorem Written.coefficientRange (h : Written body ts) (names : Array String) (tail : List String)
    {done later : List Term} {t : Term} (hts : ts = done ++ t :: later)
    (hfits : ∀ u ∈ done, FitsInt64 u.coefficient) (hrange : ¬FitsInt64 t.coefficient) :
    ∃ numeral, t.numeral = some numeral ∧
      readExpression names (body ++ tail) = .error (.coefficientRange numeral.token) := by
  have htokens : ts.flatMap Term.tokens ++ tail = done.flatMap Term.tokens ++
      (t.head ++ (productTokens t.factors ++ (later.flatMap Term.tokens ++ tail))) := by
    simp [hts, Term.tokens]
  obtain ⟨names', e, -, he, hread⟩ := readTerms_terms hfits [] names .empty
    (Reading.holds_empty names) _
  obtain ⟨numeral, hnumeral, herror⟩ := readTerms_head_range he.sign_eq he.coef_eq hrange
  refine ⟨numeral, hnumeral, ?_⟩
  rw [h.readExpression_eq, htokens, hread]
  exact herror _

end Whole

/-- An expression that means the sum of some terms. -/
structure Expression.Means (x : Expression) (names : Array String) (ts : List Term)
    (relation : Option Relation) (rest : List String) : Prop where
  relation_eq : x.relation = relation
  rest_eq : x.rest = rest
  /-- New names stand behind those that were there. -/
  grows : Grows names (ts.flatMap Term.factors) x.names
  fetch_eq : ∀ t ∈ ts, ∀ name ∈ t.factors, fetch x.names (position x.names name) = .ok name
  eval_eq : ∀ τ, x.poly.eval τ = (ts.map (·.value fun name => τ (position x.names name))).sum

/-- What the reader makes of some terms. -/
structure ReadAs (names : Array String) (ts : List Term) (relation : Option Relation)
    (rest : List String) (result : Except LineError Expression) : Prop where
  success : (∀ t ∈ ts, FitsInt64 t.coefficient) → SumsFit ts →
    ∃ x, result = .ok x ∧ x.Means names ts relation rest
  range : ∀ done t later, ts = done ++ t :: later → (∀ u ∈ done, FitsInt64 u.coefficient) →
    ¬FitsInt64 t.coefficient →
      ∃ numeral, t.numeral = some numeral ∧ result = .error (.coefficientRange numeral.token)
  overflow : (∀ t ∈ ts, FitsInt64 t.coefficient) → ¬SumsFit ts → result = .error .mergeOverflow

/-- Every expression of the grammar is read as the sum of its terms, unless a coefficient or a
sum of coefficients is out of range. -/
theorem readAs_of_written {body tail rest : List String} {ts : List Term}
    {relation : Option Relation} (hbody : Written body ts) (htail : Ends tail relation rest)
    (names : Array String) :
    ReadAs names ts relation rest (readExpression names (body ++ tail)) where
  success := by
    intro hfits hsums
    obtain ⟨names', hgrows, hknown, hread⟩ := hbody.exists_merge htail hfits names
    rw [merge_of_sumsFit hknown hsums] at hread
    refine ⟨_, hread, rfl, rfl, hgrows, ?_, ?_⟩
    · exact fun t ht x hx => fetch_position (hknown t ht x hx)
    · exact eval_monomials ts names'
  range := fun _ _ _ => hbody.coefficientRange names tail
  overflow := by
    intro hfits hsums
    obtain ⟨names', -, hknown, hread⟩ := hbody.exists_merge htail hfits names
    rw [hread, merge_of_not_sumsFit hknown hsums]
    rfl

/-- Three signs before a coefficient, the same product the other way round, and a name alone. -/
def crossedTerms : List Term :=
  [⟨[.minus, .plus, .minus], some ⟨"2", 2, rfl⟩, ⟨"x", rfl⟩, [⟨"y", rfl⟩]⟩,
    ⟨[.minus], none, ⟨"y", rfl⟩, [⟨"x", rfl⟩]⟩, ⟨[], none, ⟨"z", rfl⟩, []⟩]

def crossedTokens : List String :=
  ["[", "-", "+", "-", "2", "x", "*", "y", "]", "-", "[", "]", "y", "*", "x", "z"]

theorem readAs_of_crossed :
    Written crossedTokens crossedTerms ∧ Ends ["<=", "5"] (some .le) ["5"] ∧
      ReadAs #["y"] crossedTerms (some .le) ["5"]
        (readExpression #["y"] (crossedTokens ++ ["<=", "5"])) := by
  have hwritten : Written crossedTokens crossedTerms := ⟨by decide, by decide⟩
  have hends : Ends ["<=", "5"] (some .le) ["5"] := .relation rfl ["5"]
  exact ⟨hwritten, hends, readAs_of_written hwritten hends #["y"]⟩

/-- Two ways to write one product are added up. -/
example : ((readExpression #["y"] ["-", "-", "2", "x", "*", "y", "-", "[", "y", "*", "x", "]", "<=",
    "5"]).map fun x => (x.poly.monomials.map fun m => (m.vars, m.coef), x.relation, x.rest)) =
      .ok ([([0, 1], 1)], some .le, ["5"]) := by
  decide +kernel

end NonlinearInteger.Lp
