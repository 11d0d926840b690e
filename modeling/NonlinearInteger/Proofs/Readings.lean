import NonlinearInteger.Proofs.Grammar

/-!
# Tokens and what they lead to

A token, or a star with the name behind it, leads from one reading to the next. What is read of
an expression is a run of such steps up to a relation or the end of the line, where no coefficient
is left over.
-/

namespace NonlinearInteger.Lp

/-- Names are looked up one after another. -/
def internAll (names : Array String) (xs : List String) : Array String :=
  xs.foldl (fun names x => (intern names x).1) names

theorem internAll_append (names : Array String) (xs ys : List String) :
    internAll names (xs ++ ys) = internAll (internAll names xs) ys :=
  List.foldl_append

theorem grows_internAll (names : Array String) (xs : List String) :
    Grows names xs (internAll names xs) := by
  induction xs generalizing names with
  | nil => exact .refl names
  | cons x xs ih =>
    obtain ⟨names', hintern, hgrows⟩ := exists_intern names x
    have hnames : internAll names (x :: xs) = internAll names' xs := by
      rw [internAll, List.foldl_cons, hintern, internAll]
    exact hnames ▸ hgrows.trans (ih names')

theorem position_internAll_of_intern {names names' : Array String} {x : String} {v : Variable}
    (h : intern names x = (names', v)) (xs : List String) :
    position (internAll names' xs) x = v := by
  obtain ⟨names'', hintern, hgrows⟩ := exists_intern names x
  obtain ⟨rfl, rfl⟩ := Prod.mk.inj (h.symm.trans hintern)
  exact (grows_internAll names' xs).position_eq (hgrows.mem_of_seen List.mem_cons_self)

theorem Reading.times_eq_ok {e e' : Reading} {v : Variable} : e.times v = .ok e' ↔
    ∃ m, e.current = some m ∧ { e with current := some (m.product (.linear v 1)) } = e' := by
  unfold Reading.times
  cases e.current <;> simp

/-- A coefficient is refused where another one waits, or when it does not fit. -/
theorem Reading.withCoefficient_eq_ok {e e' : Reading} {token : String} {value : Int} :
    e.withCoefficient token value = .ok e' ↔ e.coef = none ∧ FitsInt64 (e.sign * value) ∧
      ⟨e.close, 1, some (e.sign * value), none⟩ = e' := by
  unfold Reading.withCoefficient
  cases hcoef : e.coef <;> by_cases hfits : FitsInt64 (e.sign * value) <;> simp [hfits]

/-- What is read at once, and where it leads. -/
inductive Step : Array String → Reading → List String → Array String → Reading → Prop
  | skip {names : Array String} {e : Reading} {token : String} (h : token ∈ ["+", "[", "]"]) :
      Step names e [token] names e
  | minus (names : Array String) (e : Reading) : Step names e ["-"] names e.flip
  | star {names names' : Array String} {e e' : Reading} {x : String} {v : Variable}
      (hx : isName x = true) (hintern : intern names x = (names', v)) (h : e.times v = .ok e') :
      Step names e ["*", x] names' e'
  | numeral {names : Array String} {e e' : Reading} {token : String} {value : Int}
      (hvalue : Text.int64? token = some value) (h : e.withCoefficient token value = .ok e') :
      Step names e [token] names e'
  | name {names names' : Array String} {e : Reading} {x : String} {v : Variable}
      (hx : isName x = true) (hintern : intern names x = (names', v)) :
      Step names e [x] names' (e.startTerm v)

section OneStep

variable {names names' : Array String} {e e' : Reading} {group : List String}

theorem Step.readTerms_append (h : Step names e group names' e') (tail : List String) :
    readTerms names e (group ++ tail) = readTerms names' e' tail := by
  cases h with
  | skip htoken => exact readTerms_skip htoken
  | minus => exact readTerms_minus
  | star hx hintern htimes => exact readTerms_star hx hintern htimes
  | numeral hvalue hcoef =>
    rw [List.singleton_append, readTerms_numeral hvalue, hcoef]
    rfl
  | name hx hintern => exact readTerms_name hx hintern

/-- Only a star takes another token along, and that is a name. -/
theorem Step.group_eq (h : Step names e group names' e') :
    (∃ token, group = [token]) ∨ ∃ x, isName x = true ∧ group = ["*", x] := by
  cases h with
  | star hx => exact .inr ⟨_, hx, rfl⟩
  | _ => exact .inl ⟨_, rfl⟩

theorem Step.names_eq (h : Step names e group names' e') :
    names' = internAll names (group.filter isName) := by
  have hmarks : ∀ mark ∈ ["+", "[", "]", "-", "*"], isName mark = false := by decide
  cases h with
  | skip htoken =>
    rw [List.filter_singleton, hmarks _ (List.mem_append_left ["-", "*"] htoken)]
    rfl
  | minus => rfl
  | star hx hintern =>
    rw [List.filter_cons_of_neg (by decide), List.filter_singleton, hx]
    exact (congrArg Prod.fst hintern).symm
  | numeral hvalue =>
    rw [List.filter_singleton, Bool.eq_false_iff.2 (mt int64?_of_isName (by simp [hvalue]))]
    rfl
  | name hx hintern =>
    rw [List.filter_singleton, hx]
    exact (congrArg Prod.fst hintern).symm

end OneStep

/-- A row of tokens leads from one table of names and one reading to others. -/
inductive Reads : Array String → Reading → List String → Array String → Reading → Prop
  | done (names : Array String) (e : Reading) : Reads names e [] names e
  | step {names names₁ names' : Array String} {e e₁ e' : Reading} {group rest : List String}
      (hstep : Step names e group names₁ e₁) (hrest : Reads names₁ e₁ rest names' e') :
      Reads names e (group ++ rest) names' e'

namespace Reads

variable {names names' : Array String} {e e' : Reading} {tokens : List String}

theorem keeps {motive : Array String → Reading → Prop} (h : Reads names e tokens names' e')
    (hstep : ∀ {names names' : Array String} {e e' : Reading} {group : List String},
      Step names e group names' e' → motive names e → motive names' e')
    (he : motive names e) : motive names' e' := by
  induction h with
  | done => exact he
  | step h _ ih => exact ih (hstep h he)

theorem readTerms_append (h : Reads names e tokens names' e') (tail : List String) :
    readTerms names e (tokens ++ tail) = readTerms names' e' tail := by
  induction h with
  | done => rfl
  | step hstep _ ih => rw [List.append_assoc, hstep.readTerms_append, ih]

theorem names_eq (h : Reads names e tokens names' e') :
    names' = internAll names (tokens.filter isName) := by
  induction h with
  | done => rfl
  | step hstep _ ih => rw [List.filter_append, internAll_append, ← hstep.names_eq, ih]

/-- A run can be cut before any token that is no name. -/
theorem split (h : Reads names e tokens names' e') {before after : List String} {token : String}
    (htokens : tokens = before ++ token :: after) (htoken : isName token = false) :
    ∃ names₁ e₁, Reads names e before names₁ e₁ ∧ Reads names₁ e₁ (token :: after) names' e' := by
  induction h generalizing before with
  | done => simp at htokens
  | step hstep hrest ih =>
    cases before with
    | nil =>
      rw [List.nil_append] at htokens
      exact ⟨_, _, .done _ _, htokens ▸ .step hstep hrest⟩
    | cons first before =>
      rcases hstep.group_eq with ⟨only, rfl⟩ | ⟨x, hx, rfl⟩
      · obtain ⟨rfl, hrow⟩ := List.cons.inj htokens
        obtain ⟨names₁, e₁, hbefore, hafter⟩ := ih hrow
        exact ⟨names₁, e₁, .step hstep hbefore, hafter⟩
      · obtain ⟨rfl, hrow⟩ := List.cons.inj htokens
        cases before with
        | nil =>
          obtain ⟨rfl, -⟩ := List.cons.inj hrow
          simp [hx] at htoken
        | cons second before =>
          obtain ⟨rfl, hlater⟩ := List.cons.inj hrow
          obtain ⟨names₁, e₁, hbefore, hafter⟩ := ih hlater
          exact ⟨names₁, e₁, .step hstep hbefore, hafter⟩

end Reads

/-- An expression that is read: a run of its tokens, and the end that stopped it. -/
structure Consumed (names : Array String) (e : Reading) (tokens : List String) (x : Expression)
    (body tail : List String) (last : Reading) : Prop where
  tokens_eq : tokens = body ++ tail
  reads : Reads names e body x.names last
  ends : Ends tail x.relation x.rest
  /-- No coefficient waits for its variable. -/
  coef_eq : last.coef = none
  merged : merge last.close = .ok x.poly

section

variable {names names' : Array String} {e e' last : Reading} {x : Expression}
  {group tokens body tail rest : List String}

theorem Consumed.of_ends {relation : Option Relation} (hends : Ends tokens relation rest)
    (hcoef : ¬e.coef.isSome = true)
    (h : Except.ok x = do return ⟨← merge e.close, relation, rest, names⟩) :
    Consumed names e tokens x [] tokens e := by
  obtain ⟨p, hp, hx⟩ := bind_eq_ok.1 h.symm
  obtain rfl := pure_eq_ok.1 hx
  exact ⟨rfl, .done names e, hends, by simpa using hcoef, hp⟩

theorem Consumed.step (hstep : Step names e group names' e')
    (h : Consumed names' e' tokens x body tail last) :
    Consumed names e (group ++ tokens) x (group ++ body) tail last where
  tokens_eq := by rw [h.tokens_eq, List.append_assoc]
  reads := .step hstep h.reads
  ends := h.ends
  coef_eq := h.coef_eq
  merged := h.merged

/-- By recursion on the tokens: what is not the end leads on, and the rest is read from there. -/
theorem exists_consumed (h : readTerms names e tokens = .ok x) :
    ∃ body tail last, Consumed names e tokens x body tail last := by
  fun_induction readTerms names e tokens with
  | case1 | case3 | case8 | case9 | case10 | case12 | case14 => cases h
  | case2 names e hcoef => exact ⟨_, _, _, .of_ends .line hcoef h.symm⟩
  | case4 names e token rest relation hrelation hcoef =>
    exact ⟨_, _, _, .of_ends (.relation hrelation rest) hcoef h.symm⟩
  | case5 names e token rest _ hskip ih =>
    obtain ⟨_, _, _, hrest⟩ := ih h
    exact ⟨_, _, _, .step (.skip (by simpa using hskip)) hrest⟩
  | case6 names e rest _ _ ih =>
    obtain ⟨_, _, _, hrest⟩ := ih h
    exact ⟨_, _, _, .step (.minus names e) hrest⟩
  | case7 names e name rest hname names' v hintern e' htimes _ _ _ ih =>
    obtain ⟨_, _, _, hrest⟩ := ih h
    exact ⟨_, _, _, .step (.star hname hintern htimes) hrest⟩
  | case11 names e token rest _ _ _ _ value hvalue e' hcoef ih =>
    obtain ⟨_, _, _, hrest⟩ := ih h
    exact ⟨_, _, _, .step (.numeral hvalue hcoef) hrest⟩
  | case13 names e token rest _ _ _ _ _ hname names' v hintern ih =>
    obtain ⟨_, _, _, hrest⟩ := ih h
    exact ⟨_, _, _, .step (.name hname hintern) hrest⟩

end

end NonlinearInteger.Lp
