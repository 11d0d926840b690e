import NonlinearInteger.Lp.Reader
import NonlinearInteger.Proofs.Readings

/-!
# Numerals and their names

A numeral of an expression waits for its name. Only signs and brackets may come before that, and
these signs mean nothing: the numeral has the sign of what stands before it. So every numeral of
an expression that is read is the coefficient of the name that comes next, and no expression with
a constant that no name follows is read. But a constant with a sign behind it takes the place of
the coefficient of the next term.
-/

namespace NonlinearInteger.Lp

section Kept

variable {names names' : Array String} {e e' : Reading} {group tokens : List String}

/-- A term with a given coefficient and a given variable. -/
def Reading.HasTerm (e : Reading) (coef : Int) (v : Variable) : Prop :=
  ∃ m ∈ e.close, m.coef = coef ∧ v ∈ m.vars

theorem Step.sign_cases (h : Step names e group names' e') (he : e.sign = 1 ∨ e.sign = -1) :
    e'.sign = 1 ∨ e'.sign = -1 := by
  cases h with
  | skip => exact he
  | minus => exact he.symm.imp (congrArg Neg.neg) (congrArg Neg.neg)
  | star _ _ htimes =>
    obtain ⟨m, -, rfl⟩ := Reading.times_eq_ok.1 htimes
    exact he
  | numeral _ hcoef =>
    obtain ⟨-, -, rfl⟩ := Reading.withCoefficient_eq_ok.1 hcoef
    exact .inl rfl
  | name => exact .inl rfl

theorem Step.hasTerm {coef : Int} {v : Variable} (h : Step names e group names' e')
    (he : e.HasTerm coef v) : e'.HasTerm coef v := by
  obtain ⟨m, hm, hcoef, hv⟩ := he
  cases h with
  | skip => exact ⟨m, hm, hcoef, hv⟩
  | minus => exact ⟨m, hm, hcoef, hv⟩
  | star _ _ htimes =>
    obtain ⟨grown, hgrown, rfl⟩ := Reading.times_eq_ok.1 htimes
    rw [Reading.close, hgrown] at hm
    rcases List.mem_append.1 hm with hm | hm
    · exact ⟨m, List.mem_append_left _ hm, hcoef, hv⟩
    · obtain rfl := List.mem_singleton.1 hm
      exact ⟨_, List.mem_append_right _ List.mem_cons_self, (Int.mul_one _).trans hcoef,
        Monomial.mem_vars_product.2 (.inl hv)⟩
  | numeral _ hcoefficient =>
    obtain ⟨-, -, rfl⟩ := Reading.withCoefficient_eq_ok.1 hcoefficient
    exact ⟨m, List.mem_append_left _ hm, hcoef, hv⟩
  | name => exact ⟨m, List.mem_append_left _ hm, hcoef, hv⟩

theorem Reads.sign_cases (h : Reads names e tokens names' e') (he : e.sign = 1 ∨ e.sign = -1) :
    e'.sign = 1 ∨ e'.sign = -1 :=
  h.keeps (motive := fun _ e => e.sign = 1 ∨ e.sign = -1) Step.sign_cases he

theorem Reads.hasTerm {coef : Int} {v : Variable} (h : Reads names e tokens names' e')
    (he : e.HasTerm coef v) : e'.HasTerm coef v :=
  h.keeps (motive := fun _ e => e.HasTerm coef v) Step.hasTerm he

end Kept

/-- What may stand between a numeral and its name. -/
def idleMarks : List String := ["+", "-", "[", "]"]

section Waiting

variable {names names' : Array String} {terms : List Monomial} {sign coef : Int}
  {tokens marks : List String} {e' : Reading}

theorem reads_idleMarks (hmarks : ∀ mark ∈ marks, mark ∈ idleMarks) (names : Array String)
    (terms : List Monomial) (sign coef : Int) :
    ∃ sign', Reads names ⟨terms, sign, some coef, none⟩ marks names
      ⟨terms, sign', some coef, none⟩ := by
  induction marks generalizing sign with
  | nil => exact ⟨sign, .done _ _⟩
  | cons mark marks ih =>
    have hrest := ih fun m hm => hmarks m (List.mem_cons_of_mem mark hm)
    by_cases hminus : mark = "-"
    · subst hminus
      obtain ⟨sign', hreads⟩ := hrest (-sign)
      exact ⟨sign', .step (.minus _ _) hreads⟩
    · have hskip : mark ∈ ["+", "[", "]"] := by
        simpa [idleMarks, hminus] using hmarks mark List.mem_cons_self
      obtain ⟨sign', hreads⟩ := hrest sign
      exact ⟨sign', .step (.skip hskip) hreads⟩

/-- A coefficient that waits is taken by the next name, whatever marks come before it. -/
theorem readTerms_idleMarks (hmarks : ∀ mark ∈ marks, mark ∈ idleMarks) {name : String}
    (hname : isName name = true) (tail : List String) :
    readTerms names ⟨terms, sign, some coef, none⟩ (marks ++ name :: tail) =
      readTerms (intern names name).1 ⟨terms ++ [], 1, none,
        some (.linear (intern names name).2 coef)⟩ tail := by
  obtain ⟨sign', hreads⟩ := reads_idleMarks hmarks names terms sign coef
  rw [hreads.readTerms_append, readTerms_name hname (Prod.mk.eta).symm]
  rfl

/-- By induction on the run: signs and brackets leave the coefficient waiting, a star and another
numeral are refused, and only a name takes it. -/
theorem Reads.exists_name (h : Reads names ⟨terms, sign, some coef, none⟩ tokens names' e')
    (hlast : e'.coef = none) :
    ∃ marks name rest names₁ v, tokens = marks ++ name :: rest ∧
      (∀ mark ∈ marks, mark ∈ idleMarks) ∧ isName name = true ∧
      intern names name = (names₁, v) ∧
      Reads names₁ ⟨terms ++ [], 1, none, some (.linear v coef)⟩ rest names' e' := by
  generalize he : (⟨terms, sign, some coef, none⟩ : Reading) = e at h
  induction h generalizing sign with
  | done =>
    subst he
    cases hlast
  | @step names names₁ names' _ e₁ e' group rest hstep hrest ih =>
    subst he
    cases hstep with
    | @skip _ token htoken =>
      obtain ⟨marks, name, rest, names₁, v, rfl, hmarks, hstart⟩ := ih hlast rfl
      have hskip : ∀ mark ∈ ["+", "[", "]"], mark ∈ idleMarks := by decide
      exact ⟨token :: marks, name, rest, names₁, v, rfl,
        List.forall_mem_cons.2 ⟨hskip token htoken, hmarks⟩, hstart⟩
    | minus =>
      obtain ⟨marks, name, rest, names₁, v, rfl, hmarks, hstart⟩ := ih hlast rfl
      exact ⟨"-" :: marks, name, rest, names₁, v, rfl,
        List.forall_mem_cons.2 ⟨by decide, hmarks⟩, hstart⟩
    | star _ _ htimes =>
      obtain ⟨m, hm, -⟩ := Reading.times_eq_ok.1 htimes
      cases hm
    | numeral _ hcoef =>
      obtain ⟨hnone, -⟩ := Reading.withCoefficient_eq_ok.1 hcoef
      cases hnone
    | name hx hintern => exact ⟨[], _, rest, _, _, rfl, by simp, hx, hintern, hrest⟩

end Waiting

section Numerals

variable {names names' : Array String} {e last : Reading} {x : Expression} {value : Int}
  {token : String} {before after body tail : List String}

theorem Ends.relation?_ne_none {relation : Option Relation} {rest : List String}
    (h : Ends (token :: tail) relation rest) : relation? token ≠ none := by
  cases h with
  | relation hrelation => simp [hrelation]

theorem Consumed.exists_body (h : Consumed names e (before ++ token :: after) x body tail last)
    (hbefore : ∀ t ∈ before, relation? t = none) (htoken : relation? token = none) :
    ∃ rest, body = before ++ token :: rest ∧ after = rest ++ tail := by
  have hrelation : ∀ t ∈ before ++ [token], relation? t = none :=
    List.forall_mem_append.2 ⟨hbefore, by simpa using htoken⟩
  have htokens : (before ++ [token]) ++ after = body ++ tail := by
    rw [← h.tokens_eq, List.append_assoc, List.singleton_append]
  rcases List.append_eq_append_iff.1 htokens with ⟨rest, hbody, hafter⟩ | ⟨rest, hrow, htail⟩
  · exact ⟨rest, by rw [hbody, List.append_assoc, List.singleton_append], hafter⟩
  · have hends := h.ends
    cases rest with
    | nil =>
      rw [List.append_nil] at hrow
      exact ⟨[], hrow.symm, htail.symm⟩
    | cons t rest =>
      -- The token that ends the expression would be one of those before it.
      rw [htail, List.cons_append] at hends
      exact absurd (hrelation t (hrow ▸ List.mem_append_right body List.mem_cons_self))
        hends.relation?_ne_none

theorem Reads.numeral_cases (h : Reads names e (token :: after) names' last)
    (hvalue : Text.intOfChars? token.toList = some value) :
    Text.int64? token = some value ∧ e.coef = none ∧ FitsInt64 (e.sign * value) ∧
      Reads names ⟨e.close, 1, some (e.sign * value), none⟩ after names' last := by
  have hplain := plain_of_integer hvalue
  have hmarks := hplain.ne_mark
  simp only [List.mem_cons, List.not_mem_nil, or_false, not_or] at hmarks
  generalize hrow : token :: after = row at h
  cases h with
  | done => cases hrow
  | step hstep hrest =>
    cases hstep with
    | skip htoken =>
      obtain ⟨rfl, rfl⟩ := List.cons.inj hrow
      simp [hmarks] at htoken
    | minus => exact absurd (List.cons.inj hrow).1 hmarks.2.2.2.1
    | star => exact absurd (List.cons.inj hrow).1 hmarks.2.2.2.2
    | numeral hread hcoef =>
      obtain ⟨rfl, rfl⟩ := List.cons.inj hrow
      obtain rfl := Option.some.inj ((Text.intOfChars?_of_int64? hread).symm.trans hvalue)
      obtain ⟨hnone, hfits, rfl⟩ := Reading.withCoefficient_eq_ok.1 hcoef
      exact ⟨hread, hnone, hfits, hrest⟩
    | name hx =>
      obtain ⟨rfl, rfl⟩ := List.cons.inj hrow
      rw [intOfChars?_of_isName hx] at hvalue
      cases hvalue

/-- What a numeral of an expression is for. -/
structure Multiplies (names : Array String) (before : List String) (token : String) (value : Int)
    (marks : List String) (name : String) (rest : List String) (x : Expression) : Prop where
  int64 : Text.int64? token = some value
  idle : ∀ mark ∈ marks, mark ∈ idleMarks
  isName : isName name = true
  /-- The name is a factor of a term with the numeral for its coefficient, up to the sign that was
  pending before it. What is read is the sum of the last terms. -/
  term : ∃ body tail last names₁ e,
    Consumed names .empty (before ++ token :: (marks ++ name :: rest)) x body tail last ∧
      Reads names .empty before names₁ e ∧ (e.sign = 1 ∨ e.sign = -1) ∧
      last.HasTerm (e.sign * value) (position x.names name)
  /-- The same is read without the marks. -/
  unmarked : ∀ more, readExpression names (before ++ token :: (marks ++ name :: more)) =
    readExpression names (before ++ token :: name :: more)

theorem isName_eq_false_of_integer (h : Text.intOfChars? token.toList = some value) :
    isName token = false := by
  by_contra hname
  rw [intOfChars?_of_isName (Bool.not_eq_false _ ▸ hname)] at h
  cases h

theorem Reads.readExpression_idleMarks {marks : List String} {name : String} {coef : Int}
    (h : Reads names .empty before names' e) (hvalue : Text.int64? token = some value)
    (hcoef : e.withCoefficient token value = .ok ⟨e.close, 1, some coef, none⟩)
    (hmarks : ∀ mark ∈ marks, mark ∈ idleMarks) (hname : isName name = true)
    (more : List String) :
    readExpression names (before ++ token :: (marks ++ name :: more)) =
      readExpression names (before ++ token :: name :: more) := by
  rw [readExpression, readExpression, h.readTerms_append, h.readTerms_append,
    readTerms_numeral hvalue, readTerms_numeral hvalue, hcoef]
  change readTerms _ _ (marks ++ name :: more) = readTerms _ _ ([] ++ name :: more)
  rw [readTerms_idleMarks hmarks hname, readTerms_idleMarks (by simp) hname]

/-- Every numeral of an expression that is read is followed by its name, with nothing but signs
and brackets between them. -/
theorem exists_multiplies (h : readExpression names (before ++ token :: after) = .ok x)
    (hbefore : ∀ t ∈ before, relation? t = none)
    (hvalue : Text.intOfChars? token.toList = some value) :
    ∃ marks name rest, after = marks ++ name :: rest ∧
      Multiplies names before token value marks name rest x := by
  have hplain := plain_of_integer hvalue
  obtain ⟨body, tail, last, hconsumed⟩ := exists_consumed h
  obtain ⟨later, hbody, rfl⟩ := hconsumed.exists_body hbefore hplain.relation
  obtain ⟨names₁, e, hstart, hrun⟩ :=
    hconsumed.reads.split hbody (isName_eq_false_of_integer hvalue)
  obtain ⟨hint64, hnone, hfits, hwait⟩ := hrun.numeral_cases hvalue
  obtain ⟨marks, name, rest, names₂, v, rfl, hmarks, hisName, hintern, hgrow⟩ :=
    hwait.exists_name hconsumed.coef_eq
  have hsign := hstart.sign_cases (.inl rfl)
  have hposition : position x.names name = v := by
    rw [hgrow.names_eq]
    exact position_internAll_of_intern hintern _
  have hterm : last.HasTerm (e.sign * value) v :=
    hgrow.hasTerm ⟨_, List.mem_append_right _ List.mem_cons_self, rfl, List.mem_cons_self⟩
  have hcoefficient : e.withCoefficient token value =
      .ok ⟨e.close, 1, some (e.sign * value), none⟩ :=
    Reading.withCoefficient_eq_ok.2 ⟨hnone, hfits, rfl⟩
  refine ⟨marks, name, rest ++ tail, by simp, hint64, hmarks, hisName, ?_,
    hstart.readExpression_idleMarks hint64 hcoefficient hmarks hisName⟩
  rw [← hposition] at hterm
  rw [List.append_assoc, List.cons_append] at hconsumed
  exact ⟨body, tail, last, names₁, e, hconsumed, hstart, hsign, hterm⟩

end Numerals

deriving instance DecidableEq for Expression

/-- The numeral comes after a minus sign, and brackets and a plus sign come after it. -/
theorem exists_multiplies_of_bracketed :
    ∃ x, readExpression #[] ["x", "-", "[", "3", "]", "+", "[", "y", "*", "x", "]", "<=", "5"] =
        .ok x ∧ (∀ t ∈ ["x", "-", "["], relation? t = none) ∧
      Text.intOfChars? "3".toList = some 3 ∧
      ∃ marks name rest, ["]", "+", "[", "y", "*", "x", "]", "<=", "5"] = marks ++ name :: rest ∧
        Multiplies #[] ["x", "-", "["] "3" 3 marks name rest x := by
  have hread : readExpression #[]
      (["x", "-", "["] ++ "3" :: ["]", "+", "[", "y", "*", "x", "]", "<=", "5"]) =
        .ok ⟨.ofMonomials [.linear 0 1, .ofFactors [0, 1] (-3)], some .le, ["5"],
          #["x", "y"]⟩ := by
    decide +kernel
  exact ⟨_, hread, by decide, rfl, exists_multiplies hread (by decide) rfl⟩

/-- A constant that a term is subtracted from is read as the coefficient of that term. -/
theorem constant_becomes_coefficient :
    read "Minimize\n obj: 3 - x\nEnd\n" =
        .ok ⟨1, #[], .normalize (.ofMonomials [.linear 0 3]), #[.standard], #["x"]⟩ ∧
      ∃ x, readExpression #[] ["3", "-", "x"] = .ok x ∧ x.poly.monomials = [.linear 0 3] ∧
        ¬∀ before token after value, ["3", "-", "x"] = before ++ token :: after →
          (∀ t ∈ before, relation? t = none) → Text.int64? token = some value →
            ∃ name, (after.filter fun t => !isBracket t).head? = some name ∧
              isName name = true := by
  have hread : readExpression #[] ["3", "-", "x"] =
      .ok ⟨.ofMonomial (.linear 0 3), none, [], #["x"]⟩ := by
    decide +kernel
  refine ⟨by decide +kernel, _, hread, rfl, ?_⟩
  intro hall
  obtain ⟨name, hnext, hname⟩ := hall [] "3" ["-", "x"] 3 rfl (by simp) rfl
  obtain rfl : "-" = name := Option.some.inj hnext
  exact absurd hname (by decide)

end NonlinearInteger.Lp
