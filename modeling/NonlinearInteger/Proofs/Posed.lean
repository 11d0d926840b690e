import NonlinearInteger.Proofs.Bounds
import NonlinearInteger.Proofs.Rows

/-!
# Problems as posed

What the search derives from a formula before it starts, stated for the problem
as a whole: one row for each constraint, the occurrences of each variable, the
coefficients of a linear objective, and bounds within 128-bit arithmetic.
-/

namespace NonlinearInteger

namespace Monomial

theorem vars_of_isLinear {m : Monomial} (h : m.isLinear = true) : ∃ u, m.vars = [u] := by
  simp only [isLinear, Bool.and_eq_true, beq_iff_eq] at h
  exact List.length_eq_one_iff.1 h.2

theorem linear_of_isLinear {m : Monomial} (h : m.isLinear = true) {v : Variable}
    {vs : List Variable} (hvars : m.vars = v :: vs) : linear v m.coef = m := by
  obtain ⟨u, hu⟩ := vars_of_isLinear h
  have hm : m.vars = [v] := by
    rw [hu] at hvars ⊢
    simp_all
  obtain ⟨vars, coef, sorted⟩ := m
  subst hm
  rfl

theorem slopeAt_singleton {m : Monomial} {u : Variable} (h : m.vars = [u])
    (σ : Variable → Int) (v : Variable) : m.slopeAt σ v = if u = v then m.coef else 0 := by
  by_cases huv : u = v
  · simp [slopeAt, contains, h, huv, factorValue]
  · simp [slopeAt, contains, h, huv, Ne.symm huv]

end Monomial

namespace Polynomial

variable {p : Polynomial}

theorem slopeAt_eq_of_isLinear (h : ∀ m ∈ p.monomials, m.isLinear = true) (σ τ : Variable → Int)
    (v : Variable) : p.slopeAt σ v = p.slopeAt τ v := by
  unfold slopeAt slopeTerms
  refine congrArg List.sum (List.map_congr_left fun m hm => ?_)
  obtain ⟨u, hu⟩ := Monomial.vars_of_isLinear (h m hm)
  rw [Monomial.slopeAt_singleton hu, Monomial.slopeAt_singleton hu]

theorem evalTerms_avoiding_congr {σ τ : Variable → Int} {v : Variable}
    (h : ∀ w, w ≠ v → τ w = σ w) :
    evalTerms τ (p.avoiding v) = evalTerms σ (p.avoiding v) := by
  rw [evalTerms_eq_sum, evalTerms_eq_sum]
  apply map_avoiding_congr p
  intro m hm
  apply Monomial.eval_congr
  intro w hw
  exact h w fun heq => hm (heq ▸ hw)

theorem slopeTerms_avoiding_congr {σ τ : Variable → Int} {v : Variable}
    (h : ∀ w, w ≠ v → τ w = σ w) (u : Variable) :
    slopeTerms τ u (p.avoiding v) = slopeTerms σ u (p.avoiding v) := by
  apply map_avoiding_congr p
  intro m hm
  apply Monomial.slopeAt_congr
  intro w hw
  exact h w fun heq => hm (heq ▸ hw)

/-- The slope of a variable that is nowhere repeated in a term does not depend on it. -/
theorem slopeAt_eq_of_count_le_one {σ τ : Variable → Int} {v : Variable}
    (hcount : ∀ m ∈ p.monomials, m.vars.count v ≤ 1) (h : ∀ w, w ≠ v → τ w = σ w) :
    p.slopeAt τ v = p.slopeAt σ v := by
  unfold slopeAt slopeTerms
  refine congrArg List.sum (List.map_congr_left fun m hm => ?_)
  have hothers : ∀ w ∈ m.vars.erase v, τ w = σ w := by
    intro w hw
    apply h
    rintro rfl
    have hpos := List.count_pos_iff.2 hw
    have hone := hcount m hm
    rw [List.count_erase_self] at hpos
    omega
  rw [Monomial.slopeAt, Monomial.slopeAt, Monomial.factorValue_congr hothers]

/-- When such a variable changes, a polynomial changes by slope times difference. -/
theorem eval_eq_add_of_count_le_one {σ τ : Variable → Int} {v : Variable}
    (hcount : ∀ m ∈ p.monomials, m.vars.count v ≤ 1) (h : ∀ w, w ≠ v → τ w = σ w) :
    p.eval τ = p.eval σ + p.slopeAt σ v * (τ v - σ v) := by
  have hσ := slopeAt_mul_add_avoiding σ v p
  have hτ := slopeAt_mul_add_avoiding τ v p
  rw [slopeAt_eq_of_count_le_one hcount h, evalTerms_avoiding_congr h] at hτ
  rw [← hσ, ← hτ]
  ring

theorem eval_eq_add_of_isLinear (hlinear : ∀ m ∈ p.monomials, m.isLinear = true)
    {σ τ : Variable → Int} {v : Variable} (h : ∀ w, w ≠ v → τ w = σ w) :
    p.eval τ = p.eval σ + p.slopeAt σ v * (τ v - σ v) := by
  refine eval_eq_add_of_count_le_one (fun m hm => ?_) h
  obtain ⟨u, hu⟩ := Monomial.vars_of_isLinear (hlinear m hm)
  rw [hu]
  exact List.count_le_length

end Polynomial

namespace Search

theorem isLinear_of_linearTerms {ms : List Monomial} {terms : List (Variable × Int)}
    (h : linearTerms ms = .ok terms) : ∀ m ∈ ms, m.isLinear = true := by
  induction ms generalizing terms with
  | nil => simp
  | cons m ms ih =>
    unfold linearTerms at h
    split at h
    · rename_i hlinear
      split at h
      · obtain ⟨rest, hrest, h⟩ := bind_eq_ok.1 h
        intro k hk
        rcases List.mem_cons.1 hk with rfl | hk
        · exact hlinear
        · exact ih hrest k hk
      · cases h
    · cases h

theorem mem_of_linearTerms {ms : List Monomial} {terms : List (Variable × Int)}
    (h : linearTerms ms = .ok terms) :
    ∀ term ∈ terms, Monomial.linear term.1 term.2 ∈ ms := by
  induction ms generalizing terms with
  | nil => cases h; simp
  | cons m ms ih =>
    unfold linearTerms at h
    split at h
    · rename_i hlinear
      split at h
      · rename_i v vs hvars
        obtain ⟨rest, hrest, h⟩ := bind_eq_ok.1 h
        rw [← pure_eq_ok.1 h]
        intro term hterm
        rcases List.mem_cons.1 hterm with rfl | hterm
        · have hm : Monomial.linear v m.coef = m := Monomial.linear_of_isLinear hlinear hvars
          rw [hm]
          exact List.mem_cons_self
        · exact List.mem_cons_of_mem m (ih hrest term hterm)
      · cases h
    · cases h

/-- The coefficients of one variable add up to its slope. -/
theorem coefficientOf_linearTerms {ms : List Monomial} {terms : List (Variable × Int)}
    (h : linearTerms ms = .ok terms) (σ : Variable → Int) (v : Variable) :
    coefficientOf v terms = Polynomial.slopeTerms σ v ms := by
  induction ms generalizing terms with
  | nil => cases h; rfl
  | cons m ms ih =>
    unfold linearTerms at h
    split at h
    · rename_i hlinear
      split at h
      · rename_i u us hvars
        obtain ⟨rest, hrest, h⟩ := bind_eq_ok.1 h
        obtain ⟨w, hw⟩ := Monomial.vars_of_isLinear hlinear
        have hu : m.vars = [u] := by
          rw [hw] at hvars ⊢
          simp_all
        rw [← pure_eq_ok.1 h, coefficientOf, ih hrest, Polynomial.slopeTerms,
          Polynomial.slopeTerms, List.map_cons, List.sum_cons, Monomial.slopeAt_singleton hu]
      · cases h
    · cases h

theorem getElem?_of_rowsOf {index : Nat} {cs : List Constraint} {rows : List Row}
    (h : rowsOf index cs = .ok rows) : rows.length = cs.length ∧
      ∀ (c : Nat) (k : Constraint), cs[c]? = some k →
        ∃ sense, Sense.ofRelation? k.relation = some sense ∧ rows[c]? = some (Row.of k sense) := by
  induction cs generalizing index rows with
  | nil => cases h; simp
  | cons k cs ih =>
    unfold rowsOf at h
    split at h
    · cases h
    · rename_i sense hsense
      obtain ⟨rest, hrest, h⟩ := bind_eq_ok.1 h
      rw [← pure_eq_ok.1 h]
      obtain ⟨hlength, hget⟩ := ih hrest
      constructor
      · simp [hlength]
      · intro c l hl
        cases c with
        | zero =>
          simp only [List.getElem?_cons_zero, Option.some.injEq] at hl ⊢
          exact ⟨sense, hl ▸ hsense, hl ▸ rfl⟩
        | succ c => exact hget c l hl

/-- A problem derived from a formula, with bounds to search within. -/
structure Posed (P : Problem) (lbs ubs : Array Int) : Prop where
  formula : P.formula.WellFormed
  bounds : SafeBounds P.formula lbs ubs
  size_rows : P.rows.size = P.formula.constraints.size
  row : ∀ (c : Nat) (k : Constraint), P.formula.constraints[c]? = some k →
    ∃ sense, Sense.ofRelation? k.relation = some sense ∧ P.rows[c]? = some (Row.of k sense)
  occurrences : ∀ v < P.formula.numVariables,
    P.occurrences[v]? = some (occurrencesOf P.rows v)
  objectiveVars_eq : P.objectiveVars = P.formula.objective.vars
  size_isObjective : P.isObjective.size = P.formula.numVariables
  isObjective : ∀ v < P.formula.numVariables, P.isObjective[v]? = some (P.objectiveVars.elem v)
  linear : ∀ m ∈ P.formula.objective.monomials, m.isLinear = true
  coefs : ∀ v < P.formula.numVariables, ∀ σ : Variable → Int,
    P.objectiveCoefs[v]? = some (P.formula.objective.slopeAt σ v)
  mem_objective : ∀ term ∈ P.liftTerms,
    Monomial.linear term.1 term.2 ∈ P.formula.objective.monomials
  neg_of_mem : ∀ term ∈ P.liftTerms, term.2 < 0

theorem vars_lt {f : Formula} (hf : f.WellFormed) {v : Variable} (hv : v ∈ f.objective.vars) :
    v < f.numVariables := by
  obtain ⟨m, hm, hmem⟩ := Polynomial.mem_vars.1 hv
  exact (hf.objective m hm).2 v hmem

/-- What stands behind an accepted formula: its rows, the terms of its objective, and an
initial assignment within whose bounds everything stays small. -/
theorem problem_of_eq_ok {f : Formula} {settings : Settings} {P : Problem} {a : Assignment}
    (h : Problem.of f settings = .ok (P, a)) : ∃ rows terms,
      rowsOf 0 f.constraints.toList = .ok rows ∧
      linearTerms f.objective.monomials = .ok terms ∧ initial f rows.toArray = .ok a ∧
      checkMagnitudes a 0 f.constraints.toList = .ok () ∧ fitsWithin a f.objective = .ok true ∧
      P = {
        formula := f
        settings := settings
        rows := rows.toArray
        occurrences := ((List.range f.numVariables).map (occurrencesOf rows.toArray)).toArray
        objectiveVars := f.objective.vars
        isObjective := ((List.range f.numVariables).map f.objective.vars.elem).toArray
        objectiveCoefs := ((List.range f.numVariables).map fun v => coefficientOf v terms).toArray
        liftTerms := terms.filter fun (_, coef) => decide (coef < 0) } := by
  unfold Problem.of at h
  split at h
  · cases h
  · obtain ⟨rows, hrows, h⟩ := bind_eq_ok.1 h
    obtain ⟨terms, hterms, h⟩ := bind_eq_ok.1 h
    obtain ⟨b, hinitial, h⟩ := bind_eq_ok.1 h
    obtain ⟨⟨⟩, hcheck, h⟩ := bind_eq_ok.1 h
    obtain ⟨fits, hfits, h⟩ := bind_eq_ok.1 h
    cases fits with
    | false => cases h
    | true =>
      cases pure_eq_ok.1 h
      exact ⟨rows, terms, hrows, hterms, mapError_eq_ok.1 hinitial, hcheck,
        mapError_eq_ok.1 hfits, rfl⟩

/-- A formula that the search accepts is posed with the bounds of its initial
assignment. -/
theorem posed_of {f : Formula} (hf : f.WellFormed) {settings : Settings} {P : Problem}
    {a : Assignment} (h : Problem.of f settings = .ok (P, a)) :
    P.formula = f ∧ P.settings = settings ∧ Posed P a.lbs a.ubs ∧ Inside a.lbs a.ubs a := by
  obtain ⟨rows, terms, hrows, hterms, hinitial, hcheck, hfits, rfl⟩ := problem_of_eq_ok h
  obtain ⟨hbounds, hinside⟩ := inside_initial hf hinitial
  obtain ⟨hlength, hrow⟩ := getElem?_of_rowsOf hrows
  refine ⟨rfl, rfl, ?_, hinside⟩
  exact {
    formula := hf
    bounds := safeBounds_of_checks hf hbounds hcheck hfits
    size_rows := by simpa using hlength
    row := by
      intro c k hk
      simpa using hrow c k (by simpa using hk)
    occurrences := by
      intro v hv
      simp [hv]
    objectiveVars_eq := rfl
    size_isObjective := by simp
    isObjective := by
      intro v hv
      simp [hv]
    linear := isLinear_of_linearTerms hterms
    coefs := by
      intro v hv σ
      have hcoef := coefficientOf_linearTerms hterms σ v
      simpa [hv, Polynomial.slopeAt] using hcoef
    mem_objective := fun term hterm =>
      mem_of_linearTerms hterms term (List.mem_filter.1 hterm).1
    neg_of_mem := fun term hterm => of_decide_eq_true (List.mem_filter.1 hterm).2 }

namespace Posed

variable {P : Problem} {lbs ubs : Array Int}

theorem row_cases (h : Posed P lbs ubs) {c : Nat} {row : Row} (hrow : P.rows[c]? = some row) :
    ∃ k sense, P.formula.constraints[c]? = some k ∧
      Sense.ofRelation? k.relation = some sense ∧ row = Row.of k sense := by
  have hlt : c < P.formula.constraints.size := by
    rw [← h.size_rows]
    exact (Array.getElem?_eq_some_iff.1 hrow).1
  have hk : P.formula.constraints[c]? = some P.formula.constraints[c] := by simp [hlt]
  obtain ⟨sense, hsense, hof⟩ := h.row c _ hk
  rw [hrow] at hof
  exact ⟨_, sense, hk, hsense, Option.some.inj hof⟩

theorem objectiveVars (h : Posed P lbs ubs) (v : Variable) (hv : v ∈ P.objectiveVars) :
    v < P.formula.numVariables :=
  vars_lt h.formula (h.objectiveVars_eq ▸ hv)

theorem liftTerms (h : Posed P lbs ubs) {term : Variable × Int} (hterm : term ∈ P.liftTerms) :
    term.1 < P.formula.numVariables :=
  (h.formula.objective _ (h.mem_objective term hterm)).2 _ List.mem_cons_self

theorem nodup_vars (h : Posed P lbs ubs) {row : Row} (hrow : row ∈ P.rows) :
    row.vars.toList.Nodup := by
  obtain ⟨c, hc⟩ := Array.mem_iff_getElem?.1 hrow
  obtain ⟨k, sense, -, -, rfl⟩ := h.row_cases hc
  exact Row.nodup_vars k sense

theorem lt_of_mem_vars (h : Posed P lbs ubs) {c : Nat} {row : Row} (hrow : P.rows[c]? = some row)
    {v : Variable} (hv : v ∈ row.vars) : v < P.formula.numVariables := by
  obtain ⟨k, sense, hk, -, rfl⟩ := h.row_cases hrow
  obtain ⟨m, hm, hmem⟩ := (Row.mem_vars k sense).1 hv
  exact (h.formula.constraints k (Array.mem_of_getElem? hk) m hm).2 v hmem

theorem mem_occurrences (h : Posed P lbs ubs) {v : Variable} {c slot : Nat} :
    (c, slot) ∈ occurrencesOf P.rows v ↔
      ∃ row, P.rows[c]? = some row ∧ row.vars[slot]? = some v :=
  mem_occurrencesOf fun _ => h.nodup_vars

end Posed

end Search
end NonlinearInteger
