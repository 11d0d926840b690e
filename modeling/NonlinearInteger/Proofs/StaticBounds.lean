import NonlinearInteger.Proofs.Exhaustion

/-!
# Static bounds

A search keeps every variable between its declared lower bound and the least of its
declared upper bound and the limits of the constraints with an upper limit that mention
it, whatever else these constraints add or take away. So a solution may lie outside the
bounds: it does when one of its values is above such a limit, and only then.
-/

namespace NonlinearInteger

namespace Formula

/-- Values inside the declared domains of which every constraint holds exactly. -/
structure Solution (f : Formula) (values : Array Int) : Prop where
  inDomains : f.InDomains values
  holds : ∀ k ∈ f.constraints, k.HoldsAt (valuation values)

/-- Whether a constraint caps a variable with its limit: it limits from above, mentions
the variable, and its limit is not below what the variable is declared to be at least. -/
def Caps (f : Formula) (k : Constraint) (v : Variable) : Prop :=
  k.relation = .le ∧ v ∈ k.poly.vars ∧ ∀ d ∈ f.domains[v]?, d.lb ≤ k.limit

/-- Whether a value is at most every limit that caps its variable. -/
def UnderCaps (f : Formula) (values : Array Int) (v : Variable) : Prop :=
  ∀ k ∈ f.constraints, f.Caps k v → valuation values v ≤ k.limit

/-- A constraint whose value is at least that of each variable it mentions: it adds
nonnegative terms only, and each variable has one whose other factors are positive. -/
structure Dominates (f : Formula) (k : Constraint) : Prop where
  coef_pos : ∀ m ∈ k.poly.monomials, 0 < m.coef
  lb_nonneg : ∀ v ∈ k.poly.vars, ∀ d ∈ f.domains[v]?, 0 ≤ d.lb
  exists_term : ∀ v ∈ k.poly.vars, ∃ m ∈ k.poly.monomials, v ∈ m.vars ∧
    ∀ w ∈ m.vars, w ≠ v → ∀ d ∈ f.domains[w]?, 1 ≤ d.lb

end Formula

namespace Monomial

theorem factorValue_nonneg {σ : Variable → Int} {vs : List Variable} (h : ∀ v ∈ vs, 0 ≤ σ v) :
    0 ≤ factorValue σ vs := by
  induction vs with
  | nil => exact zero_le_one
  | cons v vs ih =>
    exact mul_nonneg (h v List.mem_cons_self) (ih fun w hw => h w (List.mem_cons_of_mem v hw))

theorem le_factorValue {σ : Variable → Int} {vs : List Variable} (h : ∀ w ∈ vs, 1 ≤ σ w)
    {v : Variable} (hv : v ∈ vs) : σ v ≤ factorValue σ vs := by
  have hothers : 1 ≤ factorValue σ (vs.erase v) :=
    one_le_factorValue fun w hw => h w (List.mem_of_mem_erase hw)
  rw [← factorValue_erase σ hv]
  exact le_mul_of_one_le_left (zero_le_one.trans (h v hv)) hothers

end Monomial

namespace Formula

variable {f : Formula} {k : Constraint} {values : Array Int}

/-- Inside the declared domains a dominating constraint is at least each variable. -/
theorem Dominates.le_eval (h : f.Dominates k) {σ : Variable → Int}
    (hlb : ∀ v ∈ k.poly.vars, ∃ d, f.domains[v]? = some d ∧ d.lb ≤ σ v) {v : Variable}
    (hv : v ∈ k.poly.vars) : σ v ≤ k.poly.eval σ := by
  have hnonneg : ∀ w ∈ k.poly.vars, 0 ≤ σ w := by
    intro w hw
    obtain ⟨d, hd, hle⟩ := hlb w hw
    exact (h.lb_nonneg w hw d hd).trans hle
  have hterms : ∀ x ∈ k.poly.monomials.map (·.eval σ), 0 ≤ x := by
    intro x hx
    obtain ⟨m, hm, rfl⟩ := List.mem_map.1 hx
    have hfactors : 0 ≤ Monomial.factorValue σ m.vars :=
      Monomial.factorValue_nonneg fun w hw => hnonneg w (Polynomial.mem_vars.2 ⟨m, hm, hw⟩)
    exact mul_nonneg (h.coef_pos m hm).le hfactors
  rw [Polynomial.eval, Polynomial.evalTerms_eq_sum]
  obtain hzero | hpos := (hnonneg v hv).eq_or_lt
  · rw [← hzero]
    exact List.sum_nonneg hterms
  · obtain ⟨m, hm, hvm, hothers⟩ := h.exists_term v hv
    have hone : ∀ w ∈ m.vars, 1 ≤ σ w := by
      intro w hw
      by_cases hwv : w = v
      · exact hwv ▸ hpos
      · obtain ⟨d, hd, hle⟩ := hlb w (Polynomial.mem_vars.2 ⟨m, hm, hw⟩)
        exact (hothers w hw hwv d hd).trans hle
    have hfactors := Monomial.le_factorValue hone hvm
    calc
      σ v ≤ Monomial.factorValue σ m.vars := hfactors
      _ ≤ m.eval σ := le_mul_of_one_le_left (hpos.le.trans hfactors) (h.coef_pos m hm)
      _ ≤ (k.poly.monomials.map (·.eval σ)).sum :=
        List.single_le_sum hterms _ (List.mem_map_of_mem hm)

/-- If all constraints with an upper limit dominate, solutions are under their caps. -/
theorem Solution.underCaps (hf : f.WellFormed)
    (hdominates : ∀ k ∈ f.constraints, k.relation = .le → f.Dominates k)
    (h : f.Solution values) (v : Variable) : f.UnderCaps values v := by
  rintro k hk ⟨hle, hv, -⟩
  have hlb : ∀ w ∈ k.poly.vars, ∃ d, f.domains[w]? = some d ∧ d.lb ≤ valuation values w := by
    intro w hw
    obtain ⟨m, hm, hmem⟩ := Polynomial.mem_vars.1 hw
    obtain ⟨d, hd, hcontains⟩ := h.inDomains.2 w ((hf.constraints k hk m hm).2 w hmem)
    simp only [Domain.contains, decide_eq_true_eq] at hcontains
    exact ⟨d, hd, hcontains.1⟩
  have hholds : k.poly.eval (valuation values) ≤ k.limit := by
    simpa [Constraint.HoldsAt, hle, Relation.holds] using h.holds k hk
  exact ((hdominates k hk hle).le_eval hlb hv).trans hholds

end Formula

namespace Search

variable {ρ : Type} {P : Problem} {f : Formula} {settings : Settings} {source : ρ}
  {first : State ρ}

theorem Sense.ofRelation?_eq_le_iff {r : Relation} : Sense.ofRelation? r = some .le ↔ r = .le := by
  cases r <;> simp [Sense.ofRelation?]

theorem mem_rowsOf {index : Nat} {cs : List Constraint} {rows : List Row}
    (h : rowsOf index cs = .ok rows) {row : Row} : row ∈ rows ↔
      ∃ k ∈ cs, ∃ sense, Sense.ofRelation? k.relation = some sense ∧ row = Row.of k sense := by
  induction cs generalizing index rows with
  | nil =>
    cases h
    simp
  | cons k cs ih =>
    unfold rowsOf at h
    split at h
    · cases h
    · rename_i sense hsense
      obtain ⟨rest, hrest, h⟩ := bind_eq_ok.1 h
      rw [← pure_eq_ok.1 h]
      simp [ih hrest, hsense]

/-- The initial bounds are the declared ones, lowered to the limits of the constraints that
limit from above. -/
theorem tightened_of_rows {index : Nat} {rows : List Row} {a : Assignment}
    (hrows : rowsOf index f.constraints.toList = .ok rows)
    (h : initial f rows.toArray = .ok a) : Tightened (declared f) a fun v limit =>
      ∃ k ∈ f.constraints, k.relation = .le ∧ v ∈ k.poly.vars ∧ limit = k.limit := by
  refine (tightened_of_initial h).congr fun v limit => ?_
  constructor
  · rintro ⟨row, hrow, hle, hv, hlimit⟩
    obtain ⟨k, hk, sense, hsense, rfl⟩ := (mem_rowsOf hrows).1 hrow
    cases hle
    exact ⟨k, Array.mem_def.2 hk, Sense.ofRelation?_eq_le_iff.1 hsense,
      Polynomial.mem_vars.2 ((Row.mem_vars k _).1 hv), hlimit⟩
  · rintro ⟨k, hk, hle, hv, hlimit⟩
    have hrow := (mem_rowsOf hrows).2
      ⟨k, Array.mem_def.1 hk, .le, Sense.ofRelation?_eq_le_iff.2 hle, rfl⟩
    exact ⟨_, hrow, rfl, (Row.mem_vars k _).2 (Polynomial.mem_vars.1 hv), hlimit⟩

theorem initial_of_start (hf : f.WellFormed)
    (hstart : start f settings source = .ok (P, first)) :
    ∃ rows, rowsOf 0 f.constraints.toList = .ok rows ∧
      initial f rows.toArray = .ok first.assignment := by
  obtain ⟨a, hof, hstate⟩ := exists_problem_of_start hstart
  obtain ⟨-, -, hP, ha⟩ := posed_of hf hof
  obtain ⟨-, -, hassignment, -⟩ := (succeeds_stateOf hP ha source).apply hstate
  rw [hassignment]
  obtain ⟨rows, -, hrows, -, hinitial, -⟩ := problem_of_eq_ok hof
  exact ⟨rows, hrows, hinitial⟩

theorem tightened_of_start (hf : f.WellFormed)
    (hstart : start f settings source = .ok (P, first)) :
    Tightened (declared f) first.assignment fun v limit =>
      ∃ k ∈ f.constraints, k.relation = .le ∧ v ∈ k.poly.vars ∧ limit = k.limit := by
  obtain ⟨rows, hrows, hinitial⟩ := initial_of_start hf hstart
  exact tightened_of_rows hrows hinitial

/-- Where values inside the declared domains lie: none is below the bounds, and those above
are the ones that are not under their caps. -/
structure Placed (f : Formula) (bounds : Assignment) (values : Array Int) (v : Variable) :
    Prop where
  lb_le : ∃ lb x, bounds.lbs[v]? = some lb ∧ values[v]? = some x ∧ lb ≤ x
  le_ub_iff : ∃ x ub, values[v]? = some x ∧ bounds.ubs[v]? = some ub ∧
    (x ≤ ub ↔ f.UnderCaps values v)

theorem Placed.between {bounds : Assignment} {values : Array Int} {v : Variable}
    (h : Placed f bounds values v) (hcaps : f.UnderCaps values v) : ∃ lb x ub,
      bounds.lbs[v]? = some lb ∧ values[v]? = some x ∧ bounds.ubs[v]? = some ub ∧
        lb ≤ x ∧ x ≤ ub := by
  obtain ⟨lb, x, hlb, hx, hle⟩ := h.lb_le
  obtain ⟨y, ub, hy, hub, hiff⟩ := h.le_ub_iff
  cases hx.symm.trans hy
  exact ⟨lb, x, ub, hlb, hx, hub, hle, hiff.2 hcaps⟩

theorem placed_of_start (hf : f.WellFormed)
    (hstart : start f settings source = .ok (P, first)) {values : Array Int}
    (hin : f.InDomains values) {v : Variable} (hv : v < f.numVariables) :
    Placed f first.assignment values v := by
  obtain ⟨rfl, -, hP, -⟩ := start_eq_ok hf hstart
  have htight := tightened_of_start hf hstart
  obtain ⟨d, hd, hcontains⟩ := hin.2 v hv
  obtain ⟨hlb, hub⟩ := valuation_declared hd
  simp only [Domain.contains, decide_eq_true_eq] at hcontains
  have hx : values[v]? = some (valuation values v) := getElem?_eq_valuation (hin.1 ▸ hv)
  refine ⟨⟨_, _, getElem?_eq_valuation (hP.bounds.size_lbs ▸ hv), hx, ?_⟩,
    ⟨_, _, hx, getElem?_eq_valuation (hP.bounds.size_ubs ▸ hv), ?_⟩⟩
  · rw [htight.lbs_eq, hlb]
    exact hcontains.1
  · rw [htight.le_ub_iff, hlb, hub, and_iff_right hcontains.2]
    constructor
    · rintro hlimits k hk ⟨hle, hmem, hadmits⟩
      exact hlimits k.limit ⟨k, hk, hle, hmem, rfl⟩ (hadmits d hd)
    · rintro hcaps limit ⟨k, hk, hle, hmem, rfl⟩ hadmits
      refine hcaps k hk ⟨hle, hmem, fun d' hd' => ?_⟩
      cases hd.symm.trans hd'
      exact hadmits

/-- No value of a solution is below the static bounds, and one is above them exactly when
it is above a limit that caps its variable. If all the constraints that limit from above
dominate their variables, every solution lies within the bounds. -/
theorem placed_of_solution (hf : f.Built)
    (hstart : start f settings source = .ok (P, first)) :
    (∀ values, f.Solution values → ∀ v < f.numVariables,
      Placed f first.assignment values v) ∧
    ((∀ k ∈ f.constraints, k.relation = .le → f.Dominates k) →
      ∀ values, f.Solution values → WithinBounds f first.assignment values) := by
  have hplaced : ∀ values, f.Solution values → ∀ v < f.numVariables,
      Placed f first.assignment values v :=
    fun _ h _ hv => placed_of_start hf.wellFormed hstart h.inDomains hv
  refine ⟨hplaced, fun hdominates values h => ⟨h.inDomains.1, fun v hv => ?_⟩⟩
  exact (hplaced values h v hv).between (h.underCaps hf.wellFormed hdominates v)

/-- A sum and a product, each with all its variables at most the limit. -/
def bounded : Formula where
  numVariables := 2
  constraints := #[.of (.ofMonomials [.linear 0 1, .ofFactors [0, 1] 2]) .le 9]
  objective := (Polynomial.ofMonomials [.linear 1 (-1)]).normalize
  domains := #[⟨1, 20⟩, ⟨0, 20⟩]
  names := #[]

theorem built_bounded : bounded.Built := by decide

theorem start_bounded : ∃ (P : Problem) (s : State Random.Xoshiro),
    start bounded shortRun (.ofSeed 0) = .ok (P, s) ∧ P.formula.numVariables = 2 :=
  exists_start built_bounded (by decide +kernel)

theorem placed_of_bounded : ∃ (P : Problem) (first : State Random.Xoshiro),
    bounded.Built ∧ start bounded shortRun (.ofSeed 0) = .ok (P, first) ∧
      (∀ values, bounded.Solution values → ∀ v < bounded.numVariables,
        Placed bounded first.assignment values v) ∧
      (∀ k ∈ bounded.constraints, k.relation = .le → bounded.Dominates k) ∧
      ∀ values, bounded.Solution values → WithinBounds bounded first.assignment values := by
  obtain ⟨P, first, hstart, -⟩ := start_bounded
  have hdominates : ∀ k ∈ bounded.constraints, k.relation = .le → bounded.Dominates k := by
    intro k hk _
    obtain rfl : k = .of (.ofMonomials [.linear 0 1, .ofFactors [0, 1] 2]) .le 9 := by
      simpa [bounded] using hk
    exact ⟨by decide, by decide, by decide⟩
  obtain ⟨hplaced, hwithin⟩ := placed_of_solution built_bounded hstart
  exact ⟨P, first, built_bounded, hstart, hplaced, hdominates, hwithin hdominates⟩

/-- One variable is at most another. -/
def ascending : Formula where
  numVariables := 2
  constraints := #[.of (.ofMonomials [.linear 0 1, .linear 1 (-1)]) .le 0]
  objective := .empty
  domains := #[⟨0, 5⟩, ⟨0, 5⟩]
  names := #[]

theorem built_ascending : ascending.Built := by decide

theorem start_ascending : ∃ (P : Problem) (s : State Random.Xoshiro),
    start ascending shortRun (.ofSeed 0) = .ok (P, s) ∧ P.formula.numVariables = 2 :=
  exists_start built_ascending (by decide +kernel)

/-- The limit on a difference caps both its variables, and a solution is lost. -/
theorem solution_outside_bounds : ∃ (P : Problem) (first : State Random.Xoshiro),
    ascending.Built ∧ start ascending shortRun (.ofSeed 0) = .ok (P, first) ∧
      ascending.Solution #[5, 5] ∧ ascending.verify #[5, 5] = .ok () ∧
      ¬WithinBounds ascending first.assignment #[5, 5] := by
  obtain ⟨P, first, hstart, -⟩ := start_ascending
  have hin : ascending.InDomains #[5, 5] := (Formula.firstOutside_eq_none_iff rfl rfl).1 rfl
  refine ⟨P, first, built_ascending, hstart, ⟨hin, by decide⟩, rfl, fun hwithin => ?_⟩
  obtain ⟨x, ub, hx, hub, hiff⟩ :=
    (placed_of_start built_ascending.wellFormed hstart hin (v := 0) (by decide)).le_ub_iff
  obtain ⟨_, y, ub', -, hy, hub', -, hle⟩ := hwithin.between 0 (by decide)
  cases hx.symm.trans hy
  cases hub.symm.trans hub'
  have hcaps := hiff.1 hle _ (Array.mem_of_getElem? (i := 0) rfl) ⟨rfl, by decide, by decide⟩
  exact absurd hcaps (by decide)

end Search
end NonlinearInteger
