import NonlinearInteger.Proofs.Moments
import NonlinearInteger.Proofs.Tracker

/-!
# When the objective is exhausted

A search that raises the objective is left without a step in one situation only: no
constraint is violated and every objective variable is at its upper bound. If all the
coefficients are negative, no assignment within the bounds is then any better.
-/

namespace NonlinearInteger

theorem Polynomial.eval_le_of_neg {p : Polynomial}
    (hlinear : ∀ m ∈ p.monomials, m.isLinear = true) (hneg : ∀ m ∈ p.monomials, m.coef < 0) {σ τ : Variable → Int}
    (hle : ∀ v ∈ p.vars, σ v ≤ τ v) : p.eval τ ≤ p.eval σ := by
  rw [eval, eval, evalTerms_eq_sum, evalTerms_eq_sum]
  refine List.sum_le_sum fun m hm => ?_
  obtain ⟨u, hu⟩ := Monomial.vars_of_isLinear (hlinear m hm)
  have hu_le : σ u ≤ τ u := hle u (mem_vars.2 ⟨m, hm, by simp [hu]⟩)
  simpa [Monomial.eval, hu, Monomial.factorValue] using
    mul_le_mul_of_nonpos_left hu_le (hneg m hm).le

namespace Search

/-- Nothing is violated, and every objective variable is at its upper bound. -/
def Exhausted (f : Formula) (ubs values : Array Int) : Prop :=
  f.violated values = .ok [] ∧ ∀ v ∈ f.objective.vars, values[v]? = ubs[v]?

/-- A value for each variable, within the bounds of an assignment. -/
structure WithinBounds (f : Formula) (bounds : Assignment) (values : Array Int) : Prop where
  size_eq : values.size = f.numVariables
  between : ∀ v < f.numVariables, ∃ lb x ub, bounds.lbs[v]? = some lb ∧ values[v]? = some x ∧
    bounds.ubs[v]? = some ub ∧ lb ≤ x ∧ x ≤ ub

/-- A report of a feasible assignment whose objective is the least that any assignment
within the bounds has. -/
structure Report.Optimal (f : Formula) (bounds : Assignment) (r : Report) : Prop where
  feasible : r.feasible = true
  within : WithinBounds f bounds r.assignment.values
  least : ∃ x, r.objective = some x ∧ f.objectiveValue r.assignment.values = .ok x ∧
    ∀ values, WithinBounds f bounds values → ∃ y, f.objectiveValue values = .ok y ∧ x ≤ y

variable {ρ : Type} {P : Problem} {lbs ubs : Array Int} {s t : State ρ} {v : Variable}

theorem within_of_inside {bounds a : Assignment} (hP : Posed P bounds.lbs bounds.ubs)
    (ha : Inside bounds.lbs bounds.ubs a) : WithinBounds P.formula bounds a.values := by
  refine ⟨hP.size_values ha, fun v hv => ?_⟩
  have hlt : v < bounds.lbs.size := hP.size_lbs ▸ hv
  have hbetween := ha.between v hlt
  exact ⟨_, _, _, getElem?_eq_valuation hlt, hP.getElem?_values ha hv,
    getElem?_eq_valuation (hP.bounds.size_ubs ▸ hv), hbetween.1, hbetween.2⟩

theorem inside_of_within {bounds : Assignment} (hP : Posed P bounds.lbs bounds.ubs)
    {values : Array Int} (h : WithinBounds P.formula bounds values) :
    Inside bounds.lbs bounds.ubs { bounds with values := values } := by
  refine ⟨rfl, rfl, h.size_eq.trans hP.size_lbs.symm, fun v hv => ?_⟩
  obtain ⟨lb, x, ub, hlb, hx, hub, hle, hge⟩ := h.between v (hP.size_lbs ▸ hv)
  simp only [valuation, Array.getD_eq_getD_getElem?, hlb, hx, hub, Option.getD_some]
  exact ⟨hle, hge⟩

theorem exhausted_iff (hP : Posed P lbs ubs) (hs : Consistent P lbs ubs s) :
    Exhausted P.formula ubs s.assignment.values ↔
      s.isFeasible = true ∧ ∀ v ∈ P.objectiveVars, valuation ubs v ≤ s.point v := by
  unfold Exhausted
  rw [← hs.isFeasible_iff_violated hP, ← hP.objectiveVars_eq]
  refine and_congr_right fun _ => forall₂_congr fun v hv => ?_
  have hlt := hP.objectiveVars v hv
  have hbetween := hs.inside.between v (hP.size_lbs ▸ hlt)
  rw [hP.getElem?_values hs.inside hlt, getElem?_eq_valuation (hP.bounds.size_ubs ▸ hlt),
    Option.some_inj]
  exact ⟨fun heq => heq.ge, fun hle => le_antisymm hbetween.2 hle⟩

theorem Unfinished.lt (hP : Posed P lbs ubs) (hs : Consistent P lbs ubs s)
    (h : Unfinished P s v) : s.point v < valuation ubs v := by
  obtain ⟨hv, hne⟩ := h
  have hlt := hP.objectiveVars v hv
  have hbetween := hs.inside.between v (hP.size_lbs ▸ hlt)
  rw [hs.value_eq hP hlt, hs.ub_eq hP hlt] at hne
  exact lt_of_le_of_ne hbetween.2 fun heq => hne (congrArg Except.ok heq)

/-- What is chosen in a feasible state needs an objective variable below its upper
bound, also when it is another variable that moves. -/
theorem Choice.exists_lt (hP : Posed P lbs ubs) (hs : Consistent P lbs ubs s)
    (hstrategy : P.settings.strategy = .objective) (hfeasible : s.isFeasible = true)
    {kind : MoveKind} {m : Move} (h : Choice P s kind m) :
    ∃ v ∈ P.objectiveVars, s.point v < valuation ubs v := by
  cases h with
  | lift _ hlift _ _ _ => cases hlift.symm.trans hstrategy
  | feasibleSat _ hlift _ _ => cases hlift.symm.trans hstrategy
  | objectiveBound _ _ _ _ hm => exact ⟨m.1, hm.1, hm.lt hP hs⟩
  | twoLevel _ _ _ _ hm => exact ⟨m.1, hm.1, hm.lt hP hs⟩
  | sampled _ _ _ _ _ hothers =>
    obtain ⟨v, hv⟩ := hothers
    exact ⟨v, hv.1, hv.lt hP hs⟩
  | feasibleUnsat hviolated _ _ _ => cases hviolated.symm.trans hfeasible

theorem Resort.exists_lt (hstrategy : P.settings.strategy = .objective)
    (hfeasible : s.isFeasible = true) {kind : MoveKind} {m : Move} (h : Resort P s kind m)
    (hm : Allowed P lbs ubs m) : ∃ v ∈ P.objectiveVars, s.point v < valuation ubs v := by
  cases h with
  | randomWalkSat _ hlift _ => cases hlift.symm.trans hstrategy
  | randomWalkUnsat hviolated _ => cases hviolated.symm.trans hfeasible
  | @objectiveStep v _ _ hv => exact ⟨v, hv, Int.lt_of_add_one_le hm.le_ub⟩

/-- There is no step exactly where the objective is exhausted. -/
theorem Transition.exhausted_iff (hP : Posed P lbs ubs) (hs : Consistent P lbs ubs s)
    (hstrategy : P.settings.strategy = .objective) {kind : Option MoveKind}
    (h : Transition P lbs ubs s kind t) :
    Exhausted P.formula ubs s.assignment.values ↔ kind = none := by
  rw [Search.exhausted_iff hP hs]
  cases h with
  | chosen hchoice _ =>
    refine iff_of_false ?_ (by simp)
    rintro ⟨hfeasible, hbounds⟩
    obtain ⟨v, hv, hlt⟩ := hchoice.exists_lt hP hs hstrategy hfeasible
    exact absurd (hbounds v hv) (not_le.2 hlt)
  | resorted hresort _ hm =>
    refine iff_of_false ?_ (by simp)
    rintro ⟨hfeasible, hbounds⟩
    obtain ⟨v, hv, hlt⟩ := hresort.exists_lt hstrategy hfeasible hm.allowed
    exact absurd (hbounds v hv) (not_le.2 hlt)
  | idle hlift _ =>
    refine iff_of_false ?_ (by simp)
    rintro ⟨hfeasible, -⟩
    cases (hlift hfeasible).symm.trans hstrategy
  | exhausted hfeasible _ hbounds _ => exact iff_of_true ⟨hfeasible, hbounds⟩ rfl

variable [RandomSource ρ]

theorem Trail.bestRating_le (hP : Posed P lbs ubs) {last : State ρ}
    {visited : List (MoveKind × State ρ)} (h : Trail P s visited last) (hs : Sound P lbs ubs s)
    (hle : s.bestRating ≤ s.rating) : last.bestRating ≤ last.rating := by
  induction h with
  | nil s => exact hle
  | @cons s t u last kind rest htake hsettle _ ih =>
    have hstepped : Stepped P lbs ubs s kind t u := ⟨hs, htake, hsettle⟩
    have ht := hstepped.continues hP
    have hsettled := (succeeds_settleStep hP ht.consistent (hs.best.of_continues ht) kind).apply
      hsettle
    refine ih ((hstepped.sound_after hP).withStep _) ?_
    change u.bestRating ≤ u.rating
    by_cases hlt : t.rating < t.bestRating
    · rw [(hsettled.improved hlt).2, hsettled.rating_eq]
    · rw [(hsettled.kept hlt).2, hsettled.rating_eq]
      exact not_lt.1 hlt

/-- The end of a run: it stops at the first moment at which the objective is exhausted,
short of the limit, or else makes all the steps that it may. -/
structure StopsWhenExhausted {clock : Clock} (f : Formula) (ubs : Array Int) (maxSteps : Nat)
    (run : Run P clock s) : Prop where
  length_moments : run.moments.length = run.report.steps + 1
  earlier : ∀ i < run.report.steps, ∀ moment, run.moments[i]? = some moment →
    ¬Exhausted f ubs moment.assignment.values
  stop : (run.report.stop = .objectiveExhausted ∧ run.report.steps < maxSteps ∧
      ∃ moment, run.moments[run.report.steps]? = some moment ∧
        Exhausted f ubs moment.assignment.values) ∨
    (run.report.stop = .stepLimit ∧ run.report.steps = maxSteps)

namespace Run

variable {clock : Clock} (run : Run P clock s)

theorem stopsWhenExhausted (hP : Posed P lbs ubs) (hs : Sound P lbs ubs s) (hzero : s.step = 0)
    (hstrategy : P.settings.strategy = .objective) (htime : P.settings.timeCutoff = false) :
    StopsWhenExhausted P.formula ubs P.settings.maxSteps run := by
  have hsteps : run.report.steps = run.visited.length := by
    rw [run.steps_eq hP hs, hzero, Nat.zero_add]
  have hlength := run.length_le
  have hends := run.ends
  have hlast := run.sound hP hs run.getElem?_last
  refine ⟨by simp [Run.moments, Search.moments, hsteps], ?_, ?_⟩
  · intro i hi moment hmoment hexhausted
    rw [hsteps] at hi
    have hstep : run.HasStep i moment run.visited[i].1 run.visited[i].2 :=
      ⟨hmoment, List.getElem?_eq_getElem hi⟩
    obtain ⟨taken, hstepped⟩ := run.stepped hP hs hstep
    have hnone := ((hstepped.transition hP).exhausted_iff hP hstepped.sound.consistent
      hstrategy).1 hexhausted
    cases hnone
  · rw [hsteps]
    rw [hzero, Nat.sub_zero] at hends hlength
    generalize run.report.stop = stop at hends ⊢
    generalize hleft : P.settings.maxSteps - run.visited.length = left at hends
    generalize run.result = result at hends
    cases hends with
    | stepLimit _ => exact .inr ⟨rfl, by omega⟩
    | timeLimit _ hup =>
      -- The clock is not read without a time limit.
      simp [timeIsUp, htime] at hup
    | exhausted _ htake =>
      have htransition := transition_of_takeStep hP hlast.consistent htake
      have hexhausted := (htransition.exhausted_iff hP hlast.consistent hstrategy).2 rfl
      exact .inl ⟨rfl, by omega, run.last, run.getElem?_last, hexhausted⟩

/-- A run that ends with an exhausted objective has found the least one there is, if
all coefficients are negative. -/
theorem optimal {bounds : Assignment} (hP : Posed P bounds.lbs bounds.ubs)
    (hs : Sound P bounds.lbs bounds.ubs s) (hle : s.bestRating ≤ s.rating)
    (hneg : ∀ m ∈ P.formula.objective.monomials, m.coef < 0)
    (hexhausted : Exhausted P.formula bounds.ubs run.last.assignment.values) :
    run.report.Optimal P.formula bounds := by
  have hlast := run.sound hP hs run.getElem?_last
  have hrating := run.trail.bestRating_le hP hs hle
  obtain ⟨hcontinues, hresult⟩ := run.continues_result hP hs
  obtain ⟨hfeasible, hbounds⟩ := (exhausted_iff hP hlast.consistent).1 hexhausted
  have hnone : run.last.violated.size = 0 := by
    simpa [State.isFeasible, IndexSet.isEmpty, IndexSet.size] using hfeasible
  rw [State.bestRating, State.rating, hnone, Prod.Lex.toLex_le_toLex] at hrating
  obtain ⟨hunsat, hobjective⟩ : run.result.bestUnsat = 0 ∧
      run.result.bestObjective ≤ run.last.objective := by
    rw [hcontinues.bestUnsat_eq, hcontinues.bestObjective_eq]
    simpa using hrating
  have hreport : run.report.objective = some run.result.bestObjective := by
    rw [run.report_eq]
    exact if_pos (beq_iff_eq.2 hunsat)
  rw [run.report_eq] at hreport ⊢
  refine ⟨beq_iff_eq.2 hunsat, within_of_inside hP hresult.best.inside, _, hreport, ?_, ?_⟩
  · rw [hresult.best.objective_eq]
    exact hP.objectiveValue_eq hresult.best.inside
  · intro values hvalues
    have hinside := inside_of_within hP hvalues
    have hvalue := hP.objectiveValue_eq hinside
    refine ⟨_, hvalue, hobjective.trans ?_⟩
    rw [hlast.consistent.objective_eq]
    refine Polynomial.eval_le_of_neg hP.linear hneg fun v hv => ?_
    rw [← hP.objectiveVars_eq] at hv
    have hbetween := hinside.between v (hP.size_lbs ▸ hP.objectiveVars v hv)
    exact hbetween.2.trans (hbounds v hv)

end Run

/-- A search that raises the objective, and is not timed, stops exactly where its
objective is exhausted. If all coefficients are negative it then reports the least
objective within its bounds. -/
theorem stopsWhenExhausted_of_start {f : Formula} (hf : f.Built) {settings : Settings}
    (hstrategy : settings.strategy = .objective) (htime : settings.timeCutoff = false) {source : ρ}
    {first : State ρ} (hstart : start f settings source = .ok (P, first)) (clock : Clock) :
    Nonempty (Run P clock first) ∧ ∀ run : Run P clock first,
      StopsWhenExhausted f first.assignment.ubs settings.maxSteps run ∧
        (run.report.stop = .objectiveExhausted → (∀ m ∈ f.objective.monomials, m.coef < 0) →
          run.report.Optimal f first.assignment) := by
  obtain ⟨rfl, rfl, hP, hs, hbest, hsame, hzero⟩ := start_eq_ok hf.wellFormed hstart
  have hsound := sound_first hf hstart
  have hrating := (keepsLeast_first hs hbest hsame).le_of_mem (List.mem_singleton_self first)
  refine ⟨Run.nonempty hP hsound clock, fun run => ?_⟩
  have hstops := run.stopsWhenExhausted hP hsound hzero hstrategy htime
  refine ⟨hstops, fun hstop hneg => run.optimal hP hsound hrating hneg ?_⟩
  rcases hstops.stop with ⟨-, -, moment, hmoment, hexhausted⟩ | ⟨hlimit, -⟩
  · rw [run.steps_eq hP hsound, hzero, Nat.zero_add] at hmoment
    cases hmoment.symm.trans run.getElem?_last
    exact hexhausted
  · cases hlimit.symm.trans hstop

theorem stopsWhenExhausted_of_bilinear : ∃ (P : Problem) (first : State Random.Xoshiro),
    bilinear.Built ∧ shortRun.strategy = .objective ∧ shortRun.timeCutoff = false ∧
      start bilinear shortRun (.ofSeed 0) = .ok (P, first) ∧
      Nonempty (Run P .never first) ∧ ∀ run : Run P .never first,
        StopsWhenExhausted bilinear first.assignment.ubs 50 run ∧
          (run.report.stop = .objectiveExhausted →
            (∀ m ∈ bilinear.objective.monomials, m.coef < 0) →
              run.report.Optimal bilinear first.assignment) := by
  obtain ⟨P, first, hstart, -⟩ := start_bilinear
  exact ⟨P, first, built_bilinear, rfl, rfl, hstart,
    stopsWhenExhausted_of_start built_bilinear rfl rfl hstart .never⟩

end Search
end NonlinearInteger
