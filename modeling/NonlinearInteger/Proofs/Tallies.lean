import NonlinearInteger.Random.Xoshiro
import NonlinearInteger.Proofs.Builders
import NonlinearInteger.Proofs.Moves

/-!
# Tallies of violated constraints

Within the bounds of a search the formula judges every constraint exactly. The
violated ones that a consistent state has filed are those that the formula finds,
so their number, with the value of the objective, rates an assignment.
-/

namespace NonlinearInteger

/-- The positions of the constraints that do not hold of exact values. -/
def Formula.violatedAt (σ : Variable → Int) (f : Formula) : List Nat :=
  (f.constraints.toList.zipIdx.filter fun entry => !decide (entry.1.HoldsAt σ)).map Prod.snd

theorem Formula.mem_violatedAt {σ : Variable → Int} {f : Formula} {c : Nat} :
    c ∈ f.violatedAt σ ↔ ∃ k, f.constraints[c]? = some k ∧ ¬k.HoldsAt σ := by
  simp only [violatedAt, List.mem_map, List.mem_filter, Bool.not_eq_true', decide_eq_false_iff_not,
    Prod.exists, List.mem_zipIdx_iff_getElem?, Array.getElem?_toList, exists_eq_right]

theorem Formula.nodup_violatedAt (σ : Variable → Int) (f : Formula) : (f.violatedAt σ).Nodup := by
  have hsub : (f.violatedAt σ).Sublist (f.constraints.toList.zipIdx.map Prod.snd) :=
    List.Sublist.map _ List.filter_sublist
  apply hsub.nodup
  rw [List.zipIdx_map_snd]
  exact List.nodup_range'

theorem Formula.violatedAt_eq_nil_iff {σ : Variable → Int} {f : Formula} :
    f.violatedAt σ = [] ↔ ∀ c ∈ f.constraints, c.HoldsAt σ := by
  rw [List.eq_nil_iff_forall_not_mem]
  simp only [mem_violatedAt, not_exists, not_and, not_not]
  constructor
  · intro h k hk
    obtain ⟨c, hc⟩ := Array.mem_iff_getElem?.1 hk
    exact h c k hc
  · intro h c k hk
    exact h k (Array.mem_of_getElem? hk)

namespace Search

variable {ρ : Type} {P : Problem} {lbs ubs : Array Int} {a : Assignment}

namespace Posed

theorem satisfied_eq (hP : Posed P lbs ubs) (ha : Inside lbs ubs a) {k : Constraint}
    (hk : k ∈ P.formula.constraints) :
    k.satisfied a.values = .ok (decide (k.HoldsAt (valuation a.values))) := by
  obtain ⟨c, hc⟩ := Array.mem_iff_getElem?.1 hk
  obtain ⟨sense, hsense, -⟩ := hP.row c k hc
  unfold Constraint.satisfied Constraint.HoldsAt
  rw [(hP.tame_constraint ha hk).evaluate]
  simp only [Sense.holds_ofRelation? hsense, Option.some_inj, Bool.decide_eq_true]

theorem violated_eq (hP : Posed P lbs ubs) (ha : Inside lbs ubs a) :
    P.formula.violated a.values = .ok (P.formula.violatedAt (valuation a.values)) :=
  Formula.violated_eq fun _ hk => hP.satisfied_eq ha hk

theorem objectiveValue_eq (hP : Posed P lbs ubs) (ha : Inside lbs ubs a) :
    P.formula.objectiveValue a.values = .ok (P.formula.objective.eval (valuation a.values)) :=
  (hP.tame_objective ha).evaluate

theorem inDomains (hP : Posed P lbs ubs) (ha : Inside lbs ubs a) :
    P.formula.InDomains a.values := by
  refine ⟨ha.size_values.trans hP.size_lbs, fun v hv => ?_⟩
  obtain ⟨d, hd, -, hlb, hub⟩ := hP.bounds.declared v hv
  have hbetween := ha.between v (hP.size_lbs ▸ hv)
  refine ⟨d, hd, Domain.contains_iff.2 ?_⟩
  omega

/-- Verification accepts an assignment within the bounds when no constraint is
violated. -/
theorem verify_eq_ok_iff_violatedAt (hP : Posed P lbs ubs) (ha : Inside lbs ubs a) :
    P.formula.verify a.values = .ok () ↔ P.formula.violatedAt (valuation a.values) = [] := by
  have hsatisfied : P.formula.InDomains a.values → ∀ k ∈ P.formula.constraints,
      k.satisfied a.values = .ok (decide (k.HoldsAt (valuation a.values))) :=
    fun _ k hk => hP.satisfied_eq ha hk
  rw [Formula.verify_eq_ok_of_satisfied hP.formula.domainCount hsatisfied,
    Formula.violatedAt_eq_nil_iff]
  simp [hP.inDomains ha]

end Posed

theorem Filed.perm {σ : Variable → Int} {violated : IndexSet} (h : Filed P σ violated) :
    violated.members.toList.Perm (P.formula.violatedAt σ) := by
  rw [List.perm_ext_iff_of_nodup h.valid.nodup (P.formula.nodup_violatedAt σ)]
  intro c
  rw [← Array.mem_def, h.mem_iff, Formula.mem_violatedAt]
  rfl

theorem Filed.size_eq {σ : Variable → Int} {violated : IndexSet} (h : Filed P σ violated) :
    violated.size = (P.formula.violatedAt σ).length := by
  rw [← h.perm.length_eq]
  exact Array.length_toList.symm

theorem Consistent.isFeasible_iff {s : State ρ} (hs : Consistent P lbs ubs s) :
    s.isFeasible = true ↔ P.formula.violatedAt s.point = [] := by
  rw [← List.length_eq_zero_iff, ← hs.filed.size_eq]
  simp [State.isFeasible, IndexSet.isEmpty, IndexSet.size]

theorem Consistent.isFeasible_iff_violated (hP : Posed P lbs ubs) {s : State ρ}
    (hs : Consistent P lbs ubs s) :
    s.isFeasible = true ↔ P.formula.violated s.assignment.values = .ok [] := by
  rw [hs.isFeasible_iff, hP.violated_eq hs.inside, Except.ok.injEq]
  rfl

/-- The best assignment lies within the bounds, and its rating is right. -/
structure Best (P : Problem) (lbs ubs : Array Int) (s : State ρ) : Prop where
  inside : Inside lbs ubs s.best
  unsat_eq : s.bestUnsat = (P.formula.violatedAt (valuation s.best.values)).length
  objective_eq : s.bestObjective = P.formula.objective.eval (valuation s.best.values)

theorem Best.of_continues {s t : State ρ} (h : Best P lbs ubs s)
    (ht : Continues P lbs ubs s t) : Best P lbs ubs t := by
  refine ⟨?_, ?_, ?_⟩
  · rw [ht.best_eq]
    exact h.inside
  · rw [ht.best_eq, ht.bestUnsat_eq]
    exact h.unsat_eq
  · rw [ht.best_eq, ht.bestObjective_eq]
    exact h.objective_eq

theorem Best.withStep {s : State ρ} (h : Best P lbs ubs s) (step : Nat) :
    Best P lbs ubs { s with step := step } :=
  ⟨h.inside, h.unsat_eq, h.objective_eq⟩

theorem Best.withMoves {s : State ρ} (h : Best P lbs ubs s) (moves : MoveCounts) :
    Best P lbs ubs { s with moves := moves } :=
  ⟨h.inside, h.unsat_eq, h.objective_eq⟩

theorem succeeds_cacheOf {bound : Variable → Int} {k : Constraint} {values : Array Int}
    (h : Tame bound k.poly values) (sense : Sense) :
    Succeeds (Cache.of (Row.of k sense) k values) fun cache =>
      cache.Shows (Row.of k sense) (k.poly.eval (valuation values))
        (k.poly.slopeAt (valuation values)) := by
  have hslope : (fun v => k.poly.slope v values) =
      fun v => (pure (k.poly.slopeAt (valuation values) v) : Checked Int) :=
    funext fun v => h.slope v
  unfold Cache.of
  rw [hslope, Array.mapM_pure, h.evaluate]
  exact .of_pure ⟨rfl, rfl⟩

theorem succeeds_cachesOf {bound : Variable → Int} {values : Array Int} {rows : List Row}
    {cs : List Constraint}
    (h : List.Forall₂ (fun row k => (∃ sense, row = Row.of k sense) ∧ Tame bound k.poly values)
      rows cs) :
    Succeeds (cachesOf values rows cs) fun caches => caches.length = rows.length ∧
      ∀ (c : Nat) (k : Constraint) (row : Row) (cache : Cache), cs[c]? = some k →
        rows[c]? = some row → caches[c]? = some cache →
          cache.Shows row (k.poly.eval (valuation values)) (k.poly.slopeAt (valuation values)) := by
  induction h with
  | nil => exact .of_pure ⟨rfl, by simp⟩
  | @cons row k rows cs hhead _ ih =>
    obtain ⟨⟨sense, rfl⟩, htame⟩ := hhead
    unfold cachesOf
    apply (succeeds_cacheOf htame sense).bind
    intro cache hcache
    refine ih.bind fun caches hcaches => .of_pure ⟨by simp [hcaches.1], ?_⟩
    intro c k' row' cache' hk hrow hget
    cases c with
    | zero =>
      cases hk
      cases hrow
      cases hget
      exact hcache
    | succ c => exact hcaches.2 c k' row' cache' hk hrow hget

theorem mem_violatedIn {rows : List Row} {caches : List Cache} {c : Nat} :
    c ∈ violatedIn rows caches ↔ ∃ row cache, rows[c]? = some row ∧ caches[c]? = some cache ∧
      row.isSatisfied cache = false := by
  simp only [violatedIn, List.mem_map, List.mem_filter, Prod.exists,
    List.mem_zipIdx_iff_getElem?, List.getElem?_zip_eq_some, Bool.not_eq_true', exists_eq_right]
  simp only [and_assoc]

theorem succeeds_addAll {bound : Nat} {cs : List Nat} (hcs : ∀ c ∈ cs, c < bound) :
    Succeeds (cs.foldlM IndexSet.add (IndexSet.empty bound)) fun s =>
      s.Valid bound ∧ ∀ c, c ∈ s.members ↔ c ∈ cs := by
  refine (IndexSet.Valid.foldlM_file id (fun _ => True) ?_ (IndexSet.valid_empty bound)).mono ?_
  · intro t c hc ht
    refine (ht.add (hcs c hc)).mono fun u hu => ⟨hu.1, fun j => ?_⟩
    rw [hu.2 j]
    by_cases hj : j = c <;> simp [hj]
  · rintro s ⟨hvalid, hmem⟩
    refine ⟨hvalid, fun c => ?_⟩
    rw [hmem c]
    simp [IndexSet.empty]

theorem Cached.mem_violatedIn (hP : Posed P lbs ubs) {σ : Variable → Int} {caches : List Cache}
    (h : Cached P σ caches.toArray) {c : Nat} :
    c ∈ violatedIn P.rows.toList caches ↔ Violates P σ c := by
  rw [Search.mem_violatedIn]
  constructor
  · rintro ⟨row, cache, hrow, hcache, hholds⟩
    rw [Array.getElem?_toList] at hrow
    exact (h.violates_iff hP hrow (by simpa using hcache)).2 hholds
  · rintro ⟨k, hk, hholds⟩
    obtain ⟨sense, -, hrow⟩ := hP.row c k hk
    have hlt : c < caches.toArray.size := by
      rw [h.size_eq]
      exact (Array.getElem?_eq_some_iff.1 hrow).1
    have hcache := Array.getElem?_eq_getElem hlt
    have hfails := (h.violates_iff hP hrow hcache).1 ⟨k, hk, hholds⟩
    exact ⟨_, _, by simpa using hrow, by simp, hfails⟩

/-- The state at an assignment within the bounds is consistent, and that
assignment is the best one. -/
theorem succeeds_stateOf (hP : Posed P lbs ubs) (ha : Inside lbs ubs a) (source : ρ) :
    Succeeds (State.of P a source) fun s => Consistent P lbs ubs s ∧ Best P lbs ubs s ∧
      s.assignment = a ∧ s.best = a ∧ s.step = 0 := by
  have hrows : List.Forall₂ (fun row k => (∃ sense, row = Row.of k sense) ∧
      Tame (reach lbs ubs) k.poly a.values) P.rows.toList P.formula.constraints.toList := by
    rw [List.forall₂_iff_get]
    refine ⟨by simpa using hP.size_rows, fun c hc hc' => ?_⟩
    simp only [Array.length_toList] at hc hc'
    obtain ⟨sense, -, hrow⟩ := hP.row c _ (Array.getElem?_eq_getElem hc')
    rw [Array.getElem?_eq_getElem hc] at hrow
    exact ⟨⟨sense, by simpa using hrow⟩, hP.tame_constraint ha (by simp)⟩
  unfold State.of
  apply (succeeds_cachesOf hrows).bind
  intro caches hcaches
  obtain ⟨hlength, hshows⟩ := hcaches
  have hlength : caches.length = P.rows.size := hlength.trans Array.length_toList
  have hcached : Cached P (valuation a.values) caches.toArray := by
    refine ⟨by simpa using hlength, fun c k row cache hk hrow hcache => ?_⟩
    exact hshows c k row cache (by simpa using hk) (by simpa using hrow) (by simpa using hcache)
  apply Succeeds.next (hP.objectiveValue_eq ha)
  have hbound : ∀ c ∈ violatedIn P.rows.toList caches, c < caches.length := by
    intro c hc
    obtain ⟨row, cache, -, hcache, -⟩ := mem_violatedIn.1 hc
    exact (List.getElem?_eq_some_iff.1 hcache).1
  refine (succeeds_addAll hbound).bind fun violated hviolated => .of_pure ?_
  have hfiled : Filed P (valuation a.values) violated := by
    refine ⟨hlength ▸ hviolated.1, fun c => ?_⟩
    rw [hviolated.2 c]
    exact hcached.mem_violatedIn hP
  refine ⟨⟨ha, hcached, hfiled, rfl, by simp⟩, ⟨ha, hfiled.size_eq, rfl⟩, rfl, rfl, rfl⟩

theorem exists_problem_of_start {f : Formula} {settings : Settings} {source : ρ} {s : State ρ}
    (h : start f settings source = .ok (P, s)) :
    ∃ a, Problem.of f settings = .ok (P, a) ∧ State.of P a source = .ok s := by
  obtain ⟨⟨Q, a⟩, hof, h⟩ := bind_eq_ok.1 h
  obtain ⟨t, ht, h⟩ := bind_eq_ok.1 h
  cases pure_eq_ok.1 h
  exact ⟨a, hof, mapError_eq_ok.1 ht⟩

/-- A search that starts does so from a consistent state. -/
theorem start_eq_ok {f : Formula} (hf : f.WellFormed) {settings : Settings} {source : ρ}
    {s : State ρ} (h : start f settings source = .ok (P, s)) :
    P.formula = f ∧ P.settings = settings ∧ Posed P s.assignment.lbs s.assignment.ubs ∧
      Consistent P s.assignment.lbs s.assignment.ubs s ∧
      Best P s.assignment.lbs s.assignment.ubs s ∧ s.best = s.assignment ∧ s.step = 0 := by
  obtain ⟨a, hof, hstate⟩ := exists_problem_of_start h
  obtain ⟨hformula, hsettings, hP, ha⟩ := posed_of hf hof
  obtain ⟨hs, hbest, hassignment, hsame, hstep⟩ := (succeeds_stateOf hP ha source).apply hstate
  rw [hassignment]
  exact ⟨hformula, hsettings, hP, hs, hbest, hsame, hstep⟩

theorem exists_of_start {f : Formula} {settings : Settings} {source : ρ} {s : State ρ}
    (h : start f settings source = .ok (P, s)) : ∃ a caches objective violated,
      cachesOf a.values P.rows.toList P.formula.constraints.toList = .ok caches ∧
      s = {
        assignment := a
        best := a
        caches := caches.toArray
        violated := violated
        objectiveWeight := if violated.isEmpty then 1 else 0
        objective := objective
        bestUnsat := violated.size
        bestObjective := objective
        tabuUntil := Array.replicate P.formula.numVariables 0
        step := 0
        moves := .zero
        source := source } := by
  obtain ⟨a, -, hstate⟩ := exists_problem_of_start h
  obtain ⟨caches, hcaches, hstate⟩ := bind_eq_ok.1 hstate
  obtain ⟨objective, -, hstate⟩ := bind_eq_ok.1 hstate
  obtain ⟨violated, -, hstate⟩ := bind_eq_ok.1 hstate
  exact ⟨a, caches, objective, violated, hcaches, (pure_eq_ok.1 hstate).symm⟩

/-- A cubic and a linear constraint on two variables. -/
def cubic : Formula where
  numVariables := 2
  constraints := #[
    .of (.ofMonomials [.ofFactors [0, 0, 1] 1, .linear 1 (-2)]) .ge 12,
    .of (.ofMonomials [.linear 0 1, .linear 1 3]) .le 20]
  objective := (Polynomial.ofMonomials [.linear 0 (-1), .linear 1 2]).normalize
  domains := #[.standard, ⟨-5, 100⟩]
  names := #[]

theorem built_cubic : cubic.Built := by decide

/-- Settings for short runs that the clock does not end. -/
def shortRun : Settings := { Settings.standard with maxSteps := 50, timeCutoff := false }

theorem exists_start {f : Formula} (hf : f.Built) {settings : Settings} {source : ρ}
    (h : (start f settings source).toOption.isSome = true) : ∃ (P : Problem) (s : State ρ),
      start f settings source = .ok (P, s) ∧ P.formula.numVariables = f.numVariables := by
  cases hstart : start f settings source with
  | error cause =>
    rw [hstart] at h
    cases h
  | ok result =>
    have hformula := (start_eq_ok hf.wellFormed hstart).1
    exact ⟨result.1, result.2, rfl, congrArg Formula.numVariables hformula⟩

theorem start_cubic : ∃ (P : Problem) (s : State Random.Xoshiro),
    start cubic shortRun (.ofSeed 0) = .ok (P, s) ∧ P.formula.numVariables = 2 :=
  exists_start built_cubic (by decide +kernel)

/-- A product with a least value, and an objective that wants its factors great. -/
def bilinear : Formula where
  numVariables := 2
  constraints := #[.of (.ofMonomials [.ofFactors [0, 1] 1]) .ge 4]
  objective := (Polynomial.ofMonomials [.linear 0 (-1), .linear 1 (-2)]).normalize
  domains := #[⟨0, 5⟩, ⟨-3, 7⟩]
  names := #[]

theorem built_bilinear : bilinear.Built := by decide

theorem start_bilinear : ∃ (P : Problem) (s : State Random.Xoshiro),
    start bilinear shortRun (.ofSeed 0) = .ok (P, s) ∧ P.formula.numVariables = 2 :=
  exists_start built_bilinear (by decide +kernel)

end Search
end NonlinearInteger
