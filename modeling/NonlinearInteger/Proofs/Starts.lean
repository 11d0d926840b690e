import NonlinearInteger.Proofs.StaticBounds

/-!
# Formulas that can be searched

Whether a search can start depends on the formula and the settings alone: greedy starts,
equations, objective terms of another degree than one and magnitudes beyond an eighth of the
128-bit range are refused, in this order, and nothing else is. On a well-formed formula no
start ends in a fault.
-/

namespace NonlinearInteger

open Search (maxMagnitude)

namespace Monomial

theorem size_congr {bound bound' : Variable → Int} {m : Monomial}
    (h : ∀ v ∈ m.vars, bound v = bound' v) : m.size bound = m.size bound' := by
  rw [size, size, factorValue_congr h]

theorem isLinear_iff {m : Monomial} (hm : m.isEmpty = false) :
    m.isLinear = true ↔ m.vars.length = 1 := by
  have hcoef : m.coef ≠ 0 := by
    simp only [isEmpty, Bool.or_eq_false_iff, beq_eq_false_iff_ne] at hm
    exact hm.2
  simp [isLinear, hcoef]

end Monomial

theorem Polynomial.size_congr {bound bound' : Variable → Int} {n : Nat} {p : Polynomial}
    (hp : p.Over n) (h : ∀ v < n, bound v = bound' v) : p.size bound = p.size bound' :=
  congrArg List.sum <| List.map_congr_left fun m hm =>
    Monomial.size_congr fun v hv => h v ((hp m hm).2 v hv)

namespace Formula

instance (f : Formula) (k : Constraint) (v : Variable) : Decidable (f.Caps k v) :=
  inferInstanceAs (Decidable (k.relation = .le ∧ v ∈ k.poly.vars ∧
    ∀ d ∈ f.domains[v]?, d.lb ≤ k.limit))

/-- The declared lower bound. -/
def staticLb (f : Formula) (v : Variable) : Int := (f.domains.getD v .standard).lb

/-- The limits that cap a variable. -/
def capsOf (f : Formula) (v : Variable) : List Int :=
  (f.constraints.toList.filter fun k => decide (f.Caps k v)).map Constraint.limit

/-- The least of the declared upper bound and the limits that cap the variable. -/
def staticUb (f : Formula) (v : Variable) : Int :=
  (f.capsOf v).foldr min (f.domains.getD v .standard).ub

/-- The greatest absolute value between the static bounds, at least one. -/
def staticReach (f : Formula) (v : Variable) : Int :=
  max (max |f.staticLb v| |f.staticUb v|) 1

/-- A polynomial whose magnitude within the static bounds can be computed and is at most an
eighth of the 128-bit range. -/
def Bounded (f : Formula) (p : Polynomial) : Prop :=
  ∃ bound, p.magnitudeBound (fun v => .ok (f.staticReach v)) = .ok bound ∧ bound ≤ maxMagnitude

/-- The formulas that can be searched with given settings. -/
structure Searchable (f : Formula) (settings : Search.Settings) : Prop where
  notGreedy : settings.greedyInit = false
  inequalities : ∀ k ∈ f.constraints, k.relation = .le ∨ k.relation = .ge
  linear : ∀ m ∈ f.objective.monomials, m.vars.length = 1
  constraints : ∀ k ∈ f.constraints, f.Bounded k.poly
  objective : f.Bounded f.objective

instance (f : Formula) (p : Polynomial) : Decidable (f.Bounded p) :=
  match h : p.magnitudeBound fun v => .ok (f.staticReach v) with
  | .ok bound => decidable_of_iff (bound ≤ maxMagnitude) (by simp [Bounded, h])
  | .error _ => isFalse (by simp [Bounded, h])

instance (f : Formula) (settings : Search.Settings) : Decidable (f.Searchable settings) :=
  decidable_of_iff (settings.greedyInit = false ∧
      (∀ k ∈ f.constraints, k.relation = .le ∨ k.relation = .ge) ∧
      (∀ m ∈ f.objective.monomials, m.vars.length = 1) ∧
      (∀ k ∈ f.constraints, f.Bounded k.poly) ∧ f.Bounded f.objective)
    ⟨fun h => ⟨h.1, h.2.1, h.2.2.1, h.2.2.2.1, h.2.2.2.2⟩,
      fun h => ⟨h.notGreedy, h.inequalities, h.linear, h.constraints, h.objective⟩⟩

variable {f : Formula}

theorem le_staticUb_iff {v : Variable} {x : Int} : x ≤ f.staticUb v ↔
    x ≤ (f.domains.getD v .standard).ub ∧ ∀ k ∈ f.constraints, f.Caps k v → x ≤ k.limit := by
  have hfold : ∀ (limits : List Int) (ub : Int),
      x ≤ limits.foldr min ub ↔ x ≤ ub ∧ ∀ limit ∈ limits, x ≤ limit := by
    intro limits ub
    induction limits with
    | nil => simp
    | cons limit limits ih =>
      rw [List.foldr_cons, le_min_iff, ih, List.forall_mem_cons, and_left_comm]
  rw [staticUb, hfold, capsOf, List.forall_mem_map]
  simp

theorem one_le_staticReach (f : Formula) (v : Variable) : 1 ≤ f.staticReach v :=
  Int.le_max_right ..

theorem bounded_iff {p : Polynomial} (hp : p.Over f.numVariables) :
    f.Bounded p ↔ p.size f.staticReach ≤ maxMagnitude := by
  have hone : ∀ v < f.numVariables, 1 ≤ f.staticReach v := fun v _ => f.one_le_staticReach v
  have hsize : 0 ≤ p.size f.staticReach := Polynomial.size_nonneg (.self hone) hp.among
  have hmax : maxMagnitude ≤ Wide.greatest := by decide
  rw [Bounded, Polynomial.magnitudeBound_eq hp.among (fun _ _ => rfl) hone]
  constructor
  · rintro ⟨bound, hbound, hle⟩
    rw [Wide.exact_eq_ok] at hbound
    rw [hbound.1]
    exact hle
  · intro hle
    exact ⟨_, Wide.exact_of_fits ((Wide.fits_iff_of_nonneg hsize).2 (hle.trans hmax)), hle⟩

end Formula

namespace Search

variable {ρ : Type} {f : Formula} {settings : Settings}

theorem valuation_of_tightened (hf : f.WellFormed) {a : Assignment}
    (h : Tightened (declared f) a fun v limit =>
      ∃ k ∈ f.constraints, k.relation = .le ∧ v ∈ k.poly.vars ∧ limit = k.limit)
    {v : Variable} (hv : v < f.numVariables) :
    valuation a.lbs v = f.staticLb v ∧ valuation a.ubs v = f.staticUb v := by
  have hd : f.domains[v]? = some (f.domains.getD v .standard) := by
    simp [hf.domainCount, hv]
  obtain ⟨hlb, hub⟩ := valuation_declared hd
  refine ⟨by rw [h.lbs_eq, hlb, Formula.staticLb], eq_of_forall_le_iff fun x => ?_⟩
  rw [h.le_ub_iff, Formula.le_staticUb_iff, hlb, hub]
  refine and_congr_right fun _ => ?_
  constructor
  · rintro hlimits k hk ⟨hle, hmem, hcaps⟩
    exact hlimits k.limit ⟨k, hk, hle, hmem, rfl⟩ (hcaps _ hd)
  · rintro hcaps limit ⟨k, hk, hle, hmem, rfl⟩ hlb
    refine hcaps k hk ⟨hle, hmem, fun d hd' => ?_⟩
    cases hd.symm.trans hd'
    exact hlb

/-- Whatever the order of the constraints, the start finds the static bounds, and between
these every value can be clamped. -/
structure Clamps (f : Formula) : Prop where
  ordered : ∀ v < f.numVariables, f.staticLb v ≤ f.staticUb v
  found : ∀ {rows : List Row} {a : Assignment}, rowsOf 0 f.constraints.toList = .ok rows →
    initial f rows.toArray = .ok a → ∀ v < f.numVariables,
      valuation a.lbs v = f.staticLb v ∧ valuation a.ubs v = f.staticUb v

theorem clamps_of_wellFormed (hf : f.WellFormed) : Clamps f where
  ordered v hv := by
    have hlt : v < f.domains.size := hf.domainCount ▸ hv
    have hd : f.domains[v]? = some (f.domains.getD v .standard) := by simp [hlt]
    have hproper := hf.domains _ (Array.mem_of_getElem? hd)
    rw [Formula.le_staticUb_iff]
    exact ⟨hproper.ordered, fun k _ hcaps => hcaps.2.2 _ hd⟩
  found hrows h v hv := valuation_of_tightened hf (tightened_of_rows hrows h) hv

/-- A search starts at the values nearest to zero between the static bounds. -/
theorem assignment_of_start (hf : f.WellFormed) {source : ρ} {P : Problem} {first : State ρ}
    (hstart : start f settings source = .ok (P, first)) {v : Variable}
    (hv : v < f.numVariables) : first.assignment.lbs[v]? = some (f.staticLb v) ∧
      first.assignment.ubs[v]? = some (f.staticUb v) ∧
      first.assignment.values[v]? = some (nearestZero (f.staticLb v) (f.staticUb v)) := by
  obtain ⟨rows, hrows, hinitial⟩ := initial_of_start hf hstart
  obtain ⟨hbounds, hinside⟩ := inside_initial hf hinitial
  obtain ⟨hlb, hub⟩ := (clamps_of_wellFormed hf).found hrows hinitial v hv
  have hlt : v < first.assignment.lbs.size := hbounds.size_lbs ▸ hv
  have hsize := hbounds.size_lbs.trans hbounds.size_ubs.symm
  refine ⟨hlb ▸ getElem?_eq_valuation hlt, hub ▸ getElem?_eq_valuation (hsize ▸ hlt), ?_⟩
  rw [getElem?_eq_valuation (hinside.size_values ▸ hlt), ← hlb, ← hub]
  obtain ⟨a, -, hsettle⟩ := bind_eq_ok.1 hinitial
  have hsettle := pure_eq_ok.1 hsettle
  rw [← hsettle] at hlt hsize ⊢
  exact congrArg some (valuation_settle hsize hlt)

/-- A stage of the start ends without a fault, and succeeds exactly under a condition. -/
structure Judges {α : Type} (x : Except StartError α) (p : Prop) : Prop where
  ok_iff : (∃ a, x = .ok a) ↔ p
  no_fault : ∀ cause, x ≠ .error (.fault cause)

namespace Judges

variable {α β : Type} {x : Except StartError α} {p q : Prop}

theorem pass {a : α} (hp : p) : Judges (.ok a : Except StartError α) p :=
  ⟨iff_of_true ⟨a, rfl⟩ hp, nofun⟩

theorem refuse {cause : StartError} (h : ∀ fault, cause ≠ .fault fault) (hp : ¬p) :
    Judges (.error cause : Except StartError α) p :=
  ⟨iff_of_false nofun hp, fun fault heq => h fault (Except.error.inj heq)⟩

theorem congr (h : Judges x p) (hpq : p ↔ q) : Judges x q :=
  ⟨h.ok_iff.trans hpq, h.no_fault⟩

theorem bind {f : α → Except StartError β} (hx : Judges x p)
    (hf : ∀ a, x = .ok a → Judges (f a) q) : Judges (x >>= f) (p ∧ q) := by
  cases x with
  | error cause =>
    refine ⟨iff_of_false nofun fun h => ?_, fun fault heq => ?_⟩
    · obtain ⟨_, h⟩ := hx.ok_iff.2 h.1
      cases h
    · cases heq
      exact hx.no_fault fault rfl
  | ok a => exact (hf a rfl).congr (and_iff_right (hx.ok_iff.1 ⟨a, rfl⟩)).symm

theorem next {f : α → Except StartError β} {post : α → Prop} (hx : Succeeds x post)
    (hf : ∀ a, x = .ok a → Judges (f a) q) : Judges (x >>= f) q := by
  obtain ⟨a, rfl, -⟩ := hx
  exact hf a rfl

end Judges

theorem judges_rowsOf (index : Nat) (cs : List Constraint) :
    Judges (rowsOf index cs) (∀ k ∈ cs, k.relation = .le ∨ k.relation = .ge) := by
  induction cs generalizing index with
  | nil => exact .pass (by simp)
  | cons k cs ih =>
    unfold rowsOf
    split
    · rename_i hnone
      refine .refuse nofun fun h => ?_
      rcases h k List.mem_cons_self with hk | hk <;> simp [Sense.ofRelation?, hk] at hnone
    · rename_i sense hsense
      refine ((ih (index + 1)).bind fun rows _ => .pass trivial).congr ?_
      rw [and_true, List.forall_mem_cons]
      refine (and_iff_right ?_).symm
      cases hk : k.relation <;> simp_all [Sense.ofRelation?]

theorem judges_linearTerms {ms : List Monomial} (hms : ∀ m ∈ ms, m.isEmpty = false) :
    Judges (linearTerms ms) (∀ m ∈ ms, m.vars.length = 1) := by
  induction ms with
  | nil => exact .pass (by simp)
  | cons m ms ih =>
    have hm := Monomial.isLinear_iff (hms m List.mem_cons_self)
    have hrest := ih fun k hk => hms k (List.mem_cons_of_mem m hk)
    rw [List.forall_mem_cons]
    unfold linearTerms
    split
    · rename_i hlinear
      split
      · exact (hrest.bind fun terms _ => .pass trivial).congr
          (by rw [and_true, and_iff_right (hm.1 hlinear)])
      · rename_i hnil
        have hone := hm.1 hlinear
        rw [hnil] at hone
        cases hone
    · rename_i hlinear
      exact .refuse nofun fun h => hlinear (hm.2 h.1)

theorem judges_checkMagnitudes {a : Assignment} (hsize : a.ubs.size = a.lbs.size) (index : Nat)
    {cs : List Constraint} (hcs : ∀ k ∈ cs, k.poly.Over a.lbs.size) :
    Judges (checkMagnitudes a index cs)
      (∀ k ∈ cs, k.poly.size (reach a.lbs a.ubs) ≤ maxMagnitude) := by
  induction cs generalizing index with
  | nil => exact .pass (by simp)
  | cons k cs ih =>
    have hrest := ih (index + 1) fun l hl => hcs l (List.mem_cons_of_mem k hl)
    rw [List.forall_mem_cons]
    unfold checkMagnitudes
    rw [fitsWithin_eq (hcs k List.mem_cons_self) hsize]
    by_cases hfits : k.poly.size (reach a.lbs a.ubs) ≤ maxMagnitude
    · rw [decide_eq_true hfits]
      exact hrest.congr (and_iff_right hfits).symm
    · rw [decide_eq_false hfits]
      exact .refuse nofun fun h => hfits h.1

theorem succeeds_cap (limit : Int) {a : Assignment} {v : Variable} (hlb : v < a.lbs.size)
    (hub : v < a.ubs.size) : Succeeds (cap limit a v) fun b =>
      b.lbs.size = a.lbs.size ∧ b.ubs.size = a.ubs.size := by
  unfold cap
  apply Succeeds.next (fetch_of_lt hlb)
  apply Succeeds.next (fetch_of_lt hub)
  split
  · apply (succeeds_store limit hub).bind
    intro ubs hubs
    exact .of_pure ⟨rfl, hubs.1⟩
  · exact .of_pure ⟨rfl, rfl⟩

theorem succeeds_capRow {n : Nat} {a : Assignment} (hlbs : a.lbs.size = n) (hubs : a.ubs.size = n)
    {row : Row} (hrow : ∀ v ∈ row.vars, v < n) :
    Succeeds (capRow a row) fun b => b.lbs.size = n ∧ b.ubs.size = n := by
  unfold capRow
  split
  · apply Succeeds.foldlM ⟨hlbs, hubs⟩
    intro b v hv hb
    have hlt := hrow v (Array.mem_def.2 hv)
    apply (succeeds_cap row.limit (hb.1 ▸ hlt) (hb.2 ▸ hlt)).mono
    intro c hc
    exact ⟨hc.1.trans hb.1, hc.2.trans hb.2⟩
  · exact .of_pure ⟨hlbs, hubs⟩

theorem succeeds_initial (hf : f.WellFormed) {index : Nat} {rows : List Row}
    (hrows : rowsOf index f.constraints.toList = .ok rows) :
    Succeeds (initial f rows.toArray) fun _ => True := by
  have hdeclared : (declared f).lbs.size = f.numVariables ∧
      (declared f).ubs.size = f.numVariables := by
    simp [declared, hf.domainCount]
  unfold initial
  refine (Succeeds.foldlM (motive := fun a : Assignment =>
    a.lbs.size = f.numVariables ∧ a.ubs.size = f.numVariables) hdeclared ?_).bind
      fun _ _ => .of_pure trivial
  intro a row hrow ha
  apply succeeds_capRow ha.1 ha.2
  intro v hv
  obtain ⟨k, hk, sense, -, rfl⟩ := (mem_rowsOf hrows).1 hrow
  obtain ⟨m, hm, hmem⟩ := (Row.mem_vars k sense).1 hv
  exact (hf.constraints k (Array.mem_def.2 hk) m hm).2 v hmem

/-- The conditions of a search, with the sizes of the polynomials between the static bounds. -/
theorem searchable_iff (hf : f.WellFormed) : f.Searchable settings ↔
    settings.greedyInit = false ∧
      (∀ k ∈ f.constraints.toList, k.relation = .le ∨ k.relation = .ge) ∧
      (∀ m ∈ f.objective.monomials, m.vars.length = 1) ∧
      (∀ k ∈ f.constraints.toList, k.poly.size f.staticReach ≤ maxMagnitude) ∧
      f.objective.size f.staticReach ≤ maxMagnitude := by
  have hbounded : ∀ k ∈ f.constraints,
      f.Bounded k.poly ↔ k.poly.size f.staticReach ≤ maxMagnitude :=
    fun k hk => Formula.bounded_iff (hf.constraints k hk)
  constructor
  · intro h
    refine ⟨h.notGreedy, fun k hk => h.inequalities k (Array.mem_def.2 hk), h.linear,
      fun k hk => ?_, (Formula.bounded_iff hf.objective).1 h.objective⟩
    exact (hbounded k (Array.mem_def.2 hk)).1 (h.constraints k (Array.mem_def.2 hk))
  · rintro ⟨hnotGreedy, hrelations, hlinear, hconstraints, hobjective⟩
    exact {
      notGreedy := hnotGreedy
      inequalities := fun k hk => hrelations k (Array.mem_def.1 hk)
      linear := hlinear
      constraints := fun k hk => (hbounded k hk).2 (hconstraints k (Array.mem_def.1 hk))
      objective := (Formula.bounded_iff hf.objective).2 hobjective }

theorem reach_of_initial (hf : f.WellFormed) {rows : List Row} {a : Assignment}
    (hrows : rowsOf 0 f.constraints.toList = .ok rows) (ha : initial f rows.toArray = .ok a)
    {v : Variable} (hv : v < f.numVariables) : reach a.lbs a.ubs v = f.staticReach v := by
  obtain ⟨hlb, hub⟩ := (clamps_of_wellFormed hf).found hrows ha v hv
  rw [reach, hlb, hub, Formula.staticReach]

/-- The problem of a well-formed formula is posed exactly when the formula can be searched. -/
theorem judges_of (hf : f.WellFormed) (settings : Settings) :
    Judges (Problem.of f settings) (f.Searchable settings) := by
  refine Judges.congr ?_ (searchable_iff hf).symm
  unfold Problem.of
  split
  · rename_i hgreedy
    exact .refuse (by simp) fun h => by simp [h.1] at hgreedy
  · rename_i hgreedy
    rw [Bool.not_eq_true] at hgreedy
    have hterms : ∀ m ∈ f.objective.monomials, m.isEmpty = false :=
      fun m hm => (hf.objective m hm).1
    refine Judges.congr ((judges_rowsOf 0 _).bind fun rows hrows =>
      (judges_linearTerms hterms).bind fun terms _ => ?_) (and_iff_right hgreedy).symm
    apply Judges.next (succeeds_initial hf hrows).lift
    intro a ha
    have hinitial := mapError_eq_ok.1 ha
    have hbounds := (inside_initial hf hinitial).1
    have hreach := fun v hv => reach_of_initial hf hrows hinitial (v := v) hv
    have hsize : a.ubs.size = a.lbs.size := hbounds.size_ubs.trans hbounds.size_lbs.symm
    have hover : ∀ k ∈ f.constraints.toList, k.poly.Over f.numVariables :=
      fun k hk => hf.constraints k (Array.mem_def.2 hk)
    have hchecks := judges_checkMagnitudes hsize 0
      (show ∀ k ∈ f.constraints.toList, k.poly.Over a.lbs.size from hbounds.size_lbs ▸ hover)
    refine (hchecks.congr ?_).bind fun _ _ => ?_
    · exact forall₂_congr fun k hk => by rw [Polynomial.size_congr (hover k hk) hreach]
    · rw [fitsWithin_eq (hbounds.size_lbs ▸ hf.objective) hsize,
        Polynomial.size_congr hf.objective hreach]
      by_cases hfits : f.objective.size f.staticReach ≤ maxMagnitude
      · rw [decide_eq_true hfits]
        exact .pass hfits
      · rw [decide_eq_false hfits]
        exact .refuse (by simp) hfits

theorem judges_start (hf : f.WellFormed) (settings : Settings) (source : ρ) :
    Judges (start f settings source) (f.Searchable settings) := by
  refine ((judges_of hf settings).bind fun problem hproblem => ?_).congr (iff_of_eq (and_true _))
  obtain ⟨rfl, -, hP, ha⟩ := posed_of hf hproblem
  exact .next (succeeds_stateOf hP ha source).lift fun _ _ => .pass trivial

end Search
end NonlinearInteger
