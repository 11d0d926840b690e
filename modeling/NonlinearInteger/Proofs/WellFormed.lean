import NonlinearInteger.Formula.Basic
import NonlinearInteger.Proofs.Success
import Mathlib.Data.List.Pairwise

/-!
# Formulas from the builders

Every formula is built step by step from an empty one. Whatever the steps, its
polynomials are sums of proper terms in its own variables, and each variable has
a domain that is not empty.
-/

namespace NonlinearInteger

namespace Polynomial

/-- Every term has factors, a coefficient, and only variables below a bound. -/
def Over (n : Nat) (p : Polynomial) : Prop :=
  ∀ m ∈ p.monomials, m.isEmpty = false ∧ ∀ v ∈ m.vars, v < n

theorem over_empty (n : Nat) : Over n .empty := by simp [Over, empty]

theorem Over.mono {n k : Nat} {p : Polynomial} (h : p.Over n) (hle : n ≤ k) : p.Over k :=
  fun m hm => ⟨(h m hm).1, fun v hv => Nat.lt_of_lt_of_le ((h m hm).2 v hv) hle⟩

theorem vars_of_mem_absorb {m n : Monomial} {ms : List Monomial} (h : n ∈ absorb m ms) :
    ∃ k ∈ m :: ms, k.vars = n.vars := by
  induction ms with
  | nil => exact ⟨n, h, rfl⟩
  | cons k ks ih =>
    unfold absorb at h
    split at h
    · rcases List.mem_cons.1 h with rfl | h
      · exact ⟨k, by simp, rfl⟩
      · exact ⟨n, by simp [h], rfl⟩
    · rcases List.mem_cons.1 h with rfl | h
      · exact ⟨n, by simp, rfl⟩
      · obtain ⟨l, hl, hvars⟩ := ih h
        refine ⟨l, ?_, hvars⟩
        rcases List.mem_cons.1 hl with rfl | hl <;> simp [*]

theorem vars_of_mem_foldl_absorb {n : Monomial} {ms merged : List Monomial}
    (h : n ∈ ms.foldl (fun merged m => absorb m merged) merged) :
    ∃ k ∈ merged ++ ms, k.vars = n.vars := by
  induction ms generalizing merged with
  | nil => exact ⟨n, by simpa using h, rfl⟩
  | cons m ms ih =>
    obtain ⟨k, hk, hvars⟩ := ih h
    rcases List.mem_append.1 hk with hk | hk
    · obtain ⟨l, hl, hlk⟩ := vars_of_mem_absorb hk
      refine ⟨l, ?_, hlk.trans hvars⟩
      rcases List.mem_cons.1 hl with rfl | hl <;> simp [*]
    · exact ⟨k, by simp [hk], hvars⟩

theorem of_mem_mergeTerms {n : Monomial} {ms : List Monomial} (h : n ∈ mergeTerms ms) :
    n.isEmpty = false ∧ ∃ m ∈ ms, m.vars = n.vars := by
  obtain ⟨h, hempty⟩ := List.mem_filter.1 h
  obtain ⟨k, hk, hvars⟩ := vars_of_mem_foldl_absorb h
  refine ⟨by simpa using hempty, k, ?_, hvars⟩
  exact (List.mem_filter.1 (List.nil_append _ ▸ hk)).1

theorem le_maxVariable {p : Polynomial} {m : Monomial} {v : Variable} (hm : m ∈ p.monomials)
    (hv : v ∈ m.vars) : ∃ w, p.maxVariable? = some w ∧ v ≤ w := by
  have hne : m.vars ≠ [] := List.ne_nil_of_mem hv
  have hlast : m.vars.getLast? = some (m.vars.getLast hne) := List.getLast?_eq_some_getLast hne
  have hmem : m.vars.getLast hne ∈ p.monomials.filterMap fun m => m.vars.getLast? :=
    List.mem_filterMap.2 ⟨m, hm, hlast⟩
  have hle : v ≤ m.vars.getLast hne := m.sorted.rel_getLast hv
  cases hmax : p.maxVariable? with
  | none =>
    rw [maxVariable?, List.max?_eq_none_iff] at hmax
    simp [hmax] at hmem
  | some w => exact ⟨w, rfl, Nat.le_trans hle ((List.max?_eq_some_iff.1 hmax).2 _ hmem)⟩

end Polynomial

/-- A domain of machine integers that is not empty. -/
structure Domain.Proper (d : Domain) : Prop where
  ordered : d.lb ≤ d.ub
  lb_fits : FitsInt64 d.lb
  ub_fits : FitsInt64 d.ub

namespace Formula

section Builders

variable {f g : Formula} {p : Polynomial} {v : Variable} {lb ub limit : Int}

theorem checkVariables_eq_ok_iff : f.checkVariables p = .ok () ↔
    ∀ m ∈ p.monomials, ∀ v ∈ m.vars, v < f.numVariables := by
  constructor
  · intro h m hm v hv
    obtain ⟨w, hw, hle⟩ := Polynomial.le_maxVariable hm hv
    by_cases hlt : f.numVariables ≤ w
    · simp [checkVariables, hw, hlt] at h
    · exact Nat.lt_of_le_of_lt hle (Nat.lt_of_not_le hlt)
  · intro h
    unfold checkVariables
    split
    · rename_i w hw
      obtain ⟨m, hm, hlast⟩ := List.mem_filterMap.1 (List.max?_mem hw)
      rw [if_neg (Nat.not_le.2 (h m hm w (List.mem_of_getLast? hlast)))]
    · rfl

theorem checked_eq_ok {check : Except BuildError Unit} :
    (do check; return f) = .ok g ↔ check = .ok () ∧ f = g := by
  cases check <;> simp [bind, Except.bind, pure, Except.pure]

theorem addConstraint_eq_ok {relation : Relation} : f.addConstraint p relation limit = .ok g ↔
    f.checkVariables p = .ok () ∧
      { f with constraints := f.constraints.push (.of p relation limit) } = g :=
  checked_eq_ok

theorem setObjective_eq_ok : f.setObjective p = .ok g ↔
    f.checkVariables p = .ok () ∧ { f with objective := p.normalize } = g :=
  checked_eq_ok

theorem setDomain_eq_ok : f.setDomain v lb ub = .ok g ↔ v < f.numVariables ∧ lb ≤ ub ∧
    { f with domains := f.domains.setIfInBounds v ⟨lb, ub⟩ } = g := by
  unfold setDomain
  split
  · exact iff_of_false (by simp) fun h => absurd h.1 (Nat.not_lt.2 ‹_›)
  · split
    · exact iff_of_false (by simp) fun h => absurd h.2.1 (Int.not_le.2 ‹_›)
    · simp_all

theorem setNames_eq_ok {names : Array String} : f.setNames names = .ok g ↔
    names.size = f.numVariables ∧ { f with names := names } = g := by
  unfold setNames
  split <;> simp [*]

end Builders

/-- What the builders make of machine integers. A step that is refused makes
nothing. Coefficients need no bound here. -/
inductive Built : Formula → Prop
  | empty (numVariables : Nat) : Built (.empty numVariables)
  | addConstraint {f g : Formula} {p : Polynomial} {relation : Relation} {limit : Int} :
      Built f → FitsInt64 limit → f.addConstraint p relation limit = .ok g → Built g
  | setObjective {f g : Formula} {p : Polynomial} :
      Built f → f.setObjective p = .ok g → Built g
  | setDomain {f g : Formula} {v : Variable} {lb ub : Int} :
      Built f → FitsInt64 lb → FitsInt64 ub → f.setDomain v lb ub = .ok g → Built g
  | setNames {f g : Formula} {names : Array String} :
      Built f → f.setNames names = .ok g → Built g

structure WellFormed (f : Formula) : Prop where
  objective : f.objective.Over f.numVariables
  constraints : ∀ c ∈ f.constraints, c.poly.Over f.numVariables
  normalized : ∀ c ∈ f.constraints, c.poly.normalized = true
  limits : ∀ c ∈ f.constraints, FitsInt64 c.limit
  domainCount : f.domains.size = f.numVariables
  domains : ∀ d ∈ f.domains, d.Proper

/-- A polynomial that passes has its normal form over the variables. -/
theorem over_normalize {f : Formula} {p : Polynomial} (h : f.checkVariables p = .ok ()) :
    p.normalize.Over f.numVariables := by
  intro n hn
  obtain ⟨hempty, m, hm, hvars⟩ := Polynomial.of_mem_mergeTerms hn
  exact ⟨hempty, fun v hv => checkVariables_eq_ok_iff.1 h m hm v (hvars ▸ hv)⟩

theorem Built.wellFormed {f : Formula} (h : f.Built) : f.WellFormed := by
  induction h with
  | empty n =>
    refine ⟨Polynomial.over_empty n, by simp [Formula.empty], by simp [Formula.empty],
      by simp [Formula.empty], by simp [Formula.empty], ?_⟩
    intro d hd
    obtain rfl : d = .standard := by
      simpa [Formula.empty] using (Array.mem_replicate.1 hd).2
    exact ⟨by decide, by decide, by decide⟩
  | addConstraint _ hlimit hg ih =>
    obtain ⟨hcheck, rfl⟩ := addConstraint_eq_ok.1 hg
    refine ⟨ih.objective, fun c hc => ?_, fun c hc => ?_, fun c hc => ?_, ih.domainCount,
      ih.domains⟩
    · rcases Array.mem_push.1 hc with hc | rfl
      · exact ih.constraints c hc
      · exact over_normalize hcheck
    · rcases Array.mem_push.1 hc with hc | rfl
      · exact ih.normalized c hc
      · rfl
    · rcases Array.mem_push.1 hc with hc | rfl
      · exact ih.limits c hc
      · exact hlimit
  | setObjective _ hg ih =>
    obtain ⟨hcheck, rfl⟩ := setObjective_eq_ok.1 hg
    exact { ih with objective := over_normalize hcheck }
  | setDomain _ hlb hub hg ih =>
    obtain ⟨-, hle, rfl⟩ := setDomain_eq_ok.1 hg
    refine ⟨ih.objective, ih.constraints, ih.normalized, ih.limits, by simpa using ih.domainCount,
      ?_⟩
    intro d hd
    rcases Array.mem_or_eq_of_mem_setIfInBounds hd with hd | rfl
    · exact ih.domains d hd
    · exact ⟨hle, hlb, hub⟩
  | setNames _ hg ih =>
    obtain ⟨-, rfl⟩ := setNames_eq_ok.1 hg
    exact ⟨ih.objective, ih.constraints, ih.normalized, ih.limits, ih.domainCount, ih.domains⟩

end Formula
end NonlinearInteger
