import NonlinearInteger.Proofs.Renaming

/-!
# What the builders make

A formula comes from the builders exactly when its polynomials are normal forms over its
variables, its limits and domains are machine integers, no domain is empty, and either no
variable has a name or each has one.
-/

namespace NonlinearInteger

instance (n : Nat) (p : Polynomial) : Decidable (p.Over n) :=
  inferInstanceAs (Decidable (∀ m ∈ p.monomials, m.isEmpty = false ∧ ∀ v ∈ m.vars, v < n))

instance (p : Polynomial) : Decidable p.Merged :=
  decidable_of_iff (p.normalized = true ∧ (∀ m ∈ p.monomials, m.isEmpty = false) ∧
      p.monomials.Pairwise fun m n : Monomial => m.vars ≠ n.vars)
    ⟨fun h => ⟨h.1, h.2.1, h.2.2⟩, fun h => ⟨h.normalized, h.proper, h.distinct⟩⟩

instance (d : Domain) : Decidable d.Proper :=
  decidable_of_iff (d.lb ≤ d.ub ∧ FitsInt64 d.lb ∧ FitsInt64 d.ub)
    ⟨fun h => ⟨h.1, h.2.1, h.2.2⟩, fun h => ⟨h.ordered, h.lb_fits, h.ub_fits⟩⟩

namespace Formula

/-- A formula in normal form. -/
structure Normal (f : Formula) : Prop where
  objective : f.objective.Over f.numVariables ∧ f.objective.Merged
  constraints : ∀ c ∈ f.constraints, c.poly.Over f.numVariables ∧ c.poly.Merged ∧ FitsInt64 c.limit
  domainCount : f.domains.size = f.numVariables
  domains : ∀ d ∈ f.domains, d.Proper
  names : f.names = #[] ∨ f.names.size = f.numVariables

instance (f : Formula) : Decidable f.Normal :=
  decidable_of_iff ((f.objective.Over f.numVariables ∧ f.objective.Merged) ∧
      (∀ c ∈ f.constraints,
        c.poly.Over f.numVariables ∧ c.poly.Merged ∧ FitsInt64 c.limit) ∧
      f.domains.size = f.numVariables ∧ (∀ d ∈ f.domains, d.Proper) ∧
      (f.names = #[] ∨ f.names.size = f.numVariables))
    ⟨fun h => ⟨h.1, h.2.1, h.2.2.1, h.2.2.2.1, h.2.2.2.2⟩,
      fun h => ⟨h.objective, h.constraints, h.domainCount, h.domains, h.names⟩⟩

variable {f g : Formula}

theorem Built.withDomain (hg : g.Built) {v : Variable} (hv : v < g.numVariables) {d : Domain}
    (hd : d.Proper) : Built { g with domains := g.domains.setIfInBounds v d } :=
  hg.setDomain hd.lb_fits hd.ub_fits (setDomain_eq_ok.2 ⟨hv, hd.ordered, rfl⟩)

theorem Built.withDomains (hg : g.Built) {ds : Array Domain} (hsize : ds.size = g.numVariables)
    (hds : ∀ d ∈ ds, d.Proper) : Built { g with domains := ds } := by
  have hcount : g.domains.size = g.numVariables := hg.wellFormed.domainCount
  -- After `k` steps the first `k` domains are new and the others are as they were.
  have hdeclared : ∀ k ≤ ds.size, Built { g with
      domains := (ds.toList.take k ++ g.domains.toList.drop k).toArray } := by
    intro k hk
    induction k with
    | zero => exact hg
    | succ k ih =>
      have hlt : k < g.domains.toList.length := by
        rw [Array.length_toList, hcount, ← hsize]
        exact hk
      have hnext := (ih (Nat.le_of_succ_le hk)).withDomain (hsize ▸ hk)
        (hds ds[k] (Array.getElem_mem hk))
      have hset : (ds.toList.take k ++ g.domains.toList.drop k).set k ds[k] =
          ds.toList.take (k + 1) ++ g.domains.toList.drop (k + 1) := by
        have hlt' : k < ds.toList.length := hk
        rw [List.drop_eq_getElem_cons hlt, List.take_succ_eq_append_getElem hlt',
          List.set_append_right _ _ (by simp)]
        simp [Nat.min_eq_left (Nat.le_of_succ_le hk)]
      simpa [List.setIfInBounds_toArray, hset] using hnext
  have hall := hdeclared ds.size le_rfl
  rw [List.take_of_length_le (by simp), List.drop_of_length_le (by simp [hcount, hsize]),
    List.append_nil] at hall
  exact hall

theorem Built.withConstraints (hg : g.Built) {cs : List Constraint} (hcs : ∀ c ∈ cs,
    c.poly.Over g.numVariables ∧ c.poly.Merged ∧ FitsInt64 c.limit) :
    Built { g with constraints := g.constraints ++ cs.toArray } := by
  induction cs generalizing g with
  | nil => simpa using hg
  | cons c cs ih =>
    obtain ⟨hover, hmerged, hlimit⟩ := hcs c List.mem_cons_self
    have hfirst := hg.addConstraint hlimit
      (addConstraint_of_merged hover hmerged c.relation c.limit)
    have hrest := ih hfirst fun k hk => hcs k (List.mem_cons_of_mem c hk)
    simpa using hrest

theorem Normal.built (h : f.Normal) : f.Built := by
  have hdomains := (Built.empty f.numVariables).withDomains h.domainCount h.domains
  have hall : ∀ c ∈ f.constraints.toList,
      c.poly.Over f.numVariables ∧ c.poly.Merged ∧ FitsInt64 c.limit :=
    fun c hc => h.constraints c (Array.mem_def.2 hc)
  have hconstraints := hdomains.withConstraints hall
  have hobjective := hconstraints.setObjective
    (setObjective_of_merged h.objective.1 h.objective.2)
  have hunnamed : Built { f with names := #[] } := by
    simpa [Formula.empty] using hobjective
  rcases h.names with hnone | heach
  · rw [← hnone] at hunnamed
    exact hunnamed
  · exact hunnamed.setNames (setNames_eq_ok.2 ⟨heach, rfl⟩)

theorem Built.names (h : f.Built) : f.names = #[] ∨ f.names.size = f.numVariables := by
  induction h with
  | empty n => exact .inl rfl
  | addConstraint _ _ hg ih =>
    obtain ⟨-, rfl⟩ := addConstraint_eq_ok.1 hg
    exact ih
  | setObjective _ hg ih =>
    obtain ⟨-, rfl⟩ := setObjective_eq_ok.1 hg
    exact ih
  | setDomain _ _ _ hg ih =>
    obtain ⟨-, -, rfl⟩ := setDomain_eq_ok.1 hg
    exact ih
  | setNames _ hg _ =>
    obtain ⟨hsize, rfl⟩ := setNames_eq_ok.1 hg
    exact .inr hsize

theorem built_iff_normal : f.Built ↔ f.Normal where
  mp h :=
    { objective := ⟨h.wellFormed.objective, h.merged.1⟩
      constraints := fun c hc =>
        ⟨h.wellFormed.constraints c hc, h.merged.2 c hc, h.wellFormed.limits c hc⟩
      domainCount := h.wellFormed.domainCount
      domains := h.wellFormed.domains
      names := h.names }
  mpr h := h.built

instance (f : Formula) : Decidable f.Built := decidable_of_iff f.Normal built_iff_normal.symm

end Formula
end NonlinearInteger
