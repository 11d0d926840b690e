import NonlinearInteger.Proofs.ServingLists

/-!
# Allocation instances

An instance is generated for every seed. Its formula has one variable for each demand in
an offer, and its constraints and its objective say of their values what the table says of
what is cast: no offer spends more than its casts, the needs that can be met are, and the
shares of the compared demands are in proportion.
-/

namespace NonlinearInteger.Allocation

open NonlinearInteger.Random NonlinearInteger.Polynomial

variable {t : Table} {d : Difficulty}

/-- The formula of a table. -/
def posed (t : Table) : Formula where
  numVariables := t.shares.length
  constraints := (limits t).toArray
  objective := goal t
  domains := Array.replicate t.shares.length .standard
  names := (t.shares.map Share.name).toArray

/-- The limits and the goal are in normal form, and no step of building is refused. -/
theorem formula_eq (h : t.Fits d) : formula t = .ok (posed t) := by
  have hlimits : (limits t).foldlM (fun f c => f.addConstraint c.poly c.relation c.limit)
      (Formula.empty t.shares.length) =
        .ok { Formula.empty t.shares.length with constraints := (limits t).toArray } := by
    have hfits : ∀ c ∈ (limits t).map fun k => (k.poly, k.relation, k.limit),
        c.1.Over (Formula.empty t.shares.length).numVariables ∧ c.1.Merged := by
      intro c hc
      obtain ⟨k, hk, rfl⟩ := List.mem_map.1 hc
      have hk := (mem_limits h).1 hk
      exact ⟨hk.over_poly, hk.merged⟩
    have hadd := Formula.foldlM_addConstraint hfits
    rw [List.foldlM_map] at hadd
    simpa [Formula.empty, Function.comp_def] using hadd
  have hgoal : (goal t).Over t.shares.length :=
    over_negate (over_total fun v hv => Table.variablesWhere_lt hv)
  have hobjective : ({ Formula.empty t.shares.length with
      constraints := (limits t).toArray } : Formula).setObjective (goal t) = .ok
        { Formula.empty t.shares.length with
          constraints := (limits t).toArray
          objective := goal t } :=
    Formula.setObjective_of_merged hgoal (merged_negate _)
  rw [formula, hlimits]
  simp only [bind, Except.bind, hobjective]
  exact Formula.setNames_eq_ok.2 ⟨by simp [Formula.empty], rfl⟩

theorem countP_elem_eq_one {α β : Type} [BEq β] [LawfulBEq β] {f : α → List β} {as : List α}
    {b : β} (h : (as.flatMap f).Nodup) (hb : b ∈ as.flatMap f) :
    as.countP (fun a => (f a).elem b) = 1 := by
  induction as with
  | nil => cases hb
  | cons a as ih =>
    rw [List.flatMap_cons] at h hb
    obtain ⟨-, hrest, hapart⟩ := List.nodup_append.1 h
    by_cases hfirst : b ∈ f a
    · have hnone : as.countP (fun a => (f a).elem b) = 0 := by
        refine List.countP_eq_zero.2 fun x hx hmem => ?_
        have hmem := List.mem_flatMap_of_mem hx (List.elem_iff.1 hmem)
        exact hapart b hfirst b hmem rfl
      rw [List.countP_cons, hnone, if_pos (List.elem_iff.2 hfirst)]
    · rw [List.countP_cons, if_neg (mt List.elem_iff.1 hfirst)]
      exact ih hrest ((List.mem_append.1 hb).resolve_left hfirst)

theorem countP_append_of_none {α : Type} {p : α → Bool} {as bs : List α}
    (h : ∀ b ∈ bs, ¬p b = true) : (as ++ bs).countP p = as.countP p := by
  rw [List.countP_append, List.countP_eq_zero.2 h, Nat.add_zero]

/-- Whether a limit of an offer is on a variable. -/
def castsOn (v : Variable) (k : Constraint) : Bool := k.relation == .le && k.poly.contains v

theorem countP_castsOn (h : t.Fits d) {s : Share} (hs : s ∈ t.shares) :
    (limits t).countP (castsOn (t.varOf s)) = 1 := by
  have howner : ∀ o ∈ t.offers, (castsOn (t.varOf s) (castLimit t o) && !o.demands.isEmpty) = true ↔
      o.shares.elem s = true := by
    intro o ho
    have hcontains := contains_castLimit (t := t) h.nodup_shares ho (s := s)
    rw [List.elem_iff, Bool.and_eq_true, castsOn, Bool.and_eq_true, hcontains]
    refine ⟨fun hboth => hboth.1.2, fun hmem => ⟨⟨rfl, hmem⟩, ?_⟩⟩
    obtain ⟨demand, hdemand, -⟩ := List.mem_map.1 hmem
    simpa using List.ne_nil_of_mem hdemand
  -- Needs and ratios limit from below, so the count is over the offers alone.
  rw [limits, countP_append_of_none ?ratios, countP_append_of_none ?needs,
    offerLimits_eq h.nodup_shares, List.countP_map, List.countP_filter]
  case ratios =>
    intro k hk hcasts
    obtain ⟨_, -, hk⟩ := List.mem_filterMap.1 hk
    obtain ⟨-, rfl⟩ := ratioLimit?_eq_some.1 hk
    cases hcasts
  case needs =>
    intro k hk hcasts
    obtain ⟨_, -, hk⟩ := List.mem_filterMap.1 hk
    obtain ⟨-, -, rfl⟩ := (needLimit?_eq_some h).1 hk
    cases hcasts
  exact (List.countP_congr howner).trans (countP_elem_eq_one h.nodup_shares hs)

/-- A formula that says of the values of its variables what a table says of what is cast. -/
structure Means (t : Table) (f : Formula) : Prop where
  shares : Set.BijOn t.varOf {s | t.Serves s} {v | v < f.numVariables}
  names : f.names.size = f.numVariables ∧
    ∀ s, t.Serves s → f.names[t.varOf s]? = some s.name
  nodup_names : f.names.toList.Nodup
  casts : ∀ σ, (∀ k ∈ f.constraints, IsCastLimit k → k.HoldsAt σ) ↔
    ∀ o ∈ t.offers, t.spent σ o ≤ o.casts
  needs : ∀ σ, (∀ k ∈ f.constraints, IsNeedLimit k → k.HoldsAt σ) ↔
    ∀ demand need, t.needs[demand]? = some need → demand ≠ t.query →
      need ≤ (t.contributors demand).length → (need : Int) ≤ t.received σ demand
  ratios : ∀ k ∈ f.constraints, ¬IsCastLimit k → ¬IsNeedLimit k → IsRatioLimit t k
  objective : ∀ σ, f.objective.eval σ = -t.received σ t.query
  once : ∀ v < f.numVariables, f.constraints.countP (castsOn v) = 1

theorem posed_means (h : t.Fits d) : Means t (posed t) where
  shares := h.bijOn_varOf
  names := by
    refine ⟨by simp [posed], fun s hs => ?_⟩
    have hlt := List.idxOf_lt_length_iff.2 (Table.mem_shares.2 hs)
    simp [posed, Table.varOf, List.getElem?_eq_getElem hlt, List.getElem_idxOf hlt]
  nodup_names := h.nodup_shares.map Share.name_injective
  casts := fun σ => .trans (by simp [posed]) (casts_iff (σ := σ) h)
  needs := fun σ => .trans (by simp [posed]) (needs_iff (σ := σ) h)
  ratios := fun _ hk => ((mem_limits h).1 (List.mem_toArray.1 hk)).isRatioLimit_of h
  objective := by
    intro σ
    change (goal t).eval σ = _
    rw [goal, eval_negate (merged_total _), eval_total, Table.sum_received h]
  once := by
    intro v hv
    obtain ⟨s, hs, rfl⟩ := h.bijOn_varOf.surjOn hv
    exact (List.countP_toArray ..).trans (countP_castsOn h (Table.mem_shares.2 hs))

/-- For each seed an instance is generated. Its formula is the one that the loops over the offers
and the serving lists fill in, and it means its table. -/
theorem generate_means (seed : List UInt8) {d : Difficulty} (hd : d.isProper = true) :
    Succeeds (generate seed d) fun inst => inst.seed = seed ∧ inst.difficulty = d ∧
      inst.table.Fits d ∧ fill inst.table = .ok inst.formula ∧ Means inst.table inst.formula := by
  obtain ⟨⟨t, r⟩, hrun, hfits⟩ := draws_table hd (Xoshiro.ofBytes (ChaCha.derive seed))
  have hfill := (fill_eq hfits).trans (formula_eq hfits)
  refine ⟨⟨seed, d, t, posed t⟩, ?_, rfl, rfl, hfits, hfill, posed_means hfits⟩
  rw [generate, if_pos hd, hrun]
  simp only [formula_eq hfits]

theorem generate_means_of_eight : (⟨8, 3, 4, 5⟩ : Difficulty).isProper = true ∧
    Succeeds (generate (List.replicate 32 7) ⟨8, 3, 4, 5⟩) fun inst =>
      inst.seed = List.replicate 32 7 ∧ inst.difficulty = ⟨8, 3, 4, 5⟩ ∧
        inst.table.Fits ⟨8, 3, 4, 5⟩ ∧ fill inst.table = .ok inst.formula ∧
        Means inst.table inst.formula :=
  ⟨rfl, generate_means (List.replicate 32 7) rfl⟩

end NonlinearInteger.Allocation
