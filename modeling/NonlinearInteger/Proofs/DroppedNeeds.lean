import NonlinearInteger.Proofs.InstanceStarts

/-!
# Dropped needs

A need is dropped when fewer offers serve the demand than it needs. Since an offer may be cast
more than once, a dropped need can still be met: it cannot exactly when the casts of these
offers do not add up to it.
-/

namespace NonlinearInteger.Allocation

open NonlinearInteger.Polynomial

variable {t : Table} {d : Difficulty} {σ : Variable → Int} {demand need : Nat}

/-- Nonnegative values of which the limits of the offers hold. -/
structure Affordable (f : Formula) (σ : Variable → Int) : Prop where
  nonneg : ∀ v, 0 ≤ σ v
  holds : ∀ k ∈ f.constraints, IsCastLimit k → k.HoldsAt σ

namespace Table

/-- The casts of the offers that serve a demand. -/
def supplied (t : Table) (demand : Nat) : Int :=
  ((t.contributors demand).map fun o => (o.casts : Int)).sum

/-- The casts of the offer that a share belongs to. -/
def castsOf (t : Table) (s : Share) : Nat :=
  match t.offers.find? fun o => o.user == s.user && o.supply == s.supply with
  | some o => o.casts
  | none => 0

/-- All casts of all offers for one demand. -/
def allFor (t : Table) (demand : Nat) (v : Variable) : Int :=
  match t.shares[v]? with
  | some s => if s.demand = demand then t.castsOf s else 0
  | none => 0

theorem mem_contributors {o : Offer} :
    o ∈ t.contributors demand ↔ o ∈ t.offers ∧ demand ∈ o.demands := by
  rw [contributors, List.mem_filter, List.elem_iff]

/-- A demand gets no more than the casts of the offers that serve it. -/
theorem received_le_supplied (hnonneg : ∀ v, 0 ≤ σ v)
    (hspent : ∀ o ∈ t.offers, t.spent σ o ≤ o.casts) (demand : Nat) :
    t.received σ demand ≤ t.supplied demand := by
  have hshare : ∀ o ∈ t.contributors demand,
      t.value σ ⟨o.user, o.supply, demand⟩ ≤ (o.casts : Int) := by
    intro o ho
    obtain ⟨ho, hserved⟩ := mem_contributors.1 ho
    have hvalues : ∀ x ∈ o.demands.map fun served => t.value σ ⟨o.user, o.supply, served⟩,
        0 ≤ x := by
      intro x hx
      obtain ⟨served, -, rfl⟩ := List.mem_map.1 hx
      exact hnonneg _
    exact (List.single_le_sum hvalues _ (List.mem_map_of_mem hserved)).trans (hspent o ho)
  exact List.sum_le_sum hshare

theorem castsOf_eq (h : t.Fits d) {o : Offer} (ho : o ∈ t.offers) {s : Share}
    (hs : s ∈ o.shares) : t.castsOf s = o.casts := by
  obtain ⟨huser, hsupply, -⟩ := o.mem_shares.1 hs
  have hsome : (t.offers.find? fun o => o.user == s.user && o.supply == s.supply).isSome = true :=
    List.find?_isSome.2 ⟨o, ho, by simp [huser, hsupply]⟩
  obtain ⟨found, hfound⟩ := Option.isSome_iff_exists.1 hsome
  have hpair := List.find?_some hfound
  simp only [Bool.and_eq_true, beq_iff_eq] at hpair
  rw [castsOf, hfound, h.offer_inj (List.mem_of_find?_eq_some hfound) ho
    (hpair.1.trans huser.symm) (hpair.2.trans hsupply.symm)]

theorem value_allFor (h : t.Fits d) {o : Offer} (ho : o ∈ t.offers) {served : Nat}
    (hserved : served ∈ o.demands) : t.value (t.allFor demand) ⟨o.user, o.supply, served⟩ =
      if served = demand then (o.casts : Int) else 0 := by
  have hs : (⟨o.user, o.supply, served⟩ : Share) ∈ o.shares := List.mem_map_of_mem hserved
  have hget : t.shares[t.varOf ⟨o.user, o.supply, served⟩]? = some ⟨o.user, o.supply, served⟩ := by
    have hmem : (⟨o.user, o.supply, served⟩ : Share) ∈ t.shares := List.mem_flatMap_of_mem ho hs
    have hlt := List.idxOf_lt_length_iff.2 hmem
    rw [varOf, List.getElem?_eq_getElem hlt, List.getElem_idxOf hlt]
  rw [value, allFor, hget]
  simp only [castsOf_eq h ho hs]

theorem spent_allFor_le (h : t.Fits d) (demand : Nat) {o : Offer} (ho : o ∈ t.offers) :
    t.spent (t.allFor demand) o ≤ o.casts := by
  have hcount : o.demands.count demand ≤ 1 :=
    List.nodup_iff_count_le_one.1 ((h.demands o ho).nodup List.nodup_range) demand
  have hspent : t.spent (t.allFor demand) o = o.demands.count demand * o.casts := by
    rw [spent, List.map_congr_left fun served hserved => value_allFor h ho hserved,
      List.sum_map_ite_eq]
    simp
  rw [hspent]
  exact mul_le_of_le_one_left (Int.natCast_nonneg _) (by exact_mod_cast hcount)

theorem received_allFor (h : t.Fits d) (demand : Nat) :
    t.received (t.allFor demand) demand = t.supplied demand := by
  have hshare : ∀ o ∈ t.contributors demand,
      t.value (t.allFor demand) ⟨o.user, o.supply, demand⟩ = (o.casts : Int) := by
    intro o ho
    obtain ⟨ho, hserved⟩ := mem_contributors.1 ho
    rw [value_allFor h ho hserved, if_pos rfl]
  exact congrArg List.sum (List.map_congr_left hshare)

theorem length_contributors_le (h : t.Fits d) (demand : Nat) :
    ((t.contributors demand).length : Int) ≤ t.supplied demand := by
  have hcasts : ∀ x ∈ (t.contributors demand).map fun o => (o.casts : Int), 1 ≤ x := by
    intro x hx
    obtain ⟨o, ho, rfl⟩ := List.mem_map.1 hx
    exact_mod_cast (h.casts o (mem_contributors.1 ho).1).1
  have hle := List.card_nsmul_le_sum _ _ hcasts
  rwa [List.length_map, nsmul_one] at hle

end Table

theorem affordable_allFor (h : t.Fits d) (demand : Nat) :
    Affordable (posed t) (t.allFor demand) where
  nonneg v := by
    unfold Table.allFor
    split
    · split <;> omega
    · exact le_rfl
  holds k hk := (casts_iff h).2 (fun _ => Table.spent_allFor_le h demand) k (List.mem_toArray.1 hk)

/-- A need has a constraint when there are as many contributors. -/
theorem needLimit_mem_iff (h : t.Fits d) (hneed : t.needs[demand]? = some need)
    (hother : demand ≠ t.query) : needLimit t demand need ∈ (posed t).constraints ↔
      need ≤ (t.contributors demand).length := by
  refine (mem_posed h).trans ⟨fun hlimit => ?_, fun hmet => .need hneed hother hmet⟩
  obtain ⟨demand', need', -, -, hmet, heq⟩ :=
    (hlimit.isNeedLimit_iff h).1 (isNeedLimit t demand need)
  have hneed : (need' : Int) = need := congrArg Constraint.limit heq
  have hterms := congrArg (fun k => k.poly.monomials.length) heq
  simp only [needLimit, monomials_total (t.nodup_variablesWhere _), List.length_map,
    Table.length_variablesWhere h] at hterms
  omega

/-- What becomes of the need of a demand. -/
structure NeedDecided (t : Table) (f : Formula) (demand need : Nat) : Prop where
  dropped_iff : needLimit t demand need ∉ f.constraints ↔
    (t.contributors demand).length < need
  attainable_iff : (∃ σ, Affordable f σ ∧ (need : Int) ≤ t.received σ demand) ↔
    (need : Int) ≤ t.supplied demand
  dropped_of_hopeless : (∀ σ, Affordable f σ → t.received σ demand < need) →
    needLimit t demand need ∉ f.constraints

theorem needDecided_posed (h : t.Fits d) (hneed : t.needs[demand]? = some need)
    (hother : demand ≠ t.query) : NeedDecided t (posed t) demand need := by
  have hdropped : needLimit t demand need ∉ (posed t).constraints ↔
      (t.contributors demand).length < need := by
    rw [needLimit_mem_iff h hneed hother, Nat.not_le]
  have hattainable : (∃ σ, Affordable (posed t) σ ∧ (need : Int) ≤ t.received σ demand) ↔
      (need : Int) ≤ t.supplied demand := by
    constructor
    · rintro ⟨σ, hσ, hreceived⟩
      have hspent := (casts_iff h).1 fun k hk => hσ.holds k (List.mem_toArray.2 hk)
      exact hreceived.trans (Table.received_le_supplied hσ.nonneg hspent demand)
    · intro hsupplied
      exact ⟨_, affordable_allFor h demand, (Table.received_allFor h demand).symm ▸ hsupplied⟩
  refine ⟨hdropped, hattainable, fun hhopeless => hdropped.2 ?_⟩
  have hall := hhopeless _ (affordable_allFor h demand)
  rw [Table.received_allFor h] at hall
  exact_mod_cast (Table.length_contributors_le h demand).trans_lt hall

/-- A need without hope is dropped, but so is every need of more than the contributors, and
it is the casts of the contributors that decide whether it can be met. -/
theorem needDecided_of_generate (seed : List UInt8) (hd : d.isProper = true) :
    Succeeds (generate seed d) fun inst => ∀ demand need, inst.table.needs[demand]? = some need →
      demand ≠ inst.table.query → NeedDecided inst.table inst.formula demand need := by
  obtain ⟨t, hfits, hgenerate⟩ := exists_generate seed hd
  exact ⟨_, hgenerate, fun demand need => needDecided_posed hfits⟩

theorem needDecided_of_eight : (⟨8, 3, 4, 5⟩ : Difficulty).isProper = true ∧
    Succeeds (generate (List.replicate 32 7) ⟨8, 3, 4, 5⟩) fun inst =>
      ∀ demand need, inst.table.needs[demand]? = some need → demand ≠ inst.table.query →
        NeedDecided inst.table inst.formula demand need :=
  ⟨rfl, needDecided_of_generate (List.replicate 32 7) rfl⟩

/-- One offer, of two casts, serves a demand that needs two. -/
def soleOffer : Table := ⟨[2, 2], [⟨0, 0, 2, [0]⟩], 1, []⟩

/-- The need of two is dropped, and both casts meet it. -/
theorem attainable_need_dropped : ∃ inst,
    generate (List.replicate 32 13) ⟨1, 1, 2, 0⟩ = .ok inst ∧ inst.table = soleOffer ∧
      inst.table.needs[0]? = some 2 ∧ 0 ≠ inst.table.query ∧
      needLimit inst.table 0 2 ∉ inst.formula.constraints ∧
      Affordable inst.formula (fun _ => 2) ∧ 2 ≤ inst.table.received (fun _ => 2) 0 := by
  obtain ⟨t, hfits, hgenerate⟩ :=
    exists_generate (d := ⟨1, 1, 2, 0⟩) (List.replicate 32 13) rfl
  have htable : (generate (List.replicate 32 13) ⟨1, 1, 2, 0⟩).toOption.map (·.table) =
      some soleOffer := by decide +kernel
  rw [hgenerate] at htable
  obtain rfl : t = soleOffer := Option.some.inj htable
  have hdropped : needLimit soleOffer 0 2 ∉ (posed soleOffer).constraints :=
    mt (needLimit_mem_iff hfits rfl (by decide)).1 (by decide)
  have hspent : ∀ o ∈ soleOffer.offers, soleOffer.spent (fun _ => 2) o ≤ o.casts := by decide
  have haffordable : Affordable (posed soleOffer) fun _ => 2 :=
    ⟨fun _ => by decide, fun k hk => (casts_iff hfits).2 hspent k (List.mem_toArray.1 hk)⟩
  exact ⟨_, hgenerate, rfl, rfl, by decide, hdropped, haffordable, by decide⟩

end NonlinearInteger.Allocation
