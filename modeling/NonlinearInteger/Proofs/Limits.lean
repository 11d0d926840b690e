import NonlinearInteger.Proofs.CrossProducts
import NonlinearInteger.Proofs.Shares
import NonlinearInteger.Proofs.Verification

/-!
# Limits of a table

The constraints of an instance are the limits of the offers that serve a demand, the needs
of the demands with enough contributors, and the ratios that do not vanish. Each says of
the values of the shares what the table says of what is cast.
-/

namespace NonlinearInteger.Allocation

open NonlinearInteger.Polynomial

variable {t : Table} {d : Difficulty} {k : Constraint} {σ : Variable → Int}

namespace Table

theorem mem_variablesWhere {p : Share → Bool} {v : Variable} :
    v ∈ t.variablesWhere p ↔ ∃ s, t.shares[v]? = some s ∧ p s = true := by
  simp [variablesWhere, List.mem_zipIdx_iff_getElem?]

theorem nodup_variablesWhere (t : Table) (p : Share → Bool) : (t.variablesWhere p).Nodup := by
  have hsub : (t.variablesWhere p).Sublist (t.shares.zipIdx.map Prod.snd) :=
    List.filter_sublist.map Prod.snd
  refine hsub.nodup ?_
  rw [List.zipIdx_map_snd]
  exact List.nodup_range'

theorem variablesWhere_lt {p : Share → Bool} {v : Variable} (hv : v ∈ t.variablesWhere p) :
    v < t.shares.length := by
  obtain ⟨s, hs, -⟩ := mem_variablesWhere.1 hv
  exact (List.getElem?_eq_some_iff.1 hs).1

theorem apart_variablesWhere {p q : Share → Bool} (h : ∀ s, p s = true → q s = true → False) :
    Apart (t.variablesWhere p) (t.variablesWhere q) where
  left := t.nodup_variablesWhere p
  right := t.nodup_variablesWhere q
  disjoint := by
    intro v hv hv'
    obtain ⟨s, hs, hp⟩ := mem_variablesWhere.1 hv
    obtain ⟨s', hs', hq⟩ := mem_variablesWhere.1 hv'
    cases hs.symm.trans hs'
    exact h s hp hq

theorem sum_received (h : t.Fits d) (σ : Variable → Int) (demand : Nat) :
    ((t.variablesWhere fun s => s.demand == demand).map σ).sum = t.received σ demand := by
  rw [variablesWhere_eq h.nodup_shares, filter_shares_demand h, List.map_map, List.map_map]
  rfl

theorem sum_portion (h : t.Fits d) (σ : Variable → Int) (supply demand : Nat) :
    ((t.variablesWhere fun s => s.demand == demand && s.supply == supply).map σ).sum =
      t.portion σ supply demand := by
  rw [variablesWhere_eq h.nodup_shares, filter_shares_supply h, List.map_map, List.map_map]
  rfl

theorem length_variablesWhere (h : t.Fits d) (demand : Nat) :
    (t.variablesWhere fun s => s.demand == demand).length = (t.contributors demand).length := by
  rw [variablesWhere_eq h.nodup_shares, filter_shares_demand h, List.length_map, List.length_map]

end Table

theorem of_total (vs : List Variable) (relation : Relation) (limit : Int) :
    Constraint.of (total vs) relation limit = ⟨total vs, relation, limit⟩ := by
  rw [Constraint.of, (merged_total vs).normalize_eq]

/-- The limit of an offer. -/
def castLimit (t : Table) (o : Offer) : Constraint :=
  ⟨total (o.shares.map t.varOf), .le, o.casts⟩

theorem holdsAt_castLimit {o : Offer} :
    (castLimit t o).HoldsAt σ ↔ t.spent σ o ≤ o.casts := by
  simp [Constraint.HoldsAt, castLimit, Relation.holds, eval_total, Table.spent, Table.value,
    Offer.shares, Function.comp_def]

theorem varOf_inj_of_mem {o : Offer} (ho : o ∈ t.offers) {s s' : Share} (hs : s ∈ o.shares)
    (h : t.varOf s = t.varOf s') : s = s' :=
  (List.idxOf_inj (List.mem_flatMap_of_mem ho hs)).1 h

theorem nodup_castVariables (h : t.shares.Nodup) {o : Offer} (ho : o ∈ t.offers) :
    (o.shares.map t.varOf).Nodup :=
  ((List.nodup_flatMap.1 h).1 o ho).map_on fun _ hs _ _ => varOf_inj_of_mem ho hs

theorem contains_castLimit (h : t.shares.Nodup) {o : Offer} (ho : o ∈ t.offers) {s : Share} :
    (castLimit t o).poly.contains (t.varOf s) = true ↔ s ∈ o.shares := by
  rw [castLimit, contains_total (nodup_castVariables h ho), List.mem_map]
  constructor
  · rintro ⟨x, hx, heq⟩
    exact varOf_inj_of_mem ho hx heq ▸ hx
  · exact fun hmem => ⟨s, hmem, rfl⟩

/-- Neighbours in a list without repeats have successive positions. -/
theorem map_idxOf_segment {α : Type} [BEq α] [LawfulBEq α] {before segment after : List α}
    (h : (before ++ segment ++ after).Nodup) :
    segment.map (before ++ segment ++ after).idxOf = List.range' before.length segment.length := by
  refine List.ext_getElem (by simp) fun i hi _ => ?_
  have hi : i < segment.length := by simpa using hi
  have hlt : before.length + i < (before ++ segment ++ after).length := by simp; omega
  have hget : (before ++ segment ++ after)[before.length + i] = segment[i] := by
    simp [List.getElem_append_left, hi]
  rw [List.getElem_map, ← hget, h.idxOf_getElem, List.getElem_range', Nat.one_mul]

/-- The shares of an offer are numbered from the number of shares before it. -/
theorem offerLimits_of_split (h : t.shares.Nodup) {before : List Share} {offers : List Offer}
    (hsplit : t.shares = before ++ offers.flatMap Offer.shares) :
    offerLimits before.length offers =
      (offers.filter fun o => !o.demands.isEmpty).map (castLimit t) := by
  induction offers generalizing before with
  | nil => simp [offerLimits]
  | cons o offers ih =>
    rw [List.flatMap_cons, ← List.append_assoc] at hsplit
    have hlength : o.shares.length = o.demands.length := List.length_map ..
    have hrest := ih hsplit
    have hsegment : o.shares.map t.varOf = List.range' before.length o.demands.length := by
      have hnodup := h
      rw [hsplit] at hnodup
      rw [← hlength, ← map_idxOf_segment hnodup, ← hsplit]
      rfl
    rw [List.length_append, hlength] at hrest
    rw [offerLimits, hrest]
    cases hempty : o.demands.isEmpty with
    | true => simp [hempty]
    | false => simp [hempty, castLimit, hsegment, of_total]

theorem offerLimits_eq (h : t.shares.Nodup) : offerLimits 0 t.offers =
    (t.offers.filter fun o => !o.demands.isEmpty).map (castLimit t) :=
  offerLimits_of_split h (List.nil_append _).symm

/-- The need of a demand. -/
def needLimit (t : Table) (demand need : Nat) : Constraint :=
  ⟨total (t.variablesWhere fun s => s.demand == demand), .ge, need⟩

theorem holdsAt_needLimit (h : t.Fits d) {demand need : Nat} :
    (needLimit t demand need).HoldsAt σ ↔ (need : Int) ≤ t.received σ demand := by
  simp [Constraint.HoldsAt, needLimit, Relation.holds, eval_total, Table.sum_received h]

/-- A need is dropped for the queried demand and for one with fewer contributors. -/
theorem needLimit?_eq_some (h : t.Fits d) {demand need : Nat} : needLimit? t demand need = some k ↔
    demand ≠ t.query ∧ need ≤ (t.contributors demand).length ∧ needLimit t demand need = k := by
  rw [needLimit?, Table.length_variablesWhere h, of_total]
  split
  · rename_i hdropped
    refine iff_of_false (by simp) ?_
    rintro ⟨hother, hmet, -⟩
    rcases hdropped with hquery | hfew
    · exact hother hquery
    · omega
  · rename_i hkept
    rw [not_or, Nat.not_lt] at hkept
    exact ⟨fun hk => ⟨hkept.1, hkept.2, Option.some.inj hk⟩, fun hk => congrArg some hk.2.2⟩

/-- What a supply gives to the first demand times the total of the second, less the same
with the demands exchanged. -/
def exchange (t : Table) (r : Ratio) : Polynomial :=
  let part (demand : Nat) :=
    total (t.variablesWhere fun s => s.demand == demand && s.supply == r.supply)
  let whole (demand : Nat) := total (t.variablesWhere fun s => s.demand == demand)
  ((part r.first).product (whole r.second)).difference ((part r.second).product (whole r.first))

def ratioLimit (t : Table) (r : Ratio) : Constraint := ⟨exchange t r, .ge, 0⟩

theorem merged_exchange (t : Table) (r : Ratio) : (exchange t r).Merged := merged_difference _ _

theorem ratioLimit?_eq (t : Table) (r : Ratio) : ratioLimit? t r =
    if (exchange t r).isEmpty then none else some (ratioLimit t r) := by
  have hof : Constraint.of (exchange t r) .ge 0 = ratioLimit t r := by
    rw [Constraint.of, (merged_exchange t r).normalize_eq, ratioLimit]
  rw [← hof]
  rfl

theorem ratioLimit?_eq_some {r : Ratio} : ratioLimit? t r = some k ↔
    (exchange t r).isEmpty = false ∧ ratioLimit t r = k := by
  rw [ratioLimit?_eq]
  split <;> simp [*]

theorem over_exchange (t : Table) (r : Ratio) : (exchange t r).Over t.shares.length := by
  have htotal : ∀ p : Share → Bool, (total (t.variablesWhere p)).Over t.shares.length :=
    fun p => over_total fun v hv => Table.variablesWhere_lt hv
  exact over_difference (over_product (htotal _) (htotal _)) (over_product (htotal _) (htotal _))

theorem isExchange_of_mem {r : Ratio} (h : r.first ≠ r.second) {m : Monomial}
    (hm : m ∈ (exchange t r).monomials) : IsExchange m := by
  have hapart : ∀ a b : Nat, a ≠ b →
      Apart (t.variablesWhere fun s => s.demand == a && s.supply == r.supply)
        (t.variablesWhere fun s => s.demand == b) := by
    intro a b hab
    refine Table.apart_variablesWhere fun s hs hs' => hab ?_
    simp only [Bool.and_eq_true, beq_iff_eq] at hs hs'
    exact hs.1.symm.trans hs'
  exact isExchange_of_mem_difference (hapart _ _ h) (hapart _ _ h.symm) hm

theorem eval_exchange (h : t.Fits d) (σ : Variable → Int) (r : Ratio) :
    (exchange t r).eval σ = t.portion σ r.supply r.first * t.received σ r.second -
      t.portion σ r.supply r.second * t.received σ r.first := by
  rw [exchange, eval_cross, Table.sum_portion h, Table.sum_received h, Table.sum_portion h,
    Table.sum_received h]

/-- Where a limit comes from. -/
inductive Limit (t : Table) : Constraint → Prop
  | cast {o : Offer} (ho : o ∈ t.offers) (hserves : o.demands ≠ []) : Limit t (castLimit t o)
  | need {demand need : Nat} (hneed : t.needs[demand]? = some need) (hother : demand ≠ t.query)
      (hmet : need ≤ (t.contributors demand).length) : Limit t (needLimit t demand need)
  | ratio {r : Ratio} (hr : r ∈ t.ratios) (hne : (exchange t r).isEmpty = false) :
      Limit t (ratioLimit t r)

theorem mem_limits (h : t.Fits d) : k ∈ limits t ↔ Limit t k := by
  rw [limits, offerLimits_eq h.nodup_shares]
  simp only [List.mem_append, List.mem_map, List.mem_filter, List.mem_filterMap, Prod.exists,
    List.mem_zipIdx_iff_getElem?, needLimit?_eq_some h, ratioLimit?_eq_some]
  constructor
  · rintro ((⟨o, ⟨ho, hserves⟩, rfl⟩ | ⟨need, demand, hneed, hother, hmet, rfl⟩) | ⟨r, hr, hne, rfl⟩)
    · exact .cast ho (by simpa using hserves)
    · exact .need hneed hother hmet
    · exact .ratio hr hne
  · rintro (⟨ho, hserves⟩ | ⟨hneed, hother, hmet⟩ | ⟨hr, hne⟩)
    · exact .inl (.inl ⟨_, ⟨ho, by simpa using hserves⟩, rfl⟩)
    · exact .inl (.inr ⟨_, _, hneed, hother, hmet, rfl⟩)
    · exact .inr ⟨_, hr, hne, rfl⟩

namespace Limit

theorem merged (hk : Limit t k) : k.poly.Merged := by
  cases hk with
  | cast => exact merged_total _
  | need => exact merged_total _
  | ratio => exact merged_exchange t _

theorem over_poly (hk : Limit t k) : k.poly.Over t.shares.length := by
  cases hk with
  | cast ho =>
    refine over_total fun v hv => ?_
    obtain ⟨s, hs, rfl⟩ := List.mem_map.1 hv
    exact List.idxOf_lt_length_iff.2 (List.mem_flatMap_of_mem ho hs)
  | need => exact over_total fun v hv => Table.variablesWhere_lt hv
  | ratio => exact over_exchange t _

end Limit

def IsCastLimit (k : Constraint) : Prop := k.relation = .le

def IsNeedLimit (k : Constraint) : Prop := k.relation = .ge ∧ k.isLinear = true

/-- The shares of a supply in two demands, each times the total of the other demand, are
compared by a difference of products. -/
structure IsRatioLimit (t : Table) (k : Constraint) : Prop where
  relation : k.relation = .ge
  limit : k.limit = 0
  compares : ∃ r ∈ t.ratios, r.first ≠ r.second ∧ ∀ σ, k.poly.eval σ =
    t.portion σ r.supply r.first * t.received σ r.second -
      t.portion σ r.supply r.second * t.received σ r.first
  exchanges : ∀ m ∈ k.poly.monomials, IsExchange m

theorem isRatioLimit (h : t.Fits d) {r : Ratio} (hr : r ∈ t.ratios) :
    IsRatioLimit t (ratioLimit t r) where
  relation := rfl
  limit := rfl
  compares := ⟨r, hr, (h.ratios r hr).2.2.2, fun σ => eval_exchange h σ r⟩
  exchanges := fun _ hm => isExchange_of_mem (h.ratios r hr).2.2.2 hm

theorem isNeedLimit (t : Table) (demand need : Nat) : IsNeedLimit (needLimit t demand need) :=
  ⟨rfl, isLinear_total (t.nodup_variablesWhere _)⟩

theorem IsExchange.isLinear {m : Monomial} (hm : IsExchange m) : m.isLinear = false := by
  obtain ⟨a, b, -, hvars⟩ := hm.vars
  simp [Monomial.isLinear, hvars]

theorem not_isNeedLimit_ratioLimit (h : t.Fits d) {r : Ratio} (hr : r ∈ t.ratios)
    (hne : (exchange t r).isEmpty = false) : ¬IsNeedLimit (ratioLimit t r) := by
  rintro ⟨-, hlinear⟩
  obtain ⟨m, hm⟩ := List.exists_mem_of_ne_nil _ (List.isEmpty_eq_false_iff.1 hne)
  have hexchange := (isRatioLimit h hr).exchanges m hm
  have hm := forall_isLinear (merged_exchange t r).normalized hlinear m hm
  rw [hexchange.isLinear] at hm
  cases hm

namespace Limit

theorem isCastLimit_iff (hk : Limit t k) :
    IsCastLimit k ↔ ∃ o ∈ t.offers, o.demands ≠ [] ∧ castLimit t o = k := by
  constructor
  · intro hle
    cases hk with
    | cast ho hserves => exact ⟨_, ho, hserves, rfl⟩
    | need => cases hle
    | ratio => cases hle
  · rintro ⟨o, -, -, rfl⟩
    rfl

theorem isNeedLimit_iff (h : t.Fits d) (hk : Limit t k) : IsNeedLimit k ↔
    ∃ demand need, t.needs[demand]? = some need ∧ demand ≠ t.query ∧
      need ≤ (t.contributors demand).length ∧ needLimit t demand need = k := by
  constructor
  · intro hkind
    cases hk with
    | cast => cases hkind.1
    | need hneed hother hmet => exact ⟨_, _, hneed, hother, hmet, rfl⟩
    | ratio hr hne => exact absurd hkind (not_isNeedLimit_ratioLimit h hr hne)
  · rintro ⟨demand, need, -, -, -, rfl⟩
    exact isNeedLimit t demand need

theorem isRatioLimit_of (h : t.Fits d) (hk : Limit t k) (hcast : ¬IsCastLimit k)
    (hneed : ¬IsNeedLimit k) : IsRatioLimit t k := by
  cases hk with
  | cast => exact absurd rfl hcast
  | need => exact absurd (isNeedLimit t _ _) hneed
  | ratio hr => exact isRatioLimit h hr

end Limit

/-- An offer without demands has no limit and needs none. -/
theorem casts_iff (h : t.Fits d) : (∀ k ∈ limits t, IsCastLimit k → k.HoldsAt σ) ↔
    ∀ o ∈ t.offers, t.spent σ o ≤ o.casts := by
  constructor
  · intro hholds o ho
    by_cases hserves : o.demands = []
    · have hspent : t.spent σ o = 0 := by simp [Table.spent, hserves]
      have hcasts := (h.casts o ho).1
      omega
    · exact holdsAt_castLimit.1 (hholds _ ((mem_limits h).2 (.cast ho hserves)) rfl)
  · intro hspent k hk hkind
    obtain ⟨o, ho, -, rfl⟩ := ((mem_limits h).1 hk).isCastLimit_iff.1 hkind
    exact holdsAt_castLimit.2 (hspent o ho)

theorem needs_iff (h : t.Fits d) : (∀ k ∈ limits t, IsNeedLimit k → k.HoldsAt σ) ↔
    ∀ demand need, t.needs[demand]? = some need → demand ≠ t.query →
      need ≤ (t.contributors demand).length → (need : Int) ≤ t.received σ demand := by
  constructor
  · intro hholds demand need hneed hother hmet
    have hk := (mem_limits h).2 (.need hneed hother hmet)
    exact (holdsAt_needLimit h).1 (hholds _ hk (isNeedLimit t demand need))
  · intro hreceived k hk hkind
    obtain ⟨demand, need, hneed, hother, hmet, rfl⟩ :=
      (((mem_limits h).1 hk).isNeedLimit_iff h).1 hkind
    exact (holdsAt_needLimit h).2 (hreceived demand need hneed hother hmet)
end NonlinearInteger.Allocation
