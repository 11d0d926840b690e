import NonlinearInteger.Proofs.Allocations
import NonlinearInteger.Proofs.Starts

/-!
# Searches of instances

The limits of a table are sums of products of at most two shares, each at most the casts of
an offer. So an instance of any size in 16-bit words can be searched, from the values zero,
which violate the needs and nothing else.
-/

namespace NonlinearInteger

/-- At most two factors, taken at most once. -/
structure Monomial.Small (m : Monomial) : Prop where
  coef : |m.coef| ≤ 1
  factors : m.vars.length ≤ 2

namespace Monomial

variable {bound : Variable → Int} {greatest : Int}

theorem factorValue_le_pow {vs : List Variable}
    (h : ∀ v ∈ vs, 0 ≤ bound v ∧ bound v ≤ greatest) :
    factorValue bound vs ≤ greatest ^ vs.length := by
  induction vs with
  | nil => simp [factorValue]
  | cons v vs ih =>
    obtain ⟨hnonneg, hle⟩ := h v List.mem_cons_self
    have hrest : ∀ w ∈ vs, 0 ≤ bound w ∧ bound w ≤ greatest :=
      fun w hw => h w (List.mem_cons_of_mem v hw)
    rw [factorValue, List.length_cons, pow_succ']
    exact mul_le_mul hle (ih hrest) (factorValue_nonneg fun w hw => (hrest w hw).1)
      (hnonneg.trans hle)

theorem Small.size_le {m : Monomial} (hm : m.Small) (hgreatest : 1 ≤ greatest)
    (h : ∀ v ∈ m.vars, 0 ≤ bound v ∧ bound v ≤ greatest) : m.size bound ≤ greatest ^ 2 := by
  have hfactors : 0 ≤ factorValue bound m.vars := factorValue_nonneg fun v hv => (h v hv).1
  calc
    m.size bound ≤ 1 * factorValue bound m.vars := mul_le_mul_of_nonneg_right hm.coef hfactors
    _ ≤ greatest ^ m.vars.length := by
      rw [one_mul]
      exact factorValue_le_pow h
    _ ≤ greatest ^ 2 := pow_le_pow_right₀ hgreatest hm.factors

theorem small_linear {v : Variable} {coef : Int} (h : |coef| ≤ 1) : (linear v coef).Small :=
  ⟨h, Nat.le_succ 1⟩

end Monomial

namespace Polynomial

theorem length_absorb_le (m : Monomial) (ms : List Monomial) :
    (absorb m ms).length ≤ ms.length + 1 := by
  induction ms with
  | nil => exact le_rfl
  | cons n ns ih =>
    unfold absorb
    split
    · simp
    · exact Nat.succ_le_succ ih

theorem length_mergeTerms_le (ms : List Monomial) : (mergeTerms ms).length ≤ ms.length := by
  have hfoldl : ∀ ns merged : List Monomial,
      (ns.foldl (fun merged m => absorb m merged) merged).length ≤ merged.length + ns.length := by
    intro ns
    induction ns with
    | nil => exact fun _ => le_rfl
    | cons n ns ih =>
      intro merged
      have hrest := ih (absorb n merged)
      have hfirst := length_absorb_le n merged
      rw [List.foldl_cons, List.length_cons]
      omega
  refine (List.length_filter_le ..).trans ((hfoldl _ []).trans ?_)
  rw [List.length_nil, Nat.zero_add]
  exact List.length_filter_le ..

theorem length_product_le (p q : Polynomial) :
    (p.product q).monomials.length ≤ p.monomials.length * q.monomials.length := by
  refine (length_mergeTerms_le _).trans ?_
  simp [List.length_flatMap]

theorem length_difference_le (p q : Polynomial) :
    (p.difference q).monomials.length ≤ p.monomials.length + q.monomials.length :=
  (length_mergeTerms_le _).trans (by simp)

theorem size_le_of_small {p : Polynomial} {n count : Nat} {bound : Variable → Int}
    {greatest : Int} (hp : p.Over n) (hgreatest : 1 ≤ greatest)
    (hbound : ∀ v < n, 0 ≤ bound v ∧ bound v ≤ greatest) (hsmall : ∀ m ∈ p.monomials, m.Small)
    (hcount : p.monomials.length ≤ count) : p.size bound ≤ count * greatest ^ 2 := by
  have hterm : ∀ x ∈ p.monomials.map (·.size bound), x ≤ greatest ^ 2 := by
    intro x hx
    obtain ⟨m, hm, rfl⟩ := List.mem_map.1 hx
    exact (hsmall m hm).size_le hgreatest fun v hv => hbound v ((hp m hm).2 v hv)
  calc
    p.size bound ≤ (p.monomials.map (·.size bound)).length • greatest ^ 2 :=
      List.sum_le_card_nsmul _ _ hterm
    _ = p.monomials.length * greatest ^ 2 := by rw [List.length_map, nsmul_eq_mul]
    _ ≤ count * greatest ^ 2 :=
      mul_le_mul_of_nonneg_right (by exact_mod_cast hcount) (sq_nonneg _)

end Polynomial

namespace Allocation

open NonlinearInteger.Polynomial NonlinearInteger.Search

variable {t : Table} {d : Difficulty} {k : Constraint}

theorem length_total_le (vs : List Variable) : (total vs).monomials.length ≤ vs.length :=
  (length_mergeTerms_le _).trans (by simp)

theorem small_of_mem_total {vs : List Variable} (h : vs.Nodup) {m : Monomial}
    (hm : m ∈ (total vs).monomials) : m.Small := by
  rw [monomials_total h] at hm
  obtain ⟨v, -, rfl⟩ := List.mem_map.1 hm
  exact Monomial.small_linear (by decide)

theorem IsExchange.small {m : Monomial} (hm : IsExchange m) : m.Small := by
  obtain ⟨a, b, -, hvars⟩ := hm.vars
  refine ⟨?_, by simp [hvars]⟩
  rcases hm.coef with hcoef | hcoef <;> simp [hcoef]

theorem monomials_goal (t : Table) : (goal t).monomials =
    (t.variablesWhere fun s => s.demand == t.query).map fun v => .linear v (-1) := by
  have hnodup := t.nodup_variablesWhere fun s => s.demand == t.query
  have hnegated : (goal t).monomials = mergeTerms
      ((t.variablesWhere fun s => s.demand == t.query).map fun v => .linear v (-1)) := by
    change mergeTerms _ = _
    rw [monomials_total hnodup, List.map_map]
    rfl
  rw [hnegated]
  refine mergeTerms_eq ?_ ?_
  · intro m hm
    obtain ⟨v, -, rfl⟩ := List.mem_map.1 hm
    rfl
  · refine List.pairwise_map.2 (hnodup.imp fun {v w} hvw heq => ?_)
    exact hvw (List.cons.inj heq).1

theorem length_variablesWhere_le (t : Table) (p : Share → Bool) :
    (t.variablesWhere p).length ≤ t.shares.length := by
  rw [Table.variablesWhere, List.length_map]
  exact (List.length_filter_le ..).trans (by simp)

theorem length_exchange_le (t : Table) (r : Ratio) :
    (exchange t r).monomials.length ≤ 2 * t.shares.length ^ 2 := by
  have htotal : ∀ p : Share → Bool,
      (total (t.variablesWhere p)).monomials.length ≤ t.shares.length :=
    fun p => (length_total_le _).trans (length_variablesWhere_le t p)
  have hproduct : ∀ p q : Share → Bool, ((total (t.variablesWhere p)).product
      (total (t.variablesWhere q))).monomials.length ≤ t.shares.length * t.shares.length :=
    fun p q => (length_product_le _ _).trans (Nat.mul_le_mul (htotal p) (htotal q))
  refine (length_difference_le _ _).trans ?_
  rw [two_mul, sq]
  exact Nat.add_le_add (hproduct _ _) (hproduct _ _)

namespace Limit

theorem small (h : t.Fits d) (hk : Limit t k) : ∀ m ∈ k.poly.monomials, m.Small := by
  cases hk with
  | cast ho => exact fun m => small_of_mem_total (nodup_castVariables h.nodup_shares ho)
  | need => exact fun m => small_of_mem_total (t.nodup_variablesWhere _)
  | ratio hr => exact fun m hm => ((isRatioLimit h hr).exchanges m hm).small

theorem length_le (hk : Limit t k) : k.poly.monomials.length ≤ 2 * t.shares.length ^ 2 := by
  have hlinear : ∀ vs : List Variable, vs.length ≤ t.shares.length →
      (total vs).monomials.length ≤ 2 * t.shares.length ^ 2 := by
    intro vs hvs
    have hle := (length_total_le vs).trans hvs
    nlinarith
  cases hk with
  | @cast o ho =>
    apply hlinear
    rw [List.length_map]
    exact (List.sublist_flatten_of_mem (List.mem_map_of_mem ho)).length_le
  | need => exact hlinear _ (length_variablesWhere_le t _)
  | ratio => exact length_exchange_le t _

theorem relation_eq (hk : Limit t k) : k.relation = .le ∨ k.relation = .ge := by
  cases hk with
  | cast => exact .inl rfl
  | need => exact .inr rfl
  | ratio => exact .inr rfl

theorem fitsInt64 (h : t.Fits d) (hk : Limit t k) : FitsInt64 k.limit := by
  cases hk with
  | @cast o ho =>
    have hcasts := (h.casts o ho).2
    simp only [maxCasts] at hcasts
    simp only [castLimit, FitsInt64]
    omega
  | @need demand need hneed =>
    have hneed := (h.needs need (List.mem_of_getElem? hneed)).2
    simp only [maxNeed] at hneed
    simp only [needLimit, FitsInt64]
    omega
  | ratio =>
    simp only [ratioLimit, FitsInt64]
    omega

/-- Without casts every need is violated, and nothing else is. -/
theorem holdsAt_zero_iff (h : t.Fits d) (hk : Limit t k) :
    k.HoldsAt (fun _ => 0) ↔ ¬IsNeedLimit k := by
  have hzero : ∀ (offers : List Offer) (demand : Nat), t.given (fun _ => 0) offers demand = 0 := by
    intro offers demand
    simp [Table.given, Table.value]
  cases hk with
  | @cast o ho =>
    rw [holdsAt_castLimit]
    refine iff_of_true ?_ fun hneed => by cases hneed.1
    simp [Table.spent, Table.value]
  | @need demand need hneed =>
    rw [holdsAt_needLimit h, Table.received, hzero]
    refine iff_of_false ?_ (not_not.2 (isNeedLimit t demand need))
    have hneed := (h.needs need (List.mem_of_getElem? hneed)).1
    omega
  | @ratio r hr hne =>
    refine iff_of_true ?_ (not_isNeedLimit_ratioLimit h hr hne)
    simp [Constraint.HoldsAt, ratioLimit, Relation.holds, eval_exchange h, Table.portion, hzero]

end Limit

/-- Sizes in 16-bit words, none of users, supplies and demands missing. -/
structure Difficulty.Fits16 (d : Difficulty) : Prop where
  users : 1 ≤ d.users ∧ d.users ≤ 65535
  supplies : 1 ≤ d.supplies ∧ d.supplies ≤ 65535
  demands : 1 ≤ d.demands ∧ d.demands ≤ 65535
  ratios : d.ratios ≤ 65535

theorem Difficulty.Fits16.isProper (h : d.Fits16) : d.isProper = true := by
  have husers := h.users.1
  have hsupplies := h.supplies.1
  have hdemands := h.demands.1
  simp only [Difficulty.isProper, Bool.and_eq_true, bne_iff_ne]
  omega

theorem length_shares_le (h : t.Fits d) :
    t.shares.length ≤ d.users * d.supplies * d.demands := by
  have hoffers : t.offers.length ≤ d.users * d.supplies := by
    have hle := h.offers.length_le
    rw [List.length_map] at hle
    simpa [pairs, List.length_flatMap] using hle
  have hshares : ∀ count ∈ t.offers.map fun o => o.shares.length, count ≤ d.demands := by
    intro count hcount
    obtain ⟨o, ho, rfl⟩ := List.mem_map.1 hcount
    have hle := (h.demands o ho).length_le
    rwa [List.length_range, ← List.length_map (f := fun demand => Share.mk o.user o.supply demand)]
      at hle
  calc
    t.shares.length = (t.offers.map fun o => o.shares.length).sum := List.length_flatMap
    _ ≤ (t.offers.map fun o => o.shares.length).length • d.demands :=
      List.sum_le_card_nsmul _ _ hshares
    _ ≤ d.users * d.supplies * d.demands := by
      rw [List.length_map, nsmul_eq_mul, Nat.cast_id]
      exact Nat.mul_le_mul_right _ hoffers

theorem mem_posed (h : t.Fits d) : k ∈ (posed t).constraints ↔ Limit t k :=
  List.mem_toArray.trans (mem_limits h)

theorem wellFormed_posed (h : t.Fits d) : (posed t).WellFormed where
  objective := over_negate (over_total fun v hv => Table.variablesWhere_lt hv)
  constraints k hk := ((mem_posed h).1 hk).over_poly
  normalized k hk := ((mem_posed h).1 hk).merged.normalized
  limits k hk := ((mem_posed h).1 hk).fitsInt64 h
  domainCount := by simp [posed]
  domains := by
    intro domain hd
    obtain rfl : domain = .standard := (Array.mem_replicate.1 hd).2
    exact ⟨by decide, by decide, by decide⟩

theorem domain_posed (t : Table) (v : Variable) :
    (posed t).domains.getD v .standard = .standard := by
  by_cases hv : v < t.shares.length <;> simp [posed, hv]

section Caps

variable (h : t.Fits d) {o : Offer} (ho : o ∈ t.offers) {s : Share} (hs : s ∈ o.shares)
include h ho hs

theorem caps_castLimit : (posed t).Caps (castLimit t o) (t.varOf s) := by
  have hcontains : (castLimit t o).poly.contains (t.varOf s) = true :=
    (contains_castLimit h.nodup_shares ho).2 hs
  refine ⟨rfl, Polynomial.mem_vars.2 (Polynomial.contains_iff.1 hcontains), fun domain hd => ?_⟩
  have hstandard := domain_posed t (t.varOf s)
  rw [Array.getD_eq_getD_getElem?, Option.mem_def.1 hd] at hstandard
  change domain = .standard at hstandard
  rw [hstandard]
  exact Int.natCast_nonneg o.casts

theorem eq_castLimit_of_caps (hk : k ∈ (posed t).constraints)
    (hcaps : (posed t).Caps k (t.varOf s)) : k = castLimit t o := by
  obtain ⟨o', ho', -, rfl⟩ := ((mem_posed h).1 hk).isCastLimit_iff.1 hcaps.1
  have hs' := (contains_castLimit h.nodup_shares ho').1
    (Polynomial.contains_iff.2 (Polynomial.mem_vars.1 hcaps.2.1))
  obtain ⟨huser, hsupply, -⟩ := o.mem_shares.1 hs
  obtain ⟨huser', hsupply', -⟩ := o'.mem_shares.1 hs'
  rw [h.offer_inj ho ho' (huser.trans huser'.symm) (hsupply.trans hsupply'.symm)]

/-- A share is capped by the casts of its offer and by nothing else. -/
theorem staticUb_posed : (posed t).staticUb (t.varOf s) = o.casts := by
  have hserves := List.ne_nil_of_mem (o.mem_shares.1 hs).2.2
  have hmem : castLimit t o ∈ (posed t).constraints := (mem_posed h).2 (.cast ho hserves)
  refine eq_of_forall_le_iff fun x => ?_
  rw [Formula.le_staticUb_iff, domain_posed]
  constructor
  · exact fun hx => hx.2 _ hmem (caps_castLimit h ho hs)
  · intro hx
    have hcasts := (h.casts o ho).2
    refine ⟨hx.trans ?_, fun k hk hcaps => ?_⟩
    · simp only [maxCasts] at hcasts
      simp only [Domain.standard]
      omega
    · rw [eq_castLimit_of_caps h ho hs hk hcaps]
      exact hx

end Caps

theorem staticLb_posed (t : Table) (v : Variable) : (posed t).staticLb v = 0 := by
  rw [Formula.staticLb, domain_posed]
  rfl

theorem exists_share (h : t.Fits d) {v : Variable} (hv : v < t.shares.length) :
    ∃ s, t.shares[v]? = some s ∧ t.varOf s = v ∧ ∃ o ∈ t.offers, s ∈ o.shares := by
  obtain ⟨o, ho, hs⟩ := List.mem_flatMap.1 (List.getElem_mem hv)
  exact ⟨_, List.getElem?_eq_getElem hv, h.nodup_shares.idxOf_getElem v hv, o, ho, hs⟩

theorem staticReach_posed (h : t.Fits d) {v : Variable} (hv : v < t.shares.length) :
    0 ≤ (posed t).staticReach v ∧ (posed t).staticReach v ≤ maxCasts := by
  obtain ⟨s, -, rfl, o, ho, hs⟩ := exists_share h hv
  obtain ⟨hone, hcasts⟩ := h.casts o ho
  simp only [Formula.staticReach, staticLb_posed, staticUb_posed h ho hs]
  rw [abs_zero, abs_of_nonneg (Int.natCast_nonneg _)]
  omega

/-- Few small terms are bounded, whatever the size of the instance. -/
theorem bounded_posed (h : t.Fits d) (hd : d.Fits16) {p : Polynomial}
    (hp : p.Over t.shares.length) (hsmall : ∀ m ∈ p.monomials, m.Small)
    (hlength : p.monomials.length ≤ 2 * t.shares.length ^ 2) : (posed t).Bounded p := by
  have hshares : t.shares.length ≤ 65535 ^ 3 := by
    refine (length_shares_le h).trans ?_
    have hpairs := Nat.mul_le_mul hd.users.2 hd.supplies.2
    exact Nat.mul_le_mul hpairs hd.demands.2
  have hcount : 2 * t.shares.length ^ 2 ≤ 2 * (65535 ^ 3) ^ 2 :=
    Nat.mul_le_mul_left 2 (Nat.pow_le_pow_left hshares 2)
  have hgreatest : 1 ≤ (maxCasts : Int) := by decide
  have hsize := size_le_of_small hp hgreatest (fun v hv => staticReach_posed h hv) hsmall
    (hlength.trans hcount)
  exact (Formula.bounded_iff hp).2 (hsize.trans (by decide))

theorem searchable_posed (h : t.Fits d) (hd : d.Fits16) {settings : Settings}
    (hgreedy : settings.greedyInit = false) : (posed t).Searchable settings := by
  have hgoal : ∀ m ∈ (goal t).monomials, ∃ v, m = .linear v (-1) := by
    intro m hm
    rw [monomials_goal] at hm
    obtain ⟨v, -, rfl⟩ := List.mem_map.1 hm
    exact ⟨v, rfl⟩
  refine ⟨hgreedy, ?_, ?_, ?_, ?_⟩
  · exact fun k hk => ((mem_posed h).1 hk).relation_eq
  · intro m hm
    obtain ⟨v, rfl⟩ := hgoal m hm
    rfl
  · intro k hk
    have hlimit := (mem_posed h).1 hk
    exact bounded_posed h hd hlimit.over_poly (hlimit.small h) hlimit.length_le
  · refine bounded_posed h hd (wellFormed_posed h).objective ?_ ?_
    · intro m hm
      obtain ⟨v, rfl⟩ := hgoal m hm
      exact Monomial.small_linear (by decide)
    · have hle := length_variablesWhere_le t fun s => s.demand == t.query
      change (goal t).monomials.length ≤ _
      rw [monomials_goal, List.length_map]
      nlinarith

/-- A variable is a share of an offer, zero between zero and the casts of the offer. -/
def ZeroShare (t : Table) (f : Formula) (a : Assignment) (v : Variable) : Prop :=
  ∃ s o, t.shares[v]? = some s ∧ f.names[v]? = some s.name ∧
    (o ∈ t.offers ∧ o.user = s.user ∧ o.supply = s.supply ∧ s.demand ∈ o.demands) ∧
    a.lbs[v]? = some 0 ∧ a.values[v]? = some 0 ∧ a.ubs[v]? = some (o.casts : Int)

/-- A search that has just started on the formula of a table: all shares are zero, and the
violated constraints are the needs. -/
structure StartsAtZero {ρ : Type} (t : Table) (f : Formula) (first : State ρ) : Prop where
  size_values : first.assignment.values.size = f.numVariables
  shares : ∀ v < f.numVariables, ZeroShare t f first.assignment v
  violated : ∀ c, c ∈ first.violated.members ↔ ∃ k, f.constraints[c]? = some k ∧ IsNeedLimit k

section Start

variable {ρ : Type} {settings : Settings} {source : ρ} {P : Problem} {first : State ρ}
  (h : t.Fits d) (hstart : start (posed t) settings source = .ok (P, first))
include h hstart

theorem zeroShare_of_start {v : Variable} (hv : v < (posed t).numVariables) :
    ZeroShare t (posed t) first.assignment v := by
  obtain ⟨hlb, hub, hvalue⟩ := assignment_of_start (wellFormed_posed h) hstart hv
  obtain ⟨s, hs, rfl, o, ho, hmem⟩ := exists_share h hv
  obtain ⟨huser, hsupply, hserved⟩ := o.mem_shares.1 hmem
  rw [staticLb_posed] at hlb hvalue
  rw [staticUb_posed h ho hmem] at hub hvalue
  have hzero : nearestZero 0 (o.casts : Int) = 0 := by
    unfold nearestZero
    split <;> omega
  rw [hzero] at hvalue
  exact ⟨s, o, hs, by simp [posed, hs], ⟨ho, huser, hsupply, hserved⟩, hlb, hvalue, hub⟩

theorem startsAtZero_posed : StartsAtZero t (posed t) first := by
  obtain ⟨hformula, -, hP, hfirst, -⟩ := start_eq_ok (wellFormed_posed h) hstart
  have hsize : first.assignment.values.size = (posed t).numVariables :=
    (hP.size_values hfirst.inside).trans (congrArg Formula.numVariables hformula)
  have hpoint : first.point = fun _ => 0 := by
    funext v
    by_cases hv : v < (posed t).numVariables
    · obtain ⟨_, _, -, -, -, -, hvalue, -⟩ := zeroShare_of_start h hstart hv
      simp [State.point, valuation, hvalue]
    · simp [State.point, valuation, hsize, hv]
  refine ⟨hsize, fun v hv => zeroShare_of_start h hstart hv, fun c => ?_⟩
  rw [hfirst.filed.mem_iff, Violates, hformula, hpoint]
  refine exists_congr fun k => and_congr_right fun hk => ?_
  have hlimit := (mem_posed h).1 (Array.mem_of_getElem? hk)
  rw [hlimit.holdsAt_zero_iff h, not_not]

end Start

theorem exists_generate (seed : List UInt8) (hd : d.isProper = true) :
    ∃ t : Table, t.Fits d ∧ generate seed d = .ok ⟨seed, d, t, posed t⟩ := by
  obtain ⟨⟨t, r⟩, hrun, hfits⟩ :=
    draws_table hd (Random.Xoshiro.ofBytes (Random.ChaCha.derive seed))
  refine ⟨t, hfits, ?_⟩
  rw [generate, if_pos hd, hrun]
  simp only [formula_eq hfits]

/-- Every generated instance can be searched, and the search starts at zero with the needs
as the only violated constraints. -/
theorem startsAtZero_of_generate {ρ : Type} (seed : List UInt8) (hd : d.Fits16)
    {settings : Settings} (hgreedy : settings.greedyInit = false) (source : ρ) :
    Succeeds (generate seed d) fun inst =>
      Succeeds (start inst.formula settings source) fun result =>
        StartsAtZero inst.table inst.formula result.2 := by
  obtain ⟨t, hfits, hgenerate⟩ := exists_generate seed hd.isProper
  obtain ⟨⟨P, first⟩, hstart⟩ := (judges_start (wellFormed_posed hfits) settings source).ok_iff.2
    (searchable_posed hfits hd hgreedy)
  exact ⟨_, hgenerate, _, hstart, startsAtZero_posed hfits hstart⟩

theorem startsAtZero_of_eight : (⟨8, 3, 4, 5⟩ : Difficulty).Fits16 ∧
    shortRun.greedyInit = false ∧
    Succeeds (generate (List.replicate 32 7) ⟨8, 3, 4, 5⟩) fun inst =>
      Succeeds (start inst.formula shortRun (Random.Xoshiro.ofSeed 0)) fun result =>
        StartsAtZero inst.table inst.formula result.2 := by
  have hd : (⟨8, 3, 4, 5⟩ : Difficulty).Fits16 :=
    ⟨by decide, by decide, by decide, by decide⟩
  exact ⟨hd, rfl, startsAtZero_of_generate (List.replicate 32 7) hd rfl _⟩

end Allocation
end NonlinearInteger
