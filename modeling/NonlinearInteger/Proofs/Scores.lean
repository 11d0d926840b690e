import NonlinearInteger.Proofs.Exactness
import NonlinearInteger.Proofs.Weights
import Mathlib.Algebra.BigOperators.Group.Finset.Basic

/-!
# What scores tell

The score of a move has two parts. The weight of the objective counts with the sign of
the change of the objective, exactly. The weights of the constraints count as the weight
that is violated before less the weight that is violated after, exactly if the variable
is nowhere repeated in a term, and in any case no move gains from the constraints when
none is violated.
-/

namespace NonlinearInteger

theorem foldlM_add {ε β : Type} {f : Int → β → Except ε Int} {g : β → Int} {bs : List β}
    (h : ∀ b ∈ bs, ∀ total, f total b = .ok (total + g b)) (total : Int) :
    bs.foldlM f total = .ok (total + (bs.map g).sum) := by
  induction bs generalizing total with
  | nil => simp [pure, Except.pure]
  | cons b bs ih =>
    rw [List.foldlM_cons, h b List.mem_cons_self, List.map_cons, List.sum_cons, ← add_assoc]
    exact ih (fun c hc => h c (List.mem_cons_of_mem b hc)) _

namespace Search

variable {ρ : Type} {P : Problem} {lbs ubs : Array Int} {s : State ρ} {v : Variable} {x : Int}
  {τ : Variable → Int}

theorem softScore_eq (hP : Posed P lbs ubs) (hs : Consistent P lbs ubs s)
    (hm : Allowed P lbs ubs (v, x)) (hx : τ v = x) (hsame : ∀ w, w ≠ v → τ w = s.point w) :
    softScore P s v x = .ok (
      if P.formula.objective.eval τ < P.formula.objective.eval s.point then s.objectiveWeight
      else if P.formula.objective.eval s.point < P.formula.objective.eval τ then
        -s.objectiveWeight
      else 0) := by
  have hchange := Polynomial.eval_eq_add_of_isLinear hP.linear hsame
  rw [hx] at hchange
  unfold softScore
  rw [fetch_eq_ok.2 (hP.coefs v hm.lt s.point), hs.value_eq hP hm.lt]
  change (Wide.sub x (s.point v) >>= _) = _
  rw [hs.sub_eq hP hm]
  change Except.ok _ = _
  simp only [Wide.mulSaturating, Wide.saturate_neg_iff, Wide.saturate_pos_iff, hchange]
  congr 2
  · simp
  · simp

/-- The weight of some constraints. -/
def weightOf (weights : Array Int) (cs : List Nat) : Int :=
  (cs.map fun c => weights.getD c 0).sum

/-- What a constraint weighs if it is violated. -/
def breach (P : Problem) (weights : Array Int) (σ : Variable → Int) (c : Nat) : Int :=
  if c ∈ P.formula.violatedAt σ then weights.getD c 0 else 0

theorem breach_congr {weights : Array Int} {σ : Variable → Int} {c : Nat}
    (h : Violates P τ c ↔ Violates P σ c) : breach P weights τ c = breach P weights σ c := by
  have hmem : c ∈ P.formula.violatedAt τ ↔ c ∈ P.formula.violatedAt σ := by
    rw [Formula.mem_violatedAt, Formula.mem_violatedAt]
    exact h
  simp only [breach, hmem]

/-- The weight of all that is violated adds up over all rows. -/
theorem weightOf_violatedAt (hP : Posed P lbs ubs) (weights : Array Int)
    (σ : Variable → Int) : weightOf weights (P.formula.violatedAt σ) =
      ∑ c ∈ Finset.range P.rows.size, breach P weights σ c := by
  unfold weightOf breach
  rw [← List.sum_toFinset _ (P.formula.nodup_violatedAt σ), ← Finset.sum_filter]
  refine Finset.sum_congr ?_ fun _ _ => rfl
  ext c
  simp only [List.mem_toFinset, Finset.mem_filter, Finset.mem_range, iff_and_self]
  intro hc
  obtain ⟨k, hk, -⟩ := Formula.mem_violatedAt.1 hc
  rw [hP.size_rows]
  exact (Array.getElem?_eq_some_iff.1 hk).1

theorem Consistent.entry_of_mem (hP : Posed P lbs ubs) (hs : Consistent P lbs ubs s) {c slot : Nat}
    (ho : (c, slot) ∈ occurrencesOf P.rows v) : ∃ k sense cache,
      P.formula.constraints[c]? = some k ∧ Sense.ofRelation? k.relation = some sense ∧
      P.rows[c]? = some (Row.of k sense) ∧ s.caches[c]? = some cache ∧
      cache.Shows (Row.of k sense) (k.poly.eval s.point) (k.poly.slopeAt s.point) ∧
      cache.slopes[slot]? = some (k.poly.slopeAt s.point v) := by
  obtain ⟨row, hrow, hslot⟩ := hP.mem_occurrences.1 ho
  obtain ⟨k, sense, hk, hsense, rfl⟩ := hP.row_cases hrow
  obtain ⟨cache, hcache⟩ := hs.cache_of_row hrow
  have hshows := hs.cached.shows c k _ cache hk hrow hcache
  exact ⟨k, sense, cache, hk, hsense, hrow, hcache, hshows, hshows.getElem?_slopes hslot⟩

/-- Where a variable is not repeated in a term, the score on a row is the weight that is
violated before less the weight that is violated after. -/
theorem rowScore_eq (hP : Posed P lbs ubs) (hs : Consistent P lbs ubs s)
    (hm : Allowed P lbs ubs (v, x)) (hx : τ v = x) (hsame : ∀ w, w ≠ v → τ w = s.point w)
    {c : Nat} {k : Constraint} {sense : Sense} {cache : Cache}
    (hcount : ∀ m ∈ k.poly.monomials, m.vars.count v ≤ 1)
    (hk : P.formula.constraints[c]? = some k) (hsense : Sense.ofRelation? k.relation = some sense)
    (hcache : s.caches[c]? = some cache)
    (hshows : cache.Shows (Row.of k sense) (k.poly.eval s.point) (k.poly.slopeAt s.point)) :
    rowScore (Row.of k sense) cache (k.poly.slopeAt s.point v) (x - s.point v) =
      breach P s.weights s.point c - breach P s.weights τ c := by
  have hlt := hP.lt_size_values hs.inside hm.lt
  have htame := hP.tame_constraint hs.inside (Array.mem_of_getElem? hk)
  obtain ⟨hmul, hadd⟩ := htame.fits_change hlt hm.abs_le_reach
  have hvalue : Wide.addSaturating cache.value
      (Wide.mulSaturating (k.poly.slopeAt s.point v) (x - s.point v)) = k.poly.eval τ := by
    rw [hshows.value_eq, Wide.mulSaturating, State.point, Wide.saturate_of_fits hmul,
      Wide.addSaturating, Wide.saturate_of_fits hadd,
      Polynomial.eval_eq_add_of_count_le_one hcount hsame, hx, State.point]
  have hweight : s.weights.getD c 0 = cache.weight := by
    simp [State.weights, hcache]
  have hmem : ∀ σ, c ∈ P.formula.violatedAt σ ↔ ¬k.HoldsAt σ := by
    intro σ
    rw [Formula.mem_violatedAt]
    constructor
    · rintro ⟨k', hk', hholds⟩
      cases hk.symm.trans hk'
      exact hholds
    · exact fun hholds => ⟨k, hk, hholds⟩
  have hbefore := isSatisfied_iff hsense hshows
  have hafter : (Row.of k sense).sense.holds (k.poly.eval τ) (Row.of k sense).limit = true ↔
      k.HoldsAt τ := by
    rw [Constraint.HoldsAt, Sense.holds_ofRelation? hsense, Option.some_inj]
    rfl
  unfold rowScore breach
  rw [hvalue, hweight]
  simp only [hmem, ← hbefore, ← hafter]
  cases (Row.of k sense).isSatisfied cache <;>
    cases (Row.of k sense).sense.holds (k.poly.eval τ) (Row.of k sense).limit <;> simp

theorem hardScore_eq (hP : Posed P lbs ubs) (hs : Consistent P lbs ubs s)
    (hm : Allowed P lbs ubs (v, x)) (hx : τ v = x) (hsame : ∀ w, w ≠ v → τ w = s.point w)
    (hcount : ∀ k ∈ P.formula.constraints, ∀ m ∈ k.poly.monomials, m.vars.count v ≤ 1) :
    hardScore P s v x = .ok (weightOf s.weights (P.formula.violatedAt s.point) -
      weightOf s.weights (P.formula.violatedAt τ)) := by
  have hloop : ∀ o ∈ occurrencesOf P.rows v, ∀ total, (do
      let row ← fetch P.rows o.1
      let cache ← fetch s.caches o.1
      return total + rowScore row cache (← fetch cache.slopes o.2) (x - s.point v) :
        Checked Int) =
      .ok (total + (breach P s.weights s.point o.1 - breach P s.weights τ o.1)) := by
    rintro ⟨c, slot⟩ ho total
    obtain ⟨k, sense, cache, hk, hsense, hrow, hcache, hshows, hslope⟩ := hs.entry_of_mem hP ho
    rw [← rowScore_eq hP hs hm hx hsame (hcount k (Array.mem_of_getElem? hk)) hk hsense hcache
      hshows, fetch_eq_ok.2 hrow, fetch_eq_ok.2 hcache]
    change (fetch cache.slopes slot >>= _) = _
    rw [fetch_eq_ok.2 hslope]
    rfl
  have hrows : ∀ c ∈ (occurrencesOf P.rows v).map Prod.fst, c ∈ Finset.range P.rows.size := by
    intro c hc
    obtain ⟨o, ho, rfl⟩ := List.mem_map.1 hc
    exact Finset.mem_range.2 (hP.occurs_of_mem ho).lt
  have hsum : ((occurrencesOf P.rows v).map fun o =>
      breach P s.weights s.point o.1 - breach P s.weights τ o.1).sum =
      ∑ c ∈ Finset.range P.rows.size,
        (breach P s.weights s.point c - breach P s.weights τ c) := by
    rw [← Finset.sum_subset (fun c hc => hrows c (List.mem_toFinset.1 hc)) ?_,
      List.sum_toFinset _ nodup_occurrencesOf, List.map_map]
    · rfl
    · -- Rows without the variable do not see it change.
      intro c _ hc
      have hnone := violates_congr hP hsame fun h => hc (List.mem_toFinset.2 h)
      rw [breach_congr hnone, sub_self]
  unfold hardScore
  rw [hs.value_eq hP hm.lt]
  change (Wide.sub x (s.point v) >>= _) = _
  rw [hs.sub_eq hP hm, fetch_eq_ok.2 (hP.occurrences v hm.lt)]
  change List.foldlM _ _ _ = _
  rw [foldlM_add hloop, hsum, zero_add, Finset.sum_sub_distrib, weightOf_violatedAt hP,
    weightOf_violatedAt hP]

/-- No move gains from the constraints when none is violated. -/
theorem hardScore_nonpos (hP : Posed P lbs ubs) (hs : Consistent P lbs ubs s)
    (hweighted : Weighted s) (hfeasible : s.isFeasible = true) {gain : Int}
    (h : hardScore P s v x = .ok gain) : gain ≤ 0 := by
  obtain ⟨old, -, h⟩ := bind_eq_ok.1 h
  obtain ⟨delta, -, h⟩ := bind_eq_ok.1 h
  obtain ⟨occurrences, -, h⟩ := bind_eq_ok.1 h
  refine foldlM_keeps (motive := fun gain : Int => gain ≤ 0) h (le_refl 0) ?_
  rintro total ⟨c, slot⟩ next - htotal hnext
  obtain ⟨row, hrow, hnext⟩ := bind_eq_ok.1 hnext
  obtain ⟨cache, hcache, hnext⟩ := bind_eq_ok.1 hnext
  obtain ⟨slope, -, hnext⟩ := bind_eq_ok.1 hnext
  have hcache := fetch_eq_ok.1 hcache
  have hpositive : 0 < cache.weight := hweighted.positive c _ (by simp [State.weights, hcache])
  have hviolates : ¬Violates P s.point c := by
    intro hviolates
    have hmem := Formula.mem_violatedAt.2 hviolates
    rw [hs.isFeasible_iff.1 hfeasible] at hmem
    cases hmem
  have hsatisfied : row.isSatisfied cache = true := by
    rw [hs.cached.violates_iff hP (fetch_eq_ok.1 hrow) hcache] at hviolates
    simpa using hviolates
  have hscore : rowScore row cache slope delta ≤ 0 := by
    simp only [rowScore, hsatisfied, Bool.true_and, Bool.not_true, Bool.false_and]
    split <;> simp [hpositive.le]
  have hsum := pure_eq_ok.1 hnext
  omega

theorem Gains.exists_parts {threshold : Int} {m : Move} (h : Gains P s threshold m) :
    ∃ hard soft, hardScore P s m.1 m.2 = .ok hard ∧ softScore P s m.1 m.2 = .ok soft ∧
      threshold < hard + soft := by
  obtain ⟨gain, hgain, hbeats⟩ := h
  obtain ⟨hard, hhard, hgain⟩ := bind_eq_ok.1 hgain
  obtain ⟨soft, hsoft, hgain⟩ := bind_eq_ok.1 hgain
  exact ⟨hard, soft, hhard, hsoft, pure_eq_ok.1 hgain ▸ hbeats⟩

/-- From a feasible state only a lower objective gains. -/
theorem eval_lt_of_gains (hP : Posed P lbs ubs) (hs : Consistent P lbs ubs s)
    (hweighted : Weighted s) (hfeasible : s.isFeasible = true) (hm : Allowed P lbs ubs (v, x))
    (hx : τ v = x) (hsame : ∀ w, w ≠ v → τ w = s.point w) (h : Gains P s 0 (v, x)) :
    P.formula.objective.eval τ < P.formula.objective.eval s.point := by
  obtain ⟨hard, soft, hhard, hsoft, hpositive⟩ := h.exists_parts
  have hnonpos := hardScore_nonpos hP hs hweighted hfeasible hhard
  have hweight := hweighted.objective_nonneg
  rw [softScore_eq hP hs hm hx hsame] at hsoft
  have hsoft := Except.ok.inj hsoft
  by_contra hnot
  rw [if_neg hnot] at hsoft
  split at hsoft <;> omega

end Search
end NonlinearInteger
