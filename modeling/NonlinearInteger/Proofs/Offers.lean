import NonlinearInteger.Search.Candidates
import NonlinearInteger.Proofs.Moves

/-!
# Offers

Scores and feasible values of a consistent state are computed without a fault,
and every move in a pool changes a variable of the formula to a value within its
bounds.
-/

namespace NonlinearInteger

theorem Wide.succeeds_divFloor {x y : Int} (hx : |x| ≤ greatest) :
    Succeeds (divFloor x y) (|·| ≤ |x|) := by
  have hle : |Int.fdiv x y| ≤ |x| := by
    rw [Int.abs_eq_natAbs, Int.abs_eq_natAbs]
    exact Int.ofNat_le.2 (Int.natAbs_fdiv_le_natAbs x y)
  exact ⟨_, exact_of_abs_le (hle.trans hx), hle⟩

theorem Wide.succeeds_divCeil {x y : Int} (hx : |x| ≤ greatest) :
    Succeeds (divCeil x y) (|·| ≤ |x|) := by
  have hle : |-Int.fdiv (-x) y| ≤ |x| := by
    rw [abs_neg, ← abs_neg x, Int.abs_eq_natAbs, Int.abs_eq_natAbs]
    exact Int.ofNat_le.2 (Int.natAbs_fdiv_le_natAbs (-x) y)
  exact ⟨_, exact_of_abs_le (hle.trans hx), hle⟩

namespace Search

/-- A variable has a slot in a row. -/
def Occurs (P : Problem) (v : Variable) (c slot : Nat) : Prop :=
  ∃ row, P.rows[c]? = some row ∧ row.vars[slot]? = some v

/-- A pool of allowed moves. -/
def Offers (P : Problem) (lbs ubs : Array Int) (pool : Pool) : Prop :=
  ∀ m ∈ pool.entries, Allowed P lbs ubs m

variable {ρ : Type} {P : Problem} {lbs ubs : Array Int} {s : State ρ} {v : Variable} {x : Int}

theorem offers_empty : Offers P lbs ubs .empty := by
  intro m hm
  simp [Pool.empty] at hm

theorem Offers.insert {pool : Pool} (h : Offers P lbs ubs pool) {m : Move}
    (hm : Allowed P lbs ubs m) : Offers P lbs ubs (pool.insert m) := by
  unfold Pool.insert Pool.push
  split
  · exact h
  · intro n hn
    rcases Array.mem_push.1 hn with hn | rfl
    · exact h n hn
    · exact hm

namespace Posed

theorem lt_of_occurs (hP : Posed P lbs ubs) {c slot : Nat} (h : Occurs P v c slot) :
    v < P.formula.numVariables := by
  obtain ⟨row, hrow, hslot⟩ := h
  exact hP.lt_of_mem_vars hrow (Array.mem_of_getElem? hslot)

theorem occurs_of_mem (hP : Posed P lbs ubs) {o : Nat × Nat} (h : o ∈ occurrencesOf P.rows v) :
    Occurs P v o.1 o.2 :=
  hP.mem_occurrences.1 h

theorem limit_fits (hP : Posed P lbs ubs) {c : Nat} {row : Row} (hrow : P.rows[c]? = some row) :
    FitsInt64 row.limit := by
  obtain ⟨k, sense, hk, -, rfl⟩ := hP.row_cases hrow
  exact hP.formula.limits k (Array.mem_of_getElem? hk)

end Posed

namespace Consistent

theorem cache_of_row (hs : Consistent P lbs ubs s) {c : Nat} {row : Row}
    (hrow : P.rows[c]? = some row) : ∃ cache, s.caches[c]? = some cache := by
  have hlt : c < s.caches.size := by
    rw [hs.cached.size_eq]
    exact (Array.getElem?_eq_some_iff.1 hrow).1
  exact ⟨_, Array.getElem?_eq_getElem hlt⟩

theorem shows_of_row (hP : Posed P lbs ubs) (hs : Consistent P lbs ubs s) {c : Nat} {row : Row}
    {cache : Cache} (hrow : P.rows[c]? = some row) (hcache : s.caches[c]? = some cache) :
    ∃ p, Tame (reach lbs ubs) p s.assignment.values ∧
      cache.Shows row (p.eval s.point) (p.slopeAt s.point) := by
  obtain ⟨k, sense, hk, -, rfl⟩ := hP.row_cases hrow
  have hmem : k ∈ P.formula.constraints := Array.mem_of_getElem? hk
  exact ⟨k.poly, hP.tame_constraint hs.inside hmem, hs.cached.shows c k _ cache hk hrow hcache⟩

end Consistent

theorem succeeds_clamp (hP : Posed P lbs ubs) (hs : Consistent P lbs ubs s)
    (hv : v < P.formula.numVariables) (x : Int) (d : Direction) :
    Succeeds (clamp s.assignment v x d) fun r => ∀ y, r = some y → Allowed P lbs ubs (v, y) := by
  unfold clamp
  apply Succeeds.next (hs.lb_eq hP hv)
  apply Succeeds.next (hs.ub_eq hP hv)
  apply Succeeds.of_pure
  intro y hy
  have hcut : ∀ z : Int, (if valuation lbs v ≤ z ∧ z ≤ valuation ubs v then some z else none) =
      some y → Allowed P lbs ubs (v, y) := by
    intro z hz
    split at hz
    · rename_i hbetween
      cases hz
      exact ⟨hv, hbetween.1, hbetween.2⟩
    · cases hz
  cases d with
  | up => exact hcut _ hy
  | down => exact hcut _ hy

/-- What is left of a limit by the terms without a variable fits with room to spare. -/
theorem headroom_fits {bound : Variable → Int} {p : Polynomial} {values : Array Int}
    (h : Tame bound p values) (hv : v < values.size) {limit : Int} (hlimit : FitsInt64 limit) :
    |p.slopeAt (valuation values) v * valuation values v| ≤ Wide.greatest ∧
      |p.eval (valuation values) - p.slopeAt (valuation values) v * valuation values v| ≤
        Wide.greatest ∧
      |limit - (p.eval (valuation values) -
        p.slopeAt (valuation values) v * valuation values v)| ≤ Wide.greatest := by
  have hproduct := h.abs_slopeAt_mul_le hv (h.within.abs_le v hv)
  have hvalue := h.abs_eval_le
  have hfree := abs_sub (p.eval (valuation values))
    (p.slopeAt (valuation values) v * valuation values v)
  have hroom := abs_sub limit (p.eval (valuation values) -
    p.slopeAt (valuation values) v * valuation values v)
  have hlimit : |limit| ≤ 9223372036854775808 := by
    unfold FitsInt64 at hlimit
    rw [abs_le]
    omega
  have hmargin : maxMagnitude + maxMagnitude + 9223372036854775808 ≤ Wide.greatest := by decide
  have hpositive : 0 ≤ maxMagnitude := by decide
  omega

/-- Between a value and its limit there is room for every quotient. -/
theorem succeeds_rawFeasible (hP : Posed P lbs ubs) (hs : Consistent P lbs ubs s) {c slot : Nat}
    (h : Occurs P v c slot) (d : Direction) :
    Succeeds (rawFeasible P s v c slot d) fun _ => True := by
  have hv := hP.lt_of_occurs h
  obtain ⟨row, hrow, hslot⟩ := h
  obtain ⟨cache, hcache⟩ := hs.cache_of_row hrow
  obtain ⟨p, htame, hshows⟩ := hs.shows_of_row hP hrow hcache
  have hlt := hP.lt_size_values hs.inside hv
  obtain ⟨hproduct, hfree, hroom⟩ := headroom_fits htame hlt (hP.limit_fits hrow)
  unfold rawFeasible
  apply Succeeds.next (fetch_eq_ok.2 hrow)
  apply Succeeds.next (fetch_eq_ok.2 hcache)
  refine .next (fetch_eq_ok.2 (hshows.getElem?_slopes hslot)) ?_
  split
  · apply Succeeds.next (hs.value_eq hP hv)
    apply Succeeds.next (Wide.exact_of_abs_le hproduct)
    rw [hshows.value_eq]
    apply Succeeds.next (Wide.exact_of_abs_le hfree)
    apply Succeeds.next (Wide.exact_of_abs_le hroom)
    cases d with
    | up =>
      apply (Wide.succeeds_divFloor hroom).bind
      intro _ _
      exact .of_pure trivial
    | down =>
      apply (Wide.succeeds_divCeil hroom).bind
      intro _ _
      exact .of_pure trivial
  · exact .of_pure trivial

theorem succeeds_feasibleOn (hP : Posed P lbs ubs) (hs : Consistent P lbs ubs s) {c slot : Nat}
    (h : Occurs P v c slot) (d : Direction) :
    Succeeds (feasibleOn P s v c slot d) fun r => ∀ y, r = some y → Allowed P lbs ubs (v, y) := by
  unfold feasibleOn
  apply (succeeds_rawFeasible hP hs h d).bind
  intro raw _
  cases raw with
  | none => exact .of_pure (by simp)
  | some x => exact succeeds_clamp hP hs (hP.lt_of_occurs h) x d

theorem succeeds_feasible (hP : Posed P lbs ubs) (hs : Consistent P lbs ubs s)
    (hv : v < P.formula.numVariables) (d : Direction) :
    Succeeds (feasible P s v d) fun r => ∀ y, r = some y → Allowed P lbs ubs (v, y) := by
  unfold feasible
  cases d
  case' up => apply Succeeds.next (hs.ub_eq hP hv)
  case' down => apply Succeeds.next (hs.lb_eq hP hv)
  all_goals
    apply Succeeds.next (fetch_eq_ok.2 (hP.occurrences v hv))
    refine (Succeeds.foldlM (motive := fun _ => True) trivial ?_).bind ?_
    · rintro last ⟨c, slot⟩ ho -
      apply (succeeds_rawFeasible hP hs (hP.occurs_of_mem ho) _).bind
      intro raw _
      cases raw with
      | none => exact .of_pure trivial
      | some x => exact .of_pure trivial
    · intro last _
      exact succeeds_clamp hP hs hv last _

theorem succeeds_hardScore (hP : Posed P lbs ubs) (hs : Consistent P lbs ubs s)
    (hm : Allowed P lbs ubs (v, x)) : Succeeds (hardScore P s v x) fun _ => True := by
  unfold hardScore
  apply Succeeds.next (hs.value_eq hP hm.lt)
  apply Succeeds.next (hs.sub_eq hP hm)
  apply Succeeds.next (fetch_eq_ok.2 (hP.occurrences v hm.lt))
  apply Succeeds.foldlM trivial
  rintro score ⟨c, slot⟩ ho -
  obtain ⟨row, hrow, hslot⟩ := hP.mem_occurrences.1 ho
  obtain ⟨cache, hcache⟩ := hs.cache_of_row hrow
  obtain ⟨p, -, hshows⟩ := hs.shows_of_row hP hrow hcache
  apply Succeeds.next (fetch_eq_ok.2 hrow)
  apply Succeeds.next (fetch_eq_ok.2 hcache)
  refine .next (fetch_eq_ok.2 (hshows.getElem?_slopes hslot)) ?_
  exact .of_pure trivial

theorem succeeds_softScore (hP : Posed P lbs ubs) (hs : Consistent P lbs ubs s)
    (hm : Allowed P lbs ubs (v, x)) : Succeeds (softScore P s v x) fun _ => True := by
  unfold softScore
  apply Succeeds.next (fetch_eq_ok.2 (hP.coefs v hm.lt s.point))
  apply Succeeds.next (hs.value_eq hP hm.lt)
  apply Succeeds.next (hs.sub_eq hP hm)
  exact .of_pure trivial

theorem succeeds_score (hP : Posed P lbs ubs) (hs : Consistent P lbs ubs s)
    (hm : Allowed P lbs ubs (v, x)) : Succeeds (score P s v x) fun _ => True := by
  unfold score
  apply (succeeds_hardScore hP hs hm).bind
  intro _ _
  apply (succeeds_softScore hP hs hm).bind
  intro _ _
  exact .of_pure trivial

theorem succeeds_isTabu (hs : Consistent P lbs ubs s) (hv : v < P.formula.numVariables) :
    Succeeds (s.isTabu P v) fun _ => True := by
  unfold State.isTabu
  split
  · have hlt : v < s.tabuUntil.size := hs.size_tabuUntil ▸ hv
    apply Succeeds.next (fetch_of_lt hlt)
    exact .of_pure trivial
  · exact .of_pure trivial

theorem succeeds_isCandidate (hP : Posed P lbs ubs) (hs : Consistent P lbs ubs s)
    (hv : v < P.formula.numVariables) (x : Int) :
    Succeeds (isCandidate P s v x) fun b => b = true → Allowed P lbs ubs (v, x) := by
  unfold isCandidate
  apply Succeeds.next (hs.value_eq hP hv)
  split
  · exact .of_pure (by simp)
  · apply Succeeds.next (hs.admits_eq hP hv x)
    split
    · rename_i hadmits
      have hbetween := of_decide_eq_true hadmits
      refine (succeeds_isTabu hs hv).bind fun tabu _ => .of_pure ?_
      intro _
      exact ⟨hv, hbetween.1, hbetween.2⟩
    · exact .of_pure (by simp)

theorem succeeds_offer (hP : Posed P lbs ubs) (hs : Consistent P lbs ubs s)
    (hv : v < P.formula.numVariables) {pool : Pool} (hpool : Offers P lbs ubs pool) (x : Int) :
    Succeeds (offer P s pool v x) (Offers P lbs ubs) := by
  unfold offer
  apply (succeeds_isCandidate hP hs hv x).bind
  intro candidate hcandidate
  split
  · rename_i htrue
    exact .of_pure (hpool.insert (hcandidate htrue))
  · exact .of_pure hpool

theorem succeeds_offer? (hP : Posed P lbs ubs) (hs : Consistent P lbs ubs s)
    (hv : v < P.formula.numVariables) {pool : Pool} (hpool : Offers P lbs ubs pool)
    (x : Option Int) : Succeeds (offer? P s pool v x) (Offers P lbs ubs) := by
  cases x with
  | none => exact .of_pure hpool
  | some x => exact succeeds_offer hP hs hv hpool x

theorem succeeds_offerRow (hP : Posed P lbs ubs) (hs : Consistent P lbs ubs s) {pool : Pool}
    (hpool : Offers P lbs ubs pool) {c : Nat} (hc : c < P.rows.size) :
    Succeeds (offerRow P s pool c) (Offers P lbs ubs) := by
  have hrow : P.rows[c]? = some P.rows[c] := Array.getElem?_eq_getElem hc
  unfold offerRow
  apply Succeeds.next (fetch_eq_ok.2 hrow)
  apply Succeeds.foldlM hpool
  rintro pool ⟨v, slot⟩ hentry hpool
  have hslot := List.mem_zipIdx_iff_getElem?.1 hentry
  rw [Array.getElem?_toList] at hslot
  have hoccurs : Occurs P v c slot := ⟨_, hrow, hslot⟩
  have hv := hP.lt_of_occurs hoccurs
  unfold offerSlot
  apply (succeeds_feasibleOn hP hs hoccurs .up).bind
  intro greatest _
  apply (succeeds_feasibleOn hP hs hoccurs .down).bind
  intro least _
  apply (succeeds_offer? hP hs hv hpool greatest).bind
  intro pool hpool
  exact succeeds_offer? hP hs hv hpool least

theorem succeeds_movesOn (hP : Posed P lbs ubs) (hs : Consistent P lbs ubs s) {rows : List Nat}
    (hrows : ∀ c ∈ rows, c < P.rows.size) : Succeeds (movesOn P s rows) (Offers P lbs ubs) := by
  unfold movesOn
  apply Succeeds.foldlM offers_empty
  intro pool c hc hpool
  exact succeeds_offerRow hP hs hpool (hrows c hc)

theorem succeeds_repairs (hP : Posed P lbs ubs) (hs : Consistent P lbs ubs s) :
    Succeeds (repairs P s) (Offers P lbs ubs) := by
  unfold repairs
  apply succeeds_movesOn hP hs
  intro c hc
  exact hs.filed.valid.lt_of_mem (Array.mem_def.2 hc)

theorem succeeds_isTightAt (hs : Consistent P lbs ubs s) {c : Nat} (hc : c < P.rows.size) :
    Succeeds (isTightAt P s c) fun _ => True := by
  have hrow : P.rows[c]? = some P.rows[c] := Array.getElem?_eq_getElem hc
  obtain ⟨cache, hcache⟩ := hs.cache_of_row hrow
  unfold isTightAt
  apply Succeeds.next (fetch_eq_ok.2 hrow)
  apply Succeeds.next (fetch_eq_ok.2 hcache)
  exact .of_pure trivial

theorem Occurs.lt {c slot : Nat} (h : Occurs P v c slot) : c < P.rows.size := by
  obtain ⟨row, hrow, -⟩ := h
  exact (Array.getElem?_eq_some_iff.1 hrow).1

theorem succeeds_offerSlack (hP : Posed P lbs ubs) (hs : Consistent P lbs ubs s)
    {visited : List Nat × Pool} (hvisited : Offers P lbs ubs visited.2) {o : Nat × Nat}
    (ho : o.1 < P.rows.size) :
    Succeeds (offerSlack P s visited o) fun next => Offers P lbs ubs next.2 := by
  unfold offerSlack
  dsimp only
  split
  · exact .of_pure hvisited
  · apply (succeeds_isTightAt hs ho).bind
    intro tight _
    split
    · exact .of_pure hvisited
    · apply (succeeds_offerRow hP hs hvisited ho).bind
      intro pool hpool
      exact .of_pure hpool

theorem succeeds_improvements (hP : Posed P lbs ubs) (hs : Consistent P lbs ubs s) :
    Succeeds (improvements P s) (Offers P lbs ubs) := by
  unfold improvements
  refine (Succeeds.foldlM (motive := fun visited : List Nat × Pool => Offers P lbs ubs visited.2)
    offers_empty ?_).bind ?_
  · rintro ⟨visited, pool⟩ v hmem hpool
    have hv := hP.objectiveVars v hmem
    apply Succeeds.next (hs.lb_eq hP hv)
    apply (succeeds_offer hP hs hv hpool _).bind
    intro pool hpool
    apply Succeeds.next (hs.ub_eq hP hv)
    apply (succeeds_offer hP hs hv hpool _).bind
    intro pool hpool
    apply Succeeds.next (fetch_eq_ok.2 (hP.occurrences v hv))
    apply Succeeds.foldlM (motive := fun visited : List Nat × Pool => Offers P lbs ubs visited.2)
      hpool
    intro visited o ho hvisited
    exact succeeds_offerSlack hP hs hvisited (hP.occurs_of_mem ho).lt
  · rintro ⟨visited, pool⟩ hpool
    exact .of_pure hpool

theorem succeeds_boundMoves (hP : Posed P lbs ubs) (hs : Consistent P lbs ubs s) :
    Succeeds (boundMoves P s) (Offers P lbs ubs) := by
  unfold boundMoves
  apply Succeeds.foldlM offers_empty
  intro pool v hmem hpool
  have hv := hP.objectiveVars v hmem
  apply Succeeds.next (hs.ub_eq hP hv)
  apply Succeeds.next (hs.value_eq hP hv)
  split
  · exact .of_pure hpool
  · exact succeeds_offer hP hs hv hpool _

theorem succeeds_offerRise (hP : Posed P lbs ubs) (hs : Consistent P lbs ubs s) {pool : Pool}
    (hpool : Offers P lbs ubs pool) (current : Int) {o : Nat × Nat}
    (ho : o ∈ occurrencesOf P.rows v) :
    Succeeds (offerRise P s v current pool o) (Offers P lbs ubs) := by
  have hoccurs := hP.occurs_of_mem ho
  have hv := hP.lt_of_occurs hoccurs
  unfold offerRise
  apply (succeeds_isTightAt hs hoccurs.lt).bind
  intro tight _
  split
  · exact .of_pure hpool
  · apply (succeeds_feasibleOn hP hs hoccurs .up).bind
    intro greatest _
    cases greatest with
    | none => exact .of_pure hpool
    | some x =>
      dsimp only
      split
      · exact succeeds_offer hP hs hv hpool x
      · exact .of_pure hpool

theorem succeeds_rises (hP : Posed P lbs ubs) (hs : Consistent P lbs ubs s) :
    Succeeds (rises P s) (Offers P lbs ubs) := by
  unfold rises
  apply Succeeds.foldlM offers_empty
  intro pool v hmem hpool
  have hv := hP.objectiveVars v hmem
  apply Succeeds.next (hs.value_eq hP hv)
  apply Succeeds.next (hs.ub_eq hP hv)
  split
  · exact .of_pure hpool
  · apply (succeeds_isTabu hs hv).bind
    intro tabu _
    split
    · exact .of_pure hpool
    · apply Succeeds.next (fetch_eq_ok.2 (hP.occurrences v hv))
      apply Succeeds.foldlM hpool
      intro pool o ho hpool
      exact succeeds_offerRise hP hs hpool _ ho

end Search
end NonlinearInteger
