import NonlinearInteger.Search.Consistency
import NonlinearInteger.Proofs.Tallies
import NonlinearInteger.Proofs.Offers

/-!
# Checks of consistent states

Computing everything afresh on a consistent state finds no difference.
-/

namespace NonlinearInteger.Search

variable {ρ : Type} {P : Problem} {lbs ubs : Array Int} {s : State ρ}

theorem eq_ok_of_succeeds {ε : Type} {x : Except ε Unit} (h : Succeeds x fun _ => True) :
    x = .ok () := by
  obtain ⟨⟨⟩, hx, -⟩ := h
  exact hx

theorem checkValue_eq_ok (hP : Posed P lbs ubs) (hs : Consistent P lbs ubs s) {v : Variable}
    (hv : v < P.formula.numVariables) : checkValue P s.assignment v = .ok () := by
  have hbetween : valuation lbs v ≤ s.point v ∧ s.point v ≤ valuation ubs v :=
    hs.inside.between v (hP.size_lbs ▸ hv)
  apply eq_ok_of_succeeds
  unfold checkValue
  apply Succeeds.next (mapError_eq_ok.2 (hs.value_eq hP hv))
  apply Succeeds.next (mapError_eq_ok.2 (hs.admits_eq hP hv (s.point v)))
  rw [decide_eq_true hbetween]
  exact .of_pure trivial

/-- The cached slope is the one computed afresh, and slope times value with the
terms that avoid the variable is the cached value. -/
theorem checkSlot_eq_ok (hP : Posed P lbs ubs) (hs : Consistent P lbs ubs s) {c slot : Nat}
    {p : Polynomial} {row : Row} {cache : Cache} {v : Variable}
    (htame : Tame (reach lbs ubs) p s.assignment.values)
    (hshows : cache.Shows row (p.eval s.point) (p.slopeAt s.point))
    (hslot : row.vars[slot]? = some v) (hv : v < P.formula.numVariables) :
    checkSlot P s.assignment c p cache (v, slot) = .ok () := by
  have hlt := hP.lt_size_values hs.inside hv
  have hroom : maxMagnitude ≤ Wide.greatest := by decide
  have hmul : Wide.mul (p.slopeAt s.point v) (s.point v) =
      .ok (p.slopeAt s.point v * s.point v) :=
    Wide.exact_of_abs_le
      ((htame.abs_slopeAt_mul_le hlt (htame.within.abs_le v hlt)).trans hroom)
  have hadd : Wide.add (p.slopeAt s.point v * s.point v)
      (Polynomial.evalTerms s.point (p.avoiding v)) = .ok cache.value := by
    rw [Wide.add, Polynomial.slopeAt_mul_add_avoiding, hshows.value_eq]
    exact Wide.exact_of_abs_le (htame.abs_eval_le.trans hroom)
  apply eq_ok_of_succeeds
  unfold checkSlot
  apply Succeeds.next (mapError_eq_ok.2 (htame.slope v))
  apply Succeeds.next (mapError_eq_ok.2 (htame.evaluateWithout v))
  refine .next (mapError_eq_ok.2 (fetch_eq_ok.2 (hshows.getElem?_slopes hslot))) ?_
  split
  · rename_i hne
    exact absurd rfl hne
  · apply Succeeds.next (mapError_eq_ok.2 (hs.value_eq hP hv))
    apply Succeeds.next (mapError_eq_ok.2 hmul)
    apply Succeeds.next (mapError_eq_ok.2 hadd)
    rw [if_pos rfl]
    exact .of_pure trivial

theorem checkConstraint_eq_ok (hP : Posed P lbs ubs) (hs : Consistent P lbs ubs s)
    {k : Constraint} {c : Nat} (hk : P.formula.constraints[c]? = some k) :
    checkConstraint P s (k, c) = .ok () := by
  obtain ⟨sense, hsense, hrow⟩ := hP.row c k hk
  obtain ⟨cache, hcache⟩ := hs.cache_of_row hrow
  have hshows := hs.cached.shows c k _ cache hk hrow hcache
  have htame := hP.tame_constraint hs.inside (Array.mem_of_getElem? hk)
  have hlt : c < P.rows.size := (Array.getElem?_eq_some_iff.1 hrow).1
  have hslots : ((Row.of k sense).vars.toList.zipIdx.forM
      (checkSlot P s.assignment c k.poly cache)) = .ok () := by
    apply Succeeds.forM
    rintro ⟨v, slot⟩ hentry
    have hslot := List.mem_zipIdx_iff_getElem?.1 hentry
    rw [Array.getElem?_toList] at hslot
    exact checkSlot_eq_ok hP hs htame hshows hslot
      (hP.lt_of_mem_vars hrow (Array.mem_of_getElem? hslot))
  have hfiled : (Row.of k sense).isSatisfied cache ≠ decide (c ∈ s.violated.members) := by
    rw [ne_eq, Bool.eq_iff_iff, decide_eq_true_iff, isSatisfied_iff hsense hshows,
      hs.filed.mem_iff]
    intro h
    by_cases hholds : k.HoldsAt s.point
    · obtain ⟨k', hk', hnot⟩ := h.1 hholds
      cases hk.symm.trans hk'
      exact hnot hholds
    · exact hholds (h.2 ⟨k, hk, hholds⟩)
  apply eq_ok_of_succeeds
  unfold checkConstraint
  apply Succeeds.next (mapError_eq_ok.2 (fetch_eq_ok.2 hrow))
  apply Succeeds.next (mapError_eq_ok.2 (fetch_eq_ok.2 hcache))
  apply Succeeds.next (mapError_eq_ok.2 htame.evaluate)
  dsimp only
  split
  · apply Succeeds.next hslots
    apply Succeeds.next (mapError_eq_ok.2 (hs.filed.valid.contains_eq hlt))
    rw [if_neg hfiled]
    exact .of_pure trivial
  · rename_i hne
    exact absurd hshows.value_eq hne

theorem checkPosition_eq_ok (hs : Consistent P lbs ubs s) {c p : Nat}
    (hc : s.violated.members[p]? = some c) : checkPosition s (c, p) = .ok () := by
  apply eq_ok_of_succeeds
  unfold checkPosition
  apply Succeeds.next (mapError_eq_ok.2 (fetch_eq_ok.2 ((hs.filed.valid.inverse c p).2 hc)))
  rw [if_pos rfl]
  exact .of_pure trivial

theorem checkConsistency_eq_ok (hP : Posed P lbs ubs) (hs : Consistent P lbs ubs s) :
    checkConsistency P s = .ok () := by
  have hvalues : (List.range s.assignment.size).forM (checkValue P s.assignment) = .ok () := by
    apply Succeeds.forM
    intro v hv
    have hlt : v < s.assignment.values.size := List.mem_range.1 hv
    rw [hs.inside.size_values, hP.size_lbs] at hlt
    exact checkValue_eq_ok hP hs hlt
  have hconstraints : P.formula.constraints.toList.zipIdx.forM (checkConstraint P s) = .ok () := by
    apply Succeeds.forM
    rintro ⟨k, c⟩ hentry
    have hk := List.mem_zipIdx_iff_getElem?.1 hentry
    rw [Array.getElem?_toList] at hk
    exact checkConstraint_eq_ok hP hs hk
  have hpositions : s.violated.members.toList.zipIdx.forM (checkPosition s) = .ok () := by
    apply Succeeds.forM
    rintro ⟨c, p⟩ hentry
    have hc := List.mem_zipIdx_iff_getElem?.1 hentry
    rw [Array.getElem?_toList] at hc
    exact checkPosition_eq_ok hs hc
  apply eq_ok_of_succeeds
  unfold checkConsistency
  apply Succeeds.next hvalues
  apply Succeeds.next hconstraints
  apply Succeeds.next hpositions
  unfold checkObjective
  apply Succeeds.next (mapError_eq_ok.2 (hP.objectiveValue_eq hs.inside))
  split
  · exact .of_pure trivial
  · rename_i hne
    exact absurd hs.objective_eq.symm hne

end NonlinearInteger.Search
