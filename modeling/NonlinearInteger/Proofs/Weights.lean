import NonlinearInteger.Proofs.Sessions
import NonlinearInteger.Proofs.Transitions

/-!
# Weights over a session

Constraints always have positive weights. The objective has none until all
constraints have been satisfied for the first time, and a positive one from then on.
-/

namespace NonlinearInteger.Search

variable {ρ : Type} {P : Problem} {lbs ubs : Array Int} {s t : State ρ}

structure Weighted (s : State ρ) : Prop where
  positive : ∀ (c : Nat) (w : Int), s.weights[c]? = some w → 0 < w
  objective_eq_zero : 0 < s.bestUnsat → s.objectiveWeight = 0
  objective_pos : s.bestUnsat = 0 → 0 < s.objectiveWeight

namespace Weighted

theorem objective_nonneg (h : Weighted s) : 0 ≤ s.objectiveWeight := by
  rcases Nat.eq_zero_or_pos s.bestUnsat with hzero | hpos
  · exact (h.objective_pos hzero).le
  · exact (h.objective_eq_zero hpos).ge

theorem of_moved (h : Weighted s) {m : Move} (hm : Moved P lbs ubs s m t) : Weighted t := by
  constructor
  · rw [hm.weights_eq]
    exact h.positive
  · rw [hm.continues.bestUnsat_eq, hm.objectiveWeight_eq]
    exact h.objective_eq_zero
  · rw [hm.continues.bestUnsat_eq, hm.objectiveWeight_eq]
    exact h.objective_pos

/-- Weights that are raised stay positive, and the objective is raised only once all
constraints have been satisfied. -/
theorem of_adapted (h : Weighted s) (ha : Adapted P lbs ubs s t) : Weighted t := by
  constructor
  · intro c w hw
    rw [ha.raised c] at hw
    obtain ⟨old, hold, rfl⟩ := Option.map_eq_some_iff.1 hw
    have hpos := h.positive c old hold
    split <;> omega
  · rw [ha.continues.bestUnsat_eq, ha.objectiveWeight_eq]
    intro hpos
    have hzero := h.objective_eq_zero hpos
    rw [if_neg (by omega), hzero]
  · rw [ha.continues.bestUnsat_eq, ha.objectiveWeight_eq]
    intro hzero
    have hpos := h.objective_pos hzero
    split <;> omega

theorem of_transition (h : Weighted s) {kind : Option MoveKind}
    (ht : Transition P lbs ubs s kind t) : Weighted t := by
  cases ht with
  | chosen _ hm => exact h.of_moved hm
  | resorted _ ha hm => exact (h.of_adapted ha).of_moved hm
  | idle _ ha => exact h.of_adapted ha
  | exhausted _ _ _ ha => exact h.of_adapted ha

/-- The best result becomes that of the current assignment, or nothing changes. -/
theorem of_updateBest (h : Weighted s) (ht : updateBest s = .ok t) : Weighted t := by
  unfold updateBest at ht
  split at ht
  · rename_i himproves
    split at ht
    · cases ht
      refine ⟨h.positive, ?_, ?_⟩
      · -- A result that is still violated is kept only while none is feasible.
        intro (hpos : 0 < s.violated.size)
        have hold : 0 < s.bestUnsat := by
          by_contra hzero
          unfold improves at himproves
          simp [hzero] at himproves
          omega
        simpa [hpos.ne'] using h.objective_eq_zero hold
      · intro (hzero : s.violated.size = 0)
        rcases Nat.eq_zero_or_pos s.bestUnsat with hfeasible | hpos
        · simpa [hfeasible] using h.objective_pos hfeasible
        · simp [hpos, hzero]
    · cases ht
  · cases ht
    exact h

theorem of_apply [RandomSource ρ] (hP : Posed P lbs ubs) (hs : Consistent P lbs ubs s)
    (h : Weighted s) {v : Variable} {x : Int} (ht : apply P s v x = .ok t) : Weighted t := by
  by_cases hvalue : s.assignment.value v = .ok x
  · obtain ⟨old, hold, ht⟩ := bind_eq_ok.1 ht
    cases hvalue.symm.trans (mapError_eq_ok.1 hold)
    rw [if_pos rfl] at ht
    exact pure_eq_ok.1 ht ▸ h
  · exact h.of_moved (moved_of_apply (m := (v, x)) hP hs hvalue ht)

theorem withStep (h : Weighted s) (step : Nat) : Weighted { s with step := step } :=
  ⟨h.positive, h.objective_eq_zero, h.objective_pos⟩

theorem of_settleStep (h : Weighted s) {kind : MoveKind} (ht : settleStep P s kind = .ok t) :
    Weighted t := by
  have hcounted : Weighted { s with moves := s.moves.record kind } :=
    ⟨h.positive, h.objective_eq_zero, h.objective_pos⟩
  unfold settleStep at ht
  dsimp only at ht
  split at ht
  · obtain ⟨-, -, ht⟩ := bind_eq_ok.1 ht
    exact hcounted.of_updateBest ht
  · exact hcounted.of_updateBest ht

end Weighted

theorem weight_of_cachesOf {values : Array Int} {rows : List Row} {cs : List Constraint}
    {caches : List Cache} (h : cachesOf values rows cs = .ok caches) :
    ∀ cache ∈ caches, cache.weight = 1 := by
  induction rows generalizing cs caches with
  | nil =>
    cases h
    simp
  | cons row rows ih =>
    cases cs with
    | nil =>
      cases h
      simp
    | cons k cs =>
      obtain ⟨first, hfirst, h⟩ := bind_eq_ok.1 h
      obtain ⟨rest, hrest, h⟩ := bind_eq_ok.1 h
      obtain ⟨slopes, -, hfirst⟩ := bind_eq_ok.1 hfirst
      obtain ⟨value, -, hfirst⟩ := bind_eq_ok.1 hfirst
      cases pure_eq_ok.1 h
      cases pure_eq_ok.1 hfirst
      simpa using ih hrest

/-- Every weight starts at one, that of the objective only if nothing is violated. -/
theorem weighted_first {f : Formula} {settings : Settings} {source : ρ} {first : State ρ}
    (hstart : start f settings source = .ok (P, first)) : Weighted first := by
  obtain ⟨a, caches, objective, violated, hcaches, rfl⟩ := exists_of_start hstart
  refine ⟨?_, ?_, ?_⟩
  · intro c w hw
    obtain ⟨cache, hcache, rfl⟩ : ∃ cache, caches[c]? = some cache ∧ cache.weight = w := by
      simpa [State.weights] using hw
    rw [weight_of_cachesOf hcaches cache (List.mem_of_getElem? hcache)]
    exact Int.one_pos
  · intro (hpos : 0 < violated.members.size)
    have hne : violated.isEmpty = false := by
      simpa [IndexSet.isEmpty, Array.size_pos_iff] using hpos
    simp [hne]
  · intro (hzero : violated.members.size = 0)
    have hempty : violated.isEmpty = true := by simpa [IndexSet.isEmpty] using hzero
    simp [hempty]

end NonlinearInteger.Search
