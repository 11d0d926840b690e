import NonlinearInteger.Proofs.Moments
import NonlinearInteger.Proofs.Scores

/-!
# Repairs

If no variable is repeated in a term of a constraint, the score is the true change of
the weight that is violated. Until a feasible assignment has been found the objective
has no weight, so every repair lowers the weight of the violated constraints, at weights
that it leaves as they are.
-/

namespace NonlinearInteger

/-- No term of a constraint repeats a variable. -/
def Formula.Multilinear (f : Formula) : Prop :=
  ∀ k ∈ f.constraints, ∀ m ∈ k.poly.monomials, m.vars.Nodup

instance (f : Formula) : Decidable f.Multilinear :=
  inferInstanceAs (Decidable (∀ k ∈ f.constraints, ∀ m ∈ k.poly.monomials, m.vars.Nodup))

namespace Search

variable {ρ : Type} {P : Problem} {lbs ubs : Array Int} {s t : State ρ} {m : Move}

/-- A step that lowers the weight of the violated constraints, as the formula finds them,
without a change of any weight. Only with the first feasible assignment, which ends the
repairs, the objective is given its weight once the step is settled. -/
structure Repairs [RandomSource ρ] (P : Problem) (f : Formula) (before after : State ρ) :
    Prop where
  taken : ∃ taken, takeStep P before = .ok (some .feasibleUnsat, taken) ∧
    settleStep P taken .feasibleUnsat = .ok after ∧ taken.weights = before.weights ∧
    taken.objectiveWeight = before.objectiveWeight
  weights_eq : after.weights = before.weights
  objectiveWeight_eq : after.objectiveWeight =
    if after.bestUnsat = 0 then 1 else before.objectiveWeight
  falls : ∃ found rest, f.violated before.assignment.values = .ok found ∧
    f.violated after.assignment.values = .ok rest ∧
    weightOf before.weights rest < weightOf before.weights found

/-- Without a weight of the objective, what gains lowers the weight that is violated. -/
theorem weightOf_lt_of_gains (hP : Posed P lbs ubs) (hs : Consistent P lbs ubs s)
    (hlinear : P.formula.Multilinear) (hzero : s.objectiveWeight = 0)
    (hm : Moved P lbs ubs s m t) (hgains : Gains P s 0 m) :
    weightOf s.weights (P.formula.violatedAt t.point) <
      weightOf s.weights (P.formula.violatedAt s.point) := by
  obtain ⟨hard, soft, hhard, hsoft, hpositive⟩ := hgains.exists_parts
  have hcount : ∀ k ∈ P.formula.constraints, ∀ n ∈ k.poly.monomials, n.vars.count m.1 ≤ 1 :=
    fun k hk n hn => List.nodup_iff_count_le_one.1 (hlinear k hk n hn) m.1
  rw [hardScore_eq hP hs hm.allowed hm.point_eq hm.point_of_ne hcount] at hhard
  rw [softScore_eq hP hs hm.allowed hm.point_eq hm.point_of_ne, hzero] at hsoft
  have hhard := Except.ok.inj hhard
  have hsoft : 0 = soft := by simpa using hsoft
  omega

variable [RandomSource ρ] {clock : Clock}

theorem Stepped.repairs {before taken after : State ρ}
    (h : Stepped P lbs ubs before .feasibleUnsat taken after) (hP : Posed P lbs ubs)
    (hlinear : P.formula.Multilinear) (hunsat : 0 < before.bestUnsat) :
    Repairs P P.formula before after := by
  have hs := h.sound.consistent
  have hzero := h.sound.weighted.objective_eq_zero hunsat
  have hrecorded := h.recorded
  have hafter := (h.sound_after hP).consistent
  obtain ⟨m, hgains, hm⟩ : ∃ m, Gains P before 0 m ∧ Moved P lbs ubs before m taken := by
    cases h.transition hP with
    | chosen hchoice hm =>
      cases hchoice with
      | feasibleUnsat _ _ hgains _ => exact ⟨_, hgains, hm⟩
    | resorted hresort _ _ => cases hresort
  have hpoint : after.point = taken.point :=
    congrArg (fun a : Assignment => valuation a.values) hrecorded.assignment_eq
  refine ⟨⟨taken, h.take, h.settle, hm.weights_eq, hm.objectiveWeight_eq⟩, ?_, ?_, ?_⟩
  · rw [State.weights, hrecorded.caches_eq]
    exact hm.weights_eq
  · rw [hrecorded.objectiveWeight_eq, hm.continues.bestUnsat_eq, hm.objectiveWeight_eq]
    simp only [hunsat, true_and]
  · refine ⟨_, _, hP.violated_eq hs.inside, hP.violated_eq hafter.inside, ?_⟩
    change weightOf _ (P.formula.violatedAt after.point) < _
    rw [hpoint]
    exact weightOf_lt_of_gains hP hs hlinear hzero hm hgains

/-- In a run from a first state, every repair before the first feasible assignment lowers
the weight that is violated. -/
theorem repairs_of_start {f : Formula} (hf : f.Built) (hlinear : f.Multilinear)
    {settings : Settings} {source : ρ} {first : State ρ}
    (hstart : start f settings source = .ok (P, first)) (clock : Clock) :
    Nonempty (Run P clock first) ∧ ∀ (run : Run P clock first) (i : Nat) (before after : State ρ),
      run.HasStep i before .feasibleUnsat after → 0 < before.bestUnsat →
        Repairs P f before after := by
  obtain ⟨rfl, -, hP, -⟩ := start_eq_ok hf.wellFormed hstart
  have hs := sound_first hf hstart
  refine ⟨Run.nonempty hP hs clock, ?_⟩
  intro run i before after hstep hunsat
  obtain ⟨taken, hstepped⟩ := run.stepped hP hs hstep
  exact hstepped.repairs hP hlinear hunsat

theorem repairs_of_bilinear : ∃ (P : Problem) (first : State Random.Xoshiro),
    bilinear.Built ∧ bilinear.Multilinear ∧
      start bilinear shortRun (.ofSeed 0) = .ok (P, first) ∧
      Nonempty (Run P .never first) ∧
        ∀ (run : Run P .never first) (i : Nat) (before after : State Random.Xoshiro),
          run.HasStep i before .feasibleUnsat after → 0 < before.bestUnsat →
            Repairs P bilinear before after := by
  have hlinear : bilinear.Multilinear := by decide
  obtain ⟨P, first, hstart, -⟩ := start_bilinear
  exact ⟨P, first, built_bilinear, hlinear, hstart,
    repairs_of_start built_bilinear hlinear hstart .never⟩

end Search
end NonlinearInteger
