import NonlinearInteger.Proofs.ExtremeValues

/-!
# Scores and moves

A score is read from the caches before the move that it is for. Where no constraint repeats
the variable in a term, it is what the move turns out to do: the weight of the violated
constraints falls by as much as the one part says, and the objective changes with the sign
of the other.
-/

namespace NonlinearInteger.Search

variable {ρ : Type} {P : Problem} {lbs ubs : Array Int} {s t : State ρ} {v : Variable} {x : Int}

theorem allowed_of_admits (hP : Posed P lbs ubs) (hs : Consistent P lbs ubs s)
    (h : s.assignment.admits v x = .ok true) : Allowed P lbs ubs (v, x) := by
  have hadmits := h
  obtain ⟨lb, hlb, -⟩ := bind_eq_ok.1 h
  have hv : v < P.formula.numVariables := by
    rw [← hP.size_lbs, ← hs.inside.lbs_eq]
    exact (Array.getElem?_eq_some_iff.1 (fetch_eq_ok.1 hlb)).1
  rw [hs.admits_eq hP hv, Except.ok.injEq, decide_eq_true_eq] at hadmits
  exact ⟨hv, hadmits.1, hadmits.2⟩

/-- What the two parts of the score of a move foretell of the state that it leads to. The
weights are the same before and after. -/
structure Foretold (P : Problem) (f : Formula) (s : State ρ) (m : Move) (t : State ρ) :
    Prop where
  weights_eq : t.weights = s.weights
  objectiveWeight_eq : t.objectiveWeight = s.objectiveWeight
  hard : ∃ found rest, f.violated s.assignment.values = .ok found ∧
    f.violated t.assignment.values = .ok rest ∧
    hardScore P s m.1 m.2 = .ok (weightOf s.weights found - weightOf t.weights rest)
  objective_before : f.objectiveValue s.assignment.values = .ok s.objective
  objective_after : f.objectiveValue t.assignment.values = .ok t.objective
  soft : softScore P s m.1 m.2 = .ok (
    if t.objective < s.objective then s.objectiveWeight
    else if s.objective < t.objective then -s.objectiveWeight
    else 0)

variable [RandomSource ρ]

theorem weights_of_apply (hP : Posed P lbs ubs) (hs : Consistent P lbs ubs s)
    (h : apply P s v x = .ok t) :
    t.weights = s.weights ∧ t.objectiveWeight = s.objectiveWeight := by
  by_cases hvalue : s.assignment.value v = .ok x
  · cases (apply_of_value hvalue).symm.trans h
    exact ⟨rfl, rfl⟩
  · have hmoved := moved_of_apply (m := (v, x)) hP hs hvalue h
    exact ⟨hmoved.weights_eq, hmoved.objectiveWeight_eq⟩

theorem foretold_of_allowed (hP : Posed P lbs ubs) (hs : Consistent P lbs ubs s)
    (hm : Allowed P lbs ubs (v, x)) (hlinear : ∀ k ∈ P.formula.constraints, k.poly.LinearIn v) :
    Succeeds (apply P s v x) (Foretold P P.formula s (v, x)) := by
  obtain ⟨t, happly, hcontinues, hpoint, hsame⟩ := succeeds_apply hP hs hm
  obtain ⟨hweights, hobjectiveWeight⟩ := weights_of_apply hP hs happly
  have ht := hcontinues.consistent
  have hhard := hardScore_eq hP hs hm hpoint hsame hlinear
  have hsoft := softScore_eq hP hs hm hpoint hsame
  rw [← hs.objective_eq, ← ht.objective_eq] at hsoft
  exact ⟨t, happly, {
    weights_eq := hweights
    objectiveWeight_eq := hobjectiveWeight
    hard := ⟨_, _, hP.violated_eq hs.inside, hP.violated_eq ht.inside, hweights ▸ hhard⟩
    objective_before := hs.objective_eq ▸ hP.objectiveValue_eq hs.inside
    objective_after := ht.objective_eq ▸ hP.objectiveValue_eq ht.inside
    soft := hsoft }⟩

/-- On every reachable state the score of a value within its bounds, for a variable that no
constraint repeats in a term, is what setting it to that value does. -/
theorem foretold_of_reachable {f : Formula} (hf : f.Built) {settings : Settings} {source : ρ}
    {first : State ρ} (hstart : start f settings source = .ok (P, first))
    (hs : Reachable P first s) (hlinear : ∀ k ∈ f.constraints, k.poly.LinearIn v)
    (hx : s.assignment.admits v x = .ok true) :
    Succeeds (apply P s v x) (Foretold P f s (v, x)) := by
  obtain ⟨rfl, -, hP, -⟩ := start_eq_ok hf.wellFormed hstart
  have hs := (sound_of_reachable hP (sound_first hf hstart) hs).consistent
  exact foretold_of_allowed hP hs (allowed_of_admits hP hs hx) hlinear

/-- A move that breaks the only constraint and raises the objective. -/
theorem foretold_of_bilinear : ∃ (P : Problem) (first s : State Random.Xoshiro),
    bilinear.Built ∧ start bilinear shortRun (.ofSeed 0) = .ok (P, first) ∧ Reachable P first s ∧
      (∀ k ∈ bilinear.constraints, k.poly.LinearIn 1) ∧ s.assignment.admits 1 1 = .ok true ∧
        Succeeds (apply P s 1 1) (Foretold P bilinear s (1, 1)) := by
  obtain ⟨P, first, s, hstart, hs, ha⟩ := exists_reachable_bilinear
  have hlinear : ∀ k ∈ bilinear.constraints, k.poly.LinearIn 1 := by decide
  have hx : s.assignment.admits 1 1 = .ok true := by
    rw [ha]
    rfl
  exact ⟨P, first, s, built_bilinear, hstart, hs, hlinear, hx,
    foretold_of_reachable built_bilinear hstart hs hlinear hx⟩

end NonlinearInteger.Search
