import NonlinearInteger.Proofs.Moments

/-!
# Accounts of weights

A constraint weighs one, and one more for every earlier step that started with it violated
and had no repair to make: a walk among the violated constraints, or an idle step. The
objective weighs nothing until all constraints have been satisfied for the first time;
from then on its weight is between one and a hundred and never falls.
-/

namespace NonlinearInteger.Search

variable {ρ : Type} {P : Problem} {lbs ubs : Array Int} {s t : State ρ}

/-- The kinds of steps before which violated constraints gain weight. -/
def raisingKinds : List MoveKind := [.randomWalkUnsat, .idle]

/-- Whether a step of a kind raises the weight of a constraint: the formula finds it
violated at the values where the step starts. -/
def raises (f : Formula) (c : Nat) (values : Array Int) (kind : MoveKind) : Bool :=
  raisingKinds.elem kind &&
    match f.violated values with
    | .ok found => found.elem c
    | .error _ => false

theorem raises_iff (hP : Posed P lbs ubs) (hs : Consistent P lbs ubs s) {c : Nat}
    {kind : MoveKind} : raises P.formula c s.assignment.values kind = true ↔
      kind ∈ raisingKinds ∧ c ∈ s.violated.members := by
  rw [hs.filed.mem_iff, raises, hP.violated_eq hs.inside, Bool.and_eq_true, List.elem_iff,
    List.elem_iff, Formula.mem_violatedAt]
  rfl

theorem Choice.notMem_raisingKinds {kind : MoveKind} {m : Move} (h : Choice P s kind m) :
    kind ∉ raisingKinds := by
  cases h <;> decide

/-- While a constraint is violated, a step resorts to a walk among the violated ones. -/
theorem Resort.mem_raisingKinds {kind : MoveKind} {m : Move} (h : Resort P s kind m) {c : Nat}
    (hc : c ∈ s.violated.members) : kind ∈ raisingKinds := by
  have hviolated : ¬s.isFeasible = true := by
    intro hfeasible
    have hempty : s.violated.members = #[] := by
      simpa [State.isFeasible, IndexSet.isEmpty] using hfeasible
    simp [hempty] at hc
  cases h with
  | randomWalkSat hfeasible _ _ => exact absurd hfeasible hviolated
  | randomWalkUnsat _ _ => decide
  | objectiveStep hfeasible _ _ => exact absurd hfeasible hviolated

/-- One step raises exactly the weights that it is said to raise, each by one. -/
theorem Transition.weights_eq (hP : Posed P lbs ubs) (hs : Consistent P lbs ubs s)
    {kind : MoveKind} (h : Transition P lbs ubs s (some kind) t) (c : Nat) :
    t.weights[c]? = s.weights[c]?.map fun w =>
      if raises P.formula c s.assignment.values kind then w + 1 else w := by
  have hraises : raises P.formula c s.assignment.values kind = true ↔
      kind ∈ raisingKinds ∧ c ∈ s.violated.members := raises_iff hP hs
  have hadapted : ∀ {a : State ρ}, Adapted P lbs ubs s a →
      (c ∈ s.violated.members → kind ∈ raisingKinds) → a.weights[c]? = s.weights[c]?.map fun w =>
        if raises P.formula c s.assignment.values kind then w + 1 else w := by
    intro a ha hkind
    simp only [ha.raised c, hraises, and_iff_right_of_imp hkind]
  cases h with
  | chosen hchoice hm =>
    have hnot : ¬raises P.formula c s.assignment.values kind = true := fun h =>
      hchoice.notMem_raisingKinds (hraises.1 h).1
    simp [hm.weights_eq, hnot]
  | resorted hresort ha hm =>
    rw [hm.weights_eq]
    exact hadapted ha hresort.mem_raisingKinds
  | idle _ ha => exact hadapted ha fun _ => by decide

/-- A weight of the objective grows to another, which is within the limit if it is. -/
def GrowsWithin (low high : Int) : Prop := low ≤ high ∧ high ≤ max low maxObjectiveWeight

theorem GrowsWithin.refl (w : Int) : GrowsWithin w w := ⟨le_rfl, le_max_left _ _⟩

theorem GrowsWithin.trans {u v w : Int} (h : GrowsWithin u v) (h' : GrowsWithin v w) :
    GrowsWithin u w := by
  unfold GrowsWithin at *
  omega

theorem Adapted.growsWithin {a : State ρ} (h : Adapted P lbs ubs s a) :
    GrowsWithin s.objectiveWeight a.objectiveWeight := by
  rw [h.objectiveWeight_eq]
  split
  · unfold GrowsWithin
    omega
  · exact .refl _

theorem Transition.growsWithin {kind : Option MoveKind} (h : Transition P lbs ubs s kind t) :
    GrowsWithin s.objectiveWeight t.objectiveWeight := by
  cases h with
  | chosen _ hm => exact hm.objectiveWeight_eq ▸ .refl _
  | resorted _ ha hm => exact hm.objectiveWeight_eq ▸ ha.growsWithin
  | idle _ ha => exact ha.growsWithin
  | exhausted _ _ _ ha => exact ha.growsWithin

theorem Recorded.growsWithin (h : Recorded s t) (hs : Weighted s) :
    GrowsWithin s.objectiveWeight t.objectiveWeight := by
  rw [h.objectiveWeight_eq]
  split
  · rename_i hfirst
    rw [hs.objective_eq_zero hfirst.1]
    exact ⟨by decide, by decide⟩
  · exact .refl _

variable [RandomSource ρ] {clock : Clock}

section Stepped

variable {before taken after : State ρ} {kind : MoveKind}

theorem Stepped.weights_eq (h : Stepped P lbs ubs before kind taken after) (hP : Posed P lbs ubs)
    (c : Nat) : after.weights[c]? = before.weights[c]?.map fun w =>
      if raises P.formula c before.assignment.values kind then w + 1 else w := by
  rw [State.weights, h.recorded.caches_eq]
  exact (h.transition hP).weights_eq hP h.sound.consistent c

theorem Stepped.growsWithin (h : Stepped P lbs ubs before kind taken after)
    (hP : Posed P lbs ubs) : GrowsWithin before.objectiveWeight after.objectiveWeight :=
  (h.transition hP).growsWithin.trans
    (h.recorded.growsWithin (h.sound.weighted.of_transition (h.transition hP)))

end Stepped

namespace Run

variable (run : Run P clock s)

/-- How many of the first steps of a run raise the weight of a constraint. -/
def raised (f : Formula) (c i : Nat) : Nat :=
  ((run.moments.zip run.visited).take i).countP fun (before, kind, _) =>
    raises f c before.assignment.values kind

variable {run} {i j : Nat} {moment later before after : State ρ} {kind : MoveKind}

theorem raised_succ (h : run.HasStep i before kind after) (f : Formula) (c : Nat) :
    run.raised f c (i + 1) =
      run.raised f c i + if raises f c before.assignment.values kind then 1 else 0 := by
  have hstep : (run.moments.zip run.visited)[i]? = some (before, kind, after) :=
    List.getElem?_zip_eq_some.2 ⟨h.before, h.after⟩
  rw [raised, List.take_add_one, hstep, Option.toList_some, List.countP_append,
    List.countP_singleton]
  rfl

variable (hP : Posed P lbs ubs) (hs : Sound P lbs ubs s)
include hP hs

/-- The weight of a constraint counts the steps that raised it. -/
theorem weights_eq (hmoment : run.moments[i]? = some moment) (c : Nat) :
    moment.weights[c]? = s.weights[c]?.map fun w => w + (run.raised P.formula c i : Int) := by
  induction i generalizing moment with
  | zero =>
    cases hmoment
    simp [raised]
  | succ i ih =>
    obtain ⟨before, kind, after, hstep, rfl⟩ := run.exists_step hmoment
    obtain ⟨taken, hstepped⟩ := run.stepped hP hs hstep
    change after.weights[c]? = _
    rw [hstepped.weights_eq hP c, ih hstep.before, Option.map_map, raised_succ hstep]
    congr 1
    funext w
    simp only [Function.comp_apply]
    split <;> push_cast <;> ring

theorem growsWithin (hij : i ≤ j) (hmoment : run.moments[i]? = some moment)
    (hlater : run.moments[j]? = some later) :
    GrowsWithin moment.objectiveWeight later.objectiveWeight := by
  induction j, hij using Nat.le_induction generalizing later with
  | base =>
    cases hmoment.symm.trans hlater
    exact .refl _
  | succ j _ ih =>
    obtain ⟨before, kind, after, hstep, rfl⟩ := run.exists_step hlater
    obtain ⟨taken, hstepped⟩ := run.stepped hP hs hstep
    exact (ih hstep.before).trans (hstepped.growsWithin hP)

/-- A last attempt without a step finds nothing violated, so no constraint gains. -/
theorem result_weights (c : Nat) : run.result.weights[c]? = run.last.weights[c]? := by
  rcases run.result_cases hP hs with hsame | hattempt
  · rw [hsame]
  · cases hattempt with
    | exhausted hfeasible _ _ ha =>
      have hempty : run.last.violated.members = #[] := by
        simpa [State.isFeasible, IndexSet.isEmpty] using hfeasible
      simp [ha.raised c, hempty]

theorem result_growsWithin : GrowsWithin run.last.objectiveWeight run.result.objectiveWeight := by
  rcases run.result_cases hP hs with hsame | hattempt
  · exact hsame ▸ .refl _
  · exact hattempt.growsWithin

end Run

/-- The weights of a state, given how often each constraint has been raised. -/
structure OnAccount (f : Formula) (raised : Nat → Nat) (s : State ρ) : Prop where
  size_weights : s.weights.size = f.constraints.size
  weight_eq : ∀ c < f.constraints.size, s.weights[c]? = some (1 + (raised c : Int))
  objective_eq_zero_iff : s.objectiveWeight = 0 ↔ 0 < s.bestUnsat
  objective_between : s.bestUnsat = 0 → 1 ≤ s.objectiveWeight ∧ s.objectiveWeight ≤ 100

/-- All weights over a run are accounted for: at every moment, and in the state that is
returned, each constraint has been raised by the steps so far that raise it. The weight of
the objective never falls. -/
structure WeightsAccounted (f : Formula) (run : Run P clock s) : Prop where
  moments : ∀ {i : Nat} {moment : State ρ}, run.moments[i]? = some moment →
    OnAccount f (run.raised f · i) moment
  result : OnAccount f (run.raised f · run.visited.length) run.result
  objective_mono : ∀ {i j : Nat} {moment later : State ρ}, i ≤ j →
    run.moments[i]? = some moment → run.moments[j]? = some later →
    moment.objectiveWeight ≤ later.objectiveWeight
  objective_le_result : ∀ {i : Nat} {moment : State ρ}, run.moments[i]? = some moment →
    moment.objectiveWeight ≤ run.result.objectiveWeight

omit [RandomSource ρ] in
theorem Sound.onAccount (hP : Posed P lbs ubs) (hs : Sound P lbs ubs s) {raised : Nat → Nat}
    (hweights : ∀ c < P.formula.constraints.size, s.weights[c]? = some (1 + (raised c : Int)))
    (hcap : s.objectiveWeight ≤ maxObjectiveWeight) : OnAccount P.formula raised s where
  size_weights := by
    rw [State.weights, Array.size_map, hs.consistent.cached.size_eq, hP.size_rows]
  weight_eq := hweights
  objective_eq_zero_iff := by
    constructor
    · intro hzero
      by_contra hfeasible
      have hpos := hs.weighted.objective_pos (Nat.eq_zero_of_not_pos hfeasible)
      omega
    · exact hs.weighted.objective_eq_zero
  objective_between hfeasible := ⟨hs.weighted.objective_pos hfeasible, hcap⟩

theorem Run.weightsAccounted (hP : Posed P lbs ubs) (hs : Sound P lbs ubs s)
    (hone : ∀ c < P.formula.constraints.size, s.weights[c]? = some 1)
    (hcap : s.objectiveWeight ≤ maxObjectiveWeight) (run : Run P clock s) :
    WeightsAccounted P.formula run := by
  have hlast := run.getElem?_last
  have hgrows : ∀ {i : Nat} {moment : State ρ}, run.moments[i]? = some moment →
      moment.objectiveWeight ≤ maxObjectiveWeight := by
    intro i moment hmoment
    have hfirst : run.moments[0]? = some s := rfl
    exact (run.growsWithin hP hs (Nat.zero_le i) hfirst hmoment).2.trans (max_le hcap le_rfl)
  have hweights : ∀ {i : Nat} {moment : State ρ}, run.moments[i]? = some moment →
      ∀ c < P.formula.constraints.size,
        moment.weights[c]? = some (1 + (run.raised P.formula c i : Int)) := by
    intro i moment hmoment c hc
    rw [run.weights_eq hP hs hmoment c, hone c hc, Option.map_some]
  have hresult := run.result_growsWithin hP hs
  refine ⟨?_, ?_, ?_, ?_⟩
  · intro i moment hmoment
    exact (run.sound hP hs hmoment).onAccount hP (hweights hmoment) (hgrows hmoment)
  · refine (run.continues_result hP hs).2.onAccount hP ?_ ?_
    · intro c hc
      rw [run.result_weights hP hs, hweights hlast c hc]
    · exact hresult.2.trans (max_le (hgrows hlast) le_rfl)
  · intro i j moment later hij hmoment hlater
    exact (run.growsWithin hP hs hij hmoment hlater).1
  · intro i moment hmoment
    have hle : i ≤ run.visited.length := by
      have hlt := (List.getElem?_eq_some_iff.1 hmoment).1
      simp only [Run.moments, Search.moments, List.length_cons, List.length_map] at hlt
      omega
    exact (run.growsWithin hP hs hle hmoment hlast).1.trans hresult.1

omit [RandomSource ρ] in
theorem weights_first {f : Formula} {settings : Settings} {source : ρ} {first : State ρ}
    (hf : f.Built) (hstart : start f settings source = .ok (P, first)) :
    (∀ c < P.formula.constraints.size, first.weights[c]? = some 1) ∧
      first.objectiveWeight ≤ maxObjectiveWeight := by
  obtain ⟨-, -, hP, hs, -⟩ := start_eq_ok hf.wellFormed hstart
  have hsize := hs.cached.size_eq.trans hP.size_rows
  obtain ⟨a, caches, objective, violated, hcaches, rfl⟩ := exists_of_start hstart
  constructor
  · intro c hc
    have hlt : c < caches.length := by
      rw [← hsize] at hc
      simpa using hc
    have hone := weight_of_cachesOf hcaches caches[c] (List.getElem_mem hlt)
    simp [State.weights, hlt, hone]
  · change (if violated.isEmpty then 1 else 0 : Int) ≤ 100
    split <;> decide

/-- In a run from a first state all weights are accounted for. -/
theorem weightsAccounted_of_start {f : Formula} (hf : f.Built) {settings : Settings} {source : ρ}
    {first : State ρ} (hstart : start f settings source = .ok (P, first)) (clock : Clock) :
    Nonempty (Run P clock first) ∧ ∀ run : Run P clock first, WeightsAccounted f run := by
  obtain ⟨hone, hcap⟩ := weights_first hf hstart
  obtain ⟨rfl, -, hP, -⟩ := start_eq_ok hf.wellFormed hstart
  have hs := sound_first hf hstart
  exact ⟨Run.nonempty hP hs clock, Run.weightsAccounted hP hs hone hcap⟩

theorem weightsAccounted_of_cubic : ∃ (P : Problem) (first : State Random.Xoshiro),
    cubic.Built ∧ start cubic shortRun (.ofSeed 0) = .ok (P, first) ∧
      Nonempty (Run P .never first) ∧
        ∀ run : Run P .never first, WeightsAccounted cubic run := by
  obtain ⟨P, first, hstart, -⟩ := start_cubic
  exact ⟨P, first, built_cubic, hstart, weightsAccounted_of_start built_cubic hstart .never⟩

end NonlinearInteger.Search
