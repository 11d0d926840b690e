import NonlinearInteger.Proofs.Moments
import NonlinearInteger.Proofs.Renaming
import NonlinearInteger.Proofs.Scores

/-!
# What each kind of step may do

What a step of each kind does, told by the formula and the values before and after
alone: which variable it changes, what is violated where it starts, and what becomes of
the objective.
-/

namespace NonlinearInteger

namespace Polynomial

variable {p : Polynomial}

/-- In a linear polynomial the slope of a variable is the sum of its coefficients. -/
theorem slopeTerms_eq_coefficient {ms : List Monomial} (h : ∀ m ∈ ms, m.isLinear = true)
    (σ : Variable → Int) (v : Variable) : slopeTerms σ v ms = coefficient [v] ms := by
  induction ms with
  | nil => rfl
  | cons m ms ih =>
    obtain ⟨u, hu⟩ := Monomial.vars_of_isLinear (h m List.mem_cons_self)
    have hrest := ih fun n hn => h n (List.mem_cons_of_mem m hn)
    rw [slopeTerms, List.map_cons, List.sum_cons, Monomial.slopeAt_singleton hu, coefficient, hu,
      ← hrest, slopeTerms]
    simp

/-- Once terms are merged, a linear one is all that there is of its variable. -/
theorem slopeAt_eq_of_merged (hlinear : ∀ m ∈ p.monomials, m.isLinear = true)
    (hmerged : p.Merged) {v : Variable} {coef : Int} (hmem : Monomial.linear v coef ∈ p.monomials) (σ : Variable → Int) :
    p.slopeAt σ v = coef := by
  rw [slopeAt, slopeTerms_eq_coefficient hlinear]
  exact (coef_eq_coefficient hmerged.distinct hmem).symm

end Polynomial

namespace Search

/-- Exactly one value is changed. -/
structure ChangesOnly (v : Variable) (before after : Array Int) : Prop where
  size_eq : after.size = before.size
  ne : after[v]? ≠ before[v]?
  same : ∀ w, w ≠ v → after[w]? = before[w]?

/-- The formula finds a violated constraint that mentions a variable. -/
def InViolated (f : Formula) (values : Array Int) (v : Variable) : Prop :=
  ∃ found c k, f.violated values = .ok found ∧ c ∈ found ∧ f.constraints[c]? = some k ∧
    k.poly.contains v = true

/-- A constraint that is not at its limit mentions a variable. -/
def InSlack (f : Formula) (values : Array Int) (v : Variable) : Prop :=
  ∃ k ∈ f.constraints, k.poly.contains v = true ∧
    ∃ y, k.poly.evaluate values = .ok y ∧ y ≠ k.limit

/-- The objective falls. -/
def Lowers (f : Formula) (before after : Array Int) : Prop :=
  ∃ x y, f.objectiveValue before = .ok x ∧ f.objectiveValue after = .ok y ∧ y < x

/-- What a step of a kind may do to the values. -/
def Lawful (f : Formula) (before after : Array Int) : MoveKind → Prop
  | .idle => after = before
  | .lift | .feasibleSat | .objectiveBound | .twoLevel =>
    f.violated before = .ok [] ∧ (∃ v, ChangesOnly v before after) ∧ Lowers f before after
  | .sampled =>
    f.violated before = .ok [] ∧ (∃ v, ChangesOnly v before after ∧ v ∉ f.objective.vars) ∧
      ∃ x, f.objectiveValue before = .ok x ∧ f.objectiveValue after = .ok x
  | .objectiveStep =>
    f.violated before = .ok [] ∧ ∃ v, ChangesOnly v before after ∧ v ∈ f.objective.vars ∧
      ∃ x, before[v]? = some x ∧ after[v]? = some (x + 1)
  | .randomWalkSat =>
    f.violated before = .ok [] ∧ ∃ v, ChangesOnly v before after ∧ InSlack f before v
  | .feasibleUnsat | .randomWalkUnsat =>
    ∃ v, ChangesOnly v before after ∧ InViolated f before v

variable {ρ : Type} {P : Problem} {lbs ubs : Array Int} {s t : State ρ} {v : Variable}

theorem Moved.changesOnly (hP : Posed P lbs ubs) (hs : Consistent P lbs ubs s) {m : Move}
    (hm : Moved P lbs ubs s m t) : ChangesOnly m.1 s.assignment.values t.assignment.values := by
  have ht := hm.continues.consistent
  have hsize := hP.size_values hs.inside
  have hsize' := hP.size_values ht.inside
  refine ⟨hsize'.trans hsize.symm, ?_, ?_⟩
  · rw [hP.getElem?_values hs.inside hm.allowed.lt, hP.getElem?_values ht.inside hm.allowed.lt]
    intro heq
    exact hm.ne ((Option.some.inj heq).symm.trans hm.point_eq)
  · intro w hw
    by_cases hlt : w < P.formula.numVariables
    · rw [hP.getElem?_values hs.inside hlt, hP.getElem?_values ht.inside hlt]
      exact congrArg some (hm.point_of_ne w hw)
    · have hle : P.formula.numVariables ≤ w := not_lt.1 hlt
      rw [Array.getElem?_eq_none (hsize'.trans_le hle), Array.getElem?_eq_none (hsize.trans_le hle)]

theorem contains_of_occurs (hP : Posed P lbs ubs) {c slot : Nat} {k : Constraint}
    (hk : P.formula.constraints[c]? = some k) (h : Occurs P v c slot) :
    k.poly.contains v = true := by
  obtain ⟨row, hrow, hslot⟩ := h
  obtain ⟨k', sense, hk', -, rfl⟩ := hP.row_cases hrow
  cases hk.symm.trans hk'
  rw [Polynomial.contains_iff]
  exact (Row.mem_vars k sense).1 (Array.mem_of_getElem? hslot)

theorem inViolated_of_occursIn (hP : Posed P lbs ubs) (hs : Consistent P lbs ubs s)
    (h : OccursIn P (Violates P s.point) v) : InViolated P.formula s.assignment.values v := by
  obtain ⟨c, slot, hviolates, hoccurs⟩ := h
  have hmem := Formula.mem_violatedAt.2 hviolates
  obtain ⟨k, hk, -⟩ := hviolates
  exact ⟨_, c, k, hP.violated_eq hs.inside, hmem, hk, contains_of_occurs hP hk hoccurs⟩

theorem inSlack_of_occursIn (hP : Posed P lbs ubs) (hs : Consistent P lbs ubs s)
    (h : OccursIn P (Slack P s.point) v) : InSlack P.formula s.assignment.values v := by
  obtain ⟨c, slot, ⟨k, hk, hslack⟩, hoccurs⟩ := h
  have hmem : k ∈ P.formula.constraints := Array.mem_of_getElem? hk
  exact ⟨k, hmem, contains_of_occurs hP hk hoccurs, _,
    (hP.tame_constraint hs.inside hmem).evaluate, hslack⟩

theorem lowers_of_eval_lt (hP : Posed P lbs ubs) (hs : Consistent P lbs ubs s)
    (ht : Consistent P lbs ubs t)
    (h : P.formula.objective.eval t.point < P.formula.objective.eval s.point) :
    Lowers P.formula s.assignment.values t.assignment.values :=
  ⟨_, _, hP.objectiveValue_eq hs.inside, hP.objectiveValue_eq ht.inside, h⟩

/-- Moves that are chosen are lawful: what gains in a feasible state lowers the
objective, since the constraints can only lose. -/
theorem lawful_of_choice (hP : Posed P lbs ubs) (hmerged : P.formula.objective.Merged)
    (hs : Sound P lbs ubs s) {kind : MoveKind} {m : Move} (hchoice : Choice P s kind m)
    (hm : Moved P lbs ubs s m t) :
    Lawful P.formula s.assignment.values t.assignment.values kind := by
  have hchanges := hm.changesOnly hP hs.consistent
  have hnil := (hs.consistent.isFeasible_iff_violated hP).1
  have hlowers := lowers_of_eval_lt hP hs.consistent hm.continues.consistent
  have hgains : s.isFeasible = true → Gains P s 0 m →
      P.formula.objective.eval t.point < P.formula.objective.eval s.point := fun hfeasible hgains =>
    eval_lt_of_gains hP hs.consistent hs.weighted hfeasible hm.allowed hm.point_eq hm.point_of_ne
      hgains
  cases hchoice with
  | @lift _ coef hfeasible _ hterm _ hrises =>
    refine ⟨hnil hfeasible, ⟨m.1, hchanges⟩, hlowers ?_⟩
    have hslope : P.formula.objective.slopeAt s.point m.1 = coef :=
      Polynomial.slopeAt_eq_of_merged hP.linear hmerged (hP.mem_objective _ hterm) s.point
    have hfalls : coef * (m.2 - s.point m.1) < 0 :=
      mul_neg_of_neg_of_pos (hP.neg_of_mem _ hterm) (sub_pos.2 hrises)
    rw [Polynomial.eval_eq_add_of_isLinear hP.linear hm.point_of_ne, hslope, hm.point_eq]
    omega
  | feasibleSat hfeasible _ _ hgain =>
    exact ⟨hnil hfeasible, ⟨m.1, hchanges⟩, hlowers (hgains hfeasible hgain)⟩
  | objectiveBound hfeasible _ _ hgain _ =>
    exact ⟨hnil hfeasible, ⟨m.1, hchanges⟩, hlowers (hgains hfeasible hgain)⟩
  | twoLevel hfeasible _ _ hgain _ =>
    exact ⟨hnil hfeasible, ⟨m.1, hchanges⟩, hlowers (hgains hfeasible hgain)⟩
  | sampled hfeasible _ _ _ hobjective _ =>
    have hnot : m.1 ∉ P.formula.objective.vars := by
      have hflag := hP.isObjective m.1 hm.allowed.lt
      rw [hobjective, hP.objectiveVars_eq] at hflag
      simpa using hflag
    have hsame : P.formula.objective.eval t.point = P.formula.objective.eval s.point :=
      Polynomial.eval_congr_of_notMem (fun k hk hv => hnot (Polynomial.mem_vars.2 ⟨k, hk, hv⟩))
        hm.point_of_ne
    refine ⟨hnil hfeasible, ⟨m.1, hchanges, hnot⟩, _, hP.objectiveValue_eq hs.consistent.inside, ?_⟩
    rw [hP.objectiveValue_eq hm.continues.consistent.inside]
    exact congrArg Except.ok hsame
  | feasibleUnsat _ _ _ hoccurs =>
    exact ⟨m.1, hchanges, inViolated_of_occursIn hP hs.consistent hoccurs⟩

theorem lawful_of_resort (hP : Posed P lbs ubs) (hs : Consistent P lbs ubs s) {a : State ρ}
    {kind : MoveKind} {m : Move} (hresort : Resort P s kind m) (ha : Adapted P lbs ubs s a)
    (hm : Moved P lbs ubs a m t) :
    Lawful P.formula s.assignment.values t.assignment.values kind := by
  have hnil := (hs.isFeasible_iff_violated hP).1
  have hchanges := hm.changesOnly hP ha.continues.consistent
  rw [ha.assignment_eq] at hchanges
  cases hresort with
  | randomWalkSat hfeasible _ hoccurs =>
    exact ⟨hnil hfeasible, m.1, hchanges, inSlack_of_occursIn hP hs hoccurs⟩
  | randomWalkUnsat _ hoccurs =>
    exact ⟨m.1, hchanges, inViolated_of_occursIn hP hs hoccurs⟩
  | @objectiveStep v hfeasible _ hv =>
    have hlt := hP.objectiveVars v hv
    refine ⟨hnil hfeasible, v, hchanges, hP.objectiveVars_eq ▸ hv, s.point v,
      hP.getElem?_values hs.inside hlt, ?_⟩
    rw [hP.getElem?_values hm.continues.consistent.inside hlt]
    exact congrArg some hm.point_eq

variable [RandomSource ρ]

theorem lawful_of_stepped (hP : Posed P lbs ubs) (hmerged : P.formula.objective.Merged)
    {before taken after : State ρ} {kind : MoveKind}
    (h : Stepped P lbs ubs before kind taken after) :
    Lawful P.formula before.assignment.values after.assignment.values kind := by
  rw [h.recorded.assignment_eq]
  cases h.transition hP with
  | chosen hchoice hm => exact lawful_of_choice hP hmerged h.sound hchoice hm
  | resorted hresort ha hm => exact lawful_of_resort hP h.sound.consistent hresort ha hm
  | idle _ ha => exact congrArg Assignment.values ha.assignment_eq

/-- Whatever was done with a search before, every step of its next run is lawful. -/
theorem lawful_of_reachable {f : Formula} (hf : f.Built) {settings : Settings} {source : ρ}
    {first s : State ρ} (hstart : start f settings source = .ok (P, first))
    (hs : Reachable P first s) (clock : Clock) : Nonempty (Run P clock s) ∧
      ∀ (run : Run P clock s) (i : Nat) (before : State ρ) (kind : MoveKind) (after : State ρ),
        run.HasStep i before kind after →
          Lawful f before.assignment.values after.assignment.values kind := by
  obtain ⟨rfl, -, hP, -⟩ := start_eq_ok hf.wellFormed hstart
  have hs := sound_of_reachable hP (sound_first hf hstart) hs
  refine ⟨Run.nonempty hP hs clock, ?_⟩
  intro run i before kind after hstep
  obtain ⟨taken, hstepped⟩ := run.stepped hP hs hstep
  exact lawful_of_stepped hP hf.merged.1 hstepped

theorem lawful_of_cubicCalls : ∃ (P : Problem) (first s : State Random.Xoshiro),
    cubic.Built ∧ start cubic shortRun (.ofSeed 0) = .ok (P, first) ∧ Reachable P first s ∧
      Nonempty (Run P .never s) ∧
        ∀ (run : Run P .never s) (i : Nat) (before : State Random.Xoshiro) (kind : MoveKind)
          (after : State Random.Xoshiro), run.HasStep i before kind after →
            Lawful cubic before.assignment.values after.assignment.values kind := by
  obtain ⟨P, first, hstart, hvars⟩ := start_cubic
  obtain ⟨-, -, hP, hfirst, hbest, -⟩ := start_eq_ok built_cubic.wellFormed hstart
  have hcalls : ∀ call ∈ cubicCalls, call.Admissible P := by
    simp [cubicCalls, Call.Admissible, hvars]
  obtain ⟨s, hperform, -⟩ := succeeds_performAll hP hfirst hbest hcalls
  have hs : Reachable P first s := ⟨cubicCalls, hcalls, hperform⟩
  exact ⟨P, first, s, built_cubic, hstart, hs, lawful_of_reachable built_cubic hstart hs .never⟩

end Search
end NonlinearInteger
