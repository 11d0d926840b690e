import NonlinearInteger.Proofs.Moments
import NonlinearInteger.Proofs.Scores
import Mathlib.Order.Bounds.Basic

/-!
# Last feasible values

As long as no term repeats a variable, a constraint that bounds it holds on a half-line of
its values while the others are fixed. The search divides to find where that ends and cuts
it to the bounds, and so comes to the last value that satisfies the constraint. From a
feasible state it finds the last value that satisfies all of them by asking only those that
bound the variable in the direction: along its slope no other can fail.
-/

namespace NonlinearInteger

/-- No term repeats a variable. -/
def Polynomial.LinearIn (v : Variable) (p : Polynomial) : Prop :=
  ∀ m ∈ p.monomials, m.degree v ≤ 1

instance (v : Variable) (p : Polynomial) : Decidable (p.LinearIn v) :=
  inferInstanceAs (Decidable (∀ m ∈ p.monomials, m.degree v ≤ 1))

namespace Constraint

variable {σ : Variable → Int} {v : Variable} {k : Constraint}

/-- A constraint holds of the value that its slope predicts when a variable is changed. -/
def HoldsAlong (σ : Variable → Int) (v : Variable) (x : Int) (k : Constraint) : Prop :=
  k.relation.holds (k.poly.eval σ + k.poly.slopeAt σ v * (x - σ v)) k.limit = some true

/-- Without a repeat of the variable the prediction is exact. -/
theorem holdsAlong_iff (hlinear : k.poly.LinearIn v) (x : Int) :
    k.HoldsAlong σ v x ↔ k.HoldsAt (Function.update σ v x) := by
  have hsame : ∀ w, w ≠ v → Function.update σ v x w = σ w :=
    fun w hw => Function.update_of_ne hw x σ
  rw [HoldsAlong, HoldsAt, Polynomial.eval_eq_add_of_count_le_one hlinear hsame,
    Function.update_self]

theorem holdsAlong_self : k.HoldsAlong σ v (σ v) ↔ k.HoldsAt σ := by
  simp [HoldsAlong, HoldsAt]

end Constraint

/-- The values within its bounds at which a variable passes a test, the others fixed. -/
def Assignment.passing (a : Assignment) (v : Variable) (test : Array Int → Prop) : Set Int :=
  {x | a.admits v x = .ok true ∧ ∃ b, a.setValue v x = .ok b ∧ test b.values}

theorem le_fdiv_of_pos {x y r : Int} (hy : 0 < y) : x ≤ Int.fdiv r y ↔ y * x ≤ r := by
  rw [Int.fdiv_eq_ediv_of_nonneg r hy.le, Int.le_ediv_iff_mul_le hy, mul_comm]

theorem le_fdiv_of_neg {x y r : Int} (hy : y < 0) : x ≤ Int.fdiv r y ↔ r ≤ y * x := by
  rw [← Int.neg_fdiv_neg, le_fdiv_of_pos (neg_pos.2 hy), neg_mul, neg_le_neg_iff]

namespace Search

namespace Direction

variable {S : Set Int} {x y z : Int} {d : Direction}

/-- A value comes no later than another in a direction. -/
def Le (x y : Int) : Direction → Prop
  | up => x ≤ y
  | down => y ≤ x

/-- The greatest value of a set, or the least one. -/
def IsLast (S : Set Int) (x : Int) : Direction → Prop
  | up => IsGreatest S x
  | down => IsLeast S x

theorem isLast_iff : d.IsLast S x ↔ x ∈ S ∧ ∀ y ∈ S, d.Le y x := by
  cases d with
  | up => rfl
  | down => rfl

theorem le_nearer_iff : d.Le x (nearer d y z) ↔ d.Le x y ∧ d.Le x z := by
  cases d with
  | up => exact le_min_iff
  | down => exact max_le_iff

/-- What is found is the last value of a set, and only in an empty set nothing is. -/
def FindsLast (S : Set Int) (d : Direction) : Option Int → Prop
  | some x => d.IsLast S x
  | none => S = ∅

theorem FindsLast.isSome_iff {found : Option Int} (h : d.FindsLast S found) :
    found.isSome = true ↔ S.Nonempty := by
  cases found with
  | some x => exact iff_of_true rfl ⟨x, (isLast_iff.1 h).1⟩
  | none =>
    have hempty : S = ∅ := h
    simp [hempty]

/-- A quotient rounded back against a direction. -/
def quotient (r y : Int) : Direction → Int
  | up => Int.fdiv r y
  | down => -Int.fdiv (-r) y

end Direction

/-- An upper limit bounds a variable from above if its slope is positive and from below if
it is negative, and with a lower limit it is the other way around. -/
def Limits (slope : Int) : Relation → Direction → Prop
  | .le, .up | .ge, .down => 0 < slope
  | .ge, .up | .le, .down => slope < 0
  | _, _ => False

section Limits

variable {slope : Int} {relation : Relation} {d : Direction}

theorem Limits.ne_zero (h : Limits slope relation d) : slope ≠ 0 := by
  rintro rfl
  cases relation <;> cases d <;> simp [Limits] at h

theorem boundedDirection?_eq_some_iff {sense : Sense}
    (hsense : Sense.ofRelation? relation = some sense) :
    boundedDirection? sense slope = some d ↔ Limits slope relation d := by
  unfold boundedDirection?
  cases relation with
  | le =>
    cases hsense
    cases d <;> simp only [Limits] <;> split_ifs <;> simp <;> omega
  | ge =>
    cases hsense
    cases d <;> simp only [Limits] <;> split_ifs <;> simp <;> omega
  | eq => cases hsense
  | undefined => cases hsense

/-- Along the slope a limit that bounds a variable is kept up to the rounded quotient of
what the other terms leave of it. -/
theorem Limits.holds_iff (h : Limits slope relation d) (value limit current x : Int) :
    relation.holds (value + slope * (x - current)) limit = some true ↔
      d.Le x (d.quotient (limit - (value - slope * current)) slope) := by
  have hchange : slope * (x - current) = slope * x - slope * current := mul_sub ..
  cases relation with
  | le =>
    simp only [Relation.holds, Option.some.injEq, decide_eq_true_eq]
    cases d with
    | up =>
      have hpos : 0 < slope := h
      rw [Direction.Le, Direction.quotient, le_fdiv_of_pos hpos]
      omega
    | down =>
      have hneg : slope < 0 := h
      rw [Direction.Le, Direction.quotient, neg_le, le_fdiv_of_neg hneg, mul_neg]
      omega
  | ge =>
    simp only [Relation.holds, Option.some.injEq, decide_eq_true_eq]
    cases d with
    | up =>
      have hneg : slope < 0 := h
      rw [Direction.Le, Direction.quotient, le_fdiv_of_neg hneg]
      omega
    | down =>
      have hpos : 0 < slope := h
      rw [Direction.Le, Direction.quotient, neg_le, le_fdiv_of_pos hpos, mul_neg]
      omega
  | eq => cases d <;> exact h.elim
  | undefined => cases d <;> exact h.elim

end Limits

section Computed

variable {ρ : Type} {P : Problem} {lbs ubs : Array Int} {s : State ρ} {v : Variable} {x : Int}
  {c slot : Nat} {k : Constraint}

/-- Where the values that satisfy a constraint along its slope end in a direction. They go
on without an end when it does not bound the variable in that direction. -/
def EndsAlong (σ : Variable → Int) (v : Variable) (d : Direction) (k : Constraint) :
    Option Int → Prop
  | some last => Limits (k.poly.slopeAt σ v) k.relation d ∧
      ∀ x, k.HoldsAlong σ v x ↔ d.Le x last
  | none => ¬Limits (k.poly.slopeAt σ v) k.relation d

theorem rawFeasible_endsAlong (hP : Posed P lbs ubs) (hs : Consistent P lbs ubs s)
    (ho : (c, slot) ∈ occurrencesOf P.rows v) (hk : P.formula.constraints[c]? = some k)
    (d : Direction) : Succeeds (rawFeasible P s v c slot d) (EndsAlong s.point v d k) := by
  have hv := hP.lt_of_occurs (hP.occurs_of_mem ho)
  obtain ⟨k', sense, cache, hk', hsense, hrow, hcache, hshows, hslope⟩ := hs.entry_of_mem hP ho
  obtain rfl : k = k' := Option.some.inj (hk.symm.trans hk')
  have htame := hP.tame_constraint hs.inside (Array.mem_of_getElem? hk)
  obtain ⟨hproduct, hfree, hroom⟩ :=
    headroom_fits htame (hP.lt_size_values hs.inside hv) (hP.limit_fits hrow)
  unfold rawFeasible
  apply Succeeds.next (fetch_eq_ok.2 hrow)
  apply Succeeds.next (fetch_eq_ok.2 hcache)
  apply Succeeds.next (fetch_eq_ok.2 hslope)
  split
  · rename_i hdirection
    have hlimits := (boundedDirection?_eq_some_iff hsense).1 hdirection
    have hends : EndsAlong s.point v d k (some (d.quotient
        (k.limit - (k.poly.eval s.point - k.poly.slopeAt s.point v * s.point v))
        (k.poly.slopeAt s.point v))) :=
      ⟨hlimits, hlimits.holds_iff _ _ _⟩
    apply Succeeds.next (hs.value_eq hP hv)
    apply Succeeds.next (Wide.exact_of_abs_le hproduct)
    rw [hshows.value_eq]
    apply Succeeds.next (Wide.exact_of_abs_le hfree)
    apply Succeeds.next (Wide.exact_of_abs_le hroom)
    cases d with
    | up =>
      obtain ⟨last, hlast, -⟩ := Wide.succeeds_divFloor hroom
      apply Succeeds.next hlast
      obtain ⟨rfl, -⟩ := Wide.exact_eq_ok.1 hlast
      exact .of_pure hends
    | down =>
      obtain ⟨last, hlast, -⟩ := Wide.succeeds_divCeil hroom
      apply Succeeds.next hlast
      obtain ⟨rfl, -⟩ := Wide.exact_eq_ok.1 hlast
      exact .of_pure hends
  · rename_i hdirection
    exact .of_pure (mt (boundedDirection?_eq_some_iff hsense).2 hdirection)

/-- The values within the bounds of a variable. -/
def within (lbs ubs : Array Int) (v : Variable) : Set Int :=
  {x | valuation lbs v ≤ x ∧ x ≤ valuation ubs v}

theorem clamp_findsLast (hP : Posed P lbs ubs) (hs : Consistent P lbs ubs s)
    (hv : v < P.formula.numVariables) (last : Int) (d : Direction) :
    Succeeds (clamp s.assignment v last d)
      (d.FindsLast {x | x ∈ within lbs ubs v ∧ d.Le x last}) := by
  unfold clamp
  apply Succeeds.next (hs.lb_eq hP hv)
  apply Succeeds.next (hs.ub_eq hP hv)
  apply Succeeds.of_pure
  cases d with
  | up =>
    dsimp only
    split
    · rename_i hbetween
      refine ⟨⟨hbetween, min_le_left _ _⟩, ?_⟩
      rintro y ⟨⟨-, hub⟩, hle⟩
      exact le_min hle hub
    · rename_i hbetween
      refine Set.eq_empty_iff_forall_notMem.2 ?_
      rintro y ⟨⟨hlb, hub⟩, hle⟩
      exact hbetween ⟨hlb.trans (le_min hle hub), min_le_right _ _⟩
  | down =>
    dsimp only
    split
    · rename_i hbetween
      refine ⟨⟨hbetween, le_max_left _ _⟩, ?_⟩
      rintro y ⟨⟨hlb, -⟩, hle⟩
      exact max_le hle hlb
    · rename_i hbetween
      refine Set.eq_empty_iff_forall_notMem.2 ?_
      rintro y ⟨⟨hlb, hub⟩, hle⟩
      exact hbetween ⟨le_max_right _ _, (max_le hle hlb).trans hub⟩

theorem feasibleOn_findsLast (hP : Posed P lbs ubs) (hs : Consistent P lbs ubs s)
    (ho : (c, slot) ∈ occurrencesOf P.rows v) (hk : P.formula.constraints[c]? = some k)
    (d : Direction) : Succeeds (feasibleOn P s v c slot d) fun found =>
      (Limits (k.poly.slopeAt s.point v) k.relation d ∧
        d.FindsLast {x | x ∈ within lbs ubs v ∧ k.HoldsAlong s.point v x} found) ∨
      (¬Limits (k.poly.slopeAt s.point v) k.relation d ∧ found = none) := by
  have hv := hP.lt_of_occurs (hP.occurs_of_mem ho)
  unfold feasibleOn
  apply (rawFeasible_endsAlong hP hs ho hk d).bind
  intro last hends
  cases last with
  | some last =>
    obtain ⟨hlimits, hholds⟩ := hends
    apply (clamp_findsLast hP hs hv last d).mono
    intro found hfound
    simp only [hholds]
    exact .inl ⟨hlimits, hfound⟩
  | none => exact .of_pure (.inr ⟨hends, rfl⟩)

theorem Consistent.succeeds_setValue (hP : Posed P lbs ubs) (hs : Consistent P lbs ubs s)
    (hm : Allowed P lbs ubs (v, x)) : Succeeds (s.assignment.setValue v x) fun b =>
      Inside lbs ubs b ∧ valuation b.values = Function.update s.point v x := by
  apply (hs.inside.succeeds_setValue (hP.size_lbs ▸ hm.lt) hm.lb_le hm.le_ub).mono
  rintro b ⟨hb, hnew, hsame⟩
  exact ⟨hb, Function.eq_update_iff.2 ⟨hnew, hsame⟩⟩

/-- A test of tables that is one of exact values is passed at the values where these pass. -/
theorem passing_eq (hP : Posed P lbs ubs) (hs : Consistent P lbs ubs s)
    (hv : v < P.formula.numVariables) {test : Array Int → Prop} (holds : (Variable → Int) → Prop)
    (htest : ∀ b, Inside lbs ubs b → (test b.values ↔ holds (valuation b.values))) :
    s.assignment.passing v test =
      {x | x ∈ within lbs ubs v ∧ holds (Function.update s.point v x)} := by
  ext x
  have hadmits : s.assignment.admits v x = .ok true ↔ x ∈ within lbs ubs v := by
    rw [hs.admits_eq hP hv, Except.ok.injEq, decide_eq_true_eq]
    rfl
  refine (and_congr_left' hadmits).trans (and_congr_right fun hx => ?_)
  obtain ⟨b, hset, hb, hvalues⟩ := hs.succeeds_setValue hP ⟨hv, hx.1, hx.2⟩
  constructor
  · rintro ⟨b', hset', hpasses⟩
    cases hset.symm.trans hset'
    exact hvalues ▸ (htest b hb).1 hpasses
  · intro hholds
    exact ⟨b, hset, (htest b hb).2 (hvalues.symm ▸ hholds)⟩

theorem passing_satisfied (hP : Posed P lbs ubs) (hs : Consistent P lbs ubs s)
    (hv : v < P.formula.numVariables) (hk : k ∈ P.formula.constraints)
    (hlinear : k.poly.LinearIn v) : s.assignment.passing v (k.satisfied · = .ok true) =
      {x | x ∈ within lbs ubs v ∧ k.HoldsAlong s.point v x} := by
  simp only [Constraint.holdsAlong_iff hlinear]
  apply passing_eq hP hs hv (k.HoldsAt ·)
  intro b hb
  rw [hP.satisfied_eq hb hk, Except.ok.injEq, decide_eq_true_eq]

/-- A constraint that bounds a variable in a direction holds, along its slope, at a value. -/
def LetsPass (σ : Variable → Int) (v : Variable) (d : Direction) (x : Int) (k : Constraint) :
    Prop :=
  Limits (k.poly.slopeAt σ v) k.relation d → k.HoldsAlong σ v x

section LetsPass

variable {σ : Variable → Int} {d : Direction} {k : Constraint}

theorem EndsAlong.letsPass_iff {last : Int} (h : EndsAlong σ v d k (some last)) :
    LetsPass σ v d x k ↔ d.Le x last := by
  obtain ⟨hlimits, hholds⟩ := h
  rw [LetsPass, forall_prop_of_true hlimits, hholds]

theorem EndsAlong.letsPass (h : EndsAlong σ v d k none) : LetsPass σ v d x k :=
  fun hlimits => absurd hlimits h

/-- A constraint that holds goes on holding in every direction in which it lets pass. -/
theorem LetsPass.holdsAlong {sense : Sense} (hsense : Sense.ofRelation? k.relation = some sense)
    (hholds : k.HoldsAt σ) (hx : d.Le (σ v) x) (h : LetsPass σ v d x k) : k.HoldsAlong σ v x := by
  by_cases hlimits : Limits (k.poly.slopeAt σ v) k.relation d
  · exact h hlimits
  -- Away from its limit the slope only helps.
  unfold Constraint.HoldsAt at hholds
  unfold Constraint.HoldsAlong
  cases hrelation : k.relation with
  | le =>
    rw [hrelation] at hholds hlimits
    simp only [Relation.holds, Option.some.injEq, decide_eq_true_eq] at hholds ⊢
    have hchange : k.poly.slopeAt σ v * (x - σ v) ≤ 0 := by
      cases d with
      | up => exact mul_nonpos_of_nonpos_of_nonneg (not_lt.1 hlimits) (sub_nonneg.2 hx)
      | down => exact mul_nonpos_of_nonneg_of_nonpos (not_lt.1 hlimits) (sub_nonpos.2 hx)
    omega
  | ge =>
    rw [hrelation] at hholds hlimits
    simp only [Relation.holds, Option.some.injEq, decide_eq_true_eq] at hholds ⊢
    have hchange : 0 ≤ k.poly.slopeAt σ v * (x - σ v) := by
      cases d with
      | up => exact mul_nonneg (not_lt.1 hlimits) (sub_nonneg.2 hx)
      | down => exact mul_nonneg_of_nonpos_of_nonpos (not_lt.1 hlimits) (sub_nonpos.2 hx)
    omega
  | eq =>
    rw [hrelation] at hsense
    cases hsense
  | undefined =>
    rw [hrelation] at hsense
    cases hsense

end LetsPass

/-- Cuts an end back to where a constraint ends. -/
def cutBack (P : Problem) (s : State ρ) (v : Variable) (d : Direction) (last : Int)
    (occurrence : Nat × Nat) : Checked Int := do
  match ← rawFeasible P s v occurrence.1 occurrence.2 d with
  | some x => return nearer d last x
  | none => return last

theorem exists_occurrence (hP : Posed P lbs ubs) {σ : Variable → Int} {c : Nat} {k : Constraint}
    (hk : P.formula.constraints[c]? = some k) (hslope : k.poly.slopeAt σ v ≠ 0) :
    ∃ slot, (c, slot) ∈ occurrencesOf P.rows v := by
  by_contra hnone
  apply hslope
  apply Polynomial.slopeAt_eq_zero
  apply notMem_of_notMem_occurrences hP hk
  intro hc
  obtain ⟨⟨c', slot⟩, ho, rfl⟩ := List.mem_map.1 hc
  exact hnone ⟨slot, ho⟩

theorem succeeds_cutBack (hP : Posed P lbs ubs) (hs : Consistent P lbs ubs s) {o : Nat × Nat}
    (ho : o ∈ occurrencesOf P.rows v) (d : Direction) (last : Int) :
    Succeeds (cutBack P s v d last o) fun next => ∀ x, d.Le x next ↔ d.Le x last ∧
      ∀ k, P.formula.constraints[o.1]? = some k → LetsPass s.point v d x k := by
  obtain ⟨k, -, -, hk, -⟩ := hs.entry_of_mem hP ho
  simp only [hk, Option.some.injEq, forall_eq']
  apply (rawFeasible_endsAlong hP hs ho hk d).bind
  intro found hends
  cases found with
  | some y =>
    apply Succeeds.of_pure
    intro x
    rw [Direction.le_nearer_iff, hends.letsPass_iff]
  | none =>
    apply Succeeds.of_pure
    intro x
    exact (and_iff_left hends.letsPass).symm

theorem succeeds_foldlM_cutBack (hP : Posed P lbs ubs) (hs : Consistent P lbs ubs s)
    (d : Direction) (bound : Int) :
    Succeeds ((occurrencesOf P.rows v).foldlM (cutBack P s v d) bound) fun last =>
      ∀ x, d.Le x last ↔
        d.Le x bound ∧ ∀ k ∈ P.formula.constraints, LetsPass s.point v d x k := by
  have hstep := fun o (ho : o ∈ occurrencesOf P.rows v) last => succeeds_cutBack hP hs ho d last
  apply (Succeeds.foldlM_narrows hstep bound).mono
  intro last hlast x
  rw [hlast x]
  refine and_congr_right fun _ => ?_
  constructor
  · intro hall k hk hlimits
    obtain ⟨c, hc⟩ := Array.mem_iff_getElem?.1 hk
    obtain ⟨slot, ho⟩ := exists_occurrence hP hc hlimits.ne_zero
    exact hall (c, slot) ho k hc hlimits
  · intro hall o _ k hk
    exact hall k (Array.mem_of_getElem? hk)

theorem succeeds_clamp_cutBack (hP : Posed P lbs ubs) (hs : Consistent P lbs ubs s)
    (hv : v < P.formula.numVariables) {d : Direction} {bound : Int}
    (hbound : ∀ x ∈ within lbs ubs v, d.Le x bound) : Succeeds (do
      clamp s.assignment v (← (occurrencesOf P.rows v).foldlM (cutBack P s v d) bound) d)
      (d.FindsLast
        {x | x ∈ within lbs ubs v ∧ ∀ k ∈ P.formula.constraints, LetsPass s.point v d x k}) := by
  apply (succeeds_foldlM_cutBack hP hs d bound).bind
  intro last hlast
  have hset : {x | x ∈ within lbs ubs v ∧ d.Le x last} =
      {x | x ∈ within lbs ubs v ∧ ∀ k ∈ P.formula.constraints, LetsPass s.point v d x k} := by
    ext x
    refine and_congr_right fun hx => ?_
    rw [hlast x]
    exact and_iff_right (hbound x hx)
  exact hset ▸ clamp_findsLast hP hs hv last d

/-- The last value within the bounds at which every constraint lets the variable pass. -/
theorem feasible_findsLast (hP : Posed P lbs ubs) (hs : Consistent P lbs ubs s)
    (hv : v < P.formula.numVariables) (d : Direction) :
    Succeeds (feasible P s v d) (d.FindsLast
      {x | x ∈ within lbs ubs v ∧ ∀ k ∈ P.formula.constraints, LetsPass s.point v d x k}) := by
  unfold feasible
  cases d with
  | up =>
    apply Succeeds.next (hs.ub_eq hP hv)
    apply Succeeds.next (fetch_eq_ok.2 (hP.occurrences v hv))
    apply succeeds_clamp_cutBack hP hs hv
    exact fun x hx => hx.2
  | down =>
    apply Succeeds.next (hs.lb_eq hP hv)
    apply Succeeds.next (fetch_eq_ok.2 (hP.occurrences v hv))
    apply succeeds_clamp_cutBack hP hs hv
    exact fun x hx => hx.1

/-- The values of a variable within its bounds at which every constraint holds, as far as
its slope can tell. -/
def promising (P : Problem) (lbs ubs : Array Int) (σ : Variable → Int) (v : Variable) : Set Int :=
  {x | x ∈ within lbs ubs v ∧ ∀ k ∈ P.formula.constraints, k.HoldsAlong σ v x}

theorem point_mem_promising (hP : Posed P lbs ubs) (hs : Consistent P lbs ubs s)
    (hfeasible : P.formula.violatedAt s.point = []) (hv : v < P.formula.numVariables) :
    s.point v ∈ promising P lbs ubs s.point v := by
  refine ⟨hs.inside.between v (hP.size_lbs ▸ hv), fun k hk => ?_⟩
  exact Constraint.holdsAlong_self.2 (Formula.violatedAt_eq_nil_iff.1 hfeasible k hk)

theorem feasible_isLast (hP : Posed P lbs ubs) (hs : Consistent P lbs ubs s)
    (hfeasible : P.formula.violatedAt s.point = []) (hv : v < P.formula.numVariables)
    (d : Direction) :
    ∃ x, feasible P s v d = .ok (some x) ∧ d.IsLast (promising P lbs ubs s.point v) x := by
  have hpoint := point_mem_promising hP hs hfeasible hv
  obtain ⟨found, hfound, hlast⟩ := feasible_findsLast hP hs hv d
  obtain ⟨x, rfl⟩ := Option.isSome_iff_exists.1
    (hlast.isSome_iff.2 ⟨_, hpoint.1, fun k hk _ => hpoint.2 k hk⟩)
  obtain ⟨hmem, hbound⟩ := Direction.isLast_iff.1 hlast
  have hle : d.Le (s.point v) x := hbound _ ⟨hpoint.1, fun k hk _ => hpoint.2 k hk⟩
  refine ⟨x, hfound, Direction.isLast_iff.2 ⟨⟨hmem.1, fun k hk => ?_⟩, fun y hy => ?_⟩⟩
  · obtain ⟨c, hc⟩ := Array.mem_iff_getElem?.1 hk
    obtain ⟨sense, hsense, -⟩ := hP.row c k hc
    exact (hmem.2 k hk).holdsAlong hsense (Formula.violatedAt_eq_nil_iff.1 hfeasible k hk) hle
  · exact hbound y ⟨hy.1, fun k hk _ => hy.2 k hk⟩

theorem passing_violated (hP : Posed P lbs ubs) (hs : Consistent P lbs ubs s)
    (hv : v < P.formula.numVariables) (hlinear : ∀ k ∈ P.formula.constraints, k.poly.LinearIn v) :
    s.assignment.passing v (P.formula.violated · = .ok []) =
      promising P lbs ubs s.point v := by
  rw [passing_eq hP hs hv fun σ => ∀ k ∈ P.formula.constraints, k.HoldsAt σ]
  · ext x
    refine and_congr_right fun _ => forall₂_congr fun k hk => ?_
    exact (Constraint.holdsAlong_iff (hlinear k hk) x).symm
  · intro b hb
    rw [hP.violated_eq hb, Except.ok.injEq, Formula.violatedAt_eq_nil_iff]

end Computed

variable {ρ : Type} [RandomSource ρ]

/-- On every reachable state, a constraint none of whose terms repeats a variable yields the
last value of that variable, within its bounds, that satisfies it while the other variables
are fixed. It yields none if it does not bound the variable in that direction, and none if
no value satisfies it. -/
theorem feasibleOn_of_reachable {f : Formula} (hf : f.Built) {settings : Settings} {source : ρ}
    {P : Problem} {first s : State ρ} (hstart : start f settings source = .ok (P, first))
    (hs : Reachable P first s) {c : Nat} {k : Constraint} (hk : f.constraints[c]? = some k)
    {v : Variable} (hv : k.poly.contains v = true) (hlinear : k.poly.LinearIn v) :
    ∃ row slot slope, P.rows[c]? = some row ∧ row.vars.idxOf? v = some slot ∧
      s.slope? P c v = .ok (some slope) ∧
      ∀ d, ∃ found, feasibleOn P s v c slot d = .ok found ∧
        (found.isSome = true ↔ Limits slope k.relation d ∧
          (s.assignment.passing v (k.satisfied · = .ok true)).Nonempty) ∧
        ∀ x, found = some x → d.IsLast (s.assignment.passing v (k.satisfied · = .ok true)) x := by
  obtain ⟨rfl, -, hP, -⟩ := start_eq_ok hf.wellFormed hstart
  have hs := (sound_of_reachable hP (sound_first hf hstart) hs).consistent
  obtain ⟨sense, hsense, hrow⟩ := hP.row c k hk
  have hnodup := hP.nodup_vars (Array.mem_of_getElem? hrow)
  obtain ⟨slot, hslot⟩ := Array.mem_iff_getElem?.1
    ((Row.mem_vars k sense).2 (Polynomial.contains_iff.1 hv))
  have hindex := (idxOf?_eq_some_iff hnodup).2 hslot
  have ho : (c, slot) ∈ occurrencesOf P.rows v := hP.mem_occurrences.2 ⟨_, hrow, hslot⟩
  obtain ⟨cache, hcache⟩ := hs.cache_of_row hrow
  have hslope := (hs.cached.shows c k _ cache hk hrow hcache).getElem?_slopes hslot
  refine ⟨_, slot, k.poly.slopeAt s.point v, hrow, hindex, ?_, fun d => ?_⟩
  · unfold State.slope?
    rw [fetch_eq_ok.2 hrow, fetch_eq_ok.2 hcache]
    dsimp only [bind, Except.bind]
    rw [hindex]
    dsimp only
    rw [fetch_eq_ok.2 hslope]
    rfl
  · obtain ⟨found, hfound, hlast⟩ := feasibleOn_findsLast hP hs ho hk d
    rw [passing_satisfied hP hs (hP.lt_of_occurs (hP.occurs_of_mem ho))
      (Array.mem_of_getElem? hk) hlinear]
    refine ⟨found, hfound, ?_⟩
    rcases hlast with ⟨hlimits, hlast⟩ | ⟨hlimits, rfl⟩
    · constructor
      · rw [hlast.isSome_iff]
        exact (and_iff_right hlimits).symm
      · rintro x rfl
        exact hlast
    · simp [hlimits]

theorem feasibleOn_of_bilinear : ∃ (P : Problem) (first s : State Random.Xoshiro) (k : Constraint),
    bilinear.Built ∧ start bilinear shortRun (.ofSeed 0) = .ok (P, first) ∧ Reachable P first s ∧
      bilinear.constraints[0]? = some k ∧ k.poly.contains 1 = true ∧ k.poly.LinearIn 1 ∧
      ∃ row slot slope, P.rows[0]? = some row ∧ row.vars.idxOf? 1 = some slot ∧
        s.slope? P 0 1 = .ok (some slope) ∧
        ∀ d, ∃ found, feasibleOn P s 1 0 slot d = .ok found ∧
          (found.isSome = true ↔ Limits slope k.relation d ∧
            (s.assignment.passing 1 (k.satisfied · = .ok true)).Nonempty) ∧
          ∀ x, found = some x →
            d.IsLast (s.assignment.passing 1 (k.satisfied · = .ok true)) x := by
  obtain ⟨P, first, s, hstart, hs, -⟩ := exists_reachable_bilinear
  have hk : bilinear.constraints[0]? = some bilinear.constraints[0] := rfl
  have hv : bilinear.constraints[0].poly.contains 1 = true := by decide
  have hlinear : bilinear.constraints[0].poly.LinearIn 1 := by decide
  exact ⟨P, first, s, _, built_bilinear, hstart, hs, hk, hv, hlinear,
    feasibleOn_of_reachable built_bilinear hstart hs hk hv hlinear⟩

end Search
end NonlinearInteger
