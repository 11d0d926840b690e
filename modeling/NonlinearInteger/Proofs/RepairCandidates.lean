import NonlinearInteger.Proofs.Forecasts
import NonlinearInteger.Proofs.Pools
import NonlinearInteger.Proofs.PoolSets
import NonlinearInteger.Proofs.Repairs

/-!
# Candidates for repairs

On a row the last feasible values of its variables are offered, in both directions. On a row
that is violated each of them mends it, and no variable that could mend it is left out: the
values that would satisfy the constraint end in one direction, and their end is offered unless
the variable is tabu.
-/

namespace NonlinearInteger.Search

variable {ρ : Type} {P : Problem} {lbs ubs : Array Int} {s : State ρ} {v : Variable} {x : Int}
  {c slot : Nat} {k : Constraint} {pool : Pool} {S : Set Move}

section Offered

variable (hP : Posed P lbs ubs) (hs : Consistent P lbs ubs s)

include hP hs

theorem isCandidate_of_candidate {m : Move} (h : Candidate P s m) :
    isCandidate P s m.1 m.2 = .ok true := by
  have hv := (allowed_of_admits hP hs h.admits).lt
  have hne : ¬m.2 = s.point m.1 := by
    intro heq
    exact h.ne (heq ▸ hs.value_eq hP hv)
  unfold isCandidate
  rw [hs.value_eq hP hv, h.admits, h.free]
  exact if_neg hne

theorem offer_lists (hv : v < P.formula.numVariables) (hpool : pool.Lists S) (x : Int) :
    Succeeds (offer P s pool v x) (Pool.Lists (S ∪ {m | m = (v, x) ∧ Candidate P s m})) := by
  obtain ⟨passes, hpasses, -⟩ := succeeds_isCandidate hP hs hv x
  unfold offer
  apply Succeeds.next hpasses
  cases passes with
  | true =>
    have hm := candidate_of_isCandidate hpasses
    apply Succeeds.of_pure
    apply (hpool.insert (v, x)).congr
    intro m
    apply or_congr_right
    constructor
    · rintro rfl
      exact ⟨rfl, hm⟩
    · exact And.left
  | false =>
    apply Succeeds.of_pure
    apply hpool.congr
    intro m
    have hnone : ¬(m = (v, x) ∧ Candidate P s m) := by
      rintro ⟨rfl, hm⟩
      cases hpasses.symm.trans (isCandidate_of_candidate hP hs hm)
    exact (or_iff_left hnone).symm

theorem offer?_lists (hv : v < P.formula.numVariables) (hpool : pool.Lists S) (x : Option Int) :
    Succeeds (offer? P s pool v x)
      (Pool.Lists (S ∪ {m | m.1 = v ∧ x = some m.2 ∧ Candidate P s m})) := by
  cases x with
  | none => exact .of_pure (hpool.congr (by simp))
  | some x =>
    apply (offer_lists hP hs hv hpool x).mono
    intro next hnext
    apply hnext.congr
    rintro ⟨w, y⟩
    simp [and_assoc, eq_comm]

/-- The candidates among the last feasible values of a slot. -/
def atSlot (P : Problem) (s : State ρ) (c : Nat) (entry : Variable × Nat) : Set Move :=
  {m | m.1 = entry.1 ∧ Candidate P s m ∧ ∃ d, feasibleOn P s m.1 c entry.2 d = .ok (some m.2)}

theorem offerSlot_lists (hoccurs : Occurs P v c slot) (hpool : pool.Lists S) :
    Succeeds (offerSlot P s c pool (v, slot)) (Pool.Lists (S ∪ atSlot P s c (v, slot))) := by
  have hv := hP.lt_of_occurs hoccurs
  obtain ⟨greatest, hgreatest, -⟩ := succeeds_feasibleOn hP hs hoccurs .up
  obtain ⟨least, hleast, -⟩ := succeeds_feasibleOn hP hs hoccurs .down
  unfold offerSlot
  apply Succeeds.next hgreatest
  apply Succeeds.next hleast
  apply (offer?_lists hP hs hv hpool greatest).bind
  intro middle hmiddle
  apply (offer?_lists hP hs hv hmiddle least).mono
  intro next hnext
  apply hnext.congr
  rintro ⟨w, y⟩
  have hdirections : (∃ d, feasibleOn P s v c slot d = .ok (some y)) ↔
      greatest = some y ∨ least = some y := by
    constructor
    · rintro ⟨d, hd⟩
      cases d with
      | up => exact .inl (Except.ok.inj (hgreatest.symm.trans hd))
      | down => exact .inr (Except.ok.inj (hleast.symm.trans hd))
    · rintro (rfl | rfl)
      · exact ⟨.up, hgreatest⟩
      · exact ⟨.down, hleast⟩
  rw [Set.union_assoc]
  apply or_congr_right
  constructor
  · rintro (⟨rfl, hy, hm⟩ | ⟨rfl, hy, hm⟩)
    · exact ⟨rfl, hm, hdirections.2 (.inl hy)⟩
    · exact ⟨rfl, hm, hdirections.2 (.inr hy)⟩
  · rintro ⟨rfl, hm, hd⟩
    exact (hdirections.1 hd).imp (⟨rfl, ·, hm⟩) (⟨rfl, ·, hm⟩)

/-- The candidates among the last feasible values on a row. -/
def onRow (P : Problem) (s : State ρ) (c : Nat) : Set Move :=
  {m | Candidate P s m ∧
    ∃ slot d, Occurs P m.1 c slot ∧ feasibleOn P s m.1 c slot d = .ok (some m.2)}

theorem offerRow_lists (hc : c < P.rows.size) (hpool : pool.Lists S) :
    Succeeds (offerRow P s pool c) (Pool.Lists (S ∪ onRow P s c)) := by
  have hrow : P.rows[c]? = some P.rows[c] := Array.getElem?_eq_getElem hc
  have hentry : ∀ entry : Variable × Nat,
      entry ∈ P.rows[c].vars.toList.zipIdx ↔ Occurs P entry.1 c entry.2 := by
    intro entry
    rw [List.mem_zipIdx_iff_getElem?, Array.getElem?_toList]
    constructor
    · exact fun hslot => ⟨_, hrow, hslot⟩
    · rintro ⟨row, hrow', hslot⟩
      cases hrow.symm.trans hrow'
      exact hslot
  unfold offerRow
  apply Succeeds.next (fetch_eq_ok.2 hrow)
  apply (Pool.Lists.foldlM (atSlot P s c) ?_ hpool).mono
  · intro next hnext
    apply hnext.congr
    intro m
    apply or_congr_right
    constructor
    · rintro ⟨⟨w, slot⟩, hmem, rfl, hm, d, hd⟩
      exact ⟨hm, slot, d, (hentry _).1 hmem, hd⟩
    · rintro ⟨hm, slot, d, hoccurs, hd⟩
      exact ⟨(m.1, slot), (hentry _).2 hoccurs, rfl, hm, d, hd⟩
  · rintro ⟨w, slot⟩ hmem pool S hpool
    exact offerSlot_lists hP hs ((hentry _).1 hmem) hpool

theorem movesOn_lists {rows : List Nat} (hrows : ∀ c ∈ rows, c < P.rows.size) :
    Succeeds (movesOn P s rows) (Pool.Lists {m | ∃ c ∈ rows, m ∈ onRow P s c}) := by
  apply (Pool.Lists.foldlM (onRow P s) ?_ Pool.lists_empty).mono
  · intro pool hpool
    exact hpool.congr (by simp)
  · intro c hc pool S hpool
    exact offerRow_lists hP hs (hrows c hc) hpool

end Offered

/-- A move after which a constraint is satisfied. -/
def Mends [RandomSource ρ] (P : Problem) (f : Formula) (s : State ρ) (c : Nat) (m : Move) :
    Prop :=
  ∃ k t, f.constraints[c]? = some k ∧ apply P s m.1 m.2 = .ok t ∧
    k.satisfied t.assignment.values = .ok true

/-- A violated constraint bounds every variable that could satisfy it in some direction. -/
theorem exists_limits {σ : Variable → Int} {sense : Sense}
    (hsense : Sense.ofRelation? k.relation = some sense) (hviolated : ¬k.HoldsAt σ)
    (h : k.HoldsAlong σ v x) : ∃ d, Limits (k.poly.slopeAt σ v) k.relation d := by
  have hslope : k.poly.slopeAt σ v ≠ 0 := by
    intro hzero
    apply hviolated
    rw [← Constraint.holdsAlong_self (v := v)]
    unfold Constraint.HoldsAlong at h ⊢
    rw [hzero, zero_mul] at h ⊢
    exact h
  cases hrelation : k.relation with
  | le =>
    rcases lt_or_gt_of_ne hslope with hneg | hpos
    · exact ⟨.down, hneg⟩
    · exact ⟨.up, hpos⟩
  | ge =>
    rcases lt_or_gt_of_ne hslope with hneg | hpos
    · exact ⟨.up, hneg⟩
    · exact ⟨.down, hpos⟩
  | eq =>
    rw [hrelation] at hsense
    cases hsense
  | undefined =>
    rw [hrelation] at hsense
    cases hsense

section Mending

variable (hP : Posed P lbs ubs) (hs : Consistent P lbs ubs s)
  (hk : P.formula.constraints[c]? = some k)

include hP hs hk

/-- Some value of a variable that is not tabu would satisfy a violated constraint, and so
the last one does and is offered. -/
theorem exists_mem_onRow (hviolated : ¬k.HoldsAt s.point) (hv : v < P.formula.numVariables)
    (hfree : s.isTabu P v = .ok false) (hx : x ∈ within lbs ubs v)
    (hholds : k.HoldsAlong s.point v x) : ∃ y, (v, y) ∈ onRow P s c := by
  obtain ⟨sense, hsense, -⟩ := hP.row c k hk
  obtain ⟨d, hlimits⟩ := exists_limits hsense hviolated hholds
  obtain ⟨slot, ho⟩ := exists_occurrence hP hk hlimits.ne_zero
  obtain ⟨found, hfound, ⟨-, hlast⟩ | ⟨hnone, -⟩⟩ := feasibleOn_findsLast hP hs ho hk d
  · obtain ⟨y, rfl⟩ := Option.isSome_iff_exists.1 (hlast.isSome_iff.2 ⟨x, hx, hholds⟩)
    obtain ⟨⟨hy, hsatisfies⟩, -⟩ := Direction.isLast_iff.1 hlast
    refine ⟨y, ⟨?_, ?_, hfree⟩, slot, d, hP.mem_occurrences.1 ho, hfound⟩
    · intro hvalue
      have hpoint : s.point v = y := Except.ok.inj ((hs.value_eq hP hv).symm.trans hvalue)
      exact hviolated (Constraint.holdsAlong_self.1 (hpoint ▸ hsatisfies))
    · exact (hs.admits_eq hP hv y).trans (congrArg Except.ok (decide_eq_true hy))
  · exact absurd hlimits hnone

variable [RandomSource ρ]

theorem mends_of_mem_onRow {m : Move} (hlinear : k.poly.LinearIn m.1) (hm : m ∈ onRow P s c) :
    Mends P P.formula s c m := by
  obtain ⟨hcandidate, slot, d, hoccurs, hfound⟩ := hm
  have hlast := (feasibleOn_findsLast hP hs (hP.mem_occurrences.2 hoccurs) hk d).apply hfound
  rcases hlast with ⟨-, hlast⟩ | ⟨-, hnone⟩
  · obtain ⟨⟨-, hholds⟩, -⟩ := Direction.isLast_iff.1 hlast
    have hm := allowed_of_admits hP hs hcandidate.admits
    obtain ⟨t, happly, ht, hnew, hsame⟩ := succeeds_apply hP hs hm
    have hpoint : t.point = Function.update s.point m.1 m.2 :=
      Function.eq_update_iff.2 ⟨hnew, hsame⟩
    have hsatisfied : k.HoldsAt t.point :=
      hpoint ▸ (Constraint.holdsAlong_iff hlinear m.2).1 hholds
    refine ⟨k, t, hk, happly, ?_⟩
    rw [hP.satisfied_eq ht.consistent.inside (Array.mem_of_getElem? hk)]
    exact congrArg Except.ok (decide_eq_true hsatisfied)
  · cases hnone

end Mending

/-- A pool of the candidates that mend a violated constraint. Each is listed once, and for
every violated constraint each variable that could mend it alone, and is not tabu, is there
with a value that does. -/
structure MendingPool [RandomSource ρ] (P : Problem) (f : Formula) (s : State ρ)
    (found : List Nat) (pool : Pool) : Prop where
  indexed : pool.Indexed
  sound : ∀ m ∈ pool.entries, Candidate P s m ∧ ∃ c ∈ found, Mends P f s c m
  complete : ∀ c ∈ found, ∀ k, f.constraints[c]? = some k → ∀ v, s.isTabu P v = .ok false →
    (s.assignment.passing v (k.satisfied · = .ok true)).Nonempty →
      ∃ x, (v, x) ∈ pool.entries ∧ Mends P f s c (v, x)

variable [RandomSource ρ]

theorem succeeds_repairs_mending (hP : Posed P lbs ubs) (hs : Consistent P lbs ubs s)
    (hlinear : P.formula.Multilinear) : Succeeds (repairs P s)
      (MendingPool P P.formula s (P.formula.violatedAt s.point)) := by
  have hmember : ∀ c, c ∈ s.violated.members.toList ↔ c ∈ P.formula.violatedAt s.point := by
    intro c
    rw [Array.mem_toList_iff, hs.filed.mem_iff, Formula.mem_violatedAt]
    rfl
  have hlinearIn : ∀ k ∈ P.formula.constraints, ∀ v, k.poly.LinearIn v :=
    fun k hk v n hn => List.nodup_iff_count_le_one.1 (hlinear k hk n hn) v
  have hrows : ∀ c ∈ s.violated.members.toList, c < P.rows.size :=
    fun c hc => hs.filed.valid.lt_of_mem (Array.mem_def.2 hc)
  apply (movesOn_lists hP hs hrows).mono
  intro pool hpool
  constructor
  · exact hpool.toIndexed
  · intro m hm
    obtain ⟨c, hc, hm⟩ := (hpool.mem_iff m).1 hm
    obtain ⟨k, hk, -⟩ := (hs.filed.mem_iff c).1 (Array.mem_def.2 hc)
    have hlinear := hlinearIn k (Array.mem_of_getElem? hk) m.1
    exact ⟨hm.1, c, (hmember c).1 hc, mends_of_mem_onRow hP hs hk hlinear hm⟩
  · rintro c hc k hk v hfree ⟨x, hx⟩
    have hmem := Array.mem_of_getElem? hk
    have hlinear := hlinearIn k hmem v
    have hv := (allowed_of_admits hP hs hx.1).lt
    rw [passing_satisfied hP hs hv hmem hlinear] at hx
    have hc := (hmember c).2 hc
    obtain ⟨k', hk', hviolated⟩ := (hs.filed.mem_iff c).1 (Array.mem_def.2 hc)
    cases hk.symm.trans hk'
    obtain ⟨y, hy⟩ := exists_mem_onRow hP hs hk hviolated hv hfree hx.1 hx.2
    exact ⟨y, (hpool.mem_iff _).2 ⟨c, hc, hy⟩, mends_of_mem_onRow hP hs hk hlinear hy⟩

/-- On every reachable state of a formula without a repeat of a variable in a term, the
repairs are candidates that mend what is violated, and nothing that could be mended by one
variable is left out. -/
theorem mendingPool_of_reachable {f : Formula} (hf : f.Built) (hlinear : f.Multilinear)
    {settings : Settings} {source : ρ} {first : State ρ}
    (hstart : start f settings source = .ok (P, first)) (hs : Reachable P first s) :
    ∃ found, f.violated s.assignment.values = .ok found ∧
      Succeeds (repairs P s) (MendingPool P f s found) := by
  obtain ⟨rfl, -, hP, -⟩ := start_eq_ok hf.wellFormed hstart
  have hs := (sound_of_reachable hP (sound_first hf hstart) hs).consistent
  exact ⟨_, hP.violated_eq hs.inside, succeeds_repairs_mending hP hs hlinear⟩

/-- At `(3, 0)` the product is below its limit. -/
theorem exists_reachable_broken : ∃ (P : Problem) (first s : State Random.Xoshiro),
    start bilinear shortRun (.ofSeed 0) = .ok (P, first) ∧ Reachable P first s ∧
      s.assignment = ⟨#[3, 0], #[0, -3], #[5, 7]⟩ := by
  apply exists_reachable built_bilinear [.move 0 3]
  · intro P hformula
    simp [Call.Admissible, hformula, bilinear]
  · decide +kernel

theorem mendingPool_of_bilinear : ∃ (P : Problem) (first s : State Random.Xoshiro),
    bilinear.Built ∧ bilinear.Multilinear ∧
      start bilinear shortRun (.ofSeed 0) = .ok (P, first) ∧ Reachable P first s ∧
        ∃ found, found = [0] ∧ bilinear.violated s.assignment.values = .ok found ∧
          Succeeds (repairs P s) (MendingPool P bilinear s found) := by
  have hlinear : bilinear.Multilinear := by decide
  obtain ⟨P, first, s, hstart, hs, ha⟩ := exists_reachable_broken
  obtain ⟨found, hviolated, hpool⟩ :=
    mendingPool_of_reachable built_bilinear hlinear hstart hs
  have hfound : found = [0] := by
    rw [ha] at hviolated
    exact (Except.ok.inj hviolated).symm
  exact ⟨P, first, s, built_bilinear, hlinear, hstart, hs, found, hfound, hviolated, hpool⟩

end NonlinearInteger.Search
