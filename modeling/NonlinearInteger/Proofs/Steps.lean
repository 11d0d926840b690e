import NonlinearInteger.Proofs.Draws
import NonlinearInteger.Proofs.Samples

/-!
# Steps

From a consistent state every kind of step ends with a consistent state and
leaves the best assignment alone: the moves that it makes come from pools of
allowed moves, from walks to a bound, or from lifts.
-/

namespace NonlinearInteger.Search

variable {ρ : Type} [RandomSource ρ] {P : Problem} {lbs ubs : Array Int} {s : State ρ}

theorem succeeds_drawBest (hP : Posed P lbs ubs) (hs : Consistent P lbs ubs s) {n : Nat}
    {best : Option Scored} {pool : Pool} (hn : n ≤ pool.size) (hpool : Offers P lbs ubs pool)
    (source : ρ) : Succeeds (drawBest P s n best pool source) fun _ => True := by
  induction n generalizing best pool source with
  | zero => exact .of_pure trivial
  | succ n ih =>
    unfold drawBest
    apply (Random.succeeds_below (by omega) source).bind
    rintro ⟨i, source⟩ hi
    apply (Pool.succeeds_removeAt hi).bind
    rintro ⟨m, rest⟩ ⟨hsize, hperm, -⟩
    have hallowed : ∀ m' ∈ m :: rest.entries.toList, Allowed P lbs ubs m' :=
      fun m' hm' => hpool m' (Array.mem_def.2 (hperm.subset hm'))
    apply (succeeds_score hP hs (hallowed m List.mem_cons_self)).bind
    intro value _
    apply ih
    · simp only at hsize
      omega
    · intro m' hm'
      exact hallowed m' (List.mem_cons_of_mem m (Array.mem_def.1 hm'))

theorem succeeds_drawAllowed (hP : Posed P lbs ubs) (hs : Consistent P lbs ubs s) {n : Nat}
    {pool : Pool} (hn : n ≤ pool.size) (hpool : Offers P lbs ubs pool) (source : ρ) :
    Succeeds (drawBest P s n none pool source) fun r =>
      ∀ b, r.1 = some b → Allowed P lbs ubs b.move := by
  obtain ⟨⟨best, rest, source'⟩, hdraw, -⟩ := succeeds_drawBest hP hs hn hpool source
  obtain ⟨drawn, -, hdraws, rfl⟩ := draws_of_drawBest hdraw
  refine ⟨_, hdraw, fun b hb => ?_⟩
  exact hpool _ (hdraws.mem_entries ((mem_of_bestOf hb).resolve_right nofun))

theorem succeeds_applyMove (hP : Posed P lbs ubs) (hs : Consistent P lbs ubs s) {m : Move}
    (hm : Allowed P lbs ubs m) : Succeeds (apply P s m.1 m.2) (Continues P lbs ubs s) :=
  (succeeds_apply hP hs hm).mono fun _ ht => ht.1

theorem succeeds_selectAndMove (hP : Posed P lbs ubs) (hs : Consistent P lbs ubs s) {pool : Pool}
    (hpool : Offers P lbs ubs pool) (threshold : Option Int) :
    Succeeds (selectAndMove P s pool threshold) fun r => Continues P lbs ubs s r.2.2 := by
  unfold selectAndMove
  apply (succeeds_drawAllowed hP hs (Nat.min_le_right ..) hpool s.source).lift.bind
  rintro ⟨best, pool, source⟩ hbest
  have hsource := Continues.withSource hs source
  cases best with
  | none => exact .of_pure hsource
  | some b =>
    dsimp only
    split
    · apply (succeeds_applyMove hP hsource.consistent (hbest b rfl)).bind
      intro t ht
      exact .of_pure (hsource.trans ht)
    · exact .of_pure hsource

omit [RandomSource ρ] in
/-- Weights have no part in what the caches show. -/
theorem succeeds_raiseWeight {σ : Variable → Int} {caches : Array Cache}
    (h : Cached P σ caches) {c : Nat} (hc : c < P.rows.size) :
    Succeeds (raiseWeight caches c) (Cached P σ) := by
  have hlt : c < caches.size := h.size_eq ▸ hc
  unfold raiseWeight
  apply Succeeds.next (fetch_of_lt hlt)
  refine (succeeds_store _ hlt).mono fun u hu => ⟨hu.1.trans h.size_eq, ?_⟩
  intro c' k row cache hk hrow hcache
  rw [hu.2] at hcache
  split at hcache
  · rename_i heq
    subst heq
    cases hcache
    have hshows := h.shows c' k row _ hk hrow (Array.getElem?_eq_getElem hlt)
    exact ⟨hshows.value_eq, hshows.slopes_eq⟩
  · exact h.shows c' k row cache hk hrow hcache

omit [RandomSource ρ] in
theorem succeeds_updateWeights (hs : Consistent P lbs ubs s) :
    Succeeds (updateWeights s) (Continues P lbs ubs s) := by
  unfold updateWeights
  refine (Succeeds.foldlM (motive := Cached P s.point) hs.cached ?_).bind ?_
  · intro caches c hc hcached
    exact succeeds_raiseWeight hcached (hs.filed.valid.lt_of_mem (Array.mem_def.2 hc))
  · intro caches hcached
    apply Succeeds.of_pure
    exact ⟨⟨hs.inside, hcached, hs.filed, hs.objective_eq, hs.size_tabuUntil⟩,
      rfl, rfl, rfl, rfl, rfl⟩

theorem size_pos_of_not_isEmpty {α : Type} {a : Array α} (h : ¬a.isEmpty = true) :
    0 < a.size := by
  rw [Array.isEmpty_iff] at h
  exact Array.size_pos_iff.2 h

theorem flipTarget_between {lb ub : Int} (h : lb ≤ ub) (current : Int) (source : ρ) :
    lb ≤ (flipTarget lb ub current source).1 ∧ (flipTarget lb ub current source).1 ≤ ub := by
  unfold flipTarget
  split
  · exact ⟨Int.le_refl lb, h⟩
  · split
    · exact ⟨h, Int.le_refl ub⟩
    · dsimp only
      split
      · exact ⟨Int.le_refl lb, h⟩
      · exact ⟨h, Int.le_refl ub⟩

theorem succeeds_walkOn (hP : Posed P lbs ubs) (hs : Consistent P lbs ubs s) {c : Nat}
    (hc : c < P.rows.size) :
    Succeeds (walkOn P s c) fun r => Continues P lbs ubs s r.2 := by
  have hrow : P.rows[c]? = some P.rows[c] := Array.getElem?_eq_getElem hc
  unfold walkOn
  apply Succeeds.next (mapError_eq_ok.2 (fetch_eq_ok.2 hrow))
  dsimp only
  split
  · exact .of_pure (.refl hs)
  · rename_i hempty
    have hsize := size_pos_of_not_isEmpty hempty
    apply (Random.succeeds_below hsize s.source).lift.bind
    rintro ⟨i, source⟩ hi
    have hv := hP.lt_of_mem_vars hrow (Array.getElem_mem hi)
    apply Succeeds.next (mapError_eq_ok.2 (fetch_of_lt hi))
    apply Succeeds.next (mapError_eq_ok.2 (hs.value_eq hP hv))
    apply Succeeds.next (mapError_eq_ok.2 (hs.lb_eq hP hv))
    apply Succeeds.next (mapError_eq_ok.2 (hs.ub_eq hP hv))
    have hbetween :=
      flipTarget_between (hP.bounds.ordered _ hv) (s.point P.rows[c].vars[i]) source
    have hsource := Continues.withSource hs
      (flipTarget (valuation lbs P.rows[c].vars[i]) (valuation ubs P.rows[c].vars[i])
        (s.point P.rows[c].vars[i]) source).2
    dsimp only
    split
    · exact .of_pure hsource
    · refine (succeeds_applyMove hP hsource.consistent (m := (_, _))
        ⟨hv, hbetween.1, hbetween.2⟩).bind fun t ht => ?_
      exact .of_pure (hsource.trans ht)

theorem succeeds_randomWalk (hP : Posed P lbs ubs) (hs : Consistent P lbs ubs s)
    {rows : Array Nat} (hrows : ∀ c ∈ rows, c < P.rows.size) (kind : MoveKind) :
    Succeeds (randomWalk P s rows kind) fun r => Continues P lbs ubs s r.2 := by
  unfold randomWalk
  split
  · exact .of_pure (.refl hs)
  · rename_i hempty
    have hsize := size_pos_of_not_isEmpty hempty
    apply (succeeds_sample P.settings.randomStep rows s.source).lift.bind
    rintro ⟨chosen, source⟩ hchosen
    refine (succeeds_movesOn hP hs fun c hc => hrows c (hchosen c hc)).lift.bind
      fun pool hpool => ?_
    have hsource := Continues.withSource hs source
    apply (succeeds_selectAndMove hP hsource.consistent hpool none).bind
    rintro ⟨moved, rest, t⟩ ht
    have ht := hsource.trans ht
    dsimp only
    split
    · exact .of_pure ht
    · apply (Random.succeeds_below hsize t.source).lift.bind
      rintro ⟨i, source⟩ hi
      have hsource := Continues.withSource ht.consistent source
      apply Succeeds.next (mapError_eq_ok.2 (fetch_of_lt hi))
      apply (succeeds_walkOn hP hsource.consistent (hrows _ (Array.getElem_mem hi))).bind
      rintro ⟨moved, u⟩ hu
      exact .of_pure (ht.trans (hsource.trans hu))

theorem succeeds_walkSatisfied (hP : Posed P lbs ubs) (hs : Consistent P lbs ubs s) :
    Succeeds (walkSatisfied P s) fun r => Continues P lbs ubs s r.2 := by
  have hslack : Succeeds (slackRows P s) fun rows => ∀ c ∈ rows, c < P.rows.size := by
    unfold slackRows
    apply Succeeds.filterMapM
    intro c hc
    have hlt := List.mem_range.1 hc
    refine (succeeds_isTightAt hs hlt).bind fun tight _ => .of_pure ?_
    intro c' hc'
    split at hc'
    · cases hc'
    · cases hc'
      exact hlt
  unfold walkSatisfied
  apply hslack.lift.bind
  intro rows hrows
  exact succeeds_randomWalk hP hs (fun c hc => hrows c (List.mem_toArray.1 hc)) _

theorem succeeds_walkViolated (hP : Posed P lbs ubs) (hs : Consistent P lbs ubs s) :
    Succeeds (walkViolated P s) fun r => Continues P lbs ubs s r.2 :=
  succeeds_randomWalk hP hs (fun _ hc => hs.filed.valid.lt_of_mem hc) _

omit [RandomSource ρ] in
theorem succeeds_liftGain? (hP : Posed P lbs ubs) (hs : Consistent P lbs ubs s)
    {term : Variable × Int} (hterm : term.1 < P.formula.numVariables) :
    Succeeds (liftGain? P s term) fun r => ∀ b, r = some b → Allowed P lbs ubs b.move := by
  obtain ⟨v, coef⟩ := term
  unfold liftGain?
  apply (succeeds_isTabu hs hterm).bind
  intro tabu _
  split
  · exact .of_pure (by simp)
  · apply (succeeds_feasible hP hs hterm .up).bind
    intro last hlast
    cases last with
    | none => exact .of_pure (by simp)
    | some x =>
      have hallowed := hlast x rfl
      apply Succeeds.next (hs.value_eq hP hterm)
      apply Succeeds.next (hs.sub_eq hP hallowed)
      apply Succeeds.of_pure
      intro b hb
      cases hb
      exact hallowed

omit [RandomSource ρ] in
theorem succeeds_bestLift (hP : Posed P lbs ubs) (hs : Consistent P lbs ubs s) :
    Succeeds (bestLift P s) fun r => ∀ b, r = some b → Allowed P lbs ubs b.move := by
  unfold bestLift
  apply Succeeds.foldlM
    (motive := fun r : Option Scored => ∀ b, r = some b → Allowed P lbs ubs b.move) (by simp)
  intro best term hterm hbest
  apply (succeeds_liftGain? hP hs (hP.liftTerms hterm)).bind
  intro next hnext
  cases next with
  | none => exact .of_pure hbest
  | some c =>
    apply Succeeds.of_pure
    intro b hb
    cases hb
    rcases better_eq best c with heq | heq
    · rw [heq]
      exact hnext c rfl
    · exact hbest _ heq

theorem succeeds_liftMove (hP : Posed P lbs ubs) (hs : Consistent P lbs ubs s) :
    Succeeds (liftMove P s) fun r => Continues P lbs ubs s r.2 := by
  unfold liftMove
  apply (succeeds_bestLift hP hs).lift.bind
  intro best hbest
  cases best with
  | none => exact .of_pure (.refl hs)
  | some b =>
    dsimp only
    split
    · apply (succeeds_applyMove hP hs (hbest b rfl)).bind
      intro t ht
      exact .of_pure ht
    · exact .of_pure (.refl hs)

theorem succeeds_objectiveStep (hP : Posed P lbs ubs) (hs : Consistent P lbs ubs s) :
    Succeeds (objectiveStep P s) fun r => Continues P lbs ubs s r.2 := by
  have hunbound : Succeeds (unboundVars P s) fun vars =>
      ∀ v ∈ vars, v < P.formula.numVariables ∧ s.point v < valuation ubs v := by
    unfold unboundVars
    apply Succeeds.filterMapM
    intro v hmem
    have hv := hP.objectiveVars v hmem
    apply Succeeds.next (hs.value_eq hP hv)
    apply Succeeds.next (hs.ub_eq hP hv)
    apply Succeeds.of_pure
    intro u hu
    split at hu
    · rename_i hlt
      cases hu
      exact ⟨hv, hlt⟩
    · cases hu
  unfold objectiveStep
  apply hunbound.lift.bind
  intro vars hvars
  dsimp only
  split
  · exact .of_pure (.refl hs)
  · rename_i hempty
    have hsize := size_pos_of_not_isEmpty hempty
    apply (Random.succeeds_below hsize s.source).lift.bind
    rintro ⟨i, source⟩ hi
    have hi : i < vars.toArray.size := hi
    have hsource := Continues.withSource hs source
    apply Succeeds.next (mapError_eq_ok.2 (fetch_of_lt hi))
    obtain ⟨hv, hlt⟩ := hvars _ (List.mem_toArray.1 (Array.getElem_mem hi))
    apply Succeeds.next (mapError_eq_ok.2 (hs.value_eq hP hv))
    have hbetween := hs.inside.between _ (hP.size_lbs ▸ hv)
    have hallowed : Allowed P lbs ubs (vars.toArray[i], s.point vars.toArray[i] + 1) := by
      refine ⟨hv, ?_, hlt⟩
      unfold State.point
      simp only
      omega
    apply (succeeds_applyMove hP hsource.consistent hallowed).bind
    intro t ht
    exact .of_pure (hsource.trans ht)

theorem succeeds_repairStep (hP : Posed P lbs ubs) (hs : Consistent P lbs ubs s) :
    Succeeds (repairStep P s) fun r => Continues P lbs ubs s r.2 := by
  unfold repairStep
  apply (succeeds_repairs hP hs).lift.bind
  intro pool hpool
  apply (succeeds_selectAndMove hP hs hpool (some 0)).bind
  rintro ⟨moved, rest, t⟩ ht
  dsimp only
  split
  · exact .of_pure ht
  · apply (succeeds_updateWeights ht.consistent).lift.bind
    intro u hu
    apply (succeeds_walkViolated hP hu.consistent).mono
    intro r hr
    exact ht.trans (hu.trans hr)

theorem succeeds_liftStep (hP : Posed P lbs ubs) (hs : Consistent P lbs ubs s) :
    Succeeds (liftStep P s) fun r => Continues P lbs ubs s r.2 := by
  have hlift : Succeeds (if P.settings.lift then liftMove P s else pure (false, s)) fun r =>
      Continues P lbs ubs s r.2 := by
    split
    · exact succeeds_liftMove hP hs
    · exact .of_pure (.refl hs)
  unfold liftStep
  dsimp only
  apply hlift.bind_ite
  rintro ⟨lifted, t⟩ ht
  dsimp only
  split
  · exact .of_pure ht
  · apply (succeeds_improvements hP ht.consistent).lift.bind
    intro pool hpool
    apply (succeeds_selectAndMove hP ht.consistent hpool (some 0)).bind
    rintro ⟨moved, rest, u⟩ hu
    dsimp only
    split
    · exact .of_pure (ht.trans hu)
    · apply (succeeds_updateWeights hu.consistent).lift.bind
      intro w hw
      apply (succeeds_walkSatisfied hP hw.consistent).mono
      intro r hr
      exact ht.trans (hu.trans (hw.trans hr))

theorem succeeds_objectiveSatStep (hP : Posed P lbs ubs) (hs : Consistent P lbs ubs s) :
    Succeeds (objectiveSatStep P s) fun r => Continues P lbs ubs s r.2 := by
  unfold objectiveSatStep
  apply (succeeds_boundMoves hP hs).lift.bind
  intro pool hpool
  apply (succeeds_selectAndMove hP hs hpool (some 0)).bind
  rintro ⟨moved, rest, t⟩ ht
  dsimp only
  split
  · exact .of_pure ht
  apply (succeeds_rises hP ht.consistent).lift.bind
  intro pool hpool
  apply (succeeds_selectAndMove hP ht.consistent hpool (some 0)).bind
  rintro ⟨moved, rest, u⟩ hu
  have hu := ht.trans hu
  dsimp only
  split
  · exact .of_pure hu
  apply (succeeds_sampled hP hu.consistent u.source).lift.bind
  rintro ⟨pool, source⟩ hpool
  have hsource := Continues.withSource hu.consistent source
  apply (succeeds_selectAndMove hP hsource.consistent hpool _).bind
  rintro ⟨moved, rest, w⟩ hw
  have hw := hu.trans (hsource.trans hw)
  dsimp only
  split
  · exact .of_pure hw
  apply (succeeds_updateWeights hw.consistent).lift.bind
  intro x hx
  apply (succeeds_objectiveStep hP hx.consistent).bind
  rintro ⟨moved, y⟩ hy
  exact .of_pure (hw.trans (hx.trans hy))

/-- Every step keeps a state consistent and none fails. -/
theorem succeeds_takeStep (hP : Posed P lbs ubs) (hs : Consistent P lbs ubs s) :
    Succeeds (takeStep P s) fun r => Continues P lbs ubs s r.2 := by
  unfold takeStep
  split
  · cases P.settings.strategy with
    | lift =>
      apply (succeeds_liftStep hP hs).bind
      rintro ⟨kind, t⟩ ht
      exact .of_pure ht
    | objective => exact succeeds_objectiveSatStep hP hs
  · apply (succeeds_repairStep hP hs).bind
    rintro ⟨kind, t⟩ ht
    exact .of_pure ht

end NonlinearInteger.Search
