import NonlinearInteger.Proofs.Frames
import NonlinearInteger.Proofs.Pools
import NonlinearInteger.Proofs.Steps

/-!
# What the parts of a step come to

Weights are raised on violated constraints only. A choice from a pool makes a move of
that pool or nothing, a walk sets a variable of one of its rows or nothing, a lift
raises a variable of the objective, and a single step raises one by one. Random
numbers are all that an attempt without a move uses up.
-/

namespace NonlinearInteger

namespace Search

variable {ρ : Type} {P : Problem} {lbs ubs : Array Int} {s t : State ρ}

/-- Every violated constraint weighs one more, and so does the objective while it is
stuck. Nothing else has changed, the random source apart. -/
structure Adapted (P : Problem) (lbs ubs : Array Int) (s a : State ρ) : Prop where
  continues : Continues P lbs ubs s a
  assignment_eq : a.assignment = s.assignment
  tabuUntil_eq : a.tabuUntil = s.tabuUntil
  raised : ∀ c : Nat, a.weights[c]? =
    s.weights[c]?.map fun w => if c ∈ s.violated.members then w + 1 else w
  objectiveWeight_eq : a.objectiveWeight =
    if s.objectiveWeight < maxObjectiveWeight ∧ s.bestUnsat = 0 ∧ s.bestObjective ≤ s.objective
    then s.objectiveWeight + 1 else s.objectiveWeight

namespace Adapted

variable {a : State ρ} {source : ρ}

theorem of_source (hs : Consistent P lbs ubs s)
    (h : Adapted P lbs ubs { s with source := source } a) : Adapted P lbs ubs s a where
  continues := (Continues.withSource hs source).trans h.continues
  assignment_eq := h.assignment_eq
  tabuUntil_eq := h.tabuUntil_eq
  raised := h.raised
  objectiveWeight_eq := h.objectiveWeight_eq

theorem withSource (h : Adapted P lbs ubs s a) (source : ρ) :
    Adapted P lbs ubs s { a with source := source } where
  continues := h.continues.trans (Continues.withSource h.continues.consistent source)
  assignment_eq := h.assignment_eq
  tabuUntil_eq := h.tabuUntil_eq
  raised := h.raised
  objectiveWeight_eq := h.objectiveWeight_eq

theorem point_eq (h : Adapted P lbs ubs s a) : a.point = s.point :=
  congrArg (fun b : Assignment => valuation b.values) h.assignment_eq

end Adapted

/-- Each violated constraint is raised once. -/
theorem raised_of_foldlM (hs : Consistent P lbs ubs s) {caches : Array Cache}
    (h : s.violated.members.toList.foldlM raiseWeight s.caches = .ok caches) (c : Nat) :
    (caches.map Cache.weight)[c]? =
      s.weights[c]?.map fun w => if c ∈ s.violated.members then w + 1 else w := by
  have hlt : ∀ c ∈ s.violated.members.toList, c < s.caches.size := by
    intro c hc
    rw [hs.cached.size_eq]
    exact hs.filed.valid.lt_of_mem (Array.mem_def.2 hc)
  have hrun : Succeeds (s.violated.members.toList.foldlM raiseWeight s.caches) fun u =>
      u.size = s.caches.size ∧
      (∀ c ∈ s.violated.members.toList, ∃ x, u[c]? = some x ∧
        ∀ cache, s.caches[c]? = some cache → x.weight = cache.weight + 1) ∧
      ∀ c, c ∉ s.violated.members.toList.map id → u[c]? = s.caches[c]? := by
    apply Succeeds.foldlM_update id (fun c (x : Cache) => ∀ cache, s.caches[c]? = some cache →
      x.weight = cache.weight + 1) (by simpa using hs.filed.valid.nodup)
    intro c hc u hsize hget
    have hltu : c < u.size := hsize ▸ hlt c hc
    unfold raiseWeight
    apply Succeeds.next (fetch_of_lt hltu)
    apply (succeeds_store_apart _ hltu).mono
    intro b hb
    refine ⟨hb.1, ⟨_, hb.2.1, ?_⟩, hb.2.2⟩
    intro cache hcache
    have hold : u[c]? = some cache := hget.trans hcache
    rw [Array.getElem?_eq_getElem hltu] at hold
    rw [Option.some.inj hold]
  obtain ⟨-, hraised, hsame⟩ := hrun.apply h
  rw [State.weights, Array.getElem?_map, Array.getElem?_map]
  by_cases hc : c ∈ s.violated.members
  · obtain ⟨x, hx, hweight⟩ := hraised c (Array.mem_def.1 hc)
    have hcache := Array.getElem?_eq_getElem (hlt c (Array.mem_def.1 hc))
    simp [hx, hcache, hc, hweight _ hcache]
  · have hc' : c ∉ s.violated.members.toList.map id := by
      rw [List.map_id]
      exact fun h => hc (Array.mem_def.2 h)
    simp [hsame c hc', hc, Function.comp_def]

theorem adapted_of_updateWeights (hs : Consistent P lbs ubs s)
    (h : updateWeights s = .ok t) : Adapted P lbs ubs s t := by
  have hcontinues := (succeeds_updateWeights hs).apply h
  obtain ⟨caches, hcaches, h⟩ := bind_eq_ok.1 h
  cases pure_eq_ok.1 h
  refine ⟨hcontinues, rfl, rfl, raised_of_foldlM hs hcaches, ?_⟩
  simp only [decide_eq_true_eq]

/-- What comes of a choice from a pool: a move whose score beats the threshold has been
made, or only random numbers have been drawn. -/
inductive Selected (P : Problem) (lbs ubs : Array Int) (s : State ρ) (good : Move → Prop)
    (threshold : Option Int) : Bool → State ρ → Prop
  | made {m : Move} {gain : Int} {t : State ρ} : good m → score P s m.1 m.2 = .ok gain →
      beats gain threshold = true → Moved P lbs ubs s m t →
      Selected P lbs ubs s good threshold true t
  | unmade (source : ρ) : Selected P lbs ubs s good threshold false { s with source := source }

/-- What comes of a walk among some rows: a variable in one of them has been set, or
only random numbers have been drawn. -/
inductive Walked (P : Problem) (lbs ubs : Array Int) (s : State ρ) (rows : Nat → Prop) :
    Bool → State ρ → Prop
  | moved {m : Move} {t : State ρ} : OccursIn P rows m.1 → Moved P lbs ubs s m t →
      Walked P lbs ubs s rows true t
  | stayed (source : ρ) : Walked P lbs ubs s rows false { s with source := source }

variable {good : Move → Prop} {threshold : Option Int}

theorem Selected.of_source (hs : Consistent P lbs ubs s) {source : ρ} {moved : Bool}
    (h : Selected P lbs ubs { s with source := source } good threshold moved t) :
    Selected P lbs ubs s good threshold moved t := by
  cases h with
  | made hm hscore hbeats hmoved => exact .made hm hscore hbeats (hmoved.of_source hs)
  | unmade source => exact .unmade source

theorem Walked.of_source (hs : Consistent P lbs ubs s) {source : ρ} {rows : Nat → Prop}
    {moved : Bool} (h : Walked P lbs ubs { s with source := source } rows moved t) :
    Walked P lbs ubs s rows moved t := by
  cases h with
  | moved hoccurs hmoved => exact .moved hoccurs (hmoved.of_source hs)
  | stayed source => exact .stayed source

theorem Walked.mono {rows others : Nat → Prop} {moved : Bool}
    (h : Walked P lbs ubs s rows moved t) (hrows : ∀ c, rows c → others c) :
    Walked P lbs ubs s others moved t := by
  cases h with
  | moved hoccurs hmoved => exact .moved (hoccurs.mono hrows) hmoved
  | stayed source => exact .stayed source

variable [RandomSource ρ]

theorem selected_of_selectAndMove (hP : Posed P lbs ubs) (hs : Consistent P lbs ubs s)
    {pool rest : Pool} {moved : Bool} (hgood : ∀ m, good m → s.assignment.value m.1 ≠ .ok m.2)
    (hpool : pool.Only good) (h : selectAndMove P s pool threshold = .ok (moved, rest, t)) :
    Selected P lbs ubs s good threshold moved t := by
  obtain ⟨⟨best, pool', source⟩, hdraw, h⟩ := bind_eq_ok.1 h
  obtain ⟨drawn, -, hdraws, hbest⟩ := draws_of_drawBest (mapError_eq_ok.1 hdraw)
  cases best with
  | none =>
    cases pure_eq_ok.1 h
    exact .unmade source
  | some b =>
    dsimp only at h
    split at h
    · rename_i hbeats
      obtain ⟨u, happly, h⟩ := bind_eq_ok.1 h
      cases pure_eq_ok.1 h
      have hmem := (mem_of_bestOf hbest.symm).resolve_right nofun
      have hb := hpool _ (hdraws.mem_entries hmem)
      have hscore := hdraws.scored b hmem
      have hsource := Continues.withSource hs source
      have hmoved := moved_of_apply hP hsource.consistent (hgood _ hb) happly
      exact .made hb hscore hbeats (hmoved.of_source hs)
    · cases pure_eq_ok.1 h
      exact .unmade source

theorem walked_of_walkOn (hP : Posed P lbs ubs) (hs : Consistent P lbs ubs s) {c : Nat}
    {moved : Bool} (h : walkOn P s c = .ok (moved, t)) :
    Walked P lbs ubs s (· = c) moved t := by
  obtain ⟨row, hrow, h⟩ := bind_eq_ok.1 h
  dsimp only at h
  split at h
  · cases pure_eq_ok.1 h
    exact .stayed s.source
  · obtain ⟨⟨i, source⟩, -, h⟩ := bind_eq_ok.1 h
    obtain ⟨v, hv, h⟩ := bind_eq_ok.1 h
    obtain ⟨current, hcurrent, h⟩ := bind_eq_ok.1 h
    obtain ⟨lb, -, h⟩ := bind_eq_ok.1 h
    obtain ⟨ub, -, h⟩ := bind_eq_ok.1 h
    have hoccurs : Occurs P v c i :=
      ⟨row, fetch_eq_ok.1 (mapError_eq_ok.1 hrow), fetch_eq_ok.1 (mapError_eq_ok.1 hv)⟩
    generalize flipTarget lb ub current source = target at h
    split at h
    · cases pure_eq_ok.1 h
      exact .stayed target.2
    · rename_i hne
      obtain ⟨u, happly, h⟩ := bind_eq_ok.1 h
      cases pure_eq_ok.1 h
      have hsource := Continues.withSource hs target.2
      have hcurrent := mapError_eq_ok.1 hcurrent
      have hvalue : s.assignment.value v ≠ .ok target.1 :=
        fun heq => hne (Except.ok.inj (heq.symm.trans hcurrent))
      have hmoved := moved_of_apply (m := (v, target.1)) hP hsource.consistent hvalue happly
      exact .moved ⟨c, i, rfl, hoccurs⟩ (hmoved.of_source hs)

theorem walked_of_randomWalk (hP : Posed P lbs ubs) (hs : Consistent P lbs ubs s)
    {rows : Array Nat} {kind found : MoveKind}
    (h : randomWalk P s rows kind = .ok (found, t)) :
    ∃ moved, found = (if moved then kind else .idle) ∧
      Walked P lbs ubs s (· ∈ rows) moved t := by
  unfold randomWalk at h
  split at h
  · cases pure_eq_ok.1 h
    exact ⟨false, rfl, .stayed s.source⟩
  · obtain ⟨⟨chosen, source⟩, hchosen, h⟩ := bind_eq_ok.1 h
    obtain ⟨pool, hpool, h⟩ := bind_eq_ok.1 h
    obtain ⟨⟨moved, rest, u⟩, hselect, h⟩ := bind_eq_ok.1 h
    have hsource := Continues.withSource hs source
    have hmem := (succeeds_sample _ rows s.source).apply (mapError_eq_ok.1 hchosen)
    have hselected := (selected_of_selectAndMove hP hsource.consistent (fun m hm => hm.1.ne)
      (only_of_movesOn (mapError_eq_ok.1 hpool)) hselect).of_source hs
    cases hselected with
    | made hm _ _ hmoved =>
      cases pure_eq_ok.1 h
      exact ⟨true, rfl, .moved (hm.2.mono hmem) hmoved⟩
    | unmade source =>
      obtain ⟨⟨i, source'⟩, -, h⟩ := bind_eq_ok.1 h
      obtain ⟨c, hc, h⟩ := bind_eq_ok.1 h
      obtain ⟨⟨moved, w⟩, hwalk, h⟩ := bind_eq_ok.1 h
      cases pure_eq_ok.1 h
      have hc := Array.mem_of_getElem? (fetch_eq_ok.1 (mapError_eq_ok.1 hc))
      have hsource := Continues.withSource hs source'
      have hwalked := (walked_of_walkOn hP hsource.consistent hwalk).of_source hs
      exact ⟨moved, rfl, hwalked.mono fun d hd => hd ▸ hc⟩

/-- A constraint is not at its limit. -/
def Slack (P : Problem) (σ : Variable → Int) (c : Nat) : Prop :=
  ∃ k, P.formula.constraints[c]? = some k ∧ k.poly.eval σ ≠ k.limit

omit [RandomSource ρ] in
theorem slack_of_isTightAt (hP : Posed P lbs ubs) (hs : Consistent P lbs ubs s) {c : Nat}
    (h : isTightAt P s c = .ok false) : Slack P s.point c := by
  obtain ⟨row, hrow, h⟩ := bind_eq_ok.1 h
  obtain ⟨cache, hcache, h⟩ := bind_eq_ok.1 h
  have hrow := fetch_eq_ok.1 hrow
  obtain ⟨k, sense, hk, -, rfl⟩ := hP.row_cases hrow
  have hshows := hs.cached.shows c k _ cache hk hrow (fetch_eq_ok.1 hcache)
  have hne := of_decide_eq_false (pure_eq_ok.1 h)
  rw [hshows.value_eq] at hne
  exact ⟨k, hk, hne⟩

theorem walked_of_walkSatisfied (hP : Posed P lbs ubs) (hs : Consistent P lbs ubs s)
    {found : MoveKind} (h : walkSatisfied P s = .ok (found, t)) :
    ∃ moved, found = (if moved then .randomWalkSat else .idle) ∧
      Walked P lbs ubs s (Slack P s.point) moved t := by
  obtain ⟨rows, hrows, h⟩ := bind_eq_ok.1 h
  obtain ⟨moved, hfound, hwalked⟩ := walked_of_randomWalk hP hs h
  refine ⟨moved, hfound, hwalked.mono fun c hc => ?_⟩
  obtain ⟨d, -, hd⟩ := (mem_filterMapM (mapError_eq_ok.1 hrows)).1 (List.mem_toArray.1 hc)
  obtain ⟨tight, htight, hd⟩ := bind_eq_ok.1 hd
  cases tight with
  | true => cases pure_eq_ok.1 hd
  | false =>
    cases pure_eq_ok.1 hd
    exact slack_of_isTightAt hP hs htight

theorem walked_of_walkViolated (hP : Posed P lbs ubs) (hs : Consistent P lbs ubs s)
    {found : MoveKind} (h : walkViolated P s = .ok (found, t)) :
    ∃ moved, found = (if moved then .randomWalkUnsat else .idle) ∧
      Walked P lbs ubs s (Violates P s.point) moved t := by
  obtain ⟨moved, hfound, hwalked⟩ := walked_of_randomWalk hP hs h
  exact ⟨moved, hfound, hwalked.mono fun c => (hs.filed.mem_iff c).1⟩

omit [RandomSource ρ] in
theorem mem_of_bestLift {b : Scored} (h : bestLift P s = .ok (some b)) :
    ∃ term ∈ P.liftTerms, liftGain? P s term = .ok (some b) := by
  refine foldlM_keeps (motive := fun best : Option Scored => ∀ b, best = some b →
    ∃ term ∈ P.liftTerms, liftGain? P s term = .ok (some b)) h (by simp) ?_ b rfl
  intro best term next hterm hbest hnext b hb
  obtain ⟨gain, hgain, hnext⟩ := bind_eq_ok.1 hnext
  cases gain with
  | none =>
    cases pure_eq_ok.1 hnext
    exact hbest b hb
  | some found =>
    cases pure_eq_ok.1 hnext
    cases hb
    rcases better_eq best found with heq | heq
    · rw [heq]
      exact ⟨term, hterm, hgain⟩
    · exact hbest _ heq

omit [RandomSource ρ] in
theorem lt_of_liftGain? (hP : Posed P lbs ubs) (hs : Consistent P lbs ubs s)
    {term : Variable × Int} (hterm : term ∈ P.liftTerms) {b : Scored}
    (h : liftGain? P s term = .ok (some b)) (hgain : 0 < b.score) :
    b.move.1 = term.1 ∧ s.isTabu P b.move.1 = .ok false ∧ s.point b.move.1 < b.move.2 := by
  obtain ⟨v, coef⟩ := term
  obtain ⟨tabu, htabu, h⟩ := bind_eq_ok.1 h
  cases tabu with
  | true => cases pure_eq_ok.1 h
  | false =>
    obtain ⟨last, -, h⟩ := bind_eq_ok.1 h
    cases last with
    | none => cases pure_eq_ok.1 h
    | some x =>
      obtain ⟨old, hold, h⟩ := bind_eq_ok.1 h
      obtain ⟨rise, hrise, h⟩ := bind_eq_ok.1 h
      cases pure_eq_ok.1 h
      obtain ⟨-, rfl⟩ := hs.lt_of_value hP hold
      obtain ⟨rfl, -⟩ := Wide.exact_eq_ok.1 hrise
      refine ⟨rfl, htabu, ?_⟩
      have hcoef : coef < 0 := hP.neg_of_mem _ hterm
      have hproduct : 0 < -coef * (x - s.point v) := Wide.saturate_pos_iff.1 hgain
      have hrise := (mul_pos_iff_of_pos_left (Int.neg_pos_of_neg hcoef)).1 hproduct
      change s.point v < x
      omega

theorem moved_of_liftMove (hP : Posed P lbs ubs) (hs : Consistent P lbs ubs s) {lifted : Bool}
    (h : liftMove P s = .ok (lifted, t)) :
    (lifted = false ∧ t = s) ∨ (lifted = true ∧ ∃ m coef, (m.1, coef) ∈ P.liftTerms ∧
      s.isTabu P m.1 = .ok false ∧ s.point m.1 < m.2 ∧ Moved P lbs ubs s m t) := by
  obtain ⟨best, hbest, h⟩ := bind_eq_ok.1 h
  cases best with
  | none =>
    cases pure_eq_ok.1 h
    exact .inl ⟨rfl, rfl⟩
  | some b =>
    dsimp only at h
    split at h
    · rename_i hgain
      obtain ⟨u, happly, h⟩ := bind_eq_ok.1 h
      cases pure_eq_ok.1 h
      obtain ⟨term, hterm, hfound⟩ := mem_of_bestLift (mapError_eq_ok.1 hbest)
      obtain ⟨hvar, hfree, hlt⟩ := lt_of_liftGain? hP hs hterm hfound hgain
      refine .inr ⟨rfl, b.move, term.2, ?_, hfree, hlt, moved_of_apply hP hs ?_ happly⟩
      · rw [hvar]
        exact hterm
      · intro hvalue
        obtain ⟨-, heq⟩ := hs.lt_of_value hP hvalue
        omega
    · cases pure_eq_ok.1 h
      exact .inl ⟨rfl, rfl⟩

/-- One objective variable rises by one, or all of them are at their upper bounds. -/
theorem moved_of_objectiveStep (hP : Posed P lbs ubs) (hs : Consistent P lbs ubs s) {moved : Bool}
    (h : objectiveStep P s = .ok (moved, t)) :
    (moved = false ∧ t = s ∧ ∀ v ∈ P.objectiveVars, valuation ubs v ≤ s.point v) ∨
      (moved = true ∧ ∃ v ∈ P.objectiveVars, Moved P lbs ubs s (v, s.point v + 1) t) := by
  obtain ⟨vars, hvars, h⟩ := bind_eq_ok.1 h
  have hmem := fun v => mem_filterMapM (b := v) (mapError_eq_ok.1 hvars)
  have hfind : ∀ u ∈ P.objectiveVars, (do
      return if (← s.assignment.value u) < (← s.assignment.ub u) then some u else none :
        Checked (Option Variable)) =
      .ok (if s.point u < valuation ubs u then some u else none) := by
    intro u hu
    rw [hs.value_eq hP (hP.objectiveVars u hu), hs.ub_eq hP (hP.objectiveVars u hu)]
    rfl
  dsimp only at h
  split at h
  · rename_i hempty
    cases pure_eq_ok.1 h
    refine .inl ⟨rfl, rfl, fun v hv => ?_⟩
    by_contra hlt
    have hfound := hfind v hv
    rw [if_pos (not_le.1 hlt)] at hfound
    have hnil : vars = [] := by simpa using hempty
    have hv := (hmem v).2 ⟨v, hv, hfound⟩
    rw [hnil] at hv
    cases hv
  · obtain ⟨⟨i, source⟩, -, h⟩ := bind_eq_ok.1 h
    obtain ⟨v, hv, h⟩ := bind_eq_ok.1 h
    obtain ⟨current, hcurrent, h⟩ := bind_eq_ok.1 h
    obtain ⟨u, happly, h⟩ := bind_eq_ok.1 h
    cases pure_eq_ok.1 h
    have hcurrent := mapError_eq_ok.1 hcurrent
    obtain ⟨-, rfl⟩ := hs.lt_of_value hP hcurrent
    have hv := List.mem_toArray.1 (Array.mem_of_getElem? (fetch_eq_ok.1 (mapError_eq_ok.1 hv)))
    obtain ⟨w, hw, hfound⟩ := (hmem v).1 hv
    have hwv : w = v := by
      rw [hfind w hw] at hfound
      split at hfound
      · exact Option.some.inj (Except.ok.inj hfound)
      · cases hfound
    have hsource := Continues.withSource hs source
    have hvalue : s.assignment.value v ≠ .ok (s.point v + 1) := by
      intro heq
      have := Except.ok.inj (heq.symm.trans hcurrent)
      omega
    have hmoved := moved_of_apply (m := (v, s.point v + 1)) hP hsource.consistent hvalue happly
    exact .inr ⟨rfl, v, hwv ▸ hw, hmoved.of_source hs⟩

end Search
end NonlinearInteger
