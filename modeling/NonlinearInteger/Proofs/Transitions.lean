import NonlinearInteger.Proofs.Outcomes

/-!
# Transitions

All that a step can do. It makes a move that it chose on the state as it is; or it
raises weights and then resorts to a walk or to a single step of the objective; or it
finds nothing to change. Each kind of step has its own grounds.
-/

namespace NonlinearInteger.Search

variable {ρ : Type} {P : Problem} {lbs ubs : Array Int} {s t : State ρ}

/-- A move has a score above a threshold. -/
def Gains (P : Problem) (s : State ρ) (threshold : Int) (m : Move) : Prop :=
  ∃ gain, score P s m.1 m.2 = .ok gain ∧ threshold < gain

/-- What a kind of step needs to choose a move on the state as it is. -/
inductive Choice (P : Problem) (s : State ρ) : MoveKind → Move → Prop
  | lift {m : Move} {coef : Int} : s.isFeasible = true → P.settings.strategy = .lift →
      (m.1, coef) ∈ P.liftTerms → s.isTabu P m.1 = .ok false → s.point m.1 < m.2 →
      Choice P s .lift m
  | feasibleSat {m : Move} : s.isFeasible = true → P.settings.strategy = .lift →
      Candidate P s m → Gains P s 0 m → Choice P s .feasibleSat m
  | objectiveBound {m : Move} : s.isFeasible = true → P.settings.strategy = .objective →
      Candidate P s m → Gains P s 0 m → Unfinished P s m.1 → Choice P s .objectiveBound m
  | twoLevel {m : Move} : s.isFeasible = true → P.settings.strategy = .objective →
      Candidate P s m → Gains P s 0 m → Unfinished P s m.1 → Choice P s .twoLevel m
  | sampled {m : Move} : s.isFeasible = true → P.settings.strategy = .objective →
      Candidate P s m → Gains P s (-s.objectiveWeight) m → P.isObjective[m.1]? = some false →
      (∃ v, Unfinished P s v) → Choice P s .sampled m
  | feasibleUnsat {m : Move} : s.isFeasible = false → Candidate P s m → Gains P s 0 m →
      OccursIn P (Violates P s.point) m.1 → Choice P s .feasibleUnsat m

/-- What a kind of step needs to resort to a move once it has raised weights. -/
inductive Resort (P : Problem) (s : State ρ) : MoveKind → Move → Prop
  | randomWalkSat {m : Move} : s.isFeasible = true → P.settings.strategy = .lift →
      OccursIn P (Slack P s.point) m.1 → Resort P s .randomWalkSat m
  | randomWalkUnsat {m : Move} : s.isFeasible = false →
      OccursIn P (Violates P s.point) m.1 → Resort P s .randomWalkUnsat m
  | objectiveStep {v : Variable} : s.isFeasible = true → P.settings.strategy = .objective →
      v ∈ P.objectiveVars → Resort P s .objectiveStep (v, s.point v + 1)

/-- A step from a state to the next, if there is one, and its kind. -/
inductive Transition (P : Problem) (lbs ubs : Array Int) (s : State ρ) :
    Option MoveKind → State ρ → Prop
  | chosen {kind : MoveKind} {m : Move} {t : State ρ} : Choice P s kind m →
      Moved P lbs ubs s m t → Transition P lbs ubs s (some kind) t
  | resorted {kind : MoveKind} {m : Move} {a t : State ρ} : Resort P s kind m →
      Adapted P lbs ubs s a → Moved P lbs ubs a m t → Transition P lbs ubs s (some kind) t
  | idle {t : State ρ} : (s.isFeasible = true → P.settings.strategy = .lift) →
      Adapted P lbs ubs s t → Transition P lbs ubs s (some .idle) t
  | exhausted {t : State ρ} : s.isFeasible = true → P.settings.strategy = .objective →
      (∀ v ∈ P.objectiveVars, valuation ubs v ≤ s.point v) → Adapted P lbs ubs s t →
      Transition P lbs ubs s none t

theorem Choice.free {kind : MoveKind} {m : Move} (h : Choice P s kind m) :
    s.isTabu P m.1 = .ok false := by
  cases h with
  | lift _ _ _ hfree _ => exact hfree
  | feasibleSat _ _ hm _ => exact hm.free
  | objectiveBound _ _ hm _ _ => exact hm.free
  | twoLevel _ _ hm _ _ => exact hm.free
  | sampled _ _ hm _ _ _ => exact hm.free
  | feasibleUnsat _ hm _ _ => exact hm.free

/-- A walk after weights have been raised is resorted to, or the step is idle. -/
theorem transition_of_walked {a : State ρ} {rows : Nat → Prop} {kind : MoveKind} {moved : Bool}
    (ha : Adapted P lbs ubs s a) (hidle : s.isFeasible = true → P.settings.strategy = .lift)
    (hresort : ∀ m : Move, OccursIn P rows m.1 → Resort P s kind m)
    (h : Walked P lbs ubs a rows moved t) :
    Transition P lbs ubs s (some (if moved then kind else .idle)) t := by
  cases h with
  | moved hoccurs hmoved => exact .resorted (hresort _ hoccurs) ha hmoved
  | stayed source => exact .idle hidle (ha.withSource source)

variable [RandomSource ρ]

theorem transition_of_repairStep (hP : Posed P lbs ubs) (hs : Consistent P lbs ubs s)
    (hviolated : s.isFeasible = false) {kind : MoveKind} (h : repairStep P s = .ok (kind, t)) :
    Transition P lbs ubs s (some kind) t := by
  obtain ⟨pool, hpool, h⟩ := bind_eq_ok.1 h
  obtain ⟨⟨moved, rest, u⟩, hselect, h⟩ := bind_eq_ok.1 h
  cases selected_of_selectAndMove hP hs (fun m hm => hm.1.ne)
    (only_of_movesOn (mapError_eq_ok.1 hpool)) hselect with
  | made hm hscore hbeats hmoved =>
    cases pure_eq_ok.1 h
    have hoccurs := hm.2.mono fun c hc => (hs.filed.mem_iff c).1 (Array.mem_def.2 hc)
    have hgains : Gains P s 0 _ := ⟨_, hscore, of_decide_eq_true hbeats⟩
    exact .chosen (.feasibleUnsat hviolated hm.1 hgains hoccurs) hmoved
  | unmade source =>
    obtain ⟨a, ha, h⟩ := bind_eq_ok.1 h
    have hsource := Continues.withSource hs source
    have ha := (adapted_of_updateWeights hsource.consistent (mapError_eq_ok.1 ha)).of_source hs
    obtain ⟨moved, rfl, hwalked⟩ := walked_of_walkViolated hP ha.continues.consistent h
    rw [ha.point_eq] at hwalked
    apply transition_of_walked ha (by simp [hviolated]) ?_ hwalked
    exact fun m hoccurs => .randomWalkUnsat hviolated hoccurs

theorem transition_of_liftStep (hP : Posed P lbs ubs) (hs : Consistent P lbs ubs s)
    (hfeasible : s.isFeasible = true) (hstrategy : P.settings.strategy = .lift) {kind : MoveKind}
    (h : liftStep P s = .ok (kind, t)) : Transition P lbs ubs s (some kind) t := by
  have hlift : ∀ lifted u, (if P.settings.lift then liftMove P s else pure (false, s)) =
      .ok (lifted, u) → (lifted = false ∧ u = s) ∨
        (lifted = true ∧ Transition P lbs ubs s (some .lift) u) := by
    intro lifted u h
    split at h
    · rcases moved_of_liftMove hP hs h with hstays | ⟨hlifted, m, coef, hterm, hfree, hlt, hm⟩
      · exact .inl hstays
      · exact .inr ⟨hlifted, .chosen (.lift hfeasible hstrategy hterm hfree hlt) hm⟩
    · cases pure_eq_ok.1 h
      exact .inl ⟨rfl, rfl⟩
  unfold liftStep at h
  dsimp only at h
  obtain ⟨⟨lifted, u⟩, hlifted, hrest⟩ := bind_ite_eq_ok.1 h
  rcases hlift lifted u hlifted with ⟨rfl, rfl⟩ | ⟨rfl, htransition⟩
  · obtain ⟨pool, hpool, hrest⟩ := bind_eq_ok.1 hrest
    obtain ⟨⟨moved, rest, w⟩, hselect, hrest⟩ := bind_eq_ok.1 hrest
    cases selected_of_selectAndMove hP hs (fun m hm => hm.ne)
      (only_of_improvements (mapError_eq_ok.1 hpool)) hselect with
    | made hm hscore hbeats hmoved =>
      cases pure_eq_ok.1 hrest
      have hgains : Gains P u 0 _ := ⟨_, hscore, of_decide_eq_true hbeats⟩
      exact .chosen (.feasibleSat hfeasible hstrategy hm hgains) hmoved
    | unmade source =>
      obtain ⟨a, ha, hrest⟩ := bind_eq_ok.1 hrest
      have hsource := Continues.withSource hs source
      have ha := (adapted_of_updateWeights hsource.consistent (mapError_eq_ok.1 ha)).of_source hs
      obtain ⟨moved, rfl, hwalked⟩ := walked_of_walkSatisfied hP ha.continues.consistent hrest
      rw [ha.point_eq] at hwalked
      apply transition_of_walked ha (fun _ => hstrategy) ?_ hwalked
      exact fun m hoccurs => .randomWalkSat hfeasible hstrategy hoccurs
  · cases pure_eq_ok.1 hrest
    exact htransition

theorem transition_of_objectiveSatStep (hP : Posed P lbs ubs) (hs : Consistent P lbs ubs s)
    (hfeasible : s.isFeasible = true) (hstrategy : P.settings.strategy = .objective)
    {kind : Option MoveKind} (h : objectiveSatStep P s = .ok (kind, t)) :
    Transition P lbs ubs s kind t := by
  obtain ⟨bounds, hbounds, h⟩ := bind_eq_ok.1 h
  obtain ⟨⟨moved, rest, u⟩, hselect, h⟩ := bind_eq_ok.1 h
  cases selected_of_selectAndMove hP hs (fun m hm => hm.1.ne)
    (only_of_boundMoves (mapError_eq_ok.1 hbounds)) hselect with
  | made hm hscore hbeats hmoved =>
    cases pure_eq_ok.1 h
    have hgains : Gains P s 0 _ := ⟨_, hscore, of_decide_eq_true hbeats⟩
    exact .chosen (.objectiveBound hfeasible hstrategy hm.1 hgains hm.2) hmoved
  | unmade source =>
    obtain ⟨levels, hlevels, h⟩ := bind_eq_ok.1 h
    obtain ⟨⟨moved, rest, u⟩, hselect, h⟩ := bind_eq_ok.1 h
    have hsource := Continues.withSource hs source
    have hlevels : levels.Only fun m => Candidate P s m ∧ Unfinished P s m.1 := fun m hm =>
      (only_of_rises (mapError_eq_ok.1 hlevels) m hm).imp_left Candidate.of_source
    cases (selected_of_selectAndMove hP hsource.consistent (fun m hm => hm.1.ne) hlevels
      hselect).of_source hs with
    | made hm hscore hbeats hmoved =>
      cases pure_eq_ok.1 h
      have hgains : Gains P s 0 _ := ⟨_, hscore, of_decide_eq_true hbeats⟩
      exact .chosen (.twoLevel hfeasible hstrategy hm.1 hgains hm.2) hmoved
    | unmade source =>
      obtain ⟨⟨rivals, source⟩, hrivals, h⟩ := bind_eq_ok.1 h
      obtain ⟨⟨moved, rest, u⟩, hselect, h⟩ := bind_eq_ok.1 h
      have hsource := Continues.withSource hs source
      have hrivals : rivals.Only fun m => Candidate P s m ∧
          P.isObjective[m.1]? = some false ∧ ∃ v, Unfinished P s v := fun m hm =>
        (only_of_sampled (mapError_eq_ok.1 hrivals) m hm).imp_left Candidate.of_source
      cases (selected_of_selectAndMove hP hsource.consistent (fun m hm => hm.1.ne) hrivals
        hselect).of_source hs with
      | made hm hscore hbeats hmoved =>
        cases pure_eq_ok.1 h
        have hgains : Gains P s (-s.objectiveWeight) _ :=
          ⟨_, hscore, of_decide_eq_true hbeats⟩
        exact .chosen (.sampled hfeasible hstrategy hm.1 hgains hm.2.1 hm.2.2) hmoved
      | unmade source =>
        obtain ⟨a, ha, h⟩ := bind_eq_ok.1 h
        obtain ⟨⟨moved, u⟩, hstep, hrest⟩ := bind_eq_ok.1 h
        have hsource := Continues.withSource hs source
        have ha :=
          (adapted_of_updateWeights hsource.consistent (mapError_eq_ok.1 ha)).of_source hs
        rcases moved_of_objectiveStep hP ha.continues.consistent hstep with
          ⟨rfl, rfl, hbounds⟩ | ⟨rfl, v, hv, hmoved⟩
        · cases pure_eq_ok.1 hrest
          rw [ha.point_eq] at hbounds
          exact .exhausted hfeasible hstrategy hbounds ha
        · cases pure_eq_ok.1 hrest
          rw [ha.point_eq] at hmoved
          exact .resorted (.objectiveStep hfeasible hstrategy hv) ha hmoved

/-- Every step is a transition. -/
theorem transition_of_takeStep (hP : Posed P lbs ubs) (hs : Consistent P lbs ubs s)
    {kind : Option MoveKind} (h : takeStep P s = .ok (kind, t)) : Transition P lbs ubs s kind t := by
  unfold takeStep at h
  split at h
  · rename_i hfeasible
    split at h
    · rename_i hstrategy
      obtain ⟨⟨found, u⟩, hstep, h⟩ := bind_eq_ok.1 h
      cases pure_eq_ok.1 h
      exact transition_of_liftStep hP hs hfeasible hstrategy hstep
    · rename_i hstrategy
      exact transition_of_objectiveSatStep hP hs hfeasible hstrategy h
  · rename_i hviolated
    obtain ⟨⟨found, u⟩, hstep, h⟩ := bind_eq_ok.1 h
    cases pure_eq_ok.1 h
    exact transition_of_repairStep hP hs (Bool.eq_false_iff.2 hviolated) hstep

end NonlinearInteger.Search
