import NonlinearInteger.Proofs.Counts
import NonlinearInteger.Proofs.Weights

/-!
# The moments of a run

A run goes from moment to moment: at each of them a step begins, and what the observer
sees after it is, counted, the next moment. Every reachable state is sound, and so is
every moment of a run from it.
-/

namespace NonlinearInteger.Search

variable {ρ : Type} {P : Problem} {lbs ubs : Array Int} {s t : State ρ}

/-- All that is known of a state between two steps. -/
structure Sound (P : Problem) (lbs ubs : Array Int) (s : State ρ) : Prop where
  consistent : Consistent P lbs ubs s
  best : Best P lbs ubs s
  weighted : Weighted s

namespace Sound

theorem of_transition (h : Sound P lbs ubs s) (ht : Continues P lbs ubs s t)
    {kind : Option MoveKind} (htransition : Transition P lbs ubs s kind t) : Sound P lbs ubs t where
  consistent := ht.consistent
  best := h.best.of_continues ht
  weighted := h.weighted.of_transition htransition

theorem withStep (h : Sound P lbs ubs s) (step : Nat) :
    Sound P lbs ubs { s with step := step } where
  consistent := h.consistent.withStep step
  best := h.best.withStep step
  weighted := h.weighted.withStep step

theorem of_settleStep (hP : Posed P lbs ubs) (h : Sound P lbs ubs s) {kind : MoveKind}
    (ht : settleStep P s kind = .ok t) : Sound P lbs ubs t := by
  have hsettled := (succeeds_settleStep hP h.consistent h.best kind).apply ht
  exact ⟨hsettled.consistent, hsettled.best, h.weighted.of_settleStep ht⟩

end Sound

/-- What settling a step leaves alone. The first feasible assignment gives the objective
its weight. -/
structure Recorded (s t : State ρ) : Prop where
  assignment_eq : t.assignment = s.assignment
  caches_eq : t.caches = s.caches
  tabuUntil_eq : t.tabuUntil = s.tabuUntil
  objectiveWeight_eq : t.objectiveWeight =
    if 0 < s.bestUnsat ∧ t.bestUnsat = 0 then 1 else s.objectiveWeight

theorem recorded_of_updateBest (h : updateBest s = .ok t) : Recorded s t := by
  unfold updateBest at h
  split at h
  · split at h
    · cases h
      exact ⟨rfl, rfl, rfl, rfl⟩
    · cases h
  · cases h
    refine ⟨rfl, rfl, rfl, (if_neg ?_).symm⟩
    rintro ⟨hpos, hzero⟩
    omega

theorem recorded_of_settleStep {kind : MoveKind} (h : settleStep P s kind = .ok t) :
    Recorded s t := by
  have hupdated : ∀ {u}, updateBest { s with moves := s.moves.record kind } = .ok u →
      Recorded s u := by
    intro u hu
    have hrecorded := recorded_of_updateBest hu
    exact ⟨hrecorded.assignment_eq, hrecorded.caches_eq, hrecorded.tabuUntil_eq,
      hrecorded.objectiveWeight_eq⟩
  unfold settleStep at h
  dsimp only at h
  split at h
  · obtain ⟨-, -, h⟩ := bind_eq_ok.1 h
    exact hupdated h
  · exact hupdated h

variable [RandomSource ρ]

/-- The states at which the steps of a run begin, with the one that it comes to. -/
def moments (first : State ρ) (visited : List (MoveKind × State ρ)) : List (State ρ) :=
  first :: visited.map fun entry => { entry.2 with step := entry.2.step + 1 }

/-- A step of a run: from the moment at which it begins to the state that it takes, and
on to the one that is observed. -/
structure Stepped (P : Problem) (lbs ubs : Array Int) (before : State ρ) (kind : MoveKind)
    (taken after : State ρ) : Prop where
  sound : Sound P lbs ubs before
  take : takeStep P before = .ok (some kind, taken)
  settle : settleStep P taken kind = .ok after

namespace Stepped

variable {before taken after : State ρ} {kind : MoveKind}

theorem transition (h : Stepped P lbs ubs before kind taken after) (hP : Posed P lbs ubs) :
    Transition P lbs ubs before (some kind) taken :=
  transition_of_takeStep hP h.sound.consistent h.take

theorem continues (h : Stepped P lbs ubs before kind taken after) (hP : Posed P lbs ubs) :
    Continues P lbs ubs before taken :=
  (succeeds_takeStep hP h.sound.consistent).apply h.take

theorem recorded (h : Stepped P lbs ubs before kind taken after) : Recorded taken after :=
  recorded_of_settleStep h.settle

theorem sound_after (h : Stepped P lbs ubs before kind taken after) (hP : Posed P lbs ubs) :
    Sound P lbs ubs after :=
  (h.sound.of_transition (h.continues hP) (h.transition hP)).of_settleStep hP h.settle

theorem bestRating_le (h : Stepped P lbs ubs before kind taken after) (hP : Posed P lbs ubs) :
    after.bestRating ≤ before.bestRating := by
  have ht := h.continues hP
  have hsettled := (succeeds_settleStep hP ht.consistent (h.sound.best.of_continues ht) kind).apply
    h.settle
  rw [← ht.bestRating_eq]
  by_cases hlt : taken.rating < taken.bestRating
  · rw [(hsettled.improved hlt).2]
    exact hlt.le
  · rw [(hsettled.kept hlt).2]

end Stepped

namespace Trail

variable {last : State ρ} {visited : List (MoveKind × State ρ)}

theorem sound (hP : Posed P lbs ubs) (h : Trail P s visited last) (hs : Sound P lbs ubs s) :
    ∀ moment ∈ moments s visited, Sound P lbs ubs moment := by
  induction h with
  | nil s => simpa [moments] using hs
  | cons htake hsettle _ ih =>
    have hfirst : Stepped P lbs ubs _ _ _ _ := ⟨hs, htake, hsettle⟩
    intro moment hmoment
    rcases List.mem_cons.1 hmoment with rfl | hmoment
    · exact hs
    · exact ih ((hfirst.sound_after hP).withStep _) moment hmoment

theorem stepped (hP : Posed P lbs ubs) (h : Trail P s visited last) (hs : Sound P lbs ubs s)
    {i : Nat} {before after : State ρ} {kind : MoveKind}
    (hbefore : (moments s visited)[i]? = some before)
    (hafter : visited[i]? = some (kind, after)) :
    ∃ taken, Stepped P lbs ubs before kind taken after := by
  induction h generalizing i with
  | nil s => simp at hafter
  | cons htake hsettle _ ih =>
    have hfirst : Stepped P lbs ubs _ _ _ _ := ⟨hs, htake, hsettle⟩
    cases i with
    | zero =>
      cases hbefore
      cases hafter
      exact ⟨_, hfirst⟩
    | succ i => exact ih ((hfirst.sound_after hP).withStep _) hbefore hafter

theorem step_eq (hP : Posed P lbs ubs) (h : Trail P s visited last) (hs : Sound P lbs ubs s)
    {i : Nat} {moment : State ρ} (hmoment : (moments s visited)[i]? = some moment) :
    moment.step = s.step + i := by
  induction h generalizing i with
  | nil s =>
    cases i with
    | zero =>
      cases hmoment
      rfl
    | succ i => simp [moments] at hmoment
  | cons htake hsettle _ ih =>
    have hfirst : Stepped P lbs ubs _ _ _ _ := ⟨hs, htake, hsettle⟩
    cases i with
    | zero =>
      cases hmoment
      rfl
    | succ i =>
      have hlater := ih ((hfirst.sound_after hP).withStep _) hmoment
      have hsettled := (counts_of_settleStep hsettle).2
      have htaken := (hfirst.continues hP).step_eq
      simp only at hlater htaken
      omega

theorem getElem?_last (h : Trail P s visited last) :
    (moments s visited)[visited.length]? = some last := by
  induction h with
  | nil s => rfl
  | cons _ _ _ ih => simpa [moments] using ih

end Trail

theorem Ends.eq_or_take {clock : Clock} {left : Nat} {stop : StopReason}
    (h : Ends P clock s left stop t) : t = s ∨ takeStep P s = .ok (none, t) := by
  cases h with
  | stepLimit => exact .inl rfl
  | timeLimit => exact .inl rfl
  | exhausted _ htake => exact .inr htake

theorem Sound.of_ends (hP : Posed P lbs ubs) (hs : Sound P lbs ubs s) {clock : Clock} {left : Nat}
    {stop : StopReason} (h : Ends P clock s left stop t) :
    Continues P lbs ubs s t ∧ Sound P lbs ubs t := by
  rcases h.eq_or_take with rfl | htake
  · exact ⟨.refl hs.consistent, hs⟩
  · have hcontinues := (succeeds_takeStep hP hs.consistent).apply htake
    exact ⟨hcontinues, hs.of_transition hcontinues (transition_of_takeStep hP hs.consistent htake)⟩

/-- A run by a clock. Whoever observes it, it visits the same states, ends for the same
reason, and gives the same report. -/
structure Run (P : Problem) (clock : Clock) (s : State ρ) where
  visited : List (MoveKind × State ρ)
  last : State ρ
  result : State ρ
  report : Report
  observed : ∀ {α : Type} (observe : α → StepTrace → α) (seen : α),
    timedRun P clock observe seen s = .ok (report, result, observeAll observe seen visited)
  trail : Trail P s visited last
  length_le : visited.length ≤ P.settings.maxSteps - s.step
  ends : Ends P clock last (P.settings.maxSteps - s.step - visited.length) report.stop result

namespace Run

variable {clock : Clock}

def moments (run : Run P clock s) : List (State ρ) := Search.moments s run.visited

/-- A step of a run begins at a moment, is of a kind, and is observed. -/
structure HasStep (run : Run P clock s) (i : Nat) (before : State ρ) (kind : MoveKind)
    (after : State ρ) : Prop where
  before : run.moments[i]? = some before
  after : run.visited[i]? = some (kind, after)

theorem nonempty (hP : Posed P lbs ubs) (hs : Sound P lbs ubs s) (clock : Clock) :
    Nonempty (Run P clock s) := by
  obtain ⟨stop, t, visited, last, hrun, htrail, hends, hlength, -⟩ :=
    exists_trail hP clock (P.settings.maxSteps - s.step) hs.consistent hs.best
  refine ⟨⟨visited, last, t, t.report P stop, ?_, htrail, hlength, hends⟩⟩
  intro α observe seen
  simp only [timedRun, hrun observe seen]
  rfl

theorem report_eq (run : Run P clock s) :
    run.report = run.result.report P run.report.stop := by
  have hrun := run.observed (fun _ _ => ()) ()
  obtain ⟨⟨stop, t, seen⟩, -, hrun⟩ := bind_eq_ok.1 hrun
  have hresult := pure_eq_ok.1 hrun
  simp only [Prod.mk.injEq] at hresult
  obtain ⟨hreport, rfl, -⟩ := hresult
  rw [← hreport]
  rfl

variable (run : Run P clock s)

theorem stepped (hP : Posed P lbs ubs) (hs : Sound P lbs ubs s) {i : Nat} {before after : State ρ}
    {kind : MoveKind} (h : run.HasStep i before kind after) :
    ∃ taken, Stepped P lbs ubs before kind taken after :=
  run.trail.stepped hP hs h.before h.after

theorem getElem?_last : run.moments[run.visited.length]? = some run.last :=
  run.trail.getElem?_last

theorem sound (hP : Posed P lbs ubs) (hs : Sound P lbs ubs s) {i : Nat} {moment : State ρ}
    (h : run.moments[i]? = some moment) : Sound P lbs ubs moment :=
  run.trail.sound hP hs moment (List.mem_of_getElem? h)

theorem step_eq (hP : Posed P lbs ubs) (hs : Sound P lbs ubs s) {i : Nat} {moment : State ρ}
    (h : run.moments[i]? = some moment) : moment.step = s.step + i :=
  run.trail.step_eq hP hs h

theorem exists_step {i : Nat} {next : State ρ} (h : run.moments[i + 1]? = some next) :
    ∃ before kind after, run.HasStep i before kind after ∧
      next = { after with step := after.step + 1 } := by
  have hmap : (run.visited.map fun entry => { entry.2 with step := entry.2.step + 1 })[i]? =
      some next := h
  rw [List.getElem?_map, Option.map_eq_some_iff] at hmap
  obtain ⟨⟨kind, after⟩, hafter, rfl⟩ := hmap
  have hlt : i < run.moments.length := by
    have := (List.getElem?_eq_some_iff.1 h).1
    omega
  exact ⟨run.moments[i], kind, after, ⟨List.getElem?_eq_getElem hlt, hafter⟩, rfl⟩

theorem bestRating_le (hP : Posed P lbs ubs) (hs : Sound P lbs ubs s) {i j : Nat} (hij : i ≤ j)
    {moment later : State ρ} (hmoment : run.moments[i]? = some moment)
    (hlater : run.moments[j]? = some later) : later.bestRating ≤ moment.bestRating := by
  induction j, hij using Nat.le_induction generalizing later with
  | base =>
    cases hmoment.symm.trans hlater
    exact le_rfl
  | succ j _ ih =>
    obtain ⟨before, kind, after, hstep, rfl⟩ := run.exists_step hlater
    obtain ⟨taken, hstepped⟩ := run.stepped hP hs hstep
    exact (hstepped.bestRating_le hP).trans (ih hstep.before)

/-- What is returned is the last moment, after an attempt at a further step if the
objective is exhausted. -/
theorem continues_result (hP : Posed P lbs ubs) (hs : Sound P lbs ubs s) :
    Continues P lbs ubs run.last run.result ∧ Sound P lbs ubs run.result :=
  (run.sound hP hs run.getElem?_last).of_ends hP run.ends

theorem result_cases (hP : Posed P lbs ubs) (hs : Sound P lbs ubs s) :
    run.result = run.last ∨ Transition P lbs ubs run.last none run.result := by
  have hlast := (run.sound hP hs run.getElem?_last).consistent
  cases run.ends.eq_or_take with
  | inl hsame => exact .inl hsame
  | inr htake => exact .inr (transition_of_takeStep hP hlast htake)

theorem steps_eq (hP : Posed P lbs ubs) (hs : Sound P lbs ubs s) :
    run.report.steps = s.step + run.visited.length := by
  have hlast := run.step_eq hP hs run.getElem?_last
  rw [run.report_eq, ← hlast]
  exact (run.continues_result hP hs).1.step_eq

end Run

theorem sound_of_perform (hP : Posed P lbs ubs) (hs : Sound P lbs ubs s) {call : Call}
    (hcall : call.Admissible P) (h : call.perform P s = .ok t) : Sound P lbs ubs t := by
  have ht := (succeeds_perform hP hs.consistent hs.best hcall).apply h
  refine ⟨ht.1, ht.2, ?_⟩
  cases call with
  | move v x =>
    cases happly : apply P s v x with
    | ok u =>
      simp only [Call.perform, happly] at h
      cases h
      exact hs.weighted.of_apply hP hs.consistent happly
    | error cause =>
      cases cause <;> simp only [Call.perform, happly] at h <;> cases h
      exact hs.weighted
  | solve clock =>
    obtain ⟨run⟩ := Run.nonempty hP hs clock
    simp only [Call.perform, run.observed] at h
    cases pure_eq_ok.1 h
    exact (run.continues_result hP hs).2.weighted

/-- Whatever the calls, the state that they lead to is sound. -/
theorem sound_of_reachable {first : State ρ} (hP : Posed P lbs ubs) (hfirst : Sound P lbs ubs first)
    (h : Reachable P first s) : Sound P lbs ubs s := by
  obtain ⟨calls, hcalls, hperform⟩ := h
  exact foldlM_keeps hperform hfirst
    fun _ call _ hmem hs ht => sound_of_perform hP hs (hcalls call hmem) ht

omit [RandomSource ρ] in
theorem sound_first {f : Formula} (hf : f.Built) {settings : Settings} {source : ρ}
    {first : State ρ} (hstart : start f settings source = .ok (P, first)) :
    Sound P first.assignment.lbs first.assignment.ubs first := by
  obtain ⟨-, -, -, hs, hbest, -⟩ := start_eq_ok hf.wellFormed hstart
  exact ⟨hs, hbest, weighted_first hstart⟩

end NonlinearInteger.Search
