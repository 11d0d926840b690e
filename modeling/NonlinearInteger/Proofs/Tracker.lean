import NonlinearInteger.Proofs.Runs

/-!
# The best assignment of a run

The best assignment is the earliest of those with the least rating among all
states of a run so far. Both improvement tests are needed for this, and neither
misses a state.
-/

namespace NonlinearInteger.Search

variable {ρ : Type} {P : Problem} {lbs ubs : Array Int}

/-- A state keeps, of some states in their order, the first of those with the
least rating. -/
def KeepsLeast (past : List (State ρ)) (s : State ρ) : Prop :=
  ∃ earlier x later, past = earlier ++ x :: later ∧
    s.best = x.assignment ∧ s.bestRating = x.rating ∧
      (∀ y ∈ earlier, x.rating < y.rating) ∧ ∀ y ∈ later, x.rating ≤ y.rating

namespace KeepsLeast

variable {past : List (State ρ)} {s t : State ρ}

theorem le_of_mem (h : KeepsLeast past s) {y : State ρ} (hy : y ∈ past) :
    s.bestRating ≤ y.rating := by
  obtain ⟨earlier, x, later, rfl, -, hrating, hearlier, hlater⟩ := h
  rw [hrating]
  rcases List.mem_append.1 hy with hy | hy
  · exact (hearlier y hy).le
  · rcases List.mem_cons.1 hy with rfl | hy
    · exact le_rfl
    · exact hlater y hy

theorem exists_mem (h : KeepsLeast past s) : ∃ x ∈ past, s.bestRating = x.rating := by
  obtain ⟨earlier, x, later, rfl, -, hrating, -, -⟩ := h
  exact ⟨x, by simp, hrating⟩

theorem of_continues (h : KeepsLeast past s) (ht : Continues P lbs ubs s t) :
    KeepsLeast past t := by
  obtain ⟨earlier, x, later, hpast, hbest, hrating, hearlier, hlater⟩ := h
  refine ⟨earlier, x, later, hpast, ht.best_eq.trans hbest, ?_, hearlier, hlater⟩
  rw [← hrating, State.bestRating, ht.bestUnsat_eq, ht.bestObjective_eq, State.bestRating]

/-- A settled state is the first with its rating, or an earlier one stays ahead. -/
theorem of_settled (h : KeepsLeast past s) (ht : Settled P lbs ubs s t) :
    KeepsLeast (past ++ [t]) t := by
  by_cases hlt : s.rating < s.bestRating
  · obtain ⟨hbest, hrating⟩ := ht.improved hlt
    refine ⟨past, t, [], rfl, ?_, ?_, ?_, by simp⟩
    · rw [hbest, ht.assignment_eq]
    · rw [hrating, ht.rating_eq]
    · intro y hy
      rw [ht.rating_eq]
      exact hlt.trans_le (h.le_of_mem hy)
  · obtain ⟨hbest, hrating⟩ := ht.kept hlt
    obtain ⟨earlier, x, later, rfl, hx, hxrating, hearlier, hlater⟩ := h
    refine ⟨earlier, x, later ++ [t], by simp, hbest.trans hx, hrating.trans hxrating, hearlier, ?_⟩
    intro y hy
    rcases List.mem_append.1 hy with hy | hy
    · exact hlater y hy
    · obtain rfl := List.mem_singleton.1 hy
      rw [ht.rating_eq, ← hxrating]
      exact not_lt.1 hlt

end KeepsLeast

theorem keepsLeast_first {s : State ρ} (hs : Consistent P lbs ubs s) (hbest : Best P lbs ubs s)
    (hsame : s.best = s.assignment) : KeepsLeast [s] s := by
  refine ⟨[], s, [], rfl, hsame, ?_, by simp, by simp⟩
  have hunsat := hbest.unsat_eq
  have hobjective := hbest.objective_eq
  rw [hsame] at hunsat hobjective
  rw [State.bestRating, State.rating, hunsat, hobjective, hs.filed.size_eq, hs.objective_eq]
  rfl

variable [RandomSource ρ]

/-- Along a trail each state keeps the first least of all states so far. -/
theorem Trail.keepsLeast (hP : Posed P lbs ubs) {s last : State ρ}
    {visited : List (MoveKind × State ρ)} (h : Trail P s visited last)
    (hs : Consistent P lbs ubs s) (hbest : Best P lbs ubs s) {past : List (State ρ)}
    (hkeeps : KeepsLeast past s) (k : Nat) (hk : k < visited.length) :
    KeepsLeast (past ++ (visited.take (k + 1)).map Prod.snd) visited[k].2 := by
  induction h generalizing past k with
  | nil s => simp at hk
  | @cons s t u last kind rest htake hsettle _ ih =>
    have ht := (succeeds_takeStep hP hs).apply htake
    have hu := (succeeds_settleStep hP ht.consistent (hbest.of_continues ht) kind).apply hsettle
    have hnext : KeepsLeast (past ++ [u]) u := (hkeeps.of_continues ht).of_settled hu
    cases k with
    | zero => simpa using hnext
    | succ k =>
      have hcounted : KeepsLeast (past ++ [u]) { u with step := u.step + 1 } := hnext
      have hrest := ih (hu.consistent.withStep _) (hu.best.withStep _) hcounted k
        (by simpa using hk)
      simpa using hrest

/-- The states of a run in order, with the one that it starts from. -/
def history (first : State ρ) (visited : List (MoveKind × State ρ)) : List (State ρ) :=
  first :: visited.map Prod.snd

/-- The best assignments of successive states: the first least so far at each of
them, so that the number of violated constraints never grows, stays zero once it
is, and then the objective never grows. -/
structure TracksBest (states : List (State ρ)) : Prop where
  keepsLeast : ∀ (k : Nat) (s : State ρ), states[k]? = some s → KeepsLeast (states.take (k + 1)) s
  unsat_le : ∀ (i j : Nat) (s t : State ρ), i ≤ j → states[i]? = some s →
    states[j]? = some t → t.bestUnsat ≤ s.bestUnsat
  unsat_eq_zero : ∀ (i j : Nat) (s t : State ρ), i ≤ j → states[i]? = some s →
    states[j]? = some t → s.bestUnsat = 0 → t.bestUnsat = 0
  objective_le : ∀ (i j : Nat) (s t : State ρ), i ≤ j → states[i]? = some s →
    states[j]? = some t → s.bestUnsat = 0 → t.bestObjective ≤ s.bestObjective

omit [RandomSource ρ] in
theorem tracksBest_of_keepsLeast {states : List (State ρ)}
    (h : ∀ (k : Nat) (s : State ρ), states[k]? = some s → KeepsLeast (states.take (k + 1)) s) :
    TracksBest states := by
  have hle : ∀ (i j : Nat) (s t : State ρ), i ≤ j → states[i]? = some s → states[j]? = some t →
      t.bestUnsat < s.bestUnsat ∨
        t.bestUnsat = s.bestUnsat ∧ t.bestObjective ≤ s.bestObjective := by
    intro i j s t hij hs ht
    obtain ⟨x, hx, hrating⟩ := (h i s hs).exists_mem
    have hrating_le := (h j t ht).le_of_mem (List.take_subset_take_left states (by omega) hx)
    rw [← hrating] at hrating_le
    exact Prod.Lex.toLex_le_toLex.1 hrating_le
  refine ⟨h, ?_, ?_, ?_⟩
  · intro i j s t hij hs ht
    have := hle i j s t hij hs ht
    omega
  · intro i j s t hij hs ht hzero
    have := hle i j s t hij hs ht
    omega
  · intro i j s t hij hs ht hzero
    have := hle i j s t hij hs ht
    omega

/-- The rating of an observed state. -/
def StepTrace.rating (trace : StepTrace) : ℕ ×ₗ ℤ := toLex (trace.unsatCount, trace.objective)

/-- The rating that an observer is given for the best assignment. -/
def StepTrace.bestRating (trace : StepTrace) : ℕ ×ₗ ℤ :=
  toLex (trace.bestUnsat, trace.bestObjective)

/-- At every call the observer is given the least rating of the first state and all states
observed so far. -/
def TracesLeast (first : ℕ ×ₗ ℤ) (traces : List StepTrace) : Prop :=
  ∀ (k : Nat) (trace : StepTrace), traces[k]? = some trace →
    IsLeast (insert first {r | ∃ t ∈ traces.take (k + 1), t.rating = r}) trace.bestRating

omit [RandomSource ρ] in
theorem TracksBest.tracesLeast {first : State ρ} {visited : List (MoveKind × State ρ)}
    (h : TracksBest (history first visited)) : TracesLeast first.rating (tracesOf visited) := by
  intro k trace htrace
  obtain ⟨⟨kind, s⟩, hs, rfl⟩ :
      ∃ entry, visited[k]? = some entry ∧ entry.2.trace entry.1 = trace := by
    simpa [tracesOf] using htrace
  have hkeeps : KeepsLeast (first :: (visited.take (k + 1)).map Prod.snd) s := by
    simpa [history] using h.keepsLeast (k + 1) s (by simp [history, hs])
  have hrating : ∀ r, (∃ trace ∈ (tracesOf visited).take (k + 1), trace.rating = r) ↔
      ∃ t ∈ (visited.take (k + 1)).map Prod.snd, t.rating = r := by
    intro r
    rw [tracesOf, ← List.map_take]
    simp only [List.mem_map, exists_exists_and_eq_and]
    rfl
  constructor
  · obtain ⟨x, hx, hbest⟩ := hkeeps.exists_mem
    rcases List.mem_cons.1 hx with rfl | hx
    · exact .inl hbest
    · exact .inr ((hrating _).2 ⟨x, hx, hbest.symm⟩)
  · rintro r (rfl | hr)
    · exact hkeeps.le_of_mem List.mem_cons_self
    · obtain ⟨t, ht, rfl⟩ := (hrating r).1 hr
      exact hkeeps.le_of_mem (List.mem_cons_of_mem _ ht)

/-- In every run from a first state, at every call of the observer, the best
assignment is the earliest with the least rating so far, and that is the rating handed over. -/
theorem best_is_first_least {f : Formula} (hf : f.Built) {settings : Settings} {source : ρ}
    {first : State ρ} (hstart : start f settings source = .ok (P, first)) (clock : Clock)
    {α : Type} (observe : α → StepTrace → α) (seen : α) :
    ∃ report t visited last,
      timedRun P clock observe seen first = .ok (report, t, observeAll observe seen visited) ∧
        Trail P first visited last ∧ TracksBest (history first visited) ∧
          TracesLeast first.rating (tracesOf visited) := by
  obtain ⟨-, -, hP, hs, hbest, hsame, -⟩ := start_eq_ok hf.wellFormed hstart
  obtain ⟨stop, t, visited, last, hrun, htrail, -, -⟩ :=
    succeeds_timedRun hP clock observe seen hs hbest
  have hfirst := keepsLeast_first hs hbest hsame
  have htracks : TracksBest (history first visited) := by
    refine tracksBest_of_keepsLeast fun k s hk => ?_
    cases k with
    | zero =>
      cases hk
      exact hfirst
    | succ k =>
      obtain ⟨hlt, hget⟩ := List.getElem?_eq_some_iff.1 hk
      have hlt : k < visited.length := by simpa [history] using hlt
      have htail := htrail.keepsLeast hP hs hbest hfirst k hlt
      have hget : visited[k].2 = s := by simpa [history] using hget
      rw [hget] at htail
      simpa [history] using htail
  exact ⟨_, t, visited, last, hrun, htrail, htracks, htracks.tracesLeast⟩

theorem best_of_cubic : ∃ (P : Problem) (first : State Random.Xoshiro),
    cubic.Built ∧ start cubic shortRun (.ofSeed 0) = .ok (P, first) ∧
      ∃ report t visited last,
        timedRun P .never (fun traces trace => traces ++ [trace]) [] first =
          .ok (report, t, observeAll (fun traces trace => traces ++ [trace]) [] visited) ∧
        Trail P first visited last ∧ TracksBest (history first visited) ∧
          TracesLeast first.rating (tracesOf visited) := by
  obtain ⟨P, first, hstart, -⟩ := start_cubic
  exact ⟨P, first, built_cubic, hstart, best_is_first_least built_cubic hstart .never _ []⟩

end NonlinearInteger.Search
