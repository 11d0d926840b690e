import NonlinearInteger.Proofs.Forecasts
import NonlinearInteger.Proofs.InPlace
import NonlinearInteger.Proofs.StepKinds

/-!
# Moves that commute

What is kept beside an assignment follows from the assignment and the weights. So a move leaves
alone whatever does not depend on its variable, and two moves of different variables lead to
the same state in either order, although each sees the caches that the other one left and the
violated constraints may come to be listed in another order.
-/

namespace NonlinearInteger.Search

open Procedure (settled)

variable {ρ : Type} {P : Problem} {lbs ubs : Array Int} {s t u : State ρ} {v w : Variable}
  {x y : Int} {c : Nat} {k : Constraint}

theorem Inside.eq_of_valuation {a b : Assignment} (ha : Inside lbs ubs a) (hb : Inside lbs ubs b)
    (h : valuation b.values = valuation a.values) : b = a := by
  have hsize := hb.size_values.trans ha.size_values.symm
  have hvalues : b.values = a.values := by
    apply Array.ext_getElem?
    intro v
    by_cases hv : v < a.values.size
    · rw [getElem?_eq_valuation hv, getElem?_eq_valuation (hsize ▸ hv), h]
    · rw [Array.getElem?_eq_none (not_lt.1 hv), Array.getElem?_eq_none (hsize ▸ not_lt.1 hv)]
  obtain ⟨values, alb, aub⟩ := a
  obtain ⟨values', blb, bub⟩ := b
  cases hvalues
  cases ha.lbs_eq.trans hb.lbs_eq.symm
  cases ha.ubs_eq.trans hb.ubs_eq.symm
  rfl

/-- States agree on the values and on all that follows from them. The violated constraints
may be listed in another order. -/
structure Agrees (s t : State ρ) : Prop where
  assignment_eq : t.assignment = s.assignment
  caches_eq : t.caches = s.caches
  objective_eq : t.objective = s.objective
  violated_iff : ∀ c, c ∈ t.violated.members ↔ c ∈ s.violated.members

section Determined

variable (hP : Posed P lbs ubs) (hs : Consistent P lbs ubs s) (ht : Consistent P lbs ubs t)
  (hweights : t.weights = s.weights)

include hP hs ht hweights

/-- A cache follows from the value and the slopes of its constraint and its weight. -/
theorem getElem?_caches_eq (hk : P.formula.constraints[c]? = some k)
    (heval : k.poly.eval t.point = k.poly.eval s.point)
    (hslope : k.poly.slopeAt t.point = k.poly.slopeAt s.point) : t.caches[c]? = s.caches[c]? := by
  obtain ⟨sense, -, hrow⟩ := hP.row c k hk
  obtain ⟨before, hbefore⟩ := hs.cache_of_row hrow
  obtain ⟨after, hafter⟩ := ht.cache_of_row hrow
  have hshows := hs.cached.shows c k _ before hk hrow hbefore
  have hshows' := ht.cached.shows c k _ after hk hrow hafter
  have hvalue : after.value = before.value := by
    rw [hshows'.value_eq, hshows.value_eq, heval]
  have hslopes : after.slopes = before.slopes := by
    rw [hshows'.slopes_eq, hshows.slopes_eq, hslope]
  have hweight : after.weight = before.weight := by
    have hget := congrArg (fun weights : Array Int => weights[c]?) hweights
    simpa [State.weights, hbefore, hafter] using hget
  obtain ⟨value, slopes, weight⟩ := after
  obtain ⟨value', slopes', weight'⟩ := before
  cases hvalue
  cases hslopes
  cases hweight
  rw [hafter, hbefore]

theorem agrees_of_point (hpoint : t.point = s.point) : Agrees s t where
  assignment_eq := hs.inside.eq_of_valuation ht.inside hpoint
  caches_eq := by
    apply Array.ext_getElem?
    intro c
    by_cases hc : c < P.formula.constraints.size
    · apply getElem?_caches_eq hP hs ht hweights (Array.getElem?_eq_getElem hc)
      · rw [hpoint]
      · rw [hpoint]
    · have hle : P.rows.size ≤ c := hP.size_rows ▸ not_lt.1 hc
      rw [Array.getElem?_eq_none (ht.cached.size_eq ▸ hle),
        Array.getElem?_eq_none (hs.cached.size_eq ▸ hle)]
  objective_eq := by rw [ht.objective_eq, hs.objective_eq, hpoint]
  violated_iff := fun c => by rw [ht.filed.mem_iff, hs.filed.mem_iff, hpoint]

end Determined

/-- Setting a variable has changed its value, the caches of the constraints that mention it,
which of these are violated, the objective and, if there are clocks, its clock and the random
source. Everything else is as before. No pool of moves is part of a state. -/
structure Touches (P : Problem) (s : State ρ) (v : Variable) (x : Int) (t : State ρ) :
    Prop where
  value_eq : t.assignment.value v = .ok x
  values : ChangesOnly v s.assignment.values t.assignment.values
  lbs_eq : t.assignment.lbs = s.assignment.lbs
  ubs_eq : t.assignment.ubs = s.assignment.ubs
  size_caches : t.caches.size = s.caches.size
  caches : ∀ (c : Nat) (k : Constraint), P.formula.constraints[c]? = some k →
    k.poly.contains v = false → t.caches[c]? = s.caches[c]?
  violated : ∀ (c : Nat) (k : Constraint), P.formula.constraints[c]? = some k →
    k.poly.contains v = false → (c ∈ t.violated.members ↔ c ∈ s.violated.members)
  weights_eq : t.weights = s.weights
  objectiveWeight_eq : t.objectiveWeight = s.objectiveWeight
  best_eq : t.best = s.best
  bestUnsat_eq : t.bestUnsat = s.bestUnsat
  bestObjective_eq : t.bestObjective = s.bestObjective
  step_eq : t.step = s.step
  moves_eq : t.moves = s.moves
  clocks : ∀ w, w ≠ v → t.tabuUntil[w]? = s.tabuUntil[w]?
  untimed : P.settings.tabu = false → t.tabuUntil = s.tabuUntil ∧ t.source = s.source

theorem notMem_occurrences_of_contains (hP : Posed P lbs ubs)
    (hk : P.formula.constraints[c]? = some k) (h : k.poly.contains v = false) :
    c ∉ (occurrencesOf P.rows v).map Prod.fst := by
  intro hc
  obtain ⟨⟨c, slot⟩, ho, rfl⟩ := List.mem_map.1 hc
  cases h.symm.trans (contains_of_occurs hP hk (hP.occurs_of_mem ho))

section Apply

variable [RandomSource ρ]

theorem touches_of_apply (hP : Posed P lbs ubs) (hs : Consistent P lbs ubs s)
    (hm : Allowed P lbs ubs (v, x)) (hne : s.point v ≠ x) (h : apply P s v x = .ok t) :
    Touches P s v x t := by
  have hvalue := hs.value_eq hP hm.lt
  have hmoved : Moved P lbs ubs s (v, x) t := by
    apply moved_of_apply hP hs ?_ h
    intro heq
    exact hne (Except.ok.inj (hvalue.symm.trans heq))
  have ht := hmoved.continues.consistent
  have huntimed : P.settings.tabu = false → t.tabuUntil = s.tabuUntil ∧ t.source = s.source := by
    intro htabu
    rw [apply_eq_moveTo hP hs hm hne] at h
    obtain ⟨-, -, -, huntimed⟩ := moveTo_eq_ok (mapError_eq_ok.1 h)
    exact huntimed htabu
  exact {
    value_eq := (ht.value_eq hP hm.lt).trans (congrArg Except.ok hmoved.point_eq)
    values := hmoved.changesOnly hP hs
    lbs_eq := ht.inside.lbs_eq.trans hs.inside.lbs_eq.symm
    ubs_eq := ht.inside.ubs_eq.trans hs.inside.ubs_eq.symm
    size_caches := ht.cached.size_eq.trans hs.cached.size_eq.symm
    caches := by
      intro c k hk hcontains
      have hmem := notMem_of_notMem_occurrences hP hk
        (notMem_occurrences_of_contains hP hk hcontains)
      exact getElem?_caches_eq hP hs ht hmoved.weights_eq hk
        (Polynomial.eval_congr_of_notMem hmem hmoved.point_of_ne)
        (Polynomial.slopeAt_congr_of_notMem hmem hmoved.point_of_ne)
    violated := by
      intro c k hk hcontains
      rw [ht.filed.mem_iff, hs.filed.mem_iff]
      exact violates_congr hP hmoved.point_of_ne (notMem_occurrences_of_contains hP hk hcontains)
    weights_eq := hmoved.weights_eq
    objectiveWeight_eq := hmoved.objectiveWeight_eq
    best_eq := hmoved.continues.best_eq
    bestUnsat_eq := hmoved.continues.bestUnsat_eq
    bestObjective_eq := hmoved.continues.bestObjective_eq
    step_eq := hmoved.continues.step_eq
    moves_eq := hmoved.continues.moves_eq
    clocks := by
      intro w hw
      cases htabu : P.settings.tabu with
      | true =>
        obtain ⟨delay, -, hclocks⟩ := hmoved.clock htabu
        exact (hclocks w).trans (if_neg hw)
      | false => rw [(huntimed htabu).1]
    untimed := huntimed }

/-- What is accepted changes the values at one variable and no weight. -/
theorem update_of_apply (hP : Posed P lbs ubs) (hs : Consistent P lbs ubs s)
    (h : apply P s v x = .ok t) : Consistent P lbs ubs t ∧
      t.point = Function.update s.point v x ∧ t.weights = s.weights := by
  obtain ⟨ht, hnew, hsame⟩ := (succeeds_apply hP hs (allowed_of_apply hP hs h)).apply h
  exact ⟨ht.consistent, Function.eq_update_iff.2 ⟨hnew, hsame⟩, (weights_of_apply hP hs h).1⟩

theorem apply_comm (hP : Posed P lbs ubs) (hs : Consistent P lbs ubs s) (hne : w ≠ v)
    (hfirst : apply P s v x = .ok t) (hsecond : apply P t w y = .ok u) :
    ∃ t' u', apply P s w y = .ok t' ∧ apply P t' v x = .ok u' ∧ Agrees u u' := by
  obtain ⟨ht, hpoint, hweights⟩ := update_of_apply hP hs hfirst
  obtain ⟨hu, hpoint₂, hweights₂⟩ := update_of_apply hP ht hsecond
  obtain ⟨t', hfirst', -⟩ := succeeds_apply hP hs (allowed_of_apply hP ht hsecond)
  obtain ⟨ht', hpoint', hweights'⟩ := update_of_apply hP hs hfirst'
  obtain ⟨u', hsecond', -⟩ := succeeds_apply hP ht' (allowed_of_apply hP hs hfirst)
  obtain ⟨hu', hpoint₂', hweights₂'⟩ := update_of_apply hP ht' hsecond'
  refine ⟨t', u', hfirst', hsecond', agrees_of_point hP hu hu' ?_ ?_⟩
  · rw [hweights₂', hweights', hweights₂, hweights]
  · rw [hpoint₂', hpoint', hpoint₂, hpoint, Function.update_comm hne]

end Apply

/-- Setting a variable is all or nothing, also when it is done in place: the current value and
a value outside the bounds leave the state as it is, and any other value touches only what
depends on the variable. A move of another variable may come before it or after it. -/
structure Atomic [RandomSource ρ] (P : Problem) (s : State ρ) (v : Variable) (x : Int) :
    Prop where
  current : s.assignment.value v = .ok x →
    apply P s v x = .ok s ∧ (applyInPlace P v x).exec s = (.ok (), s)
  refused : s.assignment.admits v x ≠ .ok true → ∃ lb ub cause,
    s.assignment.lb v = .ok lb ∧ s.assignment.ub v = .ok ub ∧
      cause = .outside (P.formula.name v) x lb ub ∧ apply P s v x = .error cause ∧
        (applyInPlace P v x).exec s = (.error cause, s)
  made : s.assignment.value v ≠ .ok x → s.assignment.admits v x = .ok true →
    ∃ t, apply P s v x = .ok t ∧ (applyInPlace P v x).exec s = (.ok (), t) ∧ Touches P s v x t
  commutes : ∀ (w : Variable) (y : Int) (t u : State ρ), w ≠ v → apply P s v x = .ok t →
    apply P t w y = .ok u →
      ∃ t' u', apply P s w y = .ok t' ∧ apply P t' v x = .ok u' ∧ Agrees u u'

variable [RandomSource ρ]

/-- On every reachable state every variable is set atomically to every value. -/
theorem atomic_of_reachable {f : Formula} (hf : f.Built) {settings : Settings} {source : ρ}
    {first : State ρ} (hstart : start f settings source = .ok (P, first))
    (hs : Reachable P first s) (hv : v < f.numVariables) (x : Int) : Atomic P s v x := by
  obtain ⟨rfl, -, hP, -⟩ := start_eq_ok hf.wellFormed hstart
  have hs := (sound_of_reachable hP (sound_first hf hstart) hs).consistent
  have hexec := exec_applyInPlace hP hs hv x
  constructor
  · intro hvalue
    have happly := apply_of_value (P := P) hvalue
    exact ⟨happly, hexec.trans (congrArg (settled s) happly)⟩
  · intro hadmits
    have hx : ¬(valuation first.assignment.lbs v ≤ x ∧ x ≤ valuation first.assignment.ubs v) := by
      intro hx
      exact hadmits ((hs.admits_eq hP hv x).trans (congrArg Except.ok (decide_eq_true hx)))
    have happly := apply_refuses hP hs hv hx
    exact ⟨_, _, _, hs.lb_eq hP hv, hs.ub_eq hP hv, rfl, happly,
      hexec.trans (congrArg (settled s) happly)⟩
  · intro hne hadmits
    have hm := allowed_of_admits hP hs hadmits
    have hne : s.point v ≠ x := fun heq => hne (heq ▸ hs.value_eq hP hv)
    obtain ⟨t, happly, -⟩ := succeeds_apply hP hs hm
    exact ⟨t, happly, hexec.trans (congrArg (settled s) happly),
      touches_of_apply hP hs hm hne happly⟩
  · intro w y t u hne
    exact apply_comm hP hs hne

theorem atomic_of_bilinear : ∃ (P : Problem) (first s : State Random.Xoshiro),
    bilinear.Built ∧ start bilinear shortRun (.ofSeed 0) = .ok (P, first) ∧ Reachable P first s ∧
      1 < bilinear.numVariables ∧ Atomic P s 1 7 := by
  obtain ⟨P, first, s, hstart, hs, -⟩ := exists_reachable_bilinear
  have hv : 1 < bilinear.numVariables := by decide
  exact ⟨P, first, s, built_bilinear, hstart, hs, hv,
    atomic_of_reachable built_bilinear hstart hs hv 7⟩

end NonlinearInteger.Search
