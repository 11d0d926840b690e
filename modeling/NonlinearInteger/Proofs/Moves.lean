import NonlinearInteger.Search.Pool
import NonlinearInteger.Proofs.Consistent

/-!
# Moves

On a consistent state every attempt to set a variable ends: with a consistent
state if the value lies within the bounds, and with a refusal otherwise. No step
of the update leaves the 128-bit range.
-/

namespace NonlinearInteger.Search

variable {ρ : Type} {P : Problem} {lbs ubs : Array Int} {v : Variable} {x : Int}

namespace Inside

variable {a : Assignment}

theorem value_eq (h : Inside lbs ubs a) (hv : v < lbs.size) :
    a.value v = .ok (valuation a.values v) :=
  fetch_eq_ok.2 (getElem?_eq_valuation (h.size_values ▸ hv))

theorem lb_eq (h : Inside lbs ubs a) (hv : v < lbs.size) : a.lb v = .ok (valuation lbs v) := by
  unfold Assignment.lb
  rw [h.lbs_eq]
  exact fetch_eq_ok.2 (getElem?_eq_valuation hv)

theorem ub_eq (h : Inside lbs ubs a) (hv : v < ubs.size) : a.ub v = .ok (valuation ubs v) := by
  unfold Assignment.ub
  rw [h.ubs_eq]
  exact fetch_eq_ok.2 (getElem?_eq_valuation hv)

theorem admits_eq (h : Inside lbs ubs a) (hlb : v < lbs.size) (hub : v < ubs.size) (x : Int) :
    a.admits v x = .ok (decide (valuation lbs v ≤ x ∧ x ≤ valuation ubs v)) := by
  unfold Assignment.admits
  rw [h.lb_eq hlb, h.ub_eq hub]
  rfl

theorem succeeds_setValue (h : Inside lbs ubs a) (hv : v < lbs.size)
    (hlb : valuation lbs v ≤ x) (hub : x ≤ valuation ubs v) :
    Succeeds (a.setValue v x) fun b => Inside lbs ubs b ∧ valuation b.values v = x ∧
      ∀ w, w ≠ v → valuation b.values w = valuation a.values w := by
  unfold Assignment.setValue
  refine (succeeds_store x (h.size_values ▸ hv)).bind fun values hvalues => .of_pure ?_
  obtain ⟨hsize, hget⟩ := hvalues
  have hvalue : ∀ w, valuation values w = if w = v then x else valuation a.values w := by
    intro w
    simp only [valuation, Array.getD_eq_getD_getElem?, hget w]
    split <;> rfl
  refine ⟨⟨h.lbs_eq, h.ubs_eq, hsize.trans h.size_values, ?_⟩, ?_, ?_⟩
  · intro w hw
    change valuation lbs w ≤ valuation values w ∧ valuation values w ≤ valuation ubs w
    rw [hvalue w]
    split
    · rename_i heq
      rw [heq]
      exact ⟨hlb, hub⟩
    · exact h.between w hw
  · simpa using hvalue v
  · intro w hw
    simpa [hw] using hvalue w

end Inside

/-- A move of a variable of the formula within its bounds. -/
structure Allowed (P : Problem) (lbs ubs : Array Int) (m : Move) : Prop where
  lt : m.1 < P.formula.numVariables
  lb_le : valuation lbs m.1 ≤ m.2
  le_ub : m.2 ≤ valuation ubs m.1

namespace Consistent

variable {s : State ρ}

theorem abs_point_le (hP : Posed P lbs ubs) (hs : Consistent P lbs ubs s)
    (hv : v < P.formula.numVariables) : |s.point v| ≤ 9223372036854775808 := by
  have hbetween := hs.inside.between v (hP.size_lbs ▸ hv)
  exact (Bounds.abs_le_reach hbetween.1 hbetween.2).trans (hP.bounds.reach_le hv)

theorem sub_eq (hP : Posed P lbs ubs) (hs : Consistent P lbs ubs s)
    (hm : Allowed P lbs ubs (v, x)) : Wide.sub x (s.point v) = .ok (x - s.point v) := by
  have hx := (Bounds.abs_le_reach hm.lb_le hm.le_ub).trans (hP.bounds.reach_le hm.lt)
  have hold := hs.abs_point_le hP hm.lt
  have hle := abs_sub x (s.point v)
  apply Wide.exact_of_abs_le
  simp only [Wide.greatest] at *
  omega

theorem value_eq (hP : Posed P lbs ubs) (hs : Consistent P lbs ubs s)
    (hv : v < P.formula.numVariables) : s.assignment.value v = .ok (s.point v) :=
  hs.inside.value_eq (hP.size_lbs ▸ hv)

theorem lb_eq (hP : Posed P lbs ubs) (hs : Consistent P lbs ubs s)
    (hv : v < P.formula.numVariables) : s.assignment.lb v = .ok (valuation lbs v) :=
  hs.inside.lb_eq (hP.size_lbs ▸ hv)

theorem ub_eq (hP : Posed P lbs ubs) (hs : Consistent P lbs ubs s)
    (hv : v < P.formula.numVariables) : s.assignment.ub v = .ok (valuation ubs v) :=
  hs.inside.ub_eq (hP.bounds.size_ubs ▸ hv)

theorem admits_eq (hP : Posed P lbs ubs) (hs : Consistent P lbs ubs s)
    (hv : v < P.formula.numVariables) (x : Int) :
    s.assignment.admits v x = .ok (decide (valuation lbs v ≤ x ∧ x ≤ valuation ubs v)) :=
  hs.inside.admits_eq (hP.size_lbs ▸ hv) (hP.bounds.size_ubs ▸ hv) x

end Consistent

variable [RandomSource ρ]

theorem succeeds_tabuClock (settings : Settings) (step : Nat) (source : ρ) :
    Succeeds (tabuClock settings step source) fun _ => True := by
  unfold tabuClock
  split
  · exact ⟨_, rfl, trivial⟩
  · rename_i hspread
    apply (Random.succeeds_below (Nat.pos_of_ne_zero hspread) source).bind
    rintro ⟨delay, rest⟩ -
    exact .of_pure trivial

theorem succeeds_startClock {s : State ρ} (hs : Consistent P lbs ubs s)
    (hv : v < P.formula.numVariables) :
    Succeeds (startClock P s v) fun t =>
      Continues P lbs ubs s t ∧ t.assignment = s.assignment := by
  unfold startClock
  split
  · apply (succeeds_tabuClock P.settings s.step s.source).bind
    rintro ⟨clock, source⟩ -
    have hlt : v < s.tabuUntil.size := hs.size_tabuUntil ▸ hv
    refine (succeeds_store clock hlt).bind fun tabuUntil htabu => .of_pure ?_
    refine ⟨⟨⟨hs.inside, hs.cached, hs.filed, hs.objective_eq, ?_⟩, rfl, rfl, rfl, rfl, rfl⟩, rfl⟩
    exact htabu.1.trans hs.size_tabuUntil
  · exact .of_pure ⟨.refl hs, rfl⟩

theorem succeeds_moveTo (hP : Posed P lbs ubs) {s : State ρ} (hs : Consistent P lbs ubs s)
    (hm : Allowed P lbs ubs (v, x)) :
    Succeeds (moveTo P s v (s.point v) x) fun t =>
      Continues P lbs ubs s t ∧ t.point v = x ∧ ∀ w, w ≠ v → t.point w = s.point w := by
  have hv := hm.lt
  have hlt : v < lbs.size := hP.size_lbs ▸ hv
  obtain ⟨b, hset, hb, hnew, hsame⟩ := hs.inside.succeeds_setValue hlt hm.lb_le hm.le_ub
  obtain ⟨out, caches, htake, hput, hcached⟩ :=
    cached_of_move hP hs.inside hb hv hsame hs.cached
  obtain ⟨violated, hfile, hfiled⟩ := filed_of_move hP hsame hcached hs.filed
  have hsizes : b.values.size = s.assignment.values.size :=
    hb.size_values.trans hs.inside.size_values.symm
  obtain ⟨change, hmul, hadd⟩ := (hP.tame_objective hs.inside).follows (hP.tame_objective hb)
    hP.linear (hs.inside.size_values ▸ hlt) hsizes hsame
  rw [hnew] at htake hmul
  have hdelta := hs.sub_eq hP hm
  have hobjective : s.objective = P.formula.objective.eval (valuation s.assignment.values) :=
    hs.objective_eq
  have hmoved : Consistent P lbs ubs { s with
      assignment := b, caches := caches, violated := violated,
      objective := P.formula.objective.eval (valuation b.values) } :=
    ⟨hb, hcached, hfiled, rfl, hs.size_tabuUntil⟩
  unfold moveTo
  apply Succeeds.next hdelta
  apply Succeeds.next (fetch_eq_ok.2 (hP.occurrences v hv))
  apply Succeeds.next htake
  apply Succeeds.next hset
  apply Succeeds.next hput
  apply Succeeds.next hfile
  apply Succeeds.next (fetch_eq_ok.2 (hP.coefs v hv (valuation s.assignment.values)))
  apply Succeeds.next hmul
  rw [hobjective]
  apply Succeeds.next hadd
  apply (succeeds_startClock hmoved hv).mono
  intro t ht
  obtain ⟨ht, hassignment⟩ := ht
  have hpoint : t.point = valuation b.values := by
    unfold State.point
    rw [hassignment]
  rw [hpoint]
  refine ⟨⟨ht.consistent, ?_, ?_, ?_, ?_, ?_⟩, hnew, hsame⟩
  · exact ht.best_eq
  · exact ht.bestUnsat_eq
  · exact ht.bestObjective_eq
  · exact ht.step_eq
  · exact ht.moves_eq

/-- Setting a variable to a value within its bounds succeeds and sets just that. -/
theorem succeeds_apply (hP : Posed P lbs ubs) {s : State ρ} (hs : Consistent P lbs ubs s)
    (hm : Allowed P lbs ubs (v, x)) :
    Succeeds (apply P s v x) fun t =>
      Continues P lbs ubs s t ∧ t.point v = x ∧ ∀ w, w ≠ v → t.point w = s.point w := by
  unfold apply
  apply Succeeds.next (mapError_eq_ok.2 (hs.value_eq hP hm.lt))
  split
  · rename_i heq
    exact .of_pure ⟨.refl hs, heq, fun _ _ => rfl⟩
  · apply Succeeds.next (mapError_eq_ok.2 (hs.admits_eq hP hm.lt x))
    rw [decide_eq_true (show valuation lbs v ≤ x ∧ x ≤ valuation ubs v from ⟨hm.lb_le, hm.le_ub⟩)]
    exact (succeeds_moveTo hP hs hm).lift

/-- Every other value is refused, and the message names it with the bounds. -/
theorem apply_refuses (hP : Posed P lbs ubs) {s : State ρ} (hs : Consistent P lbs ubs s)
    (hv : v < P.formula.numVariables) (hx : ¬(valuation lbs v ≤ x ∧ x ≤ valuation ubs v)) :
    apply P s v x =
      .error (.outside (P.formula.name v) x (valuation lbs v) (valuation ubs v)) := by
  have hne : s.point v ≠ x := by
    rintro rfl
    exact hx (hs.inside.between v (hP.size_lbs ▸ hv))
  unfold apply
  rw [hs.value_eq hP hv, hs.admits_eq hP hv, hs.lb_eq hP hv, hs.ub_eq hP hv, decide_eq_false hx]
  exact if_neg hne

end NonlinearInteger.Search
