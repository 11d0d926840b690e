import NonlinearInteger.Proofs.Frames
import NonlinearInteger.Proofs.Procedures

/-!
# Moves made in place

A state can also be moved by writing to it, one table after another, where a failure does not
take back what has been written. On a consistent state this comes to the same: whatever is
refused is refused before the first write, and after it nothing fails.
-/

namespace NonlinearInteger.Search

/-- A procedure on the state of a search. -/
abbrev InPlace (ρ α : Type) := Procedure StepError (State ρ) α

namespace InPlace

variable {ρ α β : Type} {s t : State ρ}

/-- A checked step that reads only. -/
def check (x : Checked α) : InPlace ρ α :=
  Procedure.check (x.mapError .fault)

/-- Replaces the state, unless the step to the next one fails. -/
def write (step : State ρ → Checked (State ρ)) : InPlace ρ Unit :=
  Procedure.write fun s => (step s).mapError .fault

theorem exec_check_bind {x : Checked α} {f : α → InPlace ρ β} {a : α} (h : x = .ok a) :
    (check x >>= f).exec s = (f a).exec s :=
  Procedure.exec_check_bind (mapError_eq_ok.2 h)

theorem exec_write {step : State ρ → Checked (State ρ)} (h : step s = .ok t) :
    (write step).exec s = (.ok (), t) :=
  Procedure.exec_write (mapError_eq_ok.2 h)

theorem exec_forM_write {γ : Type} (put : γ → State ρ) {step : α → State ρ → Checked (State ρ)}
    {advance : γ → α → Checked γ} {as : List α} {b c : γ}
    (hstep : ∀ a b c, advance b a = .ok c → step a (put b) = .ok (put c))
    (h : as.foldlM advance b = .ok c) :
    (as.forM fun a => write (step a)).exec (put b) = (.ok (), put c) :=
  Procedure.exec_forM_write put (fun a b c hab => mapError_eq_ok.2 (hstep a b c hab)) h

end InPlace

open InPlace
open Procedure (exec_get_bind exec_bind_ok settled)

variable {ρ : Type} [RandomSource ρ]

/-- Moves a variable to another value, writing the caches, the value, the caches again, the
violated constraints, the objective and the clock. -/
def moveInPlace (P : Problem) (v : Variable) (old new : Int) : InPlace ρ Unit := do
  let delta ← check (Wide.sub new old)
  let occurrences ← check (fetch P.occurrences v)
  occurrences.forM fun o => write fun s => do
    return { s with caches := ← takeOut P s.assignment.values delta s.caches o }
  write fun s => do return { s with assignment := ← s.assignment.setValue v new }
  occurrences.forM fun o => write fun s => do
    return { s with caches := ← putBack P s.assignment.values s.caches o }
  occurrences.forM fun o => write fun s => do
    return { s with violated := ← refile P s.caches s.violated o }
  let coef ← check (fetch P.objectiveCoefs v)
  let change ← check (Wide.mul coef delta)
  write fun s => do return { s with objective := ← Wide.add s.objective change }
  write fun s => startClock P s v

/-- Sets a variable in place. -/
def applyInPlace (P : Problem) (v : Variable) (x : Int) : InPlace ρ Unit := do
  let s ← get
  let old ← check (s.assignment.value v)
  if old = x then return
  else if ← check (s.assignment.admits v x) then moveInPlace P v old x
  else
    throw (.outside (P.formula.name v) x (← check (s.assignment.lb v))
      (← check (s.assignment.ub v)))

variable {P : Problem} {lbs ubs : Array Int} {s t : State ρ} {v : Variable} {x : Int}

theorem exec_moveInPlace {old new : Int} (h : moveTo P s v old new = .ok t) :
    (moveInPlace P v old new).exec s = (.ok (), t) := by
  obtain ⟨delta, hdelta, h⟩ := bind_eq_ok.1 h
  obtain ⟨occurrences, hoccurrences, h⟩ := bind_eq_ok.1 h
  obtain ⟨out, hout, h⟩ := bind_eq_ok.1 h
  obtain ⟨a, ha, h⟩ := bind_eq_ok.1 h
  obtain ⟨caches, hcaches, h⟩ := bind_eq_ok.1 h
  obtain ⟨violated, hviolated, h⟩ := bind_eq_ok.1 h
  obtain ⟨coef, hcoef, h⟩ := bind_eq_ok.1 h
  obtain ⟨change, hchange, h⟩ := bind_eq_ok.1 h
  obtain ⟨objective, hobjective, h⟩ := bind_eq_ok.1 h
  unfold moveInPlace
  rw [exec_check_bind hdelta, exec_check_bind hoccurrences]
  -- Each write is followed by the table that `moveTo` computes at the same place.
  refine Eq.trans (exec_bind_ok (exec_forM_write (fun caches => { s with caches })
    (fun _ _ _ hstep => bind_eq_ok.2 ⟨_, hstep, rfl⟩) hout)) ?_
  refine Eq.trans (exec_bind_ok (exec_write (bind_eq_ok.2 ⟨_, ha, rfl⟩))) ?_
  refine Eq.trans (exec_bind_ok (exec_forM_write
    (fun caches => { s with caches, assignment := a })
    (fun _ _ _ hstep => bind_eq_ok.2 ⟨_, hstep, rfl⟩) hcaches)) ?_
  refine Eq.trans (exec_bind_ok (exec_forM_write
    (fun violated => { s with caches, violated, assignment := a })
    (fun _ _ _ hstep => bind_eq_ok.2 ⟨_, hstep, rfl⟩) hviolated)) ?_
  rw [exec_check_bind hcoef, exec_check_bind hchange]
  refine Eq.trans (exec_bind_ok (exec_write (bind_eq_ok.2 ⟨_, hobjective, rfl⟩))) ?_
  exact exec_write h

/-- On a consistent state setting a variable in place either makes the whole move or writes
nothing. -/
theorem exec_applyInPlace (hP : Posed P lbs ubs) (hs : Consistent P lbs ubs s)
    (hv : v < P.formula.numVariables) (x : Int) :
    (applyInPlace P v x).exec s = settled s (apply P s v x) := by
  have hvalue := hs.value_eq hP hv
  unfold applyInPlace
  rw [exec_get_bind, exec_check_bind hvalue]
  by_cases heq : s.point v = x
  · rw [if_pos heq, apply_of_value (heq ▸ hvalue)]
    rfl
  · rw [if_neg heq, exec_check_bind (hs.admits_eq hP hv x)]
    by_cases hx : valuation lbs v ≤ x ∧ x ≤ valuation ubs v
    · have hm : Allowed P lbs ubs (v, x) := ⟨hv, hx.1, hx.2⟩
      obtain ⟨t, hmove, -⟩ := succeeds_moveTo hP hs hm
      rw [if_pos (decide_eq_true hx), exec_moveInPlace hmove, apply_eq_moveTo hP hs hm heq, hmove]
      rfl
    · rw [if_neg (by simp [hx]), exec_check_bind (hs.lb_eq hP hv),
        exec_check_bind (hs.ub_eq hP hv), apply_refuses hP hs hv hx]
      rfl

end NonlinearInteger.Search
