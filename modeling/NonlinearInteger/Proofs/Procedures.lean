import NonlinearInteger.Checked

/-!
# Procedures

A procedure works on a state in place: what it has written before a failure stays written.
-/

namespace NonlinearInteger

abbrev Procedure (ε σ α : Type) := ExceptT ε (StateM σ) α

namespace Procedure

variable {ε σ α β : Type} {s t : σ}

/-- The outcome of a procedure and the state that it leaves. -/
def exec (x : Procedure ε σ α) (s : σ) : Except ε α × σ :=
  (StateT.run (ExceptT.run x) s).run

/-- A step that reads only. -/
def check (x : Except ε α) : Procedure ε σ α :=
  ExceptT.mk (pure x)

/-- Replaces the state, unless the step to the next one fails. -/
def write (step : σ → Except ε σ) : Procedure ε σ Unit := do
  set (← check (step (← get)))

theorem exec_get_bind {f : σ → Procedure ε σ β} : (get >>= f).exec s = (f s).exec s := rfl

theorem exec_bind_ok {x : Procedure ε σ α} {f : α → Procedure ε σ β} {a : α}
    (h : x.exec s = (.ok a, t)) : (x >>= f).exec s = (f a).exec t := by
  have hrun : StateT.run (ExceptT.run x) s = (.ok a, t) := h
  simp only [exec, ExceptT.run_bind, StateT.run_bind, hrun]
  rfl

theorem exec_check_bind {x : Except ε α} {f : α → Procedure ε σ β} {a : α} (h : x = .ok a) :
    (check x >>= f).exec s = (f a).exec s := by
  subst h
  rfl

theorem exec_write {step : σ → Except ε σ} (h : step s = .ok t) :
    (write step).exec s = (.ok (), t) := by
  unfold write
  rw [exec_get_bind, exec_check_bind h]
  rfl

/-- A loop of writes goes along with a loop over what is written. -/
theorem exec_forM_write {γ ε' : Type} (put : γ → σ) {step : α → σ → Except ε σ}
    {advance : γ → α → Except ε' γ} {as : List α} {b c : γ}
    (hstep : ∀ a b c, advance b a = .ok c → step a (put b) = .ok (put c))
    (h : as.foldlM advance b = .ok c) :
    (as.forM fun a => write (step a)).exec (put b) = (.ok (), put c) := by
  induction as generalizing b with
  | nil =>
    cases h
    rfl
  | cons a as ih =>
    rw [List.foldlM_cons] at h
    obtain ⟨d, hd, h⟩ := bind_eq_ok.1 h
    change (write (step a) >>= fun _ => as.forM fun a => write (step a)).exec (put b) = _
    rw [exec_bind_ok (exec_write (hstep a b d hd))]
    exact ih h

/-- What is left of a state by a computation of the next one: that one, or the old state if
there is none. -/
def settled (s : σ) : Except ε σ → Except ε Unit × σ
  | .ok t => (.ok (), t)
  | .error cause => (.error cause, s)

end Procedure
end NonlinearInteger
