import NonlinearInteger.Monomial

/-!
# Assignments

The current value of every variable, with its inclusive bounds.
-/

namespace NonlinearInteger

structure Assignment where
  values : Array Int
  lbs : Array Int
  ubs : Array Int
  deriving DecidableEq, Repr

/-- Two assignments over different numbers of variables. -/
structure SizeMismatch where
  source : Nat
  target : Nat
  deriving DecidableEq, Repr

def SizeMismatch.message (e : SizeMismatch) : String :=
  "Cannot copy assignment of " ++ toString e.source ++ " variables into one of " ++
    toString e.target

namespace Assignment

/-- Every variable is zero between zero and zero. -/
def zeros (n : Nat) : Assignment :=
  ⟨Array.replicate n 0, Array.replicate n 0, Array.replicate n 0⟩

def size (a : Assignment) : Nat := a.values.size

def value (a : Assignment) (v : Variable) : Checked Int := fetch a.values v

def lb (a : Assignment) (v : Variable) : Checked Int := fetch a.lbs v

def ub (a : Assignment) (v : Variable) : Checked Int := fetch a.ubs v

def setValue (a : Assignment) (v : Variable) (x : Int) : Checked Assignment := do
  return { a with values := ← store a.values v x }

def setLb (a : Assignment) (v : Variable) (x : Int) : Checked Assignment := do
  return { a with lbs := ← store a.lbs v x }

def setUb (a : Assignment) (v : Variable) (x : Int) : Checked Assignment := do
  return { a with ubs := ← store a.ubs v x }

theorem value_of_setValue {a b : Assignment} {v : Variable} {x : Int}
    (h : a.setValue v x = .ok b) (w : Variable) :
    b.value w = if w = v then .ok x else a.value w := by
  by_cases hv : v < a.values.size
  · have hb : b = { a with values := a.values.set v x hv } := by
      simp only [setValue, store_of_lt hv] at h
      exact (Except.ok.inj h).symm
    subst hb
    by_cases hw : w = v
    · subst hw
      simp [value, fetch, hv]
    · simp [value, fetch, hw, Ne.symm hw]
  · simp only [setValue, store, hv] at h
    cases h

/-- Whether a value lies within the bounds of a variable. -/
def admits (a : Assignment) (v : Variable) (x : Int) : Checked Bool := do
  let lb ← a.lb v
  let ub ← a.ub v
  return decide (lb ≤ x ∧ x ≤ ub)

/-- Replaces an assignment by another over as many variables. -/
def copyFrom (a b : Assignment) : Except SizeMismatch Assignment :=
  if a.size = b.size then .ok b else .error ⟨b.size, a.size⟩

/-- A line of the listing. -/
def line (v : Variable) (x lb ub : Int) : String :=
  "x" ++ toString v ++ " = " ++ toString x ++ " [" ++ toString lb ++ ", " ++ toString ub ++ "]\n"

def text (a : Assignment) : String :=
  String.join ((a.values.toList.zip (a.lbs.toList.zip a.ubs.toList)).zipIdx.map
    fun ((x, lb, ub), v) => line v x lb ub)

end Assignment
end NonlinearInteger
