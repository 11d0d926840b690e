import NonlinearInteger.Checked

/-!
# Monomials

An integer coefficient times a product of variables. The product is kept as a
sorted list, so two monomials have the same product exactly when their lists
are equal.
-/

namespace NonlinearInteger

/-- A variable is its position among the variables of a formula. -/
abbrev Variable := Nat

/-- Adds one factor to a sorted product. -/
def insertFactor (v : Variable) : List Variable → List Variable
  | [] => [v]
  | w :: ws => if v ≤ w then v :: w :: ws else w :: insertFactor v ws

/-- The factors in increasing order, repeats kept. -/
def sortFactors (vs : List Variable) : List Variable :=
  vs.foldr insertFactor []

theorem insertFactor_perm (v : Variable) (vs : List Variable) :
    (insertFactor v vs).Perm (v :: vs) := by
  induction vs with
  | nil => exact .refl _
  | cons w ws ih =>
    unfold insertFactor
    split
    · exact .refl _
    · exact (ih.cons w).trans (.swap v w ws)

theorem pairwise_insertFactor (v : Variable) {vs : List Variable}
    (h : vs.Pairwise (· ≤ ·)) : (insertFactor v vs).Pairwise (· ≤ ·) := by
  induction vs with
  | nil => simp [insertFactor]
  | cons w ws ih =>
    have ⟨hw, hws⟩ := List.pairwise_cons.1 h
    unfold insertFactor
    split
    · rename_i hvw
      exact List.pairwise_cons.2
        ⟨fun u hu => (List.mem_cons.1 hu).elim (· ▸ hvw) fun hu => Nat.le_trans hvw (hw u hu), h⟩
    · rename_i hvw
      refine List.pairwise_cons.2 ⟨fun u hu => ?_, ih hws⟩
      rcases List.mem_cons.1 ((insertFactor_perm v ws).mem_iff.1 hu) with rfl | hu
      · exact Nat.le_of_lt (Nat.lt_of_not_le hvw)
      · exact hw u hu

theorem sortFactors_perm (vs : List Variable) : (sortFactors vs).Perm vs := by
  induction vs with
  | nil => exact .refl _
  | cons v vs ih => exact (insertFactor_perm v _).trans (ih.cons v)

theorem pairwise_sortFactors (vs : List Variable) : (sortFactors vs).Pairwise (· ≤ ·) := by
  induction vs with
  | nil => exact .nil
  | cons v vs ih => exact pairwise_insertFactor v ih

structure Monomial where
  vars : List Variable
  coef : Int
  sorted : vars.Pairwise (· ≤ ·)
  deriving DecidableEq

namespace Monomial

def ofFactors (vars : List Variable) (coef : Int) : Monomial :=
  ⟨sortFactors vars, coef, pairwise_sortFactors vars⟩

def linear (v : Variable) (coef : Int) : Monomial :=
  ⟨[v], coef, by simp⟩

/-- The same product with another coefficient. -/
def withCoef (m : Monomial) (coef : Int) : Monomial :=
  ⟨m.vars, coef, m.sorted⟩

def negate (m : Monomial) : Monomial := m.withCoef (-m.coef)

def scale (m : Monomial) (factor : Int) : Monomial := m.withCoef (m.coef * factor)

def product (m n : Monomial) : Monomial :=
  ofFactors (m.vars ++ n.vars) (m.coef * n.coef)

/-- Neither a constant nor zero is a term of a polynomial. -/
def isEmpty (m : Monomial) : Bool := m.vars.isEmpty || m.coef == 0

def isLinear (m : Monomial) : Bool := m.coef != 0 && m.vars.length == 1

def contains (m : Monomial) (v : Variable) : Bool := m.vars.elem v

/-- How often a variable occurs in the product. -/
def degree (m : Monomial) (v : Variable) : Nat := m.vars.count v

def sameFactors (m n : Monomial) : Bool := m.vars == n.vars

/-- The exact value of a product under an assignment. -/
def factorValue (σ : Variable → Int) : List Variable → Int
  | [] => 1
  | v :: vs => σ v * factorValue σ vs

/-- The exact value under an assignment. -/
def eval (σ : Variable → Int) (m : Monomial) : Int :=
  m.coef * factorValue σ m.vars

theorem factorValue_append (σ : Variable → Int) (vs ws : List Variable) :
    factorValue σ (vs ++ ws) = factorValue σ vs * factorValue σ ws := by
  induction vs with
  | nil => simp [factorValue]
  | cons v vs ih => simp [factorValue, ih, Int.mul_assoc]

theorem factorValue_insertFactor (σ : Variable → Int) (v : Variable) (vs : List Variable) :
    factorValue σ (insertFactor v vs) = σ v * factorValue σ vs := by
  induction vs with
  | nil => simp [insertFactor, factorValue]
  | cons w ws ih =>
    unfold insertFactor
    split
    · rfl
    · rw [factorValue, factorValue, ih, Int.mul_left_comm]

theorem factorValue_sortFactors (σ : Variable → Int) (vs : List Variable) :
    factorValue σ (sortFactors vs) = factorValue σ vs := by
  induction vs with
  | nil => rfl
  | cons v vs ih =>
    change factorValue σ (insertFactor v (sortFactors vs)) = _
    rw [factorValue_insertFactor, ih, factorValue]

theorem eval_linear (σ : Variable → Int) (v : Variable) (coef : Int) :
    (linear v coef).eval σ = coef * σ v := by
  simp [eval, linear, factorValue]

theorem eval_negate (σ : Variable → Int) (m : Monomial) : m.negate.eval σ = -m.eval σ :=
  Int.neg_mul m.coef (factorValue σ m.vars)

theorem eval_product (σ : Variable → Int) (m n : Monomial) :
    (m.product n).eval σ = m.eval σ * n.eval σ := by
  have h : factorValue σ (m.product n).vars = factorValue σ m.vars * factorValue σ n.vars := by
    rw [← factorValue_append]
    exact factorValue_sortFactors σ (m.vars ++ n.vars)
  calc
    (m.product n).eval σ = m.coef * n.coef * (factorValue σ m.vars * factorValue σ n.vars) := by
      rw [eval, h]
      rfl
    _ = m.eval σ * n.eval σ := by
      rw [eval, eval, Int.mul_assoc, Int.mul_assoc, Int.mul_left_comm n.coef]

/-- The coefficient times the listed factors, saturating after each product. -/
def multiply (coef : Int) : List Int → Int :=
  List.foldl Wide.mulSaturating coef

/-- The saturating value on a table of values. An empty monomial reads none. -/
def evaluate (m : Monomial) (values : Array Int) : Checked Int :=
  if m.isEmpty then .ok 0
  else multiply m.coef <$> m.vars.mapM (fetch values)

/-- The saturating coefficient of a variable, one of its occurrences divided
out. A monomial without the variable has slope zero, but its factors are read. -/
def slope (m : Monomial) (v : Variable) (values : Array Int) : Checked Int :=
  if m.isEmpty then .ok 0
  else do
    let factors ← (m.vars.erase v).mapM (fetch values)
    return if m.contains v then multiply m.coef factors else 0

def text (m : Monomial) : String :=
  if m.coef = 0 then "0"
  else (if 0 < m.coef then "+" else "") ++ toString m.coef ++ " " ++
    String.join (m.vars.map fun v => "x" ++ toString v)

end Monomial
end NonlinearInteger
