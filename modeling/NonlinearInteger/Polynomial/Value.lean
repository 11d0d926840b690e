import NonlinearInteger.Polynomial.Basic

/-!
# Values of polynomials

The exact value of a polynomial is an unbounded integer. Evaluation on a table
saturates at 128 bits, and so do the slope of a variable and the rest of the
terms. A magnitude bound keeps all of them exact.
-/

namespace NonlinearInteger
namespace Polynomial

/-- The exact sum of the values of terms. -/
def evalTerms (σ : Variable → Int) : List Monomial → Int
  | [] => 0
  | m :: ms => m.eval σ + evalTerms σ ms

/-- The exact value under an assignment. -/
def eval (σ : Variable → Int) (p : Polynomial) : Int := evalTerms σ p.monomials

theorem evalTerms_append (σ : Variable → Int) (ms ns : List Monomial) :
    evalTerms σ (ms ++ ns) = evalTerms σ ms + evalTerms σ ns := by
  induction ms with
  | nil => simp [evalTerms]
  | cons m ms ih => rw [List.cons_append, evalTerms, evalTerms, ih, Int.add_assoc]

theorem evalTerms_absorb (σ : Variable → Int) (m : Monomial) (ms : List Monomial) :
    evalTerms σ (absorb m ms) = m.eval σ + evalTerms σ ms := by
  induction ms with
  | nil => rfl
  | cons n ns ih =>
    unfold absorb
    split
    · rename_i h
      have h : n.vars = m.vars := by simpa [Monomial.sameFactors] using h
      have hsum : (n.withCoef (n.coef + m.coef)).eval σ = n.eval σ + m.eval σ := by
        simp only [Monomial.eval, Monomial.withCoef, h, Int.add_mul]
      rw [evalTerms, evalTerms, hsum]
      omega
    · rw [evalTerms, evalTerms, ih]
      omega

theorem evalTerms_map_negate (σ : Variable → Int) (ms : List Monomial) :
    evalTerms σ (ms.map Monomial.negate) = -evalTerms σ ms := by
  induction ms with
  | nil => rfl
  | cons m ms ih =>
    rw [List.map_cons, evalTerms, evalTerms, ih, Monomial.eval_negate, Int.neg_add]

/-- Adds up the values of terms, saturating after each. -/
def accumulate (value : Monomial → Checked Int) (ms : List Monomial) : Checked Int :=
  ms.foldlM (fun total m => Wide.addSaturating total <$> value m) 0

def evaluate (p : Polynomial) (values : Array Int) : Checked Int :=
  accumulate (·.evaluate values) p.monomials

/-- The value of the terms that do not mention a variable. -/
def evaluateWithout (p : Polynomial) (v : Variable) (values : Array Int) : Checked Int :=
  accumulate (·.evaluate values) (p.monomials.filter fun m => !m.contains v)

/-- The linear coefficient of a variable. -/
def slope (p : Polynomial) (v : Variable) (values : Array Int) : Checked Int :=
  accumulate (·.slope v values) p.monomials

/-- The largest absolute value of a term whose factors are bounded. -/
def termBound (bound : Variable → Checked Int) (m : Monomial) : Checked Int :=
  m.vars.foldlM (fun term v => do Wide.mul term (← bound v)) (m.coef.natAbs : Int)

/-- An upper bound of the absolute value, given one for each variable. It
overflows when it does not fit into 128 bits. -/
def magnitudeBound (p : Polynomial) (bound : Variable → Checked Int) : Checked Int :=
  p.monomials.foldlM (fun total m => do Wide.add total (← termBound bound m)) 0

end Polynomial
end NonlinearInteger
