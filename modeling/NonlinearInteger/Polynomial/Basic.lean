import NonlinearInteger.Monomial

/-!
# Polynomials

A polynomial is a list of terms. Its normal form has one term for each product,
in the order of first appearance, and neither constants nor zeros. Terms may be
pushed one by one and merged later. Two flags go with them: whether they are
merged, and whether they were all single variables when they were merged last.
-/

namespace NonlinearInteger

structure Polynomial where
  monomials : List Monomial
  linear : Bool
  normalized : Bool
  linear_eq : normalized = true → linear = monomials.all Monomial.isLinear
  deriving DecidableEq

namespace Polynomial

/-- Adds a term to the one with the same factors, or at the end. -/
def absorb (m : Monomial) : List Monomial → List Monomial
  | [] => [m]
  | n :: ns =>
    if n.sameFactors m then n.withCoef (n.coef + m.coef) :: ns else n :: absorb m ns

def mergeTerms (ms : List Monomial) : List Monomial :=
  ((ms.filter fun m => !m.vars.isEmpty).foldl (fun merged m => absorb m merged) []).filter
    fun m => !m.isEmpty

/-- The sum of the coefficients of one product. -/
def coefficient (vars : List Variable) : List Monomial → Int
  | [] => 0
  | m :: ms => (if m.vars = vars then m.coef else 0) + coefficient vars ms

theorem coefficient_append (vars : List Variable) (ms ns : List Monomial) :
    coefficient vars (ms ++ ns) = coefficient vars ms + coefficient vars ns := by
  induction ms with
  | nil => simp [coefficient]
  | cons m ms ih => rw [List.cons_append, coefficient, coefficient, ih, Int.add_assoc]

theorem coefficient_absorb (vars : List Variable) (m : Monomial) (ms : List Monomial) :
    coefficient vars (absorb m ms) = coefficient vars (m :: ms) := by
  induction ms with
  | nil => rfl
  | cons n ns ih =>
    unfold absorb
    split
    · rename_i h
      have h : n.vars = m.vars := by simpa [Monomial.sameFactors] using h
      simp only [coefficient, Monomial.withCoef, h]
      split <;> omega
    · rw [coefficient, ih]
      simp only [coefficient]
      omega

/-- Whether the coefficients added one after another, product by product, stay
within 64 bits. The first list holds the terms already seen. -/
def sumsFit : List Monomial → List Monomial → Bool
  | _, [] => true
  | seen, m :: ms =>
    decide (FitsInt64 (coefficient m.vars (m :: seen))) && sumsFit (m :: seen) ms

def empty : Polynomial := ⟨[], true, true, fun _ => rfl⟩

def ofMonomials (ms : List Monomial) : Polynomial :=
  let merged := mergeTerms ms
  ⟨merged, merged.all Monomial.isLinear, true, fun _ => rfl⟩

def ofMonomial (m : Monomial) : Polynomial := ofMonomials [m]

def normalize (p : Polynomial) : Polynomial := ofMonomials p.monomials

/-- The normal form, unless merging leaves the 64-bit range on the way. -/
def normalize? (p : Polynomial) : Option Polynomial :=
  if sumsFit [] p.monomials then some p.normalize else none

/-- Appends a term without merging. -/
def push (p : Polynomial) (m : Monomial) : Polynomial :=
  ⟨p.monomials ++ [m], p.linear, false, nofun⟩

/-- Terms pushed one by one. -/
def ofTerms (ms : List Monomial) : Polynomial := ms.foldl push empty

theorem monomials_foldl_push (p : Polynomial) (ms : List Monomial) :
    (ms.foldl push p).monomials = p.monomials ++ ms := by
  induction ms generalizing p with
  | nil => exact (List.append_nil _).symm
  | cons m ms ih => rw [List.foldl_cons, ih, push, List.append_assoc, List.singleton_append]

@[simp]
theorem monomials_ofTerms (ms : List Monomial) : (ofTerms ms).monomials = ms :=
  monomials_foldl_push empty ms

def sum (p q : Polynomial) : Polynomial :=
  ofMonomials (p.monomials ++ q.monomials)

def difference (p q : Polynomial) : Polynomial :=
  ofMonomials (p.monomials ++ q.monomials.map Monomial.negate)

def negate (p : Polynomial) : Polynomial :=
  ofMonomials (p.monomials.map Monomial.negate)

def product (p q : Polynomial) : Polynomial :=
  ofMonomials (p.monomials.flatMap fun m => q.monomials.map m.product)

def isEmpty (p : Polynomial) : Bool := p.monomials.isEmpty

/-- Whether the terms are single variables, as found when they were merged. -/
def isLinear (p : Polynomial) : Bool := p.linear

theorem forall_isLinear {p : Polynomial} (hmerged : p.normalized = true) (h : p.isLinear = true) :
    ∀ m ∈ p.monomials, m.isLinear = true :=
  List.all_eq_true.1 ((p.linear_eq hmerged).symm.trans h)

def contains (p : Polynomial) (v : Variable) : Bool := p.monomials.any (·.contains v)

/-- The values of a list in order of first appearance. -/
def firstAppearances (vs : List Variable) : List Variable :=
  vs.foldl (fun seen v => if seen.elem v then seen else seen ++ [v]) []

def vars (p : Polynomial) : List Variable :=
  firstAppearances (p.monomials.flatMap Monomial.vars)

def maxVariable? (p : Polynomial) : Option Variable :=
  (p.monomials.filterMap fun m => m.vars.getLast?).max?

/-- Equality of normal forms up to the order of terms. -/
def sameTerms (p q : Polynomial) : Bool :=
  let ps := mergeTerms p.monomials
  let qs := mergeTerms q.monomials
  ps.length == qs.length &&
    ps.all fun m => qs.any fun n => m.sameFactors n && m.coef == n.coef

def text (p : Polynomial) : String :=
  if p.monomials.isEmpty then "0" else " ".intercalate (p.monomials.map Monomial.text)

end Polynomial
end NonlinearInteger
