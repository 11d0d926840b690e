import NonlinearInteger.Polynomial.Value

/-!
# Constraints and domains
-/

namespace NonlinearInteger

inductive Relation where
  | le
  | eq
  | ge
  | undefined
  deriving DecidableEq, Repr

namespace Relation

/-- Whether a value stands in the relation to a limit. -/
def holds (value limit : Int) : Relation → Option Bool
  | le => some (decide (value ≤ limit))
  | eq => some (decide (value = limit))
  | ge => some (decide (limit ≤ value))
  | undefined => none

theorem holds_eq_none_iff {value limit : Int} {r : Relation} :
    r.holds value limit = none ↔ r = undefined := by
  cases r <;> simp [holds]

def text : Relation → String
  | le => "<="
  | eq => "="
  | ge => ">="
  | undefined => "[undef]"

end Relation

structure Constraint where
  poly : Polynomial
  relation : Relation
  limit : Int
  deriving DecidableEq

namespace Constraint

def of (poly : Polynomial) (relation : Relation) (limit : Int) : Constraint :=
  ⟨poly.normalize, relation, limit⟩

def isLinear (c : Constraint) : Bool := c.poly.isLinear

def text (c : Constraint) : String :=
  c.poly.text ++ " " ++ c.relation.text ++ " " ++ toString c.limit

end Constraint

/-- The integers from `lb` to `ub`. -/
structure Domain where
  lb : Int
  ub : Int
  deriving DecidableEq, Repr

namespace Domain

/-- What a variable without a declared domain may take. -/
def standard : Domain := ⟨0, 2147483647⟩

def contains (d : Domain) (value : Int) : Bool := decide (d.lb ≤ value ∧ value ≤ d.ub)

theorem contains_iff {d : Domain} {value : Int} :
    d.contains value = true ↔ d.lb ≤ value ∧ value ≤ d.ub :=
  decide_eq_true_iff

end Domain
end NonlinearInteger
