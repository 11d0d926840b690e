import NonlinearInteger.Allocation.Table
import NonlinearInteger.Formula.Basic
import NonlinearInteger.Random.Xoshiro
import NonlinearInteger.Random.ChaCha

/-!
# Allocation instances

Every demand that an offer serves is a variable, the casts spent on it. No
offer spends more than its casts; every demand but the queried one gets its
need, unless too few offers serve it; and for each ratio the share of a supply
in the first demand, times the total of the second, is at least the same with
the demands exchanged. The objective maximises the total of the queried demand.
-/

namespace NonlinearInteger.Allocation

open NonlinearInteger.Random

structure Instance where
  seed : List UInt8
  difficulty : Difficulty
  table : Table
  formula : Formula

inductive GenerateError where
  | improper
  | fault (cause : Fault)
  | build (cause : BuildError)
  deriving DecidableEq, Repr

def GenerateError.message : GenerateError → String
  | improper => "Difficulty must have at least one user, supply and demand"
  | fault _ => "Table cannot be drawn"
  | build cause => cause.message

/-- What a user casts of a supply for a demand. -/
structure Share where
  user : Nat
  supply : Nat
  demand : Nat
  deriving DecidableEq, Repr

def Share.name (s : Share) : String :=
  "U" ++ toString s.user ++ "S" ++ toString s.supply ++ "D" ++ toString s.demand

def Offer.shares (o : Offer) : List Share :=
  o.demands.map fun demand => ⟨o.user, o.supply, demand⟩

namespace Table

/-- All shares; the position of a share is its variable. -/
def shares (t : Table) : List Share := t.offers.flatMap Offer.shares

/-- The variables of the shares with a property, in order. -/
def variablesWhere (t : Table) (p : Share → Bool) : List Variable :=
  (t.shares.zipIdx.filter fun (s, _) => p s).map Prod.snd

end Table

/-- A sum of variables. -/
def total (vs : List Variable) : Polynomial :=
  .ofMonomials (vs.map fun v => .linear v 1)

/-- The limits of the offers that serve a demand, the first share of which has
the given number. -/
def offerLimits (next : Variable) : List Offer → List Constraint
  | [] => []
  | o :: offers =>
    let limits := offerLimits (next + o.demands.length) offers
    if o.demands.isEmpty then limits
    else .of (total (List.range' next o.demands.length)) .le o.casts :: limits

/-- The need of a demand, unless there are fewer contributors than needed. -/
def needLimit? (t : Table) (demand need : Nat) : Option Constraint :=
  let vars := t.variablesWhere fun s => s.demand == demand
  if demand = t.query ∨ vars.length < need then none
  else some (.of (total vars) .ge need)

/-- The difference of cross products, unless it vanishes. -/
def ratioLimit? (t : Table) (r : Ratio) : Option Constraint :=
  let part (demand : Nat) := total (t.variablesWhere fun s => s.demand == demand && s.supply == r.supply)
  let whole (demand : Nat) := total (t.variablesWhere fun s => s.demand == demand)
  let poly := ((part r.first).product (whole r.second)).difference
    ((part r.second).product (whole r.first))
  if poly.isEmpty then none else some (.of poly .ge 0)

def limits (t : Table) : List Constraint :=
  offerLimits 0 t.offers ++
    t.needs.zipIdx.filterMap (fun (need, demand) => needLimit? t demand need) ++
    t.ratios.filterMap (ratioLimit? t)

def goal (t : Table) : Polynomial :=
  (total (t.variablesWhere fun s => s.demand == t.query)).negate

def formula (t : Table) : Except BuildError Formula := do
  let f ← (limits t).foldlM (fun f c => f.addConstraint c.poly c.relation c.limit)
    (Formula.empty t.shares.length)
  let f ← f.setObjective (goal t)
  f.setNames (t.shares.map Share.name).toArray

def generate (seed : List UInt8) (d : Difficulty) : Except GenerateError Instance :=
  if d.isProper then
    match (drawTable d).run (Xoshiro.ofBytes (ChaCha.derive seed)) with
    | .error cause => .error (.fault cause)
    | .ok (t, _) =>
      match formula t with
      | .error cause => .error (.build cause)
      | .ok f => .ok ⟨seed, d, t, f⟩
  else .error .improper

end NonlinearInteger.Allocation
