import NonlinearInteger.Allocation.Difficulty
import NonlinearInteger.Random.Source

/-!
# Random offer tables

A user may offer a supply: a number of casts and the demands that they can
serve. One demand is queried, every demand has a need, and ratios compare two
demands on one supply. All of it is drawn from one random source in a fixed
order.
-/

namespace NonlinearInteger.Allocation

open NonlinearInteger.Random

/-- How often a user may cast a supply, and for which demands. -/
structure Offer where
  user : Nat
  supply : Nat
  casts : Nat
  demands : List Nat
  deriving DecidableEq, Repr

/-- Two demands to be compared on one supply. -/
structure Ratio where
  supply : Nat
  first : Nat
  second : Nat
  deriving DecidableEq, Repr

structure Table where
  needs : List Nat
  offers : List Offer
  query : Nat
  ratios : List Ratio
  deriving DecidableEq, Repr

/-- A computation that draws from a source. -/
abbrev Draw (ρ : Type) := StateT ρ Checked

variable {ρ : Type} [RandomSource ρ]

def maxCasts : Nat := 4

def maxNeed : Nat := 6

/-- The chance, in percent, that a user offers a supply. -/
def offerPercent : Nat := 60

/-- The chance, in percent, that an offer serves a demand. -/
def demandPercent : Nat := 35

/-- The results of drawing a number of times. -/
def drawMany {α : Type} (draw : Draw ρ α) : Nat → Draw ρ (List α)
  | 0 => return []
  | n + 1 => do
    let a ← draw
    let rest ← drawMany draw n
    return a :: rest

/-- A number from one to `n`. -/
def drawPositive (n : Nat) : Draw ρ Nat := do
  let k ← below n
  return k + 1

/-- Whether a draw in percent falls below a limit. -/
def drawChance (percent : Nat) : Draw ρ Bool := do
  let k ← below32 100
  return decide (k < percent)

/-- The members of a list for which a chance comes out. -/
def drawSublist {α : Type} (percent : Nat) : List α → Draw ρ (List α)
  | [] => return []
  | a :: as => do
    let chosen ← drawChance percent
    let rest ← drawSublist percent as
    return if chosen then a :: rest else rest

def drawOffer (demands user supply : Nat) : Draw ρ (Option Offer) := do
  if ← drawChance offerPercent then
    let served ← drawSublist demandPercent (List.range demands)
    let casts ← drawPositive maxCasts
    return some ⟨user, supply, casts, served⟩
  else return none

def drawOffers (demands : Nat) : List (Nat × Nat) → Draw ρ (List Offer)
  | [] => return []
  | (user, supply) :: pairs => do
    let offer ← drawOffer demands user supply
    let rest ← drawOffers demands pairs
    return offer.toList ++ rest

/-- A number, unless it is the one to be avoided. -/
def other? (k j : Nat) : Option Nat := if j = k then none else some j

/-- A number below `n` other than `k`. -/
def drawOther (n k : Nat) : Draw ρ Nat := fun r =>
  if n = 0 then .error .emptyRange
  else .ok (drawUntil (other? k) (fun _ => (k + 1) % n) (drawBelow span64 word64 n) retries r)

def drawRatio (d : Difficulty) : Draw ρ Ratio := do
  let supply ← below d.supplies
  let first ← below d.demands
  let second ← drawOther d.demands first
  return ⟨supply, first, second⟩

/-- Users in order, and the supplies in order for each. -/
def pairs (d : Difficulty) : List (Nat × Nat) :=
  (List.range d.users).flatMap fun user => (List.range d.supplies).map fun supply => (user, supply)

/-- A single demand admits no ratios. -/
def drawTable (d : Difficulty) : Draw ρ Table := do
  let needs ← drawMany (drawPositive maxNeed) d.demands
  let offers ← drawOffers d.demands (pairs d)
  let query ← below d.demands
  let ratios ← drawMany (drawRatio d) (if 2 ≤ d.demands then d.ratios else 0)
  return ⟨needs, offers, query, ratios⟩

end NonlinearInteger.Allocation
