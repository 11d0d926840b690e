/-!
# Sizes of allocation instances
-/

namespace NonlinearInteger.Allocation

structure Difficulty where
  users : Nat
  supplies : Nat
  demands : Nat
  ratios : Nat
  deriving DecidableEq, Repr

namespace Difficulty

/-- A signed number read as an unsigned 64-bit word. -/
def word (x : Int) : Nat := (x % 18446744073709551616).toNat

/-- The first four numbers of a list. -/
def ofInts? : List Int → Option Difficulty
  | u :: s :: d :: r :: _ => some ⟨word u, word s, word d, word r⟩
  | _ => none

/-- The four sizes, each cut to a signed 32-bit word. -/
def toInts (d : Difficulty) : List Int :=
  [d.users, d.supplies, d.demands, d.ratios].map fun n => Int.bmod (n : Nat) 4294967296

/-- Whether there is a user, a supply and a demand. -/
def isProper (d : Difficulty) : Bool := d.users != 0 && d.supplies != 0 && d.demands != 0

end Difficulty
end NonlinearInteger.Allocation
