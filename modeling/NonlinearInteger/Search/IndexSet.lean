import NonlinearInteger.Checked

/-!
# Sets of indices

A set of indices below a bound, listed in an order that removals disturb: the
last member moves into the gap. The position of every member is kept beside the
list.
-/

namespace NonlinearInteger

structure IndexSet where
  members : Array Nat
  position : Array (Option Nat)
  deriving DecidableEq, Repr

namespace IndexSet

/-- The empty set of indices below a bound. -/
def empty (bound : Nat) : IndexSet := ⟨#[], Array.replicate bound none⟩

def isEmpty (s : IndexSet) : Bool := s.members.isEmpty

def size (s : IndexSet) : Nat := s.members.size

def contains (s : IndexSet) (i : Nat) : Checked Bool := do
  return (← fetch s.position i).isSome

def add (s : IndexSet) (i : Nat) : Checked IndexSet := do
  match ← fetch s.position i with
  | some _ => return s
  | none =>
    let position ← store s.position i (some s.members.size)
    return ⟨s.members.push i, position⟩

def remove (s : IndexSet) (i : Nat) : Checked IndexSet := do
  match ← fetch s.position i with
  | none => return s
  | some p =>
    let position ← store s.position i none
    if p + 1 = s.members.size then return ⟨s.members.pop, position⟩
    else
      let last ← fetch s.members (s.members.size - 1)
      let members ← store s.members p last
      return ⟨members.pop, ← store position last (some p)⟩

/-- Puts an index in or takes it out. -/
def file (s : IndexSet) (i : Nat) (present : Bool) : Checked IndexSet :=
  if present then s.add i else s.remove i

end IndexSet
end NonlinearInteger
