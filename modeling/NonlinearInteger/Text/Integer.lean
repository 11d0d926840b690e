import NonlinearInteger.Checked

/-!
# Integers in text

A decimal integer has an optional sign and at least one ASCII digit. The minus
sign belongs to signed integers only. An integer outside the range asked for is
no integer.
-/

namespace NonlinearInteger.Text

/-- A nonempty run of decimal digits. -/
def natOfDigits? (cs : List Char) : Option Nat :=
  if !cs.isEmpty && cs.all Char.isDigit then some (Nat.ofDigitChars 10 cs 0) else none

def natOfChars? : List Char → Option Nat
  | '+' :: cs => natOfDigits? cs
  | cs => natOfDigits? cs

def intOfChars? : List Char → Option Int
  | '-' :: cs => (natOfDigits? cs).map fun n => -(n : Int)
  | cs => (natOfChars? cs).map Int.ofNat

def int64? (s : String) : Option Int :=
  (intOfChars? s.toList).filter fun x => decide (FitsInt64 x)

/-- An unsigned integer up to a greatest one. -/
def natUpTo? (greatest : Nat) (s : String) : Option Nat :=
  (natOfChars? s.toList).filter fun n => decide (n ≤ greatest)

theorem isDigit_of_mem_toDigits {n : Nat} {c : Char} (h : c ∈ Nat.toDigits 10 n) :
    c.isDigit = true :=
  Nat.isDigit_of_mem_toDigits (by decide) (by decide) h

theorem natOfDigits?_toDigits (n : Nat) : natOfDigits? (Nat.toDigits 10 n) = some n := by
  have hall : (Nat.toDigits 10 n).all Char.isDigit = true :=
    List.all_eq_true.2 fun _ => isDigit_of_mem_toDigits
  simp [natOfDigits?, hall, Nat.toDigits_ne_nil]

end NonlinearInteger.Text
