/-!
# Seconds

The time that a computation takes, as a floating-point number.
-/

namespace NonlinearInteger

/-- From zero to `2 ^ 64` seconds, by the bits of the number. -/
structure Seconds where
  value : Float
  bits_le : value.toBits ≤ 0x43F0000000000000

namespace Seconds

def zero : Seconds := ⟨0, by decide +kernel⟩

/-- Anything else counts as zero. -/
def ofFloat (x : Float) : Seconds :=
  if h : x.toBits ≤ 0x43F0000000000000 then ⟨x, h⟩ else zero

def ofNanos (n : Nat) : Seconds := ofFloat (n.toFloat / 1e9)

end Seconds
end NonlinearInteger
