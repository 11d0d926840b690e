/-!
# Seeds

A seed is a list of bytes. A single number is stretched to thirty-two bytes by
a linear congruential generator with a permuted output.
-/

namespace NonlinearInteger.Random

def bytesOfWord32 (w : UInt32) : List UInt8 :=
  [w.toUInt8, (w >>> 8).toUInt8, (w >>> 16).toUInt8, (w >>> 24).toUInt8]

/-- The little-endian number of a list of bytes. -/
def natOfBytes : List UInt8 → Nat
  | [] => 0
  | b :: bs => b.toNat + 256 * natOfBytes bs

def rotateRight32 (w k : UInt32) : UInt32 :=
  (w >>> k) ||| (w <<< ((32 - k) % 32))

def advance (x : UInt64) : UInt64 := x * 6364136223846793005 + 11634580027462260723

def output (x : UInt64) : UInt32 :=
  rotateRight32 ((((x >>> 18) ^^^ x) >>> 27).toUInt32) ((x >>> 59).toUInt32)

def stretch (x : UInt64) : Nat → List UInt8
  | 0 => []
  | n + 1 =>
    let x := advance x
    bytesOfWord32 (output x) ++ stretch x n

theorem length_stretch (x : UInt64) (n : Nat) : (stretch x n).length = 4 * n := by
  induction n generalizing x with
  | zero => rfl
  | succ n ih => simp only [stretch, bytesOfWord32, List.length_append, List.length_cons,
      List.length_nil, ih]; omega

/-- The thirty-two bytes of a numeric seed. -/
def seedBytes (seed : Nat) : List UInt8 := stretch (UInt64.ofNat seed) 8

theorem length_seedBytes (seed : Nat) : (seedBytes seed).length = 32 := length_stretch _ 8

end NonlinearInteger.Random
