import NonlinearInteger.Random.Source
import NonlinearInteger.Random.Seed

/-!
# The small generator

Xoshiro256++ on four 64-bit words.
-/

namespace NonlinearInteger.Random

structure Xoshiro where
  s0 : UInt64
  s1 : UInt64
  s2 : UInt64
  s3 : UInt64
  deriving DecidableEq, Repr

namespace Xoshiro

def rotateLeft (w k : UInt64) : UInt64 := (w <<< k) ||| (w >>> (64 - k))

def next (x : Xoshiro) : UInt64 × Xoshiro :=
  let result := rotateLeft (x.s0 + x.s3) 23 + x.s0
  let t := x.s1 <<< 17
  let s2 := x.s2 ^^^ x.s0
  let s3 := x.s3 ^^^ x.s1
  let s1 := x.s1 ^^^ s2
  let s0 := x.s0 ^^^ s3
  (result, ⟨s0, s1, s2 ^^^ t, rotateLeft s3 45⟩)

instance : RandomSource Xoshiro := ⟨next⟩

/-- The state spelt by thirty-two bytes. -/
def ofBytes (bytes : List UInt8) : Xoshiro :=
  let w (i : Nat) := UInt64.ofNat (natOfBytes ((bytes.drop (8 * i)).take 8))
  ⟨w 0, w 1, w 2, w 3⟩

def ofSeed (seed : Nat) : Xoshiro := ofBytes (seedBytes seed)

end Xoshiro
end NonlinearInteger.Random
