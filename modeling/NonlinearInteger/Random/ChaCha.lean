import NonlinearInteger.Random.Seed

/-!
# The strong generator

The key stream of ChaCha with twelve rounds, a 64-bit block counter and a zero
nonce. It is used to derive seeds.
-/

namespace NonlinearInteger.Random.ChaCha

def rotateLeft (w k : UInt32) : UInt32 := (w <<< k) ||| (w >>> (32 - k))

/-- The sixteen words of a block. -/
abbrev Block := Vector UInt32 16

def quarter (b : Block) (i j k l : Fin 16) : Block :=
  let b := b.set i (b[i] + b[j])
  let b := b.set l (rotateLeft (b[l] ^^^ b[i]) 16)
  let b := b.set k (b[k] + b[l])
  let b := b.set j (rotateLeft (b[j] ^^^ b[k]) 12)
  let b := b.set i (b[i] + b[j])
  let b := b.set l (rotateLeft (b[l] ^^^ b[i]) 8)
  let b := b.set k (b[k] + b[l])
  b.set j (rotateLeft (b[j] ^^^ b[k]) 7)

/-- A round on the columns and a round on the diagonals. -/
def doubleRound (b : Block) : Block :=
  let b := quarter b 0 4 8 12
  let b := quarter b 1 5 9 13
  let b := quarter b 2 6 10 14
  let b := quarter b 3 7 11 15
  let b := quarter b 0 5 10 15
  let b := quarter b 1 6 11 12
  let b := quarter b 2 7 8 13
  quarter b 3 4 9 14

def keyWord (key : List UInt8) (i : Nat) : UInt32 :=
  UInt32.ofNat (natOfBytes ((key.drop (4 * i)).take 4))

def initial (key : List UInt8) (counter : Nat) : Block :=
  #v[0x61707865, 0x3320646e, 0x79622d32, 0x6b206574,
    keyWord key 0, keyWord key 1, keyWord key 2, keyWord key 3,
    keyWord key 4, keyWord key 5, keyWord key 6, keyWord key 7,
    UInt32.ofNat counter, UInt32.ofNat (counter / 4294967296), 0, 0]

def block (key : List UInt8) (counter : Nat) : Block :=
  let start := initial key counter
  start.zipWith (· + ·) (Nat.repeat doubleRound 6 start)

/-- The first thirty-two words of the key stream. -/
def words (key : List UInt8) : List UInt32 :=
  (block key 0).toList ++ (block key 1).toList

/-- Thirty-two bytes from a key, the lowest of each word. -/
def derive (key : List UInt8) : List UInt8 := (words key).map UInt32.toUInt8

theorem length_derive (key : List UInt8) : (derive key).length = 32 := by
  simp [derive, words]

end NonlinearInteger.Random.ChaCha
