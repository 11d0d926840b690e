/-!
# Shortest decimals

A finite binary floating-point number stands for the reals that round to it.
Its shortest decimal is the one of fewest digits among them, and of those the
nearest, the even one on a tie.
-/

namespace NonlinearInteger.Decimal

/-- A positive number `m * 2 ^ q`. The gap below a power of two is narrow. -/
structure Binary where
  m : Nat
  q : Int
  narrow : Bool
  deriving DecidableEq, Repr

/-- The absolute value of a finite number, from its bits. -/
def Binary.ofBits (bits : UInt64) : Binary :=
  let exponent := ((bits >>> 52) &&& 0x7FF).toNat
  let fraction := (bits &&& 0xFFFFFFFFFFFFF).toNat
  if exponent = 0 then ⟨fraction, -1074, false⟩
  else ⟨4503599627370496 + fraction, exponent - 1075, fraction == 0 && 1 < exponent⟩

/-- The number `digits * 10 ^ exponent`. -/
structure Numeral where
  digits : Nat
  exponent : Int
  deriving DecidableEq, Repr

/-- A power of a base, one for a negative exponent. -/
def power (base : Nat) (e : Int) : Nat := Nat.pow base e.toNat

/-- Compares `a * 10 ^ i` with `n * 2 ^ j`. -/
def compareScaled (a : Nat) (i : Int) (n : Nat) (j : Int) : Ordering :=
  compare (a * power 10 i * power 2 (-j)) (n * power 2 j * power 10 (-i))

/-- Whether a decimal rounds to a binary number. The ends of the interval
belong to it when the significand is even. -/
def Binary.readsBack (x : Binary) (d : Numeral) : Bool :=
  let low := compareScaled d.digits d.exponent (4 * x.m - if x.narrow then 1 else 2) (x.q - 2)
  let high := compareScaled d.digits d.exponent (4 * x.m + 2) (x.q - 2)
  let closed := x.m % 2 == 0
  (low == .gt || (closed && low == .eq)) && (high == .lt || (closed && high == .eq))

/-- The greatest multiple of `10 ^ i` that is not above the number, in units. -/
def Binary.floorAt (x : Binary) (i : Int) : Nat :=
  x.m * power 2 x.q * power 10 (-i) / (power 2 (-x.q) * power 10 i)

/-- Looks for the least `k` from a start with the number below `10 ^ k`. -/
def Binary.magnitude (x : Binary) : Nat → Int → Int
  | 0, k => k
  | steps + 1, k =>
    if compareScaled 1 k x.m x.q == .gt then k else magnitude x steps (k + 1)

/-- The number of decimal places before the point; it is at most one more than
the estimate from the binary logarithm. -/
def Binary.scale (x : Binary) : Int :=
  let log := (Nat.log2 x.m : Int) + x.q
  x.magnitude 4 (Int.fdiv (log * 30103) 100000 - 1)

/-- The nearer of two neighbours on a grid that reads back. -/
def Binary.onGrid? (x : Binary) (i : Int) : Option Numeral :=
  let lower : Numeral := ⟨x.floorAt i, i⟩
  let upper : Numeral := ⟨lower.digits + 1, i⟩
  match x.readsBack lower, x.readsBack upper with
  | true, true =>
    match compareScaled (lower.digits + upper.digits) i (2 * x.m) x.q with
    | .gt => some lower
    | .lt => some upper
    | .eq => some (if lower.digits % 2 == 0 then lower else upper)
  | true, false => some lower
  | false, true => some upper
  | false, false => none

/-- Tries grids from coarse to fine. -/
def Binary.search (x : Binary) : Nat → Int → Option Numeral
  | 0, _ => none
  | steps + 1, i =>
    match x.onGrid? i with
    | some d => some d
    | none => x.search steps (i - 1)

/-- Moves trailing zeros into the exponent. -/
def Numeral.strip : Nat → Numeral → Numeral
  | 0, d => d
  | steps + 1, d =>
    if d.digits != 0 && d.digits % 10 == 0 then strip steps ⟨d.digits / 10, d.exponent + 1⟩
    else d

/-- Seventeen digits always read back; without a hit the exact value is taken. -/
def Binary.shortest (x : Binary) : Numeral :=
  match x.search 17 (x.scale - 1) with
  | some d => d.strip 17
  | none => ⟨x.m * power 2 x.q * power 5 (-x.q), if 0 ≤ x.q then 0 else x.q⟩

/-- How digits are laid out. A number is written positionally when the exponent
of its first digit lies in a range, and with a signed exponent otherwise. -/
structure Layout where
  least : Int
  greatest : Int
  pointZero : String
  deriving DecidableEq, Repr

def positional (layout : Layout) (ds : List Char) (exponent : Int) : String :=
  let point := ds.length + exponent
  if 0 ≤ exponent then
    String.ofList (ds ++ List.replicate exponent.toNat '0') ++ layout.pointZero
  else if 0 < point then
    String.ofList (ds.take point.toNat ++ '.' :: ds.drop point.toNat)
  else String.ofList ('0' :: '.' :: List.replicate (-point).toNat '0' ++ ds)

def scientific (ds : List Char) (first : Int) : String :=
  let mantissa := match ds with
    | d :: e :: rest => String.ofList (d :: '.' :: e :: rest)
    | ds => String.ofList ds
  mantissa ++ (if first < 0 then "e-" else "e+") ++ toString first.natAbs

def Numeral.render (layout : Layout) (d : Numeral) : String :=
  let ds := Nat.toDigits 10 d.digits
  let first := ds.length + d.exponent - 1
  if layout.least ≤ first ∧ first ≤ layout.greatest then positional layout ds d.exponent
  else scientific ds first

/-- The text of a finite number. Zero keeps its sign. -/
def render (layout : Layout) (x : Float) : String :=
  let bits := x.toBits
  let sign := if bits >>> 63 == 1 then "-" else ""
  let b := Binary.ofBits bits
  if b.m = 0 then sign ++ "0" ++ layout.pointZero else sign ++ b.shortest.render layout

end NonlinearInteger.Decimal
