import NonlinearInteger.Json.Value
import NonlinearInteger.Checked

/-!
# Reading JSON numbers

The digits are gathered in a 64-bit significand. Digits that no longer fit are
not kept: before the point they raise the exponent, after it they are dropped.
A number with a point, an exponent or too many digits is scaled by one power of
ten in floating point, which is not always the nearest value; so is minus zero.
-/

namespace NonlinearInteger.Json

/-- The digits at the front of a text, and the rest. -/
def digits (cs : List Char) : List Char × List Char := (cs.takeWhile Char.isDigit, cs.dropWhile Char.isDigit)

def digitValue (c : Char) : Nat := c.toNat - 48

/-- Appends digits to a significand while it fits into 64 bits, and tells how
many were appended. -/
def gather (significand taken : Nat) : List Char → Nat × Nat
  | [] => (significand, taken)
  | c :: cs =>
    let next := significand * 10 + digitValue c
    if FitsNat64 next then gather next (taken + 1) cs else (significand, taken)

def powerOfTen (n : Nat) : Float := Float.ofScientific 1 false n

/-- Multiplies by a power of ten, 308 places at a time downwards. A result that
is not finite is none. -/
def scale : Nat → Float → Int → Option Float
  | 0, _, _ => none
  | steps + 1, x, exponent =>
    if exponent.natAbs ≤ 308 then
      if 0 ≤ exponent then
        let y := x * powerOfTen exponent.natAbs
        if y.isInf then none else some y
      else some (x / powerOfTen exponent.natAbs)
    else if x == 0 then some x
    else if 0 ≤ exponent then none
    else scale steps (x / powerOfTen 308) (exponent + 308)

def signed (negative : Bool) (x : Float) : Float := if negative then -x else x

/-- Four rounds bring every 64-bit significand to zero. -/
def ofParts (negative : Bool) (significand : Nat) (exponent : Int) : Option Json :=
  (scale 8 (UInt64.ofNat significand).toFloat exponent).map fun x => .float (signed negative x)

/-- The exponents that fit into a signed 32-bit word. -/
def clampExponent (e : Int) : Int := max (-2147483648) (min e 2147483647)

/-- The exponent after its mark. One beyond 32 bits makes the number zero, or
none at all if it is positive and the significand is not zero. -/
def readExponent (negative : Bool) (significand : Nat) (start : Int) (cs : List Char) :
    Option (Json × List Char) :=
  let (down, cs) := match cs with
    | '+' :: cs => (false, cs)
    | '-' :: cs => (true, cs)
    | cs => (false, cs)
  let (ds, rest) := digits cs
  if ds.isEmpty then none
  else
    let e := Nat.ofDigitChars 10 ds 0
    if 2147483647 < e then
      if significand != 0 && !down then none
      else some (.float (signed negative 0), rest)
    else
      let exponent := clampExponent (if down then start - e else start + e)
      (ofParts negative significand exponent).map fun x => (x, rest)

/-- An exponent if its mark follows, and else the number as it is. -/
def readScale (negative : Bool) (significand : Nat) (exponent : Int) (cs : List Char) :
    Option (Json × List Char) :=
  match cs with
  | 'e' :: cs => readExponent negative significand exponent cs
  | 'E' :: cs => readExponent negative significand exponent cs
  | cs => (ofParts negative significand exponent).map fun x => (x, cs)

/-- The digits after the point. -/
def readFraction (negative : Bool) (significand : Nat) (exponent : Int) (cs : List Char) :
    Option (Json × List Char) :=
  let (ds, rest) := digits cs
  if ds.isEmpty then none
  else
    let (significand, taken) := gather significand 0 ds
    readScale negative significand (exponent - taken) rest

/-- An integer without point or exponent. -/
def ofInteger (negative : Bool) (significand : Nat) : Json :=
  if !negative then .int significand
  else if significand = 0 ∨ 9223372036854775808 < significand then
    .float (-(UInt64.ofNat significand).toFloat)
  else .int (-significand)

/-- A number after its sign. A leading zero stands alone. -/
def readUnsigned (negative : Bool) (cs : List Char) : Option (Json × List Char) :=
  let (ds, rest) := digits cs
  if ds.isEmpty ∨ (ds.head? = some '0' ∧ 1 < ds.length) then none
  else
    let (significand, taken) := gather 0 0 ds
    let dropped := ds.length - taken
    match rest with
    | '.' :: rest => readFraction negative significand dropped rest
    | 'e' :: rest => readExponent negative significand dropped rest
    | 'E' :: rest => readExponent negative significand dropped rest
    | rest =>
      if dropped = 0 then some (ofInteger negative significand, rest)
      else (ofParts negative significand dropped).map fun x => (x, rest)

def readNumber : List Char → Option (Json × List Char)
  | '-' :: cs => readUnsigned true cs
  | cs => readUnsigned false cs

end NonlinearInteger.Json
