import NonlinearInteger.Json.Number

/-!
# Reading JSON

Containers nest at most 127 deep. Of fields with the same name the last one
counts. A surrogate that is not half of a pair makes a string unreadable.
-/

namespace NonlinearInteger.Json

def skipBlanks (cs : List Char) : List Char :=
  cs.dropWhile fun c => c == ' ' || c == '\n' || c == '\t' || c == '\r'

def hexValue? (c : Char) : Option Nat :=
  if c.isDigit then some (c.toNat - 48)
  else if 'a' ≤ c ∧ c ≤ 'f' then some (c.toNat - 87)
  else if 'A' ≤ c ∧ c ≤ 'F' then some (c.toNat - 55)
  else none

def hexFour? (a b c d : Char) : Option Nat := do
  return 4096 * (← hexValue? a) + 256 * (← hexValue? b) + 16 * (← hexValue? c) + (← hexValue? d)

def isHigh (n : Nat) : Bool := 0xD800 ≤ n && n ≤ 0xDBFF

def isLow (n : Nat) : Bool := 0xDC00 ≤ n && n ≤ 0xDFFF

def pair (high low : Nat) : Char := Char.ofNat (0x10000 + (high - 0xD800) * 1024 + (low - 0xDC00))

/-- The characters that a backslash and a letter stand for. -/
def escape? : Char → Option Char
  | '"' => some '"'
  | '\\' => some '\\'
  | '/' => some '/'
  | 'b' => some '\x08'
  | 'f' => some '\x0c'
  | 'n' => some '\n'
  | 'r' => some '\r'
  | 't' => some '\t'
  | _ => none

/-- The rest of a string, after the characters read so far in reverse. -/
def readChars (read : List Char) : List Char → Option (String × List Char)
  | [] => none
  | '"' :: cs => some (String.ofList read.reverse, cs)
  | '\\' :: 'u' :: a :: b :: c :: d :: cs =>
    match hexFour? a b c d with
    | none => none
    | some n =>
      if isLow n then none
      else if isHigh n then
        match cs with
        | '\\' :: 'u' :: a :: b :: c :: d :: cs =>
          match hexFour? a b c d with
          | some m => if isLow m then readChars (pair n m :: read) cs else none
          | none => none
        | _ => none
      else readChars (Char.ofNat n :: read) cs
  | '\\' :: c :: cs =>
    match escape? c with
    | some c => readChars (c :: read) cs
    | none => none
  | c :: cs => if c.toNat < 32 || c == '\\' then none else readChars (c :: read) cs

mutual

def readValue : Nat → Nat → List Char → Option (Json × List Char)
  | 0, _, _ => none
  | fuel + 1, depth, cs =>
    match skipBlanks cs with
    | 'n' :: 'u' :: 'l' :: 'l' :: cs => some (.null, cs)
    | 't' :: 'r' :: 'u' :: 'e' :: cs => some (.bool true, cs)
    | 'f' :: 'a' :: 'l' :: 's' :: 'e' :: cs => some (.bool false, cs)
    | '"' :: cs => (readChars [] cs).map fun (s, cs) => (.string s, cs)
    | '[' :: cs =>
      if depth ≤ 1 then none
      else
        match skipBlanks cs with
        | ']' :: cs => some (.array [], cs)
        | cs => (readItems fuel (depth - 1) cs).map fun (items, cs) => (.array items, cs)
    | '\x7b' :: cs =>
      if depth ≤ 1 then none
      else
        match skipBlanks cs with
        | '\x7d' :: cs => some (.object [], cs)
        | cs => (readFields fuel (depth - 1) [] cs).map fun (fields, cs) => (.object fields, cs)
    | cs => readNumber cs

/-- One item or more, and the closing bracket. -/
def readItems : Nat → Nat → List Char → Option (List Json × List Char)
  | 0, _, _ => none
  | fuel + 1, depth, cs => do
    let (item, cs) ← readValue fuel depth cs
    match skipBlanks cs with
    | ',' :: cs =>
      let (items, cs) ← readItems fuel depth cs
      return (item :: items, cs)
    | ']' :: cs => return ([item], cs)
    | _ => none

/-- One field or more after those read, and the closing brace. -/
def readFields : Nat → Nat → Fields → List Char → Option (Fields × List Char)
  | 0, _, _, _ => none
  | fuel + 1, depth, fields, cs => do
    match skipBlanks cs with
    | '"' :: cs =>
      let (name, cs) ← readChars [] cs
      match skipBlanks cs with
      | ':' :: cs =>
        let (value, cs) ← readValue fuel depth cs
        let fields := insertField name value fields
        match skipBlanks cs with
        | ',' :: cs => readFields fuel depth fields cs
        | '\x7d' :: cs => return (fields, cs)
        | _ => none
      | _ => none
    | _ => none

end

/-- A whole text that is one value with blanks around it. Every call but those
of a value for its items reads a character, so twice the length is enough. -/
def read? (text : String) : Option Json :=
  let cs := text.toList
  match readValue (2 * cs.length + 2) 128 cs with
  | some (value, rest) => if (skipBlanks rest).isEmpty then some value else none
  | none => none

end NonlinearInteger.Json
