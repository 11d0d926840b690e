/-!
# JSON values

A number is an integer where its text is one that fits into a 64-bit word, and
a binary floating-point number otherwise. The fields of an object are sorted by
name, and no name occurs twice.
-/

namespace NonlinearInteger

inductive Json where
  | null
  | bool (b : Bool)
  | int (x : Int)
  | float (x : Float)
  | string (s : String)
  | array (items : List Json)
  | object (fields : List (String × Json))

namespace Json

abbrev Fields := List (String × Json)

/-- Adds a field in order of names; a field of the same name is replaced. -/
def insertField (name : String) (value : Json) : Fields → Fields
  | [] => [(name, value)]
  | (n, v) :: fields =>
    if name = n then (name, value) :: fields
    else if name < n then (name, value) :: (n, v) :: fields
    else (n, v) :: insertField name value fields

def field? (name : String) (fields : Fields) : Option Json :=
  (fields.find? fun (n, _) => n == name).map Prod.snd

theorem field?_insertField (name : String) (value : Json) (fields : Fields) (n : String) :
    field? n (insertField name value fields) =
      if n = name then some value else field? n fields := by
  induction fields with
  | nil => by_cases h : n = name <;> simp [insertField, field?, h, Ne.symm]
  | cons entry fields ih =>
    obtain ⟨m, v⟩ := entry
    unfold insertField
    by_cases hm : name = m
    · subst hm
      by_cases h : n = name
      · simp [field?, h]
      · simp [field?, h, Ne.symm h]
    · rw [if_neg hm]
      split
      · by_cases h : n = name
        · simp [field?, h]
        · simp [field?, h, Ne.symm h]
      · by_cases hn : m = n
        · subst hn
          simp [field?, Ne.symm hm]
        · simpa [field?, hn] using ih

def ofStrings (ss : List String) : Json := .array (ss.map .string)

def ofInts (xs : List Int) : Json := .array (xs.map .int)

def ofNats (ns : List Nat) : Json := .array (ns.map fun (n : Nat) => .int n)

end Json
end NonlinearInteger
