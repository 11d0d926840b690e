import NonlinearInteger.Json.Reader
import NonlinearInteger.Search.SettingsReader

/-!
# The integers that are read

An integer of a JSON text has at most 64 bits; what is longer, or has a point or
an exponent, is a floating-point number. So the number of steps that settings
allow is a machine word.
-/

namespace NonlinearInteger.Json

/-- A floating-point number, or an integer up to the greatest 64-bit word. -/
def Numeric : Json → Prop
  | .int x => x ≤ 18446744073709551615
  | .float _ => True
  | _ => False

theorem fits_gather {significand : Nat} (h : FitsNat64 significand) (taken : Nat)
    (ds : List Char) : FitsNat64 (gather significand taken ds).1 := by
  induction ds generalizing significand taken with
  | nil => exact h
  | cons c ds ih =>
    rw [gather]
    split
    · next hnext => exact ih hnext _
    · exact h

theorem numeric_of_ofParts {negative : Bool} {significand : Nat} {exponent : Int} {j : Json}
    (h : ofParts negative significand exponent = some j) : Numeric j := by
  obtain ⟨x, -, rfl⟩ := Option.map_eq_some_iff.1 h
  trivial

theorem numeric_of_readExponent {negative : Bool} {significand : Nat} {start : Int}
    {cs rest : List Char} {j : Json}
    (h : readExponent negative significand start cs = some (j, rest)) : Numeric j := by
  unfold readExponent at h
  split at h
  all_goals
    dsimp only at h
    split at h
    · cases h
    · split at h
      · split at h
        · cases h
        · cases h
          trivial
      · obtain ⟨k, hk, heq⟩ := Option.map_eq_some_iff.1 h
        cases heq
        exact numeric_of_ofParts hk

theorem numeric_of_readFraction {negative : Bool} {significand : Nat} {exponent : Int}
    {cs rest : List Char} {j : Json}
    (h : readFraction negative significand exponent cs = some (j, rest)) : Numeric j := by
  unfold readFraction readScale at h
  dsimp only at h
  split at h
  · cases h
  · split at h
    · exact numeric_of_readExponent h
    · exact numeric_of_readExponent h
    · obtain ⟨j, hj, heq⟩ := Option.map_eq_some_iff.1 h
      cases heq
      exact numeric_of_ofParts hj

theorem numeric_of_ofInteger {negative : Bool} {significand : Nat} (h : FitsNat64 significand) :
    Numeric (ofInteger negative significand) := by
  unfold FitsNat64 at h
  unfold ofInteger
  split
  · exact Int.ofNat_le.2 h
  · split
    · trivial
    · show -(significand : Int) ≤ 18446744073709551615
      omega

theorem numeric_of_readUnsigned {negative : Bool} {cs rest : List Char} {j : Json}
    (h : readUnsigned negative cs = some (j, rest)) : Numeric j := by
  unfold readUnsigned at h
  dsimp only at h
  split at h
  · cases h
  · split at h
    · exact numeric_of_readFraction h
    · exact numeric_of_readExponent h
    · exact numeric_of_readExponent h
    · split at h
      · cases h
        exact numeric_of_ofInteger (fits_gather (by decide) _ _)
      · obtain ⟨j, hj, heq⟩ := Option.map_eq_some_iff.1 h
        cases heq
        exact numeric_of_ofParts hj

theorem numeric_of_readNumber {cs rest : List Char} {j : Json}
    (h : readNumber cs = some (j, rest)) : Numeric j := by
  unfold readNumber at h
  split at h
  · exact numeric_of_readUnsigned h
  · exact numeric_of_readUnsigned h

/-- An integer, if it is one, is at most the greatest 64-bit word. -/
def AtMostWord (j : Json) : Prop := ∀ x, j = .int x → x ≤ 18446744073709551615

theorem atMostWord_of_readValue {fuel depth : Nat} {cs rest : List Char} {j : Json}
    (h : readValue fuel depth cs = some (j, rest)) : AtMostWord j := by
  cases fuel with
  | zero => cases h
  | succ fuel =>
    rw [readValue] at h
    rintro x rfl
    split at h
    case h_7 => exact numeric_of_readNumber h
    case h_5 | h_6 =>
      split at h
      · cases h
      · split at h <;> simp at h
    all_goals simp at h

theorem mem_insertField {name : String} {value : Json} {fields : Fields} {entry : String × Json}
    (h : entry ∈ insertField name value fields) : entry = (name, value) ∨ entry ∈ fields := by
  induction fields with
  | nil => simpa [insertField] using h
  | cons field fields ih =>
    rw [insertField] at h
    split at h
    · rcases List.mem_cons.1 h with h | h
      · exact .inl h
      · exact .inr (List.mem_cons_of_mem _ h)
    · split at h
      · simpa using h
      · rcases List.mem_cons.1 h with rfl | h
        · exact .inr List.mem_cons_self
        · exact (ih h).imp_right (List.mem_cons_of_mem _)

theorem atMostWord_of_readFields {fuel depth : Nat} {read fields : Fields} {cs rest : List Char}
    (hread : ∀ entry ∈ read, AtMostWord entry.2)
    (h : readFields fuel depth read cs = some (fields, rest)) :
    ∀ entry ∈ fields, AtMostWord entry.2 := by
  induction fuel generalizing read cs with
  | zero => cases h
  | succ fuel ih =>
    rw [readFields] at h
    split at h
    · obtain ⟨⟨name, ds⟩, -, h⟩ := Option.bind_eq_some_iff.1 h
      dsimp only at h
      split at h
      · obtain ⟨⟨value, ds⟩, hvalue, h⟩ := Option.bind_eq_some_iff.1 h
        have hinsert : ∀ entry ∈ insertField name value read, AtMostWord entry.2 := by
          intro entry hentry
          rcases mem_insertField hentry with rfl | hentry
          · exact atMostWord_of_readValue hvalue
          · exact hread entry hentry
        dsimp only at h
        split at h
        · exact ih hinsert h
        · cases h
          exact hinsert
        · cases h
      · cases h
    · cases h

theorem exists_readFields_of_readValue {fuel depth : Nat} {cs rest : List Char} {fields : Fields}
    (h : readValue fuel depth cs = some (.object fields, rest)) :
    fields = [] ∨ ∃ fuel depth ds, readFields fuel depth [] ds = some (fields, rest) := by
  cases fuel with
  | zero => cases h
  | succ fuel =>
    rw [readValue] at h
    split at h
    case h_6 =>
      split at h
      · cases h
      · split at h
        · cases h
          exact .inl rfl
        · obtain ⟨⟨read, ds⟩, hread, heq⟩ := Option.map_eq_some_iff.1 h
          cases heq
          exact .inr ⟨_, _, _, hread⟩
    case h_5 =>
      split at h
      · cases h
      · split at h <;> simp at h
    case h_7 => exact (numeric_of_readNumber h).elim
    all_goals simp at h

theorem atMostWord_of_read? {text : String} {fields : Fields}
    (h : read? text = some (.object fields)) : ∀ entry ∈ fields, AtMostWord entry.2 := by
  unfold read? at h
  dsimp only at h
  split at h
  · next value rest hvalue =>
    split at h
    · cases h
      rcases exists_readFields_of_readValue hvalue with rfl | ⟨fuel, depth, ds, hfields⟩
      · simp
      · exact atMostWord_of_readFields (by simp) hfields
    · cases h
  · cases h

end NonlinearInteger.Json

namespace NonlinearInteger.Search

theorem readWord_le {expected : Expected} {j : Json} {n : Nat} (hj : j.AtMostWord)
    (h : readWord expected j = .ok n) : FitsNat64 n := by
  cases j with
  | int x =>
    have hx := hj x rfl
    simp only [readWord] at h
    split at h
    · cases h
    · cases h
      unfold FitsNat64
      omega
  | null | bool | float | string | array | object => cases h

theorem maxSteps_of_setField {s t : Settings} {name : String} {value : Json}
    (hvalue : name = "max_steps" → value.AtMostWord) (hs : FitsNat64 s.maxSteps)
    (h : setField s name value = .ok t) : FitsNat64 t.maxSteps := by
  unfold setField at h
  split at h
  case h_3 =>
    obtain ⟨n, hn, h⟩ := bind_eq_ok.1 h
    cases h
    exact readWord_le (hvalue rfl) hn
  case h_16 => cases h
  all_goals
    obtain ⟨_, -, h⟩ := bind_eq_ok.1 h
    cases h
    exact hs

/-- A search cannot be asked for more steps than a word counts. -/
theorem maxSteps_of_ofFields {fields : Json.Fields} {settings : Settings}
    (hfields : ∀ value, ("max_steps", value) ∈ fields → value.AtMostWord)
    (h : Settings.ofFields fields = .ok settings) : FitsNat64 settings.maxSteps := by
  obtain ⟨s, hs, h⟩ := bind_eq_ok.1 h
  have hlimit : FitsNat64 s.maxSteps := by
    refine foldlM_keeps (motive := fun s => FitsNat64 s.maxSteps) hs (by decide) ?_
    intro u entry v hentry hu hset
    refine maxSteps_of_setField ?_ hu hset
    intro hname
    exact hfields entry.2 (hname ▸ hentry)
  split at h
  · cases h
  · split at h
    · cases h
      exact hlimit
    · cases h

end NonlinearInteger.Search
