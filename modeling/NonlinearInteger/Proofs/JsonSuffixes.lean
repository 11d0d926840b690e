import NonlinearInteger.Proofs.ReadIntegers
import Mathlib.Data.List.TakeWhile

/-!
# What JSON readers leave

Each reader takes something from the front of a text and leaves the rest as it is. So the last
character of a text that is an object, blanks apart, is a closing brace.
-/

namespace NonlinearInteger.Json

variable {cs rest : List Char} {j : Json}

theorem skipBlanks_suffix (cs : List Char) : skipBlanks cs <:+ cs := List.dropWhile_suffix _

theorem suffix_of_skipBlanks {c : Char} {ds : List Char} (h : skipBlanks cs = c :: ds) :
    ds <:+ cs :=
  (List.suffix_cons c ds).trans (h ▸ skipBlanks_suffix cs)

theorem digits_suffix (cs : List Char) : (digits cs).2 <:+ cs := List.dropWhile_suffix _

section Numbers

variable {negative : Bool} {significand : Nat}

theorem suffix_of_readExponent {start : Int}
    (h : readExponent negative significand start cs = some (j, rest)) : rest <:+ cs := by
  unfold readExponent at h
  split at h
  rename_i down ds hsign
  have hds : ds <:+ cs := by
    split at hsign
    · cases hsign
      exact List.suffix_cons _ _
    · cases hsign
      exact List.suffix_cons _ _
    · cases hsign
      exact List.suffix_rfl
  dsimp only at h
  split at h
  · cases h
  · split at h
    · split at h
      · cases h
      · cases h
        exact (digits_suffix ds).trans hds
    · obtain ⟨k, -, heq⟩ := Option.map_eq_some_iff.1 h
      cases heq
      exact (digits_suffix ds).trans hds

theorem suffix_of_readScale {exponent : Int}
    (h : readScale negative significand exponent cs = some (j, rest)) : rest <:+ cs := by
  unfold readScale at h
  split at h
  · exact (suffix_of_readExponent h).trans (List.suffix_cons _ _)
  · exact (suffix_of_readExponent h).trans (List.suffix_cons _ _)
  · obtain ⟨k, -, heq⟩ := Option.map_eq_some_iff.1 h
    cases heq
    exact List.suffix_rfl

theorem suffix_of_readFraction {exponent : Int}
    (h : readFraction negative significand exponent cs = some (j, rest)) : rest <:+ cs := by
  unfold readFraction at h
  dsimp only at h
  split at h
  · cases h
  · exact (suffix_of_readScale h).trans (digits_suffix cs)

theorem suffix_of_readUnsigned (h : readUnsigned negative cs = some (j, rest)) : rest <:+ cs := by
  have hdigits := digits_suffix cs
  unfold readUnsigned at h
  dsimp only at h
  split at h
  · cases h
  · split at h
    · rename_i ds hds
      exact ((suffix_of_readFraction h).trans (List.suffix_cons '.' ds)).trans (hds ▸ hdigits)
    · rename_i ds hds
      exact ((suffix_of_readExponent h).trans (List.suffix_cons 'e' ds)).trans (hds ▸ hdigits)
    · rename_i ds hds
      exact ((suffix_of_readExponent h).trans (List.suffix_cons 'E' ds)).trans (hds ▸ hdigits)
    · split at h
      · cases h
        exact hdigits
      · obtain ⟨k, -, heq⟩ := Option.map_eq_some_iff.1 h
        cases heq
        exact hdigits

theorem suffix_of_readNumber (h : readNumber cs = some (j, rest)) : rest <:+ cs := by
  unfold readNumber at h
  split at h
  · exact (suffix_of_readUnsigned h).trans (List.suffix_cons _ _)
  · exact suffix_of_readUnsigned h

end Numbers

theorem suffix_of_readChars {read : List Char} {s : String}
    (h : readChars read cs = some (s, rest)) : rest <:+ cs := by
  fun_induction readChars read cs with
  | case2 =>
    cases h
    exact List.suffix_cons _ _
  | case5 read a b c d n _ _ _ a' b' c' d' cs m _ _ ih =>
    exact (ih h).trans (List.suffix_append ['\\', 'u', a, b, c, d, '\\', 'u', a', b', c', d'] cs)
  | case9 read a b c d cs n _ _ _ ih =>
    exact (ih h).trans (List.suffix_append ['\\', 'u', a, b, c, d] cs)
  | case10 read c cs _ k _ ih => exact (ih h).trans (List.suffix_append ['\\', c] cs)
  | case13 read c cs _ _ _ _ ih => exact (ih h).trans (List.suffix_cons c cs)
  | case1 | case3 | case4 | case6 | case7 | case8 | case11 | case12 => cases h

/-- What the readers of values, items and fields leave with a given fuel. Items and fields leave
what is behind their closing bracket. -/
structure LeaveSuffixes (fuel : Nat) : Prop where
  value : ∀ {depth cs j rest}, readValue fuel depth cs = some (j, rest) → rest <:+ cs
  items : ∀ {depth cs items rest}, readItems fuel depth cs = some (items, rest) → rest <:+ cs
  fields : ∀ {depth read cs fields rest}, readFields fuel depth read cs = some (fields, rest) →
    '\x7d' :: rest <:+ cs

section Steps

variable {fuel depth : Nat}

theorem LeaveSuffixes.readValue (ih : LeaveSuffixes fuel)
    (h : readValue (fuel + 1) depth cs = some (j, rest)) : rest <:+ cs := by
  have hblank := skipBlanks_suffix cs
  rw [Json.readValue] at h
  split at h
  case h_1 ds hds =>
    cases h
    rw [hds] at hblank
    exact (List.suffix_append ['n', 'u', 'l', 'l'] _).trans hblank
  case h_2 ds hds =>
    cases h
    rw [hds] at hblank
    exact (List.suffix_append ['t', 'r', 'u', 'e'] _).trans hblank
  case h_3 ds hds =>
    cases h
    rw [hds] at hblank
    exact (List.suffix_append ['f', 'a', 'l', 's', 'e'] _).trans hblank
  case h_4 ds hds =>
    obtain ⟨⟨s, left⟩, hchars, heq⟩ := Option.map_eq_some_iff.1 h
    cases heq
    exact (suffix_of_readChars hchars).trans (suffix_of_skipBlanks hds)
  case h_5 ds hds =>
    have hinside := (skipBlanks_suffix ds).trans (suffix_of_skipBlanks hds)
    split at h
    · cases h
    · split at h
      · rename_i hclose
        cases h
        exact (List.suffix_cons _ _).trans (hclose ▸ hinside)
      · obtain ⟨⟨items, left⟩, hitems, heq⟩ := Option.map_eq_some_iff.1 h
        cases heq
        exact (ih.items hitems).trans hinside
  case h_6 ds hds =>
    have hinside := (skipBlanks_suffix ds).trans (suffix_of_skipBlanks hds)
    split at h
    · cases h
    · split at h
      · rename_i hclose
        cases h
        exact (List.suffix_cons _ _).trans (hclose ▸ hinside)
      · obtain ⟨⟨fields, left⟩, hfields, heq⟩ := Option.map_eq_some_iff.1 h
        cases heq
        exact ((List.suffix_cons _ _).trans (ih.fields hfields)).trans hinside
  case h_7 => exact (suffix_of_readNumber h).trans hblank

theorem LeaveSuffixes.readItems (ih : LeaveSuffixes fuel) {items : List Json}
    (h : readItems (fuel + 1) depth cs = some (items, rest)) : rest <:+ cs := by
  rw [Json.readItems] at h
  obtain ⟨⟨item, ds⟩, hitem, h⟩ := Option.bind_eq_some_iff.1 h
  have hafter := ih.value hitem
  dsimp only at h
  split at h
  · rename_i more hmore
    obtain ⟨⟨others, left⟩, hothers, h⟩ := Option.bind_eq_some_iff.1 h
    cases h
    exact ((ih.items hothers).trans (suffix_of_skipBlanks hmore)).trans hafter
  · rename_i hclose
    cases h
    exact (suffix_of_skipBlanks hclose).trans hafter
  · cases h

theorem LeaveSuffixes.readFields (ih : LeaveSuffixes fuel) {read fields : Fields}
    (h : readFields (fuel + 1) depth read cs = some (fields, rest)) : '\x7d' :: rest <:+ cs := by
  rw [Json.readFields] at h
  split at h
  · rename_i ds hds
    obtain ⟨⟨name, es⟩, hname, h⟩ := Option.bind_eq_some_iff.1 h
    have hname := (suffix_of_readChars hname).trans (suffix_of_skipBlanks hds)
    dsimp only at h
    split at h
    · rename_i gs hcolon
      obtain ⟨⟨value, left⟩, hvalue, h⟩ := Option.bind_eq_some_iff.1 h
      have hafter := (ih.value hvalue).trans ((suffix_of_skipBlanks hcolon).trans hname)
      dsimp only at h
      split at h
      · rename_i more hmore
        exact ((ih.fields h).trans (suffix_of_skipBlanks hmore)).trans hafter
      · rename_i hclose
        cases h
        exact (hclose ▸ skipBlanks_suffix left).trans hafter
      · cases h
    · cases h
  · cases h

end Steps

/-- By induction on the fuel, as each reader calls the others with less. -/
theorem leaveSuffixes (fuel : Nat) : LeaveSuffixes fuel := by
  induction fuel with
  | zero => exact ⟨nofun, nofun, nofun⟩
  | succ fuel ih => exact ⟨ih.readValue, ih.readItems, ih.readFields⟩

theorem brace_of_readValue {fuel depth : Nat} {fields : Fields}
    (h : readValue fuel depth cs = some (.object fields, rest)) : '\x7d' :: rest <:+ cs := by
  cases fuel with
  | zero => cases h
  | succ fuel =>
    rw [readValue] at h
    split at h
    case h_6 ds hds =>
      have hinside := (skipBlanks_suffix ds).trans (suffix_of_skipBlanks hds)
      split at h
      · cases h
      · split at h
        · rename_i hclose
          cases h
          exact hclose ▸ hinside
        · obtain ⟨⟨read, left⟩, hfields, heq⟩ := Option.map_eq_some_iff.1 h
          cases heq
          exact ((leaveSuffixes fuel).fields hfields).trans hinside
    case h_5 =>
      split at h
      · cases h
      · split at h <;> simp at h
    case h_7 => exact (numeric_of_readNumber h).elim
    all_goals simp at h

theorem exists_brace_of_read? {text : String} {fields : Fields}
    (h : read? text = some (.object fields)) :
    ∃ front blanks, text.toList = front ++ '\x7d' :: blanks ∧
      ∀ c ∈ blanks, (c == ' ' || c == '\n' || c == '\t' || c == '\r') = true := by
  unfold read? at h
  dsimp only at h
  split at h
  · rename_i value rest hvalue
    split at h
    · rename_i hblank
      cases h
      obtain ⟨front, hfront⟩ := brace_of_readValue hvalue
      rw [List.isEmpty_iff, skipBlanks, List.dropWhile_eq_nil_iff] at hblank
      exact ⟨front, rest, hfront.symm, hblank⟩
    · cases h
  · cases h

end NonlinearInteger.Json
