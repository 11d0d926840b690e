import NonlinearInteger.Lp.Expression
import NonlinearInteger.Proofs.Texts

/-!
# Tokens of expressions

Names are numbered by a table, which grows as new ones are looked up. A token is a relation, a
mark, a numeral or a name, and each kind has its own effect on what has been read so far.
-/

namespace NonlinearInteger.Lp

/-- Where a table has a name. -/
def position (names : Array String) (name : String) : Nat := names.toList.idxOf name

/-- A table after some names were looked up one by one. -/
structure Grows (names : Array String) (seen : List String) (names' : Array String) : Prop where
  start : names.toList <+: names'.toList
  mem_iff : ∀ x, x ∈ names' ↔ x ∈ names ∨ x ∈ seen
  nodup : names.toList.Nodup → names'.toList.Nodup

namespace Grows

variable {names names' names'' : Array String} {seen seen' : List String} {x : String}

theorem refl (names : Array String) : Grows names [] names :=
  ⟨List.prefix_rfl, by simp, id⟩

theorem trans (h : Grows names seen names') (h' : Grows names' seen' names'') :
    Grows names (seen ++ seen') names'' := by
  refine ⟨h.start.trans h'.start, ?_, h'.nodup ∘ h.nodup⟩
  intro x
  rw [h'.mem_iff, h.mem_iff, List.mem_append, or_assoc]

theorem mem_of_mem (h : Grows names seen names') (hx : x ∈ names) : x ∈ names' :=
  (h.mem_iff x).2 (.inl hx)

theorem mem_of_seen (h : Grows names seen names') (hx : x ∈ seen) : x ∈ names' :=
  (h.mem_iff x).2 (.inr hx)

theorem position_eq (h : Grows names seen names') (hx : x ∈ names) :
    position names' x = position names x := by
  obtain ⟨rest, hrest⟩ := h.start
  rw [position, position, ← hrest]
  exact List.idxOf_append_of_mem (Array.mem_toList_iff.2 hx)

end Grows

theorem position_lt {names : Array String} {x : String} (h : x ∈ names) :
    position names x < names.size :=
  List.idxOf_lt_length_of_mem (Array.mem_toList_iff.2 h)

section Lookup

variable {names : Array String} {name : String}

theorem intern_of_mem (h : name ∈ names) : intern names name = (names, position names name) := by
  have hlist : names.idxOf? name = names.toList.idxOf? name := by
    cases names
    simp
  obtain ⟨v, hv⟩ := Option.isSome_iff_exists.1 (List.isSome_idxOf?.2 (Array.mem_toList_iff.2 h))
  rw [intern, hlist, hv, position, List.idxOf_eq_getD_idxOf?, hv, Option.getD_some]

theorem intern_of_notMem (h : name ∉ names) :
    intern names name = (names.push name, names.size) := by
  rw [intern, Array.idxOf?_eq_none_iff.2 h]

theorem position_push (h : name ∉ names) : position (names.push name) name = names.size := by
  rw [position, Array.toList_push, List.idxOf_append_of_notMem (mt Array.mem_toList_iff.1 h)]
  simp

theorem Grows.push (h : name ∉ names) : Grows names [name] (names.push name) where
  start := by
    rw [Array.toList_push]
    exact List.prefix_append _ _
  mem_iff x := by rw [Array.mem_push, List.mem_singleton]
  nodup hnodup := by
    rw [Array.toList_push]
    refine List.nodup_append.2 ⟨hnodup, by simp, ?_⟩
    rintro x hx y hy rfl
    rw [List.mem_singleton.1 hy, Array.mem_toList_iff] at hx
    exact h hx

end Lookup

theorem exists_intern (names : Array String) (name : String) :
    ∃ names', intern names name = (names', position names' name) ∧
      Grows names [name] names' := by
  by_cases hmem : name ∈ names
  · refine ⟨names, intern_of_mem hmem, List.prefix_rfl, fun x => ?_, id⟩
    rw [List.mem_singleton, or_iff_left_of_imp]
    rintro rfl
    exact hmem
  · refine ⟨names.push name, ?_, .push hmem⟩
    rw [intern_of_notMem hmem, position_push hmem]

theorem relation?_text {r : Relation} (h : r ≠ .undefined) : relation? r.text = some r := by
  cases r with
  | undefined => exact absurd rfl h
  | _ => rfl

/-- A token that is neither a relation nor a mark: a numeral or a name. -/
structure Plain (token : String) : Prop where
  relation : relation? token = none
  ne_mark : token ∉ ["+", "[", "]", "-", "*"]

theorem plain_of_cons {token : String} {c : Char} {cs : List Char} (h : token.toList = c :: cs)
    (hc : c ∉ ['<', '>', '=', '+', '[', ']', '-', '*']) : Plain token := by
  have hne : ∀ (mark : String) (d : Char), mark.toList.head? = some d →
      d ∈ ['<', '>', '=', '+', '[', ']', '-', '*'] → token ≠ mark := by
    rintro mark d hd hmem rfl
    rw [h] at hd
    exact hc (Option.some.inj hd ▸ hmem)
  constructor
  · unfold relation?
    rw [if_neg, if_neg, if_neg]
    · exact hne "=" '=' rfl (by decide)
    · rintro (heq | heq | heq)
      · exact hne ">=" '>' rfl (by decide) heq
      · exact hne "=>" '=' rfl (by decide) heq
      · exact hne ">" '>' rfl (by decide) heq
    · rintro (heq | heq | heq)
      · exact hne "<=" '<' rfl (by decide) heq
      · exact hne "=<" '=' rfl (by decide) heq
      · exact hne "<" '<' rfl (by decide) heq
  · intro hmem
    simp only [List.mem_cons, List.not_mem_nil, or_false] at hmem
    rcases hmem with heq | heq | heq | heq | heq
    · exact hne "+" '+' rfl (by decide) heq
    · exact hne "[" '[' rfl (by decide) heq
    · exact hne "]" ']' rfl (by decide) heq
    · exact hne "-" '-' rfl (by decide) heq
    · exact hne "*" '*' rfl (by decide) heq

theorem plain_of_integer {token : String} {value : Int}
    (h : Text.intOfChars? token.toList = some value) : Plain token := by
  have hmarks : ∀ mark ∈ ["<=", "=<", "<", ">=", "=>", ">", "=", "+", "[", "]", "-", "*"],
      Text.intOfChars? mark.toList = none := by decide
  have hne : token ∉ ["<=", "=<", "<", ">=", "=>", ">", "=", "+", "[", "]", "-", "*"] := by
    intro hmem
    rw [hmarks token hmem] at h
    cases h
  simp only [List.mem_cons, List.not_mem_nil, or_false, not_or] at hne
  constructor
  · simp [relation?, hne]
  · simp [hne]

theorem plain_of_int64? {token : String} {value : Int} (h : Text.int64? token = some value) :
    Plain token :=
  plain_of_integer (Text.intOfChars?_of_int64? h)

theorem exists_letter_cons {x : String} (h : isName x = true) :
    ∃ c cs, x.toList = c :: cs ∧ (c.isAlpha = true ∨ c = '_') := by
  unfold isName at h
  split at h
  · rename_i c cs hcs
    exact ⟨c, cs, hcs, by simpa using h⟩
  · cases h

theorem plain_of_isName {x : String} (h : isName x = true) : Plain x := by
  obtain ⟨c, cs, hcs, hc⟩ := exists_letter_cons h
  refine plain_of_cons hcs ?_
  intro hmem
  simp only [List.mem_cons, List.not_mem_nil, or_false] at hmem
  rcases hmem with rfl | rfl | rfl | rfl | rfl | rfl | rfl | rfl <;> exact absurd hc (by decide)

theorem isDigit_eq_false_of_isAlpha {c : Char} (h : c.isAlpha = true) : c.isDigit = false := by
  rw [Bool.eq_false_iff, Ne, Char.isDigit_iff_toNat]
  rintro ⟨-, hnine⟩
  have hletter : c.isUpper = true ∨ c.isLower = true := Bool.or_eq_true_iff.1 h
  rcases hletter with hupper | hlower
  · have hA : 'A'.toNat ≤ c.toNat := (of_decide_eq_true hupper).1
    exact absurd (Nat.le_trans hA hnine) (by decide)
  · have hbounds := Bool.and_eq_true_iff.1 hlower
    have ha : 'a'.toNat ≤ c.toNat := of_decide_eq_true hbounds.1
    exact absurd (Nat.le_trans ha hnine) (by decide)

theorem intOfChars?_of_isName {x : String} (h : isName x = true) :
    Text.intOfChars? x.toList = none := by
  obtain ⟨c, cs, hcs, hc⟩ := exists_letter_cons h
  rw [hcs]
  apply Text.intOfChars?_eq_none
  · rcases hc with hc | rfl
    · exact isDigit_eq_false_of_isAlpha hc
    · decide
  · rintro rfl
    exact absurd hc (by decide)
  · rintro rfl
    exact absurd hc (by decide)

theorem int64?_of_isName {x : String} (h : isName x = true) : Text.int64? x = none :=
  Text.int64?_eq_none (intOfChars?_of_isName h)

section Step

variable {names : Array String} {e : Reading} {token : String} {rest : List String}

/-- A plus sign and brackets are passed over. -/
theorem readTerms_skip (h : token ∈ ["+", "[", "]"]) :
    readTerms names e (token :: rest) = readTerms names e rest := by
  simp only [List.mem_cons, List.not_mem_nil, or_false] at h
  have hrelation : relation? token = none := by
    rcases h with rfl | rfl | rfl <;> rfl
  rw [readTerms.eq_def]
  simp [hrelation, h]

theorem readTerms_minus : readTerms names e ("-" :: rest) = readTerms names e.flip rest := by
  have hrelation : relation? "-" = none := rfl
  rw [readTerms.eq_def]
  simp [hrelation]

theorem readTerms_star {x : String} (hx : isName x = true) {names' : Array String} {v : Variable}
    (hintern : intern names x = (names', v)) {e' : Reading} (htimes : e.times v = .ok e') :
    readTerms names e ("*" :: x :: rest) = readTerms names' e' rest := by
  have hrelation : relation? "*" = none := rfl
  rw [readTerms.eq_def]
  simp [hrelation, hx, hintern, htimes]

theorem readTerms_numeral {value : Int} (hvalue : Text.int64? token = some value) :
    readTerms names e (token :: rest) =
      e.withCoefficient token value >>= (readTerms names · rest) := by
  have hplain := plain_of_int64? hvalue
  have hmarks := hplain.ne_mark
  simp only [List.mem_cons, List.not_mem_nil, or_false, not_or] at hmarks
  rw [readTerms.eq_def]
  simp only [hplain.relation, hmarks, hvalue, or_false, if_false]
  cases e.withCoefficient token value <;> rfl

theorem readTerms_name (h : isName token = true) {names' : Array String} {v : Variable}
    (hintern : intern names token = (names', v)) :
    readTerms names e (token :: rest) = readTerms names' (e.startTerm v) rest := by
  have hplain := plain_of_isName h
  have hmarks := hplain.ne_mark
  simp only [List.mem_cons, List.not_mem_nil, or_false, not_or] at hmarks
  rw [readTerms.eq_def]
  simp [hplain.relation, hmarks, int64?_of_isName h, h, hintern]

end Step

end NonlinearInteger.Lp
