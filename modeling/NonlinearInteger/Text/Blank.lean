/-!
# Blanks, words and lines

Text is cut at blanks, the characters of Unicode's `White_Space` property, and
at line feeds.
-/

namespace NonlinearInteger.Text

/-- The property `White_Space`, twenty-five characters. -/
def isBlank (c : Char) : Bool :=
  let n := c.toNat
  (9 ≤ n && n ≤ 13) || n == 32 || n == 0x85 || n == 0xA0 || n == 0x1680 ||
    (0x2000 ≤ n && n ≤ 0x200A) || n == 0x2028 || n == 0x2029 || n == 0x202F ||
    n == 0x205F || n == 0x3000

theorem isBlank_of_isWhitespace {c : Char} (h : c.isWhitespace = true) : isBlank c = true := by
  simp only [Char.isWhitespace, Bool.or_eq_true, decide_eq_true_eq] at h
  rcases h with ((rfl | rfl) | rfl) | rfl <;> decide

/-- The characters between the leading and the trailing blanks. -/
def trimChars (cs : List Char) : List Char :=
  ((cs.dropWhile isBlank).reverse.dropWhile isBlank).reverse

def trim (s : String) : String := String.ofList (trimChars s.toList)

/-- The maximal runs of characters that are not blank, after the run read so
far, which is reversed. -/
def runs (run : List Char) : List Char → List (List Char)
  | [] => if run.isEmpty then [] else [run.reverse]
  | c :: cs =>
    if isBlank c then
      if run.isEmpty then runs [] cs else run.reverse :: runs [] cs
    else runs (c :: run) cs

theorem not_isBlank_of_mem_runs {run cs w : List Char} (hrun : ∀ c ∈ run, isBlank c = false)
    (hw : w ∈ runs run cs) : ∀ c ∈ w, isBlank c = false := by
  induction cs generalizing run with
  | nil =>
    simp only [runs] at hw
    split at hw
    · cases hw
    · simp only [List.mem_singleton] at hw
      intro c hc
      exact hrun c (by simpa [hw] using hc)
  | cons d cs ih =>
    simp only [runs] at hw
    split at hw
    · split at hw
      · exact ih (by simp) hw
      · rcases List.mem_cons.1 hw with rfl | hw
        · intro c hc
          exact hrun c (List.mem_reverse.1 hc)
        · exact ih (by simp) hw
    · rename_i hd
      refine ih (fun c hc => ?_) hw
      rcases List.mem_cons.1 hc with rfl | hc
      · simpa using hd
      · exact hrun c hc

def words (s : String) : List String := (runs [] s.toList).map String.ofList

/-- The pieces between the occurrences of a separator. -/
def pieces (sep : Char) (piece : List Char) : List Char → List (List Char)
  | [] => [piece.reverse]
  | c :: cs =>
    if c = sep then piece.reverse :: pieces sep [] cs else pieces sep (c :: piece) cs

def splitAt (sep : Char) (s : String) : List String :=
  (pieces sep [] s.toList).map String.ofList

/-- What follows the first colon, if there is one. -/
def afterColon (s : String) : String :=
  match s.toList.dropWhile (· != ':') with
  | [] => s
  | _ :: rest => String.ofList rest

end NonlinearInteger.Text
