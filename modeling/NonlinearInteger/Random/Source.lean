import NonlinearInteger.Checked

/-!
# Random sources

A source yields 64-bit words. A number below a bound is drawn by widening
multiplication: the high half of word times bound is the result, and words
whose low half lies in the uneven rest are drawn again. The tries are limited
by a number that no source here has states, so a draw that spends them all
would never end.
-/

namespace NonlinearInteger

/-- A state from which words are drawn. -/
class RandomSource (ρ : Type) where
  word : ρ → UInt64 × ρ

namespace Random

variable {ρ α β : Type}

/-- How often a word may be drawn again, the number of states of 256 bits. -/
def retries : Nat := Nat.pow 2 256

/-- Draws until a result is picked. Once the tries are spent the last result is
replaced. -/
def drawUntil (pick : α → Option β) (otherwise : α → β) (draw : ρ → α × ρ) : Nat → ρ → β × ρ
  | 0, r =>
    let (a, r) := draw r
    ((pick a).getD (otherwise a), r)
  | tries + 1, r =>
    let (a, r) := draw r
    match pick a with
    | some b => (b, r)
    | none => drawUntil pick otherwise draw tries r

theorem drawUntil_of {pick : α → Option β} {otherwise : α → β} {draw : ρ → α × ρ}
    {motive : β → Prop}
    (hpick : ∀ r, ∀ b ∈ pick (draw r).1, motive b) (hotherwise : ∀ r, motive (otherwise (draw r).1))
    (tries : Nat) (r : ρ) : motive (drawUntil pick otherwise draw tries r).1 := by
  induction tries generalizing r with
  | zero =>
    have hfirst := hpick r
    simp only [drawUntil]
    cases h : pick (draw r).1 with
    | none => exact hotherwise r
    | some b => exact hfirst b h
  | succ tries ih =>
    simp only [drawUntil]
    split
    · exact hpick r _ ‹_›
    · exact ih _

/-- The greatest accepted low half for words below `span`, a power of two. -/
def zone (span n : Nat) : Nat := n * (span / Nat.pow 2 (Nat.log2 n + 1)) - 1

/-- The high half of a word times `n`, unless the low half is in the rest. -/
def highHalf? (span n word : Nat) : Option Nat :=
  if word * n % span ≤ zone span n then some (word * n / span) else none

def drawBelow (span : Nat) (draw : ρ → Nat × ρ) (n : Nat) (r : ρ) : Nat × ρ :=
  drawUntil (highHalf? span n) (fun word => word * n / span) draw retries r

theorem drawBelow_lt {span n : Nat} {draw : ρ → Nat × ρ} (hdraw : ∀ r, (draw r).1 < span)
    (hn : 0 < n) (r : ρ) : (drawBelow span draw n r).1 < n := by
  have hhigh (r : ρ) : (draw r).1 * n / span < n :=
    Nat.div_lt_of_lt_mul (Nat.mul_lt_mul_of_pos_right (hdraw r) hn)
  refine drawUntil_of (motive := (· < n)) (fun r b hb => ?_) hhigh retries r
  unfold highHalf? at hb
  split at hb
  · cases hb
    exact hhigh r
  · cases hb

/-- The number of 64-bit words. -/
def span64 : Nat := 18446744073709551616

/-- The number of 32-bit words. -/
def span32 : Nat := 4294967296

variable [RandomSource ρ]

def word64 (r : ρ) : Nat × ρ :=
  let (w, r) := RandomSource.word r
  (w.toNat, r)

/-- The upper half of a word. -/
def word32 (r : ρ) : Nat × ρ :=
  let (w, r) := RandomSource.word r
  ((w >>> 32).toNat, r)

/-- A number below `n`, from whole words. -/
def below (n : Nat) (r : ρ) : Checked (Nat × ρ) :=
  if n = 0 then .error .emptyRange else .ok (drawBelow span64 word64 n r)

/-- A number below `n`, from half words. -/
def below32 (n : Nat) (r : ρ) : Checked (Nat × ρ) :=
  if n = 0 then .error .emptyRange else .ok (drawBelow span32 word32 n r)

/-- An even chance. -/
def coin (r : ρ) : Bool × ρ :=
  let (w, r) := word64 r
  (decide (w < span64 / 2), r)

theorem below_lt {n : Nat} {r : ρ} {drawn : Nat × ρ} (h : below n r = .ok drawn) :
    drawn.1 < n := by
  unfold below at h
  split at h
  · cases h
  · rename_i hn
    injection h with h
    rw [← h]
    exact drawBelow_lt (fun r => UInt64.toNat_lt _) (Nat.pos_of_ne_zero hn) r

end Random
end NonlinearInteger
