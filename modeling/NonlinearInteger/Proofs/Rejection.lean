import NonlinearInteger.Allocation.Table
import NonlinearInteger.Random.Xoshiro
import Mathlib.Data.Fintype.Prod
import Mathlib.Data.Fintype.Pigeonhole
import Mathlib.Logic.Function.Iterate

/-!
# Rejected draws

A draw that is rejected is made again, in principle without end. On a source with finitely
many states as many tries are enough as there are states: when all of these are rejected, a
state has come back and so do the results that are rejected. The limited draws therefore are
the draws without a limit, wherever these end.
-/

namespace NonlinearInteger

namespace Random

variable {ρ α β : Type} {pick : α → Option β} {otherwise : α → β} {out : β × ρ} {r : ρ}

/-- Draws until a result is picked, however many they are. -/
inductive DrawnUntil (pick : α → Option β) (draws : ρ → α × ρ → Prop) : ρ → β × ρ → Prop
  | picked {r r' : ρ} {a : α} {b : β} :
      draws r (a, r') → pick a = some b → DrawnUntil pick draws r (b, r')
  | again {r r' : ρ} {a : α} {out : β × ρ} :
      draws r (a, r') → pick a = none → DrawnUntil pick draws r' out → DrawnUntil pick draws r out

theorem DrawnUntil.mono {draws draws' : ρ → α × ρ → Prop} (h : DrawnUntil pick draws r out)
    (hdraws : ∀ r x, draws r x → draws' r x) : DrawnUntil pick draws' r out := by
  induction h with
  | picked hdraw hpick => exact .picked (hdraws _ _ hdraw) hpick
  | again hdraw hpick _ ih => exact .again (hdraws _ _ hdraw) hpick ih

section Draw

variable {draw : ρ → α × ρ}

/-- The state after a number of draws. -/
def after (draw : ρ → α × ρ) (n : Nat) (r : ρ) : ρ := (fun r => (draw r).2)^[n] r

theorem exists_picked_of_drawn (h : DrawnUntil pick (fun r x => draw r = x) r out) :
    ∃ n, pick (draw (after draw n r)).1 ≠ none := by
  induction h with
  | picked hdraw hpick => exact ⟨0, by simp [after, hdraw, hpick]⟩
  | again hdraw _ _ ih =>
    obtain ⟨n, hn⟩ := ih
    refine ⟨n + 1, ?_⟩
    rwa [after, Function.iterate_succ_apply, hdraw]

/-- The limited draws are those without a limit, or each of them is rejected. -/
theorem drawUntil_eq_or (h : DrawnUntil pick (fun r x => draw r = x) r out) (tries : Nat) :
    drawUntil pick otherwise draw tries r = out ∨
      ∀ n ≤ tries, pick (draw (after draw n r)).1 = none := by
  induction tries generalizing r with
  | zero =>
    cases h with
    | picked hdraw hpick => exact .inl (by simp [drawUntil, hdraw, hpick])
    | again hdraw hpick _ => exact .inr (by simp [after, hdraw, hpick])
  | succ tries ih =>
    cases h with
    | picked hdraw hpick => exact .inl (by simp [drawUntil, hdraw, hpick])
    | again hdraw hpick hrest =>
      refine (ih hrest).imp (fun heq => by simp [drawUntil, hdraw, hpick, heq]) ?_
      rintro hnone (_ | n) hn
      · simp [after, hdraw, hpick]
      · rw [after, Function.iterate_succ_apply, hdraw]
        exact hnone n (Nat.le_of_succ_le_succ hn)

variable {σ : Type} [Fintype σ] {code : ρ → σ} (hcode : Function.Injective code) {tries : Nat}
  (hstates : Fintype.card σ ≤ tries)
include hcode hstates

/-- Every state that comes up comes up early. -/
theorem exists_after_eq (draw : ρ → α × ρ) (n : Nat) (r : ρ) :
    ∃ k ≤ tries, after draw n r = after draw k r := by
  obtain ⟨i, j, hne, heq⟩ := Fintype.exists_ne_map_eq_of_card_lt
    (fun k : Fin (tries + 1) => code (after draw k r))
    (by simpa [Nat.lt_succ_iff] using hstates)
  wlog hlt : i < j
  · exact this hcode hstates draw n r j i hne.symm heq.symm (lt_of_le_of_ne (not_lt.1 hlt) hne.symm)
  induction n using Nat.strong_induction_on with
  | h n ih =>
    by_cases hle : n ≤ tries
    · exact ⟨n, hle, rfl⟩
    · -- The way from the second visit on is the way from the first.
      have hback : after draw n r = after draw (n - j + i) r := by
        have hsplit : n = (n - j) + j := by omega
        conv_lhs => rw [hsplit]
        rw [after, Function.iterate_add_apply, after, Function.iterate_add_apply]
        exact congrArg _ (hcode heq).symm
      obtain ⟨k, hk, hsame⟩ := ih (n - j + i) (by omega)
      exact ⟨k, hk, hback.trans hsame⟩

/-- With a try for each state, drawing ends as it would without a limit. -/
theorem drawUntil_eq_of_drawn {draws : ρ → α × ρ → Prop} (hdraws : ∀ r x, draws r x → draw r = x)
    (h : DrawnUntil pick draws r out) : drawUntil pick otherwise draw tries r = out := by
  have h := h.mono hdraws
  refine (drawUntil_eq_or h tries).resolve_right fun hnone => ?_
  obtain ⟨n, hn⟩ := exists_picked_of_drawn h
  obtain ⟨k, hk, heq⟩ := exists_after_eq hcode hstates draw n r
  exact hn (heq ▸ hnone k hk)

end Draw

namespace Xoshiro

/-- The four words of a state. -/
def words (x : Xoshiro) : Fin UInt64.size × Fin UInt64.size × Fin UInt64.size × Fin UInt64.size :=
  (x.s0.toFin, x.s1.toFin, x.s2.toFin, x.s3.toFin)

theorem words_injective : Function.Injective words := by
  rintro ⟨a, b, c, d⟩ ⟨a', b', c', d'⟩ h
  simpa [words, UInt64.toFin_inj] using h

theorem card_words_le :
    Fintype.card (Fin UInt64.size × Fin UInt64.size × Fin UInt64.size × Fin UInt64.size) ≤
      retries := by
  simp [UInt64.size, retries]

variable {n : Nat} {r : Xoshiro} {out : Nat × Xoshiro}

/-- A number below `n`, drawn from whole words without a limit to the tries. -/
def Draws (n : Nat) : Xoshiro → Nat × Xoshiro → Prop :=
  DrawnUntil (highHalf? span64 n) fun r x => word64 r = x

/-- A number below `n`, drawn from half words without a limit to the tries. -/
def DrawsHalf (n : Nat) : Xoshiro → Nat × Xoshiro → Prop :=
  DrawnUntil (highHalf? span32 n) fun r x => word32 r = x

theorem drawBelow_eq_of_draws (h : Draws n r out) : drawBelow span64 word64 n r = out :=
  drawUntil_eq_of_drawn words_injective card_words_le (fun _ _ => id) h

theorem below_eq_of_draws (hn : n ≠ 0) (h : Draws n r out) : below n r = .ok out := by
  rw [below, if_neg hn, drawBelow_eq_of_draws h]

theorem below32_eq_of_drawsHalf (hn : n ≠ 0) (h : DrawsHalf n r out) : below32 n r = .ok out := by
  rw [below32, if_neg hn, drawBelow,
    drawUntil_eq_of_drawn words_injective card_words_le (fun _ _ => id) h]

theorem drawOther_eq_of_drawn {k : Nat} (hn : n ≠ 0)
    (h : DrawnUntil (Allocation.other? k) (Draws n) r out) :
    Allocation.drawOther n k r = .ok out := by
  have hbelow : ∀ r x, Draws n r x → drawBelow span64 word64 n r = x :=
    fun _ _ => drawBelow_eq_of_draws
  rw [Allocation.drawOther, if_neg hn,
    drawUntil_eq_of_drawn words_injective card_words_le hbelow h]

end Xoshiro
end Random
end NonlinearInteger
