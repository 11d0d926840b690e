import NonlinearInteger.Allocation.Table
import NonlinearInteger.Proofs.Success
import Mathlib.Data.List.Basic

/-!
# Drawn tables

Whatever a source yields, a table is drawn from it, and it fits the difficulty: there is
a need for each demand, at most one offer for each user and supply, and no ratio compares
a demand with itself.
-/

namespace NonlinearInteger.Allocation

open NonlinearInteger.Random

/-- A table within the sizes of a difficulty. -/
structure Table.Fits (t : Table) (d : Difficulty) : Prop where
  length_needs : t.needs.length = d.demands
  needs : ∀ need ∈ t.needs, 1 ≤ need ∧ need ≤ maxNeed
  offers : (t.offers.map fun o => (o.user, o.supply)).Sublist (pairs d)
  casts : ∀ o ∈ t.offers, 1 ≤ o.casts ∧ o.casts ≤ maxCasts
  demands : ∀ o ∈ t.offers, o.demands.Sublist (List.range d.demands)
  query_lt : t.query < d.demands
  ratios : ∀ r ∈ t.ratios, r.supply < d.supplies ∧ r.first < d.demands ∧ r.second < d.demands ∧
    r.first ≠ r.second

variable {ρ : Type} {α β : Type} {mid post : α → Prop}

/-- A draw that succeeds on every source, with a result of which `post` holds. -/
def Draws (x : Draw ρ α) (post : α → Prop) : Prop :=
  ∀ r, Succeeds (x.run r) fun result => post result.1

namespace Draws

theorem of_pure {a : α} (h : post a) : Draws (pure a : Draw ρ α) post := fun _ => .of_pure h

theorem bind {x : Draw ρ α} {f : α → Draw ρ β} {post : β → Prop} (hx : Draws x mid)
    (hf : ∀ a, mid a → Draws (f a) post) : Draws (x >>= f) post :=
  fun r => (hx r).bind fun result hresult => hf result.1 hresult result.2

theorem mono {x : Draw ρ α} (hx : Draws x mid) (h : ∀ a, mid a → post a) : Draws x post :=
  fun r => (hx r).mono fun result => h result.1

end Draws

variable [RandomSource ρ]

theorem draws_below {n : Nat} (hn : 0 < n) : Draws (below n : Draw ρ Nat) (· < n) :=
  succeeds_below hn

theorem draws_chance (percent : Nat) :
    Draws (drawChance percent : Draw ρ Bool) fun _ => True := by
  have hbelow : Draws (below32 100 : Draw ρ Nat) fun _ => True := fun r => ⟨_, rfl, trivial⟩
  exact hbelow.bind fun _ _ => .of_pure trivial

theorem draws_positive {n : Nat} (hn : 0 < n) :
    Draws (drawPositive n : Draw ρ Nat) fun k => 1 ≤ k ∧ k ≤ n :=
  (draws_below hn).bind fun _ hk => .of_pure ⟨by omega, hk⟩

omit [RandomSource ρ] in
theorem draws_many {draw : Draw ρ α} (h : Draws draw post) (n : Nat) :
    Draws (drawMany draw n) fun as => as.length = n ∧ ∀ a ∈ as, post a := by
  induction n with
  | zero => exact .of_pure ⟨rfl, by simp⟩
  | succ n ih =>
    refine h.bind fun a ha => ih.bind fun rest hrest => .of_pure ?_
    exact ⟨by simp [hrest.1], List.forall_mem_cons.2 ⟨ha, hrest.2⟩⟩

theorem draws_sublist (percent : Nat) (as : List α) :
    Draws (drawSublist percent as : Draw ρ (List α)) (·.Sublist as) := by
  induction as with
  | nil => exact .of_pure .slnil
  | cons a as ih =>
    refine (draws_chance percent).bind fun chosen _ => ih.bind fun rest hrest => .of_pure ?_
    split
    · exact hrest.cons_cons a
    · exact hrest.cons a

/-- An offer of a user with a supply. -/
structure Offer.Fits (o : Offer) (demands : Nat) : Prop where
  casts : 1 ≤ o.casts ∧ o.casts ≤ maxCasts
  demands : o.demands.Sublist (List.range demands)

theorem draws_offer (demands user supply : Nat) :
    Draws (drawOffer demands user supply : Draw ρ (Option Offer)) fun offer =>
      ∀ o ∈ offer, (o.user, o.supply) = (user, supply) ∧ o.Fits demands := by
  refine (draws_chance offerPercent).bind fun chosen _ => ?_
  split
  · refine (draws_sublist demandPercent (List.range demands)).bind fun served hserved => ?_
    refine (draws_positive (by decide)).bind fun casts hcasts => .of_pure ?_
    rintro o ⟨⟩
    exact ⟨rfl, hcasts, hserved⟩
  · exact .of_pure (by simp)

theorem draws_offers (demands : Nat) (pairs : List (Nat × Nat)) :
    Draws (drawOffers demands pairs : Draw ρ (List Offer)) fun offers =>
      (offers.map fun o => (o.user, o.supply)).Sublist pairs ∧ ∀ o ∈ offers, o.Fits demands := by
  induction pairs with
  | nil => exact .of_pure ⟨.slnil, by simp⟩
  | cons pair pairs ih =>
    obtain ⟨user, supply⟩ := pair
    refine (draws_offer demands user supply).bind fun offer hoffer => ?_
    refine ih.bind fun rest hrest => .of_pure ?_
    cases offer with
    | none => exact ⟨hrest.1.cons _, hrest.2⟩
    | some o =>
      obtain ⟨hpair, hfits⟩ := hoffer o rfl
      refine ⟨?_, List.forall_mem_cons.2 ⟨hfits, hrest.2⟩⟩
      rw [← hpair]
      exact hrest.1.cons_cons _

/-- When no draw differs from `k`, the next number does. -/
theorem draws_other {n k : Nat} (hn : 2 ≤ n) (hk : k < n) :
    Draws (drawOther n k : Draw ρ Nat) fun j => j < n ∧ k ≠ j := by
  intro r
  refine ⟨_, if_neg (by omega), drawUntil_of (motive := fun j => j < n ∧ k ≠ j) ?_ ?_ retries r⟩
  · intro r j hj
    unfold other? at hj
    split at hj
    · cases hj
    · cases hj
      exact ⟨drawBelow_lt (fun r => UInt64.toNat_lt _) (by omega) r, Ne.symm ‹_›⟩
  · intro r
    refine ⟨Nat.mod_lt _ (by omega), fun heq => ?_⟩
    rcases Nat.lt_or_ge (k + 1) n with hlt | hge
    · rw [Nat.mod_eq_of_lt hlt] at heq
      omega
    · rw [show k + 1 = n by omega, Nat.mod_self] at heq
      omega

theorem draws_ratio {d : Difficulty} (hsupplies : 0 < d.supplies) (hdemands : 2 ≤ d.demands) :
    Draws (drawRatio d : Draw ρ Ratio) fun r => r.supply < d.supplies ∧ r.first < d.demands ∧
      r.second < d.demands ∧ r.first ≠ r.second := by
  refine (draws_below hsupplies).bind fun supply hsupply => ?_
  refine (draws_below (by omega)).bind fun first hfirst => ?_
  exact (draws_other hdemands hfirst).bind fun second hsecond =>
    .of_pure ⟨hsupply, hfirst, hsecond⟩

/-- A table is drawn on every source, and it fits. -/
theorem draws_table {d : Difficulty} (hd : d.isProper = true) :
    Draws (drawTable d : Draw ρ Table) (·.Fits d) := by
  simp only [Difficulty.isProper, Bool.and_eq_true, bne_iff_ne] at hd
  have hratios : Draws (drawMany (drawRatio d) (if 2 ≤ d.demands then d.ratios else 0) :
      Draw ρ (List Ratio)) fun ratios => ∀ r ∈ ratios, r.supply < d.supplies ∧
        r.first < d.demands ∧ r.second < d.demands ∧ r.first ≠ r.second := by
    split
    · exact (draws_many (draws_ratio (by omega) ‹_›) d.ratios).mono fun _ h => h.2
    · exact .of_pure (by simp)
  refine (draws_many (draws_positive (by decide)) d.demands).bind fun needs hneeds => ?_
  refine (draws_offers d.demands (pairs d)).bind fun offers hoffers => ?_
  refine (draws_below (by omega)).bind fun query hquery => ?_
  refine hratios.bind fun ratios hratios => .of_pure ?_
  exact {
    length_needs := hneeds.1
    needs := hneeds.2
    offers := hoffers.1
    casts := fun o ho => (hoffers.2 o ho).casts
    demands := fun o ho => (hoffers.2 o ho).demands
    query_lt := hquery
    ratios := hratios }

end NonlinearInteger.Allocation
