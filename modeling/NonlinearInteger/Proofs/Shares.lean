import NonlinearInteger.Allocation.Instance
import NonlinearInteger.Proofs.DrawnTables
import NonlinearInteger.Proofs.Texts
import Mathlib.Algebra.Order.Ring.Int
import Mathlib.Data.List.Nodup
import Mathlib.Data.Set.Function

/-!
# Shares and their variables

A share is what a user casts of a supply for a demand that their offer serves. Its
variable is its position among all shares, and its name tells it from all others. What
is spent on an offer or given to a demand is a sum of the values of shares.
-/

namespace NonlinearInteger.Allocation

theorem numeral_inj {m n : Nat} (h : (toString m).toList = (toString n).toList) : m = n := by
  have hread := Text.natOfDigits?_toString m
  rw [h, Text.natOfDigits?_toString] at hread
  exact (Option.some.inj hread).symm

/-- A numeral ends where a letter follows. -/
theorem numeral_append_inj {m n : Nat} {letter : Char} (hletter : letter.isDigit = false)
    {as bs : List Char}
    (h : (toString m).toList ++ letter :: as = (toString n).toList ++ letter :: bs) :
    m = n ∧ as = bs := by
  have hdigits : ∀ (k : Nat) (cs : List Char),
      ((toString k).toList ++ letter :: cs).takeWhile Char.isDigit = (toString k).toList := by
    intro k cs
    rw [List.takeWhile_append_of_pos fun c hc => Text.isDigit_of_mem_repr hc,
      List.takeWhile_cons_of_neg (by simp [hletter]), List.append_nil]
  have hnumeral : (toString m).toList = (toString n).toList := by
    rw [← hdigits m as, h, hdigits]
  rw [hnumeral] at h
  exact ⟨numeral_inj hnumeral, (List.cons.inj (List.append_cancel_left h)).2⟩

theorem Share.name_injective : Function.Injective Share.name := by
  intro a b h
  have hchars : ∀ s : Share, s.name.toList = 'U' :: ((toString s.user).toList ++ 'S' ::
      ((toString s.supply).toList ++ 'D' :: (toString s.demand).toList)) := by
    intro s
    simp [Share.name]
  have h := congrArg String.toList h
  rw [hchars, hchars] at h
  obtain ⟨huser, h⟩ := numeral_append_inj (by decide) (List.cons.inj h).2
  obtain ⟨hsupply, h⟩ := numeral_append_inj (by decide) h
  obtain ⟨user, supply, demand⟩ := a
  cases huser
  cases hsupply
  cases numeral_inj h
  rfl

theorem Offer.mem_shares (o : Offer) {s : Share} :
    s ∈ o.shares ↔ o.user = s.user ∧ o.supply = s.supply ∧ s.demand ∈ o.demands := by
  obtain ⟨user, supply, demand⟩ := s
  simp only [Offer.shares, List.mem_map, Share.mk.injEq]
  constructor
  · rintro ⟨served, hserved, rfl, rfl, rfl⟩
    exact ⟨rfl, rfl, hserved⟩
  · rintro ⟨rfl, rfl, hserved⟩
    exact ⟨demand, hserved, rfl, rfl, rfl⟩

namespace Table

variable {t : Table} {d : Difficulty}

/-- The variable of a share. -/
def varOf (t : Table) (s : Share) : Variable := t.shares.idxOf s

/-- The value of a share under an assignment of the variables. -/
def value (t : Table) (σ : Variable → Int) (s : Share) : Int := σ (t.varOf s)

/-- The offers that serve a demand. -/
def contributors (t : Table) (demand : Nat) : List Offer :=
  t.offers.filter fun o => o.demands.elem demand

/-- What some offers give to a demand. -/
def given (t : Table) (σ : Variable → Int) (offers : List Offer) (demand : Nat) : Int :=
  (offers.map fun o => t.value σ ⟨o.user, o.supply, demand⟩).sum

/-- What all offers give to a demand. -/
def received (t : Table) (σ : Variable → Int) (demand : Nat) : Int :=
  t.given σ (t.contributors demand) demand

/-- What the offers of one supply give to a demand. -/
def portion (t : Table) (σ : Variable → Int) (supply demand : Nat) : Int :=
  t.given σ ((t.contributors demand).filter fun o => o.supply == supply) demand

/-- What is cast on an offer, over all the demands that it serves. -/
def spent (t : Table) (σ : Variable → Int) (o : Offer) : Int :=
  (o.demands.map fun demand => t.value σ ⟨o.user, o.supply, demand⟩).sum

/-- Whether a demand is in the offer of a user and a supply. -/
def Serves (t : Table) (s : Share) : Prop :=
  ∃ o ∈ t.offers, o.user = s.user ∧ o.supply = s.supply ∧ s.demand ∈ o.demands

theorem mem_shares {s : Share} : s ∈ t.shares ↔ t.Serves s := by
  rw [shares, List.mem_flatMap, Serves]
  exact exists_congr fun o => and_congr_right fun _ => o.mem_shares

theorem nodup_pairs (d : Difficulty) : (pairs d).Nodup :=
  List.nodup_range.product List.nodup_range

theorem Fits.nodup_offers (h : t.Fits d) : (t.offers.map fun o => (o.user, o.supply)).Nodup :=
  h.offers.nodup (nodup_pairs d)

theorem Fits.offer_inj (h : t.Fits d) {o o' : Offer} (ho : o ∈ t.offers) (ho' : o' ∈ t.offers)
    (huser : o.user = o'.user) (hsupply : o.supply = o'.supply) : o = o' :=
  List.inj_on_of_nodup_map h.nodup_offers ho ho' (Prod.ext huser hsupply)

theorem Fits.nodup_shares (h : t.Fits d) : t.shares.Nodup := by
  rw [shares, List.nodup_flatMap]
  constructor
  · intro o ho
    refine ((h.demands o ho).nodup List.nodup_range).map fun a b hab => ?_
    exact (Share.mk.inj hab).2.2
  · refine (List.pairwise_map.1 h.nodup_offers).imp fun {o p} hdiffer => ?_
    intro s hs hs'
    obtain ⟨x, -, rfl⟩ := List.mem_map.1 hs
    obtain ⟨y, -, hsame⟩ := List.mem_map.1 hs'
    obtain ⟨huser, hsupply, -⟩ := Share.mk.inj hsame
    exact hdiffer (Prod.ext huser.symm hsupply.symm)

/-- There is one variable for each demand that is in an offer. -/
theorem Fits.bijOn_varOf (h : t.Fits d) :
    Set.BijOn t.varOf {s | t.Serves s} {v | v < t.shares.length} := by
  refine ⟨fun s hs => ?_, fun s hs s' _ heq => ?_, fun v hv => ?_⟩
  · exact List.idxOf_lt_length_iff.2 (mem_shares.2 hs)
  · exact (List.idxOf_inj (mem_shares.2 hs)).1 heq
  · exact ⟨t.shares.get ⟨v, hv⟩, mem_shares.1 (List.getElem_mem hv), h.nodup_shares.idxOf_getElem v hv⟩

/-- The shares with a property have their positions for variables. -/
theorem variablesWhere_eq (h : t.shares.Nodup) (p : Share → Bool) :
    t.variablesWhere p = (t.shares.filter p).map t.varOf := by
  have hzip : t.shares.zipIdx = t.shares.map fun s => (s, t.varOf s) := by
    refine List.ext_getElem (by simp) fun i hi _ => ?_
    have hi : i < t.shares.length := by simpa using hi
    simp [varOf, h.idxOf_getElem i hi]
  rw [variablesWhere, hzip, List.filter_map, List.map_map]
  rfl

/-- The shares of a demand are those of the offers that serve it, one of each. -/
theorem filter_shares_demand (h : t.Fits d) (demand : Nat) :
    t.shares.filter (fun s => s.demand == demand) =
      (t.contributors demand).map fun o => ⟨o.user, o.supply, demand⟩ := by
  have hoffer : ∀ o ∈ t.offers, o.shares.filter (fun s => s.demand == demand) =
      if o.demands.elem demand then [⟨o.user, o.supply, demand⟩] else [] := by
    intro o ho
    have hnodup := (h.demands o ho).nodup List.nodup_range
    rw [Offer.shares, List.filter_map, Function.comp_def, List.filter_beq]
    split
    · rw [List.count_eq_one_of_mem hnodup (List.elem_iff.1 ‹_›)]
      rfl
    · rw [List.count_eq_zero_of_not_mem (mt List.elem_iff.2 ‹_›)]
      rfl
  rw [shares, contributors, List.filter_flatMap]
  generalize t.offers = offers at hoffer
  induction offers with
  | nil => rfl
  | cons o offers ih =>
    have hrest := ih fun p hp => hoffer p (List.mem_cons_of_mem o hp)
    rw [List.flatMap_cons, hoffer o List.mem_cons_self, hrest, List.filter_cons]
    split <;> rfl

theorem filter_shares_supply (h : t.Fits d) (demand supply : Nat) :
    t.shares.filter (fun s => s.demand == demand && s.supply == supply) =
      ((t.contributors demand).filter fun o => o.supply == supply).map
        fun o => ⟨o.user, o.supply, demand⟩ := by
  have hboth : ∀ s : Share, (s.demand == demand && s.supply == supply) =
      (s.supply == supply && s.demand == demand) := fun s => Bool.and_comm _ _
  simp only [hboth]
  rw [← List.filter_filter, filter_shares_demand h, List.filter_map]
  rfl

end Table
end NonlinearInteger.Allocation
