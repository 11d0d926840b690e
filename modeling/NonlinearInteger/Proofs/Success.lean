import NonlinearInteger.Random.Source

/-!
# Computations that succeed

A computation that can fail is described by what holds of its result, where
having a result is part of the description. Sequences and loops are put
together from the descriptions of their steps.
-/

namespace NonlinearInteger

variable {ε α β : Type}

/-- A computation ends with a result of which `post` holds. -/
def Succeeds (x : Except ε α) (post : α → Prop) : Prop := ∃ a, x = .ok a ∧ post a

namespace Succeeds

variable {x : Except ε α} {mid post : α → Prop}

theorem of_pure {a : α} (h : post a) : Succeeds (pure a : Except ε α) post := ⟨a, rfl, h⟩

theorem bind {f : α → Except ε β} {post : β → Prop} (hx : Succeeds x mid)
    (hf : ∀ a, mid a → Succeeds (f a) post) : Succeeds (x >>= f) post := by
  obtain ⟨a, rfl, ha⟩ := hx
  exact hf a ha

theorem next {f : α → Except ε β} {post : β → Prop} {a : α} (hx : x = .ok a)
    (hf : Succeeds (f a) post) : Succeeds (x >>= f) post := by
  subst hx
  exact hf

theorem bind_ite {c : Prop} [Decidable c] {y : Except ε α} {f : α → Except ε β} {post : β → Prop}
    (h : Succeeds (if c then x else y) mid) (hf : ∀ a, mid a → Succeeds (f a) post) :
    Succeeds (if c then x >>= f else y >>= f) post := by
  split at h
  · rw [if_pos ‹c›]
    exact h.bind hf
  · rw [if_neg ‹¬c›]
    exact h.bind hf

theorem mono (hx : Succeeds x mid) (h : ∀ a, mid a → post a) : Succeeds x post := by
  obtain ⟨a, rfl, ha⟩ := hx
  exact ⟨a, rfl, h a ha⟩

theorem apply {a : α} (hx : Succeeds x post) (h : x = .ok a) : post a := by
  obtain ⟨b, hb, hpost⟩ := hx
  rw [h] at hb
  cases hb
  exact hpost

/-- A loop succeeds when every step keeps what holds at the start. -/
theorem foldlM {motive : β → Prop} {f : β → α → Except ε β} {as : List α} {b : β}
    (start : motive b) (step : ∀ b a, a ∈ as → motive b → Succeeds (f b a) motive) :
    Succeeds (as.foldlM f b) motive := by
  induction as generalizing b with
  | nil => exact of_pure start
  | cons a as ih =>
    rw [List.foldlM_cons]
    refine (step b a List.mem_cons_self start).bind fun c hc => ih hc ?_
    exact fun b a' ha' => step b a' (List.mem_cons_of_mem a ha')

/-- A loop each of whose steps narrows down what its result admits. -/
theorem foldlM_narrows {γ : Type} {admits : β → γ → Prop} {passes : α → γ → Prop}
    {f : β → α → Except ε β} {as : List α}
    (step : ∀ a ∈ as, ∀ b, Succeeds (f b a) fun c => ∀ x, admits c x ↔ admits b x ∧ passes a x)
    (b : β) : Succeeds (as.foldlM f b) fun c =>
      ∀ x, admits c x ↔ admits b x ∧ ∀ a ∈ as, passes a x := by
  induction as generalizing b with
  | nil => exact of_pure (by simp)
  | cons a as ih =>
    rw [List.foldlM_cons]
    apply (step a List.mem_cons_self b).bind
    intro c hc
    apply (ih (fun a' ha' => step a' (List.mem_cons_of_mem a ha')) c).mono
    intro d hd x
    rw [hd x, hc x, List.forall_mem_cons, and_assoc]

theorem filterMapM {f : α → Except ε (Option β)} {as : List α} {p : β → Prop}
    (step : ∀ a ∈ as, Succeeds (f a) fun b => ∀ x, b = some x → p x) :
    Succeeds (as.filterMapM f) fun bs => ∀ x ∈ bs, p x := by
  induction as with
  | nil => exact of_pure (by simp)
  | cons a as ih =>
    rw [List.filterMapM_cons]
    apply (step a List.mem_cons_self).bind
    intro b hb
    have hrest := ih fun a' ha' => step a' (List.mem_cons_of_mem a ha')
    cases b with
    | none => exact hrest
    | some x =>
      refine hrest.bind fun bs hbs => of_pure ?_
      intro y hy
      rcases List.mem_cons.1 hy with rfl | hy
      · exact hb y rfl
      · exact hbs y hy

theorem forM {f : α → Except ε PUnit} {as : List α} (step : ∀ a ∈ as, f a = .ok ⟨⟩) :
    as.forM f = .ok ⟨⟩ := by
  induction as with
  | nil => rfl
  | cons a as ih =>
    change (f a >>= fun _ => as.forM f) = .ok ⟨⟩
    rw [step a List.mem_cons_self]
    exact ih fun a' ha' => step a' (List.mem_cons_of_mem a ha')

/-- A loop over a table that changes one entry at a time, each at most once. What
holds of the changed entries is known at the end, and the others are as before. -/
theorem foldlM_update {f : Array α → β → Except ε (Array α)} (key : β → Nat)
    (done : β → α → Prop) {bs : List β} {a : Array α} (hkeys : (bs.map key).Nodup)
    (step : ∀ b ∈ bs, ∀ t : Array α, t.size = a.size → t[key b]? = a[key b]? →
      Succeeds (f t b) fun u => u.size = t.size ∧ (∃ x, u[key b]? = some x ∧ done b x) ∧
        ∀ i, i ≠ key b → u[i]? = t[i]?) :
    Succeeds (bs.foldlM f a) fun u => u.size = a.size ∧
      (∀ b ∈ bs, ∃ x, u[key b]? = some x ∧ done b x) ∧
      ∀ i, i ∉ bs.map key → u[i]? = a[i]? := by
  induction bs generalizing a with
  | nil => exact of_pure ⟨rfl, by simp, fun _ _ => rfl⟩
  | cons b bs ih =>
    rw [List.map_cons, List.nodup_cons] at hkeys
    rw [List.foldlM_cons]
    apply (step b List.mem_cons_self a rfl rfl).bind
    intro t ht
    obtain ⟨hsize, hdone, hsame⟩ := ht
    have hlater : ∀ b' ∈ bs, t[key b']? = a[key b']? := fun b' hb' =>
      hsame (key b') fun h => hkeys.1 (h ▸ List.mem_map_of_mem hb')
    refine (ih hkeys.2 fun b' hb' u hu heq => ?_).mono fun u hu => ?_
    · exact step b' (List.mem_cons_of_mem b hb') u (hu.trans hsize) (heq.trans (hlater b' hb'))
    · obtain ⟨husize, hudone, husame⟩ := hu
      refine ⟨husize.trans hsize, ?_, ?_⟩
      · intro b' hb'
        rcases List.mem_cons.1 hb' with rfl | hb'
        · rw [husame (key b') hkeys.1]
          exact hdone
        · exact hudone b' hb'
      · intro i hi
        rw [List.map_cons, List.mem_cons, not_or] at hi
        rw [husame i hi.2, hsame i hi.1]

end Succeeds

theorem mapError_eq_ok {ε' : Type} {x : Except ε α} {f : ε → ε'} {a : α} :
    x.mapError f = .ok a ↔ x = .ok a := by
  cases x with
  | error cause => constructor <;> rintro ⟨⟩
  | ok b => constructor <;> rintro ⟨⟩ <;> rfl

theorem Succeeds.lift {ε' : Type} {x : Except ε α} {f : ε → ε'} {post : α → Prop}
    (h : Succeeds x post) : Succeeds (x.mapError f) post := by
  obtain ⟨a, rfl, ha⟩ := h
  exact ⟨a, rfl, ha⟩

theorem toOption_eq_some_iff {x : Except ε α} {a : α} : x.toOption = some a ↔ x = .ok a := by
  cases x <;> simp [Except.toOption]

theorem bind_ite_eq_ok {c : Prop} [Decidable c] {x y : Except ε α} {f : α → Except ε β} {b : β} :
    (if c then x >>= f else y >>= f) = .ok b ↔
      ∃ a, (if c then x else y) = .ok a ∧ f a = .ok b := by
  split
  · exact bind_eq_ok
  · exact bind_eq_ok

theorem mem_filterMapM {f : α → Except ε (Option β)} {as : List α} {bs : List β}
    (h : as.filterMapM f = .ok bs) {b : β} : b ∈ bs ↔ ∃ a ∈ as, f a = .ok (some b) := by
  induction as generalizing bs with
  | nil =>
    cases h
    simp
  | cons a as ih =>
    rw [List.filterMapM_cons] at h
    obtain ⟨found, hfound, h⟩ := bind_eq_ok.1 h
    cases found with
    | none => simp [ih h, hfound]
    | some x =>
      obtain ⟨rest, hrest, h⟩ := bind_eq_ok.1 h
      rw [← pure_eq_ok.1 h]
      simp [ih hrest, hfound, eq_comm]

theorem fetch_eq_ok {a : Array α} {i : Nat} {x : α} : fetch a i = .ok x ↔ a[i]? = some x := by
  unfold fetch
  split <;> simp_all

theorem succeeds_store {a : Array α} {i : Nat} (x : α) (h : i < a.size) :
    Succeeds (store a i x) fun b =>
      b.size = a.size ∧ ∀ j, b[j]? = if j = i then some x else a[j]? := by
  refine ⟨a.set i x h, store_of_lt h, by simp, fun j => ?_⟩
  rw [Array.getElem?_set]
  by_cases hj : j = i <;> simp [hj, Ne.symm]

/-- What is stored is found again, and the other entries are as before. -/
theorem succeeds_store_apart {a : Array α} {i : Nat} (x : α) (h : i < a.size) :
    Succeeds (store a i x) fun b =>
      b.size = a.size ∧ b[i]? = some x ∧ ∀ j, j ≠ i → b[j]? = a[j]? := by
  apply (succeeds_store x h).mono
  intro b hb
  refine ⟨hb.1, by simp [hb.2], ?_⟩
  intro j hj
  rw [hb.2, if_neg hj]

theorem getElem?_of_store {a b : Array α} {i : Nat} {x : α} (h : store a i x = .ok b) :
    b.size = a.size ∧ ∀ j, b[j]? = if j = i then some x else a[j]? := by
  by_cases hi : i < a.size
  · exact (succeeds_store x hi).apply h
  · simp [store, hi] at h

theorem Random.succeeds_below {ρ : Type} [RandomSource ρ] {n : Nat} (hn : 0 < n) (r : ρ) :
    Succeeds (Random.below n r) (·.1 < n) := by
  have hbelow : Random.below n r = .ok (drawBelow span64 word64 n r) :=
    if_neg (Nat.ne_of_gt hn)
  exact ⟨_, hbelow, Random.below_lt hbelow⟩

end NonlinearInteger
