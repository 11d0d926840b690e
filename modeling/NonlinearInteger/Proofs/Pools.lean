import NonlinearInteger.Proofs.Samples

/-!
# Where the moves of a pool come from

Every generator offers candidates only: moves of a variable that is not tabu to
another value within its bounds. What else is known of a move, the rows that its
variable occurs in or the part of the objective, is read off the generator.
-/

namespace NonlinearInteger

/-- A pool whose moves all have a property. -/
def Pool.Only (good : Move → Prop) (pool : Pool) : Prop := ∀ m ∈ pool.entries, good m

theorem Pool.only_empty {good : Move → Prop} : Pool.empty.Only good := by
  simp [Pool.Only, Pool.empty]

namespace Search

variable {ρ : Type} {P : Problem} {s : State ρ} {v : Variable} {x : Int} {good : Move → Prop}
  {pool next : Pool}

/-- A move of a variable that is not tabu to another value within its bounds. -/
structure Candidate (P : Problem) (s : State ρ) (m : Move) : Prop where
  ne : s.assignment.value m.1 ≠ .ok m.2
  admits : s.assignment.admits m.1 m.2 = .ok true
  free : s.isTabu P m.1 = .ok false

/-- A variable has a slot in one of some rows. -/
def OccursIn (P : Problem) (rows : Nat → Prop) (v : Variable) : Prop :=
  ∃ c slot, rows c ∧ Occurs P v c slot

/-- An objective variable that is not at its upper bound. -/
def Unfinished (P : Problem) (s : State ρ) (v : Variable) : Prop :=
  v ∈ P.objectiveVars ∧ s.assignment.value v ≠ s.assignment.ub v

theorem OccursIn.mono {rows others : Nat → Prop} (h : OccursIn P rows v)
    (hrows : ∀ c, rows c → others c) : OccursIn P others v := by
  obtain ⟨c, slot, hc, hoccurs⟩ := h
  exact ⟨c, slot, hrows c hc, hoccurs⟩

theorem Candidate.of_source {source : ρ} {m : Move}
    (h : Candidate P { s with source := source } m) : Candidate P s m :=
  ⟨h.ne, h.admits, h.free⟩

theorem candidate_of_isCandidate (h : isCandidate P s v x = .ok true) : Candidate P s (v, x) := by
  obtain ⟨y, hy, h⟩ := bind_eq_ok.1 h
  split at h
  · cases h
  · rename_i hne
    obtain ⟨admitted, hadmits, h⟩ := bind_eq_ok.1 h
    split at h
    · rename_i htrue
      obtain ⟨tabu, htabu, h⟩ := bind_eq_ok.1 h
      have hfree : tabu = false := by simpa using pure_eq_ok.1 h
      refine ⟨fun hx => hne ?_, htrue ▸ hadmits, hfree ▸ htabu⟩
      exact Except.ok.inj (hx.symm.trans hy)
    · cases h

/-- What is offered is a candidate, or the pool stays. -/
theorem only_of_offer (hpool : pool.Only good) (hgood : Candidate P s (v, x) → good (v, x))
    (h : offer P s pool v x = .ok next) : next.Only good := by
  obtain ⟨candidate, hcandidate, h⟩ := bind_eq_ok.1 h
  split at h
  · rename_i htrue
    have hm := hgood (candidate_of_isCandidate (htrue ▸ hcandidate))
    rw [← pure_eq_ok.1 h, Pool.insert, Pool.push]
    split
    · exact hpool
    · intro m hmem
      rcases Array.mem_push.1 hmem with hmem | rfl
      · exact hpool m hmem
      · exact hm
  · exact pure_eq_ok.1 h ▸ hpool

theorem only_of_offer? {x : Option Int} (hpool : pool.Only good)
    (hgood : ∀ y, Candidate P s (v, y) → good (v, y)) (h : offer? P s pool v x = .ok next) :
    next.Only good := by
  cases x with
  | none => exact pure_eq_ok.1 h ▸ hpool
  | some x => exact only_of_offer hpool (hgood x) h

theorem only_of_offerRow {c : Nat} (hpool : pool.Only good)
    (hgood : ∀ m slot, Occurs P m.1 c slot → Candidate P s m → good m)
    (h : offerRow P s pool c = .ok next) : next.Only good := by
  obtain ⟨row, hrow, h⟩ := bind_eq_ok.1 h
  refine foldlM_keeps h hpool ?_
  rintro pool ⟨v, slot⟩ next hentry hpool hslot
  have hvar := List.mem_zipIdx_iff_getElem?.1 hentry
  rw [Array.getElem?_toList] at hvar
  have hoccurs : Occurs P v c slot := ⟨row, fetch_eq_ok.1 hrow, hvar⟩
  have hgood := fun y hm => hgood (v, y) slot hoccurs hm
  obtain ⟨greatest, -, hslot⟩ := bind_eq_ok.1 hslot
  obtain ⟨least, -, hslot⟩ := bind_eq_ok.1 hslot
  obtain ⟨middle, hmiddle, hslot⟩ := bind_eq_ok.1 hslot
  exact only_of_offer? (only_of_offer? hpool hgood hmiddle) hgood hslot

theorem only_of_movesOn {rows : List Nat} (h : movesOn P s rows = .ok pool) :
    pool.Only fun m => Candidate P s m ∧ OccursIn P (· ∈ rows) m.1 := by
  refine foldlM_keeps h Pool.only_empty ?_
  intro pool c next hc hpool hrow
  exact only_of_offerRow hpool (fun m slot hoccurs hm => ⟨hm, c, slot, hc, hoccurs⟩) hrow

theorem only_of_offerSlack {visited next : List Nat × Pool} {occurrence : Nat × Nat}
    (hvisited : visited.2.Only (Candidate P s))
    (h : offerSlack P s visited occurrence = .ok next) : next.2.Only (Candidate P s) := by
  unfold offerSlack at h
  dsimp only at h
  split at h
  · exact pure_eq_ok.1 h ▸ hvisited
  · obtain ⟨tight, -, h⟩ := bind_eq_ok.1 h
    split at h
    · exact pure_eq_ok.1 h ▸ hvisited
    · obtain ⟨pool, hpool, h⟩ := bind_eq_ok.1 h
      rw [← pure_eq_ok.1 h]
      exact only_of_offerRow hvisited (fun _ _ _ hm => hm) hpool

theorem only_of_improvements (h : improvements P s = .ok pool) : pool.Only (Candidate P s) := by
  obtain ⟨⟨visited, all⟩, hall, h⟩ := bind_eq_ok.1 h
  cases pure_eq_ok.1 h
  refine foldlM_keeps (motive := fun visited : List Nat × Pool => visited.2.Only (Candidate P s))
    hall Pool.only_empty ?_
  rintro ⟨visited, pool⟩ v next - hpool h
  obtain ⟨lb, -, h⟩ := bind_eq_ok.1 h
  obtain ⟨low, hlow, h⟩ := bind_eq_ok.1 h
  obtain ⟨ub, -, h⟩ := bind_eq_ok.1 h
  obtain ⟨high, hhigh, h⟩ := bind_eq_ok.1 h
  obtain ⟨occurrences, -, h⟩ := bind_eq_ok.1 h
  have hbounds : high.Only (Candidate P s) := only_of_offer (only_of_offer hpool id hlow) id hhigh
  refine foldlM_keeps (motive := fun visited : List Nat × Pool => visited.2.Only (Candidate P s))
    h hbounds ?_
  intro visited occurrence next _ hvisited hslack
  exact only_of_offerSlack hvisited hslack

theorem only_of_boundMoves (h : boundMoves P s = .ok pool) :
    pool.Only fun m => Candidate P s m ∧ Unfinished P s m.1 := by
  refine foldlM_keeps h Pool.only_empty ?_
  intro pool v next hv hpool h
  obtain ⟨ub, hub, h⟩ := bind_eq_ok.1 h
  obtain ⟨current, hcurrent, h⟩ := bind_eq_ok.1 h
  split at h
  · exact pure_eq_ok.1 h ▸ hpool
  · rename_i hne
    refine only_of_offer hpool (fun hm => ⟨hm, hv, ?_⟩) h
    rw [hcurrent, hub]
    exact fun heq => hne (Except.ok.inj heq)

theorem only_of_offerRise {current : Int} {occurrence : Nat × Nat} (hpool : pool.Only good)
    (hgood : ∀ y, Candidate P s (v, y) → good (v, y))
    (h : offerRise P s v current pool occurrence = .ok next) : next.Only good := by
  obtain ⟨tight, -, h⟩ := bind_eq_ok.1 h
  split at h
  · exact pure_eq_ok.1 h ▸ hpool
  · obtain ⟨greatest, -, h⟩ := bind_eq_ok.1 h
    cases greatest with
    | none => exact pure_eq_ok.1 h ▸ hpool
    | some x =>
      dsimp only at h
      split at h
      · exact only_of_offer hpool (hgood x) h
      · exact pure_eq_ok.1 h ▸ hpool

theorem only_of_rises (h : rises P s = .ok pool) :
    pool.Only fun m => Candidate P s m ∧ Unfinished P s m.1 := by
  refine foldlM_keeps h Pool.only_empty ?_
  intro pool v next hv hpool h
  obtain ⟨current, hcurrent, h⟩ := bind_eq_ok.1 h
  obtain ⟨ub, hub, h⟩ := bind_eq_ok.1 h
  split at h
  · exact pure_eq_ok.1 h ▸ hpool
  · rename_i hne
    have hunfinished : Unfinished P s v := by
      refine ⟨hv, ?_⟩
      rw [hcurrent, hub]
      exact fun heq => hne (Except.ok.inj heq)
    obtain ⟨tabu, -, h⟩ := bind_eq_ok.1 h
    split at h
    · exact pure_eq_ok.1 h ▸ hpool
    · obtain ⟨occurrences, -, h⟩ := bind_eq_ok.1 h
      refine foldlM_keeps h hpool ?_
      intro pool occurrence next _ hpool hrise
      exact only_of_offerRise hpool (fun _ hm => ⟨hm, hunfinished⟩) hrise

theorem mem_gatherAll {α β : Type} {find : α → ρ → Checked (List β × ρ)} {as : List α}
    {source rest : ρ} {found : List β} (h : gatherAll find as source = .ok (found, rest)) :
    ∀ b ∈ found, ∃ a ∈ as, ∃ source part rest, find a source = .ok (part, rest) ∧ b ∈ part := by
  induction as generalizing source found rest with
  | nil =>
    cases h
    simp
  | cons a as ih =>
    obtain ⟨⟨first, source'⟩, hfirst, h⟩ := bind_eq_ok.1 h
    obtain ⟨⟨others, source''⟩, hothers, h⟩ := bind_eq_ok.1 h
    cases pure_eq_ok.1 h
    intro b hb
    rcases List.mem_append.1 hb with hb | hb
    · exact ⟨a, List.mem_cons_self, source, first, source', hfirst, hb⟩
    · obtain ⟨a', ha', hrest⟩ := ih hothers b hb
      exact ⟨a', List.mem_cons_of_mem a ha', hrest⟩

variable [RandomSource ρ]

theorem ne_of_freeSpots {source rest : ρ} {spots : List Spot} {spot : Spot}
    (h : freeSpots P s v source = .ok (spots, rest)) (hspot : spot ∈ spots) :
    s.assignment.value v ≠ s.assignment.ub v := by
  obtain ⟨current, hcurrent, h⟩ := bind_eq_ok.1 h
  obtain ⟨ub, hub, h⟩ := bind_eq_ok.1 h
  split at h
  · cases pure_eq_ok.1 h
    cases hspot
  · rename_i hne
    rw [hcurrent, hub]
    exact fun heq => hne (Except.ok.inj heq)

theorem isObjective_of_rivalsAt {source rest : ρ} {spot : Spot}
    {rivals : List (Variable × Direction)} {rival : Variable × Direction}
    (h : rivalsAt P s spot source = .ok (rivals, rest)) (hrival : rival ∈ rivals) :
    P.isObjective[rival.1]? = some false := by
  obtain ⟨row, -, h⟩ := bind_eq_ok.1 h
  obtain ⟨cache, -, h⟩ := bind_eq_ok.1 h
  split at h
  · split at h
    · cases pure_eq_ok.1 h
      cases hrival
    · obtain ⟨⟨slots, source'⟩, -, h⟩ := bind_eq_ok.1 h
      obtain ⟨kept, hkept, h⟩ := bind_eq_ok.1 h
      cases pure_eq_ok.1 h
      obtain ⟨⟨u, slot⟩, -, hfound⟩ := (mem_filterMapM hkept).1 hrival
      obtain ⟨objective, hobjective, hfound⟩ := bind_eq_ok.1 hfound
      cases objective with
      | true => cases pure_eq_ok.1 hfound
      | false =>
        cases pure_eq_ok.1 hfound
        exact fetch_eq_ok.1 hobjective
  · obtain ⟨slope, -, h⟩ := bind_eq_ok.1 h
    split at h
    · cases pure_eq_ok.1 h
      cases hrival
    · obtain ⟨⟨slots, source'⟩, -, h⟩ := bind_eq_ok.1 h
      obtain ⟨kept, hkept, h⟩ := bind_eq_ok.1 h
      cases pure_eq_ok.1 h
      obtain ⟨⟨u, slot⟩, -, hfound⟩ := (mem_filterMapM hkept).1 hrival
      obtain ⟨objective, hobjective, hfound⟩ := bind_eq_ok.1 hfound
      cases objective with
      | true => cases pure_eq_ok.1 hfound
      | false =>
        obtain ⟨slope, -, hfound⟩ := bind_eq_ok.1 hfound
        cases pure_eq_ok.1 hfound
        exact fetch_eq_ok.1 hobjective

theorem only_of_offerRival {d : Direction} {source rest : ρ} (hpool : pool.Only good)
    (hgood : ∀ y, Candidate P s (v, y) → good (v, y))
    (h : offerRival P s v d pool source = .ok (next, rest)) : next.Only good := by
  obtain ⟨⟨spots, source'⟩, -, h⟩ := bind_eq_ok.1 h
  obtain ⟨all, hall, h⟩ := bind_eq_ok.1 h
  cases pure_eq_ok.1 h
  refine foldlM_keeps hall hpool ?_
  intro pool spot next _ hpool h
  obtain ⟨x, -, h⟩ := bind_eq_ok.1 h
  exact only_of_offer? hpool hgood h

/-- Sampled moves are of variables outside the objective, and there are none unless
an objective variable can still rise. -/
theorem only_of_sampled {source rest : ρ} (h : sampled P s source = .ok (pool, rest)) :
    pool.Only fun m => Candidate P s m ∧ P.isObjective[m.1]? = some false ∧
      ∃ v, Unfinished P s v := by
  obtain ⟨⟨spots, source'⟩, hspots, h⟩ := bind_eq_ok.1 h
  obtain ⟨⟨targets, source''⟩, htargets, h⟩ := bind_eq_ok.1 h
  refine foldlM_keeps (motive := fun found : Pool × ρ => found.1.Only fun m => Candidate P s m ∧
    P.isObjective[m.1]? = some false ∧ ∃ v, Unfinished P s v) h Pool.only_empty ?_
  rintro ⟨pool, source⟩ ⟨u, d⟩ ⟨next, rest⟩ htarget hpool h
  obtain ⟨spot, hspot, _, rivals, _, hrivals, hmem⟩ := mem_gatherAll htargets _ htarget
  obtain ⟨v, hv, _, found, _, hfound, hspot⟩ := mem_gatherAll hspots _ hspot
  have hobjective := isObjective_of_rivalsAt hrivals hmem
  have hunfinished : ∃ v, Unfinished P s v := ⟨v, hv, ne_of_freeSpots hfound hspot⟩
  exact only_of_offerRival hpool (fun _ hm => ⟨hm, hobjective, hunfinished⟩) h

end Search
end NonlinearInteger
