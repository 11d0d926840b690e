import NonlinearInteger.Search.Sampling
import NonlinearInteger.Proofs.Offers

/-!
# Samples

What is sampled comes from the list that is sampled, and nothing is drawn from an
empty one. So the spots and rivals that are looked at exist, and the moves of
rivals are allowed.
-/

namespace NonlinearInteger.Search

variable {ρ : Type} [RandomSource ρ]

theorem succeeds_drawEntries {α : Type} {entries : Array α} (h : 0 < entries.size) (n : Nat)
    (source : ρ) : Succeeds (drawEntries entries n source) fun drawn => ∀ a ∈ drawn.1,
      a ∈ entries := by
  induction n generalizing source with
  | zero => exact ⟨_, rfl, by simp⟩
  | succ n ih =>
    unfold drawEntries
    apply (Random.succeeds_below h source).bind
    rintro ⟨i, source⟩ hi
    apply Succeeds.next (fetch_of_lt hi)
    apply (ih source).bind
    rintro ⟨rest, source⟩ hrest
    apply Succeeds.of_pure
    intro a ha
    rcases List.mem_cons.1 ha with rfl | ha
    · exact Array.getElem_mem hi
    · exact hrest a ha

theorem succeeds_sample {α : Type} (cap : Nat) (entries : Array α) (source : ρ) :
    Succeeds (sample cap entries source) fun drawn => ∀ a ∈ drawn.1, a ∈ entries := by
  unfold sample
  split
  · exact ⟨_, rfl, fun a ha => Array.mem_def.2 ha⟩
  · rename_i hcap
    exact succeeds_drawEntries (by omega) cap source

omit [RandomSource ρ] in
theorem succeeds_gatherAll {α β : Type} {find : α → ρ → Checked (List β × ρ)} {as : List α}
    {post : β → Prop}
    (h : ∀ a ∈ as, ∀ source, Succeeds (find a source) fun found => ∀ b ∈ found.1, post b)
    (source : ρ) : Succeeds (gatherAll find as source) fun found => ∀ b ∈ found.1, post b := by
  induction as generalizing source with
  | nil => exact ⟨_, rfl, by simp⟩
  | cons a as ih =>
    unfold gatherAll
    apply (h a List.mem_cons_self source).bind
    rintro ⟨found, source⟩ hfound
    refine (ih (fun a' ha' => h a' (List.mem_cons_of_mem a ha')) source).bind ?_
    rintro ⟨rest, source⟩ hrest
    apply Succeeds.of_pure
    intro b hb
    rcases List.mem_append.1 hb with hb | hb
    · exact hfound b hb
    · exact hrest b hb

variable {P : Problem} {lbs ubs : Array Int} {s : State ρ} {v : Variable}

theorem succeeds_spotsOf (hP : Posed P lbs ubs) (hs : Consistent P lbs ubs s)
    (hv : v < P.formula.numVariables) (source : ρ) :
    Succeeds (spotsOf P s v source) fun found =>
      ∀ spot ∈ found.1, spot.var = v ∧ Occurs P spot.var spot.row spot.slot := by
  unfold spotsOf
  apply Succeeds.next (fetch_eq_ok.2 (hP.occurrences v hv))
  apply (succeeds_sample constraintCap _ source).bind
  rintro ⟨occurrences, source⟩ hsample
  refine (Succeeds.filterMapM (p := fun spot : Spot =>
    spot.var = v ∧ Occurs P spot.var spot.row spot.slot) ?_).bind fun spots hspots => ?_
  · rintro ⟨c, slot⟩ hmem
    have hoccurs := hP.occurs_of_mem (List.mem_toArray.1 (hsample _ hmem))
    obtain ⟨row, hrow, hslot⟩ := hoccurs
    obtain ⟨cache, hcache⟩ := hs.cache_of_row hrow
    obtain ⟨p, -, hshows⟩ := hs.shows_of_row hP hrow hcache
    apply Succeeds.next (fetch_eq_ok.2 hcache)
    refine .next (fetch_eq_ok.2 (hshows.getElem?_slopes hslot)) ?_
    apply Succeeds.of_pure
    intro spot hspot
    split at hspot
    · cases hspot
    · cases hspot
      exact ⟨rfl, row, hrow, hslot⟩
  · exact .of_pure hspots

theorem succeeds_freeSpots (hP : Posed P lbs ubs) (hs : Consistent P lbs ubs s)
    (hv : v < P.formula.numVariables) (source : ρ) :
    Succeeds (freeSpots P s v source) fun found =>
      ∀ spot ∈ found.1, Occurs P spot.var spot.row spot.slot := by
  unfold freeSpots
  apply Succeeds.next (hs.value_eq hP hv)
  apply Succeeds.next (hs.ub_eq hP hv)
  split
  · exact .of_pure (by simp)
  · apply (succeeds_spotsOf hP hs hv source).mono
    intro found hfound spot hspot
    exact (hfound spot hspot).2

theorem succeeds_sampleSlots (cap : Nat) (row : Row) (source : ρ) :
    Succeeds (sampleSlots cap row source) fun drawn =>
      ∀ entry ∈ drawn.1, row.vars[entry.2]? = some entry.1 := by
  apply (succeeds_sample cap row.vars.zipIdx source).mono
  intro drawn hdrawn
  rintro ⟨v, slot⟩ hentry
  exact Array.mem_zipIdx_iff_getElem?.1 (hdrawn _ hentry)

theorem succeeds_rivalsAt (hP : Posed P lbs ubs) (hs : Consistent P lbs ubs s) {spot : Spot}
    (hspot : Occurs P spot.var spot.row spot.slot) (source : ρ) :
    Succeeds (rivalsAt P s spot source) fun found =>
      ∀ rival ∈ found.1, rival.1 < P.formula.numVariables := by
  obtain ⟨row, hrow, hslot⟩ := hspot
  obtain ⟨cache, hcache⟩ := hs.cache_of_row hrow
  obtain ⟨p, -, hshows⟩ := hs.shows_of_row hP hrow hcache
  have hobjective : ∀ {u slot : Nat}, row.vars[slot]? = some u → u < P.isObjective.size := by
    intro u slot hu
    rw [hP.size_isObjective]
    exact hP.lt_of_mem_vars hrow (Array.mem_of_getElem? hu)
  unfold rivalsAt
  apply Succeeds.next (fetch_eq_ok.2 hrow)
  apply Succeeds.next (fetch_eq_ok.2 hcache)
  split
  · split
    · exact .of_pure (by simp)
    · apply (succeeds_sampleSlots linearCap row source).bind
      rintro ⟨slots, source⟩ hslots
      refine (Succeeds.filterMapM (p := fun rival : Variable × Direction =>
        rival.1 < P.formula.numVariables) ?_).bind fun rivals hrivals => ?_
      · rintro ⟨u, slot⟩ hmem
        have hu := hobjective (hslots _ hmem)
        apply Succeeds.next (fetch_of_lt hu)
        apply Succeeds.of_pure
        intro rival hrival
        split at hrival
        · cases hrival
        · cases hrival
          exact hP.size_isObjective ▸ hu
      · exact .of_pure hrivals
  · refine .next (fetch_eq_ok.2 (hshows.getElem?_slopes hslot)) ?_
    split
    · exact .of_pure (by simp)
    · apply (succeeds_sampleSlots nonlinearCap row source).bind
      rintro ⟨slots, source⟩ hslots
      refine (Succeeds.filterMapM (p := fun rival : Variable × Direction =>
        rival.1 < P.formula.numVariables) ?_).bind fun rivals hrivals => ?_
      · rintro ⟨u, slot⟩ hmem
        have hu := hobjective (hslots _ hmem)
        apply Succeeds.next (fetch_of_lt hu)
        split
        · exact .of_pure (by simp)
        · refine .next (fetch_eq_ok.2 (hshows.getElem?_slopes (hslots _ hmem))) ?_
          apply Succeeds.of_pure
          intro rival hrival
          cases hrival
          exact hP.size_isObjective ▸ hu
      · exact .of_pure hrivals

theorem succeeds_offerRival (hP : Posed P lbs ubs) (hs : Consistent P lbs ubs s)
    (hv : v < P.formula.numVariables) (d : Direction) {pool : Pool}
    (hpool : Offers P lbs ubs pool) (source : ρ) :
    Succeeds (offerRival P s v d pool source) fun found => Offers P lbs ubs found.1 := by
  unfold offerRival
  apply (succeeds_spotsOf hP hs hv source).bind
  rintro ⟨spots, source⟩ hspots
  refine (Succeeds.foldlM hpool ?_).bind fun pool hpool => .of_pure hpool
  intro pool spot hspot hpool
  obtain ⟨rfl, hoccurs⟩ := hspots spot hspot
  apply (succeeds_feasibleOn hP hs hoccurs d).bind
  intro x _
  exact succeeds_offer? hP hs hv hpool x

theorem succeeds_sampled (hP : Posed P lbs ubs) (hs : Consistent P lbs ubs s) (source : ρ) :
    Succeeds (sampled P s source) fun found => Offers P lbs ubs found.1 := by
  unfold sampled
  refine (succeeds_gatherAll (fun v hv source =>
    succeeds_freeSpots hP hs (hP.objectiveVars v hv) source) source).bind ?_
  rintro ⟨spots, source⟩ hspots
  refine (succeeds_gatherAll (fun spot hspot source =>
    succeeds_rivalsAt hP hs (hspots spot hspot) source) source).bind ?_
  rintro ⟨targets, source⟩ htargets
  apply Succeeds.foldlM (motive := fun found : Pool × ρ => Offers P lbs ubs found.1) offers_empty
  rintro ⟨pool, source⟩ ⟨u, d⟩ htarget hpool
  exact succeeds_offerRival hP hs (htargets _ htarget) d hpool source

end NonlinearInteger.Search
