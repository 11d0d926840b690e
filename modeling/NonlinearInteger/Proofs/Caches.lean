import NonlinearInteger.Search.Apply
import NonlinearInteger.Proofs.Posed

/-!
# Caches

A cache shows a value and a slope for each slot. Terms are added to what it
shows, or subtracted, one by one. Taking out all terms with a variable leaves
those without it, which do not see the variable change, and putting them back on
the new values completes the cache again.
-/

namespace NonlinearInteger.Search

/-- A polynomial on a table of values where it is small. -/
structure Tame (bound : Variable → Int) (p : Polynomial) (values : Array Int) : Prop where
  isOver : p.Over values.size
  within : Within values.size bound (valuation values)
  size_le : p.size bound ≤ maxMagnitude

namespace Tame

variable {bound : Variable → Int} {p : Polynomial} {values : Array Int}

theorem among (h : Tame bound p values) : p.Among values.size := h.isOver.among

theorem size_le_greatest (h : Tame bound p values) : p.size bound ≤ Wide.greatest :=
  h.size_le.trans (by decide)

theorem evaluate (h : Tame bound p values) :
    p.evaluate values = .ok (p.eval (valuation values)) :=
  Polynomial.evaluate_exact h.among h.within h.size_le_greatest

theorem evaluateWithout (h : Tame bound p values) (v : Variable) :
    p.evaluateWithout v values =
      .ok (Polynomial.evalTerms (valuation values) (p.avoiding v)) :=
  Polynomial.evaluateWithout_exact h.among h.within h.size_le_greatest v

theorem slope (h : Tame bound p values) (v : Variable) :
    p.slope v values = .ok (p.slopeAt (valuation values) v) :=
  Polynomial.slope_exact h.among h.within h.size_le_greatest v

theorem evaluate_term (h : Tame bound p values) {m : Monomial} (hm : m ∈ p.monomials) :
    m.evaluate values = .ok (m.eval (valuation values)) := by
  have hone := Polynomial.sum_abs_eval_le h.among h.within (List.singleton_sublist.2 hm)
  apply Monomial.evaluate_exact (h.among m hm).1 (h.among m hm).2
  simpa using hone.trans h.size_le_greatest

theorem slope_term (h : Tame bound p values) {m : Monomial} (hm : m ∈ p.monomials)
    (v : Variable) : m.slope v values = .ok (m.slopeAt (valuation values) v) := by
  have hone := Polynomial.sum_abs_slopeAt_le h.among h.within v (List.singleton_sublist.2 hm)
  apply Monomial.slope_exact (h.among m hm).2
  simpa using hone.trans h.size_le_greatest

theorem abs_eval_le (h : Tame bound p values) : |p.eval (valuation values)| ≤ maxMagnitude :=
  (Polynomial.abs_eval_le h.among h.within).trans h.size_le

theorem abs_slopeAt_le (h : Tame bound p values) (v : Variable) :
    |p.slopeAt (valuation values) v| ≤ maxMagnitude :=
  (Polynomial.abs_slopeTerms_le h.among h.within v (List.Sublist.refl _)).trans h.size_le

theorem abs_slopeAt_mul_le (h : Tame bound p values) {v : Variable} (hv : v < values.size)
    {x : Int} (hx : |x| ≤ bound v) : |p.slopeAt (valuation values) v * x| ≤ maxMagnitude := by
  rw [abs_mul]
  have hle := mul_le_mul_of_nonneg_left hx (abs_nonneg (p.slopeAt (valuation values) v))
  exact (hle.trans (Polynomial.abs_slopeAt_mul_le h.among h.within hv)).trans h.size_le

end Tame

structure Cache.Shows (row : Row) (value : Int) (slope : Variable → Int) (cache : Cache) :
    Prop where
  value_eq : cache.value = value
  slopes_eq : cache.slopes = row.vars.map slope

theorem Cache.Shows.getElem?_slopes {row : Row} {value : Int} {slope : Variable → Int}
    {cache : Cache} (h : cache.Shows row value slope) {slot : Nat} {v : Variable}
    (hv : row.vars[slot]? = some v) : cache.slopes[slot]? = some (slope v) := by
  rw [h.slopes_eq, Array.getElem?_map, hv, Option.map_some]

/-- An operation that adds, or one that subtracts, as long as the result fits. -/
structure Shifts (sign : Int) (combine : Int → Int → Checked Int) : Prop where
  unit : |sign| = 1
  eq_exact : ∀ x y, combine x y = Wide.exact (x + sign * y)

theorem shifts_add : Shifts 1 Wide.add :=
  ⟨by decide, fun x y => by rw [Wide.add, one_mul]⟩

theorem shifts_sub : Shifts (-1) Wide.sub :=
  ⟨by decide, fun x y => by rw [Wide.sub, neg_one_mul, sub_eq_add_neg]⟩

section Shift

variable {sign : Int} {combine : Int → Int → Checked Int}

theorem Shifts.abs_le (h : Shifts sign combine) (x y : Int) : |x + sign * y| ≤ |x| + |y| := by
  have hle := abs_add_le x (sign * y)
  rwa [abs_mul, h.unit, one_mul] at hle

theorem Shifts.eq_ok (h : Shifts sign combine) {x y : Int} (hsize : |x| + |y| ≤ Wide.greatest) :
    combine x y = .ok (x + sign * y) := by
  rw [h.eq_exact]
  exact Wide.exact_of_abs_le ((h.abs_le x y).trans hsize)

variable {k : Constraint} {sense : Sense} {bound : Variable → Int} {values : Array Int}
  {cache : Cache} {x : Int} {g : Variable → Int}

/-- The slopes of a term reach exactly its own slots; it has no slope elsewhere. -/
theorem shiftSlopes_succeeds (hcombine : Shifts sign combine) (htame : Tame bound k.poly values)
    {m : Monomial} (hm : m ∈ k.poly.monomials)
    (hg : ∀ v, |g v| + |m.slopeAt (valuation values) v| ≤ Wide.greatest)
    {slopes : Array Int} (hslopes : slopes = (Row.of k sense).vars.map g) :
    Succeeds ((slotsOf (Row.of k sense).vars m).foldlM
      (shiftSlope combine (Row.of k sense) m values) slopes)
      (· = (Row.of k sense).vars.map fun v => g v + sign * m.slopeAt (valuation values) v) := by
  have hnodup := Row.nodup_vars k sense
  have hget : ∀ slot : Nat, slopes[slot]? = (Row.of k sense).vars[slot]?.map g := by
    intro slot
    rw [hslopes, Array.getElem?_map]
  refine (Succeeds.foldlM_update id
    (fun slot y => ∃ v, (Row.of k sense).vars[slot]? = some v ∧
      y = g v + sign * m.slopeAt (valuation values) v)
    (by simpa using nodup_slotsOf hnodup) ?_).mono ?_
  · intro slot hslot t hsize hsame
    obtain ⟨v, hv, hvar⟩ := (mem_slotsOf hnodup).1 hslot
    have hold : t[slot]? = some (g v) := by
      rw [show t[slot]? = slopes[slot]? from hsame, hget, hvar, Option.map_some]
    unfold shiftSlope
    apply Succeeds.next (fetch_eq_ok.2 hvar)
    apply Succeeds.next (fetch_eq_ok.2 hold)
    apply Succeeds.next (htame.slope_term hm v)
    apply Succeeds.next (hcombine.eq_ok (hg v))
    apply (succeeds_store_apart _ (Array.getElem?_eq_some_iff.1 hold).1).mono
    intro u hu
    exact ⟨hu.1, ⟨_, hu.2.1, v, hvar, rfl⟩, hu.2.2⟩
  · rintro u ⟨hsize, hdone, hsame⟩
    simp only [List.map_id] at hsame
    apply Array.ext_getElem?
    intro slot
    rw [Array.getElem?_map]
    by_cases hslot : slot ∈ slotsOf (Row.of k sense).vars m
    · obtain ⟨y, hy, v, hvar, hyv⟩ := hdone slot hslot
      have hvar : (Row.of k sense).vars[slot]? = some v := hvar
      rw [show u[slot]? = some y from hy, hvar, hyv, Option.map_some]
    · rw [hsame slot hslot, hget]
      cases hvar : (Row.of k sense).vars[slot]? with
      | none => rfl
      | some v =>
        have hv : v ∉ m.vars := fun hv => hslot ((mem_slotsOf hnodup).2 ⟨v, hv, hvar⟩)
        simp [Monomial.slopeAt_of_notMem _ hv]

theorem shiftTerm_succeeds (hcombine : Shifts sign combine) (htame : Tame bound k.poly values)
    {term : Nat} {m : Monomial} (hm : m ∈ k.poly.monomials)
    (hterm : (Row.of k sense).monomials[term]? = some m)
    (hx : |x| + |m.eval (valuation values)| ≤ Wide.greatest)
    (hg : ∀ v, |g v| + |m.slopeAt (valuation values) v| ≤ Wide.greatest)
    (hcache : cache.Shows (Row.of k sense) x g) :
    Succeeds (shiftTerm combine (Row.of k sense) values cache term) fun c =>
      c.Shows (Row.of k sense) (x + sign * m.eval (valuation values))
        fun v => g v + sign * m.slopeAt (valuation values) v := by
  unfold shiftTerm
  apply Succeeds.next (fetch_eq_ok.2 hterm)
  apply Succeeds.next (htame.evaluate_term hm)
  rw [hcache.value_eq]
  apply Succeeds.next (hcombine.eq_ok hx)
  apply Succeeds.next (fetch_eq_ok.2 (Row.monoSlots_of_monomials k sense hterm))
  apply (shiftSlopes_succeeds hcombine htame hm hg hcache.slopes_eq).bind
  intro slopes hslopes
  exact .of_pure ⟨rfl, hslopes⟩

theorem foldlM_shiftTerm_succeeds (hcombine : Shifts sign combine)
    (htame : Tame bound k.poly values) {terms : List Nat} {ms : List Monomial}
    (hterms : List.Forall₂ (fun t m => (Row.of k sense).monomials[t]? = some m) terms ms)
    (hms : ∀ m ∈ ms, m ∈ k.poly.monomials)
    (hx : |x| + (ms.map fun m => |m.eval (valuation values)|).sum ≤ Wide.greatest)
    (hg : ∀ v, |g v| + (ms.map fun m => |m.slopeAt (valuation values) v|).sum ≤ Wide.greatest)
    (hcache : cache.Shows (Row.of k sense) x g) :
    Succeeds (terms.foldlM (shiftTerm combine (Row.of k sense) values) cache) fun c =>
      c.Shows (Row.of k sense) (x + sign * Polynomial.evalTerms (valuation values) ms)
        fun v => g v + sign * Polynomial.slopeTerms (valuation values) v ms := by
  induction hterms generalizing x g cache with
  | nil => exact .of_pure (by simpa [Polynomial.evalTerms, Polynomial.slopeTerms] using hcache)
  | @cons term m terms ms hterm _ ih =>
    simp only [List.map_cons, List.sum_cons] at hx hg
    have hrest : 0 ≤ (ms.map fun m => |m.eval (valuation values)|).sum :=
      List.sum_nonneg (by simp)
    have hrests : ∀ v, 0 ≤ (ms.map fun m => |m.slopeAt (valuation values) v|).sum :=
      fun v => List.sum_nonneg (by simp)
    have hfirst : |x| + |m.eval (valuation values)| ≤ Wide.greatest := by omega
    have hfirsts : ∀ v, |g v| + |m.slopeAt (valuation values) v| ≤ Wide.greatest := by
      intro v
      have := hg v
      have := hrests v
      omega
    rw [List.foldlM_cons]
    apply (shiftTerm_succeeds hcombine htame (hms m List.mem_cons_self) hterm hfirst hfirsts
      hcache).bind
    intro c hc
    have hrun := ih (fun n hn => hms n (List.mem_cons_of_mem m hn))
      (by have := hcombine.abs_le x (m.eval (valuation values)); omega)
      (fun v => by
        have := hcombine.abs_le (g v) (m.slopeAt (valuation values) v)
        have := hg v
        omega) hc
    apply hrun.mono
    intro d hd
    have hvalue : x + sign * m.eval (valuation values) +
        sign * Polynomial.evalTerms (valuation values) ms =
        x + sign * Polynomial.evalTerms (valuation values) (m :: ms) := by
      rw [Polynomial.evalTerms]
      ring
    have hslopes : (fun v => g v + sign * m.slopeAt (valuation values) v +
        sign * Polynomial.slopeTerms (valuation values) v ms) =
        fun v => g v + sign * Polynomial.slopeTerms (valuation values) v (m :: ms) := by
      funext v
      simp only [Polynomial.slopeTerms, List.map_cons, List.sum_cons]
      ring
    rw [hvalue, hslopes] at hd
    exact hd

theorem shiftTerms_succeeds (hcombine : Shifts sign combine) (htame : Tame bound k.poly values)
    {slot : Nat} {v : Variable} (hslot : (Row.of k sense).vars[slot]? = some v)
    (hx : |x| ≤ maxMagnitude) (hg : ∀ u, |g u| ≤ maxMagnitude)
    (hcache : cache.Shows (Row.of k sense) x g) :
    Succeeds (shiftTerms combine (Row.of k sense) values slot cache) fun c =>
      c.Shows (Row.of k sense)
        (x + sign * Polynomial.evalTerms (valuation values) (k.poly.mentioning v))
        fun u =>
          g u + sign * Polynomial.slopeTerms (valuation values) u (k.poly.mentioning v) := by
  obtain ⟨terms, hterms, hall⟩ := Row.slotMonos_mentioning k sense hslot
  have hsub : (k.poly.mentioning v).Sublist k.poly.monomials := List.filter_sublist
  have hroom : maxMagnitude + maxMagnitude ≤ Wide.greatest := by decide
  unfold shiftTerms
  apply Succeeds.next (fetch_eq_ok.2 hterms)
  apply foldlM_shiftTerm_succeeds hcombine htame hall (fun m hm => hsub.subset hm) ?_ ?_ hcache
  · have hsum := (Polynomial.sum_abs_eval_le htame.among htame.within hsub).trans htame.size_le
    omega
  · intro u
    have hsum := Polynomial.sum_abs_slopeAt_le htame.among htame.within u hsub
    have hsize := htame.size_le
    have hu := hg u
    omega

end Shift

/-- A linear value follows a change by slope times difference. -/
theorem Tame.follows {bound : Variable → Int} {p : Polynomial} {old new : Array Int}
    (hold : Tame bound p old) (hnew : Tame bound p new)
    (hlinear : ∀ m ∈ p.monomials, m.isLinear = true) {v : Variable} (hv : v < old.size) (hsize : new.size = old.size)
    (hsame : ∀ w, w ≠ v → valuation new w = valuation old w) :
    ∃ change, Wide.mul (p.slopeAt (valuation old) v) (valuation new v - valuation old v) =
      .ok change ∧ Wide.add (p.eval (valuation old)) change = .ok (p.eval (valuation new)) := by
  have hslope := Polynomial.slopeAt_eq_of_isLinear hlinear (valuation new) (valuation old) v
  have hfrom := hold.abs_slopeAt_mul_le hv (hold.within.abs_le v hv)
  have hto := hnew.abs_slopeAt_mul_le (hsize ▸ hv) (hnew.within.abs_le v (hsize ▸ hv))
  rw [hslope] at hto
  have hchange := abs_sub (p.slopeAt (valuation old) v * valuation new v)
    (p.slopeAt (valuation old) v * valuation old v)
  rw [← mul_sub] at hchange
  have hroom : maxMagnitude + maxMagnitude ≤ Wide.greatest := by decide
  have hfits := hnew.abs_eval_le.trans (show maxMagnitude ≤ Wide.greatest by decide)
  refine ⟨_, Wide.exact_of_abs_le (by omega), ?_⟩
  rw [Wide.add, ← Polynomial.eval_eq_add_of_isLinear hlinear hsame]
  exact Wide.exact_of_abs_le hfits

section Change

variable {k : Constraint} {sense : Sense} {bound : Variable → Int} {old new : Array Int}
  {v : Variable}

/-- The cache of a constraint between the removal of a variable and its return. A
linear one is already done. -/
def Cache.Halfway (row : Row) (p : Polynomial) (σ : Variable → Int) (v : Variable)
    (cache : Cache) : Prop :=
  if row.linear then cache.Shows row (p.eval σ) (p.slopeAt σ)
  else cache.Shows row (Polynomial.evalTerms σ (p.avoiding v))
    fun u => Polynomial.slopeTerms σ u (p.avoiding v)

/-- A linear cache whose value is right has the slopes of before. -/
theorem Cache.halfway_of_linear {cache : Cache} {σ τ : Variable → Int}
    (hnormal : k.poly.normalized = true) (hlinear : (Row.of k sense).linear = true)
    (hcache : cache.Shows (Row.of k sense) (k.poly.eval τ) (k.poly.slopeAt σ)) :
    cache.Halfway (Row.of k sense) k.poly τ v := by
  have hslopes : k.poly.slopeAt σ = k.poly.slopeAt τ := by
    funext u
    exact Polynomial.slopeAt_eq_of_isLinear (Polynomial.forall_isLinear hnormal hlinear) _ _ u
  rw [hslopes] at hcache
  rw [Cache.Halfway, if_pos hlinear]
  exact hcache

/-- Terms without the variable do not see it change. -/
theorem Cache.halfway_of_takenOut {cache : Cache} {σ τ : Variable → Int}
    (hlinear : ¬(Row.of k sense).linear = true) (hsame : ∀ w, w ≠ v → τ w = σ w)
    (hcache : cache.Shows (Row.of k sense)
      (k.poly.eval σ + -1 * Polynomial.evalTerms σ (k.poly.mentioning v))
      fun u => k.poly.slopeAt σ u + -1 * Polynomial.slopeTerms σ u (k.poly.mentioning v)) :
    cache.Halfway (Row.of k sense) k.poly τ v := by
  have hvalue : k.poly.eval σ + -1 * Polynomial.evalTerms σ (k.poly.mentioning v) =
      Polynomial.evalTerms τ (k.poly.avoiding v) := by
    rw [Polynomial.evalTerms_avoiding_congr hsame,
      ← Polynomial.evalTerms_avoiding_add_mentioning σ v]
    ring
  have hslopes : (fun u => k.poly.slopeAt σ u +
      -1 * Polynomial.slopeTerms σ u (k.poly.mentioning v)) =
      fun u => Polynomial.slopeTerms τ u (k.poly.avoiding v) := by
    funext u
    rw [Polynomial.slopeTerms_avoiding_congr hsame,
      ← Polynomial.slopeTerms_avoiding_add_mentioning σ u v]
    ring
  rw [hvalue, hslopes] at hcache
  rw [Cache.Halfway, if_neg hlinear]
  exact hcache

/-- Terms with the variable complete the polynomial. -/
theorem Cache.shows_of_putBack {cache : Cache} {row : Row} {p : Polynomial} {σ : Variable → Int}
    (hcache : cache.Shows row
      (Polynomial.evalTerms σ (p.avoiding v) + 1 * Polynomial.evalTerms σ (p.mentioning v))
      fun u => Polynomial.slopeTerms σ u (p.avoiding v) +
        1 * Polynomial.slopeTerms σ u (p.mentioning v)) :
    cache.Shows row (p.eval σ) (p.slopeAt σ) := by
  have hvalue : Polynomial.evalTerms σ (p.avoiding v) +
      1 * Polynomial.evalTerms σ (p.mentioning v) = p.eval σ := by
    rw [one_mul]
    exact Polynomial.evalTerms_avoiding_add_mentioning σ v p
  have hslopes : (fun u => Polynomial.slopeTerms σ u (p.avoiding v) +
      1 * Polynomial.slopeTerms σ u (p.mentioning v)) = p.slopeAt σ := by
    funext u
    rw [one_mul]
    exact Polynomial.slopeTerms_avoiding_add_mentioning σ u v p
  rw [hvalue, hslopes] at hcache
  exact hcache

theorem takeOut_succeeds {P : Problem} {c slot : Nat} {caches : Array Cache} {cache : Cache}
    (hnormal : k.poly.normalized = true) (hrow : P.rows[c]? = some (Row.of k sense)) (hget : caches[c]? = some cache)
    (hslot : (Row.of k sense).vars[slot]? = some v)
    (hcache : cache.Shows (Row.of k sense) (k.poly.eval (valuation old))
      (k.poly.slopeAt (valuation old)))
    (hold : Tame bound k.poly old) (hnew : Tame bound k.poly new) (hv : v < old.size)
    (hsize : new.size = old.size) (hsame : ∀ w, w ≠ v → valuation new w = valuation old w) :
    Succeeds (takeOut P old (valuation new v - valuation old v) caches (c, slot)) fun u =>
      u.size = caches.size ∧
      (∃ cache, u[c]? = some cache ∧
        cache.Halfway (Row.of k sense) k.poly (valuation new) v) ∧
      ∀ i, i ≠ c → u[i]? = caches[i]? := by
  have hlt : c < caches.size := (Array.getElem?_eq_some_iff.1 hget).1
  unfold takeOut
  apply Succeeds.next (fetch_eq_ok.2 hrow)
  apply Succeeds.next (fetch_eq_ok.2 hget)
  split
  · rename_i hlinear
    have hterms := Polynomial.forall_isLinear hnormal hlinear
    obtain ⟨change, hmul, hadd⟩ := hold.follows hnew hterms hv hsize hsame
    refine .next (fetch_eq_ok.2 (hcache.getElem?_slopes hslot)) ?_
    apply Succeeds.next hmul
    rw [hcache.value_eq]
    apply Succeeds.next hadd
    apply (succeeds_store_apart _ hlt).mono
    intro u hu
    exact ⟨hu.1, ⟨_, hu.2.1, Cache.halfway_of_linear hnormal hlinear ⟨rfl, hcache.slopes_eq⟩⟩, hu.2.2⟩
  · rename_i hlinear
    apply (shiftTerms_succeeds shifts_sub hold hslot hold.abs_eval_le hold.abs_slopeAt_le
      hcache).bind
    intro out hout
    apply (succeeds_store_apart out hlt).mono
    intro u hu
    exact ⟨hu.1, ⟨out, hu.2.1, Cache.halfway_of_takenOut hlinear hsame hout⟩, hu.2.2⟩

theorem putBack_succeeds {P : Problem} {c slot : Nat} {caches : Array Cache} {cache : Cache}
    (hrow : P.rows[c]? = some (Row.of k sense)) (hget : caches[c]? = some cache)
    (hslot : (Row.of k sense).vars[slot]? = some v)
    (hcache : cache.Halfway (Row.of k sense) k.poly (valuation new) v)
    (hnew : Tame bound k.poly new) :
    Succeeds (putBack P new caches (c, slot)) fun u =>
      u.size = caches.size ∧
      (∃ cache, u[c]? = some cache ∧ cache.Shows (Row.of k sense) (k.poly.eval (valuation new))
        (k.poly.slopeAt (valuation new))) ∧
      ∀ i, i ≠ c → u[i]? = caches[i]? := by
  unfold putBack
  apply Succeeds.next (fetch_eq_ok.2 hrow)
  split
  · rename_i hlinear
    rw [Cache.Halfway, if_pos hlinear] at hcache
    exact .of_pure ⟨rfl, ⟨cache, hget, hcache⟩, fun _ _ => rfl⟩
  · rename_i hlinear
    rw [Cache.Halfway, if_neg hlinear] at hcache
    have hsub : (k.poly.avoiding v).Sublist k.poly.monomials := List.filter_sublist
    apply Succeeds.next (fetch_eq_ok.2 hget)
    have hvalue := (Polynomial.abs_evalTerms_le hnew.among hnew.within hsub).trans hnew.size_le
    have hslopes := fun u =>
      (Polynomial.abs_slopeTerms_le hnew.among hnew.within u hsub).trans hnew.size_le
    apply (shiftTerms_succeeds shifts_add hnew hslot hvalue hslopes hcache).bind
    intro full hfull
    apply (succeeds_store_apart full (Array.getElem?_eq_some_iff.1 hget).1).mono
    intro u hu
    exact ⟨hu.1, ⟨full, hu.2.1, Cache.shows_of_putBack hfull⟩, hu.2.2⟩

end Change

end NonlinearInteger.Search
