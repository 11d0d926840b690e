import NonlinearInteger.Proofs.Checks
import NonlinearInteger.Proofs.Sessions
import NonlinearInteger.Proofs.StrictValues

/-!
# Exactness

Within the bounds of an accepted formula nothing saturates. On every state that a
search can reach, the strict arithmetic computes what the search computes: each
sum, product and quotient on the way lies in the 128-bit range.
-/

namespace NonlinearInteger

theorem Succeeds.result {ε α : Type} {x : Except ε α} {post : α → Prop} (h : Succeeds x post) :
    ∃ a, x = .ok a :=
  h.imp fun _ ha => ha.1

theorem bind_congr_ok {ε α β : Type} {x : Except ε α} {f g : α → Except ε β}
    (h : ∀ a, x = .ok a → f a = g a) : (x >>= f) = (x >>= g) := by
  cases x with
  | error cause => rfl
  | ok a => exact h a rfl

theorem bind_congr_of_eq {ε α β : Type} {x y : Except ε α} {f g : α → Except ε β} (hx : x = y)
    (h : ∀ a, f a = g a) : (x >>= f) = (y >>= g) := by
  subst hx
  exact bind_congr h

theorem foldlM_congr {ε α β : Type} {f g : β → α → Except ε β} {as : List α} {b : β}
    (h : ∀ b, ∀ a ∈ as, f b a = g b a) : as.foldlM f b = as.foldlM g b := by
  induction as generalizing b with
  | nil => rfl
  | cons a as ih =>
    rw [List.foldlM_cons, List.foldlM_cons]
    exact bind_congr_of_eq (h b a List.mem_cons_self) fun c =>
      ih fun b' a' ha' => h b' a' (List.mem_cons_of_mem a ha')

theorem forM_congr {ε α : Type} {f g : α → Except ε PUnit} {as : List α}
    (h : ∀ a ∈ as, f a = g a) : as.forM f = as.forM g := by
  induction as with
  | nil => rfl
  | cons a as ih =>
    change (f a >>= fun _ => as.forM f) = (g a >>= fun _ => as.forM g)
    rw [h a List.mem_cons_self, ih fun a' ha' => h a' (List.mem_cons_of_mem a ha')]

namespace Wide

variable {x y : Int}

theorem divide_eq_ok (hx : |x| ≤ greatest) (hy : y ≠ 0) :
    divide x y = .ok (Int.tdiv x y, Int.tmod x y) := by
  have hquotient : |Int.tdiv x y| ≤ |x| := by
    rw [Int.abs_eq_natAbs, Int.abs_eq_natAbs]
    exact Int.ofNat_le.2 (Int.natAbs_tdiv_le_natAbs x y)
  have hremainder : |Int.tmod x y| ≤ |x| := by
    rw [Int.abs_eq_natAbs, Int.abs_eq_natAbs, Int.natAbs_tmod]
    exact Int.ofNat_le.2 (Nat.mod_le _ _)
  unfold divide
  rw [exact_of_abs_le (hquotient.trans hx), exact_of_abs_le (hremainder.trans hx)]
  exact if_neg hy

theorem fdiv_eq_tdiv_sub (hy : y ≠ 0) : Int.fdiv x y = Int.tdiv x y -
    if Int.tmod x y ≠ 0 ∧ (decide (x < 0) != decide (y < 0)) = true then 1 else 0 := by
  rw [Int.fdiv_eq_tdiv]
  by_cases hdvd : y ∣ x
  · simp [hdvd, Int.tmod_eq_zero_of_dvd hdvd]
  · have hmod : Int.tmod x y ≠ 0 := fun h => hdvd (Int.dvd_iff_tmod_eq_zero.2 h)
    by_cases hxsign : 0 ≤ x <;> by_cases hysign : 0 ≤ y
    · simp [hdvd, hxsign, hysign, hxsign.not_gt, hysign.not_gt]
    · simp [hdvd, hmod, hxsign, hysign, hxsign.not_gt, not_le.1 hysign]
    · have hpos : 0 < y := lt_of_le_of_ne hysign hy.symm
      simp [hdvd, hmod, hxsign, hysign, hysign.not_gt, not_le.1 hxsign, Int.sign_eq_one_of_pos hpos]
    · simp [hdvd, hxsign, hysign, not_le.1 hxsign, not_le.1 hysign,
        Int.sign_eq_neg_one_of_neg (not_le.1 hysign)]

theorem neg_fdiv_eq_tdiv_add (hy : y ≠ 0) : -Int.fdiv (-x) y = Int.tdiv x y +
    if Int.tmod x y ≠ 0 ∧ (decide (x < 0) == decide (y < 0)) = true then 1 else 0 := by
  rw [Int.neg_fdiv, fdiv_eq_tdiv_sub hy]
  by_cases hdvd : y ∣ x
  · simp [hdvd, Int.tmod_eq_zero_of_dvd hdvd]
  · have hmod : Int.tmod x y ≠ 0 := fun h => hdvd (Int.dvd_iff_tmod_eq_zero.2 h)
    cases hxsign : decide (x < 0) <;> cases hysign : decide (y < 0) <;>
      simp [hdvd, hmod, hy, add_comm]

theorem divFloorStepwise_eq (hx : |x| ≤ greatest) (hy : y ≠ 0) :
    divFloorStepwise x y = divFloor x y := by
  have hfits : |Int.fdiv x y| ≤ greatest := by
    obtain ⟨q, hq, hle⟩ := succeeds_divFloor (y := y) hx
    rw [divFloor, exact_eq_ok] at hq
    exact hq.1 ▸ hle.trans hx
  have hsteps := fdiv_eq_tdiv_sub (x := x) hy
  unfold divFloorStepwise
  rw [divide_eq_ok hx hy, divFloor]
  change (if _ then _ else _) = _
  split
  · rename_i hcorrect
    rw [if_pos hcorrect] at hsteps
    rw [hsteps, sub]
  · rename_i hcorrect
    rw [if_neg hcorrect, Int.sub_zero] at hsteps
    rw [exact_of_abs_le hfits, hsteps]
    rfl

theorem divCeilStepwise_eq (hx : |x| ≤ greatest) (hy : y ≠ 0) :
    divCeilStepwise x y = divCeil x y := by
  have hfits : |-Int.fdiv (-x) y| ≤ greatest := by
    obtain ⟨q, hq, hle⟩ := succeeds_divCeil (y := y) hx
    rw [divCeil, exact_eq_ok] at hq
    exact hq.1 ▸ hle.trans hx
  have hsteps := neg_fdiv_eq_tdiv_add (x := x) hy
  unfold divCeilStepwise
  rw [divide_eq_ok hx hy, divCeil]
  change (if _ then _ else _) = _
  split
  · rename_i hcorrect
    rw [if_pos hcorrect] at hsteps
    rw [hsteps, add]
  · rename_i hcorrect
    rw [if_neg hcorrect, Int.add_zero] at hsteps
    rw [exact_of_abs_le hfits, hsteps]
    rfl

end Wide

namespace Search

namespace Tame

variable {bound : Variable → Int} {p : Polynomial} {values : Array Int}

theorem size_term_le (h : Tame bound p values) {m : Monomial} (hm : m ∈ p.monomials) :
    m.size bound ≤ maxMagnitude :=
  (Polynomial.size_term_le h.among h.within hm).trans h.size_le

theorem evaluateBy_term (h : Tame bound p values) {m : Monomial} (hm : m ∈ p.monomials) :
    m.evaluateBy .strict values = m.evaluate values := by
  rw [h.evaluate_term hm]
  exact Polynomial.evaluateBy_term_strict h.among h.within h.size_le_greatest hm

theorem slopeBy_term (h : Tame bound p values) {m : Monomial} (hm : m ∈ p.monomials)
    (v : Variable) : m.slopeBy .strict v values = m.slope v values := by
  rw [h.slope_term hm v]
  exact Polynomial.slopeBy_term_strict h.among h.within h.size_le_greatest hm v

theorem evaluateBy_eq (h : Tame bound p values) :
    p.evaluateBy .strict values = p.evaluate values := by
  rw [h.evaluate]
  exact Polynomial.evaluateBy_strict h.among h.within h.size_le_greatest

theorem evaluateWithoutBy_eq (h : Tame bound p values) (v : Variable) :
    p.evaluateWithoutBy .strict v values = p.evaluateWithout v values := by
  rw [h.evaluateWithout]
  exact Polynomial.evaluateWithoutBy_strict h.among h.within h.size_le_greatest v

theorem slopeBy_eq (h : Tame bound p values) (v : Variable) :
    p.slopeBy .strict v values = p.slope v values := by
  rw [h.slope]
  exact Polynomial.slopeBy_strict h.among h.within h.size_le_greatest v

end Tame

variable {ρ : Type} {P : Problem} {lbs ubs : Array Int} {s : State ρ} {v : Variable} {x : Int}

theorem shiftTermsBy_strict {k : Constraint} {sense : Sense} {bound : Variable → Int}
    {values : Array Int} (h : Tame bound k.poly values) (combine : Int → Int → Checked Int)
    (slot : Nat) (cache : Cache) :
    shiftTermsBy .strict combine (Row.of k sense) values slot cache =
      shiftTerms combine (Row.of k sense) values slot cache := by
  have hslope : ∀ m ∈ k.poly.monomials,
      shiftSlopeBy .strict combine (Row.of k sense) m values =
        shiftSlope combine (Row.of k sense) m values := by
    intro m hm
    funext slopes slot
    simp only [shiftSlopeBy, shiftSlope, h.slopeBy_term hm]
  have hterm : shiftTermBy .strict combine (Row.of k sense) values =
      shiftTerm combine (Row.of k sense) values := by
    funext cache term
    refine bind_congr_ok fun m hm => ?_
    have hmem : m ∈ k.poly.monomials := by
      simpa [Row.of] using Array.mem_of_getElem? (fetch_eq_ok.1 hm)
    simp only [h.evaluateBy_term hmem, hslope m hmem]
  simp only [shiftTermsBy, shiftTerms, hterm]

theorem takeOutBy_strict (hP : Posed P lbs ubs) {a : Assignment} (ha : Inside lbs ubs a)
    (delta : Int) : takeOutBy .strict P a.values delta = takeOut P a.values delta := by
  funext caches occurrence
  refine bind_congr_ok fun row hrow => ?_
  obtain ⟨k, sense, hk, -, rfl⟩ := hP.row_cases (fetch_eq_ok.1 hrow)
  have htame := hP.tame_constraint ha (Array.mem_of_getElem? hk)
  simp only [shiftTermsBy_strict htame]

theorem putBackBy_strict (hP : Posed P lbs ubs) {a : Assignment} (ha : Inside lbs ubs a) :
    putBackBy .strict P a.values = putBack P a.values := by
  funext caches occurrence
  refine bind_congr_ok fun row hrow => ?_
  obtain ⟨k, sense, hk, -, rfl⟩ := hP.row_cases (fetch_eq_ok.1 hrow)
  have htame := hP.tame_constraint ha (Array.mem_of_getElem? hk)
  simp only [shiftTermsBy_strict htame]

theorem moveToBy_strict [RandomSource ρ] (hP : Posed P lbs ubs) (hs : Consistent P lbs ubs s)
    (hm : Allowed P lbs ubs (v, x)) (old : Int) :
    moveToBy .strict P s v old x = moveTo P s v old x := by
  obtain ⟨b, hset, hb, -⟩ :=
    hs.inside.succeeds_setValue (hP.size_lbs ▸ hm.lt) hm.lb_le hm.le_ub
  have hput : ∀ a, s.assignment.setValue v x = .ok a →
      putBackBy .strict P a.values = putBack P a.values := by
    intro a ha
    cases hset.symm.trans ha
    exact putBackBy_strict hP hb
  unfold moveToBy moveTo
  simp only [takeOutBy_strict hP hs.inside]
  refine bind_congr fun delta => bind_congr fun occurrences => bind_congr fun out => ?_
  refine bind_congr_ok fun a ha => ?_
  rw [hput a ha]

theorem applyBy_strict [RandomSource ρ] (hP : Posed P lbs ubs) (hs : Consistent P lbs ubs s)
    (hv : v < P.formula.numVariables) (x : Int) :
    applyBy .strict P s v x = apply P s v x := by
  unfold applyBy apply
  refine bind_congr fun old => ?_
  split
  · rfl
  · refine bind_congr_ok fun admitted hadmits => ?_
    split
    · rename_i htrue
      have hadmits := mapError_eq_ok.1 hadmits
      rw [hs.admits_eq hP hv x, htrue] at hadmits
      have hbetween := of_decide_eq_true (Except.ok.inj hadmits)
      rw [moveToBy_strict hP hs ⟨hv, hbetween.1, hbetween.2⟩]
    · rfl

theorem ne_zero_of_boundedDirection {sense : Sense} {slope : Int} {d : Direction}
    (h : boundedDirection? sense slope = some d) : slope ≠ 0 := by
  rintro rfl
  simp [boundedDirection?] at h

theorem rawFeasibleBy_strict (hP : Posed P lbs ubs) (hs : Consistent P lbs ubs s) {c slot : Nat}
    (h : Occurs P v c slot) (d : Direction) :
    rawFeasibleBy .strict P s v c slot d = rawFeasible P s v c slot d := by
  have hv := hP.lt_of_occurs h
  obtain ⟨row, hrow, hslot⟩ := h
  obtain ⟨cache, hcache⟩ := hs.cache_of_row hrow
  obtain ⟨p, htame, hshows⟩ := hs.shows_of_row hP hrow hcache
  have hlt := hP.lt_size_values hs.inside hv
  obtain ⟨-, -, hroom⟩ := headroom_fits htame hlt (hP.limit_fits hrow)
  refine bind_congr_ok fun row' hrow' => ?_
  cases hrow.symm.trans (fetch_eq_ok.1 hrow')
  refine bind_congr_ok fun cache' hcache' => ?_
  cases hcache.symm.trans (fetch_eq_ok.1 hcache')
  refine bind_congr_ok fun slope hslope => ?_
  cases (hshows.getElem?_slopes hslot).symm.trans (fetch_eq_ok.1 hslope)
  split
  · rename_i hdirection
    have hne := ne_zero_of_boundedDirection hdirection
    refine bind_congr_ok fun value hvalue => ?_
    cases (hs.value_eq hP hv).symm.trans hvalue
    refine bind_congr_ok fun product hproduct => ?_
    refine bind_congr_ok fun free hfree => ?_
    refine bind_congr_ok fun room hlimit => ?_
    have hle : |room| ≤ Wide.greatest := by
      rw [← (Wide.exact_eq_ok.1 hlimit).1, ← (Wide.exact_eq_ok.1 hfree).1,
        ← (Wide.exact_eq_ok.1 hproduct).1, hshows.value_eq]
      exact hroom
    cases d with
    | up => simp only [Arithmetic.strict, Wide.divFloorStepwise_eq hle hne]
    | down => simp only [Arithmetic.strict, Wide.divCeilStepwise_eq hle hne]
  · rfl

theorem feasibleBy_strict (hP : Posed P lbs ubs) (hs : Consistent P lbs ubs s)
    (hv : v < P.formula.numVariables) (d : Direction) :
    feasibleBy .strict P s v d = feasible P s v d := by
  unfold feasibleBy feasible
  cases d
  all_goals
    refine bind_congr fun bound => bind_congr_ok fun occurrences hoccurrences => ?_
    cases (hP.occurrences v hv).symm.trans (fetch_eq_ok.1 hoccurrences)
    refine congrArg (· >>= fun last => clamp s.assignment v last _) (foldlM_congr ?_)
    rintro last ⟨c, slot⟩ ho
    refine bind_congr_of_eq (rawFeasibleBy_strict hP hs (hP.occurs_of_mem ho) _) fun raw => ?_
    cases raw <;> rfl

/-- On the way to another value a slope changes a sum by less than half of what
there is room for. -/
theorem Tame.abs_slopeAt_mul_sub_le {bound : Variable → Int} {p : Polynomial}
    {values : Array Int} (h : Tame bound p values) (hv : v < values.size) (hx : |x| ≤ bound v) :
    |p.slopeAt (valuation values) v * (x - valuation values v)| ≤
      maxMagnitude + maxMagnitude := by
  rw [mul_sub]
  exact (abs_sub _ _).trans (add_le_add (h.abs_slopeAt_mul_le hv hx)
    (h.abs_slopeAt_mul_le hv (h.within.abs_le v hv)))

theorem Tame.fits_change {bound : Variable → Int} {p : Polynomial} {values : Array Int}
    (h : Tame bound p values) (hv : v < values.size) (hx : |x| ≤ bound v) :
    Wide.Fits (p.slopeAt (valuation values) v * (x - valuation values v)) ∧
      Wide.Fits (p.eval (valuation values) +
        p.slopeAt (valuation values) v * (x - valuation values v)) := by
  have hchange := h.abs_slopeAt_mul_sub_le hv hx
  have hroom : maxMagnitude + (maxMagnitude + maxMagnitude) ≤ Wide.greatest := by decide
  have hpositive : 0 ≤ maxMagnitude := by decide
  have hvalue := h.abs_eval_le
  have hsum := abs_add_le (p.eval (valuation values))
    (p.slopeAt (valuation values) v * (x - valuation values v))
  exact ⟨Wide.fits_of_abs_le (hchange.trans (by omega)),
    Wide.fits_of_abs_le (hsum.trans (by omega))⟩

theorem rowScoreBy_strict {bound : Variable → Int} {p : Polynomial} {values : Array Int}
    {row : Row} {cache : Cache} (h : Tame bound p values)
    (hshows : cache.Shows row (p.eval (valuation values)) (p.slopeAt (valuation values)))
    (hv : v < values.size) (hx : |x| ≤ bound v) :
    rowScoreBy .strict row cache (p.slopeAt (valuation values) v) (x - valuation values v) =
      .ok (rowScore row cache (p.slopeAt (valuation values) v) (x - valuation values v)) := by
  obtain ⟨hmul, hadd⟩ := h.fits_change hv hx
  unfold rowScoreBy rowScore
  rw [hshows.value_eq, Wide.mulSaturating, Wide.saturate_of_fits hmul, Wide.addSaturating,
    Wide.saturate_of_fits hadd, Arithmetic.strict]
  dsimp only [Wide.mul, Wide.add]
  rw [Wide.exact_of_fits hmul]
  change (Wide.exact _ >>= _) = _
  rw [Wide.exact_of_fits hadd]
  rfl

namespace Allowed

theorem abs_le_reach (hm : Allowed P lbs ubs (v, x)) : |x| ≤ reach lbs ubs v :=
  Bounds.abs_le_reach hm.lb_le hm.le_ub

end Allowed

theorem hardScoreBy_strict (hP : Posed P lbs ubs) (hs : Consistent P lbs ubs s)
    (hm : Allowed P lbs ubs (v, x)) : hardScoreBy .strict P s v x = hardScore P s v x := by
  have hlt := hP.lt_size_values hs.inside hm.lt
  refine bind_congr_ok fun old hold => ?_
  cases (hs.value_eq hP hm.lt).symm.trans hold
  refine bind_congr_ok fun delta hdelta => ?_
  cases (hs.sub_eq hP hm).symm.trans hdelta
  refine bind_congr_ok fun occurrences hoccurrences => ?_
  cases (hP.occurrences v hm.lt).symm.trans (fetch_eq_ok.1 hoccurrences)
  apply foldlM_congr
  rintro score ⟨c, slot⟩ ho
  obtain ⟨row, hrow, hslot⟩ := hP.mem_occurrences.1 ho
  obtain ⟨cache, hcache⟩ := hs.cache_of_row hrow
  obtain ⟨p, htame, hshows⟩ := hs.shows_of_row hP hrow hcache
  refine bind_congr_ok fun row' hrow' => ?_
  cases hrow.symm.trans (fetch_eq_ok.1 hrow')
  refine bind_congr_ok fun cache' hcache' => ?_
  cases hcache.symm.trans (fetch_eq_ok.1 hcache')
  refine bind_congr_ok fun slope hslope => ?_
  cases (hshows.getElem?_slopes hslot).symm.trans (fetch_eq_ok.1 hslope)
  have hrowScore := rowScoreBy_strict htame hshows hlt hm.abs_le_reach
  change (rowScoreBy .strict row cache _ (x - s.point v) >>= _) = _
  rw [State.point, hrowScore]
  rfl

theorem softScoreBy_strict (hP : Posed P lbs ubs) (hs : Consistent P lbs ubs s)
    (hm : Allowed P lbs ubs (v, x)) : softScoreBy .strict P s v x = softScore P s v x := by
  have hlt := hP.lt_size_values hs.inside hm.lt
  refine bind_congr_ok fun coef hcoef => ?_
  cases (hP.coefs v hm.lt s.point).symm.trans (fetch_eq_ok.1 hcoef)
  refine bind_congr_ok fun old hold => ?_
  cases (hs.value_eq hP hm.lt).symm.trans hold
  refine bind_congr_ok fun delta hdelta => ?_
  cases (hs.sub_eq hP hm).symm.trans hdelta
  have hchange := (hP.tame_objective hs.inside).abs_slopeAt_mul_sub_le hlt hm.abs_le_reach
  have hmul := Wide.fits_of_abs_le (hchange.trans (by decide))
  rw [Wide.mulSaturating, State.point, Wide.saturate_of_fits hmul]
  change (Wide.exact _ >>= _) = _
  rw [Wide.exact_of_fits hmul]
  rfl

/-- A rise changes a term of the objective by no more than twice its magnitude. -/
theorem mul_strict_of_mem (hP : Posed P lbs ubs) (hs : Consistent P lbs ubs s) {coef : Int}
    (hterm : (v, coef) ∈ P.liftTerms) (hm : Allowed P lbs ubs (v, x)) :
    Arithmetic.strict.mul (-coef) (x - s.point v) =
      .ok (Wide.mulSaturating (-coef) (x - s.point v)) := by
  have hsize := (hP.tame_objective hs.inside).size_term_le (hP.mem_objective _ hterm)
  have hbound : |coef| * reach lbs ubs v ≤ maxMagnitude := by
    simpa [Monomial.size, Monomial.linear, Monomial.factorValue] using hsize
  have hsmall : ∀ y, |y| ≤ reach lbs ubs v → |coef * y| ≤ maxMagnitude := by
    intro y hy
    rw [abs_mul]
    exact (mul_le_mul_of_nonneg_left hy (abs_nonneg coef)).trans hbound
  have hold := hs.inside.between v (hP.size_lbs ▸ hm.lt)
  have hchange : |-coef * (x - s.point v)| ≤ maxMagnitude + maxMagnitude := by
    rw [neg_mul, abs_neg, mul_sub]
    exact (abs_sub _ _).trans (add_le_add (hsmall x hm.abs_le_reach)
      (hsmall _ (Bounds.abs_le_reach hold.1 hold.2)))
  have hfits := Wide.fits_of_abs_le (hchange.trans (by decide))
  rw [Wide.mulSaturating, Wide.saturate_of_fits hfits]
  exact Wide.exact_of_fits hfits

theorem liftGainBy_strict (hP : Posed P lbs ubs) (hs : Consistent P lbs ubs s)
    {term : Variable × Int} (hterm : term ∈ P.liftTerms) :
    liftGainBy? .strict P s term = liftGain? P s term := by
  obtain ⟨v, coef⟩ := term
  have hv := hP.liftTerms hterm
  refine bind_congr fun tabu => ?_
  split
  · rfl
  · rw [feasibleBy_strict hP hs hv]
    refine bind_congr_ok fun last hlast => ?_
    cases last with
    | none => rfl
    | some x =>
      have hm : Allowed P lbs ubs (v, x) := (succeeds_feasible hP hs hv .up).apply hlast x rfl
      refine bind_congr_ok fun old hold => ?_
      cases (hs.value_eq hP hv).symm.trans hold
      refine bind_congr_ok fun rise hrise => ?_
      cases (hs.sub_eq hP hm).symm.trans hrise
      rw [mul_strict_of_mem hP hs hterm hm]
      rfl

theorem liftMoveBy_strict [RandomSource ρ] (hP : Posed P lbs ubs) (hs : Consistent P lbs ubs s) :
    liftMoveBy .strict P s = liftMove P s := by
  have hbest : bestLiftBy .strict P s = bestLift P s := by
    apply foldlM_congr
    intro best term hterm
    refine bind_congr_of_eq (liftGainBy_strict hP hs hterm) fun next => ?_
    cases next <;> rfl
  unfold liftMoveBy liftMove
  rw [hbest]
  refine bind_congr_ok fun best hlifted => ?_
  cases best with
  | none => rfl
  | some b =>
    have hallowed := (succeeds_bestLift hP hs).apply (mapError_eq_ok.1 hlifted) b rfl
    simp only [applyBy_strict hP hs hallowed.lt]

theorem checkSlotBy_strict {bound : Variable → Int} {p : Polynomial} {a : Assignment}
    (h : Tame bound p a.values) (c : Nat) (cache : Cache) :
    checkSlotBy .strict P a c p cache = checkSlot P a c p cache := by
  funext entry
  simp only [checkSlotBy, checkSlot, h.slopeBy_eq, h.evaluateWithoutBy_eq]

theorem checkConsistencyBy_strict (hP : Posed P lbs ubs) (hs : Consistent P lbs ubs s) :
    checkConsistencyBy .strict P s = checkConsistency P s := by
  have hconstraints : P.formula.constraints.toList.zipIdx.forM (checkConstraintBy .strict P s) =
      P.formula.constraints.toList.zipIdx.forM (checkConstraint P s) := by
    apply forM_congr
    rintro ⟨k, c⟩ hentry
    have hk := List.mem_zipIdx_iff_getElem?.1 hentry
    rw [Array.getElem?_toList] at hk
    have htame := hP.tame_constraint hs.inside (Array.mem_of_getElem? hk)
    simp only [checkConstraintBy, checkConstraint, htame.evaluateBy_eq, checkSlotBy_strict htame]
  have hobjective : checkObjectiveBy .strict P s = checkObjective P s := by
    simp only [checkObjectiveBy, checkObjective, Formula.objectiveValue,
      (hP.tame_objective hs.inside).evaluateBy_eq]
  simp only [checkConsistencyBy, checkConsistency, hconstraints, hobjective]

/-- A computation of the search, written over an open arithmetic, has a result, and
with the strict arithmetic it has the same. -/
structure Unsaturated {ε α : Type} (x : Except ε α) (run : Arithmetic → Except ε α) : Prop where
  saturating_eq : run .saturating = x
  strict_eq : run .strict = x
  result : ∃ a, x = .ok a

/-- Everything kept at a state is exact, and all that is computed from it stays in
the 128-bit range without saturating. The bounds are those of a first assignment. -/
structure ExactAt [RandomSource ρ] (P : Problem) (first : Assignment) (s : State ρ) : Prop where
  caches : ∀ (c : Nat) (k : Constraint), P.formula.constraints[c]? = some k →
    ∃ row cache, P.rows[c]? = some row ∧ s.caches[c]? = some cache ∧
      cache.value = k.poly.eval s.point ∧ ∀ (slot : Nat) (v : Variable),
        row.vars[slot]? = some v → cache.slopes[slot]? = some (k.poly.slopeAt s.point v)
  objective : s.objective = P.formula.objective.eval s.point
  move : ∀ v x, Allowed P first.lbs first.ubs (v, x) →
    Unsaturated (apply P s v x) (applyBy · P s v x)
  refusal : ∀ v < P.formula.numVariables, ∀ x,
    ¬(valuation first.lbs v ≤ x ∧ x ≤ valuation first.ubs v) →
      apply P s v x = .error (.outside (P.formula.name v) x (valuation first.lbs v)
        (valuation first.ubs v)) ∧ applyBy .strict P s v x = apply P s v x
  rawFeasible : ∀ v c slot, Occurs P v c slot → ∀ d,
    Unsaturated (rawFeasible P s v c slot d) (rawFeasibleBy · P s v c slot d)
  hardScore : ∀ v x, Allowed P first.lbs first.ubs (v, x) →
    Unsaturated (hardScore P s v x) (hardScoreBy · P s v x)
  softScore : ∀ v x, Allowed P first.lbs first.ubs (v, x) →
    Unsaturated (softScore P s v x) (softScoreBy · P s v x)
  lift : Unsaturated (liftMove P s) (liftMoveBy · P s)
  check : Unsaturated (checkConsistency P s) (checkConsistencyBy · P s)

theorem Consistent.exactAt [RandomSource ρ] {first : Assignment} (hP : Posed P first.lbs first.ubs)
    (hs : Consistent P first.lbs first.ubs s) : ExactAt P first s where
  caches c k hk := by
    obtain ⟨sense, -, hrow⟩ := hP.row c k hk
    obtain ⟨cache, hcache⟩ := hs.cache_of_row hrow
    have hshows := hs.cached.shows c k _ cache hk hrow hcache
    exact ⟨_, cache, hrow, hcache, hshows.value_eq, fun _ _ => hshows.getElem?_slopes⟩
  objective := hs.objective_eq
  move v x hm := {
    saturating_eq := applyBy_saturating P s v x
    strict_eq := applyBy_strict hP hs hm.lt x
    result := (succeeds_apply hP hs hm).result }
  refusal v hv x hx := ⟨apply_refuses hP hs hv hx, applyBy_strict hP hs hv x⟩
  rawFeasible v c slot h d := {
    saturating_eq := rawFeasibleBy_saturating P s v c slot d
    strict_eq := rawFeasibleBy_strict hP hs h d
    result := (succeeds_rawFeasible hP hs h d).result }
  hardScore v x hm := {
    saturating_eq := hardScoreBy_saturating P s v x
    strict_eq := hardScoreBy_strict hP hs hm
    result := (succeeds_hardScore hP hs hm).result }
  softScore v x hm := {
    saturating_eq := softScoreBy_saturating P s v x
    strict_eq := softScoreBy_strict hP hs hm
    result := (succeeds_softScore hP hs hm).result }
  lift := {
    saturating_eq := liftMoveBy_saturating P s
    strict_eq := liftMoveBy_strict hP hs
    result := (succeeds_liftMove hP hs).result }
  check := {
    saturating_eq := checkConsistencyBy_saturating P s
    strict_eq := checkConsistencyBy_strict hP hs
    result := ⟨(), checkConsistency_eq_ok hP hs⟩ }

/-- On every reachable state of an accepted formula the caches are exact, and
nothing computed from them saturates or overflows. -/
theorem exactAt_of_reachable [RandomSource ρ] {f : Formula} (hf : f.Built) {settings : Settings}
    {source : ρ} {first : State ρ} (hstart : start f settings source = .ok (P, first))
    (hs : Reachable P first s) : ExactAt P first.assignment s := by
  obtain ⟨calls, hcalls, hperform⟩ := hs
  obtain ⟨-, -, hP, hfirst, hbest, -⟩ := start_eq_ok hf.wellFormed hstart
  obtain ⟨hs, -⟩ := (succeeds_performAll hP hfirst hbest hcalls).apply hperform
  exact hs.exactAt hP

theorem exactAt_of_cubicCalls : ∃ (P : Problem) (first s : State Random.Xoshiro),
    cubic.Built ∧ start cubic shortRun (.ofSeed 0) = .ok (P, first) ∧ Reachable P first s ∧
      ExactAt P first.assignment s := by
  obtain ⟨P, first, hstart, hvars⟩ := start_cubic
  obtain ⟨-, -, hP, hfirst, hbest, -⟩ := start_eq_ok built_cubic.wellFormed hstart
  have hcalls : ∀ call ∈ cubicCalls, call.Admissible P := by
    simp [cubicCalls, Call.Admissible, hvars]
  obtain ⟨s, hperform, -⟩ := succeeds_performAll hP hfirst hbest hcalls
  have hs : Reachable P first s := ⟨cubicCalls, hcalls, hperform⟩
  exact ⟨P, first, s, built_cubic, hstart, hs, exactAt_of_reachable built_cubic hstart hs⟩

end Search
end NonlinearInteger
