import NonlinearInteger.Search.Problem
import NonlinearInteger.Proofs.Magnitude

/-!
# Bounds of a search

The bounds of a search are the declared ones, some upper ones capped. They are
machine integers in order, and within them every constraint and the objective
stay below an eighth of the 128-bit range.
-/

namespace NonlinearInteger.Search

/-- The greatest absolute value between two bounds, at least one. -/
def reach (lbs ubs : Array Int) (v : Variable) : Int :=
  max (max |valuation lbs v| |valuation ubs v|) 1

/-- Bounds of the variables of a formula, inside their domains. -/
structure Bounds (f : Formula) (lbs ubs : Array Int) : Prop where
  size_lbs : lbs.size = f.numVariables
  size_ubs : ubs.size = f.numVariables
  ordered : ∀ v < f.numVariables, valuation lbs v ≤ valuation ubs v
  declared : ∀ v < f.numVariables, ∃ d, f.domains[v]? = some d ∧ d.Proper ∧
    valuation lbs v = d.lb ∧ valuation ubs v ≤ d.ub

/-- Bounds that keep a formula within 128-bit arithmetic. -/
structure SafeBounds (f : Formula) (lbs ubs : Array Int) : Prop extends Bounds f lbs ubs where
  constraints : ∀ c ∈ f.constraints, c.poly.size (reach lbs ubs) ≤ maxMagnitude
  objective : f.objective.size (reach lbs ubs) ≤ maxMagnitude

/-- An assignment with given bounds and a value for every variable within them. -/
structure Inside (lbs ubs : Array Int) (a : Assignment) : Prop where
  lbs_eq : a.lbs = lbs
  ubs_eq : a.ubs = ubs
  size_values : a.values.size = lbs.size
  between : ∀ v < lbs.size,
    valuation lbs v ≤ valuation a.values v ∧ valuation a.values v ≤ valuation ubs v

variable {f : Formula} {lbs ubs : Array Int}

namespace Bounds

theorem fits (h : Bounds f lbs ubs) {v : Variable} (hv : v < f.numVariables) :
    FitsInt64 (valuation lbs v) ∧ FitsInt64 (valuation ubs v) := by
  obtain ⟨d, -, hd, hlb, hub⟩ := h.declared v hv
  have hle := h.ordered v hv
  have hlbfits := hd.lb_fits
  have hubfits := hd.ub_fits
  unfold FitsInt64 at *
  omega

theorem one_le_reach (lbs ubs : Array Int) (v : Variable) : 1 ≤ reach lbs ubs v :=
  Int.le_max_right ..

theorem reach_le (h : Bounds f lbs ubs) {v : Variable} (hv : v < f.numVariables) :
    reach lbs ubs v ≤ 9223372036854775808 := by
  obtain ⟨hlb, hub⟩ := h.fits hv
  have hlb := abs_le.2 (show -9223372036854775808 ≤ valuation lbs v ∧ _ ≤ 9223372036854775808 from
    ⟨hlb.1, by have := hlb.2; omega⟩)
  have hub := abs_le.2 (show -9223372036854775808 ≤ valuation ubs v ∧ _ ≤ 9223372036854775808 from
    ⟨hub.1, by have := hub.2; omega⟩)
  unfold reach
  omega

theorem abs_le_reach {x : Int} {v : Variable} (hlb : valuation lbs v ≤ x)
    (hub : x ≤ valuation ubs v) : |x| ≤ reach lbs ubs v := by
  have hl := neg_abs_le (valuation lbs v)
  have hu := le_abs_self (valuation ubs v)
  unfold reach
  rw [abs_le]
  omega

theorem within {a : Assignment} (ha : Inside lbs ubs a) :
    Within lbs.size (reach lbs ubs) (valuation a.values) :=
  ⟨fun v _ => one_le_reach lbs ubs v,
    fun v hv => abs_le_reach (ha.between v hv).1 (ha.between v hv).2⟩

end Bounds

theorem valuation_declared {v : Variable} {d : Domain} (hd : f.domains[v]? = some d) :
    valuation (declared f).lbs v = d.lb ∧ valuation (declared f).ubs v = d.ub := by
  simp [declared, valuation, hd]

theorem bounds_declared (hf : f.WellFormed) :
    Bounds f (declared f).lbs (declared f).ubs := by
  have hget : ∀ v < f.numVariables, ∃ d, f.domains[v]? = some d ∧ d.Proper ∧
      valuation (declared f).lbs v = d.lb ∧ valuation (declared f).ubs v = d.ub := by
    intro v hv
    have hlt : v < f.domains.size := hf.domainCount ▸ hv
    have hd : f.domains[v]? = some f.domains[v] := by simp [hlt]
    exact ⟨f.domains[v], hd, hf.domains _ (Array.getElem_mem hlt), valuation_declared hd⟩
  refine ⟨by simp [declared, hf.domainCount], by simp [declared, hf.domainCount], ?_, ?_⟩
  · intro v hv
    obtain ⟨d, -, hd, hlb, hub⟩ := hget v hv
    rw [hlb, hub]
    exact hd.ordered
  · intro v hv
    obtain ⟨d, hget, hd, hlb, hub⟩ := hget v hv
    exact ⟨d, hget, hd, hlb, hub.le⟩

/-- Upper bounds lowered to limits, but to none below the lower bounds, which are kept. -/
structure Tightened (a b : Assignment) (limits : Variable → Int → Prop) : Prop where
  lbs_eq : b.lbs = a.lbs
  size_ubs : b.ubs.size = a.ubs.size
  le_ub_iff : ∀ (v : Variable) (x : Int), x ≤ valuation b.ubs v ↔ x ≤ valuation a.ubs v ∧
    ∀ limit, limits v limit → valuation a.lbs v ≤ limit → x ≤ limit

namespace Tightened

variable {a b : Assignment}

theorem congr {p q : Variable → Int → Prop} (h : Tightened a b p) (hpq : ∀ v x, p v x ↔ q v x) :
    Tightened a b q := by
  obtain rfl : p = q := funext₂ fun v x => propext (hpq v x)
  exact h

theorem foldlM {α : Type} {step : Assignment → α → Checked Assignment}
    {limits : α → Variable → Int → Prop} {items : List α} (h : items.foldlM step a = .ok b)
    (hstep : ∀ a b item, step a item = .ok b → Tightened a b (limits item)) :
    Tightened a b fun v limit => ∃ item ∈ items, limits item v limit := by
  induction items generalizing a with
  | nil =>
    cases pure_eq_ok.1 h
    exact ⟨rfl, rfl, by simp⟩
  | cons item items ih =>
    rw [List.foldlM_cons] at h
    obtain ⟨c, hc, h⟩ := bind_eq_ok.1 h
    have hfirst := hstep a c item hc
    have hrest := ih h
    refine ⟨hrest.lbs_eq.trans hfirst.lbs_eq, hrest.size_ubs.trans hfirst.size_ubs, fun v x => ?_⟩
    rw [hrest.le_ub_iff, hfirst.le_ub_iff, hfirst.lbs_eq, and_assoc]
    refine and_congr_right fun _ => ?_
    simp only [List.mem_cons, exists_eq_or_imp]
    grind

end Tightened

theorem tightened_of_cap {limit : Int} {a b : Assignment} {v : Variable}
    (h : cap limit a v = .ok b) : Tightened a b fun w x => w = v ∧ x = limit := by
  have hlbs := lbs_of_cap h
  obtain ⟨lb, hlb, h⟩ := bind_eq_ok.1 h
  obtain ⟨ub, hub, h⟩ := bind_eq_ok.1 h
  have hlb : valuation a.lbs v = lb := by simp [valuation, fetch_eq_ok.1 hlb]
  have hub : valuation a.ubs v = ub := by simp [valuation, fetch_eq_ok.1 hub]
  split at h
  · rename_i hcap
    obtain ⟨ubs, hstore, h⟩ := bind_eq_ok.1 h
    obtain ⟨hsize, hget⟩ := getElem?_of_store hstore
    cases pure_eq_ok.1 h
    refine ⟨hlbs, hsize, fun w x => ?_⟩
    have hnew : valuation ubs w = if w = v then limit else valuation a.ubs w := by
      simp only [valuation, Array.getD_eq_getD_getElem?, hget w]
      split <;> rfl
    change x ≤ valuation ubs w ↔ _
    rw [hnew]
    grind
  · rename_i hkept
    cases pure_eq_ok.1 h
    refine ⟨rfl, rfl, fun w x => ?_⟩
    grind

theorem tightened_of_capRow {a b : Assignment} {row : Row} (h : capRow a row = .ok b) :
    Tightened a b fun v limit => row.sense = .le ∧ v ∈ row.vars ∧ limit = row.limit := by
  unfold capRow at h
  split at h
  · rename_i hle
    have hvars := Tightened.foldlM h fun _ _ _ => tightened_of_cap
    exact hvars.congr fun v limit => by simp [hle]
  · rename_i hge
    cases pure_eq_ok.1 h
    exact ⟨rfl, rfl, by simp [hge]⟩

/-- The initial bounds are the declared ones, lowered to the limits of the rows. -/
theorem tightened_of_initial {rows : Array Row} {a : Assignment} (h : initial f rows = .ok a) :
    Tightened (declared f) a fun v limit =>
      ∃ row ∈ rows.toList, row.sense = .le ∧ v ∈ row.vars ∧ limit = row.limit := by
  obtain ⟨b, hb, h⟩ := bind_eq_ok.1 h
  have hrows := Tightened.foldlM hb fun _ _ _ => tightened_of_capRow
  rw [← pure_eq_ok.1 h]
  exact ⟨hrows.lbs_eq, hrows.size_ubs, hrows.le_ub_iff⟩

theorem Bounds.of_tightened {a b : Assignment} {limits : Variable → Int → Prop}
    (h : Tightened a b limits) (ha : Bounds f a.lbs a.ubs) : Bounds f b.lbs b.ubs where
  size_lbs := h.lbs_eq ▸ ha.size_lbs
  size_ubs := h.size_ubs.trans ha.size_ubs
  ordered v hv := by
    rw [h.lbs_eq, h.le_ub_iff]
    exact ⟨ha.ordered v hv, fun _ _ hle => hle⟩
  declared v hv := by
    obtain ⟨d, hd, hproper, hlb, hub⟩ := ha.declared v hv
    have hle := ((h.le_ub_iff v _).1 le_rfl).1
    exact ⟨d, hd, hproper, h.lbs_eq ▸ hlb, hle.trans hub⟩

theorem nearestZero_between {lb ub : Int} (h : lb ≤ ub) :
    lb ≤ nearestZero lb ub ∧ nearestZero lb ub ≤ ub := by
  unfold nearestZero
  split
  · omega
  · split <;> omega

theorem valuation_settle {a : Assignment} (hsize : a.lbs.size = a.ubs.size) {v : Variable}
    (hv : v < a.lbs.size) : valuation (settle a).values v =
      nearestZero (valuation a.lbs v) (valuation a.ubs v) := by
  have hub : v < a.ubs.size := hsize ▸ hv
  simp [valuation, settle, hv, hub]

theorem inside_settle {a : Assignment} (ha : Bounds f a.lbs a.ubs) :
    Inside a.lbs a.ubs (settle a) := by
  have hsize := ha.size_lbs.trans ha.size_ubs.symm
  refine ⟨rfl, rfl, by simp [settle, hsize], fun v hv => ?_⟩
  rw [valuation_settle hsize hv]
  exact nearestZero_between (ha.ordered v (ha.size_lbs ▸ hv))

theorem inside_initial (hf : f.WellFormed) {rows : Array Row} {a : Assignment}
    (h : initial f rows = .ok a) : Bounds f a.lbs a.ubs ∧ Inside a.lbs a.ubs a := by
  have hbounds := (bounds_declared hf).of_tightened (tightened_of_initial h)
  obtain ⟨b, -, h⟩ := bind_eq_ok.1 h
  cases pure_eq_ok.1 h
  exact ⟨hbounds, inside_settle hbounds⟩

theorem magnitude_eq {a : Assignment} {v : Variable} (hlb : v < a.lbs.size)
    (hub : v < a.ubs.size) : magnitude a v = .ok (reach a.lbs a.ubs v) := by
  unfold magnitude
  have hl : a.lb v = .ok (valuation a.lbs v) := fetch_eq_ok.2 (getElem?_eq_valuation hlb)
  have hu : a.ub v = .ok (valuation a.ubs v) := fetch_eq_ok.2 (getElem?_eq_valuation hub)
  rw [hl, hu]
  simp [bind, Except.bind, pure, Except.pure, reach]

theorem fitsWithin_eq {a : Assignment} {p : Polynomial} (hp : p.Over a.lbs.size)
    (hsize : a.ubs.size = a.lbs.size) :
    fitsWithin a p = .ok (decide (p.size (reach a.lbs a.ubs) ≤ maxMagnitude)) := by
  have hone : ∀ v < a.lbs.size, 1 ≤ reach a.lbs a.ubs v :=
    fun v _ => Bounds.one_le_reach a.lbs a.ubs v
  have hbound : p.magnitudeBound (magnitude a) = Wide.exact (p.size (reach a.lbs a.ubs)) :=
    Polynomial.magnitudeBound_eq hp.among (fun v hv => magnitude_eq hv (hsize ▸ hv)) hone
  unfold fitsWithin
  rw [hbound]
  by_cases hfits : Wide.Fits (p.size (reach a.lbs a.ubs))
  · rw [Wide.exact_of_fits hfits]
  · have hgreat : ¬p.size (reach a.lbs a.ubs) ≤ maxMagnitude := by
      intro hle
      have hmax : maxMagnitude ≤ Wide.greatest := by decide
      rw [Wide.fits_iff_of_nonneg (Polynomial.size_nonneg (.self hone) hp.among)] at hfits
      exact hfits (hle.trans hmax)
    rw [Wide.exact_of_not_fits hfits, decide_eq_false hgreat]

theorem size_le_of_fitsWithin {a : Assignment} {p : Polynomial} (hp : p.Over a.lbs.size)
    (hsize : a.ubs.size = a.lbs.size) (h : fitsWithin a p = .ok true) :
    p.size (reach a.lbs a.ubs) ≤ maxMagnitude := by
  rw [fitsWithin_eq hp hsize] at h
  exact of_decide_eq_true (Except.ok.inj h)

theorem fitsWithin_of_checkMagnitudes {a : Assignment} {index : Nat} {cs : List Constraint}
    (h : checkMagnitudes a index cs = .ok ()) : ∀ c ∈ cs, fitsWithin a c.poly = .ok true := by
  induction cs generalizing index with
  | nil => simp
  | cons c cs ih =>
    obtain ⟨fits, hfits, h⟩ := bind_eq_ok.1 h
    have hfits := mapError_eq_ok.1 hfits
    cases fits with
    | false => cases h
    | true =>
      intro d hd
      rcases List.mem_cons.1 hd with rfl | hd
      · exact hfits
      · exact ih h d hd

/-- Bounds within which every polynomial passes the check are safe. -/
theorem safeBounds_of_checks (hf : f.WellFormed) {a : Assignment} (ha : Bounds f a.lbs a.ubs)
    {index : Nat} (hcheck : checkMagnitudes a index f.constraints.toList = .ok ())
    (hfits : fitsWithin a f.objective = .ok true) : SafeBounds f a.lbs a.ubs := by
  have hsize : a.ubs.size = a.lbs.size := ha.size_ubs.trans ha.size_lbs.symm
  refine ⟨ha, ?_, ?_⟩
  · intro c hc
    have hover := hf.constraints c hc
    rw [← ha.size_lbs] at hover
    exact size_le_of_fitsWithin hover hsize
      (fitsWithin_of_checkMagnitudes hcheck c (Array.mem_def.1 hc))
  · have hover := hf.objective
    rw [← ha.size_lbs] at hover
    exact size_le_of_fitsWithin hover hsize hfits

end NonlinearInteger.Search
