import NonlinearInteger.Proofs.Builders
import NonlinearInteger.Proofs.Saturation

/-!
# Verification of values

Whether values are a solution is decided on saturated evaluations. The verdict is
that of exact integers unless a constraint has large terms of both signs.
-/

namespace NonlinearInteger

/-- Whether a constraint holds of the exact value of its polynomial. -/
def Constraint.HoldsAt (σ : Variable → Int) (c : Constraint) : Prop :=
  c.relation.holds (c.poly.eval σ) c.limit = some true

instance (σ : Variable → Int) (c : Constraint) : Decidable (c.HoldsAt σ) :=
  inferInstanceAs (Decidable (_ = _))

namespace Polynomial

/-- The sum of the positive terms. -/
def positivePart (σ : Variable → Int) (p : Polynomial) : Int :=
  (p.monomials.map fun m => max 0 (m.eval σ)).sum

/-- The magnitude of the sum of the negative terms. -/
def negativePart (σ : Variable → Int) (p : Polynomial) : Int :=
  (p.monomials.map fun m => max 0 (-m.eval σ)).sum

/-- The positive or the negative terms stay clear of the 128-bit range. -/
def OneSided (σ : Variable → Int) (p : Polynomial) : Prop :=
  p.positivePart σ ≤ Wide.margin ∨ p.negativePart σ ≤ Wide.margin

instance (σ : Variable → Int) (p : Polynomial) : Decidable (p.OneSided σ) :=
  inferInstanceAs (Decidable (_ ∨ _))

theorem foldl_escapes {σ : Variable → Int} {side : Int} (hside : side = 1 ∨ side = -1)
    {ms : List Monomial} (hms : ∀ m ∈ ms, m.vars ≠ []) {x e back : Int} (hback : 0 ≤ back)
    (hx : Wide.Fits x) (h : Wide.Escapes side back x e)
    (hmargin : back + (ms.map fun m => Wide.against side (m.eval σ)).sum ≤ Wide.margin) :
    Wide.Escapes side (back + (ms.map fun m => Wide.against side (m.eval σ)).sum)
      (ms.foldl (fun total m => Wide.addSaturating total (m.clipped σ)) x)
      (e + evalTerms σ ms) := by
  induction ms generalizing x e back with
  | nil => simpa [evalTerms] using h
  | cons m ms ih =>
    simp only [List.map_cons, List.sum_cons] at hmargin ⊢
    have hm := Wide.against_nonneg side (m.eval σ)
    have hrest : 0 ≤ (ms.map fun m => Wide.against side (m.eval σ)).sum :=
      List.sum_nonneg (by simp [Wide.against_nonneg])
    have hstep := h.add hside hback hx (Monomial.clipped_clips (hms m List.mem_cons_self) σ)
      (by omega)
    rw [List.foldl_cons, evalTerms, ← Int.add_assoc, ← Int.add_assoc]
    exact ih (fun n hn => hms n (List.mem_cons_of_mem m hn)) (by omega)
      (Wide.fits_saturate _) hstep (by omega)

theorem evaluate_eq_foldl {p : Polynomial} {values : Array Int} (hp : p.Over values.size) :
    p.evaluate values = .ok (p.monomials.foldl
      (fun total m => Wide.addSaturating total (m.clipped (valuation values))) 0) :=
  accumulate_eq_foldl (fun m hm => Monomial.evaluate_eq_clipped (hp m hm).2) 0

/-- The terms of a side are few in magnitude whichever side is named. -/
theorem OneSided.exists_side {σ : Variable → Int} {p : Polynomial} (h : p.OneSided σ) :
    ∃ side : Int, (side = 1 ∨ side = -1) ∧
      (p.monomials.map fun m => Wide.against side (m.eval σ)).sum ≤ Wide.margin := by
  rcases h with h | h
  · exact ⟨-1, .inr rfl, by simpa [Wide.against, positivePart] using h⟩
  · exact ⟨1, .inl rfl, by simpa [Wide.against, negativePart] using h⟩

/-- The saturated value of a one-sided polynomial compares like the exact one. -/
theorem OneSided.evaluate {p : Polynomial} {values : Array Int} (hp : p.Over values.size)
    (h : p.OneSided (valuation values)) {limit : Int} (hlimit : FitsInt64 limit) :
    Succeeds (p.evaluate values) fun x => (x ≤ limit ↔ p.eval (valuation values) ≤ limit) ∧
      (limit ≤ x ↔ limit ≤ p.eval (valuation values)) ∧
      (x = limit ↔ p.eval (valuation values) = limit) := by
  obtain ⟨side, hside, hmargin⟩ := h.exists_side
  have hvars : ∀ m ∈ p.monomials, m.vars ≠ [] := by
    intro m hm hnil
    simpa [Monomial.isEmpty, hnil] using (hp m hm).1
  have hstart : Wide.Escapes side 0 0 0 := .inl ⟨rfl, by simp⟩
  have hrun := foldl_escapes hside hvars le_rfl (by decide) hstart (by simpa using hmargin)
  simp only [Int.zero_add] at hrun
  exact ⟨_, evaluate_eq_foldl hp, hrun.compare hside hmargin hlimit⟩

end Polynomial

theorem Constraint.satisfied_of_oneSided {c : Constraint} {values : Array Int}
    (hover : c.poly.Over values.size) (hlimit : FitsInt64 c.limit)
    (hdefined : c.relation ≠ .undefined) (h : c.poly.OneSided (valuation values)) :
    c.satisfied values = .ok (decide (c.HoldsAt (valuation values))) := by
  obtain ⟨x, hx, hle, hge, heq⟩ := h.evaluate hover hlimit
  have hsame : c.relation.holds x c.limit =
      c.relation.holds (c.poly.eval (valuation values)) c.limit := by
    cases c.relation <;> simp [Relation.holds, hle, hge, heq]
  obtain ⟨b, hb⟩ : ∃ b, c.relation.holds (c.poly.eval (valuation values)) c.limit = some b :=
    Option.ne_none_iff_exists'.1 (mt Relation.holds_eq_none_iff.1 hdefined)
  simp [Constraint.satisfied, HoldsAt, hx, hsame, hb]

namespace Formula

/-- One value for each variable, each inside its declared domain. -/
def InDomains (f : Formula) (values : Array Int) : Prop :=
  values.size = f.numVariables ∧
    ∀ v < f.numVariables, ∃ d, f.domains[v]? = some d ∧ d.contains (valuation values v) = true

theorem violated_eq {f : Formula} {values : Array Int} {holds : Constraint → Bool}
    (h : ∀ c ∈ f.constraints, c.satisfied values = .ok (holds c)) :
    f.violated values =
      .ok ((f.constraints.toList.zipIdx.filter fun entry => !holds entry.1).map Prod.snd) := by
  have hrun : ∀ entries : List (Constraint × Nat), (∀ entry ∈ entries, entry.1 ∈ f.constraints) →
      entries.filterMapM (fun entry => do
        return if ← entry.1.satisfied values then none else some entry.2) =
        (.ok ((entries.filter fun entry => !holds entry.1).map Prod.snd) :
          Except Violation (List Nat)) := by
    intro entries hentries
    induction entries with
    | nil => rfl
    | cons entry entries ih =>
      obtain ⟨c, i⟩ := entry
      have hc : c.satisfied values = .ok (holds c) := h c (hentries (c, i) List.mem_cons_self)
      simp only [List.filterMapM_cons, hc, ih fun e he => hentries e (List.mem_cons_of_mem _ he)]
      cases hholds : holds c <;> simp [hholds, bind, Except.bind, pure, Except.pure]
  refine hrun _ fun entry hentry => ?_
  exact Array.mem_def.2 (List.fst_mem_of_mem_zipIdx hentry)

theorem firstOutside_eq_none_iff {f : Formula} {values : Array Int}
    (hsize : values.size = f.numVariables) (hdomains : f.domains.size = f.numVariables) :
    f.firstOutside? values = none ↔ f.InDomains values := by
  simp only [firstOutside?, Option.map_eq_none_iff, List.find?_eq_none, InDomains, hsize,
    true_and]
  constructor
  · intro h v hv
    have hx : values[v]? = some (valuation values v) := getElem?_eq_valuation (hsize ▸ hv)
    have hd : f.domains[v]? = some f.domains[v] := by simp [hdomains, hv]
    refine ⟨_, hd, ?_⟩
    have hmem : ((valuation values v, f.domains[v]), v) ∈
        (values.toList.zip f.domains.toList).zipIdx := by
      rw [List.mem_zipIdx_iff_getElem?, List.getElem?_zip_eq_some]
      exact ⟨by simpa using hx, by simp [hdomains, hv]⟩
    simpa using h _ hmem
  · rintro h ⟨⟨x, d⟩, v⟩ hmem
    rw [List.mem_zipIdx_iff_getElem?, List.getElem?_zip_eq_some] at hmem
    obtain ⟨hx, hd⟩ := hmem
    simp only [Array.getElem?_toList] at hx hd
    have hv : v < f.numVariables := by
      rw [← hsize]
      exact (Array.getElem?_eq_some_iff.1 hx).1
    obtain ⟨d', hd', hcontains⟩ := h v hv
    have hval : valuation values v = x := by simp [valuation, hx]
    rw [hd] at hd'
    cases hd'
    simpa [hval] using hcontains

/-- When every constraint can be compared, verification accepts exactly the
values in their domains that satisfy all of them. -/
theorem verify_eq_ok_of_satisfied {f : Formula} {values : Array Int} {holds : Constraint → Bool}
    (hdomains : f.domains.size = f.numVariables)
    (h : f.InDomains values → ∀ c ∈ f.constraints, c.satisfied values = .ok (holds c)) :
    f.verify values = .ok () ↔ f.InDomains values ∧ ∀ c ∈ f.constraints, holds c = true := by
  unfold verify
  split
  · rename_i hsize
    cases hfirst : f.firstOutside? values with
    | some entry =>
      have hout : ¬f.InDomains values := fun hin => by
        rw [(firstOutside_eq_none_iff hsize hdomains).2 hin] at hfirst
        cases hfirst
      simp [hout]
    | none =>
      have hin := (firstOutside_eq_none_iff hsize hdomains).1 hfirst
      have hall : (f.constraints.toList.zipIdx.filter fun entry => !holds entry.1) = [] ↔
          ∀ c ∈ f.constraints, holds c = true := by
        rw [List.filter_eq_nil_iff]
        constructor
        · intro hnone c hc
          obtain ⟨i, hi⟩ := List.mem_iff_getElem?.1 (Array.mem_def.1 hc)
          simpa using hnone (c, i) (List.mem_zipIdx_iff_getElem?.2 hi)
        · intro hholds entry hentry
          simpa using hholds _ (Array.mem_def.2 (List.fst_mem_of_mem_zipIdx hentry))
      simp only [violated_eq (h hin), hin, true_and, ← hall]
      cases f.constraints.toList.zipIdx.filter fun entry => !holds entry.1 <;>
        simp [bind, Except.bind, pure, Except.pure, throw, throwThe, MonadExceptOf.throw]
  · rename_i hsize
    simp [InDomains, hsize]

/-- Verification accepts exactly the solutions in exact integers, as long as no
constraint has terms of both signs that leave the 128-bit range. -/
theorem verify_eq_ok_iff {f : Formula} (hf : f.Built)
    (hdefined : ∀ c ∈ f.constraints, c.relation ≠ .undefined) {values : Array Int}
    (hsides : f.InDomains values → ∀ c ∈ f.constraints, c.poly.OneSided (valuation values)) :
    f.verify values = .ok () ↔
      f.InDomains values ∧ ∀ c ∈ f.constraints, c.HoldsAt (valuation values) := by
  have hwf := hf.wellFormed
  have hsat : f.InDomains values → ∀ c ∈ f.constraints,
      c.satisfied values = .ok (decide (c.HoldsAt (valuation values))) := by
    intro hin c hc
    have hover : c.poly.Over values.size := hin.1 ▸ hwf.constraints c hc
    exact Constraint.satisfied_of_oneSided hover (hwf.limits c hc) (hdefined c hc)
      (hsides hin c hc)
  simpa using verify_eq_ok_of_satisfied hwf.domainCount hsat

/-- The difference of two fifth powers is at most zero. -/
def fifthPowers : Formula where
  numVariables := 2
  constraints := #[.of
    (.ofMonomials [.ofFactors [0, 0, 0, 0, 0] 1, .ofFactors [1, 1, 1, 1, 1] (-1)]) .le 0]
  objective := .empty
  domains := #[.standard, .standard]
  names := #[]

theorem built_fifthPowers : fifthPowers.Built := by decide

/-- One term beyond the range is no matter, though it saturates. -/
theorem verify_fifthPowers_of_large :
    fifthPowers.Built ∧ (∀ c ∈ fifthPowers.constraints, c.relation ≠ .undefined) ∧
      (fifthPowers.InDomains #[1073741824, 1] →
        ∀ c ∈ fifthPowers.constraints, c.poly.OneSided (valuation #[1073741824, 1])) ∧
      (fifthPowers.verify #[1073741824, 1] = .ok () ↔ fifthPowers.InDomains #[1073741824, 1] ∧
        ∀ c ∈ fifthPowers.constraints, c.HoldsAt (valuation #[1073741824, 1])) := by
  have hdefined : ∀ c ∈ fifthPowers.constraints, c.relation ≠ .undefined := by decide
  have hsides : fifthPowers.InDomains #[1073741824, 1] →
      ∀ c ∈ fifthPowers.constraints, c.poly.OneSided (valuation #[1073741824, 1]) :=
    fun _ => by decide
  exact ⟨built_fifthPowers, hdefined, hsides, verify_eq_ok_iff built_fifthPowers hdefined hsides⟩

/-- Two terms of opposite signs beyond the range saturate to equal magnitudes, and
values are accepted that violate the constraint. -/
theorem verify_accepts_violated : fifthPowers.Built ∧
    (∀ c ∈ fifthPowers.constraints, c.relation ≠ .undefined) ∧
    fifthPowers.verify #[2147483647, 1073741824] = .ok () ∧
    ¬∀ c ∈ fifthPowers.constraints, c.HoldsAt (valuation #[2147483647, 1073741824]) := by
  refine ⟨built_fifthPowers, by decide, rfl, by decide⟩

end Formula
end NonlinearInteger
