import NonlinearInteger.Proofs.Caches
import NonlinearInteger.Proofs.IndexSets
import NonlinearInteger.Proofs.Verification

/-!
# Consistent states

Everything that a state keeps beside its assignment is what the assignment
determines: the caches, the violated constraints, and the objective. A move
within the bounds keeps it so, whatever the shape of the constraints, and every
other move is refused.
-/

namespace NonlinearInteger

namespace Polynomial

variable {p : Polynomial} {σ τ : Variable → Int} {v : Variable}

theorem eval_congr_of_notMem (hp : ∀ m ∈ p.monomials, v ∉ m.vars)
    (h : ∀ w, w ≠ v → τ w = σ w) : p.eval τ = p.eval σ := by
  rw [eval, eval, evalTerms_eq_sum, evalTerms_eq_sum]
  refine congrArg List.sum (List.map_congr_left fun m hm => ?_)
  apply Monomial.eval_congr
  intro w hw
  exact h w fun heq => hp m hm (heq ▸ hw)

theorem slopeAt_congr_of_notMem (hp : ∀ m ∈ p.monomials, v ∉ m.vars)
    (h : ∀ w, w ≠ v → τ w = σ w) : p.slopeAt τ = p.slopeAt σ := by
  funext u
  unfold slopeAt slopeTerms
  refine congrArg List.sum (List.map_congr_left fun m hm => ?_)
  apply Monomial.slopeAt_congr
  intro w hw
  exact h w fun heq => hp m hm (heq ▸ hw)

end Polynomial

namespace Search

variable {P : Problem} {lbs ubs : Array Int}

namespace Posed

theorem size_lbs (hP : Posed P lbs ubs) : lbs.size = P.formula.numVariables :=
  hP.bounds.size_lbs

theorem size_values (hP : Posed P lbs ubs) {a : Assignment} (ha : Inside lbs ubs a) :
    a.values.size = P.formula.numVariables :=
  ha.size_values.trans hP.size_lbs

theorem lt_size_values (hP : Posed P lbs ubs) {a : Assignment} (ha : Inside lbs ubs a)
    {v : Variable} (hv : v < P.formula.numVariables) : v < a.values.size :=
  hv.trans_eq (hP.size_values ha).symm

theorem getElem?_values (hP : Posed P lbs ubs) {a : Assignment} (ha : Inside lbs ubs a)
    {v : Variable} (hv : v < P.formula.numVariables) :
    a.values[v]? = some (valuation a.values v) :=
  getElem?_eq_valuation (hP.lt_size_values ha hv)

theorem tame_constraint (hP : Posed P lbs ubs) {a : Assignment} (ha : Inside lbs ubs a)
    {k : Constraint} (hk : k ∈ P.formula.constraints) :
    Tame (reach lbs ubs) k.poly a.values := by
  have hsize := hP.size_values ha
  refine ⟨?_, ?_, hP.bounds.constraints k hk⟩
  · rw [hsize]
    exact hP.formula.constraints k hk
  · rw [ha.size_values]
    exact Bounds.within ha

theorem tame_objective (hP : Posed P lbs ubs) {a : Assignment} (ha : Inside lbs ubs a) :
    Tame (reach lbs ubs) P.formula.objective a.values := by
  have hsize := hP.size_values ha
  refine ⟨?_, ?_, hP.bounds.objective⟩
  · rw [hsize]
    exact hP.formula.objective
  · rw [ha.size_values]
    exact Bounds.within ha

end Posed

/-- The caches are those of an assignment. -/
structure Cached (P : Problem) (σ : Variable → Int) (caches : Array Cache) : Prop where
  size_eq : caches.size = P.rows.size
  shows : ∀ (c : Nat) (k : Constraint) (row : Row) (cache : Cache),
    P.formula.constraints[c]? = some k → P.rows[c]? = some row → caches[c]? = some cache →
      cache.Shows row (k.poly.eval σ) (k.poly.slopeAt σ)

/-- A constraint does not hold of the exact value of its polynomial. -/
def Violates (P : Problem) (σ : Variable → Int) (c : Nat) : Prop :=
  ∃ k, P.formula.constraints[c]? = some k ∧ ¬k.HoldsAt σ

/-- The members are the violated constraints. -/
structure Filed (P : Problem) (σ : Variable → Int) (violated : IndexSet) : Prop where
  valid : violated.Valid P.rows.size
  mem_iff : ∀ c, c ∈ violated.members ↔ Violates P σ c

variable {ρ : Type}

/-- The exact values of the current assignment. -/
def State.point (s : State ρ) : Variable → Int := valuation s.assignment.values

structure Consistent (P : Problem) (lbs ubs : Array Int) (s : State ρ) : Prop where
  inside : Inside lbs ubs s.assignment
  cached : Cached P s.point s.caches
  filed : Filed P s.point s.violated
  objective_eq : s.objective = P.formula.objective.eval s.point
  size_tabuUntil : s.tabuUntil.size = P.formula.numVariables

/-- What is left of a state by the steps of a search: it stays consistent, and
the best assignment and the counters are not touched. -/
structure Continues (P : Problem) (lbs ubs : Array Int) (s t : State ρ) : Prop where
  consistent : Consistent P lbs ubs t
  best_eq : t.best = s.best
  bestUnsat_eq : t.bestUnsat = s.bestUnsat
  bestObjective_eq : t.bestObjective = s.bestObjective
  step_eq : t.step = s.step
  moves_eq : t.moves = s.moves

namespace Continues

variable {s t u : State ρ}

theorem refl (h : Consistent P lbs ubs s) : Continues P lbs ubs s s :=
  ⟨h, rfl, rfl, rfl, rfl, rfl⟩

theorem trans (h : Continues P lbs ubs s t) (h' : Continues P lbs ubs t u) :
    Continues P lbs ubs s u where
  consistent := h'.consistent
  best_eq := h'.best_eq.trans h.best_eq
  bestUnsat_eq := h'.bestUnsat_eq.trans h.bestUnsat_eq
  bestObjective_eq := h'.bestObjective_eq.trans h.bestObjective_eq
  step_eq := h'.step_eq.trans h.step_eq
  moves_eq := h'.moves_eq.trans h.moves_eq

theorem withSource (h : Consistent P lbs ubs s) (source : ρ) :
    Continues P lbs ubs s { s with source := source } :=
  ⟨⟨h.inside, h.cached, h.filed, h.objective_eq, h.size_tabuUntil⟩, rfl, rfl, rfl, rfl, rfl⟩

end Continues

theorem Consistent.withStep {s : State ρ} (h : Consistent P lbs ubs s) (step : Nat) :
    Consistent P lbs ubs { s with step := step } :=
  ⟨h.inside, h.cached, h.filed, h.objective_eq, h.size_tabuUntil⟩

theorem Consistent.withMoves {s : State ρ} (h : Consistent P lbs ubs s) (moves : MoveCounts) :
    Consistent P lbs ubs { s with moves := moves } :=
  ⟨h.inside, h.cached, h.filed, h.objective_eq, h.size_tabuUntil⟩

theorem isSatisfied_iff {σ : Variable → Int} {k : Constraint} {sense : Sense} {cache : Cache}
    (hsense : Sense.ofRelation? k.relation = some sense)
    (hcache : cache.Shows (Row.of k sense) (k.poly.eval σ) (k.poly.slopeAt σ)) :
    (Row.of k sense).isSatisfied cache = true ↔ k.HoldsAt σ := by
  rw [Row.isSatisfied, hcache.value_eq, Constraint.HoldsAt, Sense.holds_ofRelation? hsense,
    Option.some_inj]
  rfl

theorem Cached.violates_iff (hP : Posed P lbs ubs) {σ : Variable → Int} {caches : Array Cache}
    (h : Cached P σ caches) {c : Nat} {row : Row} {cache : Cache} (hrow : P.rows[c]? = some row)
    (hcache : caches[c]? = some cache) : Violates P σ c ↔ row.isSatisfied cache = false := by
  obtain ⟨k, sense, hk, hsense, rfl⟩ := hP.row_cases hrow
  rw [← Bool.not_eq_true, isSatisfied_iff hsense (h.shows c k _ cache hk hrow hcache)]
  constructor
  · rintro ⟨k', hk', hholds⟩
    cases hk.symm.trans hk'
    exact hholds
  · intro hholds
    exact ⟨k, hk, hholds⟩

section Move

variable {a b : Assignment} {v : Variable}

theorem foldlM_takeOut_succeeds (hP : Posed P lbs ubs) (ha : Inside lbs ubs a)
    (hb : Inside lbs ubs b) (hv : v < P.formula.numVariables)
    (hsame : ∀ w, w ≠ v → valuation b.values w = valuation a.values w) {caches : Array Cache}
    (hcached : Cached P (valuation a.values) caches) :
    Succeeds ((occurrencesOf P.rows v).foldlM
      (takeOut P a.values (valuation b.values v - valuation a.values v)) caches) fun out =>
        out.size = caches.size ∧
        (∀ o ∈ occurrencesOf P.rows v, ∃ cache, out[o.1]? = some cache ∧
          ∀ k row, P.formula.constraints[o.1]? = some k → P.rows[o.1]? = some row →
            cache.Halfway row k.poly (valuation b.values) v) ∧
        ∀ c, c ∉ (occurrencesOf P.rows v).map Prod.fst → out[c]? = caches[c]? := by
  refine Succeeds.foldlM_update Prod.fst
    (fun o (cache : Cache) => ∀ k row, P.formula.constraints[o.1]? = some k →
      P.rows[o.1]? = some row → cache.Halfway row k.poly (valuation b.values) v)
    nodup_occurrencesOf ?_
  rintro ⟨c, slot⟩ ho t hsize hget
  obtain ⟨row, hrow, hslot⟩ := hP.mem_occurrences.1 ho
  obtain ⟨k, sense, hk, -, rfl⟩ := hP.row_cases hrow
  have hmem : k ∈ P.formula.constraints := Array.mem_of_getElem? hk
  have hlt : c < caches.size := by
    rw [hcached.size_eq]
    exact (Array.getElem?_eq_some_iff.1 hrow).1
  have hcache : caches[c]? = some caches[c] := Array.getElem?_eq_getElem hlt
  have hsizes : b.values.size = a.values.size := hb.size_values.trans ha.size_values.symm
  have hva := hP.lt_size_values ha hv
  refine (takeOut_succeeds (hP.formula.normalized k hmem) hrow (hget.trans hcache) hslot
    (hcached.shows c k _ _ hk hrow hcache) (hP.tame_constraint ha hmem)
    (hP.tame_constraint hb hmem) hva hsizes hsame).mono ?_
  rintro u ⟨husize, ⟨cache, hu, hhalf⟩, hother⟩
  refine ⟨husize, ⟨cache, hu, ?_⟩, hother⟩
  intro k' row' hk' hrow'
  cases hk.symm.trans hk'
  cases hrow.symm.trans hrow'
  exact hhalf

theorem foldlM_putBack_succeeds (hP : Posed P lbs ubs) (hb : Inside lbs ubs b)
    {out : Array Cache}
    (hout : ∀ o ∈ occurrencesOf P.rows v, ∃ cache, out[o.1]? = some cache ∧
      ∀ k row, P.formula.constraints[o.1]? = some k → P.rows[o.1]? = some row →
        cache.Halfway row k.poly (valuation b.values) v) :
    Succeeds ((occurrencesOf P.rows v).foldlM (putBack P b.values) out) fun caches =>
      caches.size = out.size ∧
      (∀ o ∈ occurrencesOf P.rows v, ∃ cache, caches[o.1]? = some cache ∧
        ∀ k row, P.formula.constraints[o.1]? = some k → P.rows[o.1]? = some row →
          cache.Shows row (k.poly.eval (valuation b.values))
            (k.poly.slopeAt (valuation b.values))) ∧
      ∀ c, c ∉ (occurrencesOf P.rows v).map Prod.fst → caches[c]? = out[c]? := by
  refine Succeeds.foldlM_update Prod.fst
    (fun o (cache : Cache) => ∀ k row, P.formula.constraints[o.1]? = some k →
      P.rows[o.1]? = some row → cache.Shows row (k.poly.eval (valuation b.values))
        (k.poly.slopeAt (valuation b.values)))
    nodup_occurrencesOf ?_
  rintro ⟨c, slot⟩ ho t hsize hget
  obtain ⟨row, hrow, hslot⟩ := hP.mem_occurrences.1 ho
  obtain ⟨k, sense, hk, -, rfl⟩ := hP.row_cases hrow
  have hmem : k ∈ P.formula.constraints := Array.mem_of_getElem? hk
  obtain ⟨cache, hcache, hhalf⟩ := hout (c, slot) ho
  refine (putBack_succeeds hrow (hget.trans hcache) hslot (hhalf k _ hk hrow)
    (hP.tame_constraint hb hmem)).mono ?_
  rintro u ⟨husize, ⟨full, hu, hshows⟩, hother⟩
  refine ⟨husize, ⟨full, hu, ?_⟩, hother⟩
  intro k' row' hk' hrow'
  cases hk.symm.trans hk'
  cases hrow.symm.trans hrow'
  exact hshows

theorem notMem_of_notMem_occurrences (hP : Posed P lbs ubs) {c : Nat} {k : Constraint}
    (hk : P.formula.constraints[c]? = some k)
    (hc : c ∉ (occurrencesOf P.rows v).map Prod.fst) : ∀ m ∈ k.poly.monomials, v ∉ m.vars := by
  intro m hm hv
  obtain ⟨sense, -, hrow⟩ := hP.row c k hk
  obtain ⟨slot, hslot⟩ := Array.mem_iff_getElem?.1 ((Row.mem_vars k sense).2 ⟨m, hm, hv⟩)
  exact hc (List.mem_map_of_mem (f := Prod.fst) (hP.mem_occurrences.2 ⟨_, hrow, hslot⟩))

theorem violates_congr (hP : Posed P lbs ubs) {σ τ : Variable → Int}
    (hsame : ∀ w, w ≠ v → τ w = σ w) {c : Nat}
    (hc : c ∉ (occurrencesOf P.rows v).map Prod.fst) : Violates P τ c ↔ Violates P σ c := by
  have heval : ∀ k, P.formula.constraints[c]? = some k → k.poly.eval τ = k.poly.eval σ :=
    fun k hk => Polynomial.eval_congr_of_notMem (notMem_of_notMem_occurrences hP hk hc) hsame
  constructor
  · rintro ⟨k, hk, hholds⟩
    rw [Constraint.HoldsAt, heval k hk] at hholds
    exact ⟨k, hk, hholds⟩
  · rintro ⟨k, hk, hholds⟩
    rw [Constraint.HoldsAt, ← heval k hk] at hholds
    exact ⟨k, hk, hholds⟩

/-- Taking a variable out of all caches and putting it back moves them along. -/
theorem cached_of_move (hP : Posed P lbs ubs) (ha : Inside lbs ubs a) (hb : Inside lbs ubs b)
    (hv : v < P.formula.numVariables)
    (hsame : ∀ w, w ≠ v → valuation b.values w = valuation a.values w) {caches : Array Cache}
    (hcached : Cached P (valuation a.values) caches) :
    ∃ out moved, (occurrencesOf P.rows v).foldlM
        (takeOut P a.values (valuation b.values v - valuation a.values v)) caches = .ok out ∧
      (occurrencesOf P.rows v).foldlM (putBack P b.values) out = .ok moved ∧
      Cached P (valuation b.values) moved := by
  obtain ⟨out, hrunOut, hsizeOut, hout, hsameOut⟩ :=
    foldlM_takeOut_succeeds hP ha hb hv hsame hcached
  obtain ⟨moved, hrun, hsize, hmoved, hsameMoved⟩ := foldlM_putBack_succeeds hP hb hout
  refine ⟨out, moved, hrunOut, hrun, (hsize.trans hsizeOut).trans hcached.size_eq, ?_⟩
  intro c k row cache hk hrow hcache
  by_cases hc : c ∈ (occurrencesOf P.rows v).map Prod.fst
  · obtain ⟨o, ho, rfl⟩ := List.mem_map.1 hc
    obtain ⟨cache', hcache', hshows⟩ := hmoved o ho
    cases hcache.symm.trans hcache'
    exact hshows k row hk hrow
  · rw [hsameMoved c hc, hsameOut c hc] at hcache
    have hmem := notMem_of_notMem_occurrences hP hk hc
    rw [Polynomial.eval_congr_of_notMem hmem hsame, Polynomial.slopeAt_congr_of_notMem hmem hsame]
    exact hcached.shows c k row cache hk hrow hcache

theorem filed_of_move (hP : Posed P lbs ubs)
    (hsame : ∀ w, w ≠ v → valuation b.values w = valuation a.values w) {caches : Array Cache}
    (hcached : Cached P (valuation b.values) caches) {violated : IndexSet}
    (hfiled : Filed P (valuation a.values) violated) :
    Succeeds ((occurrencesOf P.rows v).foldlM (refile P caches) violated)
      (Filed P (valuation b.values)) := by
  refine (IndexSet.Valid.foldlM_file Prod.fst (Violates P (valuation b.values)) ?_
    hfiled.valid).mono ?_
  · rintro t ⟨c, slot⟩ ho ht
    obtain ⟨row, hrow, -⟩ := hP.mem_occurrences.1 ho
    have hlt : c < P.rows.size := (Array.getElem?_eq_some_iff.1 hrow).1
    obtain ⟨cache, hcache⟩ : ∃ cache, caches[c]? = some cache :=
      ⟨_, Array.getElem?_eq_getElem (hcached.size_eq ▸ hlt)⟩
    unfold refile
    apply Succeeds.next (fetch_eq_ok.2 hrow)
    apply Succeeds.next (fetch_eq_ok.2 hcache)
    refine (ht.file hlt _).mono fun u hu => ⟨hu.1, fun j => ?_⟩
    rw [hu.2 j]
    by_cases hj : j = c
    · simp only [hj, if_true, Bool.not_eq_true']
      exact (hcached.violates_iff hP hrow hcache).symm
    · simp only [hj, if_false]
  · rintro u ⟨hvalid, hmem⟩
    refine ⟨hvalid, fun c => ?_⟩
    rw [hmem c]
    split
    · rfl
    · rename_i hc
      rw [hfiled.mem_iff c]
      exact (violates_congr hP hsame hc).symm

end Move

end Search
end NonlinearInteger
