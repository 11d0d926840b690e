import NonlinearInteger.Lp.Reader
import NonlinearInteger.Proofs.Expressions
import Mathlib.Data.List.Nodup

/-!
# What the reader accepts

The names of a text that is read are words and no two are the same, its polynomials
are normal forms with machine coefficients, and its relations are defined. Every line
keeps this of the draft, and what is built from such a draft is a formula of the
builders.
-/

namespace NonlinearInteger.Lp

/-- Names that were read: words that start like names, each of them once. -/
structure Named (names : Array String) : Prop where
  nodup : names.toList.Nodup
  isName : ∀ x ∈ names, isName x = true
  not_blank : ∀ x ∈ names, ∀ c ∈ x.toList, Text.isBlank c = false

theorem named_empty : Named #[] := ⟨by simp, by simp, by simp⟩

theorem Named.intern {names names' : Array String} {x : String} {v : Variable} (h : Named names)
    (hname : Lp.isName x = true) (hblank : ∀ c ∈ x.toList, Text.isBlank c = false)
    (hintern : intern names x = (names', v)) : Named names' := by
  obtain ⟨names'', heq, hgrows⟩ := exists_intern names x
  obtain rfl : names'' = names' := congrArg Prod.fst (heq.symm.trans hintern)
  refine ⟨hgrows.nodup h.nodup, ?_, ?_⟩
  · intro y hy
    rcases (hgrows.mem_iff y).1 hy with hy | hy
    · exact h.isName y hy
    · rwa [List.mem_singleton.1 hy]
  · intro y hy
    rcases (hgrows.mem_iff y).1 hy with hy | hy
    · exact h.not_blank y hy
    · rwa [List.mem_singleton.1 hy]

theorem Named.naming {names : Array String} (h : Named names) {name : Variable → String}
    (hname : ∀ v, (hv : v < names.size) → name v = names[v]) : Naming names.size name where
  isName := by
    intro v hv
    rw [hname v hv]
    exact h.isName _ (Array.getElem_mem hv)
  not_blank := by
    intro v hv
    rw [hname v hv]
    exact h.not_blank _ (Array.getElem_mem hv)
  injective := by
    intro v hv w hw heq
    rw [hname v hv, hname w hw] at heq
    have hentries : names.toList[v] = names.toList[w] := heq
    exact h.nodup.getElem_inj_iff.1 hentries

/-- A normal form with machine coefficients. -/
structure Fitting (p : Polynomial) : Prop where
  merged : p.Merged
  fits : ∀ m ∈ p.monomials, FitsInt64 m.coef

theorem fitting_of_merge {ms : List Monomial} {p : Polynomial} (h : merge ms = .ok p) :
    Fitting p := by
  unfold merge at h
  split at h
  · rename_i hnormal
    cases h
    obtain ⟨hmerged, hfits⟩ := Polynomial.merged_of_normalize? hnormal
    exact ⟨hmerged, hfits⟩
  · cases h

theorem relation?_ne_undefined (token : String) : relation? token ≠ some .undefined := by
  unfold relation?
  split
  · simp
  · split
    · simp
    · split <;> simp

structure Expression.Sound (x : Expression) : Prop where
  names : Named x.names
  poly : Fitting x.poly
  relation : x.relation ≠ some .undefined

/-- By recursion on the tokens: only names enter the table, and the terms are merged at
the end whatever they are. -/
theorem sound_of_readTerms {names : Array String} {e : Reading} {tokens : List String}
    {x : Expression} (hnames : Named names)
    (htokens : ∀ token ∈ tokens, ∀ c ∈ token.toList, Text.isBlank c = false)
    (h : readTerms names e tokens = .ok x) : x.Sound := by
  fun_induction readTerms names e tokens with
  | case1 | case3 | case8 | case9 | case10 | case12 | case14 => cases h
  | case2 names e =>
    obtain ⟨p, hp, hx⟩ := bind_eq_ok.1 h
    rw [← pure_eq_ok.1 hx]
    exact ⟨hnames, fitting_of_merge hp, by simp⟩
  | case4 names e token rest relation hrelation =>
    obtain ⟨p, hp, hx⟩ := bind_eq_ok.1 h
    rw [← pure_eq_ok.1 hx]
    exact ⟨hnames, fitting_of_merge hp, hrelation ▸ relation?_ne_undefined token⟩
  | case5 names e token rest _ _ ih | case6 names e rest _ _ ih =>
    exact ih hnames (fun token htoken => htokens token (List.mem_cons_of_mem _ htoken)) h
  | case7 names e name rest hname names' v hintern e' _ _ _ _ ih =>
    have hrest : ∀ token ∈ name :: rest, ∀ c ∈ token.toList, Text.isBlank c = false :=
      fun token htoken => htokens token (List.mem_cons_of_mem _ htoken)
    have hnames' := hnames.intern hname (hrest name List.mem_cons_self) hintern
    exact ih hnames' (fun token htoken => hrest token (List.mem_cons_of_mem _ htoken)) h
  | case11 names e token rest _ _ _ _ value _ e' _ ih =>
    exact ih hnames (fun token htoken => htokens token (List.mem_cons_of_mem _ htoken)) h
  | case13 names e token rest _ _ _ _ _ hname names' v hintern ih =>
    have hnames' := hnames.intern hname (htokens token List.mem_cons_self) hintern
    exact ih hnames' (fun token htoken => htokens token (List.mem_cons_of_mem _ htoken)) h

theorem sound_of_readExpression {names : Array String} {text : String} {x : Expression}
    (hnames : Named names) (h : readExpression names (Text.words text) = .ok x) : x.Sound :=
  sound_of_readTerms hnames (fun _ htoken => Text.not_isBlank_of_mem_words htoken) h

structure Bound.Fits (b : Bound) : Prop where
  lb : ∀ x ∈ b.lb, FitsInt64 x
  ub : ∀ x ∈ b.ub, FitsInt64 x

structure Draft.Sound (d : Draft) : Prop where
  names : Named d.names
  objective : Fitting d.objective
  polys : ∀ c ∈ d.constraints, Fitting c.1
  relations : ∀ c ∈ d.constraints, c.2.1 ≠ .undefined
  limits : ∀ c ∈ d.constraints, FitsInt64 c.2.2
  bounds : ∀ b ∈ d.bounds, b.Fits

theorem Draft.sound_empty : Draft.empty.Sound where
  names := named_empty
  objective := ⟨Polynomial.merged_empty, by simp [Draft.empty, Polynomial.empty]⟩
  polys := by simp [Draft.empty]
  relations := by simp [Draft.empty]
  limits := by simp [Draft.empty]
  bounds := by simp [Draft.empty]

theorem fits_of_readInteger {token : String} {x : Int} (h : readInteger token = .ok x) :
    FitsInt64 x := by
  unfold readInteger at h
  split at h
  · rename_i hvalue
    cases h
    exact of_decide_eq_true (Option.filter_eq_some_iff.1 hvalue).2
  · cases h

namespace Draft.Sound

variable {d e : Draft} {line : String}

theorem withPart (h : d.Sound) (part : Section) : Draft.Sound { d with part := part } :=
  ⟨h.names, h.objective, h.polys, h.relations, h.limits, h.bounds⟩

theorem withNames (h : d.Sound) {names : Array String} (hnames : Named names) :
    Draft.Sound { d with names := names } :=
  ⟨hnames, h.objective, h.polys, h.relations, h.limits, h.bounds⟩

theorem withBound (h : d.Sound) {b : Bound} (hb : b.Fits) :
    Draft.Sound { d with bounds := d.bounds.push b } := by
  refine ⟨h.names, h.objective, h.polys, h.relations, h.limits, ?_⟩
  intro k hk
  rcases Array.mem_push.1 hk with hk | rfl
  · exact h.bounds k hk
  · exact hb

theorem readObjective (h : d.Sound) (hread : readObjective d line = .ok e) : e.Sound := by
  obtain ⟨x, hx, hread⟩ := bind_eq_ok.1 hread
  have hsound := sound_of_readExpression h.names hx
  dsimp only at hread
  split at hread
  · cases hread
  · obtain ⟨p, hp, hread⟩ := bind_eq_ok.1 hread
    cases pure_eq_ok.1 hread
    exact ⟨hsound.names, fitting_of_merge hp, h.polys, h.relations, h.limits, h.bounds⟩

theorem readConstraint (h : d.Sound) (hread : readConstraint d line = .ok e) : e.Sound := by
  obtain ⟨x, hx, hread⟩ := bind_eq_ok.1 hread
  have hsound := sound_of_readExpression h.names hx
  split at hread
  · cases hread
  · cases hread
  · rename_i relation token rest hrelation _
    obtain ⟨limit, hlimit, hread⟩ := bind_eq_ok.1 hread
    have hdefined : relation ≠ .undefined := by
      rintro rfl
      exact hsound.relation hrelation
    split at hread
    · cases hread
    · cases pure_eq_ok.1 hread
      refine ⟨hsound.names, h.objective, ?_, ?_, ?_, h.bounds⟩
      · intro c hc
        rcases Array.mem_push.1 hc with hc | rfl
        · exact h.polys c hc
        · exact hsound.poly
      · intro c hc
        rcases Array.mem_push.1 hc with hc | rfl
        · exact h.relations c hc
        · exact hdefined
      · intro c hc
        rcases Array.mem_push.1 hc with hc | rfl
        · exact h.limits c hc
        · exact fits_of_readInteger hlimit

theorem boundOf_fits {value : Int} (hvalue : FitsInt64 value) (v : Variable) (r : Relation) :
    (boundOf v value r).Fits := by
  cases r <;> exact ⟨by simp [boundOf, hvalue], by simp [boundOf, hvalue]⟩

theorem readInterval {lo op₁ name op₂ hi : String} (h : d.Sound) (hname : isName name = true)
    (hblank : ∀ c ∈ name.toList, Text.isBlank c = false)
    (hread : readInterval d lo op₁ name op₂ hi = .ok e) : e.Sound := by
  unfold Lp.readInterval at hread
  split at hread
  rename_i names v hintern
  split at hread
  · cases hread
  · obtain ⟨lb, hlb, hread⟩ := bind_eq_ok.1 hread
    obtain ⟨ub, hub, hread⟩ := bind_eq_ok.1 hread
    cases pure_eq_ok.1 hread
    refine (h.withNames (h.names.intern hname hblank hintern)).withBound ⟨?_, ?_⟩
    · simpa using fits_of_readInteger hlb
    · simpa using fits_of_readInteger hub

theorem readSide {name op value : String} {turn : Relation → Relation} (h : d.Sound)
    (hname : isName name = true) (hblank : ∀ c ∈ name.toList, Text.isBlank c = false)
    (hread : readSide d name op value turn = .ok e) : e.Sound := by
  unfold Lp.readSide at hread
  split at hread
  rename_i names v hintern
  obtain ⟨x, hx, hread⟩ := bind_eq_ok.1 hread
  split at hread
  · cases pure_eq_ok.1 hread
    exact (h.withNames (h.names.intern hname hblank hintern)).withBound
      (boundOf_fits (fits_of_readInteger hx) v _)
  · cases hread

theorem readBound (h : d.Sound) (hread : readBound d line = .ok e) : e.Sound := by
  have hblank : ∀ x ∈ Text.words line, ∀ c ∈ x.toList, Text.isBlank c = false :=
    fun _ hx => Text.not_isBlank_of_mem_words hx
  unfold Lp.readBound at hread
  split at hread
  · rename_i lo op₁ name op₂ hi hwords
    split at hread
    · rename_i hname
      exact h.readInterval hname (hblank name (by simp [hwords])) hread
    · cases hread
  · rename_i a op b hwords
    split at hread
    · rename_i hname
      exact h.readSide hname (hblank a (by simp [hwords])) hread
    · split at hread
      · rename_i hname
        exact h.readSide hname (hblank b (by simp [hwords])) hread
      · cases hread
  · cases hread

theorem readGenerals (h : d.Sound) (hread : readGenerals d line = .ok e) : e.Sound := by
  obtain ⟨names, hnames, hread⟩ := bind_eq_ok.1 hread
  cases pure_eq_ok.1 hread
  refine h.withNames (foldlM_keeps (motive := Named) hnames h.names ?_)
  intro names token names' htoken hnames hstep
  split at hstep
  · rename_i hname
    cases hstep
    exact hnames.intern hname (Text.not_isBlank_of_mem_words htoken) rfl
  · cases hstep

theorem readContent (h : d.Sound) (hread : readContent d line = .ok e) : e.Sound := by
  unfold Lp.readContent at hread
  split at hread
  · cases hread
  · exact h.readObjective hread
  · exact h.readConstraint hread
  · exact h.readBound hread
  · exact h.readGenerals hread
  · cases hread

theorem readLine (h : d.Sound) (hread : readLine d line = .ok e) : e.Sound := by
  unfold Lp.readLine at hread
  split at hread
  · cases hread
    exact h
  · split at hread
    · cases hread
      exact h.withPart _
    · exact h.readContent hread

theorem readLines {number : Nat} {lines : List String} (h : d.Sound)
    (hread : readLines d number lines = .ok e) : e.Sound := by
  induction lines generalizing d number with
  | nil =>
    cases hread
    exact h
  | cons raw lines ih =>
    unfold Lp.readLines at hread
    dsimp only at hread
    split at hread
    · rename_i hline
      exact ih (h.readLine hline) hread
    · cases hread

end Draft.Sound

/-- A formula of the builders with nothing in it that a text cannot say. -/
structure Sayable (f : Formula) : Prop where
  built : f.Built
  objective : ∀ m ∈ f.objective.monomials, FitsInt64 m.coef
  constraints : ∀ c ∈ f.constraints, ∀ m ∈ c.poly.monomials, FitsInt64 m.coef
  relations : ∀ c ∈ f.constraints, c.relation ≠ .undefined

namespace Sayable

variable {f g : Formula}

theorem empty (n : Nat) : Sayable (.empty n) :=
  ⟨.empty n, by simp [Formula.empty, Polynomial.empty], by simp [Formula.empty],
    by simp [Formula.empty]⟩

theorem addConstraint (h : Sayable f) {p : Polynomial} {r : Relation} {limit : Int}
    (hp : Fitting p) (hr : r ≠ .undefined) (hlimit : FitsInt64 limit)
    (hadd : f.addConstraint p r limit = .ok g) : Sayable g := by
  have hbuilt := h.built.addConstraint hlimit hadd
  obtain ⟨-, rfl⟩ := Formula.addConstraint_eq_ok.1 hadd
  refine ⟨hbuilt, h.objective, ?_, ?_⟩
  · intro c hc
    rcases Array.mem_push.1 hc with hc | rfl
    · exact h.constraints c hc
    · rw [Constraint.of, hp.merged.normalize_eq]
      exact hp.fits
  · intro c hc
    rcases Array.mem_push.1 hc with hc | rfl
    · exact h.relations c hc
    · exact hr

theorem setObjective (h : Sayable f) {p : Polynomial} (hp : Fitting p)
    (hset : f.setObjective p = .ok g) : Sayable g := by
  have hbuilt := h.built.setObjective hset
  obtain ⟨-, rfl⟩ := Formula.setObjective_eq_ok.1 hset
  refine ⟨hbuilt, ?_, h.constraints, h.relations⟩
  rw [hp.merged.normalize_eq]
  exact hp.fits

theorem setDomain (h : Sayable f) {v : Variable} {lb ub : Int} (hlb : FitsInt64 lb)
    (hub : FitsInt64 ub) (hset : f.setDomain v lb ub = .ok g) : Sayable g := by
  have hbuilt := h.built.setDomain hlb hub hset
  obtain ⟨-, -, rfl⟩ := Formula.setDomain_eq_ok.1 hset
  exact ⟨hbuilt, h.objective, h.constraints, h.relations⟩

theorem applyBound (h : Sayable f) {b : Bound} (hb : b.Fits) (happly : applyBound f b = .ok g) :
    Sayable g := by
  have hcurrent : (f.domains[b.var]?.getD .standard).Proper := by
    cases hdom : f.domains[b.var]? with
    | none => exact ⟨by decide, by decide, by decide⟩
    | some dom => exact h.built.wellFormed.domains dom (Array.mem_of_getElem? hdom)
  have hlb : FitsInt64 (b.lb.getD (f.domains[b.var]?.getD .standard).lb) := by
    cases hlb : b.lb with
    | none => exact hcurrent.lb_fits
    | some x => exact hb.lb x hlb
  have hub : FitsInt64 (b.ub.getD (f.domains[b.var]?.getD .standard).ub) := by
    cases hub : b.ub with
    | none => exact hcurrent.ub_fits
    | some x => exact hb.ub x hub
  exact h.setDomain hlb hub happly

end Sayable

/-- A formula that was read: one that a text can say, under names of a text. -/
structure Accepted (f : Formula) : Prop extends Sayable f where
  naming : Naming f.numVariables f.name

theorem accepted_of_build {d : Draft} {f : Formula} (h : d.Sound) (hbuild : d.build = .ok f) :
    Accepted f := by
  obtain ⟨filled, hfilled, hbuild⟩ := bind_eq_ok.1 hbuild
  obtain ⟨posed, hposed, hbuild⟩ := bind_eq_ok.1 hbuild
  obtain ⟨bounded, hbounded, hnamed⟩ := bind_eq_ok.1 hbuild
  rw [← Array.foldlM_toList] at hfilled hbounded
  have hfilled : Sayable filled := by
    refine foldlM_keeps (motive := Sayable) hfilled (.empty d.names.size) ?_
    intro g c g' hc hg hadd
    have hc := Array.mem_toList_iff.1 hc
    exact hg.addConstraint (h.polys c hc) (h.relations c hc) (h.limits c hc) hadd
  have hposed := hfilled.setObjective h.objective hposed
  have hbounded : Sayable bounded :=
    foldlM_keeps (motive := Sayable) hbounded hposed fun g b g' hb hg happly =>
      hg.applyBound (h.bounds b (Array.mem_toList_iff.1 hb)) happly
  have hbuilt := hbounded.built.setNames hnamed
  obtain ⟨hsize, rfl⟩ := Formula.setNames_eq_ok.1 hnamed
  refine ⟨⟨hbuilt, hbounded.objective, hbounded.constraints, hbounded.relations⟩, ?_⟩
  rw [← hsize]
  refine h.names.naming fun v hv => ?_
  rw [Formula.name, Array.getElem?_eq_getElem hv]

/-- Whatever the text, a formula that is read can be said in a text. -/
theorem accepted_of_read {text : String} {f : Formula} (h : read text = .ok f) : Accepted f := by
  unfold read at h
  split at h
  · cases h
  · rename_i hlines
    split at h
    · cases h
    · rename_i hbuild
      cases h
      exact accepted_of_build (Draft.sound_empty.readLines hlines) hbuild

end NonlinearInteger.Lp
