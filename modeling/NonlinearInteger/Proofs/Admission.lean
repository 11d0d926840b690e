import NonlinearInteger.Proofs.Builders
import NonlinearInteger.Proofs.Procedures
import NonlinearInteger.Proofs.Starts

/-!
# Changes of a formula

A formula is changed in place by calls of its builders, any of which may be refused. A call is
refused before it has written anything, so whatever the calls, the formula is in normal form.
Which calls are refused, and which of the formulas can be searched, is said in full.
-/

namespace NonlinearInteger

open Procedure (check settled)

/-- A call of a builder. -/
inductive Change where
  | addConstraint (p : Polynomial) (relation : Relation) (limit : Int)
  | setObjective (p : Polynomial)
  | setDomain (v : Variable) (lb ub : Int)
  | setNames (names : Array String)

namespace Change

/-- What a call makes of a formula. -/
def make (f : Formula) : Change → Except BuildError Formula
  | addConstraint p relation limit => f.addConstraint p relation limit
  | setObjective p => f.setObjective p
  | setDomain v lb ub => f.setDomain v lb ub
  | setNames names => f.setNames names

/-- A call that writes to the formula. -/
def inPlace : Change → Procedure BuildError Formula Unit
  | addConstraint p relation limit => do
    check ((← get).checkVariables p)
    modify fun f => { f with constraints := f.constraints.push (.of p relation limit) }
  | setObjective p => do
    check ((← get).checkVariables p)
    modify fun f => { f with objective := p.normalize }
  | setDomain v lb ub => do
    if (← get).numVariables ≤ v then throw (.noSuchVariable v)
    else if ub < lb then throw (.emptyDomain ((← get).name v) lb ub)
    else modify fun f => { f with domains := f.domains.setIfInBounds v ⟨lb, ub⟩ }
  | setNames names => do
    if names.size = (← get).numVariables then modify fun f => { f with names }
    else throw (.nameCount (← get).numVariables names.size)

/-- The formula that a call leaves, refused or not. -/
def perform (f : Formula) (call : Change) : Formula :=
  (call.inPlace.exec f).2

/-- Limits and bounds are machine integers. -/
def Fits : Change → Prop
  | addConstraint _ _ limit => FitsInt64 limit
  | setDomain _ lb ub => FitsInt64 lb ∧ FitsInt64 ub
  | _ => True

/-- A call that is not refused: its variables are those of the formula, its domain is not
empty, and it has a name for each variable. -/
def Suits (f : Formula) : Change → Prop
  | addConstraint p _ _ | setObjective p => ∀ m ∈ p.monomials, ∀ v ∈ m.vars, v < f.numVariables
  | setDomain v lb ub => v < f.numVariables ∧ lb ≤ ub
  | setNames names => names.size = f.numVariables

end Change

namespace Formula

/-- The formula after calls on an empty one. -/
def afterChanges (n : Nat) (changes : List Change) : Formula :=
  changes.foldl Change.perform (.empty n)

variable {f g : Formula} {call : Change}

theorem exec_inPlace (call : Change) (f : Formula) :
    call.inPlace.exec f = settled f (call.make f) := by
  cases call with
  | addConstraint p relation limit =>
    simp only [Change.inPlace, Change.make, addConstraint, Procedure.exec_get_bind]
    cases f.checkVariables p <;> rfl
  | setObjective p =>
    simp only [Change.inPlace, Change.make, setObjective, Procedure.exec_get_bind]
    cases f.checkVariables p <;> rfl
  | setDomain v lb ub =>
    simp only [Change.inPlace, Change.make, setDomain, Procedure.exec_get_bind]
    split_ifs <;> rfl
  | setNames names =>
    simp only [Change.inPlace, Change.make, setNames, Procedure.exec_get_bind]
    split_ifs <;> rfl

theorem perform_of_make (h : call.make f = .ok g) : call.perform f = g := by
  rw [Change.perform, exec_inPlace, h]
  rfl

theorem perform_of_refused (h : ¬∃ g, call.make f = .ok g) : call.perform f = f := by
  cases hmake : call.make f with
  | ok g => exact absurd ⟨g, hmake⟩ h
  | error cause =>
    rw [Change.perform, exec_inPlace, hmake]
    rfl

theorem exists_make_iff : (∃ g, call.make f = .ok g) ↔ call.Suits f := by
  cases call with
  | addConstraint p relation limit =>
    simp [Change.make, Change.Suits, addConstraint_eq_ok, checkVariables_eq_ok_iff]
  | setObjective p =>
    simp [Change.make, Change.Suits, setObjective_eq_ok, checkVariables_eq_ok_iff]
  | setDomain v lb ub => simp [Change.make, Change.Suits, setDomain_eq_ok]
  | setNames names => simp [Change.make, Change.Suits, setNames_eq_ok]

theorem Built.make (hf : f.Built) (hfits : call.Fits) (h : call.make f = .ok g) : g.Built := by
  cases call with
  | addConstraint p relation limit => exact hf.addConstraint hfits h
  | setObjective p => exact hf.setObjective h
  | setDomain v lb ub => exact hf.setDomain hfits.1 hfits.2 h
  | setNames names => exact hf.setNames h

theorem numVariables_of_make (h : call.make f = .ok g) : g.numVariables = f.numVariables := by
  cases call with
  | addConstraint p relation limit => exact (addConstraint_eq_ok.1 h).2 ▸ rfl
  | setObjective p => exact (setObjective_eq_ok.1 h).2 ▸ rfl
  | setDomain v lb ub => exact (setDomain_eq_ok.1 h).2.2 ▸ rfl
  | setNames names => exact (setNames_eq_ok.1 h).2 ▸ rfl

/-- A formula that some of the calls make, none of them refused. -/
structure MadeBy (n : Nat) (changes : List Change) (f : Formula) : Prop where
  built : f.Built
  numVariables : f.numVariables = n
  traceless : ∃ made : List Change, made.Sublist changes ∧
    made.foldlM Change.make (.empty n) = .ok f

theorem MadeBy.perform {n : Nat} {changes : List Change} (h : MadeBy n changes f)
    (hfits : call.Fits) : MadeBy n (changes ++ [call]) (call.perform f) := by
  obtain ⟨made, hsublist, hmade⟩ := h.traceless
  by_cases hrefused : ∃ g, call.make f = .ok g
  · obtain ⟨g, hg⟩ := hrefused
    rw [perform_of_make hg]
    refine ⟨h.built.make hfits hg, (numVariables_of_make hg).trans h.numVariables,
      made ++ [call], hsublist.append_right _, ?_⟩
    rw [List.foldlM_append, hmade]
    exact bind_eq_ok.2 ⟨f, rfl, bind_eq_ok.2 ⟨g, hg, rfl⟩⟩
  · rw [perform_of_refused hrefused]
    exact ⟨h.built, h.numVariables, made, hsublist.trans (List.sublist_append_left ..), hmade⟩

theorem MadeBy.foldl {n : Nat} {before changes : List Change} (h : MadeBy n before f)
    (hfits : ∀ call ∈ changes, call.Fits) :
    MadeBy n (before ++ changes) (changes.foldl Change.perform f) := by
  induction changes generalizing before f with
  | nil => simpa using h
  | cons call changes ih =>
    have hnext := h.perform (hfits call List.mem_cons_self)
    simpa using ih hnext fun c hc => hfits c (List.mem_cons_of_mem call hc)

theorem madeBy_afterChanges (n : Nat) {changes : List Change}
    (hfits : ∀ call ∈ changes, call.Fits) : MadeBy n changes (afterChanges n changes) :=
  MadeBy.foldl ⟨.empty n, rfl, [], .slnil, rfl⟩ hfits

/-- Whatever the calls, those that are refused leave no trace. A further call writes either the
whole of its change or nothing, and is refused exactly when it does not suit the formula, which
it then leaves as it is. The formula is in normal form. The start of a search clamps values
between bounds in order, ends without a fault, and succeeds exactly if the formula can be
searched. -/
theorem normal_afterChanges (n : Nat) {changes : List Change}
    (hfits : ∀ call ∈ changes, call.Fits) : ∃ f, afterChanges n changes = f ∧
      (∃ made : List Change, made.Sublist changes ∧ made.foldlM Change.make (.empty n) = .ok f) ∧
      (∀ call : Change, call.inPlace.exec f = settled f (call.make f) ∧
        ((∃ g, call.make f = .ok g) ↔ call.Suits f) ∧
        (¬call.Suits f → afterChanges n (changes ++ [call]) = f)) ∧
      f.numVariables = n ∧ f.Normal ∧ Search.Clamps f ∧
      ∀ {ρ : Type} (settings : Search.Settings) (source : ρ),
        Search.Judges (Search.start f settings source) (f.Searchable settings) := by
  have hmade := madeBy_afterChanges n hfits
  refine ⟨_, rfl, hmade.traceless,
    fun call => ⟨exec_inPlace call _, exists_make_iff, fun hrefused => ?_⟩,
    hmade.numVariables, built_iff_normal.1 hmade.built,
    Search.clamps_of_wellFormed hmade.built.wellFormed,
    fun settings source => Search.judges_start hmade.built.wellFormed settings source⟩
  rw [← exists_make_iff] at hrefused
  rw [afterChanges, List.foldl_append, List.foldl_cons, List.foldl_nil]
  exact perform_of_refused hrefused

/-- Calls every second of which is refused: for a variable that the formula does not have, for
an empty domain, and for a missing name. -/
def halfRefused : List Change := [
  .addConstraint (.ofMonomials [.linear 0 1, .ofFactors [1, 0] 2]) .le 7,
  .addConstraint (.ofMonomials [.linear 2 1]) .ge 1,
  .setDomain 0 (-3) 9,
  .setDomain 1 4 3,
  .setObjective (.ofMonomials [.linear 1 (-1)]),
  .setNames #["a"]]

theorem normal_afterChanges_halfRefused : (∀ call ∈ halfRefused, call.Fits) ∧
    ∃ f, afterChanges 2 halfRefused = f ∧ f.numVariables = 2 ∧ f.Normal ∧
      f.domains = #[⟨-3, 9⟩, .standard] ∧ f.constraints.size = 1 ∧ f.names = #[] ∧
      f.Searchable Search.shortRun ∧
      ∃ result, Search.start f Search.shortRun (Random.Xoshiro.ofSeed 0) = .ok result := by
  have hfits : ∀ call ∈ halfRefused, call.Fits := by
    simp [halfRefused, Change.Fits, FitsInt64]
  obtain ⟨f, rfl, -, -, hnum, hnormal, -, hstart⟩ := normal_afterChanges 2 hfits
  have hsearchable : (afterChanges 2 halfRefused).Searchable Search.shortRun := by decide
  exact ⟨hfits, _, rfl, hnum, hnormal, by decide, by decide, by decide, hsearchable,
    (hstart Search.shortRun _).ok_iff.2 hsearchable⟩

end Formula
end NonlinearInteger
