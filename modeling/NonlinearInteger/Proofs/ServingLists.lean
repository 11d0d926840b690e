import NonlinearInteger.Proofs.Limits
import NonlinearInteger.Proofs.Positions

/-!
# Formulas from serving lists

The formula of a table can be filled in by one loop over the offers, which numbers the shares
through a hash table and lists for each demand who serves it. The shares of a table differ, so
each gets the next number, and the lists give the variables that a search of all shares gives.
-/

namespace NonlinearInteger.Allocation

instance : Hashable Share := ⟨fun s => hash (s.user, s.supply, s.demand)⟩

/-- The variables of the shares numbered so far, and their names. -/
structure Builder where
  index : Std.HashMap Share Variable
  names : Array String

namespace Builder

def empty : Builder := ⟨∅, #[]⟩

/-- The variable in the entry of a share, which is the next one if there was no entry. -/
def var (b : Builder) (s : Share) : Variable × Builder :=
  let next := b.names.size
  let v := b.index[s]?.getD next
  (v, ⟨b.index.insertIfNew s next, if v = next then b.names.push s.name else b.names⟩)

/-- The variables of shares that come one after another. -/
def vars (b : Builder) : List Share → List Variable × Builder
  | [] => ([], b)
  | s :: shares =>
    let (v, b) := b.var s
    let (vs, b) := b.vars shares
    (v :: vs, b)

def get (b : Builder) (s : Share) : Option Variable := b.index[s]?

/-- Shares have their positions for variables. -/
structure Numbers (b : Builder) (shares : List Share) : Prop where
  names_eq : b.names.toList = shares.map Share.name
  locates : Locates b.index shares

variable {b : Builder} {before shares : List Share} {s : Share}

theorem numbers_empty : empty.Numbers [] := ⟨rfl, .empty⟩

theorem Numbers.size_names (h : b.Numbers shares) : b.names.size = shares.length := by
  rw [← Array.length_toList, h.names_eq, List.length_map]

theorem Numbers.var (h : b.Numbers shares) (hs : s ∉ shares) :
    ∃ b', b.var s = (shares.length, b') ∧ b'.Numbers (shares ++ [s]) := by
  have hnone := h.locates.getElem?_eq_none_iff.2 hs
  refine ⟨⟨b.index.insertIfNew s shares.length, b.names.push s.name⟩, ?_, ?_, ?_⟩
  · simp [Builder.var, hnone, h.size_names]
  · simp [h.names_eq]
  · exact h.locates.insertIfNew hs

theorem Numbers.vars (h : b.Numbers before) (hnodup : (before ++ shares).Nodup) :
    ∃ b', b.vars shares = (List.range' before.length shares.length, b') ∧
      b'.Numbers (before ++ shares) := by
  induction shares generalizing b before with
  | nil => exact ⟨b, rfl, (List.append_nil before).symm ▸ h⟩
  | cons s shares ih =>
    have hs : s ∉ before := fun hmem =>
      List.disjoint_of_nodup_append hnodup hmem List.mem_cons_self
    rw [List.append_cons] at hnodup
    obtain ⟨next, hvar, hnext⟩ := h.var hs
    obtain ⟨last, hvars, hlast⟩ := ih hnext hnodup
    refine ⟨last, ?_, by rwa [List.append_cons]⟩
    simp [Builder.vars, hvar, hvars, List.range'_succ]

end Builder

/-- What the loop over the offers fills in. -/
structure Filling where
  builder : Builder
  serving : Array (List (Nat × Nat))
  limits : List Constraint

namespace Filling

def empty (demands : Nat) : Filling := ⟨.empty, Array.replicate demands [], []⟩

/-- Numbers the shares of an offer, puts it on the lists of its demands, and limits it. -/
def serve (f : Filling) (o : Offer) : Filling :=
  if o.demands.isEmpty then f
  else
    let (vs, builder) := f.builder.vars o.shares
    { builder
      serving := o.demands.foldl
        (fun serving demand => serving.modify demand (· ++ [(o.user, o.supply)])) f.serving
      limits := f.limits ++ [⟨total vs, .le, o.casts⟩] }

/-- The variables of a demand on its list, or of one supply only. -/
def part (f : Filling) (demand : Nat) (only : Option Nat) : List Variable :=
  ((f.serving[demand]?.getD []).filter fun (_, supply) => only.all (supply == ·)).filterMap
    fun (user, supply) => f.builder.get ⟨user, supply, demand⟩

def need? (f : Filling) (query demand need : Nat) : Option Constraint :=
  let vars := f.part demand none
  if demand = query ∨ vars.length < need then none else some ⟨total vars, .ge, need⟩

def ratio? (f : Filling) (r : Ratio) : Option Constraint :=
  let p₀ := total (f.part r.first (some r.supply))
  let p₁ := total (f.part r.second (some r.supply))
  let p₂ := total (f.part r.first none)
  let p₃ := total (f.part r.second none)
  let poly := (p₀.product p₃).difference (p₁.product p₂)
  if poly.isEmpty then none else some ⟨poly, .ge, 0⟩

end Filling

/-- The formula of a table, filled in by loops. -/
def fill (t : Table) : Except BuildError Formula := do
  let filled := t.offers.foldl Filling.serve (.empty t.needs.length)
  let limits := filled.limits ++
    t.needs.zipIdx.filterMap (fun (need, demand) => filled.need? t.query demand need) ++
    t.ratios.filterMap filled.ratio?
  let f ← limits.foldlM (fun f c => f.addConstraint c.poly c.relation c.limit)
    (Formula.empty filled.builder.names.size)
  let f ← f.setObjective (total (filled.part t.query none)).negate
  f.setNames filled.builder.names

/-- The lists name the offers that serve each demand, and the limits are theirs. -/
structure Filling.Holds (f : Filling) (demands : Nat) (offers : List Offer) : Prop where
  numbers : f.builder.Numbers (offers.flatMap Offer.shares)
  serving : ∀ demand < demands, f.serving[demand]? =
    some ((offers.filter fun o => o.demands.elem demand).map fun o => (o.user, o.supply))
  limits : f.limits = offerLimits 0 offers

variable {t : Table} {d : Difficulty} {f : Filling} {demands : Nat} {offers : List Offer}
  {o : Offer}

theorem Filling.holds_empty (demands : Nat) : (Filling.empty demands).Holds demands [] where
  numbers := Builder.numbers_empty
  serving demand hlt := by simp [Filling.empty, hlt]
  limits := rfl

theorem getElem?_foldl_modify {α : Type} (a : α) {served : List Nat} (h : served.Nodup)
    (lists : Array (List α)) (demand : Nat) :
    (served.foldl (fun lists demand => lists.modify demand (· ++ [a])) lists)[demand]? =
      if demand ∈ served then lists[demand]?.map (· ++ [a]) else lists[demand]? := by
  induction served generalizing lists with
  | nil => rfl
  | cons first served ih =>
    rw [List.foldl_cons, ih h.of_cons, Array.getElem?_modify]
    have hfirst := List.nodup_cons.1 h
    by_cases heq : first = demand
    · subst heq
      rw [if_neg hfirst.1, if_pos rfl, if_pos List.mem_cons_self]
    · have hmem : demand ∈ first :: served ↔ demand ∈ served := by simp [Ne.symm heq]
      simp only [hmem, if_neg heq]

theorem offerLimits_append (next : Variable) (offers after : List Offer) :
    offerLimits next (offers ++ after) = offerLimits next offers ++
      offerLimits (next + (offers.flatMap Offer.shares).length) after := by
  induction offers generalizing next with
  | nil => rfl
  | cons o offers ih =>
    have hlength : o.shares.length = o.demands.length := List.length_map ..
    rw [List.cons_append, offerLimits, offerLimits, ih, List.flatMap_cons, List.length_append,
      hlength, Nat.add_assoc]
    split <;> rfl

theorem Filling.Holds.serve (h : f.Holds demands offers)
    (hnodup : (offers.flatMap Offer.shares ++ o.shares).Nodup) (hdemands : o.demands.Nodup) :
    (f.serve o).Holds demands (offers ++ [o]) := by
  have hshares : (offers ++ [o]).flatMap Offer.shares =
      offers.flatMap Offer.shares ++ o.shares := by simp
  have hlimits : offerLimits 0 (offers ++ [o]) = offerLimits 0 offers ++
      offerLimits (offers.flatMap Offer.shares).length [o] := by
    rw [offerLimits_append, Nat.zero_add]
  unfold Filling.serve
  split
  · rename_i hempty
    have hnone : o.demands = [] := List.isEmpty_iff.1 hempty
    refine ⟨?_, ?_, ?_⟩
    · simpa [hshares, Offer.shares, hnone] using h.numbers
    · simpa [hnone] using h.serving
    · simpa [hlimits, offerLimits, hnone] using h.limits
  · rename_i hserves
    obtain ⟨builder, hvars, hnumbers⟩ := h.numbers.vars hnodup
    rw [hvars]
    refine ⟨hshares ▸ hnumbers, ?_, ?_⟩
    · intro demand hlt
      rw [getElem?_foldl_modify _ hdemands, h.serving demand hlt, List.filter_append]
      by_cases hmem : demand ∈ o.demands <;> simp [hmem]
    · have hlength : o.shares.length = o.demands.length := List.length_map ..
      simp [hlimits, h.limits, hlength, offerLimits, hserves, of_total]

theorem Filling.holds_foldl (hf : f.Holds demands offers) {after : List Offer}
    (hnodup : ((offers ++ after).flatMap Offer.shares).Nodup)
    (hdemands : ∀ o ∈ after, o.demands.Nodup) :
    (after.foldl Filling.serve f).Holds demands (offers ++ after) := by
  induction after generalizing f offers with
  | nil => simpa using hf
  | cons o after ih =>
    rw [List.append_cons] at hnodup ⊢
    have hfirst : (offers.flatMap Offer.shares ++ o.shares).Nodup := by
      rw [List.flatMap_append] at hnodup
      simpa using hnodup.of_append_left
    exact ih (hf.serve hfirst (hdemands o List.mem_cons_self)) hnodup
      fun p hp => hdemands p (List.mem_cons_of_mem o hp)

theorem Table.Fits.holds_filled (h : t.Fits d) :
    (t.offers.foldl Filling.serve (.empty d.demands)).Holds d.demands t.offers :=
  Filling.holds_foldl (Filling.holds_empty d.demands) h.nodup_shares
    fun o ho => (h.demands o ho).nodup List.nodup_range

/-- Every pair on a list has a variable for the demand. -/
theorem Filling.Holds.part_eq (hf : f.Holds d.demands t.offers) {demand : Nat}
    (hlt : demand < d.demands) (only : Option Nat) : f.part demand only =
      ((t.contributors demand).filter fun o => only.all (o.supply == ·)).map
        fun o => t.varOf ⟨o.user, o.supply, demand⟩ := by
  have hget : ∀ o ∈ (t.contributors demand).filter fun o => only.all (o.supply == ·),
      f.builder.get ⟨o.user, o.supply, demand⟩ =
        some (t.varOf ⟨o.user, o.supply, demand⟩) := by
    intro o ho
    have hserved := List.mem_filter.1 (List.mem_of_mem_filter ho)
    have hshare : (⟨o.user, o.supply, demand⟩ : Share) ∈ o.shares :=
      List.mem_map_of_mem (List.elem_iff.1 hserved.2)
    exact hf.numbers.locates.getElem?_of_mem (List.mem_flatMap_of_mem hserved.1 hshare)
  rw [Filling.part, hf.serving demand hlt, Option.getD_some, List.filter_map,
    List.filterMap_map, ← List.filterMap_eq_map]
  exact List.filterMap_congr hget

section Filled

variable (h : t.Fits d) (hf : f.Holds d.demands t.offers) {demand : Nat}

include h hf

theorem part_whole (hlt : demand < d.demands) :
    f.part demand none = t.variablesWhere fun s => s.demand == demand := by
  have hall : (t.contributors demand).filter (fun o => (none : Option Nat).all (o.supply == ·)) =
      t.contributors demand := List.filter_eq_self.2 fun _ _ => rfl
  rw [hf.part_eq hlt, hall, Table.variablesWhere_eq h.nodup_shares,
    Table.filter_shares_demand h, List.map_map]
  rfl

theorem part_supply (hlt : demand < d.demands) (supply : Nat) : f.part demand (some supply) =
    t.variablesWhere fun s => s.demand == demand && s.supply == supply := by
  rw [hf.part_eq hlt, Table.variablesWhere_eq h.nodup_shares, Table.filter_shares_supply h,
    List.map_map]
  rfl

theorem need?_eq (hlt : demand < d.demands) (need : Nat) :
    f.need? t.query demand need = needLimit? t demand need := by
  simp only [Filling.need?, part_whole h hf hlt, needLimit?, of_total]

theorem ratio?_eq {r : Ratio} (hr : r ∈ t.ratios) : f.ratio? r = ratioLimit? t r := by
  obtain ⟨-, hfirst, hsecond, -⟩ := h.ratios r hr
  rw [ratioLimit?_eq]
  simp only [Filling.ratio?, part_whole h hf hfirst, part_whole h hf hsecond,
    part_supply h hf hfirst, part_supply h hf hsecond]
  rfl

end Filled

/-- The loops fill in the formula of the table. -/
theorem fill_eq (h : t.Fits d) : fill t = formula t := by
  have hf := h.holds_filled
  have hnames := congrArg List.toArray hf.numbers.names_eq
  rw [Array.toArray_toList] at hnames
  have hneeds : t.needs.zipIdx.filterMap (fun (need, demand) =>
      (t.offers.foldl Filling.serve (.empty d.demands)).need? t.query demand need) =
        t.needs.zipIdx.filterMap fun (need, demand) => needLimit? t demand need := by
    refine List.filterMap_congr fun ⟨need, demand⟩ hmem => ?_
    have hlt := (List.getElem?_eq_some_iff.1 (List.mem_zipIdx_iff_getElem?.1 hmem)).1
    exact need?_eq h hf (h.length_needs ▸ hlt) need
  have hratios := List.filterMap_congr fun r hr => ratio?_eq h hf hr
  rw [fill, formula, limits, goal, h.length_needs, hf.limits, hneeds, hratios,
    part_whole h hf h.query_lt, hf.numbers.size_names, hnames]
  rfl

end NonlinearInteger.Allocation
