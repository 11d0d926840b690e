import NonlinearInteger.Proofs.Contents

/-!
# Declared domains

A line of the bounds replaces one end or both ends of the domain of its variable. The domain is
looked at after each line, and a text is refused as soon as one is empty, even if a later line
would open it again. So the lines of one variable may not change places freely. When all of them
pass, the domains are what they leave together, whatever their order.
-/

namespace NonlinearInteger.Lp

/-- The domain with the ends that are declared. -/
def Declaration.applyTo (b : Declaration) (dom : Domain) : Domain :=
  ⟨b.lb.getD dom.lb, b.ub.getD dom.ub⟩

/-- The interval that declarations leave to a name. -/
def interval (x : String) (bs : List Declaration) : Domain :=
  bs.foldl (fun dom b => if b.name = x then b.applyTo dom else dom) .standard

/-- After no declaration is any interval empty. -/
def NeverEmpty (bs : List Declaration) : Prop :=
  ∀ done, done <+: bs → ∀ x, (interval x done).lb ≤ (interval x done).ub

section Intervals

variable {bs done later : List Declaration} {b : Declaration} {x : String}

theorem interval_concat (x : String) (bs : List Declaration) (b : Declaration) :
    interval x (bs ++ [b]) = if b.name = x then b.applyTo (interval x bs) else interval x bs := by
  simp [interval, List.foldl_append]

theorem interval_concat_self (bs : List Declaration) (b : Declaration) :
    interval b.name (bs ++ [b]) = b.applyTo (interval b.name bs) := by
  rw [interval_concat, if_pos rfl]

theorem interval_congr {ds : List Declaration} (h : interval x bs = interval x ds)
    (later : List Declaration) : interval x (bs ++ later) = interval x (ds ++ later) := by
  induction later using List.reverseRecOn with
  | nil => simpa using h
  | append_singleton later b ih =>
    rw [← List.append_assoc, ← List.append_assoc, interval_concat, interval_concat, ih]

theorem neverEmpty_nil : NeverEmpty [] := by
  intro done hdone x
  rw [List.prefix_nil.1 hdone]
  exact show (0 : Int) ≤ 2147483647 by decide

theorem neverEmpty_concat : NeverEmpty (bs ++ [b]) ↔
    NeverEmpty bs ∧
      (interval b.name (bs ++ [b])).lb ≤ (interval b.name (bs ++ [b])).ub := by
  constructor
  · intro h
    exact ⟨fun done hdone => h done (hdone.trans (List.prefix_append bs [b])),
      h _ List.prefix_rfl b.name⟩
  · rintro ⟨hbs, hlast⟩ done hdone x
    rcases List.prefix_concat_iff.1 hdone with rfl | hdone
    · by_cases hx : b.name = x
      · rwa [← hx]
      · rw [interval_concat, if_neg hx]
        exact hbs bs List.prefix_rfl x
    · exact hbs done hdone x

theorem neverEmpty_pair {c : Declaration} : NeverEmpty (bs ++ [b, c]) ↔
    NeverEmpty bs ∧
      (interval b.name (bs ++ [b])).lb ≤ (interval b.name (bs ++ [b])).ub ∧
      (interval c.name (bs ++ [b] ++ [c])).lb ≤ (interval c.name (bs ++ [b] ++ [c])).ub := by
  have hpair : bs ++ [b, c] = bs ++ [b] ++ [c] := by simp
  rw [hpair, neverEmpty_concat, neverEmpty_concat, and_assoc]

theorem NeverEmpty.of_append (h : NeverEmpty (bs ++ later)) : NeverEmpty bs :=
  fun done hdone => h done (hdone.trans (List.prefix_append bs later))

theorem neverEmpty_or_exists (bs : List Declaration) :
    NeverEmpty bs ∨ ∃ done b later, bs = done ++ b :: later ∧ NeverEmpty done ∧
      (interval b.name (done ++ [b])).ub < (interval b.name (done ++ [b])).lb := by
  induction bs using List.reverseRecOn with
  | nil => exact .inl neverEmpty_nil
  | append_singleton bs b ih =>
    rcases ih with hbs | ⟨done, k, later, rfl, hdone, hempty⟩
    · by_cases hlast : (interval b.name (bs ++ [b])).lb ≤ (interval b.name (bs ++ [b])).ub
      · exact .inl (neverEmpty_concat.2 ⟨hbs, hlast⟩)
      · exact .inr ⟨bs, b, [], rfl, hbs, Int.not_le.1 hlast⟩
    · exact .inr ⟨done, k, later ++ [b], by simp, hdone, hempty⟩

theorem NeverEmpty.append_congr {ds : List Declaration} (h : NeverEmpty (ds ++ later))
    (hbs : NeverEmpty bs) (hsame : ∀ x, interval x bs = interval x ds) :
    NeverEmpty (bs ++ later) := by
  induction later using List.reverseRecOn with
  | nil => simpa using hbs
  | append_singleton later b ih =>
    rw [← List.append_assoc, neverEmpty_concat, List.append_assoc] at h ⊢
    rw [interval_congr (hsame b.name)]
    exact ⟨ih h.1, h.2⟩

end Intervals

section Swap

variable {x : String} {a b : Int} {bs later : List Declaration}

theorem interval_swap (y : String) (bs : List Declaration) :
    interval y (bs ++ [⟨x, some a, none⟩, ⟨x, none, some b⟩]) =
      interval y (bs ++ [⟨x, none, some b⟩, ⟨x, some a, none⟩]) := by
  have hpair : ∀ c k : Declaration, bs ++ [c, k] = (bs ++ [c]) ++ [k] := by simp
  rw [hpair, hpair]
  simp only [interval_concat]
  split <;> rfl

theorem neverEmpty_lower_upper : NeverEmpty (bs ++ [⟨x, some a, none⟩, ⟨x, none, some b⟩]) ↔
    NeverEmpty bs ∧ a ≤ (interval x bs).ub ∧ a ≤ b := by
  rw [neverEmpty_pair]
  simp only [interval_concat, Declaration.applyTo, if_true, Option.getD_some, Option.getD_none]

theorem neverEmpty_upper_lower : NeverEmpty (bs ++ [⟨x, none, some b⟩, ⟨x, some a, none⟩]) ↔
    NeverEmpty bs ∧ (interval x bs).lb ≤ b ∧ a ≤ b := by
  rw [neverEmpty_pair]
  simp only [interval_concat, Declaration.applyTo, if_true, Option.getD_some, Option.getD_none]

/-- The upper end may come first as long as it is not below the lower end before both. -/
theorem neverEmpty_upper_first
    (h : NeverEmpty (bs ++ [⟨x, some a, none⟩, ⟨x, none, some b⟩] ++ later)) :
    NeverEmpty (bs ++ [⟨x, none, some b⟩, ⟨x, some a, none⟩] ++ later) ↔
      (interval x bs).lb ≤ b := by
  obtain ⟨hbs, -, hab⟩ := neverEmpty_lower_upper.1 h.of_append
  constructor
  · intro hother
    exact (neverEmpty_upper_lower.1 hother.of_append).2.1
  · intro hle
    exact h.append_congr (neverEmpty_upper_lower.2 ⟨hbs, hle, hab⟩)
      fun y => (interval_swap y bs).symm

theorem neverEmpty_lower_first
    (h : NeverEmpty (bs ++ [⟨x, none, some b⟩, ⟨x, some a, none⟩] ++ later)) :
    NeverEmpty (bs ++ [⟨x, some a, none⟩, ⟨x, none, some b⟩] ++ later) ↔
      a ≤ (interval x bs).ub := by
  obtain ⟨hbs, -, hab⟩ := neverEmpty_upper_lower.1 h.of_append
  constructor
  · intro hother
    exact (neverEmpty_lower_upper.1 hother.of_append).2.1
  · intro hle
    exact h.append_congr (neverEmpty_lower_upper.2 ⟨hbs, hle, hab⟩) fun y => interval_swap y bs

end Swap

/-- The formula of a draft with what some of its declarations leave. -/
def Draft.bounded (d : Draft) (bs : List Declaration) : Formula :=
  { d.posed with domains := d.names.map (interval · bs) }

section Bounded

variable {d : Draft} {bs : List Declaration} {b : Declaration}

theorem Draft.bounded_nil (d : Draft) : d.bounded [] = d.posed := by
  have hdomains : d.names.map (interval · []) = Array.replicate d.names.size .standard := by
    apply Array.ext <;> simp [interval]
  rw [Draft.bounded, hdomains]
  rfl

theorem getElem?_position {names : Array String} {x : String} (hx : x ∈ names) :
    names[position names x]? = some x := by
  rw [← Array.getElem?_toList, position]
  exact List.getElem?_idxOf (Array.mem_toList_iff.2 hx)

theorem map_interval_concat (hnodup : d.names.toList.Nodup) (hb : b.name ∈ d.names) :
    (d.names.map (interval · bs)).setIfInBounds (position d.names b.name)
        (b.applyTo (interval b.name bs)) = d.names.map (interval · (bs ++ [b])) := by
  apply Array.ext_getElem?
  intro v
  rw [Array.getElem?_setIfInBounds, Array.getElem?_map, Array.getElem?_map]
  by_cases hv : position d.names b.name = v
  · subst hv
    rw [if_pos rfl, getElem?_position hb, Option.map_some, interval_concat_self]
    simp [position_lt hb]
  · rw [if_neg hv]
    cases hname : d.names[v]? with
    | none => rfl
    | some y =>
      have hy : b.name ≠ y := by
        rintro rfl
        obtain ⟨hlt, hget⟩ := Array.getElem?_eq_some_iff.1 hname
        exact hv (hget ▸ hnodup.idxOf_getElem v hlt)
      rw [Option.map_some, Option.map_some, interval_concat, if_neg hy]

/-- A declaration is refused when it leaves nothing. The variables have no names yet, so the
message has the number of the variable. -/
theorem applyBound_bounded (bs : List Declaration) (hnodup : d.names.toList.Nodup)
    (hb : b.name ∈ d.names) :
    applyBound (d.bounded bs) (b.numbered d.names) =
      if (interval b.name (bs ++ [b])).ub < (interval b.name (bs ++ [b])).lb then
        .error (.emptyDomain ("x" ++ toString (position d.names b.name))
          (interval b.name (bs ++ [b])).lb (interval b.name (bs ++ [b])).ub)
      else .ok (d.bounded (bs ++ [b])) := by
  have hcurrent : (d.bounded bs).domains[position d.names b.name]?.getD .standard =
      interval b.name bs := by
    rw [Draft.bounded, Array.getElem?_map, getElem?_position hb]
    rfl
  have happly : applyBound (d.bounded bs) (b.numbered d.names) =
      (d.bounded bs).setDomain (position d.names b.name) (interval b.name (bs ++ [b])).lb
        (interval b.name (bs ++ [b])).ub := by
    rw [interval_concat_self, ← hcurrent]
    rfl
  have hlt : ¬(d.bounded bs).numVariables ≤ position d.names b.name :=
    Nat.not_le.2 (position_lt hb)
  have hset : (d.bounded bs).domains.setIfInBounds (position d.names b.name)
      (interval b.name (bs ++ [b])) = d.names.map (interval · (bs ++ [b])) :=
    interval_concat_self bs b ▸ map_interval_concat hnodup hb
  rw [happly, Formula.setDomain, if_neg hlt, hset]
  rfl

theorem foldlM_applyBound_of_neverEmpty (hnodup : d.names.toList.Nodup)
    (hbs : ∀ b ∈ bs, b.name ∈ d.names) (h : NeverEmpty bs) :
    (bs.map (·.numbered d.names)).foldlM applyBound d.posed = .ok (d.bounded bs) := by
  induction bs using List.reverseRecOn with
  | nil => exact congrArg _ d.bounded_nil.symm
  | append_singleton bs b ih =>
    obtain ⟨hdone, hlast⟩ := neverEmpty_concat.1 h
    have hfold := ih (fun k hk => hbs k (List.mem_append_left [b] hk)) hdone
    have hstep := applyBound_bounded bs hnodup (hbs b (by simp))
    rw [if_neg (Int.not_lt.2 hlast)] at hstep
    rw [List.map_append, List.foldlM_append, hfold]
    change ([b.numbered d.names].foldlM applyBound (d.bounded bs)) = _
    rw [List.foldlM_cons, hstep]
    rfl

theorem foldlM_applyBound_of_empty {later : List Declaration} (hnodup : d.names.toList.Nodup)
    (hbs : ∀ k ∈ bs ++ b :: later, k.name ∈ d.names) (h : NeverEmpty bs)
    (hempty : (interval b.name (bs ++ [b])).ub < (interval b.name (bs ++ [b])).lb) :
    ((bs ++ b :: later).map (·.numbered d.names)).foldlM applyBound d.posed =
      .error (.emptyDomain ("x" ++ toString (position d.names b.name))
        (interval b.name (bs ++ [b])).lb (interval b.name (bs ++ [b])).ub) := by
  have hfold := foldlM_applyBound_of_neverEmpty hnodup
    (fun k hk => hbs k (List.mem_append_left _ hk)) h
  have hstep := applyBound_bounded bs hnodup (hbs b (by simp))
  rw [if_pos hempty] at hstep
  rw [List.map_append, List.foldlM_append, hfold]
  change ((b.numbered d.names :: later.map (·.numbered d.names)).foldlM applyBound
    (d.bounded bs)) = _
  rw [List.foldlM_cons, hstep]
  rfl

end Bounded

section Lines

variable {d e : Draft} {line : String}

/-- What a line adds does not depend on the bounds before it. -/
theorem Fills.exists_bounds (h : Fills d line e) (bounds : Array Bound) :
    ∃ bounds', Fills { d with bounds := bounds } line { e with bounds := bounds' } := by
  cases h with
  | objective hpart hread hrelation hmerge =>
    exact ⟨bounds, .objective hpart hread hrelation hmerge⟩
  | constraint hpart hread hrelation hrest hlimit =>
    exact ⟨bounds, .constraint hpart hread hrelation hrest hlimit⟩
  | bound hpart hdeclared => exact ⟨_, .bound hpart hdeclared⟩
  | generals hpart hnames => exact ⟨bounds, .generals hpart hnames⟩

theorem readContents_withBounds {cs : List (Section × String)} (h : readContents d cs = .ok e)
    (bounds : Array Bound) :
    ∃ bounds', readContents { d with bounds := bounds } cs =
      .ok { e with bounds := bounds' } := by
  induction cs generalizing d bounds with
  | nil =>
    cases h
    exact ⟨bounds, rfl⟩
  | cons c cs ih =>
    rw [readContents_cons] at h
    obtain ⟨next, hnext, hrest⟩ := bind_eq_ok.1 h
    obtain ⟨between, hfills⟩ := (readContent_eq_ok.1 hnext).exists_bounds bounds
    obtain ⟨bounds', hbounds'⟩ := ih hrest between
    refine ⟨bounds', ?_⟩
    rw [readContents_cons]
    exact bind_eq_ok.2 ⟨_, readContent_eq_ok.2 hfills, hbounds'⟩

theorem readContents_declared {b : Declaration} (hdeclared : declared? line = some b) (d : Draft)
    (cs : List (Section × String)) : readContents d ((.bounds, line) :: cs) =
      readContents (Draft.declare { d with part := .bounds } b) cs := by
  rw [readContents_cons, readContent_eq_ok.2 (.bound rfl hdeclared)]
  rfl

/-- Two lines that declare ends of one name may change places: the bounds change places as well,
and nothing else changes. -/
theorem exists_readContents_swap {cs later : List (Section × String)} {first second : String}
    {b c : Declaration} (hfirst : declared? first = some b) (hsecond : declared? second = some c)
    (hname : b.name = c.name)
    (h : readContents d (cs ++ (.bounds, first) :: (.bounds, second) :: later) = .ok e) :
    ∃ bounds, readContents d (cs ++ (.bounds, second) :: (.bounds, first) :: later) =
      .ok { e with bounds := bounds } := by
  rw [readContents_append] at h ⊢
  obtain ⟨before, hbefore, h⟩ := bind_eq_ok.1 h
  rw [readContents_declared hfirst, readContents_declared hsecond] at h
  obtain ⟨bounds', hbounds'⟩ := readContents_withBounds h ((before.bounds.push
    (c.numbered (internAll before.names [c.name]))).push
      (b.numbered (internAll (internAll before.names [c.name]) [b.name])))
  refine ⟨bounds', bind_eq_ok.2 ⟨before, hbefore, ?_⟩⟩
  rw [readContents_declared hsecond, readContents_declared hfirst]
  simpa only [Draft.declare, hname] using hbounds'

end Lines

section Texts

variable {text : String} {d : Draft}

theorem mem_names_of_mem_declarations (h : readContents .empty (contentsOf text) = .ok d) :
    ∀ b ∈ declarations text, b.name ∈ d.names :=
  fun _ hb => (filled_of_readContents h).mem_names hb

/-- Once all lines are read the declarations are applied in their order. -/
theorem read_eq_foldlM (h : readContents .empty (contentsOf text) = .ok d) :
    read text = (((declarations text).map (·.numbered d.names)).foldlM applyBound d.posed >>=
      (·.setNames d.names)).mapError .build := by
  have hd := filled_of_readContents h
  have hbounds : d.bounds.toList = (declarations text).map (·.numbered d.names) := hd.bounds_eq
  rw [read_eq_of_readContents h, hd.build_eq (sound_of_readContents h), hbounds]

theorem read_of_neverEmpty (h : readContents .empty (contentsOf text) = .ok d)
    (hne : NeverEmpty (declarations text)) :
    read text = .ok { d.bounded (declarations text) with names := d.names } := by
  have hfold := foldlM_applyBound_of_neverEmpty (sound_of_readContents h).names.nodup
    (mem_names_of_mem_declarations h) hne
  rw [read_eq_foldlM h, hfold]
  change Except.mapError _ ((d.bounded (declarations text)).setNames d.names) = _
  rw [Formula.setNames_eq_ok.2 ⟨rfl, rfl⟩]
  rfl

theorem read_of_empty (h : readContents .empty (contentsOf text) = .ok d)
    {done later : List Declaration} {b : Declaration}
    (hdeclarations : declarations text = done ++ b :: later) (hdone : NeverEmpty done)
    (hempty : (interval b.name (done ++ [b])).ub < (interval b.name (done ++ [b])).lb) :
    read text = .error (.build (.emptyDomain ("x" ++ toString (position d.names b.name))
      (interval b.name (done ++ [b])).lb (interval b.name (done ++ [b])).ub)) := by
  have hnames := mem_names_of_mem_declarations h
  rw [hdeclarations] at hnames
  have hfold := foldlM_applyBound_of_empty (sound_of_readContents h).names.nodup hnames hdone hempty
  rw [read_eq_foldlM h, hdeclarations, hfold]
  rfl

theorem isOk_read_iff (h : readContents .empty (contentsOf text) = .ok d) :
    (∃ f, read text = .ok f) ↔ NeverEmpty (declarations text) := by
  constructor
  · rintro ⟨f, hf⟩
    rcases neverEmpty_or_exists (declarations text) with hne | ⟨_, _, _, heq, hdone, hempty⟩
    · exact hne
    · rw [read_of_empty h heq hdone hempty] at hf
      cases hf
  · intro hne
    exact ⟨_, read_of_neverEmpty h hne⟩

/-- A line of one text that sets the lower end of a name, and the next one that sets its upper
end, have changed places in another text. -/
structure Swapped (text other : String) (before after : List (Section × String))
    (lower upper : String) (x : String) (a b : Int) : Prop where
  text_eq : contentsOf text = before ++ (.bounds, lower) :: (.bounds, upper) :: after
  other_eq : contentsOf other = before ++ (.bounds, upper) :: (.bounds, lower) :: after
  declares_lower : declared? lower = some ⟨x, some a, none⟩
  declares_upper : declared? upper = some ⟨x, none, some b⟩

/-- What changes with the places of a lower and an upper end, after declarations before both. -/
structure SwapEffect (text other : String) (done : List Declaration) (x : String) (a b : Int) :
    Prop where
  lines : ∃ d, readLines .empty 1 (Text.splitAt '\n' other) = .ok d
  result : ∀ f g, read text = .ok f → read other = .ok g → f = g
  upper_first : (∃ f, read text = .ok f) →
    ((∃ g, read other = .ok g) ↔ (interval x done).lb ≤ b)
  lower_first : (∃ g, read other = .ok g) →
    ((∃ f, read text = .ok f) ↔ a ≤ (interval x done).ub)

/-- How the bounds of a text are judged. -/
structure JudgedInOrder (text : String) : Prop where
  isOk_iff : (∃ f, read text = .ok f) ↔ NeverEmpty (declarations text)
  /-- The domains are what all declarations together leave. -/
  domains_eq : ∀ f, read text = .ok f → f.names.size = f.numVariables ∧
    f.domains = f.names.map (interval · (declarations text))
  /-- The first declaration that leaves nothing is blamed, by the number of its variable. -/
  error_eq : ∀ e, read text = .error e → ∃ done b later,
    declarations text = done ++ b :: later ∧ NeverEmpty done ∧
      (interval b.name (done ++ [b])).ub < (interval b.name (done ++ [b])).lb ∧
        e = .build (.emptyDomain
          ("x" ++ toString ((variableTokens text).eraseDups.idxOf b.name))
          (interval b.name (done ++ [b])).lb (interval b.name (done ++ [b])).ub)
  swapped : ∀ other before after lower upper x a b,
    Swapped text other before after lower upper x a b →
      SwapEffect text other (before.filterMap declaration?) x a b

theorem Swapped.swapEffect {other lower upper x : String} {before after : List (Section × String)}
    {a b : Int} (hs : Swapped text other before after lower upper x a b)
    (h : readContents .empty (contentsOf text) = .ok d) :
    SwapEffect text other (before.filterMap declaration?) x a b := by
  obtain ⟨bounds, hother⟩ :=
    exists_readContents_swap hs.declares_lower hs.declares_upper rfl (hs.text_eq ▸ h)
  rw [← hs.other_eq] at hother
  have htext : declarations text = before.filterMap declaration? ++
      [⟨x, some a, none⟩, ⟨x, none, some b⟩] ++ after.filterMap declaration? := by
    simp [declarations, hs.text_eq, declaration?, hs.declares_lower, hs.declares_upper]
  have hdeclared : declarations other = before.filterMap declaration? ++
      [⟨x, none, some b⟩, ⟨x, some a, none⟩] ++ after.filterMap declaration? := by
    simp [declarations, hs.other_eq, declaration?, hs.declares_lower, hs.declares_upper]
  have hsame : (interval · (declarations text)) = (interval · (declarations other)) := by
    funext y
    rw [htext, hdeclared]
    exact interval_congr (interval_swap y _) _
  obtain ⟨part, hlines⟩ := exists_readLines hother
  refine ⟨⟨_, hlines⟩, ?_, ?_, ?_⟩
  · intro f g hf hg
    rw [read_of_neverEmpty h ((isOk_read_iff h).1 ⟨f, hf⟩)] at hf
    rw [read_of_neverEmpty hother ((isOk_read_iff hother).1 ⟨g, hg⟩)] at hg
    cases hf
    cases hg
    simp only [Draft.bounded, hsame]
    rfl
  · intro hok
    rw [isOk_read_iff hother, hdeclared]
    exact neverEmpty_upper_first (htext ▸ (isOk_read_iff h).1 hok)
  · intro hok
    rw [isOk_read_iff h, htext]
    exact neverEmpty_lower_first (hdeclared ▸ (isOk_read_iff hother).1 hok)

/-- The bounds of a text whose lines are all read are judged one after another. -/
theorem judgedInOrder_of_readLines {text : String} {d : Draft}
    (h : readLines .empty 1 (Text.splitAt '\n' text) = .ok d) : JudgedInOrder text := by
  obtain ⟨e, he, -⟩ := exists_of_readLines h
  have hnames : e.names.toList = (variableTokens text).eraseDups := by
    rw [(filled_of_readContents he).names_eq, toList_internAll, variableTokens]
  refine ⟨isOk_read_iff he, ?_, ?_, fun _ _ _ _ _ _ _ _ hs => hs.swapEffect he⟩
  · intro f hf
    rw [read_of_neverEmpty he ((isOk_read_iff he).1 ⟨f, hf⟩)] at hf
    cases hf
    exact ⟨rfl, rfl⟩
  · intro cause hcause
    rcases neverEmpty_or_exists (declarations text) with hne | ⟨done, b, later, heq, hdone, hempty⟩
    · rw [read_of_neverEmpty he hne] at hcause
      cases hcause
    · rw [read_of_empty he heq hdone hempty] at hcause
      cases hcause
      exact ⟨done, b, later, heq, hdone, hempty, by rw [position, hnames]⟩

end Texts

/-- A text that minimises `x` within some bounds. -/
def boundedText (bounds : List String) : String :=
  Text.ofLines (["Minimize", " obj: x", "Bounds"] ++ bounds ++ ["End"])

/-- The lower end is set first, and stays below the standard upper end. -/
theorem judgedInOrder_of_lower_first :
    ∃ d, readLines .empty 1 (Text.splitAt '\n' (boundedText [" x >= 5", " 9 >= x"])) = .ok d ∧
      read (boundedText [" x >= 5", " 9 >= x"]) =
        .ok ⟨1, #[], .normalize (.ofMonomials [.linear 0 1]), #[⟨5, 9⟩], #["x"]⟩ ∧
      JudgedInOrder (boundedText [" x >= 5", " 9 >= x"]) := by
  have hread : read (boundedText [" x >= 5", " 9 >= x"]) =
      .ok ⟨1, #[], .normalize (.ofMonomials [.linear 0 1]), #[⟨5, 9⟩], #["x"]⟩ := by
    decide +kernel
  obtain ⟨d, hlines⟩ := exists_readLines_of_read (boundedText [" x >= 5", " 9 >= x"])
    (by simp [hread])
  exact ⟨d, hlines, hread, judgedInOrder_of_readLines hlines⟩

/-- A lower end above the standard upper end is refused before the line that raises the upper end,
and accepted behind it, though the interval of both is not empty. -/
theorem lower_end_refused :
    (∃ d, readLines .empty 1 (Text.splitAt '\n'
        (boundedText [" x >= 3000000000", " x <= 4000000000"])) = .ok d) ∧
      declarations (boundedText [" x >= 3000000000", " x <= 4000000000"]) =
        [⟨"x", some 3000000000, none⟩, ⟨"x", none, some 4000000000⟩] ∧
      (∀ y, (interval y [⟨"x", some 3000000000, none⟩, ⟨"x", none, some 4000000000⟩]).lb ≤
        (interval y [⟨"x", some 3000000000, none⟩, ⟨"x", none, some 4000000000⟩]).ub) ∧
      read (boundedText [" x >= 3000000000", " x <= 4000000000"]) =
        .error (.build (.emptyDomain "x0" 3000000000 2147483647)) ∧
      read (boundedText [" x <= 4000000000", " x >= 3000000000"]) =
        .ok ⟨1, #[], .normalize (.ofMonomials [.linear 0 1]),
          #[⟨3000000000, 4000000000⟩], #["x"]⟩ ∧
      Swapped (boundedText [" x >= 3000000000", " x <= 4000000000"])
        (boundedText [" x <= 4000000000", " x >= 3000000000"]) [(.objective, "obj: x")] []
        "x >= 3000000000" "x <= 4000000000" "x" 3000000000 4000000000 := by
  have hread : read (boundedText [" x >= 3000000000", " x <= 4000000000"]) =
      .error (.build (.emptyDomain "x0" 3000000000 2147483647)) := by
    decide +kernel
  have hswapped : Swapped (boundedText [" x >= 3000000000", " x <= 4000000000"])
      (boundedText [" x <= 4000000000", " x >= 3000000000"]) [(.objective, "obj: x")] []
      "x >= 3000000000" "x <= 4000000000" "x" 3000000000 4000000000 :=
    ⟨by decide +kernel, by decide +kernel, by decide +kernel, by decide +kernel⟩
  have hupper : NeverEmpty ([] ++ [⟨"x", none, some 4000000000⟩, ⟨"x", some 3000000000, none⟩]) :=
    neverEmpty_upper_lower.2 ⟨neverEmpty_nil, by decide, by decide⟩
  refine ⟨exists_readLines_of_read _ (by simp [hread]), by decide +kernel, ?_, hread,
    by decide +kernel, hswapped⟩
  intro y
  have hleft := hupper _ List.prefix_rfl y
  rw [← interval_swap] at hleft
  exact hleft

end NonlinearInteger.Lp
