/-!
# Checked steps

Three things can stop a computation on tables and machine integers: an index
with no entry, a result outside the 128-bit range, and a draw from an empty
range. Integers themselves are unbounded; the ranges of the machine words are
predicates on them.
-/

namespace NonlinearInteger

/-- Why a step could not be carried out. -/
inductive Fault where
  | missingEntry
  | overflow
  | emptyRange
  deriving DecidableEq, Repr

abbrev Checked := Except Fault

/-- The entry at an index. -/
def fetch {α : Type} (a : Array α) (i : Nat) : Checked α :=
  match a[i]? with
  | some x => .ok x
  | none => .error .missingEntry

/-- The table with one entry replaced. -/
def store {α : Type} (a : Array α) (i : Nat) (x : α) : Checked (Array α) :=
  if h : i < a.size then .ok (a.set i x h) else .error .missingEntry

theorem fetch_of_lt {α : Type} {a : Array α} {i : Nat} (h : i < a.size) :
    fetch a i = .ok a[i] := by
  simp [fetch, h]

theorem fetch_of_idxOf? {α : Type} [BEq α] [LawfulBEq α] {a : Array α} {x : α} {i : Nat}
    (h : a.idxOf? x = some i) : fetch a i = .ok x := by
  rw [Array.idxOf?_eq_map_finIdxOf?_val] at h
  obtain ⟨j, hj, rfl⟩ := Option.map_eq_some_iff.1 h
  rw [fetch_of_lt j.isLt]
  exact congrArg _ (Array.finIdxOf?_eq_some_iff.1 hj).1

theorem store_of_lt {α : Type} {a : Array α} {i : Nat} {x : α} (h : i < a.size) :
    store a i x = .ok (a.set i x h) := by
  simp [store, h]

theorem bind_eq_ok {ε α β : Type} {x : Except ε α} {f : α → Except ε β} {b : β} :
    (x >>= f) = .ok b ↔ ∃ a, x = .ok a ∧ f a = .ok b := by
  cases x <;> simp [bind, Except.bind]

theorem pure_eq_ok {ε α : Type} {a b : α} : (pure a : Except ε α) = .ok b ↔ a = b := by
  simp [pure, Except.pure]

theorem map_eq_ok {ε α β : Type} {x : Except ε α} {f : α → β} {b : β} :
    f <$> x = .ok b ↔ ∃ a, x = .ok a ∧ f a = b := by
  cases x <;> simp [Functor.map, Except.map]

theorem foldlM_keeps {ε α β : Type} {motive : β → Prop} {f : β → α → Except ε β} {as : List α}
    {b c : β} (h : as.foldlM f b = .ok c) (start : motive b)
    (step : ∀ b a c, a ∈ as → motive b → f b a = .ok c → motive c) : motive c := by
  induction as generalizing b with
  | nil => exact pure_eq_ok.1 h ▸ start
  | cons a as ih =>
    obtain ⟨d, hd, hrest⟩ := bind_eq_ok.1 (List.foldlM_cons (f := f) ▸ h)
    exact ih hrest (step b a d List.mem_cons_self start hd)
      fun b a' c ha' => step b a' c (List.mem_cons_of_mem a ha')

/-- The signed 64-bit range. -/
def FitsInt64 (x : Int) : Prop :=
  -9223372036854775808 ≤ x ∧ x ≤ 9223372036854775807

instance (x : Int) : Decidable (FitsInt64 x) :=
  inferInstanceAs (Decidable (_ ∧ _))

/-- The unsigned 64-bit range. -/
def FitsNat64 (n : Nat) : Prop :=
  n ≤ 18446744073709551615

instance (n : Nat) : Decidable (FitsNat64 n) :=
  inferInstanceAs (Decidable (_ ≤ _))

namespace Wide

/-- The least signed 128-bit integer. -/
def least : Int := -170141183460469231731687303715884105728

/-- The greatest signed 128-bit integer. -/
def greatest : Int := 170141183460469231731687303715884105727

/-- The signed 128-bit range. -/
def Fits (x : Int) : Prop := least ≤ x ∧ x ≤ greatest

instance (x : Int) : Decidable (Fits x) :=
  inferInstanceAs (Decidable (_ ∧ _))

/-- The nearest 128-bit integer. -/
def saturate (x : Int) : Int := max least (min x greatest)

theorem saturate_of_fits {x : Int} (h : Fits x) : saturate x = x := by
  simp only [Fits, saturate, least, greatest] at *
  omega

theorem fits_saturate (x : Int) : Fits (saturate x) := by
  simp only [Fits, saturate, least, greatest]
  omega

/-- A result that has to lie in the 128-bit range. -/
def exact (x : Int) : Checked Int :=
  if Fits x then .ok x else .error .overflow

theorem exact_of_fits {x : Int} (h : Fits x) : exact x = .ok x := if_pos h

theorem exact_eq_ok {x y : Int} : exact x = .ok y ↔ x = y ∧ Fits x := by
  by_cases h : Fits x <;> simp [exact, h]

def add (x y : Int) : Checked Int := exact (x + y)

def sub (x y : Int) : Checked Int := exact (x - y)

def mul (x y : Int) : Checked Int := exact (x * y)

def addSaturating (x y : Int) : Int := saturate (x + y)

def mulSaturating (x y : Int) : Int := saturate (x * y)

/-- The greatest integer not above the quotient. -/
def divFloor (x y : Int) : Checked Int := exact (Int.fdiv x y)

/-- The least integer not below the quotient. -/
def divCeil (x y : Int) : Checked Int := exact (-Int.fdiv (-x) y)

end Wide
end NonlinearInteger
