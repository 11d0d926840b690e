import NonlinearInteger.Search.Steps
import NonlinearInteger.Proofs.PoolSets

/-!
# Drawn moves

Moves are drawn from a pool one by one, and what is drawn is gone from the pool. The state
does not change meanwhile, so all scores are scores of the same state, and the best move so far
is what remains of the moves drawn.
-/

namespace NonlinearInteger.Search

variable {ρ : Type} {P : Problem} {s : State ρ} {pool rest : Pool} {best last : Option Scored}
  {drawn : List Scored} {b : Scored}

/-- What is kept of some moves with their scores, one after another. -/
def bestOf (best : Option Scored) (drawn : List Scored) : Option Scored :=
  drawn.foldl (fun best next => some (better best next)) best

theorem better_eq (best : Option Scored) (next : Scored) :
    better best next = next ∨ best = some (better best next) := by
  cases best with
  | none => exact .inl rfl
  | some b =>
    unfold better
    dsimp only
    split
    · exact .inl rfl
    · exact .inr rfl

theorem mem_of_bestOf (h : bestOf best drawn = some b) : b ∈ drawn ∨ best = some b := by
  induction drawn generalizing best with
  | nil => exact .inr h
  | cons q drawn ih =>
    rcases ih h with hmem | hbetter
    · exact .inl (List.mem_cons_of_mem q hmem)
    · cases hbetter
      rcases better_eq best q with hnext | hbest
      · rw [hnext]
        exact .inl List.mem_cons_self
      · exact .inr hbest

/-- Moves with their scores are drawn from a pool, and the others are left. -/
structure Draws (P : Problem) (s : State ρ) (pool : Pool) (drawn : List Scored) (rest : Pool) :
    Prop where
  scored : ∀ q ∈ drawn, score P s q.move.1 q.move.2 = .ok q.score
  perm : (drawn.map Scored.move ++ rest.entries.toList).Perm pool.entries.toList
  indexed : pool.Indexed → rest.Indexed

namespace Draws

theorem refl : Draws P s pool [] pool where
  scored := by simp
  perm := .refl _
  indexed := id

theorem cons {middle : Pool} {m : Move} {n : Int} (hscore : score P s m.1 m.2 = .ok n)
    (hperm : (m :: middle.entries.toList).Perm pool.entries.toList)
    (hindexed : pool.Indexed → middle.Indexed) (h : Draws P s middle drawn rest) :
    Draws P s pool (⟨m, n⟩ :: drawn) rest where
  scored := List.forall_mem_cons.2 ⟨hscore, h.scored⟩
  perm := (h.perm.cons m).trans hperm
  indexed := fun hpool => h.indexed (hindexed hpool)

theorem mem_entries (h : Draws P s pool drawn rest) (hb : b ∈ drawn) : b.move ∈ pool.entries :=
  Array.mem_def.2 (h.perm.subset (List.mem_append_left _ (List.mem_map_of_mem hb)))

end Draws

/-- What is drawn is gone from the pool, and the best of it is kept. -/
theorem draws_of_drawBest [RandomSource ρ] {n : Nat} {source source' : ρ}
    (h : drawBest P s n best pool source = .ok (last, rest, source')) :
    ∃ drawn, drawn.length = n ∧ Draws P s pool drawn rest ∧ last = bestOf best drawn := by
  induction n generalizing best pool source with
  | zero =>
    cases h
    exact ⟨[], rfl, .refl, rfl⟩
  | succ n ih =>
    obtain ⟨⟨i, source₁⟩, -, h⟩ := bind_eq_ok.1 h
    obtain ⟨⟨m, middle⟩, hremove, h⟩ := bind_eq_ok.1 h
    obtain ⟨value, hvalue, h⟩ := bind_eq_ok.1 h
    obtain ⟨-, hperm, hindexed⟩ :=
      (Pool.succeeds_removeAt (Pool.lt_of_removeAt hremove)).apply hremove
    obtain ⟨drawn, hlength, hdraws, hlast⟩ := ih h
    exact ⟨⟨m, value⟩ :: drawn, congrArg (· + 1) hlength,
      hdraws.cons hvalue hperm hindexed, hlast⟩

end NonlinearInteger.Search
