import NonlinearInteger.Proofs.Lifts
import NonlinearInteger.Proofs.RepairCandidates

/-!
# Selections

A selection draws some moves from a pool and makes the best of them, if it is good enough.
The move that is kept is one of those drawn with the greatest of their scores.
-/

namespace NonlinearInteger.Search

section BestOf

variable {best : Option Scored} {drawn : List Scored} {b q : Scored}

end BestOf

variable {ρ : Type} {P : Problem} {lbs ubs : Array Int} {s t : State ρ} {pool rest : Pool}

/-- The scores of some moves. -/
def scores (P : Problem) (s : State ρ) (ms : List Move) : Set Int :=
  {n | ∃ m ∈ ms, score P s m.1 m.2 = .ok n}

namespace Draws

variable {drawn : List Scored} {threshold : Option Int}

theorem whole (h : Draws P s pool drawn rest) (hlength : drawn.length = pool.size) :
    rest.entries = #[] ∧
      scores P s (drawn.map Scored.move) = scores P s pool.entries.toList := by
  have hle := h.perm.length_eq
  rw [List.length_append, List.length_map, hlength, Array.length_toList,
    Array.length_toList] at hle
  have hrest : rest.entries = #[] := Array.eq_empty_of_size_eq_zero (Nat.add_eq_left.1 hle)
  have hperm := h.perm
  rw [hrest, List.append_nil] at hperm
  refine ⟨hrest, Set.ext fun n => ?_⟩
  exact exists_congr fun m => and_congr_left' hperm.mem_iff

end Draws

variable [RandomSource ρ]

end NonlinearInteger.Search
