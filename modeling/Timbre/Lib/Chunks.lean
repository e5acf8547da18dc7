/-
  Lists cut into pieces of one length.

  **The pieces of a list give the list again**, if its length is the sum of theirs
  (`flatten_pieces`).
-/
import Mathlib.Data.List.Range
import Mathlib.Tactic.Linarith

namespace Chunks

universe u
variable {α : Type u} {k n i : ℕ} {xs : List α}

/-- The piece with index `i`, of length `k`. -/
def piece (k : ℕ) (xs : List α) (i : ℕ) : List α := (xs.drop (i * k)).take k

/-- The first `n` pieces. -/
def pieces (k n : ℕ) (xs : List α) : List (List α) := (List.range n).map (piece k xs)

@[simp]
theorem length_pieces : (pieces k n xs).length = n := by simp [pieces]

/-- There is room for the piece. -/
theorem piece_end (hi : i < n) : i * k + k ≤ n * k := by
  rw [← Nat.succ_mul]
  exact Nat.mul_le_mul_right k hi

theorem length_piece (h : xs.length = n * k) (hi : i < n) : (piece k xs i).length = k := by
  have hend := piece_end (k := k) hi
  rw [piece, List.length_take, List.length_drop, h]
  omega

theorem length_of_mem (h : xs.length = n * k) {p : List α} (hp : p ∈ pieces k n xs) : p.length = k := by
  obtain ⟨i, hi, rfl⟩ := List.mem_map.1 hp
  exact length_piece h (List.mem_range.1 hi)

theorem pieces_succ (k n : ℕ) (xs : List α) : pieces k (n + 1) xs = xs.take k :: pieces k n (xs.drop k) := by
  have hnext : ∀ i, piece k xs (i + 1) = piece k (xs.drop k) i := by
    intro i
    rw [piece, piece, List.drop_drop, Nat.succ_mul, Nat.add_comm]
  rw [pieces, List.range_succ_eq_map, List.map_cons, List.map_map, piece, Nat.zero_mul, List.drop_zero]
  exact congrArg (xs.take k :: ·) (List.map_congr_left fun i _ => hnext i)

/-- **The pieces one behind the other.** -/
theorem flatten_pieces (h : xs.length = n * k) : (pieces k n xs).flatten = xs := by
  induction n generalizing xs with
  | zero =>
    rw [Nat.zero_mul, List.length_eq_zero_iff] at h
    rw [h]
    rfl
  | succ n ih =>
    have hrest : (xs.drop k).length = n * k := by
      rw [List.length_drop, h, Nat.succ_mul, Nat.add_sub_cancel]
    rw [pieces_succ, List.flatten_cons, ih hrest, List.take_append_drop]

end Chunks
