/-
  Amounts that are due for a period, paid stretch by stretch.

  **If the stretches follow one another, no point of time is paid for twice**
  (`Staggered.disjoint`), and what is paid for them, each share rounded down, does not exceed
  the amount (`sum_share_le`).
-/
import Mathlib.Algebra.Order.BigOperators.Group.List
import Mathlib.Algebra.BigOperators.Ring.List
import Mathlib.Order.CompletePartialOrder
import Mathlib.Order.Interval.Set.Disjoint
import Mathlib.Tactic.Linarith

namespace Prorate

variable {α : Type} [LinearOrder α]

/-- The stretches, given by their ends, follow one another from `lo` to `hi`. -/
def Staggered (hi : α) : α → List (α × α) → Prop
  | lo, [] => lo ≤ hi
  | lo, x :: xs => lo ≤ x.1 ∧ x.1 ≤ x.2 ∧ Staggered hi x.2 xs

variable {lo hi : α} {x : α × α} {xs : List (α × α)}

theorem Staggered.le : ∀ {lo : α} {xs : List (α × α)}, Staggered hi lo xs → lo ≤ hi
  | _, [], h => h
  | _, _ :: _, h => h.1.trans (h.2.1.trans h.2.2.le)

theorem Staggered.mem : ∀ {lo : α} {xs : List (α × α)}, Staggered hi lo xs → x ∈ xs →
    lo ≤ x.1 ∧ x.1 ≤ x.2 ∧ x.2 ≤ hi
  | _, y :: xs, h, hx => by
    rcases List.mem_cons.1 hx with rfl | hx
    · exact ⟨h.1, h.2.1, h.2.2.le⟩
    · have hmem := h.2.2.mem hx
      exact ⟨(h.1.trans h.2.1).trans hmem.1, hmem.2⟩

theorem Staggered.disjoint : ∀ {lo : α} {xs : List (α × α)}, Staggered hi lo xs →
    xs.Pairwise fun x y => Disjoint (Set.Ioc x.1 x.2) (Set.Ioc y.1 y.2)
  | _, [], _ => .nil
  | _, x :: xs, h => by
    refine .cons (fun y hy => Set.disjoint_left.2 fun t hx hy' => ?_) h.2.2.disjoint
    exact absurd ((h.2.2.mem hy).1.trans_lt hy'.1) (not_lt.2 hx.2)

theorem Staggered.sum_le : ∀ {lo hi : ℤ} {xs : List (ℤ × ℤ)}, Staggered hi lo xs →
    (xs.map fun x => x.2 - x.1).sum ≤ hi - lo
  | _, _, [], h => by simpa using h.le
  | lo, hi, x :: xs, h => by
    have hsum := h.2.2.sum_le
    rw [List.map_cons, List.sum_cons]
    linarith [h.1]

/-- The shares for parts of a whole, each rounded down, do not exceed the amount. -/
theorem sum_share_le {amount whole : ℤ} {parts : List ℤ} (hamount : 0 ≤ amount) (hwhole : 0 < whole)
    (hparts : parts.sum ≤ whole) : (parts.map fun part => amount * part / whole).sum ≤ amount := by
  refine le_of_mul_le_mul_left ?_ hwhole
  calc whole * (parts.map fun part => amount * part / whole).sum
      = (parts.map fun part => whole * (amount * part / whole)).sum := (List.sum_map_mul_left _ _ _).symm
    _ ≤ (parts.map fun part => amount * part).sum :=
      List.sum_le_sum fun _ _ => Int.mul_ediv_self_le hwhole.ne'
    _ = amount * parts.sum := by rw [List.sum_map_mul_left, List.map_id']
    _ ≤ whole * amount := by rw [mul_comm whole]; exact mul_le_mul_of_nonneg_left hparts hamount

end Prorate
