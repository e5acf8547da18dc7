/-
  Polynomials as lists of coefficients, the coefficient of the lowest power first.

  **Synthetic division by `x - r` leaves the value at `r` as its remainder** (`eval_suffixes`):
  the quotient lists the values at `r` of the polynomial's suffixes, as Horner's rule
  computes them on its way.
-/
import Mathlib.Algebra.BigOperators.Intervals
import Mathlib.Algebra.BigOperators.Ring.Finset
import Mathlib.Tactic.LinearCombination
import Mathlib.Tactic.Ring

namespace Horner

variable {R : Type} [CommRing R]

/-- The value at `x`, by Horner's rule. -/
def eval (x : R) : List R → R
  | [] => 0
  | c :: cs => eval x cs * x + c

/-- The values at `r` of the suffixes, the longest first. -/
def suffixes (r : R) : List R → List R
  | [] => []
  | c :: cs => eval r (c :: cs) :: suffixes r cs

variable {x r c : R} {cs : List R}

@[simp] theorem eval_nil : eval x [] = 0 := rfl

@[simp] theorem eval_cons : eval x (c :: cs) = eval x cs * x + c := rfl

@[simp]
theorem length_suffixes : ∀ cs : List R, (suffixes r cs).length = cs.length
  | [] => rfl
  | _ :: cs => by rw [suffixes, List.length_cons, List.length_cons, length_suffixes cs]

/-- The division by `x - r`. -/
theorem eval_suffixes : ∀ (c : R) (cs : List R),
    eval x (c :: cs) = (x - r) * eval x (suffixes r cs) + eval r (c :: cs)
  | c, [] => by simp [suffixes]
  | c, d :: ds => by
    have htail := eval_suffixes d ds
    have hquot : eval x (suffixes r (d :: ds)) = eval x (suffixes r ds) * x + eval r (d :: ds) := rfl
    rw [eval_cons (c := c), eval_cons (c := c), hquot]
    linear_combination x * htail

theorem eval_eq_sum : ∀ {cs : List R} {n : ℕ}, cs.length ≤ n →
    eval x cs = ∑ j ∈ Finset.range n, x ^ j * cs.getD j 0
  | [], n, _ => by simp
  | c :: cs, n + 1, h => by
    rw [eval_cons, eval_eq_sum (Nat.le_of_succ_le_succ h), Finset.sum_range_succ', Finset.sum_mul]
    simp only [List.getD_cons_succ, List.getD_cons_zero, pow_zero, one_mul, pow_succ]
    congr 1
    exact Finset.sum_congr rfl fun j _ => by ring

theorem eval_range (f : ℕ → R) (n : ℕ) :
    eval x ((List.range n).map f) = ∑ j ∈ Finset.range n, x ^ j * f j := by
  rw [eval_eq_sum (n := n) (by simp)]
  refine Finset.sum_congr rfl fun j hj => ?_
  simp [List.getD_eq_getElem?_getD, Finset.mem_range.1 hj]

/-- The value is linear in the coefficients. -/
theorem eval_sum {ι : Type} (f : ι → ℕ → R) (n : ℕ) : ∀ is : List ι,
    eval x ((List.range n).map fun j => (is.map fun i => f i j).sum) =
      (is.map fun i => eval x ((List.range n).map (f i))).sum
  | [] => by rw [eval_range]; simp
  | i :: is => by
    simp only [List.map_cons, List.sum_cons]
    rw [← eval_sum f n is, eval_range, eval_range, eval_range, ← Finset.sum_add_distrib]
    exact Finset.sum_congr rfl fun j _ => mul_add _ _ _

end Horner
