/-
  Synthetic division as an identity of polynomials.

  **A polynomial is `x - r` times the quotient of the synthetic division, and its value at `r`**
  (`polynomial_suffixes`).
-/
import Mathlib.Algebra.Polynomial.Eval.Defs
import Timbre.Lib.Horner

namespace Horner

open Polynomial

variable {R : Type} [CommRing R]

/-- The polynomial with these coefficients. -/
noncomputable def polynomial (cs : List R) : R[X] := ∑ j ∈ Finset.range cs.length, C (cs.getD j 0) * X ^ j

/-- Horner's rule commutes with homomorphisms. -/
theorem map_eval {S : Type} [CommRing S] (f : R →+* S) (x : R) : ∀ cs : List R,
    f (eval x cs) = eval (f x) (cs.map f)
  | [] => map_zero f
  | c :: cs => by rw [List.map_cons, eval_cons, eval_cons, map_add, map_mul, map_eval f x cs]

theorem suffixes_map {S : Type} [CommRing S] (f : R →+* S) (r : R) : ∀ cs : List R,
    suffixes (f r) (cs.map f) = (suffixes r cs).map f
  | [] => rfl
  | c :: cs => by
    have hhead : eval (f r) ((c :: cs).map f) = f (eval r (c :: cs)) := (map_eval f r (c :: cs)).symm
    rw [List.map_cons] at hhead ⊢
    rw [suffixes, suffixes, hhead, List.map_cons, suffixes_map f r cs]

/-- A polynomial is its own value at `X`. -/
theorem polynomial_eq (cs : List R) : polynomial cs = eval X (cs.map C) := by
  rw [eval_eq_sum (n := cs.length) (by simp), polynomial]
  refine Finset.sum_congr rfl fun j hj => ?_
  have hcoeff : (cs.map C).getD j 0 = C (cs.getD j 0) := by
    simp [List.getD_eq_getElem?_getD, Finset.mem_range.1 hj]
  rw [hcoeff, mul_comm]

@[simp] theorem polynomial_nil : polynomial ([] : List R) = 0 := by simp [polynomial]

@[simp] theorem polynomial_singleton (c : R) : polynomial [c] = C c := by simp [polynomial]

/-- **The division by `X - r`.** -/
theorem polynomial_suffixes (r c : R) (cs : List R) :
    polynomial (c :: cs) = (X - C r) * polynomial (suffixes r cs) + C (eval r (c :: cs)) := by
  rw [polynomial_eq, polynomial_eq, map_eval, List.map_cons, ← suffixes_map]
  exact eval_suffixes (C c) (cs.map C)

end Horner
