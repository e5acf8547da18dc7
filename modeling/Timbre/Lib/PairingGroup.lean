/-
  Symmetric bilinear groups of prime order, and powers whose exponents are residues.

  The exponents form a ring that acts on the group: the powers of sums, products and
  running products are computed by the lemmas tagged `simp`, and **an exponent may be moved
  from one side of a pairing to the other** (`pair_powZn`).
-/
import Mathlib.Data.ZMod.Basic
import Mathlib.Algebra.BigOperators.Group.List.Basic
import Mathlib.Algebra.BigOperators.Group.Finset.Basic
import Mathlib.Data.Nat.Prime.Defs

/-- A group `G` whose exponent is the prime `order`, with a symmetric bilinear map into `T`. -/
structure PairingGroup (G T : Type) [CommGroup G] [CommGroup T] where
  order : ℕ
  prime : order.Prime
  pow_order : ∀ x : G, x ^ order = 1
  pair : G → G → T
  pair_comm : ∀ x y, pair x y = pair y x
  pair_mul : ∀ x y z, pair (x * y) z = pair x z * pair y z

namespace PairingGroup

variable {G T : Type} [CommGroup G] [CommGroup T] (P : PairingGroup G T)

/-- The exponents. -/
abbrev Zr : Type := ZMod P.order

/-- The power of a group element by an exponent. -/
def powZn (x : G) (z : P.Zr) : G := x ^ z.val

variable {P} {x y : G} {z w : P.Zr}

theorem pow_mod (n : ℕ) : x ^ (n % P.order) = x ^ n :=
  (pow_eq_pow_mod n (P.pow_order x)).symm

theorem pow_eq_powZn (x : G) (n : ℕ) : x ^ n = P.powZn x n := by
  rw [powZn, ZMod.val_natCast, pow_mod]

@[simp]
theorem powZn_zero : P.powZn x 0 = 1 := by
  rw [powZn, ZMod.val_zero, pow_zero]

@[simp]
theorem powZn_one : P.powZn x 1 = x := by
  have h := (pow_eq_powZn (P := P) x 1).symm
  rwa [Nat.cast_one, pow_one] at h

@[simp]
theorem one_powZn : P.powZn 1 z = 1 := one_pow _

theorem mul_powZn : P.powZn (x * y) z = P.powZn x z * P.powZn y z := mul_pow _ _ _

theorem powZn_add : P.powZn x (z + w) = P.powZn x z * P.powZn x w := by
  have : NeZero P.order := ⟨P.prime.ne_zero⟩
  rw [powZn, ZMod.val_add, pow_mod, pow_add]
  rfl

theorem powZn_powZn : P.powZn (P.powZn x z) w = P.powZn x (z * w) := by
  rw [powZn, powZn, powZn, ZMod.val_mul, pow_mod, pow_mul]

theorem powZn_sum {ι : Type} (f : ι → P.Zr) : ∀ is : List ι,
    P.powZn x (is.map f).sum = (is.map fun i => P.powZn x (f i)).prod
  | [] => powZn_zero
  | i :: is => by
    rw [List.map_cons, List.sum_cons, powZn_add, powZn_sum f is, List.map_cons, List.prod_cons]

theorem prod_powZn {ι : Type} (f : ι → G) : ∀ is : List ι,
    P.powZn (is.map f).prod z = (is.map fun i => P.powZn (f i) z).prod
  | [] => one_powZn
  | i :: is => by
    rw [List.map_cons, List.prod_cons, mul_powZn, prod_powZn f is, List.map_cons, List.prod_cons]

/-! ## The pairing -/

theorem pair_one : P.pair 1 y = 1 := by
  have h := P.pair_mul 1 1 y
  rwa [one_mul, left_eq_mul] at h

theorem pair_pow (n : ℕ) : P.pair (x ^ n) y = P.pair x y ^ n := by
  induction n with
  | zero => rw [pow_zero, pow_zero, pair_one]
  | succ n ih => rw [pow_succ, P.pair_mul, ih, pow_succ]

/-- An exponent may be moved from one side to the other. -/
theorem pair_powZn : P.pair x (P.powZn y z) = P.pair (P.powZn x z) y := by
  rw [P.pair_comm, powZn, powZn, pair_pow, pair_pow, P.pair_comm]

end PairingGroup
