/-
  Postings: exact amounts booked on 64-bit accounts.

  A list of postings changes the balance of an account by the sum of the amounts booked on
  it, taken modulo 2^64.  What the wrap-around takes away from the exact sum is the `carry`.
-/
import Mathlib.Algebra.BigOperators.Group.List.Basic
import Mathlib.Algebra.BigOperators.Group.Finset.Basic
import Mathlib.Algebra.BigOperators.Group.Finset.Piecewise
import Mathlib.Algebra.Order.BigOperators.Group.Finset
import Mathlib.Algebra.Ring.Int.Defs

instance Int64.instAddCommGroup : AddCommGroup Int64 where
  add_assoc := Int64.add_assoc
  zero_add := Int64.zero_add
  add_zero := Int64.add_zero
  add_comm := Int64.add_comm
  neg_add_cancel := Int64.add_left_neg
  sub_eq_add_neg _ _ := Int64.sub_eq_add_neg ..
  nsmul := nsmulRec
  zsmul := zsmulRec

namespace Postings

variable {K : Type} [DecidableEq K]

/-- What a list of postings books on an account. -/
def net (ps : List (K × ℤ)) (a : K) : ℤ := ((ps.filter fun p => p.1 = a).map Prod.snd).sum

/-- The sum of all amounts of a list of postings. -/
def total (ps : List (K × ℤ)) : ℤ := (ps.map Prod.snd).sum

@[simp] theorem net_nil (a : K) : net ([] : List (K × ℤ)) a = 0 := rfl
omit [DecidableEq K] in
@[simp] theorem total_nil : total ([] : List (K × ℤ)) = 0 := rfl

theorem net_cons (p : K × ℤ) (ps : List (K × ℤ)) (a : K) :
    net (p :: ps) a = (if p.1 = a then p.2 else 0) + net ps a := by
  unfold net
  by_cases h : p.1 = a
  · simp [h]
  · simp [h]

omit [DecidableEq K] in
@[simp]
theorem total_cons (p : K × ℤ) (ps : List (K × ℤ)) : total (p :: ps) = p.2 + total ps := by
  simp [total]

theorem net_append (ps qs : List (K × ℤ)) (a : K) : net (ps ++ qs) a = net ps a + net qs a := by
  simp [net]

omit [DecidableEq K] in
@[simp]
theorem total_append (ps qs : List (K × ℤ)) : total (ps ++ qs) = total ps + total qs := by
  simp [total]

/-- What is booked on all accounts together is the total. -/
theorem sum_net {ps : List (K × ℤ)} {S : Finset K} (h : ∀ p ∈ ps, p.1 ∈ S) :
    ∑ a ∈ S, net ps a = total ps := by
  induction ps with
  | nil => simp
  | cons p ps ih =>
    simp only [net_cons, total_cons, Finset.sum_add_distrib]
    rw [ih fun q hq => h q (by simp [hq]), Finset.sum_ite_eq, if_pos (h p (by simp))]

/-! ## 64-bit balances -/

/-- What the wrap-around takes away when `n` is added to the balance `b`. -/
def carry (b : Int64) (n : ℤ) : ℤ := b.toInt + n - (b + Int64.ofInt n).toInt

/-- The integer is the value of a 64-bit integer. -/
def InRange (n : ℤ) : Prop := -2 ^ 63 ≤ n ∧ n < 2 ^ 63

instance (n : ℤ) : Decidable (InRange n) := inferInstanceAs (Decidable (_ ∧ _))

theorem inRange_toInt (b : Int64) : InRange b.toInt := by
  have h₁ := b.le_toInt
  have h₂ := b.toInt_lt
  constructor <;> simpa using ‹_›

theorem toInt_add_ofInt (b : Int64) (n : ℤ) : (b + Int64.ofInt n).toInt = (b.toInt + n).bmod (2 ^ 64) := by
  rw [Int64.toInt_add, Int64.toInt_ofInt, show Int64.size = 2 ^ 64 from rfl, Int.add_bmod_bmod]

theorem bmod_of_inRange {n : ℤ} (h : InRange n) : n.bmod (2 ^ 64) = n := by
  obtain ⟨h₁, h₂⟩ := h
  rw [Int.bmod_eq_of_le] <;> omega

/-- The sum of the balances changes by what is booked, less the carries. -/
theorem sum_balances {ps : List (K × ℤ)} {S : Finset K} (h : ∀ p ∈ ps, p.1 ∈ S) (b : K → Int64) :
    ∑ a ∈ S, (b a + Int64.ofInt (net ps a)).toInt =
      ∑ a ∈ S, (b a).toInt + total ps - ∑ a ∈ S, carry (b a) (net ps a) := by
  rw [← sum_net h, ← Finset.sum_add_distrib, ← Finset.sum_sub_distrib]
  refine Finset.sum_congr rfl fun a _ => ?_
  unfold carry
  omega

theorem ofInt_net_cons (p : K × ℤ) (ps : List (K × ℤ)) (a : K) :
    Int64.ofInt (net (p :: ps) a) = (if p.1 = a then Int64.ofInt p.2 else 0) + Int64.ofInt (net ps a) := by
  rw [net_cons, Int64.ofInt_add]
  split_ifs <;> rfl

theorem ofInt_net_append (ps qs : List (K × ℤ)) (a : K) :
    Int64.ofInt (net (ps ++ qs) a) = Int64.ofInt (net ps a) + Int64.ofInt (net qs a) := by
  rw [net_append, Int64.ofInt_add]

/-! ## Balances that are never exceeded -/

/-- The amount is the value of a 64-bit integer that is not negative. -/
def IsAmount (n : ℤ) : Prop := 0 ≤ n ∧ n < 2 ^ 63

instance (n : ℤ) : Decidable (IsAmount n) := inferInstanceAs (Decidable (_ ∧ _))

theorem IsAmount.inRange {n : ℤ} (h : IsAmount n) : InRange n := by
  obtain ⟨h₁, h₂⟩ := h
  constructor <;> omega

/-- Booked one after the other on the balances `b`, the postings leave an amount on every account. -/
def Fits : (K → ℤ) → List (K × ℤ) → Prop
  | _, [] => True
  | b, (a, n) :: ps => IsAmount (b a + n) ∧ Fits (Function.update b a (b a + n)) ps

instance Fits.decidable : (b : K → ℤ) → (ps : List (K × ℤ)) → Decidable (Fits b ps)
  | _, [] => isTrue trivial
  | b, (a, n) :: ps =>
    have := Fits.decidable (Function.update b a (b a + n)) ps
    inferInstanceAs (Decidable (IsAmount (b a + n) ∧ Fits (Function.update b a (b a + n)) ps))

/-- The amounts on the accounts after the postings. -/
theorem Fits.net : ∀ {ps : List (K × ℤ)} {b : K → ℤ}, Fits b ps → (∀ a, IsAmount (b a)) →
    ∀ a, IsAmount (b a + net ps a)
  | [], b, _, hb, a => by simpa using hb a
  | (c, n) :: ps, b, ⟨hc, hps⟩, hb, a => by
    have hb' : ∀ d, IsAmount (Function.update b c (b c + n) d) := by
      intro d
      by_cases hd : d = c
      · subst hd
        rwa [Function.update_self]
      · rw [Function.update_of_ne hd]
        exact hb d
    have hrest := hps.net hb' a
    rw [net_cons]
    by_cases ha : c = a
    · subst ha
      rw [Function.update_self, add_assoc] at hrest
      rwa [if_pos rfl]
    · rw [Function.update_of_ne (Ne.symm ha)] at hrest
      rwa [if_neg ha, zero_add]

end Postings
