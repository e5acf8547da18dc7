/-
  Items that are numbered per key.

  Every key has a 64-bit counter.  An item is due if it has the number after the counter of
  its key, and taking it counts up.  **No item is taken twice, until a counter has run
  through all its values** (`nodup`).
-/
import Mathlib.Data.UInt
import Timbre.Lib.Call

namespace Numbering

open Call

variable {K α : Type} [DecidableEq K] {key : α → K} {number : α → UInt64}

/-- The item is due, and it is taken. -/
structure Due (key : α → K) (number : α → UInt64) (x : α) (n n' : K → UInt64) : Prop where
  number : number x = n (key x) + 1
  counter : n' = Function.update n (key x) (n (key x) + 1)

/-- How many items of a list have a key. -/
def count (key : α → K) (k : K) (xs : List α) : ℕ := xs.countP fun x => key x = k

variable {xs pre post : List α} {x : α} {n n' : K → UInt64}

theorem count_cons (k : K) (x : α) (xs : List α) :
    count key k (x :: xs) = count key k xs + if key x = k then 1 else 0 := by
  simp [count, List.countP_cons]

theorem count_append (k : K) (xs ys : List α) :
    count key k (xs ++ ys) = count key k xs + count key k ys := List.countP_append

/-- The counters tell how many items have been taken. -/
theorem counter_eq (h : Steps (Due key number) xs n n') (k : K) :
    n' k = n k + UInt64.ofNat (count key k xs) := by
  induction h with
  | nil => exact (UInt64.add_zero _).symm
  | @cons x xs n n₁ n' hx _ ih =>
    rw [ih, hx.counter, count_cons]
    by_cases hk : key x = k
    · subst hk
      rw [Function.update_self, if_pos rfl, UInt64.ofNat_add, UInt64.add_assoc, UInt64.add_comm 1]
      rfl
    · rw [Function.update_of_ne (Ne.symm hk), if_neg hk, Nat.add_zero]

/-- The number of an item is given by the items before it. -/
theorem number_eq (h : Steps (Due key number) (pre ++ x :: post) n n') :
    number x = n (key x) + UInt64.ofNat (count key (key x) pre + 1) := by
  obtain ⟨n₁, hpre, hpost⟩ := h.append_inv
  cases hpost with
  | cons hx _ =>
    rw [hx.number, counter_eq hpre, UInt64.ofNat_add, UInt64.add_assoc]
    rfl

/-- If every step counts up, items with the right numbers are due. -/
theorem due_of_numbers {σ : Type} (counters : σ → K → UInt64) {Step : α → σ → σ → Prop} {s s' : σ}
    (h : Steps Step xs s s') (hstep : ∀ x ∈ xs, ∀ s s', Step x s s' →
      counters s' = Function.update (counters s) (key x) (counters s (key x) + 1))
    (hnumber : ∀ pre x post, xs = pre ++ x :: post →
      number x = counters s (key x) + UInt64.ofNat (count key (key x) pre + 1)) :
    Steps (fun x s s' => Step x s s' ∧ Due key number x (counters s) (counters s')) xs s s' := by
  induction h with
  | nil => exact .nil _
  | @cons x xs s s₁ s' hx _ ih =>
    have hcounter := hstep x (by simp) s s₁ hx
    refine .cons ⟨hx, hnumber [] x xs rfl, hcounter⟩ (ih (fun y hy => hstep y (by simp [hy])) ?_)
    rintro pre y post rfl
    rw [hnumber (x :: pre) y post rfl, hcounter, count_cons]
    by_cases hk : key x = key y
    · rw [if_pos hk, hk, Function.update_self, Nat.add_right_comm, Nat.add_comm _ 1,
        UInt64.ofNat_add 1, ← UInt64.add_assoc]
      rfl
    · rw [if_neg hk, Function.update_of_ne (Ne.symm hk), Nat.add_zero]

/-- **No item is taken twice.** -/
theorem nodup (h : Steps (Due key number) xs n n') (hcount : ∀ k, count key k xs ≤ 2 ^ 64) :
    xs.Nodup := by
  induction h with
  | nil => exact .nil
  | @cons x xs n n₁ n' hx hxs ih =>
    refine List.nodup_cons.2 ⟨fun hmem => ?_, ih fun k => ?_⟩
    · obtain ⟨pre, post, rfl⟩ := List.append_of_mem hmem
      have hnumber := number_eq hxs
      rw [hx.counter, Function.update_self, ← hx.number, left_eq_add] at hnumber
      have hle := hcount (key x)
      rw [count_cons, if_pos rfl, count_append, count_cons, if_pos rfl] at hle
      have h0 := congrArg UInt64.toNat hnumber
      rw [UInt64.toNat_ofNat', Nat.mod_eq_of_lt (by omega), UInt64.toNat_zero] at h0
      omega
    · have hle := hcount k
      rw [count_cons] at hle
      omega

end Numbering
