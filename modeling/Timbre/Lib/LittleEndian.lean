/-
  Numbers written with a fixed number of bytes, the lowest byte first.

  **Bytes and numbers below `256 ^ w` determine each other** (`value_bytes`, `bytes_value`).  A text
  among the bytes is a number among the digits (`infix_bytes_iff`).
-/
import Mathlib.Algebra.Order.Ring.Nat
import Mathlib.Tactic.Common

namespace LittleEndian

/-- The lowest `w` bytes of a number. -/
def bytes : ℕ → ℕ → List UInt8
  | 0, _ => []
  | w + 1, n => UInt8.ofNat n :: bytes w (n / 256)

/-- The number with the given bytes. -/
def value : List UInt8 → ℕ
  | [] => 0
  | b :: bs => b.toNat + 256 * value bs

@[simp] theorem length_bytes : ∀ w n : ℕ, (bytes w n).length = w
  | 0, _ => rfl
  | w + 1, n => congrArg (· + 1) (length_bytes w (n / 256))

theorem value_lt (bs : List UInt8) : value bs < 256 ^ bs.length := by
  induction bs with
  | nil => exact Nat.one_pos
  | cons b bs ih =>
    rw [value, List.length_cons, pow_succ]
    have hb : b.toNat < 256 := b.toNat_lt
    omega

theorem value_bytes (w n : ℕ) : value (bytes w n) = n % 256 ^ w := by
  induction w generalizing n with
  | zero => exact (Nat.mod_one n).symm
  | succ w ih =>
    have hlow : (UInt8.ofNat n).toNat = n % 256 := UInt8.toNat_ofNat'
    rw [bytes, value, ih, hlow, pow_succ' 256 w, Nat.mod_mul]

theorem bytes_value (bs : List UInt8) : bytes bs.length (value bs) = bs := by
  induction bs with
  | nil => rfl
  | cons b bs ih =>
    have hb : b.toNat < 256 := b.toNat_lt
    have hlow : UInt8.ofNat (b.toNat + 256 * value bs) = b := by
      refine UInt8.toNat_inj.1 ?_
      rw [UInt8.toNat_ofNat', Nat.add_mul_mod_self_left, Nat.mod_eq_of_lt hb]
    have hrest : (b.toNat + 256 * value bs) / 256 = value bs := by omega
    rw [List.length_cons, value, bytes, hlow, hrest, ih]

theorem drop_bytes (k w n : ℕ) : (bytes (k + w) n).drop k = bytes w (n / 256 ^ k) := by
  induction k generalizing n with
  | zero => rw [Nat.zero_add, pow_zero, Nat.div_one, List.drop_zero]
  | succ k ih => rw [Nat.succ_add, bytes, List.drop_succ_cons, ih, Nat.div_div_eq_div_mul, pow_succ']

theorem take_bytes (w r n : ℕ) : (bytes (w + r) n).take w = bytes w n := by
  induction w generalizing n with
  | zero => exact List.take_zero
  | succ w ih => rw [Nat.succ_add, bytes, List.take_succ_cons, ih, bytes]

theorem bytes_mod (w n : ℕ) : bytes w (n % 256 ^ w) = bytes w n := by
  have h := bytes_value (bytes w n)
  rwa [length_bytes, value_bytes] at h

theorem bytes_eq_iff {s : List UInt8} {n : ℕ} : bytes s.length n = s ↔ n % 256 ^ s.length = value s := by
  constructor
  · intro h
    rw [← value_bytes, h]
  · intro h
    rw [← bytes_mod, h, bytes_value]

/-- Where some bytes occur in a number. -/
theorem infix_bytes_iff {s : List UInt8} {w n : ℕ} :
    s <:+: bytes w n ↔ ∃ k, k + s.length ≤ w ∧ n / 256 ^ k % 256 ^ s.length = value s := by
  constructor
  · rintro ⟨p, q, h⟩
    have hlength := congrArg List.length h
    simp only [List.length_append, length_bytes] at hlength
    obtain rfl : w = p.length + (s.length + q.length) := by omega
    refine ⟨p.length, by omega, bytes_eq_iff.1 ?_⟩
    rw [← take_bytes _ q.length, ← drop_bytes, ← h, List.append_assoc, List.drop_left, List.take_left]
  · rintro ⟨k, hk, h⟩
    obtain ⟨r, rfl⟩ := Nat.exists_eq_add_of_le hk
    refine List.IsInfix.trans ?_ (List.drop_suffix k _).isInfix
    rw [Nat.add_assoc, drop_bytes, ← bytes_eq_iff.2 h, length_bytes, ← take_bytes _ r]
    exact (List.take_prefix _ _).isInfix

end LittleEndian
