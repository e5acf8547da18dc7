/-
  Points in time that are given by their Unix seconds.

  A point in time is a count of seconds since the year one.  The count has 64 bits, so that of the last Unix
  seconds wraps, and those points come before all others.  **Between two points in time there are as
  many seconds as between their Unix seconds, and only points with Unix seconds in between** (`sub_of_between`).
-/
import Mathlib.Algebra.Order.Ring.Int

namespace UnixTime

/-- The Unix time begins as many seconds after the year one. -/
def unixToInternal : ℤ := 62135596800

/-- The seconds since the year one. -/
@[irreducible]
def seconds (sec : Int64) : Int64 := Int64.ofInt (sec.toInt + unixToInternal)

/-- The point in time `a` comes after `b`. -/
def After (a b : Int64) : Prop := seconds b < seconds a

instance (a b : Int64) : Decidable (After a b) := inferInstanceAs (Decidable (seconds b < seconds a))

/-- The nanoseconds from `b` to `a`; a duration saturates. -/
def elapsed (a b : Int64) : ℤ := max (-2 ^ 63) (min (2 ^ 63 - 1) (((seconds a).toInt - (seconds b).toInt) * 10 ^ 9))

variable {a b c : Int64}

theorem toInt_seconds (sec : Int64) : (seconds sec).toInt =
    if sec.toInt < 2 ^ 63 - 62135596800 then sec.toInt + 62135596800 else sec.toInt + 62135596800 - 2 ^ 64 := by
  have hlo := sec.le_toInt
  have hhi := sec.toInt_lt
  rw [seconds, unixToInternal, Int64.toInt_ofInt, Int.bmod_def, show Int64.size = 2 ^ 64 from rfl]
  split_ifs <;> omega

theorem after_iff : After a b ↔ (seconds b).toInt < (seconds a).toInt := Int64.lt_iff_toInt_lt

theorem not_after_iff : ¬ After a b ↔ (seconds a).toInt ≤ (seconds b).toInt := by
  rw [after_iff, Int.not_lt]

theorem not_after_self (a : Int64) : ¬ After a a := not_after_iff.2 le_rfl

theorem not_after_trans (hab : ¬ After a b) (hbc : ¬ After b c) : ¬ After a c :=
  not_after_iff.2 ((not_after_iff.1 hab).trans (not_after_iff.1 hbc))

/-- A point in time between two whose Unix seconds are in their order. -/
theorem sub_of_between (hle : a ≤ c) (hac : ¬ After a c) (hab : ¬ After a b) (hbc : ¬ After b c) :
    (seconds b).toInt - (seconds a).toInt = b.toInt - a.toInt := by
  rw [Int64.le_iff_toInt_le] at hle
  rw [not_after_iff] at hac hab hbc
  have ha := a.le_toInt
  have hb := b.toInt_lt
  have hb' := b.le_toInt
  have hc := c.toInt_lt
  simp only [toInt_seconds] at hac hab hbc ⊢
  split_ifs at hac hab hbc ⊢ <;> omega

/-- Unix seconds between two that are in the order of their points in time. -/
theorem sub_of_le (hac : ¬ After a c) (hab : a ≤ b) (hbc : b ≤ c) :
    (seconds b).toInt - (seconds a).toInt = b.toInt - a.toInt := by
  rw [Int64.le_iff_toInt_le] at hab hbc
  rw [not_after_iff] at hac
  have ha := a.le_toInt
  have hc := c.toInt_lt
  simp only [toInt_seconds] at hac ⊢
  split_ifs at hac ⊢ <;> omega

end UnixTime
