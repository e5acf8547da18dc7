/-
  Rounding of whole numbers to 64-bit floating point: the significand has 53 bits and ties
  go to the even one.  Powers of two scale both sides of a comparison, so a float is
  written here as a whole number, its power of two being kept by the user.
-/
import Mathlib.Algebra.Order.Ring.Int
import Mathlib.Data.Nat.Log
import Mathlib.Tactic.Positivity
import Mathlib.Tactic.Ring

namespace Float64

/-- The multiple of `2 ^ e` nearest to `n`, the even one if two are equally near. -/
def roundTo (e n : ℕ) : ℕ :=
  if 2 * (n % 2 ^ e) < 2 ^ e ∨ (2 * (n % 2 ^ e) = 2 ^ e ∧ n / 2 ^ e % 2 = 0) then
    n / 2 ^ e * 2 ^ e
  else (n / 2 ^ e + 1) * 2 ^ e

/-- The float nearest to the whole number `n`. -/
def round (n : ℕ) : ℕ := roundTo (n.log2 - 52) n

/-- The float nearest to a whole number of either sign. -/
def roundInt (z : ℤ) : ℤ := z.sign * round z.natAbs

/-! ## The rounding error -/

@[simp] theorem roundTo_zero (n : ℕ) : roundTo 0 n = n := by
  simp [roundTo, Nat.mod_one]

theorem dvd_roundTo (e n : ℕ) : 2 ^ e ∣ roundTo e n := by
  unfold roundTo
  split_ifs <;> exact Dvd.intro_left _ rfl

/-- Rounding is off by at most half a unit. -/
theorem roundTo_error (e n : ℕ) :
    2 * roundTo e n ≤ 2 * n + 2 ^ e ∧ 2 * n ≤ 2 * roundTo e n + 2 ^ e := by
  have hn : n / 2 ^ e * 2 ^ e + n % 2 ^ e = n := Nat.div_add_mod' n (2 ^ e)
  have hr : n % 2 ^ e < 2 ^ e := Nat.mod_lt _ (by positivity)
  unfold roundTo
  simp only [add_one_mul]
  split_ifs <;> omega

/-- Different multiples of a unit are a unit apart. -/
theorem add_le_of_dvd {u a b : ℕ} (ha : u ∣ a) (hb : u ∣ b) (h : a < b) : a + u ≤ b := by
  obtain ⟨k, rfl⟩ := ha
  obtain ⟨l, rfl⟩ := hb
  rw [← Nat.mul_succ]
  exact Nat.mul_le_mul_left u (lt_of_mul_lt_mul_left h (Nat.zero_le _))

/-- A multiple of the unit that is nearer than half a unit is the result. -/
theorem roundTo_eq {e n m : ℕ} (hm : 2 ^ e ∣ m) (h₁ : 2 * m < 2 * n + 2 ^ e)
    (h₂ : 2 * n < 2 * m + 2 ^ e) : roundTo e n = m := by
  obtain ⟨he₁, he₂⟩ := roundTo_error e n
  rcases lt_trichotomy (roundTo e n) m with h | h | h
  · have := add_le_of_dvd (dvd_roundTo e n) hm h
    omega
  · exact h
  · have := add_le_of_dvd hm (dvd_roundTo e n) h
    omega

/-- Whole numbers of at most 53 bits are floats. -/
theorem round_of_lt {n : ℕ} (h : n < 2 ^ 53) : round n = n := by
  have : n.log2 - 52 = 0 := by
    rcases Nat.eq_zero_or_pos n with rfl | hn
    · rfl
    · have := (Nat.log2_lt hn.ne').2 h
      omega
  rw [round, this, roundTo_zero]

theorem roundInt_of_lt {z : ℤ} (h₀ : 0 ≤ z) (h : z < 2 ^ 53) : roundInt z = z := by
  rw [roundInt, round_of_lt (by omega), Int.sign_mul_natAbs]

/-- A positive number rounds to a positive float. -/
theorem round_pos {n : ℕ} (h : 0 < n) : 0 < round n := by
  have hle : 2 ^ (n.log2 - 52) ≤ n :=
    (Nat.pow_le_pow_right (by norm_num) (Nat.sub_le _ _)).trans (Nat.log2_self_le h.ne')
  have hq : 0 < n / 2 ^ (n.log2 - 52) := Nat.div_pos hle (by positivity)
  unfold round roundTo
  split_ifs <;> positivity

theorem roundInt_nonpos {z : ℤ} (h : z ≤ 0) : roundInt z ≤ 0 :=
  mul_nonpos_of_nonpos_of_nonneg (Int.sign_nonpos_iff.2 h) (by positivity)

/-! ## One tenth -/

/-- The float nearest to 0.1 is `tenth / 2 ^ 55`. -/
def tenth : ℕ := 3602879701896397

/-- `v >= 0.1 * t`, all three numbers and the product being floats. -/
def geTenth (v : ℤ) (t : ℕ) : Bool := (round (tenth * round t) : ℤ) ≤ 2 ^ 55 * roundInt v

theorem not_geTenth_of_nonpos {v : ℤ} {t : ℕ} (hv : v ≤ 0) (ht : 0 < t) : geTenth v t = false := by
  have h₁ : 0 < round (tenth * round t) :=
    round_pos (Nat.mul_pos (by decide) (round_pos ht))
  have h₂ : roundInt v ≤ 0 := roundInt_nonpos hv
  simp only [geTenth, decide_eq_false_iff_not]
  omega

/-- **Up to 53 bits the float comparison is exact**, although neither 0.1 nor the product
    is. -/
theorem geTenth_iff {v t : ℕ} (hv : v < 2 ^ 53) (ht : t < 2 ^ 53) :
    geTenth v t ↔ t ≤ 10 * v := by
  rw [geTenth, decide_eq_true_iff, round_of_lt ht, roundInt_of_lt (by omega) (by omega)]
  rcases Nat.eq_zero_or_pos t with rfl | htpos
  · simp [round, roundTo]
  have hn : tenth * t ≠ 0 := by simp [tenth, htpos.ne']
  rw [round]
  set n := tenth * t with hndef
  set e := n.log2 - 52 with he
  -- the unit of the product, at most `2 ^ 52`
  have hhi : n < 2 ^ 53 * 2 ^ e := by
    rw [← pow_add]
    exact Nat.lt_log2_self.trans_le (Nat.pow_le_pow_right (by norm_num) (by omega))
  have hsize : n < 2 ^ 105 := by simp only [hndef, tenth]; omega
  have he52 : e ≤ 52 := by
    have := (Nat.log2_lt hn).2 hsize
    omega
  have hunit : 2 ^ e ≤ 2 ^ 52 := Nat.pow_le_pow_right (by norm_num) he52
  have hm : 2 ^ e ∣ 2 ^ 55 * v := (Nat.pow_dvd_pow 2 (by omega)).mul_right v
  obtain ⟨herr₁, herr₂⟩ := roundTo_error e n
  have hn10 : 10 * n = 2 ^ 55 * t + 2 * t := by simp only [hndef, tenth]; omega
  constructor
  · intro h
    have h : roundTo e n ≤ 2 ^ 55 * v := by exact_mod_cast h
    by_contra hlt
    have : tenth * (10 * v + 1) ≤ n := Nat.mul_le_mul_left _ (by omega)
    simp only [tenth] at this
    omega
  · intro h
    suffices roundTo e n ≤ 2 ^ 55 * v by exact_mod_cast this
    by_cases hle : n ≤ 2 ^ 55 * v
    · by_contra hlt
      have := add_le_of_dvd hm (dvd_roundTo e n) (not_le.1 hlt)
      have : 0 < 2 ^ e := by positivity
      omega
    · exact (roundTo_eq hm (by omega) (by omega)).le

end Float64
