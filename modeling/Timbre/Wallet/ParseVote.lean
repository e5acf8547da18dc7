/-
  The text of a vote: an action sign, a percentage, a bar and the address of a candidate.
-/
import Mathlib.Data.Nat.Digits.Defs
import Timbre.Core.Types

namespace Timbre

/-- The action of a vote, `+` or `-`. -/
inductive VoteAction where
  | vote | unvote
deriving DecidableEq, Repr

namespace ParseVote

/-- The value of a non-empty string of decimal digits. -/
def digits (s : List Char) : Option ℕ :=
  if s ≠ [] ∧ s.all Char.isDigit then
    some (s.foldl (fun n c => 10 * n + (c.toNat - '0'.toNat)) 0)
  else none

/-- `strconv.ParseUint` with its error ignored, after digits of the value `n`.  Once the digits leave the range of
    `uint64` the rest is not looked at; before that, any other character makes the value 0. -/
def parseUint : ℕ → List Char → ℕ
  | n, [] => n
  | n, c :: s =>
    if c.isDigit = false then 0
    else if n ≥ (2 ^ 64 - 1) / 10 + 1 then 2 ^ 64 - 1
    else
      let n₁ := 10 * n + (c.toNat - '0'.toNat)
      if n₁ > 2 ^ 64 - 1 then 2 ^ 64 - 1 else parseUint n₁ s

/-- `strconv.Atoi` with its error ignored: the value saturates. -/
def atoi : List Char → ℤ
  | '-' :: s => -(min (2 ^ 63) (parseUint 0 s) : ℤ)
  | '+' :: s => min (2 ^ 63 - 1) (parseUint 0 s)
  | s => min (2 ^ 63 - 1) (parseUint 0 s)

end ParseVote

open ParseVote in
/-- `ParseVote`. -/
def parseVote (vote : String) : Except Err (VoteAction × ℤ × Address) :=
  if '|' ∉ vote.toList then .error (.error "Invalid vote. Separater doesn't exist")
  else
    match vote.toList.splitOn '|' with
    | (sign :: percentage) :: candidate :: _ =>
      if sign ≠ '-' ∧ sign ≠ '+' then .error (.error "Invalid action sign found in vote: ")
      else if percentage = [] then .error (.error "Invalid action sign found in vote: ")
      else
        let num := atoi percentage
        if num < 0 ∨ num > 100 then .error (.error "Invalid vote number found")
        else if candidate = [] then .error (.error "No address provided. Vote invalid")
        else .ok (if sign = '-' then .unvote else .vote, num, String.ofList candidate)
    | _ => .error (.panic "index out of range")

/-! ## What can be parsed -/

/-- The parts between the separators are free of them. -/
theorem splitOn_free {x : Char} : ∀ {xs l : List Char}, l ∈ xs.splitOn x → x ∉ l
  | [], l, h => by
    rw [List.splitOn_nil, List.mem_singleton] at h
    simp [h]
  | y :: xs, l, h => by
    rw [List.splitOn_eq_splitOnP, List.splitOnP_cons_eq_if_modifyHead] at h
    rcases hxs : xs.splitOnP (· == x) with _ | ⟨m, ms⟩
    · exact absurd hxs (List.splitOnP_ne_nil _ _)
    have hfree : ∀ l ∈ m :: ms, x ∉ l := by
      intro l hl
      have hl' : l ∈ xs.splitOn x := by rwa [List.splitOn_eq_splitOnP, hxs]
      exact splitOn_free hl'
    rw [hxs] at h
    split_ifs at h with hy
    · rcases List.mem_cons.1 h with rfl | h
      · simp
      · exact hfree l h
    · rw [List.modifyHead_cons] at h
      rcases List.mem_cons.1 h with rfl | h
      · have := hfree m (by simp)
        simp only [beq_iff_eq] at hy
        simp [this, Ne.symm hy]
      · exact hfree l (by simp [h])

/-- An address that a vote can name. -/
structure NamesCandidate (c : Address) : Prop where
  ne_empty : c.toList ≠ []
  separated : '|' ∉ c.toList

theorem parseVote_ok {vote : String} {action : VoteAction} {p : ℤ} {c : Address}
    (h : parseVote vote = .ok (action, p, c)) : 0 ≤ p ∧ p ≤ 100 ∧ NamesCandidate c := by
  unfold parseVote at h
  split at h
  · cases h
  split at h
  · rename_i sign percentage candidate rest hsplit
    dsimp only at h
    split_ifs at h with h₁ h₂ h₃ h₄ h₅ <;> cases h
    all_goals
      have hmem : candidate ∈ vote.toList.splitOn '|' := by simp [hsplit]
      refine ⟨by omega, by omega, ?_, ?_⟩ <;> rw [String.toList_ofList]
      · exact h₄
      · exact splitOn_free hmem
  · cases h

theorem parseVote_percent {vote : String} {action : VoteAction} {p : ℤ} {c : Address}
    (h : parseVote vote = .ok (action, p, c)) : 0 ≤ p := (parseVote_ok h).1

/-! ## The text of a vote -/

/-- The text of a vote, as `GetVoteArray` writes it. -/
def voteText (percent : ℤ) (candidate : Address) : String :=
  "+" ++ toString percent ++ "|" ++ candidate

namespace ParseVote

theorem digits_toDigits (n : ℕ) : digits (Nat.toDigits 10 n) = some n := by
  have hall : (Nat.toDigits 10 n).all Char.isDigit = true :=
    List.all_eq_true.2 fun c hc => Nat.isDigit_of_mem_toDigits (by decide) (by decide) hc
  rw [digits, if_pos ⟨Nat.toDigits_ne_nil, hall⟩]
  exact congrArg some Nat.ofDigitChars_ten_toDigits

theorem le_ofDigitChars : ∀ (ds : List Char) (n : ℕ), n ≤ Nat.ofDigitChars 10 ds n
  | [], n => Nat.ofDigitChars_nil.ge
  | c :: ds, n => by
    have hrest := le_ofDigitChars ds (10 * n + (c.toNat - '0'.toNat))
    rw [Nat.ofDigitChars_cons]
    omega

/-- Digits are read as their value, up to the end of the range. -/
theorem parseUint_of_all : ∀ (ds : List Char) (n : ℕ), ds.all Char.isDigit → n ≤ 2 ^ 64 - 1 →
    parseUint n ds = min (2 ^ 64 - 1) (Nat.ofDigitChars 10 ds n)
  | [], n, _, hn => by
    rw [parseUint, Nat.ofDigitChars_nil, Nat.min_eq_right hn]
  | c :: ds, n, hall, hn => by
    rw [List.all_cons, Bool.and_eq_true] at hall
    have hvalue := le_ofDigitChars ds (10 * n + (c.toNat - '0'.toNat))
    rw [Nat.ofDigitChars_cons, parseUint, if_neg (by simp [hall.1])]
    dsimp only
    split_ifs with hcutoff hmax
    · omega
    · omega
    · exact parseUint_of_all ds _ hall.2 (by omega)

theorem atoi_toDigits {n : ℕ} (hn : n ≤ 100) : atoi (Nat.toDigits 10 n) = n := by
  have hdigit : ∀ c ∈ Nat.toDigits 10 n, c.isDigit = true := fun c hc =>
    Nat.isDigit_of_mem_toDigits (by decide) (by decide) hc
  have hvalue : parseUint 0 (Nat.toDigits 10 n) = n := by
    rw [parseUint_of_all _ 0 (List.all_eq_true.2 hdigit) (by omega), Nat.ofDigitChars_ten_toDigits]
    omega
  unfold atoi
  split
  · rename_i h
    exact absurd (hdigit '-' (by simp [h])) (by decide)
  · rename_i h
    exact absurd (hdigit '+' (by simp [h])) (by decide)
  · rw [hvalue]
    omega

end ParseVote

/-- **A vote reads back as it was written.** -/
theorem parseVote_voteText {p : ℤ} {c : Address} (hp : 0 ≤ p) (hle : p ≤ 100) (hc : NamesCandidate c) :
    parseVote (voteText p c) = .ok (.vote, p, c) := by
  obtain ⟨n, rfl⟩ := Int.eq_ofNat_of_zero_le hp
  have htext : (voteText n c).toList = ('+' :: Nat.toDigits 10 n) ++ '|' :: c.toList := by
    have hn : (n : ℤ).repr.toList = Nat.toDigits 10 n := Nat.toList_repr
    simp [voteText, hn]
  have hfree : '|' ∉ '+' :: Nat.toDigits 10 n := by
    intro h
    rcases List.mem_cons.1 h with h | h
    · cases h
    · exact absurd (Nat.isDigit_of_mem_toDigits (by decide) (by decide) h) (by decide)
  have hsplit : (voteText n c).toList.splitOn '|' = ['+' :: Nat.toDigits 10 n, c.toList] := by
    rw [htext, List.splitOn_eq_splitOnP, List.splitOnP_append_cons_of_forall_mem, List.splitOnP_eq_singleton]
    · intro x hx
      simpa using fun h : x = '|' => hc.separated (h ▸ hx)
    · intro x hx
      simpa using fun h : x = '|' => hfree (h ▸ hx)
    · rfl
  unfold parseVote
  rw [if_neg (by simp [htext]), hsplit]
  simp only [ParseVote.atoi_toDigits (Int.ofNat_le.1 hle), Nat.toDigits_ne_nil, hc.ne_empty, if_false, String.ofList_toList]
  rw [if_neg (by simp), if_neg (by omega)]
  rfl

end Timbre
