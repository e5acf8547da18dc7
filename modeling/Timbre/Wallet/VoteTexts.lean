/-
  Every text that can come as a vote.

  The parser reads the first byte of what stands before the first bar.  **It does on a text what
  the grammar of votes says exactly if the text does not start with a bar** (`parses_iff`).
-/
import Timbre.Wallet.Generation

namespace Timbre

/-! ## The grammar -/

/-- The text is a decimal integer: an optional sign and digits. -/
inductive DecimalInteger : List Char → ℤ → Prop
  | plain {ds : List Char} : ds ≠ [] → ds.all Char.isDigit → DecimalInteger ds (Nat.ofDigitChars 10 ds 0)
  | plus {ds : List Char} : ds ≠ [] → ds.all Char.isDigit → DecimalInteger ('+' :: ds) (Nat.ofDigitChars 10 ds 0)
  | minus {ds : List Char} : ds ≠ [] → ds.all Char.isDigit → DecimalInteger ('-' :: ds) (-Nat.ofDigitChars 10 ds 0)

/-- The candidate of a vote: what stands behind the first bar, up to another one. -/
def candidateOf (rest : List Char) : List Char := rest.takeWhile (· ≠ '|')

/-- The parser returns; what it accepts is a vote; it reads decimal integers, and the votes that
    `GetVoteArray` writes. -/
structure Parses (vote : String) : Prop where
  returns : ∀ m, parseVote vote ≠ .error (.panic m)
  accepted : ∀ action p c, parseVote vote = .ok (action, p, c) → 0 ≤ p ∧ p ≤ 100 ∧ NamesCandidate c
  decimal : ∀ (sign : Char) (percentage rest : List Char) (v : ℤ), sign = '+' ∨ sign = '-' →
    vote.toList = sign :: percentage ++ '|' :: rest → DecimalInteger percentage v →
      (0 ≤ v → v ≤ 100 → candidateOf rest ≠ [] →
        parseVote vote = .ok (if sign = '-' then .unvote else .vote, v, String.ofList (candidateOf rest))) ∧
      (v < 0 ∨ 100 < v → ∃ m, parseVote vote = .error (.error m))
  written : ∀ (w : Wallet) (order : MapOrder) (i : ℕ) (c : Address), (order.list w.voted.keys)[i]? = some c →
    (w.getVoteArray order)[i]? = some vote → 0 ≤ w.voted.get c → w.voted.get c ≤ 100 → NamesCandidate c →
      parseVote vote = .ok (.vote, w.voted.get c, c)

/-! ## The parts -/

namespace ParseVote

theorem atoi_of_decimal {text : List Char} {v : ℤ} (h : DecimalInteger text v) :
    atoi text = max (-2 ^ 63) (min (2 ^ 63 - 1) v) := by
  have hvalue : ∀ {ds : List Char}, ds.all Char.isDigit →
      parseUint 0 ds = min (2 ^ 64 - 1) (Nat.ofDigitChars 10 ds 0) := fun hall => parseUint_of_all _ 0 hall (by omega)
  cases h with
  | plain hne hall =>
    have hdigit := List.all_eq_true.1 hall
    unfold atoi
    split
    · exact absurd (hdigit '-' (by simp)) (by decide)
    · exact absurd (hdigit '+' (by simp)) (by decide)
    · rw [hvalue hall]
      omega
  | plus hne hall =>
    rw [atoi, hvalue hall]
    omega
  | minus hne hall =>
    rw [atoi, hvalue hall]
    omega

/-- A decimal integer has no bar. -/
theorem free_of_decimal {text : List Char} {v : ℤ} (h : DecimalInteger text v) : text ≠ [] ∧ '|' ∉ text := by
  have hfree : ∀ {ds : List Char}, ds.all Char.isDigit → '|' ∉ ds := fun hall hmem =>
    absurd (List.all_eq_true.1 hall '|' hmem) (by decide)
  cases h with
  | plain hne hall => exact ⟨hne, hfree hall⟩
  | plus _ hall => exact ⟨by simp, by simpa using hfree hall⟩
  | minus _ hall => exact ⟨by simp, by simpa using hfree hall⟩

/-- The first part of a text that is split. -/
theorem splitOn_head (x : Char) : ∀ s : List Char, ∃ parts, s.splitOn x = s.takeWhile (· ≠ x) :: parts
  | [] => ⟨[], rfl⟩
  | y :: s => by
    obtain ⟨parts, hparts⟩ := splitOn_head x s
    rw [List.splitOn_eq_splitOnP] at hparts ⊢
    rw [List.splitOnP_cons_eq_if_modifyHead]
    by_cases hy : y = x
    · exact ⟨s.splitOnP (· == x), by simp [hy]⟩
    · refine ⟨parts, ?_⟩
      rw [if_neg (by simpa using hy), hparts, List.modifyHead_cons, List.takeWhile_cons_of_pos (by simpa using hy)]

theorem splitOn_bar {front : List Char} (rest : List Char) (h : '|' ∉ front) :
    ∃ parts, (front ++ '|' :: rest).splitOn '|' = front :: candidateOf rest :: parts := by
  obtain ⟨parts, hparts⟩ := splitOn_head '|' rest
  refine ⟨parts, ?_⟩
  rw [List.splitOn_eq_splitOnP, List.splitOnP_append_cons_of_forall_mem, ← List.splitOn_eq_splitOnP, hparts]
  · rfl
  · intro x hx
    simpa using fun hbar : x = '|' => h (hbar ▸ hx)
  · rfl

end ParseVote

open ParseVote in
theorem parseVote_decimal {vote : String} {sign : Char} {percentage rest : List Char} {v : ℤ}
    (hsign : sign = '+' ∨ sign = '-') (htext : vote.toList = sign :: percentage ++ '|' :: rest)
    (hv : DecimalInteger percentage v) : parseVote vote =
      if v < 0 ∨ v > 100 then .error (.error "Invalid vote number found")
      else if candidateOf rest = [] then .error (.error "No address provided. Vote invalid")
      else .ok (if sign = '-' then .unvote else .vote, v, String.ofList (candidateOf rest)) := by
  obtain ⟨hne, hfree⟩ := free_of_decimal hv
  have hbar : '|' ∉ sign :: percentage := by
    rintro hmem
    rcases List.mem_cons.1 hmem with h | h
    · rcases hsign with rfl | rfl <;> cases h
    · exact hfree h
  obtain ⟨parts, hparts⟩ := splitOn_bar rest hbar
  unfold parseVote
  rw [if_neg (by simp [htext]), htext, hparts]
  dsimp only
  rw [if_neg (by rcases hsign with rfl | rfl <;> simp), if_neg hne, atoi_of_decimal hv]
  by_cases hout : v < 0 ∨ v > 100
  · rw [if_pos hout, if_pos (by omega)]
  · rw [if_neg hout, if_neg (by omega), show max (-2 ^ 63) (min (2 ^ 63 - 1) v) = v by omega]

open ParseVote in
/-- **The parser panics** exactly on the texts that start with a bar. -/
theorem parseVote_panic_iff {vote : String} :
    (∃ m, parseVote vote = .error (.panic m)) ↔ vote.toList.head? = some '|' := by
  by_cases hbar : '|' ∈ vote.toList
  · obtain ⟨front, rest, htext, hfree⟩ := List.eq_append_cons_of_mem hbar
    obtain ⟨parts, hparts⟩ := splitOn_bar rest hfree
    unfold parseVote
    rw [if_neg (not_not.2 hbar), htext, hparts]
    cases front with
    | nil => simp
    | cons sign percentage =>
      have hsign : sign ≠ '|' := fun h => hfree (by simp [h])
      dsimp only
      split_ifs <;> simp [hsign]
  · have hhead : vote.toList.head? ≠ some '|' := fun h => hbar (List.mem_of_head? h)
    simp [parseVote, hbar, hhead]

/-- **The parser does what the grammar says** exactly on the texts that do not start with a bar. -/
theorem parses_iff (vote : String) : Parses vote ↔ vote.toList.head? ≠ some '|' := by
  constructor
  · intro h hbar
    obtain ⟨m, hm⟩ := parseVote_panic_iff.2 hbar
    exact h.returns m hm
  · intro h
    refine ⟨fun m hm => h (parseVote_panic_iff.1 ⟨m, hm⟩), fun _ _ _ => parseVote_ok, ?_, ?_⟩
    · intro sign percentage rest v hsign htext hv
      rw [parseVote_decimal hsign htext hv]
      constructor
      · intro h₀ h₁ hc
        rw [if_neg (by omega), if_neg hc]
      · intro hout
        exact ⟨_, if_pos (by omega)⟩
    · intro w order i c hc hvote hp hle hnames
      rw [Wallet.getVoteArray, List.getElem?_map, hc] at hvote
      obtain rfl := Option.some.inj hvote
      exact parseVote_voteText hp hle hnames

/-- The digits leave the range before the text stops being a number. -/
example : parseVote "+99999999999999999999x|b" = .error (.error "Invalid vote number found") := by decide +kernel

/-- A text that is only a bar. -/
theorem not_parses : ¬ ∀ vote : String, Parses vote := by
  intro hall
  obtain ⟨m, hm⟩ := parseVote_panic_iff.2 (show "|".toList.head? = some '|' from rfl)
  exact (hall "|").returns m hm

end Timbre
