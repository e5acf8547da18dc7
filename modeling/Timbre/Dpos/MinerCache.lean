/-
  The miner cache of the DPOS: the committee of every round, with consecutive rounds
  of equal committees in one entry.
-/
import Mathlib.Data.List.GetD
import Timbre.Core.Types
import Timbre.Lib.RunLength

namespace Timbre

/-- An entry of the cache: `miners` is the committee of the rounds after the entry
    before it, up to `round`; `slotsPassed` counts the slots of all rounds up to `round`. -/
structure MinersInRound where
  miners : List Address
  round : ℤ
  slotsPassed : ℤ
deriving DecidableEq, Repr, Inhabited

abbrev MinerCache := List MinersInRound

namespace MinerCache

/-! ## The source -/

/-- Drops the rounds from `round` on from an entry. -/
def shorten (round : ℤ) (e : MinersInRound) : MinersInRound :=
  let numRounds := e.round - (round - 1)
  let numSlots := (e.miners.length : ℤ) * numRounds
  ⟨e.miners, round - 1, e.slotsPassed - numSlots⟩

/-- The loop of `DeleteEntryInMinerCache`.  Its index `last` falls by one in every pass
    and the pass at index 0 breaks. -/
def deleteScan (round : ℤ) : ℕ → MinerCache → MinerCache
  | 0, cache => if round - 1 = 0 then [] else cache.modify 0 (shorten round)
  | secondLast + 1, cache =>
    let lastRound := (cache.getD (secondLast + 1) default).round
    let secondLastRound := (cache.getD secondLast default).round
    if round > secondLastRound ∧ round ≤ lastRound then
      if secondLastRound = round - 1 then cache.take (secondLast + 1)
      else cache.modify (secondLast + 1) (shorten round)
    else if round < lastRound ∧ round ≤ secondLastRound then
      deleteScan round secondLast (cache.take (secondLast + 1))
    else deleteScan round secondLast cache

/-- `DeleteEntryInMinerCache`: the error returned, if any, and the cache afterwards. -/
def deleteEntryInMinerCache (cache : MinerCache) (round : ℤ) : Option Err × MinerCache :=
  match cache.getLast? with
  | none => (some (.error "No entry"), cache)
  | some tail =>
    if tail.round < round then (some (.error "Tail round smaller"), cache)
    else (none, deleteScan round (cache.length - 1) cache)

/-- The end of `AddOrUpdateMinerEntry`: a committee equal to that of the last entry
    lengthens the last entry, another one gets an entry of its own. -/
def pushMiners (cache : MinerCache) (lastEntry : MinersInRound) (miners : List Address)
    (round : ℤ) : MinerCache :=
  if miners = lastEntry.miners then
    cache.dropLast ++
      [⟨lastEntry.miners, lastEntry.round + 1, lastEntry.slotsPassed + miners.length⟩]
  else cache ++ [⟨miners, round, lastEntry.slotsPassed + miners.length⟩]

/-- `AddOrUpdateMinerEntry`.  The error of the deletion is dropped, as in the source. -/
def addOrUpdateMinerEntry (cache : MinerCache) (miners : List Address) (round : ℤ) :
    Except Err MinerCache :=
  match cache.getLast? with
  | none => .ok [⟨miners, round, miners.length⟩]
  | some lastEntry =>
    if lastEntry.round ≥ round then
      let cache := (deleteEntryInMinerCache cache round).2
      match cache.getLast? with
      | none => .ok [⟨miners, round, miners.length⟩]
      | some lastEntry => .ok (pushMiners cache lastEntry miners round)
    else if lastEntry.round < round - 1 then .error (.panic "Some entry is missing")
    else .ok (pushMiners cache lastEntry miners round)

/-- The scan shared by `MinersInRound` and `SlotsPassedByRound`, from the index down to 0:
    the entry that covers `round`. -/
def scanRound (cache : MinerCache) (round : ℤ) : ℕ → Option MinersInRound
  | 0 =>
    let e := cache.getD 0 default
    if round ≤ e.round then some e else none
  | ind + 1 =>
    let e := cache.getD (ind + 1) default
    if round > (cache.getD ind default).round ∧ round ≤ e.round then some e
    else scanRound cache round ind

/-- `MinersInRound`. -/
def minersInRound (cache : MinerCache) (round : ℤ) : Except Err (List Address) :=
  match cache.getLast? with
  | none => .error (.error "No entry in the cache")
  | some tail =>
    if round ≤ 0 ∨ tail.round < round then .error (.error "No entry in the cache")
    else match scanRound cache round (cache.length - 1) with
      | some e => .ok e.miners
      | none => .error (.error "Round doesn't exists")

/-- `SlotsPassedByRound`, which indexes the last entry of an empty cache. -/
def slotsPassedByRound (cache : MinerCache) (round : ℤ) : Except Err ℤ :=
  if round ≤ 0 then .ok 0
  else match cache.getLast? with
    | none => .error (.panic "index out of range [-1]")
    | some tail =>
      if tail.round < round then .error (.error "No entry in the cache")
      else match scanRound cache round (cache.length - 1) with
        | some e => .ok (e.slotsPassed - (e.round - round) * (e.miners.length : ℤ))
        | none => .error (.error "Round doesn't exists")

/-! ## The plain list of committees -/

/-- What the cache is for: the committees of the rounds `1, 2, …`, one by one. -/
abbrev Rounds := List (List Address)

/-- The committee of round `k`. -/
def Rounds.committee (L : Rounds) (k : ℤ) : Option (List Address) :=
  if k ≤ 0 then none else L[(k - 1).toNat]?

/-- The number of slots of the rounds `1 … k`, if there are that many rounds. -/
def Rounds.slots (L : Rounds) (k : ℤ) : Option ℤ :=
  if k ≤ L.length then some (((L.take k.toNat).map fun c => (c.length : ℤ)).sum) else none

/-- Forget the rounds from `r` on. -/
def Rounds.truncate (L : Rounds) (r : ℤ) : Rounds := L.take (r - 1).toNat

/-- Round `r` gets the committee `miners`; later rounds are forgotten. -/
def Rounds.update (L : Rounds) (miners : List Address) (r : ℤ) : Rounds :=
  L.truncate r ++ [miners]

/-- A call that changes the cache. -/
inductive Call where
  | update : List Address → ℤ → Call
  | delete : ℤ → Call
deriving DecidableEq, Repr

/-- The call on the cache. -/
def Call.run (cache : MinerCache) : Call → Except Err MinerCache
  | .update miners r => addOrUpdateMinerEntry cache miners r
  | .delete r => .ok (deleteEntryInMinerCache cache r).2

/-- The call on the plain list. -/
def Call.apply (L : Rounds) : Call → Rounds
  | .update miners r => L.update miners r
  | .delete r => L.truncate r

/-- The calls made by the DPOS: an update of a known round or of the next one, and the
    deletion of a positive round. -/
def Call.Allowed (L : Rounds) : Call → Prop
  | .update _ r => 1 ≤ r ∧ r ≤ L.length + 1
  | .delete r => 1 ≤ r

/-- Every call of the sequence is allowed when it is made. -/
def AllAllowed : Rounds → List Call → Prop
  | _, [] => True
  | L, c :: cs => c.Allowed L ∧ AllAllowed (c.apply L) cs

instance (L : Rounds) : (c : Call) → Decidable (c.Allowed L)
  | .update _ r => inferInstanceAs (Decidable (1 ≤ r ∧ r ≤ L.length + 1))
  | .delete r => inferInstanceAs (Decidable (1 ≤ r))

instance AllAllowed.decidable : (L : Rounds) → (cs : List Call) → Decidable (AllAllowed L cs)
  | _, [] => isTrue trivial
  | L, c :: cs =>
    have := AllAllowed.decidable (c.apply L) cs
    inferInstanceAs (Decidable (c.Allowed L ∧ AllAllowed (c.apply L) cs))

/-- Runs a sequence of calls on the cache. -/
def runCalls (cache : MinerCache) (cs : List Call) : Except Err MinerCache :=
  cs.foldlM Call.run cache

/-! ## Caches as runs of committees -/

open RunLength

/-- The cache that holds the runs `rs`, after `k` rounds with `s` slots. -/
def ofRunsFrom (k s : ℤ) : List (List Address × ℕ) → MinerCache
  | [] => []
  | (m, n) :: rs =>
    ⟨m, k + n, s + n * m.length⟩ :: ofRunsFrom (k + n) (s + n * m.length) rs

/-- The cache that holds the runs `rs`. -/
abbrev ofRuns : List (List Address × ℕ) → MinerCache := ofRunsFrom 0 0

/-- The number of slots of the runs `rs`. -/
abbrev slotsOf (rs : List (List Address × ℕ)) : ℤ := weight (fun c => (c.length : ℤ)) rs

/-- The cache stands for the list `L`: it holds non-empty runs that expand to `L`. -/
structure Holds (cache : MinerCache) (rs : List (List Address × ℕ)) (L : Rounds) : Prop where
  pos : ∀ r ∈ rs, 0 < r.2
  cache_eq : cache = ofRuns rs
  expand_eq : L = expand rs

theorem ofRunsFrom_snoc (rs : List (List Address × ℕ)) (m : List Address) (n : ℕ) :
    ∀ k s, ofRunsFrom k s (rs ++ [(m, n)]) =
      ofRunsFrom k s rs ++ [⟨m, k + count rs + n, s + slotsOf rs + n * m.length⟩] := by
  induction rs with
  | nil => intro k s; simp [ofRunsFrom]
  | cons r rs ih =>
    intro k s
    obtain ⟨m', n'⟩ := r
    simp only [List.cons_append, ofRunsFrom, ih, count_cons, weight_cons, Nat.cast_add, slotsOf]
    congr 3
    ring_nf

@[simp] theorem ofRuns_snoc (rs : List (List Address × ℕ)) (m : List Address) (n : ℕ) :
    ofRuns (rs ++ [(m, n)]) = ofRuns rs ++ [⟨m, count rs + n, slotsOf rs + n * m.length⟩] := by
  simp [ofRuns, ofRunsFrom_snoc]

@[simp] theorem length_ofRuns (rs : List (List Address × ℕ)) : (ofRuns rs).length = rs.length := by
  induction rs using List.reverseRecOn with
  | nil => rfl
  | append_singleton rs r ih => obtain ⟨m, n⟩ := r; simp [ih]

/-- The entry of the run after `rs`. -/
theorem getD_ofRuns (rs : List (List Address × ℕ)) (m : List Address) (n : ℕ) (c : MinerCache) :
    (ofRuns (rs ++ [(m, n)]) ++ c).getD rs.length default =
      ⟨m, count rs + n, slotsOf rs + n * m.length⟩ := by
  rw [ofRuns_snoc, List.append_assoc, List.getD_append_right _ _ _ _ (by simp)]
  simp

/-- Truncating inside the last run shortens it. -/
theorem truncate_snoc {round : ℤ} (rs : List (List Address × ℕ)) (m : List Address) {n k : ℕ}
    (hk : k ≤ n) (h : round - 1 = count rs + k) :
    Rounds.truncate (expand (rs ++ [(m, n)])) round = expand (rs ++ [(m, k)]) := by
  rw [Rounds.truncate, show (round - 1).toNat = count rs + k by omega, take_expand_snoc rs m hk]

/-- Truncating before the last run drops it. -/
theorem truncate_before {round : ℤ} (rs : List (List Address × ℕ)) (m : List Address) (n : ℕ)
    (h : round - 1 ≤ count rs) :
    Rounds.truncate (expand (rs ++ [(m, n)])) round = Rounds.truncate (expand rs) round := by
  rw [Rounds.truncate, take_expand_of_le rs m n (by omega), Rounds.truncate]

/-- Shortening the last entry shortens the last run. -/
theorem modify_last {round : ℤ} (rs : List (List Address × ℕ)) (m : List Address) (n k : ℕ)
    (h : round - 1 = count rs + k) :
    (ofRuns (rs ++ [(m, n)])).modify rs.length (shorten round) = ofRuns (rs ++ [(m, k)]) := by
  have hslots : slotsOf rs + n * m.length - m.length * (count rs + n - (count rs + k)) =
      slotsOf rs + k * m.length := by ring
  rw [ofRuns_snoc, ofRuns_snoc, ← length_ofRuns rs, modify_snoc]
  simp only [shorten, h, hslots]

/-- **The deletion loop** drops the rounds from `round` on. -/
theorem deleteScan_spec {round : ℤ} (h₁ : 1 ≤ round) (rs : List (List Address × ℕ)) :
    ∀ (m : List Address) (n : ℕ), (∀ r ∈ rs ++ [(m, n)], 0 < r.2) → round ≤ count rs + n →
      ∃ rs', Holds (deleteScan round rs.length (ofRuns (rs ++ [(m, n)]))) rs'
        (Rounds.truncate (expand (rs ++ [(m, n)])) round) := by
  induction rs using List.reverseRecOn with
  | nil =>
    intro m n _ h₂
    obtain ⟨k, hk⟩ : ∃ k : ℕ, round - 1 = k := ⟨(round - 1).toNat, by omega⟩
    have hkn : k ≤ n := by simp at h₂; omega
    have ht := truncate_snoc [] m hkn (by simpa using hk)
    by_cases h0 : k = 0
    · subst h0
      exact ⟨[], by simp, by simp [deleteScan, hk, ofRunsFrom], by simpa using ht⟩
    · refine ⟨[(m, k)], by simp; omega, ?_, by simpa using ht⟩
      rw [List.length_nil, deleteScan, if_neg (by omega)]
      exact modify_last [] m n k (by simpa using hk)
  | append_singleton rs r ih =>
    obtain ⟨m₀, n₀⟩ := r
    intro m n hpos h₂
    have hn : 0 < n := hpos (m, n) (by simp)
    have hlast : ((ofRuns (rs ++ [(m₀, n₀)] ++ [(m, n)])).getD (rs.length + 1) default).round =
        count rs + n₀ + n := by
      have := getD_ofRuns (rs ++ [(m₀, n₀)]) m n []
      simp only [List.append_nil, List.length_append, List.length_singleton] at this
      rw [this]; simp
    have hbefore : ((ofRuns (rs ++ [(m₀, n₀)] ++ [(m, n)])).getD rs.length default).round =
        count rs + n₀ := by rw [ofRuns_snoc _ m, getD_ofRuns]
    have htake : (ofRuns (rs ++ [(m₀, n₀)] ++ [(m, n)])).take (rs.length + 1) =
        ofRuns (rs ++ [(m₀, n₀)]) := by
      rw [ofRuns_snoc _ m, List.take_left' (by simp)]
    rw [count_snoc] at h₂
    rw [List.length_append, List.length_singleton, deleteScan, hlast, hbefore, htake]
    split_ifs with hin heq hout
    · -- the last run goes as a whole
      refine ⟨rs ++ [(m₀, n₀)], fun r hr => hpos r (List.mem_append_left _ hr), rfl, ?_⟩
      rw [truncate_before _ m n (by simp; omega), Rounds.truncate, List.take_of_length_le]
      simp; omega
    · -- the last run gets shorter
      obtain ⟨k, hk⟩ : ∃ k : ℕ, round - 1 = count (rs ++ [(m₀, n₀)]) + k :=
        ⟨(round - 1).toNat - count (rs ++ [(m₀, n₀)]), by simp; omega⟩
      simp only [count_snoc] at hk
      refine ⟨rs ++ [(m₀, n₀)] ++ [(m, k)], ?_, ?_, ?_⟩
      · intro r hr
        rcases List.mem_append.1 hr with hr | hr
        · exact hpos r (List.mem_append_left _ hr)
        · simp at hr; subst hr; simp; omega
      · have := modify_last (rs ++ [(m₀, n₀)]) m n k (by simpa using hk)
        simpa using this
      · exact truncate_snoc _ m (by omega) (by simpa using hk)
    · -- the last run goes and the loop looks at the run before it
      obtain ⟨rs', hpos', hc, hL⟩ := ih m₀ n₀
        (fun r hr => hpos r (List.mem_append_left _ hr)) (by omega)
      exact ⟨rs', hpos', hc, by rw [truncate_before _ m n (by simp; omega), hL]⟩
    · omega

/-- A cache that stands for `L` ends with round `L.length`. -/
theorem Holds.getLast? {cache : MinerCache} {rs : List (List Address × ℕ)} {L : Rounds}
    (h : Holds cache rs L) :
    (cache = [] ∧ rs = [] ∧ L = []) ∨ ∃ rs₀ m n, rs = rs₀ ++ [(m, n)] ∧
      cache.getLast? = some ⟨m, L.length, slotsOf rs⟩ := by
  obtain ⟨-, rfl, rfl⟩ := h
  rcases List.eq_nil_or_concat rs with rfl | ⟨rs₀, ⟨m, n⟩, rfl⟩
  · exact Or.inl ⟨rfl, rfl, rfl⟩
  · exact Or.inr ⟨rs₀, m, n, by simp, by simp⟩

/-- **Deletion**: an error leaves the cache as it was, and in any case the cache then
    stands for the truncated list. -/
theorem delete_spec {cache : MinerCache} {rs : List (List Address × ℕ)} {L : Rounds}
    (h : Holds cache rs L) {r : ℤ} (hr : 1 ≤ r) :
    (∃ rs', Holds (deleteEntryInMinerCache cache r).2 rs' (L.truncate r)) ∧
      ((deleteEntryInMinerCache cache r).1.isSome ↔ (L.length : ℤ) < r) := by
  unfold deleteEntryInMinerCache
  rcases h.getLast? with ⟨rfl, rfl, rfl⟩ | ⟨rs₀, m, n, rfl, hlast⟩
  · exact ⟨⟨[], by simpa [Rounds.truncate] using h⟩, by simp; omega⟩
  · rw [hlast]
    by_cases hlt : (L.length : ℤ) < r
    · simp only [hlt, if_true, Option.isSome_some]
      refine ⟨⟨rs₀ ++ [(m, n)], ?_⟩, trivial⟩
      rwa [Rounds.truncate, List.take_of_length_le (by omega)]
    · simp only [hlt, if_false, Option.isSome_none, Bool.false_eq_true, and_true]
      obtain ⟨hpos, rfl, rfl⟩ := h
      rw [length_ofRuns, List.length_append, List.length_singleton, Nat.add_sub_cancel]
      exact deleteScan_spec hr rs₀ m n hpos (by simpa using hlt)

/-- **Appending** the committee of the next round. -/
theorem pushMiners_spec {cache : MinerCache} {rs : List (List Address × ℕ)} {m : List Address}
    {n : ℕ} {L : Rounds} (h : Holds cache (rs ++ [(m, n)]) L) (miners : List Address) :
    ∃ rs', Holds (pushMiners cache ⟨m, L.length, slotsOf (rs ++ [(m, n)])⟩ miners (L.length + 1))
      rs' (L ++ [miners]) := by
  obtain ⟨hpos, rfl, rfl⟩ := h
  unfold pushMiners
  split_ifs with hm
  · simp only at hm; subst hm
    refine ⟨rs ++ [(miners, n + 1)], fun r hr => ?_, ?_, (expand_bump rs miners n).symm⟩
    · rcases List.mem_append.1 hr with hr | hr
      · exact hpos r (List.mem_append_left _ hr)
      · simp at hr; subst hr; simp
    · rw [ofRuns_snoc, ofRuns_snoc, List.dropLast_concat]
      simp only [length_expand, count_snoc, slotsOf, weight_snoc]
      push_cast
      congr 3
      ring
  · refine ⟨rs ++ [(m, n)] ++ [(miners, 1)], fun r hr => ?_, ?_, ?_⟩
    · rcases List.mem_append.1 hr with hr | hr
      · exact hpos r hr
      · simp at hr; subst hr; simp
    · rw [ofRuns_snoc (rs ++ [(m, n)]) miners 1]
      simp
    · rw [expand_snoc (rs ++ [(m, n)]), List.replicate_one]

/-- The first committee ever. -/
theorem holds_first (miners : List Address) :
    Holds [⟨miners, 1, miners.length⟩] [(miners, 1)] [miners] :=
  ⟨by simp, by simp [ofRunsFrom], by simp⟩

/-- **Update**: the panic for a missing entry is not reached. -/
theorem update_spec {cache : MinerCache} {rs : List (List Address × ℕ)} {L : Rounds}
    (h : Holds cache rs L) {miners : List Address} {r : ℤ} (h₁ : 1 ≤ r) (h₂ : r ≤ L.length + 1) :
    ∃ cache' rs', addOrUpdateMinerEntry cache miners r = .ok cache' ∧
      Holds cache' rs' (L.update miners r) := by
  unfold addOrUpdateMinerEntry
  rcases h.getLast? with ⟨rfl, rfl, rfl⟩ | ⟨rs₀, m, n, rfl, hlast⟩
  · obtain rfl : r = 1 := by simp at h₂; omega
    exact ⟨_, _, rfl, holds_first miners⟩
  rw [hlast]
  by_cases hge : (L.length : ℤ) ≥ r
  · simp only [hge, if_true]
    obtain ⟨⟨rs', h'⟩, -⟩ := delete_spec h h₁
    have hlen : ((L.truncate r).length : ℤ) + 1 = r := by
      rw [Rounds.truncate, List.length_take]; omega
    rcases h'.getLast? with ⟨hc, -, hL⟩ | ⟨rs₁, m₁, n₁, rfl, hlast'⟩
    · rw [hc]
      obtain rfl : r = 1 := by rw [hL] at hlen; simpa using hlen.symm
      exact ⟨_, _, rfl, by rw [Rounds.update, hL]; exact holds_first miners⟩
    · rw [hlast']
      obtain ⟨rs'', h''⟩ := pushMiners_spec h' miners
      rw [hlen] at h''
      exact ⟨_, _, rfl, h''⟩
  · obtain rfl : r = L.length + 1 := by omega
    simp only [hge, if_false]
    rw [if_neg (by omega)]
    obtain ⟨rs', h'⟩ := pushMiners_spec h miners
    refine ⟨_, rs', rfl, ?_⟩
    rwa [Rounds.update, Rounds.truncate, List.take_of_length_le (by omega)]

/-- **The scan** finds the entry that covers the round. -/
theorem scanRound_spec {round : ℤ} (h₁ : 1 ≤ round) (rs : List (List Address × ℕ)) :
    ∀ (m : List Address) (n : ℕ) (c : MinerCache), round ≤ count rs + n →
      ∃ e, scanRound (ofRuns (rs ++ [(m, n)]) ++ c) round rs.length = some e ∧
        (expand (rs ++ [(m, n)]))[(round - 1).toNat]? = some e.miners ∧
        (((expand (rs ++ [(m, n)])).take round.toNat).map fun c => (c.length : ℤ)).sum =
          e.slotsPassed - (e.round - round) * e.miners.length := by
  -- a round inside the run after `rs`
  have hrun : ∀ (rs : List (List Address × ℕ)) (m : List Address) (n : ℕ),
      (count rs : ℤ) < round → round ≤ count rs + n →
        (expand (rs ++ [(m, n)]))[(round - 1).toNat]? = some m ∧
        (((expand (rs ++ [(m, n)])).take round.toNat).map fun c => (c.length : ℤ)).sum =
          slotsOf rs + n * m.length - (count rs + n - round) * m.length := by
    intro rs m n hlo hhi
    obtain ⟨k, hk⟩ : ∃ k : ℕ, round = count rs + k := ⟨round.toNat - count rs, by omega⟩
    refine ⟨getElem?_expand_snoc rs m (by omega) (by omega), ?_⟩
    rw [show round.toNat = count rs + k by omega, take_expand_snoc rs m (by omega), sum_expand,
      weight_snoc, hk]
    ring
  induction rs using List.reverseRecOn with
  | nil =>
    intro m n c h₂
    refine ⟨⟨m, count [] + n, slotsOf [] + n * m.length⟩, ?_, hrun [] m n (by simp; omega) h₂⟩
    rw [List.length_nil, scanRound, show (0 : ℕ) = ([] : List (List Address × ℕ)).length from rfl,
      getD_ofRuns, if_pos h₂]
  | append_singleton rs r ih =>
    obtain ⟨m₀, n₀⟩ := r
    intro m n c h₂
    have hbefore : ((ofRuns (rs ++ [(m₀, n₀)] ++ [(m, n)]) ++ c).getD rs.length default).round =
        count (rs ++ [(m₀, n₀)]) := by
      rw [ofRuns_snoc _ m, List.append_assoc, getD_ofRuns]; simp
    have hat := getD_ofRuns (rs ++ [(m₀, n₀)]) m n c
    rw [List.length_append, List.length_singleton] at hat ⊢
    rw [scanRound, hat, hbefore]
    split_ifs with hin
    · exact ⟨_, rfl, hrun (rs ++ [(m₀, n₀)]) m n hin.1 h₂⟩
    · have hle : round ≤ count (rs ++ [(m₀, n₀)]) := by
        by_contra hc
        exact hin ⟨by omega, h₂⟩
      obtain ⟨e, hscan, hmem, hsum⟩ := ih m₀ n₀
        (⟨m, count (rs ++ [(m₀, n₀)]) + n, slotsOf (rs ++ [(m₀, n₀)]) + n * m.length⟩ :: c)
        (by simpa using hle)
      refine ⟨e, ?_, ?_, ?_⟩
      · rw [ofRuns_snoc _ m, List.append_assoc]; exact hscan
      · rw [getElem?_expand_of_lt _ m n (by omega)]; exact hmem
      · rw [take_expand_of_le _ m n (by omega)]; exact hsum

/-! ## The refinement -/

/-- **Lookups** on a cache that stands for `L`. -/
theorem lookup_spec {cache : MinerCache} {rs : List (List Address × ℕ)} {L : Rounds}
    (h : Holds cache rs L) (k : ℤ) :
    (minersInRound cache k).toOption = L.committee k ∧
      ((k ≤ 0 ∨ cache ≠ []) → (slotsPassedByRound cache k).toOption = L.slots k) := by
  unfold minersInRound slotsPassedByRound Rounds.committee Rounds.slots
  rcases h.getLast? with ⟨rfl, rfl, rfl⟩ | ⟨rs₀, m, n, rfl, hlast⟩
  · refine ⟨by simp [Except.toOption], fun hk => ?_⟩
    have hk : k ≤ 0 := by simpa using hk
    simp [hk, Except.toOption, Int.toNat_of_nonpos hk]
  rw [hlast]
  by_cases h0 : k ≤ 0
  · have : k ≤ L.length := by omega
    simp [h0, this, Except.toOption, Int.toNat_of_nonpos h0]
  by_cases hlt : (L.length : ℤ) < k
  · have hend : L.length ≤ (k - 1).toNat := by omega
    simp only [h0, hlt, if_true, if_false, or_true]
    exact ⟨(List.getElem?_eq_none hend).symm, fun _ => (if_neg (by omega)).symm⟩
  simp only [h0, hlt, or_self, if_false]
  obtain ⟨-, rfl, rfl⟩ := h
  obtain ⟨e, hscan, hmem, hsum⟩ := scanRound_spec (by omega) rs₀ m n []
    (show k ≤ count rs₀ + n by simpa using hlt)
  rw [List.append_nil] at hscan
  rw [length_ofRuns, List.length_append, List.length_singleton, Nat.add_sub_cancel, hscan,
    if_pos (by omega)]
  exact ⟨hmem.symm, fun _ => congrArg some hsum.symm⟩

/-- One call: it does not panic and keeps the cache in step with the list. -/
theorem call_spec {cache : MinerCache} {rs : List (List Address × ℕ)} {L : Rounds}
    (h : Holds cache rs L) {c : Call} (hc : c.Allowed L) :
    ∃ cache' rs', c.run cache = .ok cache' ∧ Holds cache' rs' (c.apply L) := by
  cases c with
  | update miners r => exact update_spec h hc.1 hc.2
  | delete r =>
    obtain ⟨⟨rs', h'⟩, -⟩ := delete_spec h hc
    exact ⟨_, rs', rfl, h'⟩

/-- Any sequence of calls keeps the cache in step with the list. -/
theorem run_spec : ∀ (cs : List Call) {cache : MinerCache} {rs : List (List Address × ℕ)}
    {L : Rounds}, Holds cache rs L → AllAllowed L cs →
      ∃ cache' rs', runCalls cache cs = .ok cache' ∧ Holds cache' rs' (cs.foldl Call.apply L)
  | [], cache, rs, _, h, _ => ⟨cache, rs, rfl, h⟩
  | c :: cs, cache, rs, L, h, hc => by
    obtain ⟨cache₁, rs₁, hrun, h₁⟩ := call_spec h hc.1
    obtain ⟨cache', rs', hrest, h'⟩ := run_spec cs h₁ hc.2
    refine ⟨cache', rs', ?_, h'⟩
    rw [runCalls, List.foldlM_cons, hrun]
    exact hrest

/-- **The miner cache refines the list of committees.**  Started empty, after any sequence
    of calls the lookups answer as the list does, with an error exactly where the list has
    no such round, and a deletion that returns an error changes nothing. -/
theorem minerCache_refines (cs : List Call) (hcs : AllAllowed [] cs) :
    ∃ cache, runCalls [] cs = .ok cache ∧
      (∀ k, (minersInRound cache k).toOption = (cs.foldl Call.apply []).committee k) ∧
      (∀ k, k ≤ 0 ∨ cache ≠ [] →
        (slotsPassedByRound cache k).toOption = (cs.foldl Call.apply []).slots k) ∧
      (∀ r, 1 ≤ r → (deleteEntryInMinerCache cache r).1.isSome →
        (deleteEntryInMinerCache cache r).2 = cache) := by
  obtain ⟨cache, rs, hrun, h⟩ := run_spec cs (show Holds [] [] [] from ⟨by simp, rfl, rfl⟩) hcs
  refine ⟨cache, hrun, fun k => (lookup_spec h k).1, fun k => (lookup_spec h k).2, ?_⟩
  intro r _ herr
  unfold deleteEntryInMinerCache at herr ⊢
  cases hl : cache.getLast? with
  | none => rfl
  | some tail =>
    simp only [hl] at herr ⊢
    split_ifs at herr ⊢ with hlt
    · rfl
    · simp at herr

/-- Two rounds of one committee, a third round of another one, and a deletion inside the
    first run. -/
theorem minerCache_refines_split :
    AllAllowed [] [.update ["a"] 1, .update ["a"] 2, .update ["b", "c"] 3, .delete 2] ∧
    ∃ cache, runCalls [] [.update ["a"] 1, .update ["a"] 2, .update ["b", "c"] 3, .delete 2] =
        .ok cache ∧
      (minersInRound cache 1).toOption = some ["a"] ∧ (minersInRound cache 2).toOption = none := by
  have hcs : AllAllowed []
      [.update ["a"] 1, .update ["a"] 2, .update ["b", "c"] 3, .delete 2] := by decide
  obtain ⟨cache, hrun, hminers, -, -⟩ := minerCache_refines _ hcs
  exact ⟨hcs, cache, hrun, hminers 1, hminers 2⟩

end MinerCache
end Timbre
