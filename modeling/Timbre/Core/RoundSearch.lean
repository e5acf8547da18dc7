/-
  The search for a block by its round.

  The search halves the heights from 0 to the number of blocks, and returns height 0 where it finds
  nothing; only a height without a block makes it return an error.  **It answers as it should exactly
  if the halving leads to a block of the round, or to such a height if there is none; without gaps
  in the main fork, if the round is that of a block or later than that of the tail**
  (`roundSearch_iff`).
-/
import Mathlib.Data.Int.LeastGreatest
import Timbre.Core.DealSearch

namespace Timbre.IndexedChain

variable (getRoundNum : Block → ℤ) (bc : IndexedChain) (targetRound : ℤ)

/-! ## The source -/

/-- The loop of `BinaryRoundSearch`. -/
def roundFrom : ℕ → ℤ → ℤ → ℤ → Except Err ℤ
  | 0, _, _, _ => .error (.panic "out of fuel")
  | fuel + 1, low, high, lastMid =>
    if low ≤ high then do
      let median := low + (high - low) / 2
      let block ← bc.getBlockByHeight median
      let bRound := getRoundNum block
      if bRound = targetRound then return block.height
      else
        let high' := if bRound > targetRound then median - 1 else high
        let low' := if bRound > targetRound then low else median + 1
        if lastMid = median then return 0
        else roundFrom fuel low' high' median
    else return 0

/-- `BinaryRoundSearch`: the height of a block of the round. -/
def binaryRoundSearch : Except Err ℤ :=
  bc.roundFrom getRoundNum targetRound (bc.keys.card + 2) 0 bc.keys.card (-1)

/-! ## Answers -/

/-- A block stands at its own height in the main-fork map. -/
def Keyed : Prop := ∀ k b, bc.getBlockByHeight k = .ok b → b.height = k

/-- The rounds do not decrease with the height. -/
def RoundsAscend : Prop :=
  ∀ k k' b b', bc.getBlockByHeight k = .ok b → bc.getBlockByHeight k' = .ok b' → k ≤ k' →
    getRoundNum b ≤ getRoundNum b'

/-- Some block of the main fork is of the round. -/
def HasRound : Prop := ∃ k b, bc.getBlockByHeight k = .ok b ∧ getRoundNum b = targetRound

/-- The search finds a block of the round, or returns an error if there is none; height 0 it
    returns only for the round of the block of this height. -/
structure AnswersRound : Prop where
  found : bc.HasRound getRoundNum targetRound → ∃ k b, bc.getBlockByHeight k = .ok b ∧
    getRoundNum b = targetRound ∧ bc.binaryRoundSearch getRoundNum targetRound = .ok k
  missing : ¬ bc.HasRound getRoundNum targetRound →
    ∃ e, bc.binaryRoundSearch getRoundNum targetRound = .error (.error e)
  zero : bc.binaryRoundSearch getRoundNum targetRound = .ok 0 →
    ∃ g, bc.getBlockByHeight 0 = .ok g ∧ getRoundNum g = targetRound

/-- The main fork has a block of the height, of a round that is not later. -/
def NotLaterRound (k : ℤ) : Prop := ∃ x, bc.getBlockByHeight k = .ok x ∧ getRoundNum x ≤ targetRound

/-- The main fork has a block of the height, of a later round. -/
def LaterRound (k : ℤ) : Prop := ∃ x, bc.getBlockByHeight k = .ok x ∧ targetRound < getRoundNum x

/-- Halving the heights from 0 to the number of blocks leads to the height: the middle of each larger
    interval is not of a later round if it is below, and of a later one if it is above. -/
def RoundLedTo (k : ℤ) : Prop :=
  ∃ l h, Bisect.LeadsTo (bc.NotLaterRound getRoundNum targetRound) (bc.LaterRound getRoundNum targetRound)
    0 bc.keys.card l h ∧ Bisect.middle l h = k

/-- The halving leads to a block of the round if there is one, and to a height without a block if there
    is none. -/
structure RoundSteered : Prop where
  present : bc.HasRound getRoundNum targetRound → ∃ k b, bc.RoundLedTo getRoundNum targetRound k ∧
    bc.getBlockByHeight k = .ok b ∧ getRoundNum b = targetRound
  absent : ¬ bc.HasRound getRoundNum targetRound → ∃ k e, bc.RoundLedTo getRoundNum targetRound k ∧
    bc.getBlockByHeight k = .error e

/-- The main-fork map holds the heights from 0 to that of the tail, and no others. -/
structure Complete (tail : Block) : Prop where
  keys : bc.keys = Finset.Icc 0 tail.height
  level : 0 ≤ tail.height
  stored : ∀ k ∈ bc.keys, ∃ b, bc.getBlockByHeight k = .ok b
  tail : bc.getBlockByHeight tail.height = .ok tail

variable {getRoundNum bc targetRound} {m b : Block} {l : List Block} {k : ℤ}

/-! ## The search -/

/-- What the search learns of a height. -/
def roundProbe (getRoundNum : Block → ℤ) (bc : IndexedChain) (targetRound : ℤ) (k : ℤ) :
    Except Err (Option ℤ × Bool) := do
  let block ← bc.getBlockByHeight k
  return (if getRoundNum block = targetRound then some block.height else none, getRoundNum block > targetRound)

theorem roundProbe_of_block (hb : bc.getBlockByHeight k = .ok b) : roundProbe getRoundNum bc targetRound k =
    .ok (if getRoundNum b = targetRound then some b.height else none, getRoundNum b > targetRound) := by
  rw [roundProbe, hb]
  rfl

theorem roundProbe_error {e : Err} : roundProbe getRoundNum bc targetRound k = .error e ↔
    bc.getBlockByHeight k = .error e := by
  rcases hk : bc.getBlockByHeight k with e' | x
  · simp [roundProbe, hk, bind, Except.bind]
  · rw [roundProbe_of_block hk]
    simp

theorem roundProbe_some {h : ℤ} {side : Bool}
    (hprobe : roundProbe getRoundNum bc targetRound k = .ok (some h, side)) :
    ∃ b, bc.getBlockByHeight k = .ok b ∧ getRoundNum b = targetRound ∧ h = b.height := by
  rcases hk : bc.getBlockByHeight k with e | b
  · rw [roundProbe_error.2 hk] at hprobe
    cases hprobe
  · rw [roundProbe_of_block hk] at hprobe
    by_cases hround : getRoundNum b = targetRound
    · rw [if_pos hround] at hprobe
      cases hprobe
      exact ⟨b, rfl, hround, rfl⟩
    · rw [if_neg hround] at hprobe
      cases hprobe

theorem roundProbe_side {side : Bool} : (∃ found, roundProbe getRoundNum bc targetRound k = .ok (found, side)) ↔
    ∃ x, bc.getBlockByHeight k = .ok x ∧ decide (getRoundNum x > targetRound) = side := by
  rcases hk : bc.getBlockByHeight k with e | x
  · simp [roundProbe_error.2 hk]
  · simp [roundProbe_of_block hk]

theorem below_eq : (fun k => ∃ found, roundProbe getRoundNum bc targetRound k = .ok (found, false)) =
    bc.NotLaterRound getRoundNum targetRound := by
  funext k
  rw [roundProbe_side]
  simp [NotLaterRound]

theorem above_eq : (fun k => ∃ found, roundProbe getRoundNum bc targetRound k = .ok (found, true)) =
    bc.LaterRound getRoundNum targetRound := by
  funext k
  rw [roundProbe_side]
  simp [LaterRound]

/-- The stop at a repeated median is never used. -/
theorem roundFrom_eq : ∀ {fuel : ℕ} {low high lastMid : ℤ}, (high - low + 1).toNat < fuel →
    lastMid < low ∨ high < lastMid → bc.roundFrom getRoundNum targetRound fuel low high lastMid =
      (Bisect.search (roundProbe getRoundNum bc targetRound) fuel low high).map (·.getD 0)
  | 0, _, _, _, hfuel, _ => absurd hfuel (Nat.not_lt_zero _)
  | fuel + 1, low, high, lastMid, hfuel, hlast => by
    rw [roundFrom, Bisect.search]
    split_ifs with hle
    · have hmiddle := Bisect.middle_mem hle
      have hlower := @roundFrom_eq fuel low (Bisect.middle low high - 1) (Bisect.middle low high)
        (by omega) (.inr (by omega))
      have hupper := @roundFrom_eq fuel (Bisect.middle low high + 1) high (Bisect.middle low high)
        (by omega) (.inl (by omega))
      have hguard : lastMid ≠ Bisect.middle low high := by omega
      show (bc.getBlockByHeight (Bisect.middle low high) >>= _) = _
      rcases hblock : bc.getBlockByHeight (Bisect.middle low high) with e | x
      · rw [roundProbe_error.2 hblock]
        rfl
      · rw [roundProbe_of_block hblock]
        show (if getRoundNum x = targetRound then Except.ok x.height
          else if lastMid = Bisect.middle low high then Except.ok 0
          else bc.roundFrom getRoundNum targetRound fuel
            (if getRoundNum x > targetRound then low else Bisect.middle low high + 1)
            (if getRoundNum x > targetRound then Bisect.middle low high - 1 else high) (Bisect.middle low high)) = _
        by_cases hfound : getRoundNum x = targetRound
        · rw [if_pos hfound, if_pos hfound]
          rfl
        · rw [if_neg hfound, if_neg hfound, if_neg hguard]
          by_cases hside : getRoundNum x > targetRound
          · rw [if_pos hside, if_pos hside, decide_eq_true hside]
            exact hlower
          · rw [if_neg hside, if_neg hside, decide_eq_false hside]
            exact hupper
    · rfl

theorem binaryRoundSearch_eq : bc.binaryRoundSearch getRoundNum targetRound =
    (Bisect.search (roundProbe getRoundNum bc targetRound) (bc.keys.card + 2) 0 bc.keys.card).map (·.getD 0) :=
  roundFrom_eq (by omega) (.inl (by omega))

/-- A block of the round is found exactly if one is led to. -/
theorem search_some_iff :
    (∃ h, Bisect.search (roundProbe getRoundNum bc targetRound) (bc.keys.card + 2) 0 bc.keys.card = .ok (some h)) ↔
      ∃ k b, bc.RoundLedTo getRoundNum targetRound k ∧ bc.getBlockByHeight k = .ok b ∧
        getRoundNum b = targetRound := by
  rw [Bisect.search_found_iff (by omega), below_eq, above_eq]
  constructor
  · rintro ⟨l, h, hlead, r, side, hprobe⟩
    obtain ⟨b, hb, hround, -⟩ := roundProbe_some hprobe
    exact ⟨_, b, ⟨l, h, hlead, rfl⟩, hb, hround⟩
  · rintro ⟨_, b, ⟨l, h, hlead, rfl⟩, hb, hround⟩
    refine ⟨l, h, hlead, b.height, decide (getRoundNum b > targetRound), ?_⟩
    rw [roundProbe_of_block hb, if_pos hround]

/-- Without a block of the round, the search goes wrong exactly if a height without a block is led to. -/
theorem search_missing_iff (hnone : ¬ bc.HasRound getRoundNum targetRound) :
    (∃ e, Bisect.search (roundProbe getRoundNum bc targetRound) (bc.keys.card + 2) 0 bc.keys.card = .error e) ↔
      ∃ k e, bc.RoundLedTo getRoundNum targetRound k ∧ bc.getBlockByHeight k = .error e := by
  rw [Bisect.search_error_iff, below_eq, above_eq]
  · constructor
    · rintro ⟨l, h, hlead, e, he⟩
      exact ⟨_, e, ⟨l, h, hlead, rfl⟩, roundProbe_error.1 he⟩
    · rintro ⟨_, e, ⟨l, h, hlead, rfl⟩, he⟩
      exact ⟨l, h, hlead, e, roundProbe_error.2 he⟩
  · intro k r side hprobe
    obtain ⟨b, hb, hround, -⟩ := roundProbe_some hprobe
    exact hnone ⟨k, b, hb, hround⟩
  · omega

/-! ## How it ends -/

theorem getBlockByHeight_error {e : Err} (h : bc.getBlockByHeight k = .error e) : ∃ s, e = .error s := by
  unfold Blockchain.getBlockByHeight at h
  split at h
  · cases h
    exact ⟨_, rfl⟩
  · unfold Blockchain.getBlockByHash at h
    split_ifs at h
    · cases h
      exact ⟨_, rfl⟩
    · split at h
      · cases h
        exact ⟨_, rfl⟩
      · cases h

/-- A block of the round that is led to. -/
theorem binaryRoundSearch_present (hkeyed : bc.Keyed) (h : ∃ k b, bc.RoundLedTo getRoundNum targetRound k ∧
    bc.getBlockByHeight k = .ok b ∧ getRoundNum b = targetRound) :
    ∃ k b, bc.getBlockByHeight k = .ok b ∧ getRoundNum b = targetRound ∧
      bc.binaryRoundSearch getRoundNum targetRound = .ok k := by
  obtain ⟨r, hr⟩ := search_some_iff.2 h
  obtain ⟨k, side, hprobe⟩ := Bisect.probe_of_search hr
  obtain ⟨b, hb, hround, rfl⟩ := roundProbe_some hprobe
  refine ⟨k, b, hb, hround, ?_⟩
  rw [binaryRoundSearch_eq, hr, ← hkeyed k b hb]
  rfl

/-- A height without a block that is led to. -/
theorem binaryRoundSearch_absent (hnone : ¬ bc.HasRound getRoundNum targetRound)
    (h : ∃ k e, bc.RoundLedTo getRoundNum targetRound k ∧ bc.getBlockByHeight k = .error e) :
    ∃ e, bc.binaryRoundSearch getRoundNum targetRound = .error (.error e) := by
  obtain ⟨e, he⟩ := (search_missing_iff hnone).2 h
  obtain ⟨k, hprobe⟩ := Bisect.probe_of_search_error he
  obtain ⟨s, rfl⟩ := getBlockByHeight_error (roundProbe_error.1 hprobe)
  refine ⟨s, ?_⟩
  rw [binaryRoundSearch_eq, he]
  rfl

/-- A round of the genesis block is not missed. -/
theorem search_genesis (hrounds : bc.RoundsAscend getRoundNum) (hb : bc.getBlockByHeight 0 = .ok b)
    (hround : getRoundNum b = targetRound) :
    Bisect.search (roundProbe getRoundNum bc targetRound) (bc.keys.card + 2) 0 bc.keys.card ≠ .ok none := by
  have hstart : roundProbe getRoundNum bc targetRound 0 = .ok (some b.height, getRoundNum b > targetRound) := by
    rw [roundProbe_of_block hb, if_pos hround]
  refine Bisect.search_start (by omega) (by omega) hstart ?_
  · intro j h₀ _ hj
    rcases hk : bc.getBlockByHeight j with e | x
    · rw [roundProbe_error.2 hk] at hj
      cases hj
    · have hle := hrounds 0 j b x hb hk h₀
      rw [roundProbe_of_block hk] at hj
      obtain ⟨hx, hside⟩ := Prod.mk.inj (Except.ok.inj hj)
      have hnot : ¬ getRoundNum x > targetRound := of_decide_eq_false hside
      rw [if_pos (by omega)] at hx
      cases hx

/-- The search answers as it should exactly if the halving leads it. -/
theorem answersRound_iff (hkeyed : bc.Keyed) (hrounds : bc.RoundsAscend getRoundNum) :
    bc.AnswersRound getRoundNum targetRound ↔ bc.RoundSteered getRoundNum targetRound := by
  constructor
  · rintro ⟨hfound, hmissing, -⟩
    rw [binaryRoundSearch_eq] at hfound hmissing
    constructor
    · intro hround
      obtain ⟨k, b, hb, hb', hr⟩ := hfound hround
      rcases hsearch : Bisect.search (roundProbe getRoundNum bc targetRound) (bc.keys.card + 2) 0 bc.keys.card
        with e | _ | h
      · rw [hsearch] at hr
        cases hr
      · rw [hsearch] at hr
        cases hr
        exact absurd hsearch (search_genesis hrounds hb hb')
      · exact search_some_iff.1 ⟨h, hsearch⟩
    · intro hnone
      obtain ⟨e, he⟩ := hmissing hnone
      refine (search_missing_iff hnone).1 ?_
      rcases hsearch : Bisect.search (roundProbe getRoundNum bc targetRound) (bc.keys.card + 2) 0 bc.keys.card
        with e' | r
      · exact ⟨e', rfl⟩
      · rw [hsearch] at he
        cases he
  · rintro ⟨hpresent, habsent⟩
    refine ⟨fun hround => binaryRoundSearch_present hkeyed (hpresent hround),
      fun hnone => binaryRoundSearch_absent hnone (habsent hnone), fun hzero => ?_⟩
    by_cases hround : bc.HasRound getRoundNum targetRound
    · obtain ⟨k, b, hb, hb', hr⟩ := binaryRoundSearch_present hkeyed (hpresent hround)
      obtain rfl : k = 0 := Except.ok.inj (hr.symm.trans hzero)
      exact ⟨b, hb, hb'⟩
    · obtain ⟨e, he⟩ := binaryRoundSearch_absent hround (habsent hround)
      rw [hzero] at he
      cases he

/-! ## Main forks without gaps -/

namespace Complete

variable {tail : Block} (h : bc.Complete tail)
include h

theorem card_eq : (bc.keys.card : ℤ) = tail.height + 1 := by
  have hlevel := h.level
  rw [h.keys, Int.card_Icc]
  omega

/-- The heights with a block are those below the number of blocks. -/
theorem block_iff : (∃ x, bc.getBlockByHeight k = .ok x) ↔ 0 ≤ k ∧ k < bc.keys.card := by
  rw [h.card_eq]
  constructor
  · rintro ⟨x, hx⟩
    have hk : k ∈ bc.keys := by
      rw [bc.mem_keys]
      intro hnone
      rw [Blockchain.getBlockByHeight, hnone] at hx
      cases hx
    rw [h.keys, Finset.mem_Icc] at hk
    omega
  · intro hk
    refine h.stored k ?_
    rw [h.keys, Finset.mem_Icc]
    omega

/-- **A round of the main fork is led to.** -/
theorem ledTo_present (hrounds : bc.RoundsAscend getRoundNum) (hround : bc.HasRound getRoundNum targetRound) :
    ∃ k b, bc.RoundLedTo getRoundNum targetRound k ∧ bc.getBlockByHeight k = .ok b ∧ getRoundNum b = targetRound := by
  -- the highest block of the round: all below it are of no later round, all above it of a later one
  obtain ⟨k, ⟨b, hb, hb'⟩, hmax⟩ : ∃ k, (∃ b, bc.getBlockByHeight k = .ok b ∧ getRoundNum b = targetRound) ∧
      ∀ j, (∃ b, bc.getBlockByHeight j = .ok b ∧ getRoundNum b = targetRound) → j ≤ k := by
    refine Int.exists_greatest_of_bdd ⟨bc.keys.card, ?_⟩ hround
    rintro j ⟨x, hx, -⟩
    exact (h.block_iff.1 ⟨x, hx⟩).2.le
  have hk := h.block_iff.1 ⟨b, hb⟩
  obtain ⟨l, h', hlead, hmiddle⟩ : ∃ l h', Bisect.LeadsTo (bc.NotLaterRound getRoundNum targetRound)
      (bc.LaterRound getRoundNum targetRound) 0 bc.keys.card l h' ∧ Bisect.middle l h' = k := by
    refine Bisect.leadsTo_first hk.1 hk.2.le ?_ ?_
    · intro j h₀ hj
      obtain ⟨x, hx⟩ := h.block_iff.2 ⟨h₀, hj.trans hk.2⟩
      exact ⟨x, hx, hb' ▸ hrounds j k x b hx hb hj.le⟩
    · intro j hj hj'
      obtain ⟨x, hx⟩ := h.block_iff.2 ⟨hk.1.trans hj.le, hj'⟩
      refine ⟨x, hx, lt_of_le_of_ne (hb' ▸ hrounds k j b x hb hx hj.le) fun heq => ?_⟩
      exact absurd (hmax j ⟨x, hx, heq.symm⟩) (not_le.2 hj)
  exact ⟨k, b, ⟨l, h', hlead, hmiddle⟩, hb, hb'⟩

/-- **Above a tail of an earlier round** the height without a block is led to. -/
theorem ledTo_absent (hrounds : bc.RoundsAscend getRoundNum) (htail : getRoundNum tail < targetRound) :
    ∃ k e, bc.RoundLedTo getRoundNum targetRound k ∧ bc.getBlockByHeight k = .error e := by
  have hcard := h.card_eq
  obtain ⟨l, h', hlead, hmiddle⟩ : ∃ l h', Bisect.LeadsTo (bc.NotLaterRound getRoundNum targetRound)
      (bc.LaterRound getRoundNum targetRound) 0 bc.keys.card l h' ∧ Bisect.middle l h' = bc.keys.card := by
    refine Bisect.leadsTo_first (Int.natCast_nonneg _) le_rfl ?_ ?_
    · intro j h₀ hj
      obtain ⟨x, hx⟩ := h.block_iff.2 ⟨h₀, hj⟩
      exact ⟨x, hx, (hrounds j tail.height x tail hx h.tail (by omega)).trans htail.le⟩
    · intro j hj hj'
      exact absurd hj (not_lt.2 hj'.le)
  rcases hblock : bc.getBlockByHeight bc.keys.card with e | x
  · exact ⟨bc.keys.card, e, ⟨l, h', hlead, hmiddle⟩, hblock⟩
  · exact absurd (h.block_iff.1 ⟨x, hblock⟩).2 (lt_irrefl _)

/-- **Below a tail of a later round** the search ends without an error. -/
theorem search_lost (hnone : ¬ bc.HasRound getRoundNum targetRound) (htail : targetRound < getRoundNum tail) :
    Bisect.search (roundProbe getRoundNum bc targetRound) (bc.keys.card + 2) 0 bc.keys.card = .ok none := by
  have hcard := h.card_eq
  have hlevel := h.level
  have hprobe : ∀ k x, bc.getBlockByHeight k = .ok x →
      roundProbe getRoundNum bc targetRound k = .ok (none, getRoundNum x > targetRound) := by
    intro k x hx
    rw [roundProbe_of_block hx, if_neg fun hround => hnone ⟨k, x, hx, hround⟩]
  refine Bisect.search_inside (by omega) ?_ ?_
  · intro j h₀ hj
    obtain ⟨x, hx⟩ := h.block_iff.2 ⟨h₀, hj⟩
    exact ⟨_, hprobe j x hx⟩
  · rw [hcard, Int.add_sub_cancel, hprobe _ _ h.tail, decide_eq_true htail]

/-- There it returns height 0. -/
theorem binaryRoundSearch_lost (hnone : ¬ bc.HasRound getRoundNum targetRound)
    (htail : targetRound < getRoundNum tail) :
    bc.binaryRoundSearch getRoundNum targetRound = .ok 0 := by
  rw [binaryRoundSearch_eq, h.search_lost hnone htail]
  rfl

theorem roundSteered_iff (hrounds : bc.RoundsAscend getRoundNum) : bc.RoundSteered getRoundNum targetRound ↔
    bc.HasRound getRoundNum targetRound ∨ getRoundNum tail < targetRound := by
  constructor
  · rintro ⟨-, habsent⟩
    by_cases hround : bc.HasRound getRoundNum targetRound
    · exact .inl hround
    · refine .inr (not_le.1 fun hle => ?_)
      have hne : targetRound ≠ getRoundNum tail := fun heq => hround ⟨tail.height, tail, h.tail, heq.symm⟩
      obtain ⟨e, he⟩ := (search_missing_iff hround).2 (habsent hround)
      rw [h.search_lost hround (lt_of_le_of_ne hle hne)] at he
      cases he
  · rintro (hround | htail)
    · exact ⟨h.ledTo_present hrounds, fun hnone => absurd hround hnone⟩
    · exact ⟨h.ledTo_present hrounds, fun _ => h.ledTo_absent hrounds htail⟩

end Complete

/-- A main fork with all blocks down to the genesis block. -/
theorem keyed_of_isChain (hc : bc.IsChain l) (hmap : bc.Mapped l) : bc.Keyed := by
  intro k b hb
  rcases hk : bc.mainForkMap k with _ | v
  · rw [Blockchain.getBlockByHeight, hk] at hb
    cases hb
  · obtain ⟨x, hx, rfl⟩ := hmap.2 k v hk
    rw [getBlockByHeight_of_mapped hc hmap hx] at hb
    cases hb
    rfl

theorem complete_of_isChain (hc : bc.IsChain (m :: l)) (hmap : bc.Mapped (m :: l)) : bc.Complete m where
  keys := keys_eq hc hmap
  level := hc.level_nonneg
  stored k hk := by
    obtain ⟨v, hv⟩ := Option.ne_none_iff_exists'.1 ((bc.mem_keys k).1 hk)
    obtain ⟨x, hx, rfl⟩ := hmap.2 k v hv
    exact ⟨x, getBlockByHeight_of_mapped hc hmap hx⟩
  tail := getBlockByHeight_of_mapped hc hmap (List.mem_cons_self ..)

/-- **The search answers as it should exactly if the halving leads it.**  On a main fork without gaps
    this is the case exactly if the round is that of a block, or later than that of the tail. -/
theorem roundSearch_iff (getRoundNum : Block → ℤ) (bc : IndexedChain) (hkeyed : bc.Keyed)
    (hrounds : bc.RoundsAscend getRoundNum) (targetRound : ℤ) :
    (bc.AnswersRound getRoundNum targetRound ↔ bc.RoundSteered getRoundNum targetRound) ∧
      ∀ tail, bc.Complete tail → (bc.AnswersRound getRoundNum targetRound ↔
        bc.HasRound getRoundNum targetRound ∨ getRoundNum tail < targetRound) :=
  ⟨answersRound_iff hkeyed hrounds, fun _ h => (answersRound_iff hkeyed hrounds).trans (h.roundSteered_iff hrounds)⟩

/-- Every second round has a block. -/
def evenRounds (b : Block) : ℤ := 2 * b.height

theorem keyed_threeBlocks : threeBlocks.Keyed := by
  intro k b hb
  unfold Blockchain.getBlockByHeight threeBlocks at hb
  dsimp only at hb
  split_ifs at hb with h₀ h₁ h₂
  · cases hb
    exact h₀.symm
  · cases hb
    exact h₁.symm
  · cases hb
    exact h₂.symm

theorem roundsAscend_threeBlocks : threeBlocks.RoundsAscend evenRounds := by
  intro k k' b b' hb hb' hle
  rw [evenRounds, evenRounds, keyed_threeBlocks k b hb, keyed_threeBlocks k' b' hb']
  omega

theorem complete_threeBlocks : threeBlocks.Complete ⟨"b", some "a", 2, "m", false⟩ where
  keys := rfl
  level := by decide
  stored k hk := by
    have hk : k ∈ ({0, 1, 2} : Finset ℤ) := hk
    simp only [Finset.mem_insert, Finset.mem_singleton] at hk
    rcases hk with rfl | rfl | rfl
    · exact ⟨_, rfl⟩
    · exact ⟨_, rfl⟩
    · exact ⟨_, rfl⟩
  tail := rfl

theorem roundSearch_iff_threeBlocks :
    (threeBlocks.AnswersRound evenRounds 3 ↔ threeBlocks.RoundSteered evenRounds 3) ∧
      ∀ tail, threeBlocks.Complete tail → (threeBlocks.AnswersRound evenRounds 3 ↔
        threeBlocks.HasRound evenRounds 3 ∨ evenRounds tail < 3) :=
  roundSearch_iff evenRounds threeBlocks keyed_threeBlocks roundsAscend_threeBlocks 3

/-- For round 3, which has no block, the search returns the height of the genesis block, of round 0. -/
theorem not_roundSearch : ¬ ∀ (getRoundNum : Block → ℤ) (bc : IndexedChain) (tail : Block), bc.Keyed →
    bc.RoundsAscend getRoundNum → bc.Complete tail → ∀ targetRound, bc.AnswersRound getRoundNum targetRound := by
  intro hall
  have hanswers := hall evenRounds threeBlocks _ keyed_threeBlocks roundsAscend_threeBlocks complete_threeBlocks 3
  have hsearch : threeBlocks.binaryRoundSearch evenRounds 3 = .ok 0 := rfl
  obtain ⟨g, hg, hround⟩ := hanswers.zero hsearch
  rw [evenRounds, keyed_threeBlocks 0 g hg] at hround
  cases hround

end Timbre.IndexedChain
