/-
  The start of the DPOS after a synchronisation.

  A node that has caught up counts the slots since the genesis block to find the start of its round.
  **It agrees with the nodes that have been running exactly if the genesis block was minted at the first
  tick of all** (`resumes_iff`).  A round that starts late by one tick or more names wrong miners, unless
  its committee has a single member (`namesMiners_iff`).
-/
import Timbre.Dpos.Schedule

namespace Timbre
namespace Services

open MinerCache

/-! ## The source -/

/-- `int64(GetTickInterval().Seconds())`. -/
def tickSeconds : Int64 := miningTickInterval / second

/-- `int64(GetMinerSlotTime().Seconds())`. -/
def slotSeconds : Int64 := minerSlotTime / second

/-- The start of the chain, from the timestamp of the genesis block. -/
def chainStartTime (gts : Int64) : Int64 := gts / second - tickSeconds

/-- `SlotsPassedByRound`, whose error panics here. -/
def slotsPassed (cache : MinerCache) (round : ℤ) : Except Err ℤ :=
  match cache.slotsPassedByRound round with
  | .ok slots => .ok slots
  | .error (.error e) => .error (.panic e)
  | .error (.panic e) => .error (.panic e)

/-- `TimeLeftInRoundBySlots`. -/
def timeLeftInRoundBySlots (cache : MinerCache) (gts : Int64) (bRn : ℤ) (curTime : Int64) : Except Err Int64 := do
  let slots ← slotsPassed cache bRn
  let endTime := chainStartTime gts + Int64.ofInt slots * slotSeconds
  return endTime - curTime

/-- `RoundStartTime`. -/
def roundStartTime (cache : MinerCache) (gts : Int64) (round : ℤ) : Except Err Int64 := do
  let slots ← slotsPassed cache (round - 1)
  return chainStartTime gts + Int64.ofInt slots * slotSeconds

/-- What the clock shows at the start, when the time left is taken, and when a round begins; the last in
    nanoseconds. -/
structure Readings where
  curTime : Int64
  timeLeft : Int64
  advance : Int64

/-- How `StartDpos` ends, but for a panic. -/
inductive Start where
  | staleTail
  | syncAgain
  | running (d : ClockedDpos)

/-- `StartDpos` of a node that has blocks, the main tail with this timestamp and this round. -/
def startDpos (w : WalletAccess) (order : CandidateOrder) (bcLength : ℤ) (gts tailTs : Int64) (tailRound : ℤ)
    (clock : Readings) (d : ClockedDpos) : Except Err Start := do
  let timeSinceTail := clock.curTime - tailTs / second
  if timeSinceTail > 2 * tickSeconds then return .staleTail
  let timeLeft ← timeLeftInRoundBySlots d.minerCache gts tailRound clock.timeLeft
  if timeLeft ≤ 2 then
    let (d, _) ← d.advanceRoundAt w order bcLength clock.advance
    let start ← roundStartTime d.minerCache gts d.roundNumber
    if d.roundNumber ≠ tailRound + 1 then
      if timeLeft < -(committeeTime d.committeeSize / second) then return .syncAgain
      throw (.panic "Tail round isn't +1. Weird situation")
    return .running { d with roundStartTime := start }
  else
    let start ← roundStartTime d.minerCache gts d.roundNumber
    if d.roundNumber ≠ tailRound then throw (.panic "Not in correct round")
    return .running { d with roundStartTime := start }

end Services

/-! ## The running nodes -/

namespace Schedule

open MinerCache

/-- The start of a round on the nodes that have been running. -/
def roundStart (S : Schedule) (round : ℤ) : ℤ := S.start + 10 * Rounds.total (S.rounds.take (round - 1).toNat)

/-- The running nodes are in this round at the time `t`. -/
def InRound (S : Schedule) (round t : ℤ) : Prop := S.roundStart round ≤ t ∧ t < S.roundStart (round + 1)

end Schedule

namespace Services

open MinerCache

variable {S : Schedule} {cache : MinerCache} {L : Rounds} {a b i n : ℕ} {gts tailTs : Int64} {w : WalletAccess}
  {order : CandidateOrder} {bcLength : ℤ} {clock : Readings} {d d' : ClockedDpos} {genesis tail : Minting}

/-- A node that is in the round of its main tail, with the rounds up to it; minting number `a` has become
    the genesis block, minting number `b` is the main tail. -/
structure Synced (S : Schedule) (a b : ℕ) (gts tailTs : Int64) (tail : Minting) (d : ClockedDpos) : Prop where
  genesis : ∃ m i C k, Placed S.rounds 1 S.start a m i C k ∧ gts / second = m.time
  mainTail : ∃ i C k, Placed S.rounds 1 S.start b tail i C k
  timestamp : tailTs / second = tail.time
  round : d.roundNumber = tail.round
  recorded : Recorded (S.rounds.take tail.round.toNat) d.minerCache

/-- The time left in the round of the main tail, as the node counts it. -/
def timeLeft (S : Schedule) (a : ℕ) (tail : Minting) (clock : Readings) : Int64 :=
  Int64.ofInt (S.roundStart (tail.round + 1) + 5 * a) - clock.timeLeft

/-- The clock does not stand before the main tail, nor a slot after the end of its round, and it goes on by
    two seconds if the node sleeps. -/
structure OnTime (S : Schedule) (a : ℕ) (tail : Minting) (clock : Readings) : Prop where
  late : tail.time.toInt ≤ clock.timeLeft.toInt
  soon : clock.timeLeft.toInt < S.roundStart (tail.round + 1) + 10
  sleeps : 0 < timeLeft S a tail clock → timeLeft S a tail clock ≤ 2 →
    clock.timeLeft.toInt + 2 ≤ (clock.advance / second).toInt
  after : clock.timeLeft.toInt ≤ (clock.advance / second).toInt
  advance : (clock.advance / second).toInt < S.roundStart (tail.round + 1) + 10

/-! ## Slots -/

theorem slotsPassed_ok {slots : ℤ} (h : cache.slotsPassedByRound n = .ok slots) : slotsPassed cache n = .ok slots := by
  rw [slotsPassed, h]

/-- The slots of a recorded cache. -/
theorem slotsPassed_recorded (hrec : Recorded L cache) (hne : L ≠ []) (hn : n ≤ L.length) :
    slotsPassed cache n = .ok (Rounds.total (L.take n) : ℤ) := by
  have hcache : cache ≠ [] := by
    rintro rfl
    obtain ⟨C, rest, rfl⟩ := List.exists_cons_of_ne_nil hne
    have hminers := hrec.lookup.1 1 C rfl
    cases hminers
  refine slotsPassed_ok (hrec.lookup.2 n _ hcache ?_)
  rw [Rounds.slots, if_pos (by omega), Int.toNat_natCast, cast_total]

/-- The start of the chain is the first tick before the genesis block. -/
theorem chainStartTime_eq {m : Minting} {C : List Address} {k : ℕ} (hm : Placed S.rounds 1 S.start a m i C k)
    (hgts : gts / second = m.time) : chainStartTime gts = Int64.ofInt (S.start + 5 * a) := by
  have hfive : tickSeconds = Int64.ofInt 5 := by decide
  rw [chainStartTime, hgts, hm.time_eq, hfive, ← Int64.ofInt_sub]
  congr 1
  ring

/-- Some slots after the start of the chain. -/
theorem start_add (hstart : chainStartTime gts = Int64.ofInt (S.start + 5 * a)) (slots : ℤ) :
    chainStartTime gts + Int64.ofInt slots * slotSeconds = Int64.ofInt (S.start + 10 * slots + 5 * a) := by
  have hten : slotSeconds = Int64.ofInt 10 := by decide
  rw [hstart, hten, ← Int64.ofInt_mul, ← Int64.ofInt_add]
  congr 1
  ring

/-- The times up to the end of the last round, and as much again, fit. -/
theorem toInt_start (ha : a < 2 * Rounds.total S.rounds) (hn : n ≤ Rounds.total S.rounds) :
    (Int64.ofInt (S.start + 10 * n + 5 * a)).toInt = S.start + 10 * n + 5 * a := by
  obtain ⟨hlo, hhi⟩ := S.fits
  rw [toInt_second] at hlo hhi
  exact Int64.toInt_ofInt_of_le (by omega) (by omega)

/-- The round after `n` rounds that the cache has as the running nodes had them. -/
theorem roundStartTime_eq (hstart : chainStartTime gts = Int64.ofInt (S.start + 5 * a)) (hrec : Recorded L cache)
    (hne : L ≠ []) (hn : n ≤ L.length) (htake : L.take n = S.rounds.take n) :
    roundStartTime cache gts (n + 1) = .ok (Int64.ofInt (S.roundStart (n + 1) + 5 * a)) := by
  have hround : (n : ℤ) + 1 - 1 = n := by ring
  rw [roundStartTime, hround, slotsPassed_recorded hrec hne hn, htake]
  show Except.ok (chainStartTime gts + Int64.ofInt _ * slotSeconds) = _
  rw [start_add hstart, Schedule.roundStart, hround, Int.toNat_natCast]

theorem timeLeftInRoundBySlots_eq (hstart : chainStartTime gts = Int64.ofInt (S.start + 5 * a))
    (hrec : Recorded L cache) (hne : L ≠ []) (hn : n ≤ L.length) (htake : L.take n = S.rounds.take n) (curTime : Int64) :
    timeLeftInRoundBySlots cache gts n curTime =
      .ok (Int64.ofInt (S.roundStart (n + 1) + 5 * a) - curTime) := by
  have hround : (n : ℤ) + 1 - 1 = n := by ring
  rw [timeLeftInRoundBySlots, slotsPassed_recorded hrec hne hn, htake]
  show Except.ok (chainStartTime gts + Int64.ofInt _ * slotSeconds - curTime) = _
  rw [start_add hstart, Schedule.roundStart, hround, Int.toNat_natCast]

/-! ## The next round -/

theorem allAllowed_concat {c : MinerCache.Call} : ∀ {cs : List MinerCache.Call} {L : Rounds}, AllAllowed L cs →
    c.Allowed (cs.foldl Call.apply L) → AllAllowed L (cs ++ [c])
  | [], _, _, hc => ⟨hc, trivial⟩
  | _ :: _, _, hcs, hc => ⟨hcs.1, allAllowed_concat hcs.2 hc⟩

/-- One more round is recorded. -/
theorem recorded_push (h : Recorded L cache) {miners : List Address} {cache' : MinerCache}
    (hpush : cache.addOrUpdateMinerEntry miners (L.length + 1) = .ok cache') :
    Recorded (L ++ [miners]) cache' := by
  obtain ⟨cs, hcs, hrun, rfl⟩ := h
  have hallowed : (MinerCache.Call.update miners ((cs.foldl Call.apply []).length + 1)).Allowed
      (cs.foldl Call.apply []) := ⟨by omega, le_rfl⟩
  refine ⟨cs ++ [.update miners _], allAllowed_concat hcs hallowed, ?_, ?_⟩
  · rw [runCalls, List.foldlM_append, ← runCalls, hrun]
    exact (bind_pure _).trans hpush
  · rw [List.foldl_append]
    show Rounds.update _ miners _ = _
    rw [Rounds.update, Rounds.truncate]
    simp

/-- **When the node goes on to the next round**, its cache still has the rounds before. -/
theorem advanceRoundAt_spec {startTime next : Int64} (hrec : Recorded L d.minerCache) (hround : d.roundNumber = L.length)
    (hadv : d.advanceRoundAt w order bcLength startTime = .ok (d', next)) :
    d'.roundNumber = L.length + 1 ∧ ∃ L', Recorded L' d'.minerCache ∧ L'.take L.length = L ∧ L.length ≤ L'.length := by
  obtain ⟨e, hnext, hd'⟩ := except_bind_ok hadv
  have hd : d'.toDpos = e := by
    split_ifs at hd'
    · exact (congrArg (fun p => p.1.toDpos) (Except.ok.inj hd')).symm
    · exact (congrArg (fun p => p.1.toDpos) (Except.ok.inj hd')).symm
  rw [Dpos.advanceRound_eq] at hnext
  obtain ⟨cands, -, hbegin⟩ := except_bind_ok hnext
  have hbegun := Dpos.beginRound_begun hbegin
  rw [hd]
  refine ⟨by rw [hbegun.roundNumber, hround], ?_⟩
  have hcache := hbegun.minerCache
  split_ifs at hcache
  · rw [hcache]
    exact ⟨L, hrec, List.take_length, le_rfl⟩
  · rw [hround] at hcache
    refine ⟨_, recorded_push hrec hcache, List.take_left, ?_⟩
    rw [List.length_append]
    exact Nat.le_add_right _ _

/-! ## The round that is resumed -/

/-- **What `StartDpos` comes to**: the round of the main tail or the next one, by the time left, and a start
    that is late by as many ticks as the genesis block. -/
theorem startDpos_spec (h : Synced S a b gts tailTs tail d)
    (hrun : startDpos w order bcLength gts tailTs tail.round clock d = .ok (.running d')) :
    d'.roundStartTime = Int64.ofInt (S.roundStart d'.roundNumber + 5 * a) ∧
      (timeLeft S a tail clock ≤ 2 ∧ d'.roundNumber = tail.round + 1 ∨
        ¬ timeLeft S a tail clock ≤ 2 ∧ d'.roundNumber = tail.round) := by
  obtain ⟨m, _, _, _, hm, hgts⟩ := h.genesis
  have hstart := chainStartTime_eq hm hgts
  obtain ⟨i, C, k, htail⟩ := h.mainTail
  obtain ⟨hi, -⟩ := List.getElem?_eq_some_iff.1 htail.elected
  have hn : tail.round = (i : ℤ) + 1 := by rw [htail.round_eq, add_comm]
  have hrec := h.recorded
  have hnat : tail.round.toNat = i + 1 := by omega
  rw [hnat] at hrec
  have hlength : (S.rounds.take (i + 1)).length = i + 1 := by rw [List.length_take, min_eq_left hi]
  have hne : S.rounds.take (i + 1) ≠ [] := by
    rintro hnil
    rw [hnil] at hlength
    cases hlength
  have hleft := timeLeftInRoundBySlots_eq hstart hrec hne hlength.ge (List.take_take.trans (by rw [min_self]))
    clock.timeLeft
  rw [Nat.cast_succ, ← hn] at hleft
  unfold startDpos at hrun
  dsimp only at hrun
  by_cases hstale : clock.curTime - tailTs / second > 2 * tickSeconds
  · rw [if_pos hstale] at hrun
    cases hrun
  rw [if_neg hstale, hleft] at hrun
  change (if timeLeft S a tail clock ≤ 2 then _ else _) = _ at hrun
  by_cases hfew : timeLeft S a tail clock ≤ 2
  · rw [if_pos hfew] at hrun
    obtain ⟨⟨next, ts⟩, hadv, hrun⟩ := except_bind_ok hrun
    have hround : d.roundNumber = (S.rounds.take (i + 1)).length := by
      rw [hlength, h.round, hn, Nat.cast_succ]
    obtain ⟨hnext, L', hrec', htake, hle⟩ := advanceRoundAt_spec hrec hround hadv
    rw [hlength] at hnext htake hle
    have hne' : L' ≠ [] := by
      rintro rfl
      cases hle
    have hplus : next.roundNumber = tail.round + 1 := by rw [hnext, hn, Nat.cast_succ]
    have hstart' := roundStartTime_eq hstart hrec' hne' hle htake
    rw [← hnext] at hstart'
    dsimp only at hrun
    obtain ⟨start, hstart'', hrun⟩ := except_bind_ok hrun
    obtain rfl := Except.ok.inj (hstart'.symm.trans hstart'')
    rw [if_neg (not_not.2 hplus)] at hrun
    obtain rfl := Start.running.inj (Except.ok.inj hrun)
    exact ⟨rfl, .inl ⟨hfew, hplus⟩⟩
  · rw [if_neg hfew] at hrun
    have htake : (S.rounds.take (i + 1)).take i = S.rounds.take i := by
      rw [List.take_take, min_eq_left (Nat.le_succ i)]
    have hstart' := roundStartTime_eq hstart hrec hne (hlength.symm ▸ Nat.le_succ i) htake
    have hround : (i : ℤ) + 1 = d.roundNumber := by rw [h.round, hn]
    rw [hround] at hstart'
    obtain ⟨start, hstart'', hrun⟩ := except_bind_ok hrun
    obtain rfl := Except.ok.inj (hstart'.symm.trans hstart'')
    rw [if_neg (not_not.2 h.round)] at hrun
    obtain rfl := Start.running.inj (Except.ok.inj hrun)
    exact ⟨rfl, .inr ⟨hfew, h.round⟩⟩

/-- The node is in the round of the running nodes, and has its start. -/
structure Agrees (S : Schedule) (t : ℤ) (d : ClockedDpos) : Prop where
  inRound : S.InRound d.roundNumber t
  roundStart : d.roundStartTime.toInt = S.roundStart d.roundNumber

/-- The time at which the node has resumed. -/
def resumedAt (S : Schedule) (a : ℕ) (tail : Minting) (clock : Readings) : ℤ :=
  if timeLeft S a tail clock ≤ 2 then (clock.advance / second).toInt else clock.timeLeft.toInt

/-- **The start is late by as many ticks as the genesis block.** -/
theorem toInt_roundStartTime (h : Synced S a b gts tailTs tail d)
    (hstart : d'.roundStartTime = Int64.ofInt (S.roundStart d'.roundNumber + 5 * a)) :
    d'.roundStartTime.toInt = S.roundStart d'.roundNumber + 5 * a := by
  obtain ⟨m, _, _, _, hm, -⟩ := h.genesis
  rw [hstart]
  exact toInt_start hm.lt_total (total_take_le _ _)

/-- The main tail is in its round. -/
theorem Synced.roundStart_le (h : Synced S a b gts tailTs tail d) : S.roundStart tail.round ≤ tail.time.toInt ∧
    tail.time.toInt ≤ S.roundStart (tail.round + 1) := by
  obtain ⟨i, C, k, htail⟩ := h.mainTail
  have hlt := htail.lt_total
  have hslot := htail.slot_eq
  have hk := (List.getElem?_eq_some_iff.1 htail.mines).1
  have hsucc := total_take_succ htail.elected
  obtain ⟨hlo, hhi⟩ := S.fits
  rw [toInt_second] at hlo hhi
  have htime : tail.time.toInt = S.start + 5 * (b + 1) := by
    rw [htail.time_eq]
    exact Int64.toInt_ofInt_of_le (by omega) (by omega)
  have hround : (tail.round - 1).toNat = i := by
    rw [htail.round_eq]
    omega
  have hnext : (tail.round + 1 - 1).toNat = i + 1 := by
    rw [htail.round_eq]
    omega
  rw [Schedule.roundStart, Schedule.roundStart, hround, hnext, htime]
  omega

/-- The time left that the node counts, if the genesis block was minted at the first tick. -/
theorem toInt_timeLeft (h : Synced S 0 b gts tailTs tail d) (hclock : OnTime S 0 tail clock) :
    (timeLeft S 0 tail clock).toInt = S.roundStart (tail.round + 1) - clock.timeLeft.toInt := by
  have hend := toInt_start (S := S) (a := 0) (n := Rounds.total (S.rounds.take (tail.round + 1 - 1).toNat))
    (by
      obtain ⟨m, _, _, _, hm, -⟩ := h.genesis
      exact hm.lt_total) (total_take_le _ _)
  have hlate := hclock.late
  have hsoon := hclock.soon
  obtain ⟨hround, -⟩ := h.roundStart_le
  obtain ⟨hlo, hhi⟩ := S.fits
  rw [toInt_second] at hlo hhi
  have hlt : Rounds.total (S.rounds.take (tail.round + 1 - 1).toNat) ≤ Rounds.total S.rounds := total_take_le _ _
  rw [timeLeft, Int64.toInt_sub, Schedule.roundStart, hend]
  rw [Schedule.roundStart] at hsoon hround
  simp only [Nat.cast_zero, mul_zero, add_zero]
  exact Int.bmod_eq_of_le (by omega) (by omega)

/-- **A node that starts after a synchronisation agrees with the running nodes** on the round and its start
    exactly if the genesis block was minted at the first tick of all. -/
theorem resumes_iff (h : Synced S a b gts tailTs tail d) (hclock : OnTime S a tail clock)
    (hnext : ∃ C, S.rounds[tail.round.toNat]? = some C ∧ C ≠ [])
    (hrun : startDpos w order bcLength gts tailTs tail.round clock d = .ok (.running d')) :
    Agrees S (resumedAt S a tail clock) d' ↔ a = 0 := by
  obtain ⟨hstart, hround⟩ := startDpos_spec h hrun
  have hint := toInt_roundStartTime h hstart
  constructor
  · intro hagrees
    have := hagrees.roundStart
    omega
  · rintro rfl
    refine ⟨?_, by simpa using hint⟩
    have hleft := toInt_timeLeft h hclock
    have htwo : (2 : Int64).toInt = 2 := rfl
    rw [Int64.le_iff_toInt_le, hleft, htwo] at hround
    obtain ⟨hlo, hhi⟩ := h.roundStart_le
    have hlate := hclock.late
    rw [resumedAt]
    rcases hround with ⟨hfew, hround⟩ | ⟨hmany, hround⟩
    · rw [if_pos (by rwa [Int64.le_iff_toInt_le, hleft, htwo]), hround]
      have hsleeps := hclock.sleeps
      have hzero : (0 : Int64).toInt = 0 := rfl
      rw [Int64.lt_iff_toInt_lt, Int64.le_iff_toInt_le, hleft, htwo, hzero] at hsleeps
      have hafter := hclock.after
      have hadvance := hclock.advance
      obtain ⟨C, hC, hne⟩ := hnext
      have hsucc := total_take_succ hC
      have hpos := List.length_pos_of_ne_nil hne
      obtain ⟨i, _, _, htail⟩ := h.mainTail
      have hr := htail.round_eq
      have hplus : (tail.round + 1 + 1 - 1).toNat = tail.round.toNat + 1 := by omega
      have hminus : (tail.round + 1 - 1).toNat = tail.round.toNat := by omega
      refine ⟨by omega, ?_⟩
      rw [Schedule.roundStart, hminus] at hadvance
      rw [Schedule.roundStart, hplus, hsucc]
      omega
    · rw [if_neg (by rwa [Int64.le_iff_toInt_le, hleft, htwo]), hround]
      exact ⟨by omega, by omega⟩

theorem slot_twoRounds : (10 : ℤ) ∣ 100 := by decide

theorem fits_twoRounds : TimesFit 100 (Rounds.total [["a", "b"], ["a", "b"]]) := ⟨by decide, by decide⟩

/-- Two rounds of `a` and `b`, that start at 100 seconds. -/
def twoRounds : Schedule := ⟨[["a", "b"], ["a", "b"]], 100, slot_twoRounds, fits_twoRounds⟩

/-- A node in the first of the two rounds. -/
def firstRound : ClockedDpos := ⟨⟨1, .newDposState, [], [], [⟨["a", "b"], 1, 2⟩], 2⟩, 0⟩

theorem recorded_firstRound : Recorded [["a", "b"]] firstRound.minerCache :=
  ⟨[.update ["a", "b"] 1], by decide, rfl, rfl⟩

theorem onTime_twoRounds : OnTime twoRounds 0 ⟨1, "b", 115⟩ ⟨116, 116, 116 * second⟩ :=
  ⟨by decide, by decide, by decide, by decide, by decide⟩

/-- The genesis block is the first one of `a`, the main tail the first one of `b`. -/
theorem synced_firstRound : Synced twoRounds 0 2 (105 * second) (115 * second) ⟨1, "b", 115⟩ firstRound where
  genesis := ⟨⟨1, "a", 105⟩, 0, ["a", "b"], 0, ⟨rfl, rfl, rfl, rfl, rfl⟩, rfl⟩
  mainTail := ⟨0, ["a", "b"], 1, ⟨rfl, rfl, rfl, rfl, rfl⟩⟩
  timestamp := rfl
  round := rfl
  recorded := recorded_firstRound

theorem startDpos_firstRound : startDpos Dpos.noAccess Dpos.plainOrder 3 (105 * second) (115 * second) 1
    ⟨116, 116, 116 * second⟩ firstRound = .ok (.running { firstRound with roundStartTime := 100 }) := rfl

theorem resumes_iff_twoRounds : Agrees twoRounds 116 { firstRound with roundStartTime := 100 } :=
  (resumes_iff synced_firstRound onTime_twoRounds ⟨["a", "b"], rfl, by simp⟩ startDpos_firstRound).2 rfl

/-! ## The miner of a moment -/

/-- The position in the committee, at any moment. -/
theorem calcMinerInd_toInt {start ts : Int64} {size : UInt32} {x : ℤ} (hne : size ≠ 0) (hx : (ts - start).toInt = x) :
    ∃ mIndex, calcMinerIndUsingRoundTs start size ts = .ok mIndex ∧ mIndex.toInt = (x.tdiv 10).tmod size.toNat := by
  refine ⟨_, if_neg hne, ?_⟩
  have hsize : (Int64.ofNat size.toNat).toInt = size.toNat := by
    have := size.toNat_lt
    rw [← Int64.ofInt_eq_ofNat]
    exact Int64.toInt_ofInt_of_le (by omega) (by omega)
  rw [Int64.toInt_mod, hsize, Int64.toInt_div_of_ne_right _ _ (by decide), hx]
  rfl

/-- At the time `t` the node counts to the same member of the committee as the running nodes. -/
def NamesMiner (S : Schedule) (d : ClockedDpos) (t : ℤ) : Prop :=
  calcMinerIndUsingRoundTs d.roundStartTime d.committeeSize (Int64.ofInt t) =
    .ok (Int64.ofInt ((t - S.roundStart d.roundNumber) / 10))

/-- Ten seconds into a round that starts late the first member is not done. -/
theorem tmod_late (ha : a ≠ 0) (len : ℤ) : ((10 - 5 * (a : ℤ)).tdiv 10).tmod len ≤ 0 := by
  rcases le_or_gt 0 (10 - 5 * (a : ℤ)) with hpos | hneg
  · rw [Int.tdiv_eq_zero_of_lt hpos (by omega), Int.zero_tmod]
  · have hopp : (10 - 5 * (a : ℤ)).tdiv 10 = -(5 * (a : ℤ) - 10).tdiv 10 := by
      rw [← Int.neg_tdiv, neg_sub]
    rw [hopp, Int.neg_tmod]
    have := Int.tmod_nonneg len (Int.tdiv_nonneg (a := 5 * (a : ℤ) - 10) (b := 10) (by omega) (by decide))
    omega

/-- **The miners that a node names after a synchronisation** are those of the running nodes all over the
    round exactly if the genesis block was minted at the first tick of all, or there is a single miner. -/
theorem namesMiners_iff {C : List Address} (h : Synced S a b gts tailTs tail d)
    (hrun : startDpos w order bcLength gts tailTs tail.round clock d = .ok (.running d'))
    (hC : S.rounds[(d'.roundNumber - 1).toNat]? = some C) (hne : C ≠ [])
    (hcommittee : d'.committeeSize = UInt32.ofNat C.length) :
    (∀ t, S.InRound d'.roundNumber t → NamesMiner S d' t) ↔ a = 0 ∨ C.length = 1 := by
  obtain ⟨hstart, hround⟩ := startDpos_spec h hrun
  have hint := toInt_roundStartTime h hstart
  obtain ⟨m, _, _, _, hm, -⟩ := h.genesis
  have ha := hm.lt_total
  obtain ⟨hlo, hhi⟩ := S.fits
  rw [toInt_second] at hlo hhi
  obtain ⟨i, _, _, htail⟩ := h.mainTail
  have hi := htail.round_eq
  have hnext : (d'.roundNumber + 1 - 1).toNat = (d'.roundNumber - 1).toNat + 1 := by omega
  have hend : S.roundStart (d'.roundNumber + 1) = S.roundStart d'.roundNumber + 10 * C.length := by
    rw [Schedule.roundStart, hnext, total_take_succ hC, Schedule.roundStart]
    push_cast
    ring
  have hfirst : S.start ≤ S.roundStart d'.roundNumber := by
    rw [Schedule.roundStart]
    omega
  have hlast : S.roundStart (d'.roundNumber + 1) ≤ S.start + 10 * Rounds.total S.rounds := by
    have := total_take_le S.rounds (d'.roundNumber + 1 - 1).toNat
    rw [Schedule.roundStart]
    omega
  have hpos := List.length_pos_of_ne_nil hne
  have hsize : (UInt32.ofNat C.length).toNat = C.length := by
    rw [UInt32.toNat_ofNat']
    exact Nat.mod_eq_of_lt (by omega)
  have hsize0 : UInt32.ofNat C.length ≠ 0 := by
    intro hzero
    rw [hzero] at hsize
    exact hpos.ne hsize
  -- the position that the node counts to, ten times over
  have hdif : ∀ t, S.InRound d'.roundNumber t →
      (Int64.ofInt t - d'.roundStartTime).toInt = t - S.roundStart d'.roundNumber - 5 * a := by
    rintro t ⟨hge, hlt⟩
    rw [Int64.toInt_sub, hint, Int64.toInt_ofInt_of_le (by omega) (by omega), sub_sub]
    exact Int.bmod_eq_of_le (by omega) (by omega)
  have hnames : ∀ t, S.InRound d'.roundNumber t → (NamesMiner S d' t ↔
      ((t - S.roundStart d'.roundNumber - 5 * a).tdiv 10).tmod C.length =
        (t - S.roundStart d'.roundNumber) / 10) := by
    intro t ht
    obtain ⟨mIndex, hcalc, hmIndex⟩ := calcMinerInd_toInt (hcommittee ▸ hsize0) (hdif t ht)
    rw [hcommittee, hsize] at hmIndex
    obtain ⟨hge, hlt⟩ := ht
    rw [NamesMiner, hcalc, ← hmIndex, Except.ok.injEq, ← Int64.toInt_inj,
      Int64.toInt_ofInt_of_le (by omega) (by omega)]
  constructor
  · intro hall
    by_contra hnot
    rw [not_or] at hnot
    have hin : S.InRound d'.roundNumber (S.roundStart d'.roundNumber + 10) := ⟨by omega, by omega⟩
    have hten := (hnames _ hin).1 (hall _ hin)
    rw [add_sub_cancel_left] at hten
    have := tmod_late hnot.1 C.length
    omega
  · intro hcase t ht
    rw [hnames t ht]
    obtain ⟨hge, hlt⟩ := ht
    have hquot : 0 ≤ (t - S.roundStart d'.roundNumber) / 10 := by omega
    rcases hcase with rfl | hone
    · rw [Nat.cast_zero, mul_zero, sub_zero, Int.tdiv_eq_ediv_of_nonneg (by omega)]
      exact Int.tmod_eq_of_lt hquot (by omega)
    · rw [hone, Nat.cast_one, Int.tmod_one]
      omega

/-- The same blocks, of which the first one of `b` is the genesis block. -/
theorem synced_late : Synced twoRounds 2 2 (115 * second) (115 * second) ⟨1, "b", 115⟩ firstRound where
  genesis := ⟨⟨1, "b", 115⟩, 0, ["a", "b"], 1, ⟨rfl, rfl, rfl, rfl, rfl⟩, rfl⟩
  mainTail := ⟨0, ["a", "b"], 1, ⟨rfl, rfl, rfl, rfl, rfl⟩⟩
  timestamp := rfl
  round := rfl
  recorded := recorded_firstRound

theorem startDpos_late : startDpos Dpos.noAccess Dpos.plainOrder 3 (115 * second) (115 * second) 1
    ⟨116, 116, 116 * second⟩ firstRound = .ok (.running { firstRound with roundStartTime := 110 }) := rfl

theorem namesMiners_iff_late : ¬ ∀ t, twoRounds.InRound 1 t →
    NamesMiner twoRounds { firstRound with roundStartTime := 110 } t := fun hall => absurd
  ((namesMiners_iff (C := ["a", "b"]) synced_late startDpos_late rfl (by simp) rfl).1 hall) (by decide)

end Services
end Timbre
