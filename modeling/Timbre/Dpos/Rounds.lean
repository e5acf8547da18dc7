/-
  From a round to the next: while the DPOS runs, and when a node catches up.

  `TransitionRound` takes the start of the new round from the clock, `AdvanceRound` from the start
  and the length of the round before.  **Both go through the same rounds** (`catchUpRun_eq`) as
  long as the clock is read within a slot after the end of each round, the times fit in 64 bits
  and no two candidates are banned at once.
-/
import Timbre.Dpos.MiningOrder
import Timbre.Dpos.Snapshot

namespace Timbre

/-! ## The source -/

/-- `time.Second`, in nanoseconds. -/
def second : Int64 := 1000000000

/-- `lastMiningSlot`. -/
def lastMiningSlot (ts : Int64) : Int64 :=
  let now := ts * second
  let last := (now - second) / minerSlotTime * minerSlotTime
  last / second

/-- `committeeTime`. -/
def committeeTime (committeeSize : UInt32) : Int64 := minerSlotTime * Int64.ofNat committeeSize.toNat

/-- `Dpos` with the start of its round, in seconds. -/
structure ClockedDpos extends Dpos where
  roundStartTime : Int64

namespace ClockedDpos

/-- `TransitionRound`, at the time `now`. -/
def transitionRound (w : WalletAccess) (order : CandidateOrder) (bcLength : ℤ) (now : Int64)
    (d : ClockedDpos) : Except Err ClockedDpos := do
  let state := d.state.updateVotePower w
  let committeeCand ← State.sortByVotes bcLength (order.list state.candidates)
  let (nextComSize, state) := Committee.computeNextCommitteeSize state committeeCand
  let elected := Committee.copyCandToNextRoundCommittee committeeCand nextComSize
  let committee := if d.roundNumber = 0 then elected else d.nextRoundCommittee
  let committeeSize := UInt32.ofNat committee.length
  if committeeTime committeeSize = 0 then .error (.panic "No committee member to support network!!")
  else
    let roundStartTime := lastMiningSlot (now + 1)
    let minerCache ← d.minerCache.addOrUpdateMinerEntry (committee.map Candidate.address) (d.roundNumber + 1)
    return ⟨⟨d.roundNumber, state, committee, elected, minerCache, committeeSize⟩, roundStartTime⟩

/-- What `roundTracker` does when a round has ended. -/
def trackRound (w : WalletAccess) (order : CandidateOrder) (bcLength : ℤ) (now : Int64)
    (d : ClockedDpos) : Except Err ClockedDpos := do
  let d ← d.transitionRound w order bcLength now
  return { d with roundNumber := d.roundNumber + 1 }

/-- `AdvanceRound` with the times: the DPOS and the start of the next round, in nanoseconds. -/
def advanceRoundAt (w : WalletAccess) (order : CandidateOrder) (bcLength : ℤ) (startTime : Int64)
    (d : ClockedDpos) : Except Err (ClockedDpos × Int64) := do
  let next ← d.toDpos.advanceRound w order bcLength
  if next.committeeSize = 0 then return (⟨next, d.roundStartTime⟩, 0)
  else
    let nextRoundTs := startTime + committeeTime next.committeeSize
    return (⟨next, startTime / second⟩, nextRoundTs)

end ClockedDpos

/-! ## Runs -/

/-- A change of the candidates between two rounds. -/
inductive CandidateChange where
  | register (id : Address)
  | resign (id : Address)

/-- A registration or a resignation that is refused changes nothing. -/
def CandidateChange.apply (s : State) : CandidateChange → State
  | register id => match s.registerCand id with
    | .ok s' => s'
    | .error _ => s
  | resign id => match s.quitCandidate id with
    | .ok s' => s'
    | .error _ => s

/-- What happens from a round to the next: the changes of the candidates, the wallets and the length
    of the chain when the new round begins, and the clock then, in seconds. -/
structure RoundStep where
  changes : List CandidateChange
  wallets : WalletAccess
  bcLength : ℤ
  clock : Int64

namespace RoundStep

/-- The DPOS after the changes of the candidates. -/
def changed (step : RoundStep) (d : ClockedDpos) : ClockedDpos :=
  { d with state := step.changes.foldl CandidateChange.apply d.state }

/-- The new round while the DPOS runs. -/
def live (order : CandidateOrder) (step : RoundStep) (d : ClockedDpos) : Except Err ClockedDpos :=
  (step.changed d).trackRound step.wallets order step.bcLength step.clock

/-- The new round when the node catches up, from the start time returned for it. -/
def catchUp (order : CandidateOrder) (step : RoundStep) (p : ClockedDpos × Int64) :
    Except Err (ClockedDpos × Int64) :=
  (step.changed p.1).advanceRoundAt step.wallets order step.bcLength p.2

/-- The candidates when the new round begins. -/
def state (step : RoundStep) (d : ClockedDpos) : State :=
  (step.changed d).state.updateVotePower step.wallets

end RoundStep

/-- Rounds one after the other while the DPOS runs, the map being in another order in each. -/
def liveRun (orders : ℕ → CandidateOrder) : ℕ → List RoundStep → ClockedDpos → Except Err ClockedDpos
  | _, [], d => .ok d
  | i, step :: steps, d => do liveRun orders (i + 1) steps (← step.live (orders i) d)

/-- Rounds one after the other when the node catches up. -/
def catchUpRun (orders : ℕ → CandidateOrder) :
    ℕ → List RoundStep → ClockedDpos × Int64 → Except Err (ClockedDpos × Int64)
  | _, [], p => .ok p
  | i, step :: steps, p => do catchUpRun orders (i + 1) steps (← step.catchUp (orders i) p)

namespace ClockedDpos

/-- The end of the round, in seconds. -/
def roundEnd (d : ClockedDpos) : ℤ := d.roundStartTime.toInt + 10 * d.committeeSize.toNat

/-- The end of the round as a time in nanoseconds. -/
def roundEndTs (d : ClockedDpos) : Int64 := Int64.ofInt (d.roundEnd * second.toInt)

end ClockedDpos

/-- The clock is read less than a slot after the end of the round, and the committee of the new
    round, as the code counts it, is not empty. -/
structure Scheduled (order : CandidateOrder) (d : ClockedDpos) (step : RoundStep) : Prop where
  late : d.roundEnd ≤ step.clock.toInt
  soon : step.clock.toInt < d.roundEnd + 10
  elected : d.roundNumber = 0 → ∀ committee,
    Committee.electNextCommittee (step.state d) step.bcLength (order.list (step.state d).candidates) = .ok committee →
      UInt32.ofNat committee.length ≠ 0
  members : d.roundNumber ≠ 0 → UInt32.ofNat d.nextRoundCommittee.length ≠ 0

/-- The times are nanoseconds since 1970 in 64 bits, and at most one candidate is banned. -/
structure SoundRound (d : ClockedDpos) (step : RoundStep) : Prop where
  since : 0 ≤ d.roundEnd
  fits : (step.clock.toInt + 1) * second.toInt < 2 ^ 63
  fewBanned : step.bcLength = 0 ∨
    (step.state d).candidates.countP (fun c => State.Banned step.bcLength c) ≤ 1

/-- The rounds are on schedule and meet the condition. -/
def SoundRounds (orders : ℕ → CandidateOrder) : ℕ → List RoundStep → ClockedDpos → Prop
  | _, [], _ => True
  | i, step :: steps, d => Scheduled (orders i) d step ∧ SoundRound d step ∧
      ∀ d', step.live (orders i) d = .ok d' → SoundRounds orders (i + 1) steps d'

/-! ## Slots of the clock -/

theorem toInt_second : second.toInt = 1000000000 := rfl

theorem ofInt_div {a b : ℤ} (ha : 0 ≤ a) (ha' : a < 2 ^ 63) (hb : 0 < b) (hb' : b < 2 ^ 63) :
    Int64.ofInt a / Int64.ofInt b = Int64.ofInt (a / b) := by
  have hnonneg : 0 ≤ a / b := Int.ediv_nonneg ha hb.le
  have hle : a / b ≤ a := Int.ediv_le_self b ha
  rw [← Int64.toInt_inj, Int64.toInt_div, Int64.toInt_ofInt_of_le (by omega) ha',
    Int64.toInt_ofInt_of_le (by omega) hb', Int64.toInt_ofInt_of_le (by omega) (by omega),
    Int.tdiv_eq_ediv_of_nonneg ha, Int.bmod_eq_of_le (by omega) (by omega)]

/-- Whole seconds, from nanoseconds. -/
theorem ofInt_div_second {n : ℤ} (hn : 0 ≤ n) (hfit : n * second.toInt < 2 ^ 63) :
    Int64.ofInt (n * second.toInt) / second = Int64.ofInt n := by
  have hdiv := ofInt_div (Int.mul_nonneg hn (by decide)) hfit (show 0 < second.toInt by decide) (by decide)
  rwa [Int64.ofInt_toInt, Int.mul_ediv_cancel _ (by decide)] at hdiv

/-- A time in whole seconds is rounded down to a multiple of `q` seconds. -/
theorem ofInt_floor {n q : ℤ} (hn : 0 ≤ n) (hfit : n * second.toInt < 2 ^ 63) (hq : 0 < q)
    (hq' : q * second.toInt < 2 ^ 63) :
    Int64.ofInt (n * second.toInt) / Int64.ofInt (q * second.toInt) * Int64.ofInt (q * second.toInt) / second =
      Int64.ofInt (n / q * q) := by
  have hsec := toInt_second
  have hnonneg : 0 ≤ n / q := Int.ediv_nonneg hn hq.le
  have hle : n / q * q ≤ n := Int.ediv_mul_le n hq.ne'
  rw [ofInt_div (Int.mul_nonneg hn (by decide)) hfit (Int.mul_pos hq (by decide)) hq',
    Int.mul_ediv_mul_of_pos_left n q (by decide), ← Int64.ofInt_mul,
    ← mul_assoc]
  exact ofInt_div_second (Int.mul_nonneg hnonneg hq.le) (by rw [hsec] at hfit ⊢; omega)

theorem lastMiningSlot_spec {ts : Int64} (hts : 1 ≤ ts.toInt) (hfit : ts.toInt * second.toInt < 2 ^ 63) :
    lastMiningSlot ts = Int64.ofInt ((ts.toInt - 1) / 10 * 10) := by
  have hsec := toInt_second
  have hnow : ts * second - second = Int64.ofInt ((ts.toInt - 1) * second.toInt) := by
    rw [sub_mul, one_mul, Int64.ofInt_sub, Int64.ofInt_mul, Int64.ofInt_toInt, Int64.ofInt_toInt]
  rw [← ofInt_floor (by omega) (by rw [hsec] at hfit ⊢; omega) (by decide) (by decide), ← hnow]
  rfl

theorem committeeTime_eq (size : UInt32) : committeeTime size = Int64.ofInt (10 * size.toNat * second.toInt) := by
  rw [committeeTime, ← Int64.ofInt_eq_ofNat, mul_right_comm, Int64.ofInt_mul]
  rfl

/-- The length of a round is 0 only without a committee. -/
theorem committeeTime_eq_zero {size : UInt32} (h : committeeTime size = 0) : size = 0 := by
  rw [committeeTime_eq, ← Int64.toInt_inj, Int64.toInt_ofInt, Int64.toInt_zero, toInt_second] at h
  have hdvd : 1024 * 2 ^ 54 ∣ 1024 * (9765625 * size.toNat) := by
    have hint := Int.dvd_of_bmod_eq_zero h
    rw [show (10 * size.toNat * 1000000000 : ℤ) = ((1024 * (9765625 * size.toNat) : ℕ) : ℤ) by push_cast; ring] at hint
    exact Int.natCast_dvd_natCast.1 hint
  have hodd : Nat.Coprime (2 ^ 54) 9765625 := Nat.Coprime.pow_left 54 (by decide)
  have hn : 2 ^ 54 ∣ size.toNat := hodd.dvd_of_dvd_mul_left (Nat.dvd_of_mul_dvd_mul_left (by decide) hdvd)
  rw [← UInt32.toNat_inj, UInt32.toNat_zero]
  exact Nat.eq_zero_of_dvd_of_lt hn (size.toNat_lt.trans (by decide))

/-! ## The rounds -/

namespace ClockedDpos

variable {d d' : ClockedDpos} {w : WalletAccess} {order order' : CandidateOrder} {step : RoundStep}
  {now : Int64}

/-- Both start times of a round are the end of the round before. -/
theorem startTimes (hslot : 10 ∣ d.roundStartTime.toInt) (hlate : d.roundEnd ≤ now.toInt)
    (hsoon : now.toInt < d.roundEnd + 10) (hsince : 0 ≤ d.roundEnd)
    (hfits : (now.toInt + 1) * second.toInt < 2 ^ 63) :
    lastMiningSlot (now + 1) = Int64.ofInt d.roundEnd ∧ d.roundEndTs / second = Int64.ofInt d.roundEnd := by
  have hten : 10 ∣ d.roundEnd := Int.dvd_add hslot (Int.dvd_mul_right _ _)
  have hfits' := hfits
  rw [toInt_second] at hfits'
  have hnow : (now + 1).toInt = now.toInt + 1 := by
    rw [Int64.toInt_add]
    exact Int.bmod_eq_of_le (by simp; omega) (by simp; omega)
  refine ⟨?_, ofInt_div_second hsince (by rw [toInt_second]; omega)⟩
  rw [lastMiningSlot_spec (by omega) (by rwa [hnow]), hnow]
  congr 1
  omega

/-- The ranking of the candidates once their votes are those of the wallets. -/
def ranked (w : WalletAccess) (bcLength : ℤ) (d : ClockedDpos) : List Candidate :=
  (d.state.updateVotePower w).ranking bcLength

/-- The committee of the new round. -/
def newCommittee (w : WalletAccess) (bcLength : ℤ) (d : ClockedDpos) : List Candidate :=
  if d.roundNumber = 0 then
    Committee.copyCandToNextRoundCommittee (d.ranked w bcLength)
      (Committee.computeNextCommitteeSize (d.state.updateVotePower w) (d.ranked w bcLength)).1
  else d.nextRoundCommittee

/-- **The two ways into a round** differ in the start time alone. -/
theorem trackRound_eq {bcLength : ℤ} (hfew : bcLength = 0 ∨
      (d.state.updateVotePower w).candidates.countP (fun c => State.Banned bcLength c) ≤ 1)
    (hne : UInt32.ofNat (d.newCommittee w bcLength).length ≠ 0) (order order' : CandidateOrder) :
    d.trackRound w order bcLength now =
      (d.toDpos.advanceRound w order' bcLength).map fun next => ⟨next, lastMiningSlot (now + 1)⟩ := by
  have hround : (d.roundNumber + 1 = 1) = (d.roundNumber = 0) := propext (by omega)
  have htime : committeeTime (UInt32.ofNat (d.newCommittee w bcLength).length) ≠ 0 := fun h =>
    hne (committeeTime_eq_zero h)
  unfold newCommittee ranked at hne htime
  simp only [trackRound, transitionRound, Dpos.advanceRound, hround,
    State.sortByVotes_spec (order.perm _) hfew, State.sortByVotes_spec (order'.perm _) hfew]
  simp only [bind, Except.bind]
  rw [if_neg htime, if_neg hne]
  cases d.minerCache.addOrUpdateMinerEntry _ (d.roundNumber + 1) with
  | error e => rfl
  | ok cache => rfl

theorem committeeSize_advanceRound {bcLength : ℤ} {next : Dpos} (hfew : bcLength = 0 ∨
      (d.state.updateVotePower w).candidates.countP (fun c => State.Banned bcLength c) ≤ 1)
    (hne : UInt32.ofNat (d.newCommittee w bcLength).length ≠ 0)
    (hnext : d.toDpos.advanceRound w order bcLength = .ok next) :
    next.committeeSize = UInt32.ofNat (d.newCommittee w bcLength).length := by
  have hround : (d.roundNumber + 1 = 1) = (d.roundNumber = 0) := propext (by omega)
  unfold newCommittee ranked at hne ⊢
  simp only [Dpos.advanceRound, hround, State.sortByVotes_spec (order.perm _) hfew] at hnext
  simp only [bind, Except.bind] at hnext
  rw [if_neg hne] at hnext
  split at hnext
  · cases hnext
  · rw [← Except.ok.inj hnext]

theorem newCommittee_ne {order : CandidateOrder} (hsched : Scheduled order d step) (hsound : SoundRound d step) :
    UInt32.ofNat ((step.changed d).newCommittee step.wallets step.bcLength).length ≠ 0 := by
  have hround : (step.changed d).roundNumber = d.roundNumber := rfl
  unfold newCommittee
  by_cases h0 : d.roundNumber = 0
  · rw [hround, if_pos h0]
    refine hsched.elected h0 _ ?_
    rw [Committee.electNextCommittee, State.sortByVotes_spec (order.perm _) hsound.fewBanned]
    rfl
  · rw [hround, if_neg h0]
    exact hsched.members h0

theorem toInt_roundEnd (hsched : Scheduled order d step) (hsound : SoundRound d step) :
    (Int64.ofInt d.roundEnd).toInt = d.roundEnd := by
  have hlate := hsched.late
  have hsince := hsound.since
  have hfits := hsound.fits
  rw [toInt_second] at hfits
  exact Int64.toInt_ofInt_of_le (by omega) (by omega)

/-- **One round**: catching up ends where the running DPOS is, with the end of the new round. -/
theorem catchUp_eq (hslot : 10 ∣ d.roundStartTime.toInt) (hsched : Scheduled order d step)
    (hsound : SoundRound d step) (order' : CandidateOrder) :
    step.catchUp order' (d, d.roundEndTs) = (step.live order d).map fun d' => (d', d'.roundEndTs) := by
  obtain ⟨hlive, hcatch⟩ := startTimes hslot hsched.late hsched.soon hsound.since hsound.fits
  have hne := newCommittee_ne hsched hsound
  rw [RoundStep.live, trackRound_eq hsound.fewBanned hne order order', hlive, RoundStep.catchUp, advanceRoundAt]
  cases hnext : (step.changed d).toDpos.advanceRound step.wallets order' step.bcLength with
  | error e => rfl
  | ok next =>
    have hsize : next.committeeSize ≠ 0 := by
      rwa [committeeSize_advanceRound (d := step.changed d) hsound.fewBanned hne hnext]
    have hround : roundEnd ⟨next, Int64.ofInt d.roundEnd⟩ = d.roundEnd + 10 * next.committeeSize.toNat :=
      congrArg (· + _) (toInt_roundEnd hsched hsound)
    have hend : d.roundEndTs + committeeTime next.committeeSize = roundEndTs ⟨next, Int64.ofInt d.roundEnd⟩ := by
      rw [committeeTime_eq, roundEndTs, roundEndTs, hround, ← Int64.ofInt_add, ← add_mul]
    show (if next.committeeSize = 0 then _ else _) = _
    rw [if_neg hsize, hcatch, hend]
    rfl

/-- The new round starts with a slot. -/
theorem live_start (hslot : 10 ∣ d.roundStartTime.toInt) (hsched : Scheduled order d step)
    (hsound : SoundRound d step) (hd : step.live order d = .ok d') : 10 ∣ d'.roundStartTime.toInt := by
  obtain ⟨hlive, -⟩ := startTimes hslot hsched.late hsched.soon hsound.since hsound.fits
  have hne := newCommittee_ne hsched hsound
  rw [RoundStep.live, trackRound_eq hsound.fewBanned hne order order, hlive] at hd
  cases hnext : (step.changed d).toDpos.advanceRound step.wallets order step.bcLength with
  | error e =>
    rw [hnext] at hd
    cases hd
  | ok next =>
    rw [hnext] at hd
    obtain rfl := Except.ok.inj hd
    show 10 ∣ (Int64.ofInt d.roundEnd).toInt
    rw [toInt_roundEnd hsched hsound]
    exact Int.dvd_add hslot (Int.dvd_mul_right _ _)

end ClockedDpos

/-- **Catching up goes through the rounds of the running DPOS**: in any number of rounds that are on
    schedule and meet the condition, whatever the orders of the maps, it ends with the same DPOS and
    the same start of the round, or with the same error. -/
theorem catchUpRun_eq (orders orders' : ℕ → CandidateOrder) : ∀ (i : ℕ) (steps : List RoundStep)
    (d : ClockedDpos), 10 ∣ d.roundStartTime.toInt → SoundRounds orders i steps d →
      catchUpRun orders' i steps (d, d.roundEndTs) =
        (liveRun orders i steps d).map fun d' => (d', d'.roundEndTs)
  | _, [], _, _, _ => rfl
  | i, step :: steps, d, hslot, hsound => by
    obtain ⟨hsched, hround, hrest⟩ := hsound
    have hstep := ClockedDpos.catchUp_eq hslot hsched hround (orders' i)
    have hcatch : catchUpRun orders' i (step :: steps) (d, d.roundEndTs) =
        step.catchUp (orders' i) (d, d.roundEndTs) >>= catchUpRun orders' (i + 1) steps := rfl
    have hlive : liveRun orders i (step :: steps) d =
        step.live (orders i) d >>= liveRun orders (i + 1) steps := rfl
    rw [hcatch, hlive, hstep]
    cases hd : step.live (orders i) d with
    | error e => rfl
    | ok d' =>
      have hslot' := ClockedDpos.live_start hslot hsched hround hd
      exact catchUpRun_eq orders orders' (i + 1) steps d' hslot' (hrest d' hd)

/-! ## Three candidates -/

def threeState : State :=
  ⟨⟨[⟨"a", "a", 0, -1⟩, ⟨"b", "b", 0, -1⟩, ⟨"c", "c", 0, -1⟩], by unfold List.NodupKeys; decide⟩, 0, 0, by decide⟩

/-- Wallets in which `banned` candidates are banned till height 9. -/
def banAccess (banned : List Address) : WalletAccess where
  getRegisteredCandidates := ["a", "b", "c"]
  getCandVotePower a := .ok (5, if a ∈ banned then 9 else -1)
  nodup := by decide
  registered _ _ := rfl

/-- The DPOS before the first round. -/
def threeDpos : ClockedDpos := ⟨⟨0, threeState, [], [], [], 0⟩, 100⟩

/-- The first round begins at height 7, three seconds late. -/
def threeStep (banned : List Address) : RoundStep := ⟨[], banAccess banned, 7, 103⟩

def storedOrder : CandidateOrder := ⟨id, List.Perm.refl⟩
def reverseOrder : CandidateOrder := ⟨List.reverse, List.reverse_perm⟩

theorem scheduled_three {banned : List Address} {n : ℕ}
    (h : (Committee.electNextCommittee ((threeStep banned).state threeDpos) 7
      ((threeStep banned).state threeDpos).candidates).toOption.map List.length = some n)
    (hn : UInt32.ofNat n ≠ 0) : Scheduled storedOrder threeDpos (threeStep banned) where
  late := show threeDpos.roundEnd ≤ Int64.toInt 103 by decide
  soon := show Int64.toInt 103 < threeDpos.roundEnd + 10 by decide
  elected _ committee hel := by
    have hel' : Committee.electNextCommittee ((threeStep banned).state threeDpos) 7
        ((threeStep banned).state threeDpos).candidates = .ok committee := hel
    rw [hel'] at h
    rwa [Option.some.inj h]
  members h := absurd rfl h

/-- One of the three is banned. -/
theorem catchUpRun_eq_three :
    catchUpRun (fun _ => reverseOrder) 0 [threeStep ["a"]] (threeDpos, threeDpos.roundEndTs) =
      (liveRun (fun _ => storedOrder) 0 [threeStep ["a"]] threeDpos).map fun d' => (d', d'.roundEndTs) :=
  catchUpRun_eq (fun _ => storedOrder) (fun _ => reverseOrder) 0 [threeStep ["a"]] threeDpos (by decide)
    ⟨scheduled_three (n := 2) (by decide) (by decide),
      ⟨by decide, by decide, .inr (by decide)⟩, fun _ _ => trivial⟩

/-- Two of the three are banned: in one order of the map a round begins, in the other one the removal
    panics. -/
theorem not_catchUpRun_eq : 10 ∣ threeDpos.roundStartTime.toInt ∧
    Scheduled storedOrder threeDpos (threeStep ["a", "b"]) ∧
    catchUpRun (fun _ => reverseOrder) 0 [threeStep ["a", "b"]] (threeDpos, threeDpos.roundEndTs) ≠
      (liveRun (fun _ => storedOrder) 0 [threeStep ["a", "b"]] threeDpos).map fun d' => (d', d'.roundEndTs) := by
  refine ⟨by decide, scheduled_three (n := 2) (by decide) (by decide), fun heq => ?_⟩
  have hlive : (liveRun (fun _ => storedOrder) 0 [threeStep ["a", "b"]] threeDpos).toOption.isSome = true := by
    decide
  have hcatch : (catchUpRun (fun _ => reverseOrder) 0 [threeStep ["a", "b"]]
      (threeDpos, threeDpos.roundEndTs)).toOption.isSome = false := by
    decide
  rw [heq] at hcatch
  cases hl : liveRun (fun _ => storedOrder) 0 [threeStep ["a", "b"]] threeDpos with
  | error e =>
    rw [hl] at hlive
    cases hlive
  | ok d =>
    rw [hl] at hcatch
    cases hcatch

end Timbre
