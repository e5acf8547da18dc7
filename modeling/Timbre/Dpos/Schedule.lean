/-
  The schedule of the mintings, and whether the validator accepts it.

  The scheduler takes the miner of a slot, and the two times at which it mints, from the clock and
  the start of the round; the validator counts the slots since the genesis block.  **They agree
  when the genesis block is minted in the first slot of all**; when it is minted later every block
  of a later slot seems to come early (`schedule_accepted_iff`).
-/
import Timbre.Dpos.Rounds

namespace Timbre

/-! ## The source -/

/-- `nextTickSlot`. -/
def nextTickSlot (ts : Int64) : Int64 :=
  let now := ts * second
  let next := (now + miningTickInterval) / miningTickInterval * miningTickInterval
  next / second

/-- `nextMiningSlot`. -/
def nextMiningSlot (ts : Int64) : Int64 :=
  let now := ts * second
  let next := (now + minerSlotTime) / minerSlotTime * minerSlotTime
  next / second

/-- `calcMinerIndUsingRoundTs`. -/
def calcMinerIndUsingRoundTs (roundStartTime : Int64) (committeeSize : UInt32) (ts : Int64) : Except Err Int64 :=
  let timeDif := ts - roundStartTime
  if committeeSize = 0 then .error (.panic "integer divide by zero")
  else .ok (timeDif / 10 % Int64.ofNat committeeSize.toNat)

/-- The miner of the slot that begins at `ts`, as `loop` takes it from the committee. -/
def slotMiner (committee : List Address) (roundStartTime ts : Int64) : Except Err Address := do
  let mIndex ← calcMinerIndUsingRoundTs roundStartTime (UInt32.ofNat committee.length) ts
  match committee[mIndex.toInt.toNat]? with
  | some miner => return miner
  | none => .error (.panic "index out of range")

/-- A block that is due: its round, its miner, and the time in seconds. -/
structure Minting where
  round : ℤ
  miner : Address
  time : Int64
deriving DecidableEq, Repr

/-- The blocks of `n` slots of a round, the next slot beginning at `ts`: one at each tick. -/
def slotMintings (round : ℤ) (committee : List Address) (roundStartTime : Int64) :
    ℕ → Int64 → Except Err (List Minting)
  | 0, _ => return []
  | n + 1, ts => do
    let miner ← slotMiner committee roundStartTime ts
    let tick := nextTickSlot ts
    let mintings ← slotMintings round committee roundStartTime n (nextMiningSlot ts)
    return ⟨round, miner, tick⟩ :: ⟨round, miner, nextTickSlot tick⟩ :: mintings

/-- The blocks of the rounds from `round` on, which start one after the other at `startTime`. -/
def roundMintings : ℤ → Int64 → MinerCache.Rounds → Except Err (List Minting)
  | _, _, [] => return []
  | round, startTime, committee :: L => do
    let slots ← slotMintings round committee startTime committee.length startTime
    let mintings ← roundMintings (round + 1) (startTime + 10 * Int64.ofNat committee.length) L
    return slots ++ mintings

/-! ## The schedule -/

namespace MinerCache.Rounds

/-- The number of slots of the rounds `L`. -/
def total (L : Rounds) : ℕ := (L.map List.length).sum

end MinerCache.Rounds

open MinerCache

variable {L : Rounds} {round : ℤ} {committee : List Address} {n k i : ℕ} {T : ℤ}

/-- The seconds from `T` on, for `n` slots, are nanoseconds in 64 bits. -/
def TimesFit (T : ℤ) (n : ℕ) : Prop := -2 ^ 63 ≤ T * second.toInt ∧ (T + 10 * n) * second.toInt < 2 ^ 63

theorem ofInt_exact {q b : ℤ} (hb : 0 < b) (hb' : b < 2 ^ 63) (hlo : -2 ^ 63 ≤ q * b) (hhi : q * b < 2 ^ 63) :
    Int64.ofInt (q * b) / Int64.ofInt b = Int64.ofInt q := by
  have hq : -2 ^ 63 ≤ q ∧ q < 2 ^ 63 := by
    constructor <;> nlinarith
  rw [← Int64.toInt_inj, Int64.toInt_div, Int64.toInt_ofInt_of_le hlo hhi, Int64.toInt_ofInt_of_le (by omega) hb',
    Int64.toInt_ofInt_of_le hq.1 hq.2, Int.mul_tdiv_cancel q hb.ne',
    Int.bmod_eq_of_le (by simp; omega) (by simp; omega)]

/-- A time that is a multiple of `b` seconds is the start of a slot of `b` seconds. -/
theorem ofInt_slot {t b : ℤ} (hb : 0 < b) (hb' : b * second.toInt < 2 ^ 63) (hdvd : b ∣ t)
    (hlo : -2 ^ 63 ≤ t * second.toInt) (hhi : t * second.toInt < 2 ^ 63) :
    Int64.ofInt (t * second.toInt) / Int64.ofInt (b * second.toInt) * Int64.ofInt (b * second.toInt) / second =
      Int64.ofInt t := by
  obtain ⟨q, rfl⟩ := hdvd
  have hmul : b * q * second.toInt = q * (b * second.toInt) := by ring
  have hpos : 0 < b * second.toInt := Int.mul_pos hb (by decide)
  have hsecond := ofInt_exact (q := b * q) (show 0 < second.toInt by decide) (by decide) hlo hhi
  rw [Int64.ofInt_toInt] at hsecond
  rw [hmul] at hlo hhi ⊢
  rw [ofInt_exact hpos hb' hlo hhi, ← Int64.ofInt_mul, ← hmul, hsecond]

theorem nextTickSlot_ofInt {t : ℤ} (hdvd : 5 ∣ t) (hlo : -2 ^ 63 ≤ t * second.toInt)
    (hhi : (t + 5) * second.toInt < 2 ^ 63) : nextTickSlot (Int64.ofInt t) = Int64.ofInt (t + 5) := by
  have hnow : Int64.ofInt t * second + miningTickInterval = Int64.ofInt ((t + 5) * second.toInt) := by
    rw [add_mul, Int64.ofInt_add, Int64.ofInt_mul, Int64.ofInt_toInt]
    rfl
  rw [← ofInt_slot (by decide) (by decide) (Int.dvd_add hdvd (dvd_refl 5))
    (by rw [toInt_second] at *; omega) hhi, ← hnow]
  rfl

theorem nextMiningSlot_ofInt {t : ℤ} (hdvd : 10 ∣ t) (hlo : -2 ^ 63 ≤ t * second.toInt)
    (hhi : (t + 10) * second.toInt < 2 ^ 63) : nextMiningSlot (Int64.ofInt t) = Int64.ofInt (t + 10) := by
  have hnow : Int64.ofInt t * second + minerSlotTime = Int64.ofInt ((t + 10) * second.toInt) := by
    rw [add_mul, Int64.ofInt_add, Int64.ofInt_mul, Int64.ofInt_toInt]
    rfl
  rw [← ofInt_slot (by decide) (by decide) (Int.dvd_add hdvd (dvd_refl 10))
    (by rw [toInt_second] at *; omega) hhi, ← hnow]
  rfl

/-- In slot `k` of its round the position of the miner is `k`. -/
theorem calcMinerInd_ofInt {size : UInt32} (hk : k < size.toNat) (hfit : TimesFit T size.toNat) :
    calcMinerIndUsingRoundTs (Int64.ofInt T) size (Int64.ofInt (T + 10 * k)) = .ok (Int64.ofNat k) := by
  obtain ⟨hlo, hhi⟩ := hfit
  rw [toInt_second] at hlo hhi
  have hne : size ≠ 0 := by
    rintro rfl
    simp at hk
  have hdif : Int64.ofInt (T + 10 * k) - Int64.ofInt T = Int64.ofInt (10 * k) := by
    rw [← Int64.ofInt_sub, add_sub_cancel_left]
  have hdiv : Int64.ofInt (k * 10) / Int64.ofInt 10 = Int64.ofInt k :=
    ofInt_exact (by decide) (by decide) (by omega) (by omega)
  rw [calcMinerIndUsingRoundTs, if_neg hne, hdif, mul_comm]
  refine congrArg Except.ok ?_
  show Int64.ofInt (k * 10) / Int64.ofInt 10 % Int64.ofNat size.toNat = _
  rw [hdiv, ← Int64.ofInt_eq_ofNat, ← Int64.ofInt_eq_ofNat, ← Int64.toInt_inj, Int64.toInt_mod,
    Int64.toInt_ofInt_of_le (by omega) (by omega), Int64.toInt_ofInt_of_le (by omega) (by omega)]
  exact Int.tmod_eq_of_lt (by omega) (by omega)

theorem length_lt_of_timesFit (hfit : TimesFit T n) : n < 2 ^ 32 := by
  obtain ⟨hlo, hhi⟩ := hfit
  rw [toInt_second] at hlo hhi
  omega

theorem slotMiner_ofInt {miner : Address} (hk : committee[k]? = some miner)
    (hfit : TimesFit T committee.length) :
    slotMiner committee (Int64.ofInt T) (Int64.ofInt (T + 10 * k)) = .ok miner := by
  obtain ⟨hlt, -⟩ := List.getElem?_eq_some_iff.1 hk
  have hsize : (UInt32.ofNat committee.length).toNat = committee.length := by
    have := length_lt_of_timesFit hfit
    simp
    omega
  have hlen := length_lt_of_timesFit hfit
  rw [slotMiner, calcMinerInd_ofInt (by rwa [hsize]) (by rwa [hsize])]
  show (match committee[(Int64.ofNat k).toInt.toNat]? with
    | some miner => Except.ok miner
    | none => Except.error (Err.panic "index out of range")) = _
  rw [← Int64.ofInt_eq_ofNat, Int64.toInt_ofInt_of_le (by omega) (by omega), Int.toNat_natCast, hk]

/-- Where minting number `x` of the rounds `L`, which are counted from `round` on and start at
    `T`, has its place. -/
structure Placed (L : Rounds) (round T : ℤ) (x : ℕ) (m : Minting) (i : ℕ) (committee : List Address) (k : ℕ) :
    Prop where
  elected : L[i]? = some committee
  mines : committee[k]? = some m.miner
  round_eq : m.round = round + i
  time_eq : m.time = Int64.ofInt (T + 5 * (x + 1))
  slot_eq : x / 2 = Rounds.total (L.take i) + k

/-- The mintings of a round: two in each slot, every five seconds. -/
theorem slotMintings_spec (hT : 10 ∣ T) (hfit : TimesFit T committee.length) : ∀ n k, k + n = committee.length →
    ∃ ms, slotMintings round committee (Int64.ofInt T) n (Int64.ofInt (T + 10 * k)) = .ok ms ∧
      ms.length = 2 * n ∧ ∀ x m, ms[x]? = some m →
        committee[k + x / 2]? = some m.miner ∧ m.round = round ∧ m.time = Int64.ofInt (T + 10 * k + 5 * (x + 1))
  | 0, k, _ => ⟨[], rfl, rfl, fun x m hx => by simp at hx⟩
  | n + 1, k, hk => by
    obtain ⟨miner, hminer⟩ : ∃ miner, committee[k]? = some miner := ⟨_, List.getElem?_eq_getElem (by omega)⟩
    obtain ⟨ms, hms, hlen, hget⟩ := slotMintings_spec hT hfit n (k + 1) (by omega)
    obtain ⟨hlo, hhi⟩ := hfit
    rw [toInt_second] at hlo hhi
    have hslot : (10 : ℤ) ∣ T + 10 * k := Int.dvd_add hT (Int.dvd_mul_right _ _)
    have hfirst : nextTickSlot (Int64.ofInt (T + 10 * k)) = Int64.ofInt (T + 10 * k + 5) :=
      nextTickSlot_ofInt ((by decide : (5 : ℤ) ∣ 10).trans hslot) (by rw [toInt_second]; omega)
        (by rw [toInt_second]; omega)
    have hsecond : nextTickSlot (Int64.ofInt (T + 10 * k + 5)) = Int64.ofInt (T + 10 * k + 5 + 5) :=
      nextTickSlot_ofInt (by omega) (by rw [toInt_second]; omega) (by rw [toInt_second]; omega)
    have hnext : nextMiningSlot (Int64.ofInt (T + 10 * k)) = Int64.ofInt (T + 10 * ((k + 1 : ℕ) : ℤ)) := by
      rw [nextMiningSlot_ofInt hslot (by rw [toInt_second]; omega) (by rw [toInt_second]; omega)]
      push_cast
      ring_nf
    refine ⟨⟨round, miner, Int64.ofInt (T + 10 * k + 5)⟩ :: ⟨round, miner, Int64.ofInt (T + 10 * k + 5 + 5)⟩ :: ms,
      ?_, by simp only [List.length_cons]; omega, ?_⟩
    · rw [slotMintings, slotMiner_ofInt hminer ⟨by rw [toInt_second]; omega, by rw [toInt_second]; omega⟩, hnext,
        hms]
      show Except.ok (⟨round, miner, nextTickSlot (Int64.ofInt (T + 10 * k))⟩ ::
        ⟨round, miner, nextTickSlot (nextTickSlot (Int64.ofInt (T + 10 * k)))⟩ :: ms) = _
      rw [hfirst, hsecond]
    · rintro (_ | _ | x) m hx
      · obtain rfl := Option.some.inj hx
        exact ⟨hminer, rfl, by simp⟩
      · obtain rfl := Option.some.inj hx
        refine ⟨hminer, rfl, ?_⟩
        show Int64.ofInt (T + 10 * k + 5 + 5) = _
        push_cast
        ring_nf
      · obtain ⟨hm, hr, ht⟩ := hget x m hx
        refine ⟨?_, hr, ?_⟩
        · rwa [show k + (x + 1 + 1) / 2 = k + 1 + x / 2 by omega]
        · rw [ht]
          push_cast
          ring_nf

/-- **The mintings of the rounds**: one every five seconds, two in each slot. -/
theorem roundMintings_spec : ∀ (L : Rounds) (round T : ℤ), 10 ∣ T → TimesFit T (Rounds.total L) →
    ∃ ms, roundMintings round (Int64.ofInt T) L = .ok ms ∧
      ∀ x m, ms[x]? = some m → ∃ i committee k, Placed L round T x m i committee k
  | [], _, _, _, _ => ⟨[], rfl, fun x m hx => by simp at hx⟩
  | committee :: L, round, T, hT, hfit => by
    have htotal : Rounds.total (committee :: L) = committee.length + Rounds.total L := by
      simp [Rounds.total]
    obtain ⟨hlo, hhi⟩ := hfit
    rw [htotal, toInt_second] at hhi
    rw [toInt_second] at hlo
    push_cast at hhi
    obtain ⟨ms, hms, hlen, hget⟩ := @slotMintings_spec round committee T hT
      ⟨by rw [toInt_second]; omega, by rw [toInt_second]; omega⟩ committee.length 0 (Nat.zero_add _)
    obtain ⟨ms', hms', hget'⟩ := roundMintings_spec L (round + 1) (T + 10 * committee.length)
      (Int.dvd_add hT (Int.dvd_mul_right _ _)) ⟨by rw [toInt_second]; omega, by rw [toInt_second]; omega⟩
    have hnext : Int64.ofInt T + 10 * Int64.ofNat committee.length = Int64.ofInt (T + 10 * committee.length) := by
      rw [Int64.ofInt_add, Int64.ofInt_mul, ← Int64.ofInt_eq_ofNat]
      rfl
    rw [Nat.cast_zero, mul_zero, add_zero] at hms
    refine ⟨ms ++ ms', ?_, fun x m hx => ?_⟩
    · rw [roundMintings, hms, hnext, hms']
      rfl
    · by_cases hlt : x < ms.length
      · rw [List.getElem?_append_left hlt] at hx
        obtain ⟨hm, hr, ht⟩ := hget x m hx
        rw [Nat.zero_add] at hm
        exact ⟨0, committee, x / 2, rfl, hm, by rw [hr]; simp, by rw [ht]; simp, by simp [Rounds.total]⟩
      · rw [List.getElem?_append_right (by omega), hlen] at hx
        obtain ⟨i, committee', k, hc, hm, hr, ht, hs⟩ := hget' _ m hx
        refine ⟨i + 1, committee', k, hc, hm, ?_, ?_, ?_⟩
        · rw [hr]
          push_cast
          ring
        · rw [ht, Nat.cast_sub (by omega)]
          push_cast
          ring_nf
        · have htake : Rounds.total ((committee :: L).take (i + 1)) = committee.length + Rounds.total (L.take i) := by
            simp [Rounds.total]
          rw [htake]
          omega

/-! ## The validator -/

/-- The position at which the validator finds the miner in its round. -/
def firstPosition (L : Rounds) (m : Minting) : ℕ := ((L.committee m.round).getD []).idxOf m.miner

/-- The slot in which the validator expects the miner. -/
def firstSlot (L : Rounds) (m : Minting) : ℕ := Rounds.total (L.take (m.round - 1).toNat) + firstPosition L m

/-- Minting number `c` is in time, if number `a` is the genesis block: the miner is found at its
    own position, or little before it, and the genesis block is one of the first two mintings,
    or the third and the child the second of its slot. -/
structure InTime (L : Rounds) (a c : ℕ) (parent child : Minting) : Prop where
  order : parent.round = child.round → firstPosition L parent ≤ firstPosition L child
  early : a + 2 * firstSlot L child ≤ c + 1
  late : c ≤ a + 2 * firstSlot L child + 1

variable {cache : MinerCache} {T : ℤ} {a b c x i j k : ℕ} {C C' : List Address} {genesis parent child m : Minting}

theorem cast_total : ∀ L : Rounds, (Rounds.total L : ℤ) = (L.map fun c => (c.length : ℤ)).sum
  | [] => rfl
  | c :: L => by
    have hcons : Rounds.total (c :: L) = c.length + Rounds.total L := by simp [Rounds.total]
    rw [hcons, Nat.cast_add, cast_total L, List.map_cons, List.sum_cons]

theorem total_take_succ (h : L[i]? = some C) : Rounds.total (L.take (i + 1)) = Rounds.total (L.take i) + C.length := by
  rw [Rounds.total, List.take_add_one, h, List.map_append, List.sum_append]
  simp [Rounds.total]

theorem total_take_mono (L : Rounds) (h : i ≤ j) : Rounds.total (L.take i) ≤ Rounds.total (L.take j) :=
  ((List.take_sublist_take_left h).map _).sum_le_sum fun _ _ => Nat.zero_le _

theorem total_take_le (L : Rounds) (i : ℕ) : Rounds.total (L.take i) ≤ Rounds.total L :=
  ((List.take_sublist i L).map _).sum_le_sum fun _ _ => Nat.zero_le _

namespace Placed

theorem lt_total (h : Placed L round T x m i C k) : x < 2 * Rounds.total L := by
  have hk := (List.getElem?_eq_some_iff.1 h.mines).1
  have hslot := h.slot_eq
  have hsucc := total_take_succ h.elected
  have hle := total_take_le L (i + 1)
  omega

theorem toInt_time (h : Placed L round T x m i C k) (hfit : TimesFit T (Rounds.total L)) :
    (m.time * second).toInt = (T + 5 * (x + 1)) * second.toInt := by
  have hlt := h.lt_total
  obtain ⟨hlo, hhi⟩ := hfit
  rw [toInt_second] at hlo hhi
  have hmul : m.time * second = Int64.ofInt ((T + 5 * (x + 1)) * second.toInt) := by
    rw [h.time_eq, Int64.ofInt_mul, Int64.ofInt_toInt]
  rw [hmul, Int64.toInt_ofInt_of_le] <;> rw [toInt_second] <;> omega

theorem committee_eq (h : Placed L 1 T x m i C k) : L.committee m.round = some C := by
  rw [Rounds.committee, if_neg (by rw [h.round_eq]; omega), h.round_eq, show ((1 : ℤ) + i - 1).toNat = i by omega]
  exact h.elected

theorem firstPosition_eq (h : Placed L 1 T x m i C k) : firstPosition L m = C.idxOf m.miner := by
  rw [firstPosition, h.committee_eq]
  rfl

theorem idxOf?_eq (h : Placed L 1 T x m i C k) : C.idxOf? m.miner = some (firstPosition L m) := by
  have hmem : m.miner ∈ C := List.mem_of_getElem? h.mines
  obtain ⟨p, hp⟩ := Option.isSome_iff_exists.1 (List.isSome_idxOf?.2 hmem)
  rw [h.firstPosition_eq, List.idxOf_eq_getD_idxOf?, hp]
  rfl

theorem firstSlot_eq (h : Placed L 1 T x m i C k) :
    firstSlot L m = Rounds.total (L.take i) + C.idxOf m.miner := by
  rw [firstSlot, h.firstPosition_eq, h.round_eq, show ((1 : ℤ) + i - 1).toNat = i by omega]

theorem slots_eq (h : Placed L 1 T x m i C k) : L.slots (m.round - 1) = some (Rounds.total (L.take i) : ℤ) := by
  have hlt := (List.getElem?_eq_some_iff.1 h.elected).1
  rw [h.round_eq, show (1 : ℤ) + i - 1 = i by omega, Rounds.slots, if_pos (by omega), Int.toNat_natCast,
    cast_total]

/-- A later minting is in the same round or in a later one. -/
theorem round_le (hp : Placed L 1 T b parent i C' j) (hc : Placed L 1 T c child k C n) (hbc : b ≤ c) : i ≤ k := by
  by_contra hlt
  have hn := (List.getElem?_eq_some_iff.1 hc.mines).1
  have hsucc := total_take_succ hc.elected
  have hmono := total_take_mono L (show k + 1 ≤ i by omega)
  have hps := hp.slot_eq
  have hcs := hc.slot_eq
  omega

end Placed

/-- The cache has been recorded round by round, in any way that ends with the rounds `L`. -/
def Recorded (L : Rounds) (cache : MinerCache) : Prop :=
  ∃ cs, AllAllowed [] cs ∧ runCalls [] cs = .ok cache ∧ cs.foldl Call.apply [] = L

theorem ok_of_toOption {α : Type} {c : Except Err α} {y : α} (h : c.toOption = some y) : c = .ok y := by
  cases c with
  | error e => cases h
  | ok z => exact congrArg Except.ok (Option.some.inj h)

/-- The answers of a recorded cache. -/
theorem Recorded.lookup (h : Recorded L cache) :
    (∀ k miners, L.committee k = some miners → cache.minersInRound k = .ok miners) ∧
    ∀ k slots, cache ≠ [] → L.slots k = some slots → cache.slotsPassedByRound k = .ok slots := by
  obtain ⟨cs, hcs, hrun, rfl⟩ := h
  obtain ⟨cache', hrun', hminers, hslots, -⟩ := minerCache_refines cs hcs
  obtain rfl := Except.ok.inj (hrun.symm.trans hrun')
  exact ⟨fun k miners hk => ok_of_toOption ((hminers k).trans hk),
    fun k slots hne hk => ok_of_toOption ((hslots k (.inr hne)).trans hk)⟩

/-- The window of the slot in which the validator expects the child. -/
theorem window_iff (hg : Placed L 1 T a genesis i C j) (hc : Placed L 1 T c child k C' n)
    (hfit : TimesFit T (Rounds.total L)) (hslot : Fits (genesis.time * second) (firstSlot L child)) :
    (Int64.ofInt (firstSlot L child) * minerSlotTime + (genesis.time * second - miningTickInterval) ≤
        child.time * second ∧
      child.time * second ≤ Int64.ofInt (firstSlot L child) * minerSlotTime +
        (genesis.time * second - miningTickInterval) + minerSlotTime + 1000000000) ↔
      a + 2 * firstSlot L child ≤ c + 1 ∧ c ≤ a + 2 * firstSlot L child + 1 := by
  obtain ⟨hstart, hend⟩ := toInt_slotStart hslot
  have hfive : miningTickInterval.toInt = 5000000000 := rfl
  have hten : minerSlotTime.toInt = 10000000000 := rfl
  rw [Int64.le_iff_toInt_le, Int64.le_iff_toInt_le, hstart, hend, hc.toInt_time hfit, slotStart, hg.toInt_time hfit,
    hfive, hten, toInt_second]
  generalize firstSlot L child = f
  omega

/-- **What the validator says of a scheduled block**, against any scheduled parent. -/
theorem minting_accepted_iff (hrec : Recorded L cache) (hfit : TimesFit T (Rounds.total L))
    {k' n' : ℕ} {Cg : List Address} (hg : Placed L 1 T a genesis k' Cg n') (hp : Placed L 1 T b parent i C j)
    (hc : Placed L 1 T c child k C' n) (hbc : b ≤ c) (hslot : Fits (genesis.time * second) (firstSlot L child)) :
    cache.validateMiningOrder parent.miner child.miner parent.round child.round (child.time * second)
      (genesis.time * second) = .ok () ↔ InTime L a c parent child := by
  obtain ⟨hminers, hslots⟩ := hrec.lookup
  have hpm := hminers _ _ hp.committee_eq
  have hcm := hminers _ _ hc.committee_eq
  have hne : cache ≠ [] := by
    rintro rfl
    cases hcm
  have hcs := hslots _ _ hne hc.slots_eq
  have hpi := hp.idxOf?_eq
  have hci := hc.idxOf?_eq
  have hwindow := window_iff hg hc hfit hslot
  have hfirst : (firstSlot L child : ℤ) = Rounds.total (L.take k) + firstPosition L child := by
    rw [hc.firstSlot_eq, hc.firstPosition_eq]
    push_cast
    rfl
  constructor
  · intro hok
    obtain ⟨pMiners, cMiners, j₁, k₁, s, hin⟩ := validateMiningOrder_ok hok
    obtain rfl := Except.ok.inj (hpm.symm.trans hin.parentMiners)
    obtain rfl := Except.ok.inj (hcm.symm.trans hin.childMiners)
    obtain rfl := Except.ok.inj (hcs.symm.trans hin.slots)
    obtain rfl := Option.some.inj (hpi.symm.trans hin.parentPosition)
    obtain rfl := Option.some.inj (hci.symm.trans hin.childPosition)
    obtain ⟨hearly, hlate⟩ := hwindow.1 ⟨hfirst ▸ hin.start, hfirst ▸ hin.finish⟩
    exact ⟨hin.position, hearly, hlate⟩
  · intro hin
    obtain ⟨hstart, hfinish⟩ := hwindow.2 ⟨hin.early, hin.late⟩
    rw [hfirst] at hstart hfinish
    have hround := hp.round_le hc hbc
    refine validateMiningOrder_of ⟨?_, hpm, hpi, hcm, hci, hcs, hin.order, hstart, hfinish⟩ fun r hlo hhi => ?_
    · rw [hp.round_eq, hc.round_eq]
      omega
    · have hlt := (List.getElem?_eq_some_iff.1 hc.elected).1
      have hp₀ := hp.round_eq
      have hc₀ := hc.round_eq
      obtain ⟨members, hmembers⟩ : ∃ members, L.committee r = some members := by
        rw [Rounds.committee, if_neg (by omega)]
        exact ⟨_, List.getElem?_eq_getElem (by omega)⟩
      exact ⟨members, hminers r members hmembers⟩

/-! ## The schedule as a whole -/

/-- Rounds one after the other from `start` on, in seconds. -/
structure Schedule where
  rounds : Rounds
  start : ℤ
  /-- a multiple of the slot time -/
  slot : 10 ∣ start
  /-- the times are nanoseconds in 64 bits -/
  fits : TimesFit start (Rounds.total rounds)

namespace Schedule

/-- The blocks that are due, in order. -/
def mintings (S : Schedule) : Except Err (List Minting) := roundMintings 1 (Int64.ofInt S.start) S.rounds

/-- The pairs of a parent and a later child, if minting number `a` is the first one to happen and
    becomes the genesis block.  The times of the slot in which the validator expects the child are
    nanoseconds in 64 bits. -/
structure Follows (S : Schedule) (ms : List Minting) (a b c : ℕ) (genesis parent child : Minting) : Prop where
  genesis_eq : ms[a]? = some genesis
  parent_eq : ms[b]? = some parent
  child_eq : ms[c]? = some child
  after : a ≤ b
  later : b < c
  fits : Fits (genesis.time * second) (firstSlot S.rounds child)

end Schedule

/-- **When the validator accepts what is scheduled.** -/
theorem schedule_accepted_iff (S : Schedule) {cache : MinerCache} (hrec : Recorded S.rounds cache) :
    ∃ ms, S.mintings = .ok ms ∧ ∀ a,
      (∀ b c genesis parent child, S.Follows ms a b c genesis parent child →
        cache.validateMiningOrder parent.miner child.miner parent.round child.round (child.time * second)
          (genesis.time * second) = .ok ()) ↔
      ∀ b c genesis parent child, S.Follows ms a b c genesis parent child →
        InTime S.rounds a c parent child := by
  obtain ⟨ms, hms, hplaced⟩ := roundMintings_spec S.rounds 1 S.start S.slot S.fits
  refine ⟨ms, hms, fun a => ?_⟩
  have hiff : ∀ b c genesis parent child, S.Follows ms a b c genesis parent child →
      (cache.validateMiningOrder parent.miner child.miner parent.round child.round (child.time * second)
        (genesis.time * second) = .ok () ↔ InTime S.rounds a c parent child) := by
    intro b c genesis parent child h
    obtain ⟨_, _, _, hg⟩ := hplaced a genesis h.genesis_eq
    obtain ⟨_, _, _, hp⟩ := hplaced b parent h.parent_eq
    obtain ⟨_, _, _, hc⟩ := hplaced c child h.child_eq
    exact minting_accepted_iff hrec S.fits hg hp hc h.later.le h.fits
  exact ⟨fun h b c genesis parent child hf => (hiff b c genesis parent child hf).1 (h b c genesis parent child hf),
    fun h b c genesis parent child hf => (hiff b c genesis parent child hf).2 (h b c genesis parent child hf)⟩

/-- In committees without duplicates, all is accepted when the genesis block is minted in the first
    slot. -/
theorem inTime_of_first {S : Schedule} {ms : List Minting} {a b c : ℕ} {genesis parent child : Minting}
    (hms : S.mintings = .ok ms) (hnodup : ∀ C ∈ S.rounds, C.Nodup) (ha : a ≤ 1)
    (h : S.Follows ms a b c genesis parent child) : InTime S.rounds a c parent child := by
  obtain ⟨ms', hms', hplaced⟩ := roundMintings_spec S.rounds 1 S.start S.slot S.fits
  obtain rfl : ms = ms' := Except.ok.inj (hms.symm.trans hms')
  obtain ⟨i, C, j, hp⟩ := hplaced b parent h.parent_eq
  obtain ⟨k, C', n, hc⟩ := hplaced c child h.child_eq
  have hfirst : ∀ {x m i k C}, Placed S.rounds 1 S.start x m i C k → C.idxOf m.miner = k := by
    intro x m i k C hm
    obtain ⟨hlt, hget⟩ := List.getElem?_eq_some_iff.1 hm.mines
    rw [← hget]
    exact (hnodup C (List.mem_of_getElem? hm.elected)).idxOf_getElem k hlt
  have hbc := h.later
  have hps := hp.slot_eq
  have hcs := hc.slot_eq
  have hslot := hc.firstSlot_eq
  rw [hfirst hc] at hslot
  refine ⟨fun hround => ?_, by omega, by omega⟩
  rw [hp.firstPosition_eq, hc.firstPosition_eq, hfirst hp, hfirst hc]
  have hp₀ := hp.round_eq
  have hc₀ := hc.round_eq
  obtain rfl : i = k := by omega
  omega

/-! ## Two miners in one round -/

/-- A round of `a` and `b`, that starts at 100 seconds. -/
def twoMiners : Schedule := ⟨[["a", "b"]], 100, by decide, ⟨by decide, by decide⟩⟩

theorem recorded_twoMiners : Recorded twoMiners.rounds [⟨["a", "b"], 1, 2⟩] :=
  ⟨[.update ["a", "b"] 1], by decide, rfl, rfl⟩

theorem schedule_accepted_iff_twoMiners : ∃ ms, twoMiners.mintings = .ok ms ∧ ∀ a,
    (∀ b c genesis parent child, twoMiners.Follows ms a b c genesis parent child →
      MinerCache.validateMiningOrder [⟨["a", "b"], 1, 2⟩] parent.miner child.miner parent.round child.round
        (child.time * second) (genesis.time * second) = .ok ()) ↔
    ∀ b c genesis parent child, twoMiners.Follows ms a b c genesis parent child →
      InTime twoMiners.rounds a c parent child :=
  schedule_accepted_iff twoMiners recorded_twoMiners

/-- Three rounds of the two. -/
def threeRounds : Schedule := ⟨[["a", "b"], ["a", "b"], ["a", "b"]], 100, by decide, ⟨by decide, by decide⟩⟩

/-- The genesis block is the first one of `b`: the first block of `a` in the next round comes early. -/
theorem not_schedule_accepted : Recorded threeRounds.rounds [⟨["a", "b"], 3, 6⟩] ∧
    ∃ ms genesis parent child, threeRounds.mintings = .ok ms ∧ threeRounds.Follows ms 2 2 4 genesis parent child ∧
    MinerCache.validateMiningOrder [⟨["a", "b"], 3, 6⟩] parent.miner child.miner parent.round child.round
      (child.time * second) (genesis.time * second) = .error (.error "In wrong slot") := by
  obtain ⟨ms, hms⟩ : ∃ ms, threeRounds.mintings = .ok ms := by
    obtain ⟨ms, hms, -⟩ := roundMintings_spec threeRounds.rounds 1 threeRounds.start threeRounds.slot threeRounds.fits
    exact ⟨ms, hms⟩
  have hget : threeRounds.mintings.toOption.map (fun ms => (ms[2]?, ms[4]?)) =
      some (some ⟨1, "b", 115⟩, some ⟨2, "a", 125⟩) := by
    decide
  rw [hms] at hget
  obtain ⟨h₂, h₄⟩ := Prod.ext_iff.1 (Option.some.inj hget)
  refine ⟨⟨[.update ["a", "b"] 1, .update ["a", "b"] 2, .update ["a", "b"] 3], by decide, rfl, rfl⟩, ?_⟩
  exact ⟨ms, _, _, _, hms, ⟨h₂, h₂, h₄, le_rfl, by decide, ⟨by decide, by decide⟩⟩, by decide⟩

end Timbre
