/-
  The DPOS is taken back to an earlier round.

  **`RevertDposState` restores the round exactly if the cache answers for the round that it starts
  from and the members of the two committees are still candidates; `RevertDposTill` never does**
  (`revertedTo_iff`): it sets the round before it loops over the later ones, and leaves them in the
  cache.
-/
import Mathlib.Tactic.Ring
import Timbre.Dpos.Snapshot

namespace Timbre

/-! ## The source -/

namespace MinerCache

/-- A loop that deletes the entries of `n` rounds from `i` on. -/
def deleteEntries (i : ℤ) : ℕ → MinerCache → MinerCache
  | 0, cache => cache
  | n + 1, cache => deleteEntries (i + 1) n (cache.deleteEntryInMinerCache i).2

end MinerCache

namespace Dpos

/-- `InitializeComMembers`.  A miner that is no candidate any more is left out. -/
def initializeComMembers (miners nextRoundMiners : List Address) (d : Dpos) : Dpos :=
  { d with
    committee := miners.filterMap fun miner => (d.state.getCandidate miner).toOption
    nextRoundCommittee := nextRoundMiners.filterMap fun miner => (d.state.getCandidate miner).toOption }

/-- The loop of `RevertDposState` over `n` rounds, down from `i`. -/
def revertRounds : ℕ → ℤ → Dpos → Except Err Dpos
  | 0, _, d => .ok d
  | n + 1, i, d =>
    let nextRoundMiners := (d.minerCache.minersInRound i).toOption.getD []
    let d := { d with roundNumber := i - 1, minerCache := (d.minerCache.deleteEntryInMinerCache i).2 }
    match d.minerCache.minersInRound (i - 1) with
    | .error _ => .error (.panic "No entry")
    | .ok curMiners => revertRounds n (i - 1) (d.initializeComMembers curMiners nextRoundMiners)

/-- `RevertDposState`. -/
def revertDposState (bRound pbRound : ℤ) (d : Dpos) : Except Err Dpos :=
  if bRound < 1 then .ok d
  else if d.roundNumber > bRound then
    match d.minerCache.minersInRound (bRound + 1) with
    | .error _ => .error (.panic "No entry")
    | .ok nextRoundMiners =>
      let d := { d with
        roundNumber := bRound
        minerCache := d.minerCache.deleteEntries (bRound + 1) (d.roundNumber - bRound).toNat }
      let curMiners := (d.minerCache.minersInRound bRound).toOption.getD []
      revertRounds (bRound - pbRound).toNat bRound (d.initializeComMembers curMiners nextRoundMiners)
  else if d.roundNumber < bRound then
    .error (.panic "DPOS round lower then current blockRound. Handle this")
  else revertRounds (bRound - pbRound).toNat bRound d

/-- `RevertDposTill`.  The round is set before the loop over the later rounds, which therefore
    deletes no entry of the cache. -/
def revertDposTill (bRound : ℤ) (d : Dpos) : Except Err Dpos :=
  if bRound < 1 then .ok d
  else if d.roundNumber > bRound then
    match d.minerCache.minersInRound (bRound + 1), d.minerCache.minersInRound bRound with
    | .error _, _ => .error (.panic "No entry")
    | .ok _, .error _ => .error (.panic "no entry")
    | .ok nextRoundMiners, .ok curMiners =>
      .ok ({ d with roundNumber := bRound }.initializeComMembers curMiners nextRoundMiners)
  else if d.roundNumber < bRound then
    .error (.panic "DPOS round lower then current blockRound. Block from future??")
  else .ok d

/-- A way back to round `r`: `RevertDposState` from the round of a block, or `RevertDposTill`. -/
inductive RevertCall where
  | state (bRound : ℤ)
  | till

def RevertCall.run (r : ℤ) : RevertCall → Dpos → Except Err Dpos
  | state bRound, d => d.revertDposState bRound r
  | till, d => d.revertDposTill r

/-! ## What a revert should end with -/

/-- Round `r` is the last one of the cache, its committee is back, and the next committee is the one
    that the cache had for the round after it. -/
structure RevertedTo (r : ℤ) (d d' : Dpos) : Prop where
  roundNumber : d'.roundNumber = r
  cache : d'.minerCache.getLast?.map MinersInRound.round = some r
  committee : d'.minerCache.minersInRound r = .ok (d'.committee.map Candidate.address)
  next : d'.nextRoundCommittee.map Candidate.address = (d.minerCache.minersInRound (r + 1)).toOption.getD []

/-- The members that the cache has for round `k` are candidates. -/
def StillCandidates (d : Dpos) (k : ℤ) : Prop :=
  ∀ miners, d.minerCache.minersInRound k = .ok miners → ∀ a ∈ miners, a ∈ d.state.candidateState

/-- The condition: the block is not after the round of the DPOS nor before round `r`, the cache
    answers for the round after the block, or if there is none for the one before it, and the members
    of the two committees are still candidates. -/
def RevertCall.Sound (r : ℤ) (d : Dpos) : RevertCall → Prop
  | state bRound => r ≤ bRound ∧ bRound ≤ d.roundNumber ∧
      (d.minerCache.minersInRound (if bRound < d.roundNumber then bRound + 1 else bRound - 1)).isOk ∧
      d.StillCandidates r ∧ d.StillCandidates (r + 1)
  | till => False

end Dpos

/-! ## Caches up to their slots -/

namespace MinerCache

def addSlots (c : ℤ) (e : MinersInRound) : MinersInRound := { e with slotsPassed := e.slotsPassed + c }

theorem round_addSlots (c : ℤ) (e : MinersInRound) : (addSlots c e).round = e.round := rfl

/-- The cache with `c` more slots in every entry. -/
def shift (c : ℤ) (cache : MinerCache) : MinerCache := cache.map (addSlots c)

variable {cache cache' : MinerCache} {L : Rounds} {c round i : ℤ} {miners : List Address}

theorem getLast?_shift (c : ℤ) (cache : MinerCache) :
    (shift c cache).getLast? = cache.getLast?.map (addSlots c) := List.getLast?_map

theorem shorten_addSlots (c round : ℤ) (e : MinersInRound) :
    shorten round (addSlots c e) = addSlots c (shorten round e) := by
  have hslots : e.slotsPassed + c - e.miners.length * (e.round - (round - 1)) =
      e.slotsPassed - e.miners.length * (e.round - (round - 1)) + c := by ring
  simp only [shorten, addSlots, hslots]

theorem getD_shift (c : ℤ) (cache : MinerCache) (j : ℕ) :
    ((shift c cache).getD j default).round = (cache.getD j default).round ∧
      ((shift c cache).getD j default).miners = (cache.getD j default).miners := by
  rw [shift, List.getD_eq_getElem?_getD, List.getD_eq_getElem?_getD, List.getElem?_map]
  cases cache[j]? with
  | none => exact ⟨rfl, rfl⟩
  | some e => exact ⟨rfl, rfl⟩

theorem modify_shift (c round : ℤ) (j : ℕ) (cache : MinerCache) :
    (shift c cache).modify j (shorten round) = shift c (cache.modify j (shorten round)) := by
  refine List.ext_getElem? fun n => ?_
  rw [shift, shift, List.getElem?_modify, List.getElem?_map, List.getElem?_map, List.getElem?_modify]
  cases cache[n]? with
  | none => rfl
  | some e =>
    by_cases hj : j = n
    · simp only [hj, if_true, Option.map_some, Option.map_eq_map, shorten_addSlots]
    · simp only [hj, if_false, Option.map_some, Option.map_eq_map]

theorem deleteScan_shift (c round : ℤ) : ∀ (j : ℕ) (cache : MinerCache),
    deleteScan round j (shift c cache) = shift c (deleteScan round j cache)
  | 0, cache => by
    rw [deleteScan, deleteScan, modify_shift]
    split_ifs <;> rfl
  | j + 1, cache => by
    have htake : (shift c cache).take (j + 1) = shift c (cache.take (j + 1)) := List.map_take.symm
    rw [deleteScan, deleteScan, (getD_shift c cache (j + 1)).1, (getD_shift c cache j).1, htake, modify_shift,
      deleteScan_shift c round j, deleteScan_shift c round j]
    split_ifs <;> rfl

theorem deleteEntry_shift (c round : ℤ) (cache : MinerCache) :
    (deleteEntryInMinerCache (shift c cache) round).2 = shift c (deleteEntryInMinerCache cache round).2 := by
  unfold deleteEntryInMinerCache
  rw [getLast?_shift]
  cases cache.getLast? with
  | none => rfl
  | some tail =>
    dsimp only [Option.map_some]
    rw [round_addSlots]
    split_ifs
    · rfl
    · rw [shift, List.length_map]
      exact deleteScan_shift c round _ cache

theorem scanRound_shift (c round : ℤ) (cache : MinerCache) : ∀ j : ℕ,
    (scanRound (shift c cache) round j).map MinersInRound.miners =
      (scanRound cache round j).map MinersInRound.miners
  | 0 => by
    obtain ⟨hround, hminers⟩ := getD_shift c cache 0
    rw [scanRound, scanRound, hround]
    split_ifs
    · exact congrArg some hminers
    · rfl
  | j + 1 => by
    obtain ⟨hround, hminers⟩ := getD_shift c cache (j + 1)
    rw [scanRound, scanRound, hround, (getD_shift c cache j).1]
    split_ifs
    · exact congrArg some hminers
    · exact scanRound_shift c round cache j

theorem minersInRound_shift (c round : ℤ) (cache : MinerCache) :
    minersInRound (shift c cache) round = minersInRound cache round := by
  have hscan := scanRound_shift c round cache (cache.length - 1)
  unfold minersInRound
  rw [getLast?_shift, show (shift c cache).length = cache.length from List.length_map _]
  cases cache.getLast? with
  | none => rfl
  | some tail =>
    dsimp only [Option.map_some]
    rw [round_addSlots]
    split_ifs
    · rfl
    · cases h : scanRound cache round (cache.length - 1) with
      | none =>
        rw [h, Option.map_none, Option.map_eq_none_iff] at hscan
        rw [hscan]
      | some e =>
        rw [h, Option.map_some, Option.map_eq_some_iff] at hscan
        obtain ⟨e', he', hminers⟩ := hscan
        rw [he']
        exact congrArg Except.ok hminers

theorem pushMiners_shift (c : ℤ) (cache : MinerCache) (e : MinersInRound) (miners : List Address) (round : ℤ) :
    pushMiners (shift c cache) (addSlots c e) miners round = shift c (pushMiners cache e miners round) := by
  have hslots : e.slotsPassed + c + miners.length = e.slotsPassed + miners.length + c := by ring
  unfold pushMiners shift addSlots
  dsimp only
  split_ifs
  · rw [List.map_append, List.map_dropLast, List.map_singleton, hslots]
  · rw [List.map_append, List.map_singleton, hslots]

/-- The cache has the committees `L`, whatever its slots. -/
def Records (cache : MinerCache) (L : Rounds) : Prop := ∃ c rs, Holds (shift c cache) rs L

theorem Records.minersInRound (h : Records cache L) (k : ℤ) : (minersInRound cache k).toOption = L.committee k := by
  obtain ⟨c, rs, h⟩ := h
  rw [← minersInRound_shift c]
  exact (lookup_spec h k).1

theorem Records.delete (h : Records cache L) (hround : 1 ≤ round) :
    Records (deleteEntryInMinerCache cache round).2 (L.truncate round) := by
  obtain ⟨c, rs, h⟩ := h
  obtain ⟨⟨rs', h'⟩, -⟩ := delete_spec h hround
  rw [deleteEntry_shift] at h'
  exact ⟨c, rs', h'⟩

/-- The last round of the cache. -/
theorem Records.last (h : Records cache L) :
    (cache = [] ∧ L = []) ∨ ∃ e, cache.getLast? = some e ∧ e.round = L.length := by
  obtain ⟨c, rs, h⟩ := h
  rcases h.getLast? with ⟨hnil, -, hL⟩ | ⟨rs₀, m, n, -, hlast⟩
  · exact .inl ⟨List.map_eq_nil_iff.1 hnil, hL⟩
  · rw [getLast?_shift] at hlast
    obtain ⟨e, he, heq⟩ := Option.map_eq_some_iff.1 hlast
    exact .inr ⟨e, he, (congrArg MinersInRound.round heq :)⟩

theorem truncate_of_lt (h : (L.length : ℤ) < round) : L.truncate round = L :=
  List.take_of_length_le (by omega)

theorem length_truncate (h : round ≤ L.length + 1) (h₁ : 1 ≤ round) : ((L.truncate round).length : ℤ) = round - 1 := by
  rw [Rounds.truncate, List.length_take]
  omega

theorem truncate_truncate {round' : ℤ} (h : round ≤ round') : (L.truncate round').truncate round = L.truncate round := by
  rw [Rounds.truncate, Rounds.truncate, List.take_take, min_eq_left (by omega)]
  rfl

theorem committee_truncate {k : ℤ} (h : k < round) : (L.truncate round).committee k = L.committee k := by
  unfold Rounds.committee Rounds.truncate
  split_ifs
  · rfl
  · exact List.getElem?_take_of_lt (by omega)

theorem committee_eq_some {k : ℤ} : (L.committee k).isSome ↔ 1 ≤ k ∧ k ≤ L.length := by
  unfold Rounds.committee
  split_ifs with h
  · simp
    omega
  · rw [isSome_getElem?]
    omega

theorem Records.isOk (h : Records cache L) (k : ℤ) : (MinerCache.minersInRound cache k).isOk ↔ 1 ≤ k ∧ k ≤ L.length := by
  rw [← committee_eq_some, ← h.minersInRound k]
  cases MinerCache.minersInRound cache k <;> simp [Except.isOk, Except.toBool, Except.toOption]

/-- Deleting later rounds changes nothing. -/
theorem Records.deleteLater (h : Records cache L) (hi : (L.length : ℤ) < i) (n : ℕ) :
    Records (deleteEntries i n cache) L := by
  induction n generalizing cache i with
  | zero => exact h
  | succ n ih =>
    have hdelete := h.delete (show 1 ≤ i by omega)
    rw [truncate_of_lt hi] at hdelete
    exact ih hdelete (by omega)

theorem Records.deleteEntries (h : Records cache L) (hi : 1 ≤ i) (n : ℕ) :
    Records (deleteEntries i (n + 1) cache) (L.truncate i) := by
  refine (h.delete hi).deleteLater ?_ n
  rw [Rounds.truncate, List.length_take]
  omega

/-- The first entry, which stands for all rounds till then. -/
theorem records_first (miners : List Address) (hround : 1 ≤ round) :
    Records [⟨miners, round, miners.length⟩] (List.replicate round.toNat miners) := by
  refine ⟨round * miners.length - miners.length, [(miners, round.toNat)], ?_, ?_, ?_⟩
  · simp
    omega
  · have hnat : (round.toNat : ℤ) = round := Int.toNat_of_nonneg (by omega)
    simp [shift, addSlots, ofRunsFrom, hnat]
  · simp

/-- The next round. -/
theorem Records.next (h : Records cache L) (hne : cache ≠ []) (hround : round = L.length + 1) (miners : List Address) :
    ∃ cache', addOrUpdateMinerEntry cache miners round = .ok cache' ∧ Records cache' (L ++ [miners]) := by
  obtain ⟨c, rs, hholds⟩ := h
  rcases hholds.getLast? with ⟨hnil, -, -⟩ | ⟨rs₀, m, n, rfl, hlast⟩
  · exact absurd (List.map_eq_nil_iff.1 hnil) hne
  · rw [getLast?_shift] at hlast
    obtain ⟨e, he, heq⟩ := Option.map_eq_some_iff.1 hlast
    have hlen : e.round = L.length := (congrArg MinersInRound.round heq :)
    obtain ⟨rs', hpush⟩ := pushMiners_spec hholds miners
    rw [← heq, pushMiners_shift] at hpush
    refine ⟨pushMiners cache e miners round, ?_, c, rs', by rwa [hround]⟩
    unfold addOrUpdateMinerEntry
    rw [he]
    dsimp only
    rw [if_neg (by omega), if_neg (by omega)]

/-- A round too far. -/
theorem Records.gap (h : Records cache L) (hne : cache ≠ []) (hround : L.length + 1 < round) (miners : List Address) :
    addOrUpdateMinerEntry cache miners round = .error (.panic "Some entry is missing") := by
  rcases h.last with ⟨hnil, -⟩ | ⟨e, he, hlen⟩
  · exact absurd hnil hne
  · unfold addOrUpdateMinerEntry
    rw [he]
    dsimp only
    rw [if_neg (by omega), if_pos (by omega)]

end MinerCache

namespace Dpos

open MinerCache (Records Rounds)

variable {d d' : Dpos} {w : WalletAccess} {order : CandidateOrder} {L : Rounds} {r i h : ℤ}

/-! ## The rounds that are reached -/

/-- The cache has the committees of rounds up to that of the DPOS. -/
def InRounds (d : Dpos) : Prop := ∃ L, Records d.minerCache L ∧ L.length ≤ d.roundNumber

theorem InRounds.beginRound {s : State} {cands : List Candidate} (hd : InRounds d)
    (hround : beginRound s cands d = .ok d') : InRounds d' := by
  obtain ⟨L, hL, hle⟩ := hd
  have hbegun := beginRound_begun hround
  have hcache := hbegun.minerCache
  unfold InRounds
  rw [hbegun.roundNumber]
  split_ifs at hcache with hzero
  · rw [hcache]
    exact ⟨L, hL, by omega⟩
  · by_cases hnil : d.minerCache = []
    · rw [hnil] at hcache
      rw [← Except.ok.inj hcache]
      refine ⟨_, MinerCache.records_first _ (by omega), ?_⟩
      rw [List.length_replicate]
      omega
    · by_cases hnext : d.roundNumber + 1 = L.length + 1
      · obtain ⟨cache', hcache', hrecords⟩ := hL.next hnil hnext (d'.committee.map Candidate.address)
        rw [hcache] at hcache'
        rw [Except.ok.inj hcache']
        refine ⟨_, hrecords, ?_⟩
        rw [List.length_append, List.length_singleton]
        push_cast
        omega
      · rw [hL.gap hnil (by omega)] at hcache
        cases hcache

theorem InRounds.step {step : DposStep} (hd : InRounds d) (hstep : step.run order d = .ok d') : InRounds d' := by
  cases step with
  | advance w h =>
    obtain ⟨cands, -, hround⟩ := except_bind_ok ((advanceRound_eq w order h d).symm.trans hstep)
    exact hd.beginRound hround
  | register id =>
    rw [← Except.ok.inj hstep]
    split <;> exact hd
  | resign id =>
    rw [← Except.ok.inj hstep]
    split <;> exact hd

theorem InRounds.run {orders : ℕ → CandidateOrder} : ∀ {steps : List DposStep} {n : ℕ} {d : Dpos},
    InRounds d → run orders n steps d = .ok d' → InRounds d'
  | [], _, d, hd, hrun => by rwa [← Except.ok.inj hrun]
  | step :: steps, n, d, hd, hrun => by
    obtain ⟨d₁, hstep, hrest⟩ := except_bind_ok (c := step.run (orders n) d) hrun
    exact InRounds.run (hd.step hstep) hrest

theorem inRounds_init : InRounds init := ⟨[], ⟨0, [], by simp, rfl, rfl⟩, le_rfl⟩

/-! ## The loop over the rounds -/

/-- Those of the ids that are candidates. -/
def members (s : State) (ids : List Address) : List Candidate :=
  ids.filterMap fun id => (s.getCandidate id).toOption

/-- The DPOS has gone back to round `r` of the rounds `L`. -/
structure BackIn (L : Rounds) (r : ℤ) (d d' : Dpos) : Prop where
  roundNumber : d'.roundNumber = r
  state : d'.state = d.state
  cache : Records d'.minerCache (L.truncate (r + 1))
  committee : d'.committee = members d.state ((L.committee r).getD [])
  next : d'.nextRoundCommittee = members d.state ((L.committee (r + 1)).getD [])

theorem BackIn.trans {d₁ : Dpos} (h : BackIn (L.truncate i) r d₁ d') (hstate : d₁.state = d.state)
    (hr : r + 1 < i) : BackIn L r d d' where
  roundNumber := h.roundNumber
  state := h.state.trans hstate
  cache := by
    have hcache := h.cache
    rwa [MinerCache.truncate_truncate (by omega)] at hcache
  committee := by rw [h.committee, hstate, MinerCache.committee_truncate (by omega)]
  next := by rw [h.next, hstate, MinerCache.committee_truncate hr]

/-- One round of the loop. -/
theorem revertRounds_succ (hL : Records d.minerCache L) (hi : 2 ≤ i) (n : ℕ) :
    (i - 1 ≤ L.length → ∃ d₁, revertRounds (n + 1) i d = revertRounds n (i - 1) d₁ ∧ BackIn L (i - 1) d d₁) ∧
      (L.length < i - 1 → revertRounds (n + 1) i d = .error (.panic "No entry")) := by
  have hcache := hL.delete (show 1 ≤ i by omega)
  have hminers := hcache.minersInRound (i - 1)
  have hok := hL.isOk (i - 1)
  rw [MinerCache.committee_truncate (by omega), ← hL.minersInRound] at hminers
  rw [revertRounds]
  dsimp only
  cases hm : (d.minerCache.deleteEntryInMinerCache i).2.minersInRound (i - 1) with
  | error e =>
    rw [hm] at hminers
    refine ⟨fun hle => ?_, fun _ => rfl⟩
    cases hm' : d.minerCache.minersInRound (i - 1) with
    | error e' =>
      rw [hm'] at hok
      exact absurd (hok.2 ⟨by omega, hle⟩) Bool.false_ne_true
    | ok miners =>
      rw [hm'] at hminers
      cases hminers
  | ok miners =>
    rw [hm, hL.minersInRound] at hminers
    refine ⟨fun _ => ⟨_, rfl, ?_⟩, fun hlt => ?_⟩
    · refine ⟨rfl, rfl, by rwa [sub_add_cancel], ?_, ?_⟩
      · rw [← hminers]
        rfl
      · rw [sub_add_cancel, ← hL.minersInRound]
        rfl
    · have hsome := MinerCache.committee_eq_some (L := L) (k := i - 1)
      rw [← hminers] at hsome
      exact absurd (hsome.1 rfl).2 (by omega)

/-- **The loop** goes back round by round, if the cache answers for the round before the first one. -/
theorem revertRounds_spec (n : ℕ) (hL : Records d.minerCache L) (hi : 1 ≤ i - (n + 1)) (hle : i - 1 ≤ L.length) :
    ∃ d', revertRounds (n + 1) i d = .ok d' ∧ BackIn L (i - (n + 1)) d d' := by
  induction n generalizing i d L with
  | zero =>
    obtain ⟨d₁, hd₁, hback⟩ := (revertRounds_succ hL (by omega) 0).1 hle
    exact ⟨d₁, hd₁, by simpa using hback⟩
  | succ n ih =>
    push_cast at hi ⊢
    obtain ⟨d₁, hd₁, hback⟩ := (revertRounds_succ hL (by omega) (n + 1)).1 hle
    have hcache := hback.cache
    rw [sub_add_cancel] at hcache
    have hlen := MinerCache.length_truncate (L := L) (show i ≤ L.length + 1 by omega) (by omega)
    obtain ⟨d', hd', hback'⟩ := ih hcache (i := i - 1) (by omega) (by omega)
    refine ⟨d', hd₁.trans hd', ?_⟩
    rw [show i - (n + 1 + 1) = i - 1 - (n + 1) by ring]
    exact hback'.trans hback.state (by omega)

/-- The first step of `RevertDposState`, back to the round of the block. -/
theorem revertDposState_later {bRound : ℤ} (hL : Records d.minerCache L) (hpos : 1 ≤ bRound) (hlt : bRound < d.roundNumber) :
    (bRound + 1 ≤ L.length → ∃ d₁,
      (∀ r, revertDposState bRound r d = revertRounds (bRound - r).toNat bRound d₁) ∧ BackIn L bRound d d₁) ∧
    (L.length < bRound + 1 → ∀ r, revertDposState bRound r d = .error (.panic "No entry")) := by
  have hnot : ¬ bRound < 1 := by omega
  have hok := hL.isOk (bRound + 1)
  unfold revertDposState
  simp only [if_neg hnot, gt_iff_lt, if_pos hlt]
  cases hnext : d.minerCache.minersInRound (bRound + 1) with
  | error e =>
    rw [hnext] at hok
    exact ⟨fun hk => absurd (hok.2 ⟨by omega, hk⟩) Bool.false_ne_true, fun _ _ => rfl⟩
  | ok nextRoundMiners =>
    rw [hnext] at hok
    have hk := (hok.1 rfl).2
    obtain ⟨m, hm⟩ : ∃ m : ℕ, (d.roundNumber - bRound).toNat = m + 1 := ⟨(d.roundNumber - bRound).toNat - 1, by omega⟩
    have hcache := hL.deleteEntries (show 1 ≤ bRound + 1 by omega) m
    have hnext' := hL.minersInRound (bRound + 1)
    rw [hnext] at hnext'
    rw [hm]
    refine ⟨fun _ => ⟨_, fun _ => rfl, rfl, rfl, hcache, ?_, ?_⟩, fun hshort => absurd hk (by omega)⟩
    · rw [← MinerCache.committee_truncate (show bRound < bRound + 1 by omega), ← hcache.minersInRound]
      rfl
    · rw [← hnext']
      rfl

/-- **`RevertDposState`** goes back to round `r`, if the cache answers for the round that it needs. -/
theorem revertDposState_spec {bRound : ℤ} (hL : Records d.minerCache L) (hr : 1 ≤ r) (hlt : r < d.roundNumber)
    (hle : r ≤ bRound) (hge : bRound ≤ d.roundNumber) :
    ((if bRound < d.roundNumber then bRound + 1 else bRound - 1) ≤ L.length →
      ∃ d', revertDposState bRound r d = .ok d' ∧ BackIn L r d d') ∧
    (L.length < (if bRound < d.roundNumber then bRound + 1 else bRound - 1) →
      ∃ e, revertDposState bRound r d = .error e) := by
  by_cases hb : bRound < d.roundNumber
  · rw [if_pos hb]
    obtain ⟨hlater, hpanic⟩ := revertDposState_later hL (by omega) hb
    refine ⟨fun hk => ?_, fun hshort => ⟨_, hpanic hshort r⟩⟩
    obtain ⟨d₁, hd₁, hback⟩ := hlater hk
    by_cases hbr : bRound = r
    · refine ⟨d₁, ?_, by rwa [← hbr]⟩
      rw [hd₁, show (bRound - r).toNat = 0 by omega]
      rfl
    · obtain ⟨n, hn⟩ : ∃ n : ℕ, (bRound - r).toNat = n + 1 := ⟨(bRound - r).toNat - 1, by omega⟩
      have hlen := MinerCache.length_truncate (L := L) (show bRound + 1 ≤ L.length + 1 by omega) (by omega)
      obtain ⟨d', hd', hback'⟩ := revertRounds_spec n (i := bRound) (d := d₁) hback.cache (by omega) (by omega)
      rw [show bRound - (n + 1) = r by omega] at hback'
      exact ⟨d', by rw [hd₁, hn, hd'], hback'.trans hback.state (by omega)⟩
  · have hpos : ¬ bRound < 1 := by omega
    have hnot : ¬ d.roundNumber < bRound := by omega
    obtain ⟨n, hn⟩ : ∃ n : ℕ, (bRound - r).toNat = n + 1 := ⟨(bRound - r).toNat - 1, by omega⟩
    have hloop : revertDposState bRound r d = revertRounds (n + 1) bRound d := by
      unfold revertDposState
      rw [if_neg hpos, if_neg hb, if_neg hnot, hn]
    rw [if_neg hb, hloop]
    refine ⟨fun hk => ?_, fun hk => ⟨_, (revertRounds_succ hL (by omega) n).2 hk⟩⟩
    obtain ⟨d', hd', hback⟩ := revertRounds_spec n hL (i := bRound) (by omega) hk
    rw [show bRound - (n + 1) = r by omega] at hback
    exact ⟨d', hd', hback⟩

/-! ## The committees are back -/

/-- All of the ids are candidates exactly if none is left out. -/
theorem members_eq_iff (s : State) (ids : List Address) :
    (members s ids).map Candidate.address = ids ↔ ∀ a ∈ ids, a ∈ s.candidateState := by
  induction ids with
  | nil => simp [members]
  | cons a ids ih =>
    unfold members at ih ⊢
    have hshort : ((ids.filterMap fun id => (s.getCandidate id).toOption).map Candidate.address).length ≤ ids.length := by
      rw [List.length_map]
      exact List.length_filterMap_le _ _
    rw [List.filterMap_cons, List.forall_mem_cons, ← ih]
    unfold State.getCandidate at hshort ⊢
    cases hc : s.candidateState.lookup a with
    | none =>
      have hnot : a ∉ s.candidateState := AList.lookup_eq_none.1 hc
      refine iff_of_false (fun heq => ?_) fun h => hnot h.1
      have hlen := congrArg List.length heq
      rw [List.length_cons] at hlen
      change (List.map _ (List.filterMap _ ids)).length = _ at hlen
      omega
    | some c =>
      have hin : a ∈ s.candidateState := AList.lookup_isSome.1 (by rw [hc]; rfl)
      have hkey : c.address = a := s.keyed _ (AList.mem_lookup_iff.1 hc)
      dsimp only [Except.toOption]
      rw [List.map_cons, hkey, List.cons_inj_right]
      exact (and_iff_right hin).symm

theorem stillCandidates_iff (hL : Records d.minerCache L) (k : ℤ) :
    d.StillCandidates k ↔ ∀ a ∈ (L.committee k).getD [], a ∈ d.state.candidateState := by
  rw [← hL.minersInRound]
  unfold StillCandidates
  cases d.minerCache.minersInRound k with
  | error e => exact iff_of_true (fun _ h => nomatch h) fun _ ha => absurd ha List.not_mem_nil
  | ok miners =>
    constructor
    · intro h
      exact h miners rfl
    · intro h miners' heq
      rw [← Except.ok.inj heq]
      exact h

theorem BackIn.complete_iff (hback : BackIn L r d d') (hL : Records d.minerCache L) (hr : 1 ≤ r) (hle : r ≤ L.length) :
    RevertedTo r d d' ↔ d.StillCandidates r ∧ d.StillCandidates (r + 1) := by
  have hcur : (d'.minerCache.minersInRound r).toOption = L.committee r := by
    rw [hback.cache.minersInRound, MinerCache.committee_truncate (by omega)]
  obtain ⟨miners, hminers⟩ := Option.isSome_iff_exists.1 (MinerCache.committee_eq_some.2 ⟨hr, hle⟩)
  have hok : d'.minerCache.minersInRound r = .ok miners := by
    rw [hminers] at hcur
    cases h : d'.minerCache.minersInRound r with
    | error e =>
      rw [h] at hcur
      cases hcur
    | ok m =>
      rw [h] at hcur
      rw [Option.some.inj hcur]
  have hlast : d'.minerCache.getLast?.map MinersInRound.round = some r := by
    have hlen := MinerCache.length_truncate (L := L) (show r + 1 ≤ L.length + 1 by omega) (by omega)
    rcases hback.cache.last with ⟨-, hnil⟩ | ⟨e, he, hround⟩
    · rw [hnil] at hlen
      simp at hlen
      omega
    · rw [he, Option.map_some, hround, hlen, add_sub_cancel_right]
  rw [stillCandidates_iff hL, stillCandidates_iff hL, ← members_eq_iff, ← members_eq_iff, ← hback.committee, ← hback.next,
    ← hL.minersInRound (r + 1), hminers]
  constructor
  · intro h
    have hcommittee := h.committee
    rw [hok] at hcommittee
    exact ⟨(Except.ok.inj hcommittee).symm, h.next⟩
  · rintro ⟨hcommittee, hnext⟩
    exact ⟨hback.roundNumber, hlast, by rw [hok, hcommittee]; rfl, hnext⟩

/-! ## The way back -/

/-- `RevertDposTill` leaves the later rounds in the cache. -/
theorem not_revertedTo_till (hL : Records d.minerCache L) (hr : 1 ≤ r) (hlt : r < d.roundNumber)
    (hd' : revertDposTill r d = .ok d') : ¬ RevertedTo r d d' := by
  intro hback
  have hok := hL.isOk (r + 1)
  unfold revertDposTill at hd'
  rw [if_neg (by omega), if_pos hlt] at hd'
  cases hnext : d.minerCache.minersInRound (r + 1) with
  | error e =>
    rw [hnext] at hd'
    cases hd'
  | ok nextRoundMiners =>
    rw [hnext] at hd' hok
    cases hcur : d.minerCache.minersInRound r with
    | error e =>
      rw [hcur] at hd'
      cases hd'
    | ok curMiners =>
      rw [hcur] at hd'
      have hcache : d'.minerCache = d.minerCache := by
        rw [← Except.ok.inj hd']
        rfl
      have hlast := hback.cache
      have hle := (hok.1 rfl).2
      rw [hcache] at hlast
      rcases hL.last with ⟨hnil, -⟩ | ⟨e, he, hround⟩
      · rw [hnil] at hlast
        cases hlast
      · rw [he, Option.map_some, Option.some.injEq] at hlast
        omega

/-- A block before round `r` does not lead back to it. -/
theorem not_revertedTo_before {bRound : ℤ} (hL : Records d.minerCache L) (hlt : r < d.roundNumber) (hb : bRound < r)
    (hd' : revertDposState bRound r d = .ok d') : ¬ RevertedTo r d d' := by
  intro hback
  have hround := hback.roundNumber
  by_cases hpos : bRound < 1
  · unfold revertDposState at hd'
    rw [if_pos hpos] at hd'
    rw [← Except.ok.inj hd'] at hround
    omega
  · obtain ⟨hlater, hpanic⟩ := revertDposState_later hL (show 1 ≤ bRound by omega) (by omega)
    by_cases hk : bRound + 1 ≤ L.length
    · obtain ⟨d₁, hd₁, hback₁⟩ := hlater hk
      rw [hd₁, show (bRound - r).toNat = 0 by omega] at hd'
      have hround₁ := hback₁.roundNumber
      rw [Except.ok.inj hd'] at hround₁
      omega
    · rw [hpanic (by omega)] at hd'
      cases hd'

/-- **Back in round `r`**: from every DPOS that is reached, to every earlier round, exactly the calls
    that meet the condition restore the round. -/
theorem revertedTo_iff {orders : ℕ → CandidateOrder} {steps : List DposStep} (hrun : run orders 0 steps init = .ok d)
    (hr : 1 ≤ r) (hlt : r < d.roundNumber) (call : RevertCall) :
    (∃ d', call.run r d = .ok d' ∧ RevertedTo r d d') ↔ call.Sound r d := by
  obtain ⟨L, hL, hlen⟩ := inRounds_init.run hrun
  cases call with
  | till =>
    refine iff_of_false ?_ id
    rintro ⟨d', hd', hback⟩
    exact not_revertedTo_till hL hr hlt hd' hback
  | state bRound =>
    have hok := hL.isOk (if bRound < d.roundNumber then bRound + 1 else bRound - 1)
    constructor
    · rintro ⟨d', hd', hback⟩
      change revertDposState bRound r d = .ok d' at hd'
      have hle : r ≤ bRound := by
        by_contra hb
        exact not_revertedTo_before hL hlt (by omega) hd' hback
      have hge : bRound ≤ d.roundNumber := by
        by_contra hafter
        unfold revertDposState at hd'
        rw [if_neg (by omega), if_neg (by omega), if_pos (by omega)] at hd'
        cases hd'
      obtain ⟨hspec, herror⟩ := revertDposState_spec hL hr hlt hle hge
      by_cases hk : (if bRound < d.roundNumber then bRound + 1 else bRound - 1) ≤ L.length
      · obtain ⟨d'', hd'', hback'⟩ := hspec hk
        obtain rfl : d' = d'' := Except.ok.inj (hd'.symm.trans hd'')
        have hrL : r ≤ L.length := by split_ifs at hk <;> omega
        refine ⟨hle, hge, hok.2 ⟨?_, hk⟩, (hback'.complete_iff hL hr hrL).1 hback⟩
        split_ifs <;> omega
      · obtain ⟨e, he⟩ := herror (by omega)
        rw [hd'] at he
        cases he
    · rintro ⟨hle, hge, hanswers, hstill⟩
      have hk := (hok.1 hanswers).2
      obtain ⟨d', hd', hback⟩ := (revertDposState_spec hL hr hlt hle hge).1 hk
      have hrL : r ≤ L.length := by split_ifs at hk <;> omega
      exact ⟨d', hd', (hback.complete_iff hL hr hrL).2 hstill⟩

/-! ## Two rounds of one candidate -/

/-- `a` registers, and there are two rounds. -/
def twoRounds : List DposStep :=
  [.register "a", .advance (plainAccess ["a"] (List.nodup_singleton _)) 0,
    .advance (plainAccess ["a"] (List.nodup_singleton _)) 0]

theorem run_twoRounds : ∃ d, run (fun _ => plainOrder) 0 twoRounds init = .ok d ∧ d.roundNumber = 2 := by
  have hround : (run (fun _ => plainOrder) 0 twoRounds init).map Dpos.roundNumber = .ok 2 := by decide
  cases hd : run (fun _ => plainOrder) 0 twoRounds init with
  | error e =>
    rw [hd] at hround
    cases hround
  | ok d =>
    rw [hd] at hround
    exact ⟨d, rfl, Except.ok.inj hround⟩

/-- Back to the first round, from a block of the second one. -/
theorem revertedTo_iff_two : ∃ d, run (fun _ => plainOrder) 0 twoRounds init = .ok d ∧ 1 < d.roundNumber ∧
    ((∃ d', (RevertCall.state 2).run 1 d = .ok d' ∧ RevertedTo 1 d d') ↔ (RevertCall.state 2).Sound 1 d) := by
  obtain ⟨d, hd, hround⟩ := run_twoRounds
  have hlt : 1 < d.roundNumber := by omega
  exact ⟨d, hd, hlt, revertedTo_iff hd le_rfl hlt (.state 2)⟩

/-- The second round stays in the cache. -/
theorem not_revertedTo : ¬ ∀ (orders : ℕ → CandidateOrder) (steps : List DposStep) (d : Dpos) (r : ℤ),
    run orders 0 steps init = .ok d → 1 ≤ r → r < d.roundNumber →
      ∃ d', d.revertDposTill r = .ok d' ∧ RevertedTo r d d' := by
  intro h
  obtain ⟨d, hd, hround⟩ := run_twoRounds
  have hlt : 1 < d.roundNumber := by omega
  obtain ⟨L, hL, -⟩ := inRounds_init.run hd
  obtain ⟨d', hd', hback⟩ := h _ _ d 1 hd le_rfl hlt
  exact not_revertedTo_till hL le_rfl hlt hd' hback

end Dpos

end Timbre
