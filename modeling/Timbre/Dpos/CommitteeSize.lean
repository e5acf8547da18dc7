/-
  The size of the committee, which the DPOS stores beside the committee.

  `TransitionRound`, `AdvanceRound` and `InjectDposChanges` set it with the committee; the reverts,
  `InjectEpochState` and `NewDposUsingSnapShot` do not.  **After every call it is the length of the
  committee exactly if the calls that leave it bring a committee of this size** (`sized_iff`).
-/
import Mathlib.Data.List.TakeWhile
import Timbre.Dpos.Epoch
import Timbre.Dpos.Rewind
import Timbre.Dpos.Schedule
import Timbre.Lib.Runs

namespace Timbre

/-! ## The source -/

namespace Dpos

/-- `New`. -/
def new (comSize : UInt32) : Dpos := { init with committeeSize := comSize }

/-- The loop of `InjectDposChanges`, which appends to the committee until a candidate is missing. -/
def appendCandidates (s : State) : List Address → List Candidate → Option Err × List Candidate
  | [], committee => (none, committee)
  | id :: ids, committee => match s.getCandidate id with
    | .error e => (some e, committee)
    | .ok c => appendCandidates s ids (committee ++ [c])

/-- `InjectDposChanges`: the error returned, if any, and the DPOS afterwards. -/
def injectDposChanges (newDpos d : Dpos) : Option Err × Dpos :=
  let d := { d with
    state := newDpos.state
    roundNumber := newDpos.roundNumber
    minerCache := newDpos.minerCache
    nextRoundCommittee := newDpos.nextRoundCommittee }
  match d.minerCache.minersInRound d.roundNumber with
  | .error _ => (some (.error "Current round committe doesn't exists"), d)
  | .ok curCom => match appendCandidates d.state curCom [] with
    | (some e, committee) => (some e, { d with committee := committee })
    | (none, committee) =>
      (none, { d with committee := committee, committeeSize := UInt32.ofNat committee.length })

end Dpos

/-- A call that replaces the committee. -/
inductive DposCall where
  | transitionRound (w : WalletAccess) (order : CandidateOrder) (bcLength : ℤ) (now : Int64)
  | advanceRound (w : WalletAccess) (order : CandidateOrder) (bcHeight : ℤ) (startTime : Int64)
  | revertDposState (bRound pbRound : ℤ)
  | revertDposTill (bRound : ℤ)
  | injectEpochState (w : WalletAccess) (cMiners nextMiners : List Address) (round slotsPassed : ℤ)
  | injectDposChanges (newDpos : Dpos)
  | newDposUsingSnapShot (snapshot : DposSnapShot) (w : WalletAccess)

namespace DposCall

/-- A call that returns an error leaves the DPOS as it was. -/
def attempt (res : Except Err ClockedDpos) (d : ClockedDpos) : Except Err ClockedDpos :=
  match res with
  | .ok d' => .ok d'
  | .error (.error _) => .ok d
  | .error (.panic m) => .error (.panic m)

/-- The call; `TransitionRound` as `roundTracker` makes it, which counts the round. -/
def run : DposCall → ClockedDpos → Except Err ClockedDpos
  | transitionRound w order bcLength now, d => d.trackRound w order bcLength now
  | advanceRound w order bcHeight startTime, d => (d.advanceRoundAt w order bcHeight startTime).map Prod.fst
  | revertDposState bRound pbRound, d =>
    (d.toDpos.revertDposState bRound pbRound).map fun d' => ⟨d', d.roundStartTime⟩
  | revertDposTill bRound, d => (d.toDpos.revertDposTill bRound).map fun d' => ⟨d', d.roundStartTime⟩
  | injectEpochState w cMiners nextMiners round slotsPassed, d =>
    attempt ((d.toDpos.injectEpochState w cMiners nextMiners round slotsPassed).map fun d' => ⟨d', d.roundStartTime⟩) d
  | injectDposChanges newDpos, d => .ok ⟨(Dpos.injectDposChanges newDpos d.toDpos).2, d.roundStartTime⟩
  | newDposUsingSnapShot snapshot w, d => attempt ((Dpos.newDposUsingSnapShot snapshot w).map fun d' => ⟨d', 0⟩) d

end DposCall

/-! ## What the size should be -/

namespace ClockedDpos

/-- The size is the length of the committee, and in the loop, which reads the clock after the start of
    the round, the index of the miner is one of the committee. -/
structure Sized (d : ClockedDpos) : Prop where
  size : d.committeeSize.toNat = d.committee.length
  index : d.committee ≠ [] → ∀ ts, 0 ≤ (ts - d.roundStartTime).toInt →
    ∃ i, calcMinerIndUsingRoundTs d.roundStartTime d.committeeSize ts = .ok i ∧ 0 ≤ i.toInt ∧ i.toInt < d.committee.length

end ClockedDpos

namespace MinerCache

/-- A loop that deletes the entries of `n` rounds, down from `i`. -/
def deleteDown (i : ℤ) : ℕ → MinerCache → MinerCache
  | 0, cache => cache
  | n + 1, cache => deleteDown (i - 1) n (cache.deleteEntryInMinerCache i).2

end MinerCache

namespace Dpos

/-- The committee of the round that begins. -/
def beginning (w : WalletAccess) (order : CandidateOrder) (bcHeight : ℤ) (d : Dpos) : Except Err (List Candidate) :=
  if d.roundNumber = 0 then
    Committee.electNextCommittee (d.state.updateVotePower w) bcHeight (order.list (d.state.updateVotePower w).candidates)
  else .ok d.nextRoundCommittee

/-- The cache after the deletions of `RevertDposState`. -/
def revertedCache (bRound pbRound : ℤ) (d : Dpos) : MinerCache :=
  let cache := if d.roundNumber > bRound then
    d.minerCache.deleteEntries (bRound + 1) (d.roundNumber - bRound).toNat else d.minerCache
  cache.deleteDown bRound (bRound - pbRound).toNat

/-- The candidates among the members of a round. -/
def roundMembers (cache : MinerCache) (k : ℤ) (d : Dpos) : List Candidate :=
  members d.state ((cache.minersInRound k).toOption.getD [])

end Dpos

/-- The condition of a call.  A call that sets the size brings less than `2 ^ 32` members; another one
    brings as many as the size says, or if it brings no committee there are as many already. -/
def DposCall.Keeps (d : ClockedDpos) : DposCall → Prop
  | transitionRound w order bcHeight _ | advanceRound w order bcHeight _ =>
    ∀ committee, d.beginning w order bcHeight = .ok committee → committee.length < 2 ^ 32
  | revertDposState bRound pbRound =>
    (if bRound < 1 ∨ (d.roundNumber ≤ bRound ∧ bRound ≤ pbRound) then d.committee
      else d.roundMembers (d.revertedCache bRound pbRound) (min bRound pbRound)).length = d.committeeSize.toNat
  | revertDposTill bRound =>
    (if bRound < 1 ∨ d.roundNumber ≤ bRound then d.committee
      else d.roundMembers d.minerCache bRound).length = d.committeeSize.toNat
  | injectEpochState w cMiners nextMiners _ _ =>
    (if ∀ id ∈ cMiners ++ nextMiners, id ∈ w.getRegisteredCandidates then cMiners.length
      else d.committee.length) = d.committeeSize.toNat
  | injectDposChanges newDpos => match newDpos.minerCache.minersInRound newDpos.roundNumber with
    | .error _ => d.committee.length = d.committeeSize.toNat
    | .ok miners =>
      if ∀ id ∈ miners, id ∈ newDpos.state.candidateState then miners.length < 2 ^ 32
      else (miners.takeWhile fun id => id ∈ newDpos.state.candidateState).length = d.committeeSize.toNat
  | newDposUsingSnapShot snapshot w => ∀ entry, snapshot.minersByRound.getLast? = some entry →
      if ∀ id ∈ entry.miners, id ∈ w.getRegisteredCandidates then entry.miners = []
      else d.committee.length = d.committeeSize.toNat

/-! ## The index of the miner -/

theorem calcMinerInd_lt {size : UInt32} {start ts : Int64} (hne : size ≠ 0) (hpos : 0 ≤ (ts - start).toInt) :
    ∃ i, calcMinerIndUsingRoundTs start size ts = .ok i ∧ 0 ≤ i.toInt ∧ i.toInt < size.toNat := by
  have hsize : (Int64.ofNat size.toNat).toInt = size.toNat := by
    have hlt := size.toNat_lt
    rw [← Int64.ofInt_eq_ofNat, Int64.toInt_ofInt_of_le (by omega) (by omega)]
  have hnat : 0 < size.toNat := Nat.pos_of_ne_zero fun h => hne (UInt32.toNat_inj.1 h)
  have hlt := Int64.toInt_lt (ts - start)
  have hten : (10 : Int64).toInt = 10 := rfl
  have hslots : ((ts - start) / 10).toInt = (ts - start).toInt / 10 := by
    rw [Int64.toInt_div, hten, Int.tdiv_eq_ediv_of_nonneg hpos, Int.bmod_eq_of_le (by omega) (by omega)]
  refine ⟨_, if_neg hne, ?_⟩
  rw [Int64.toInt_mod, hsize, hslots, Int.tmod_eq_emod_of_nonneg (by omega)]
  exact ⟨Int.emod_nonneg _ (by omega), Int.emod_lt_of_pos _ (by omega)⟩

namespace ClockedDpos

variable {d d' : ClockedDpos} {w : WalletAccess} {order : CandidateOrder} {h : ℤ} {now : Int64}

/-- The index follows from the size. -/
theorem sized_iff_size : Sized d ↔ d.committee.length = d.committeeSize.toNat := by
  constructor
  · intro hd
    exact hd.size.symm
  · intro hsize
    refine ⟨hsize.symm, fun hne ts hts => ?_⟩
    rw [hsize]
    refine calcMinerInd_lt (fun hzero => hne ?_) hts
    rw [hzero] at hsize
    exact List.length_eq_zero_iff.1 hsize

theorem toNat_ofNat_length (l : List Candidate) : l.length = (UInt32.ofNat l.length).toNat ↔ l.length < 2 ^ 32 := by
  rw [UInt32.toNat_ofNat']
  omega

/-! ## The calls that set the size -/

/-- A round begins with its committee, and with the size of it. -/
def Begins (res : Except Err (List Candidate)) (d' : Dpos) : Prop :=
  res = .ok d'.committee ∧ d'.committeeSize = UInt32.ofNat d'.committee.length

theorem begins_advanceRound {d d' : Dpos} (hd' : d.advanceRound w order h = .ok d') :
    Begins (d.beginning w order h) d' := by
  rw [Dpos.advanceRound_eq] at hd'
  obtain ⟨cands, hsort, hround⟩ := except_bind_ok hd'
  have hfirst : (d.roundNumber + 1 = 1) = (d.roundNumber = 0) := propext (by omega)
  have hbeginning : d.beginning w order h = .ok (if d.roundNumber + 1 = 1 then
      Committee.copyCandToNextRoundCommittee cands
        (Committee.computeNextCommitteeSize (d.state.updateVotePower w) cands).1 else d.nextRoundCommittee) := by
    unfold Dpos.beginning Committee.electNextCommittee
    simp only [hsort, hfirst]
    split_ifs <;> rfl
  have hbegun := Dpos.beginRound_begun hround
  exact ⟨hbeginning.trans (congrArg Except.ok hbegun.committee.symm), hbegun.committeeSize⟩

theorem begins_advanceRoundAt {startTime : Int64} (hd' : (d.advanceRoundAt w order h startTime).map Prod.fst = .ok d') :
    Begins (d.beginning w order h) d'.toDpos := by
  unfold advanceRoundAt at hd'
  cases hround : d.toDpos.advanceRound w order h with
  | error e =>
    rw [hround] at hd'
    cases hd'
  | ok next =>
    have hnext : d'.toDpos = next := by
      rw [hround] at hd'
      change Except.map Prod.fst (if next.committeeSize = 0 then _ else _) = _ at hd'
      split_ifs at hd' <;> rw [← Except.ok.inj hd']
    rw [hnext]
    exact begins_advanceRound hround

theorem begins_trackRound (hd' : d.trackRound w order h now = .ok d') : Begins (d.beginning w order h) d'.toDpos := by
  unfold trackRound transitionRound at hd'
  obtain ⟨d₁, htransition, hd'⟩ := except_bind_ok hd'
  obtain ⟨cands, hsort, hround⟩ := except_bind_ok htransition
  have hbeginning : d.beginning w order h = .ok (if d.roundNumber = 0 then
      Committee.copyCandToNextRoundCommittee cands
        (Committee.computeNextCommitteeSize (d.state.updateVotePower w) cands).1 else d.nextRoundCommittee) := by
    unfold Dpos.beginning Committee.electNextCommittee
    rw [hsort]
    split_ifs <;> rfl
  rw [hbeginning]
  dsimp only at hround
  generalize (if d.roundNumber = 0 then _ else d.nextRoundCommittee) = committee at hround ⊢
  split_ifs at hround
  obtain ⟨cache, -, hround⟩ := except_bind_ok hround
  rw [← Except.ok.inj hd', ← Except.ok.inj hround]
  exact ⟨rfl, rfl⟩

/-- A round is sized exactly if its committee is not too large for the size. -/
theorem Begins.fits_iff {res : Except Err (List Candidate)} (hbegins : Begins res d'.toDpos) :
    Sized d' ↔ ∀ committee, res = .ok committee → committee.length < 2 ^ 32 := by
  obtain ⟨rfl, hsize⟩ := hbegins
  simp only [Except.ok.injEq, forall_eq']
  rw [sized_iff_size, hsize]
  exact toNat_ofNat_length _

end ClockedDpos

namespace Dpos

variable {d d' : Dpos} {w : WalletAccess} {s : State} {id : Address} {bRound pbRound : ℤ}

/-! ## The reverts -/

theorem revertRounds_eq : ∀ (n : ℕ) {i : ℤ} {d d' : Dpos}, d.revertRounds n i = .ok d' →
    d'.committeeSize = d.committeeSize ∧ d'.state = d.state ∧ d'.committee =
      if n = 0 then d.committee else d.roundMembers (d.minerCache.deleteDown i n) (i - n)
  | 0, i, d, d', hd' => by
    rw [← Except.ok.inj hd']
    exact ⟨rfl, rfl, rfl⟩
  | n + 1, i, d, d', hd' => by
    rw [revertRounds] at hd'
    dsimp only at hd'
    cases hcur : (d.minerCache.deleteEntryInMinerCache i).2.minersInRound (i - 1) with
    | error e =>
      rw [hcur] at hd'
      cases hd'
    | ok curMiners =>
      rw [hcur] at hd'
      obtain ⟨hsize, hstate, hcommittee⟩ := revertRounds_eq n hd'
      refine ⟨hsize, hstate, hcommittee.trans ?_⟩
      rw [if_neg (Nat.succ_ne_zero n)]
      by_cases hn : n = 0
      · subst hn
        unfold roundMembers MinerCache.deleteDown MinerCache.deleteDown
        rw [if_pos rfl, Nat.cast_one, hcur]
        rfl
      · rw [if_neg hn, show i - 1 - (n : ℤ) = i - ((n + 1 : ℕ) : ℤ) by push_cast; ring]
        rfl

theorem revertDposState_eq (hd' : d.revertDposState bRound pbRound = .ok d') :
    d'.committeeSize = d.committeeSize ∧ d'.committee =
      if bRound < 1 ∨ (d.roundNumber ≤ bRound ∧ bRound ≤ pbRound) then d.committee
      else d.roundMembers (d.revertedCache bRound pbRound) (min bRound pbRound) := by
  have hmin : bRound - ((bRound - pbRound).toNat : ℤ) = min bRound pbRound := by omega
  have hzero : (bRound - pbRound).toNat = 0 ↔ bRound ≤ pbRound := by omega
  unfold revertDposState at hd'
  unfold revertedCache
  by_cases hpos : bRound < 1
  · rw [if_pos hpos] at hd'
    rw [if_pos (.inl hpos), ← Except.ok.inj hd']
    exact ⟨rfl, rfl⟩
  · rw [if_neg hpos] at hd'
    by_cases hlater : d.roundNumber > bRound
    · rw [if_pos hlater] at hd'
      rw [if_pos hlater, if_neg (by omega)]
      cases hnext : d.minerCache.minersInRound (bRound + 1) with
      | error e =>
        rw [hnext] at hd'
        cases hd'
      | ok nextRoundMiners =>
        rw [hnext] at hd'
        obtain ⟨hsize, -, hcommittee⟩ := revertRounds_eq _ hd'
        refine ⟨hsize, hcommittee.trans ?_⟩
        rw [hmin]
        by_cases hle : bRound ≤ pbRound
        · rw [if_pos (hzero.2 hle), hzero.2 hle, min_eq_left hle]
          rfl
        · rw [if_neg (mt hzero.1 hle)]
          rfl
    · rw [if_neg hlater] at hd'
      rw [if_neg hlater]
      by_cases hbefore : d.roundNumber < bRound
      · rw [if_pos hbefore] at hd'
        cases hd'
      · rw [if_neg hbefore] at hd'
        obtain ⟨hsize, -, hcommittee⟩ := revertRounds_eq _ hd'
        refine ⟨hsize, hcommittee.trans ?_⟩
        rw [hmin]
        by_cases hle : bRound ≤ pbRound
        · rw [if_pos (hzero.2 hle), if_pos (.inr ⟨by omega, hle⟩)]
        · rw [if_neg (mt hzero.1 hle), if_neg (by omega)]

theorem revertDposTill_eq (hd' : d.revertDposTill bRound = .ok d') :
    d'.committeeSize = d.committeeSize ∧ d'.committee =
      if bRound < 1 ∨ d.roundNumber ≤ bRound then d.committee else d.roundMembers d.minerCache bRound := by
  unfold revertDposTill at hd'
  by_cases hpos : bRound < 1
  · rw [if_pos hpos] at hd'
    rw [if_pos (.inl hpos), ← Except.ok.inj hd']
    exact ⟨rfl, rfl⟩
  · rw [if_neg hpos] at hd'
    by_cases hlater : d.roundNumber > bRound
    · rw [if_pos hlater] at hd'
      rw [if_neg (by omega)]
      unfold roundMembers
      cases hnext : d.minerCache.minersInRound (bRound + 1) with
      | error e =>
        rw [hnext] at hd'
        cases hd'
      | ok nextRoundMiners =>
        rw [hnext] at hd'
        cases hcur : d.minerCache.minersInRound bRound with
        | error e =>
          rw [hcur] at hd'
          cases hd'
        | ok curMiners =>
          rw [hcur] at hd'
          rw [← Except.ok.inj hd']
          exact ⟨rfl, rfl⟩
    · rw [if_neg hlater] at hd'
      split_ifs at hd'
      rw [if_pos (.inr (by omega)), ← Except.ok.inj hd']
      exact ⟨rfl, rfl⟩

/-! ## The injections -/

theorem getCandidate_of_mem (hid : id ∈ s.candidateState) : ∃ c, s.getCandidate id = .ok c := by
  obtain ⟨c, hc⟩ := Option.isSome_iff_exists.1 (AList.lookup_isSome.2 hid)
  refine ⟨c, ?_⟩
  unfold State.getCandidate
  rw [hc]

theorem getCandidate_of_not_mem (hid : id ∉ s.candidateState) :
    s.getCandidate id = .error (.error "Candidate is not in store") := by
  unfold State.getCandidate
  rw [AList.lookup_eq_none.2 hid]

/-- A missing candidate is an error. -/
theorem getCandidates_missing : ∀ {ids : List Address}, (¬ ∀ id ∈ ids, id ∈ s.candidateState) →
    ids.mapM s.getCandidate = .error (.error "Candidate is not in store")
  | [], hmissing => absurd (fun _ h => absurd h List.not_mem_nil) hmissing
  | id :: ids, hmissing => by
    rw [List.mapM_cons]
    by_cases hid : id ∈ s.candidateState
    · obtain ⟨c, hc⟩ := getCandidate_of_mem hid
      rw [List.forall_mem_cons, not_and] at hmissing
      rw [hc, getCandidates_missing (hmissing hid)]
      rfl
    · rw [getCandidate_of_not_mem hid]
      rfl

theorem mem_generated (w : WalletAccess) (ids : List Address) :
    (∀ id ∈ ids, id ∈ (State.generateStateFromWallets w).candidateState) ↔ ∀ id ∈ ids, id ∈ w.getRegisteredCandidates :=
  forall₂_congr fun id _ => (State.generateStateFromWallets_spec w).1 id

/-- The loop appends the candidates before the first one that is missing. -/
theorem appendCandidates_spec (s : State) : ∀ (ids : List Address) (committee : List Candidate),
    (appendCandidates s ids committee).2.length =
      committee.length + (ids.takeWhile fun id => id ∈ s.candidateState).length ∧
    ((appendCandidates s ids committee).1 = none ↔ ∀ id ∈ ids, id ∈ s.candidateState)
  | [], committee => by simp [appendCandidates]
  | id :: ids, committee => by
    rw [appendCandidates]
    by_cases hid : id ∈ s.candidateState
    · obtain ⟨c, hc⟩ := getCandidate_of_mem hid
      obtain ⟨hlen, hnone⟩ := appendCandidates_spec s ids (committee ++ [c])
      rw [hc, List.takeWhile_cons_of_pos (by simpa using hid), List.forall_mem_cons]
      refine ⟨hlen.trans ?_, hnone.trans (and_iff_right hid).symm⟩
      rw [List.length_append, List.length_singleton, List.length_cons]
      omega
    · rw [getCandidate_of_not_mem hid, List.takeWhile_cons_of_neg (by simpa using hid)]
      exact ⟨rfl, iff_of_false nofun fun h => hid (h id List.mem_cons_self)⟩

end Dpos

/-! ## The size after a call -/

namespace ClockedDpos

theorem injectEpochState_eq {cMiners nextMiners : List Address} {round slotsPassed : ℤ}
    (hd' : (DposCall.injectEpochState w cMiners nextMiners round slotsPassed).run d = .ok d') :
    d'.committeeSize = d.committeeSize ∧ d'.committee.length =
      if ∀ id ∈ cMiners ++ nextMiners, id ∈ w.getRegisteredCandidates then cMiners.length else d.committee.length := by
  unfold DposCall.run Dpos.injectEpochState at hd'
  dsimp only at hd'
  simp only [List.forall_mem_append, ← Dpos.mem_generated]
  by_cases hminers : ∀ id ∈ cMiners, id ∈ (State.generateStateFromWallets w).candidateState
  · obtain ⟨cs, hcs, haddr⟩ := Dpos.getCandidates cMiners hminers
    rw [hcs] at hd'
    by_cases hnext : ∀ id ∈ nextMiners, id ∈ (State.generateStateFromWallets w).candidateState
    · obtain ⟨ncs, hncs, -⟩ := Dpos.getCandidates nextMiners hnext
      rw [hncs] at hd'
      rw [if_pos ⟨hminers, hnext⟩, ← Except.ok.inj hd', ← haddr, List.length_map]
      exact ⟨rfl, rfl⟩
    · rw [Dpos.getCandidates_missing hnext] at hd'
      rw [if_neg fun h => hnext h.2, ← Except.ok.inj hd']
      exact ⟨rfl, rfl⟩
  · rw [Dpos.getCandidates_missing hminers] at hd'
    rw [if_neg fun h => hminers h.1, ← Except.ok.inj hd']
    exact ⟨rfl, rfl⟩

theorem injectDposChanges_sized {newDpos : Dpos} (hd' : (DposCall.injectDposChanges newDpos).run d = .ok d') :
    d'.committee.length = d'.committeeSize.toNat ↔ (DposCall.injectDposChanges newDpos).Keeps d := by
  unfold DposCall.run Dpos.injectDposChanges at hd'
  unfold DposCall.Keeps
  dsimp only at hd' ⊢
  cases hminers : newDpos.minerCache.minersInRound newDpos.roundNumber with
  | error e =>
    rw [hminers] at hd'
    rw [← Except.ok.inj hd']
  | ok miners =>
    rw [hminers] at hd'
    obtain ⟨hlen, hnone⟩ := Dpos.appendCandidates_spec newDpos.state miners []
    rw [List.length_nil, zero_add] at hlen
    cases happend : Dpos.appendCandidates newDpos.state miners [] with
    | mk err committee =>
      rw [happend] at hlen hnone
      dsimp only at hd' hlen hnone ⊢
      rw [happend] at hd'
      cases err with
      | some e =>
        rw [if_neg (mt hnone.2 nofun), ← hlen, ← Except.ok.inj hd']
      | none =>
        have hall := hnone.1 rfl
        have hwhole : miners.takeWhile (fun id => id ∈ newDpos.state.candidateState) = miners :=
          List.takeWhile_eq_self_iff.2 (by simpa using hall)
        rw [hwhole] at hlen
        rw [if_pos hall, ← hlen, ← Except.ok.inj hd']
        exact toNat_ofNat_length committee

theorem newDposUsingSnapShot_sized {snapshot : DposSnapShot}
    (hd' : (DposCall.newDposUsingSnapShot snapshot w).run d = .ok d') :
    d'.committee.length = d'.committeeSize.toNat ↔ (DposCall.newDposUsingSnapShot snapshot w).Keeps d := by
  unfold DposCall.run Dpos.newDposUsingSnapShot at hd'
  unfold DposCall.Keeps
  dsimp only at hd' ⊢
  cases hentry : snapshot.minersByRound.getLast? with
  | none =>
    rw [hentry] at hd'
    cases hd'
  | some entry =>
    rw [hentry] at hd'
    simp only [Option.some.injEq, forall_eq', ← Dpos.mem_generated]
    dsimp only at hd'
    by_cases hall : ∀ id ∈ entry.miners, id ∈ (State.generateStateFromWallets w).candidateState
    · obtain ⟨cs, hcs, haddr⟩ := Dpos.getCandidates entry.miners hall
      rw [hcs] at hd'
      rw [if_pos hall, ← Except.ok.inj hd', ← haddr, List.map_eq_nil_iff]
      exact List.length_eq_zero_iff
    · rw [Dpos.getCandidates_missing hall] at hd'
      rw [if_neg hall, ← Except.ok.inj hd']

/-- **One call** leaves the size right exactly if it meets the condition. -/
theorem run_sized_iff {call : DposCall} (hd' : call.run d = .ok d') : Sized d' ↔ call.Keeps d := by
  cases call with
  | transitionRound w order bcLength now => exact (begins_trackRound hd').fits_iff
  | advanceRound w order bcHeight startTime => exact (begins_advanceRoundAt hd').fits_iff
  | revertDposState bRound pbRound =>
    obtain ⟨d₁, hd₁, rfl⟩ := except_map_ok hd'
    obtain ⟨hsize, hcommittee⟩ := Dpos.revertDposState_eq hd₁
    rw [sized_iff_size, hsize, hcommittee]
    rfl
  | revertDposTill bRound =>
    obtain ⟨d₁, hd₁, rfl⟩ := except_map_ok hd'
    obtain ⟨hsize, hcommittee⟩ := Dpos.revertDposTill_eq hd₁
    rw [sized_iff_size, hsize, hcommittee]
    rfl
  | injectEpochState w cMiners nextMiners round slotsPassed =>
    obtain ⟨hsize, hlen⟩ := injectEpochState_eq hd'
    rw [sized_iff_size, hsize, hlen]
    rfl
  | injectDposChanges newDpos => exact sized_iff_size.trans (injectDposChanges_sized hd')
  | newDposUsingSnapShot snapshot w => exact sized_iff_size.trans (newDposUsingSnapShot_sized hd')

/-- **The size is the length of the committee after every call**, in every run from a new DPOS on,
    exactly if the calls meet the condition. -/
theorem sized_iff (comSize : UInt32) (calls : List DposCall) :
    Runs.Always DposCall.run (fun _ _ res => ∀ d', res = .ok d' → Sized d') calls ⟨.new comSize, 0⟩ ↔
      Runs.Always DposCall.run (fun call d res => res.isOk → call.Keeps d) calls ⟨.new comSize, 0⟩ := by
  refine Runs.always_iff (I := fun _ => True) (fun call d _ => ?_) (fun _ _ _ _ _ _ => trivial) calls trivial
  cases hrun : call.run d with
  | error e => exact iff_of_true nofun nofun
  | ok d' =>
    have hone := run_sized_iff hrun
    constructor
    · intro h _
      exact hone.1 (h d' rfl)
    · intro h d'' heq
      rw [← Except.ok.inj heq]
      exact hone.2 (h rfl)

/-- An epoch with a committee of one, on a node that has no committee yet. -/
def epochCall : DposCall :=
  .injectEpochState (Dpos.plainAccess ["a"] (List.nodup_singleton _)) ["a"] ["a"] 1 1

/-- The epoch brings a committee, and the size stays 0. -/
theorem not_sized : ¬ ∀ (comSize : UInt32) (calls : List DposCall),
    Runs.Always DposCall.run (fun _ _ res => ∀ d', res = .ok d' → Sized d') calls ⟨.new comSize, 0⟩ := by
  intro h
  have hsized := (h 0 [epochCall]).1
  have hok : (epochCall.run ⟨.new 0, 0⟩).isOk = true := by decide
  cases hrun : epochCall.run ⟨.new 0, 0⟩ with
  | error e =>
    rw [hrun] at hok
    cases hok
  | ok d' =>
    have hkeeps := (run_sized_iff hrun).1 (hsized d' hrun)
    unfold epochCall DposCall.Keeps at hkeeps
    exact absurd hkeeps (by decide)

end ClockedDpos

end Timbre
