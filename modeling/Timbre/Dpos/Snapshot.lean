/-
  Snapshots of the DPOS.

  A snapshot holds the round, the miner cache and the next committee; the candidates come
  from the wallets, and the committee from the last entry of the cache.  **The restored DPOS
  answers as the old one, if the committee has not quit and the staked votes are those of the
  candidates** (`snapshot_roundTrip`).
-/
import Mathlib.Data.UInt
import Mathlib.Tactic.Abel
import Mathlib.Tactic.Tauto
import Timbre.Dpos.Committee
import Timbre.Dpos.MinerCache
import Timbre.Wallet.Blocks

namespace Timbre

/-! ## The source -/

/-- `WalletAccess`.  The registered candidates are keys of the map of wallets. -/
structure WalletAccess where
  getRegisteredCandidates : List Address
  getCandVotePower : Address → Except Err (UInt64 × ℤ)
  nodup : getRegisteredCandidates.Nodup
  registered : ∀ a ∈ getRegisteredCandidates, (getCandVotePower a).isOk

/-- The order in which a map yields the candidates. -/
structure CandidateOrder where
  list : List Candidate → List Candidate
  perm : ∀ l, (list l).Perm l

/-- The access that the wallet manager gives. -/
def WalletManager.access (wm : WalletManager) (order : MapOrder) : WalletAccess where
  getRegisteredCandidates := (order.list wm.walletByAddress.keys).filter fun a => (wm.wallet a).isCandidate
  getCandVotePower a :=
    if a ∈ wm.walletByAddress.keys then .ok ((wm.wallet a).votePower, (wm.wallet a).bannedTill.toInt)
    else .error (.error "Candidate doesn't exist")
  nodup := (order.nodup _).filter _
  registered a ha := by
    rw [if_pos ((order.mem _ a).1 (List.mem_filter.1 ha).1)]
    rfl

namespace State

/-- A candidate with the votes and the ban that its wallet has. -/
def refresh (w : WalletAccess) (c : Candidate) : Candidate :=
  match w.getCandVotePower c.address with
  | .error _ => c
  | .ok (newVP, bannedHeight) => { c with votePower := newVP.toInt64, bannedTill := bannedHeight }

theorem address_refresh (w : WalletAccess) (c : Candidate) : (refresh w c).address = c.address := by
  unfold refresh
  split <;> rfl

/-- `UpdateVotePower`; the order of the map makes no difference. -/
def updateVotePower (w : WalletAccess) (s : State) : State where
  candidateState := ⟨s.candidateState.entries.map fun e => ⟨e.1, refresh w e.2⟩, by
    have hkeys : (s.candidateState.entries.map fun e => (⟨e.1, refresh w e.2⟩ : Sigma fun _ : Address => Candidate)).keys =
        s.candidateState.keys := by
      rw [List.keys, List.map_map]
      rfl
    rw [List.NodupKeys, hkeys]
    exact s.candidateState.keys_nodup⟩
  totalVoteStaked := s.candidates.foldl
    (fun total c => total + ((refresh w c).votePower - c.votePower).toUInt64) s.totalVoteStaked
  childCommitteeSize := s.childCommitteeSize
  keyed e he := by
    obtain ⟨e', he', rfl⟩ := List.mem_map.1 he
    exact (address_refresh w e'.2).trans (s.keyed e' he')

/-- One round of `GenerateStateFromWallets`. -/
def addCandidate (w : WalletAccess) (s : State) (cand : Address) : State :=
  match w.getCandVotePower cand with
  | .error _ => s
  | .ok (newVP, bannedHeight) =>
    { s with
      candidateState := s.candidateState.insert cand ⟨cand, newVP.toInt64, bannedHeight⟩
      totalVoteStaked := s.totalVoteStaked + newVP
      keyed := keyed_insert (c := ⟨cand, newVP.toInt64, bannedHeight⟩) s.keyed }

/-- `GenerateStateFromWallets`. -/
def generateStateFromWallets (w : WalletAccess) : State :=
  w.getRegisteredCandidates.foldl (addCandidate w) newDposState

/-- `GetCandidate`. -/
def getCandidate (s : State) (id : Address) : Except Err Candidate :=
  match s.candidateState.lookup id with
  | some c => .ok c
  | none => .error (.error "Candidate is not in store")

end State

/-- `Dpos`, without its clock. -/
structure Dpos where
  roundNumber : ℤ
  state : State
  committee : List Candidate
  nextRoundCommittee : List Candidate
  minerCache : MinerCache
  committeeSize : UInt32

/-- `DposSnapShot`. -/
structure DposSnapShot where
  roundNumber : ℤ
  minersByRound : List MinersInRound
  nextRoundCom : List Candidate

namespace Dpos

/-- `New`.  The size of the committee is set by the first round. -/
def init : Dpos := ⟨0, .newDposState, [], [], [], 0⟩

/-- `AdvanceRound`.  Without a committee the cache gets no entry. -/
def advanceRound (w : WalletAccess) (order : CandidateOrder) (bcHeight : ℤ) (d : Dpos) : Except Err Dpos := do
  let roundNumber := d.roundNumber + 1
  let state := d.state.updateVotePower w
  let committeeCand ← State.sortByVotes bcHeight (order.list state.candidates)
  let (nextComSize, state) := Committee.computeNextCommitteeSize state committeeCand
  let elected := Committee.copyCandToNextRoundCommittee committeeCand nextComSize
  let committee := if roundNumber = 1 then elected else d.nextRoundCommittee
  let committeeSize := UInt32.ofNat committee.length
  let d : Dpos := ⟨roundNumber, state, committee, elected, d.minerCache, committeeSize⟩
  if committeeSize = 0 then return d
  let minerCache ← d.minerCache.addOrUpdateMinerEntry (committee.map Candidate.address) roundNumber
  return { d with minerCache := minerCache }

/-- `DposSnapshotUsingPb`. -/
def dposSnapshotUsingPb (d : Dpos) : DposSnapShot where
  roundNumber := d.roundNumber
  minersByRound := d.minerCache
  nextRoundCom := d.nextRoundCommittee

/-- `NewDposUsingSnapShot`. -/
def newDposUsingSnapShot (snapshot : DposSnapShot) (w : WalletAccess) : Except Err Dpos :=
  let state := State.generateStateFromWallets w
  match snapshot.minersByRound.getLast? with
  | none => .error (.panic "index out of range [-1]")
  | some entry => do
    let committee ← entry.miners.mapM state.getCandidate
    return ⟨snapshot.roundNumber, state, committee, snapshot.nextRoundCom, snapshot.minersByRound, 0⟩

/-! ## Runs -/

/-- What happens to a DPOS.  Every round comes with the wallets as they are then. -/
inductive DposStep where
  | advance (w : WalletAccess) (bcHeight : ℤ)
  | register (id : Address)
  | resign (id : Address)

/-- One step; a registration or a resignation that is refused changes nothing. -/
def DposStep.run (order : CandidateOrder) : DposStep → Dpos → Except Err Dpos
  | advance w bcHeight, d => d.advanceRound w order bcHeight
  | register id, d => .ok (match d.state.registerCand id with
    | .ok s => { d with state := s }
    | .error _ => d)
  | resign id, d => .ok (match d.state.quitCandidate id with
    | .ok s => { d with state := s }
    | .error _ => d)

/-- Steps one after the other, the map being in another order in each. -/
def run (orders : ℕ → CandidateOrder) : ℕ → List DposStep → Dpos → Except Err Dpos
  | _, [], d => .ok d
  | i, step :: steps, d => do run orders (i + 1) steps (← step.run (orders i) d)

/-- The DPOS that are reached with the wallets `w`: candidates register and resign in both, and
    the votes change in the wallets. -/
inductive Reached : Dpos → WalletAccess → Prop
  | init {w : WalletAccess} : w.getRegisteredCandidates = [] → Reached init w
  | advance {d d' : Dpos} {w : WalletAccess} (order : CandidateOrder) (bcHeight : ℤ) : Reached d w →
      d.advanceRound w order bcHeight = .ok d' → Reached d' w
  | register {d : Dpos} {w w' : WalletAccess} {s : State} {id : Address} : Reached d w →
      d.state.registerCand id = .ok s →
      (∀ a, a ∈ w'.getRegisteredCandidates ↔ a = id ∨ a ∈ w.getRegisteredCandidates) →
      Reached { d with state := s } w'
  | resign {d : Dpos} {w w' : WalletAccess} {s : State} {id : Address} : Reached d w →
      d.state.quitCandidate id = .ok s →
      (∀ a, a ∈ w'.getRegisteredCandidates ↔ a ≠ id ∧ a ∈ w.getRegisteredCandidates) →
      Reached { d with state := s } w'
  | votes {d : Dpos} {w w' : WalletAccess} : Reached d w →
      (∀ a, a ∈ w'.getRegisteredCandidates ↔ a ∈ w.getRegisteredCandidates) → Reached d w'

end Dpos

/-! ## What a restored DPOS should answer -/

/-- The votes staked in total that are not those of the candidates. -/
def State.excess (s : State) : UInt64 := s.totalVoteStaked - (s.candidates.map fun c => c.votePower.toUInt64).sum

namespace Dpos

/-- The same rounds, committees and next committees, and the same answers of `MinersInRound`.
    The votes of the committee are the same once it has been renewed. -/
structure SameView (renewed : Bool) (d r : Dpos) : Prop where
  roundNumber : r.roundNumber = d.roundNumber
  committee : r.committee.map Candidate.address = d.committee.map Candidate.address
  committeeRenewed : renewed → r.committee = d.committee
  nextRoundCommittee : r.nextRoundCommittee = d.nextRoundCommittee
  minersInRound : ∀ k, r.minerCache.minersInRound k = d.minerCache.minersInRound k

/-- Two calls end alike: with related results, or with the same error. -/
def Agree (R : Dpos → Dpos → Prop) : Except Err Dpos → Except Err Dpos → Prop
  | .ok d, .ok r => R d r
  | .error e, .error e' => e' = e
  | _, _ => False

/-- The last round has a committee, none of its members has quit, and the votes staked in total
    are those of the candidates. -/
structure Snapshottable (d : Dpos) (w : WalletAccess) : Prop where
  elected : d.committeeSize ≠ 0
  members : ∀ c ∈ d.committee, c.address ∈ w.getRegisteredCandidates
  staked : d.state.excess = 0

/-- The candidates whose votes the next `UpdateVotePower` changes. -/
def stale (d : Dpos) (w : WalletAccess) : Set Address :=
  {id | ∃ c, d.state.candidateState.lookup id = some c ∧ (State.refresh w c).votePower ≠ c.votePower}

/-- `AdvanceRound` renews the votes of all candidates, and the committee. -/
def DposStep.renews : DposStep → Bool
  | advance _ _ => true
  | register _ | resign _ => false

/-- The condition of a step: the candidates of a round have wallets and at most one of them is
    banned, and no candidate resigns whose votes have been stale since the snapshot. -/
def SoundStep (stale : Set Address) (renewed : Bool) (d : Dpos) : DposStep → Prop
  | .advance w bcHeight => (∀ a ∈ d.state.candidateState, (w.getCandVotePower a).isOk) ∧
      (bcHeight = 0 ∨ (d.state.updateVotePower w).candidates.countP (fun c => State.Banned bcHeight c) ≤ 1)
  | .register _ => True
  | .resign id => renewed ∨ id ∉ stale

/-- The condition of all steps of a run. -/
def SoundRun (orders : ℕ → CandidateOrder) (stale : Set Address) : Bool → ℕ → List DposStep → Dpos → Prop
  | _, _, [], _ => True
  | renewed, i, step :: steps, d => SoundStep stale renewed d step ∧
      ∀ d', step.run (orders i) d = .ok d' → SoundRun orders stale (renewed || step.renews) (i + 1) steps d'

end Dpos

/-! ## The votes staked in total -/

namespace State

variable {w : WalletAccess} {s : State} {id : Address}

theorem foldl_add (f : Candidate → UInt64) : ∀ (l : List Candidate) (total : UInt64),
    l.foldl (fun total c => total + f c) total = total + (l.map f).sum
  | [], total => by simp
  | c :: l, total => by
    rw [List.foldl_cons, foldl_add f l, List.map_cons, List.sum_cons, add_assoc]

theorem candidates_updateVotePower (w : WalletAccess) (s : State) :
    (s.updateVotePower w).candidates = s.candidates.map (refresh w) := by
  rw [candidates, candidates, updateVotePower, List.map_map, List.map_map]
  rfl

/-- **`UpdateVotePower`** keeps what is staked beyond the votes of the candidates. -/
theorem excess_updateVotePower (w : WalletAccess) (s : State) : (s.updateVotePower w).excess = s.excess := by
  have hsum : ∀ l : List Candidate, (l.map fun c => ((refresh w c).votePower - c.votePower).toUInt64).sum =
      (l.map fun c => (refresh w c).votePower.toUInt64).sum - (l.map fun c => c.votePower.toUInt64).sum := by
    intro l
    induction l with
    | nil => simp
    | cons c l ih =>
      rw [List.map_cons, List.sum_cons, ih, List.map_cons, List.sum_cons, List.map_cons, List.sum_cons, Int64.toUInt64_sub]
      abel
  rw [excess, excess, candidates_updateVotePower, List.map_map]
  show s.candidates.foldl _ s.totalVoteStaked - _ = _
  rw [foldl_add, hsum]
  show s.totalVoteStaked + (_ - _) - (s.candidates.map fun c => (refresh w c).votePower.toUInt64).sum = _
  abel

theorem candidates_insert {c : Candidate} (h : c.address ∉ s.candidateState) (total : UInt64) (size : UInt32)
    (hkeyed : ∀ e ∈ (s.candidateState.insert c.address c).entries, e.2.address = e.1) :
    candidates ⟨s.candidateState.insert c.address c, total, size, hkeyed⟩ = c :: s.candidates := by
  rw [candidates, AList.entries_insert_of_notMem h]
  rfl

theorem mem_updateVotePower (a : Address) : a ∈ (s.updateVotePower w).candidateState ↔ a ∈ s.candidateState := by
  have hkeys : (s.updateVotePower w).candidateState.keys = s.candidateState.keys := by
    show (s.candidateState.entries.map fun e => (⟨e.1, refresh w e.2⟩ : Sigma fun _ : Address => Candidate)).keys = _
    rw [List.keys, List.map_map]
    rfl
  rw [AList.mem_keys, AList.mem_keys, hkeys]

theorem excess_registerCand {s' : State} (h : s.registerCand id = .ok s') : s'.excess = s.excess := by
  unfold registerCand at h
  split_ifs at h with hmem
  obtain rfl := Except.ok.inj h
  rw [excess, excess, candidates_insert (c := ⟨id, 0, -1⟩) hmem, List.map_cons, List.sum_cons]
  have hzero : (0 : Int64).toUInt64 = 0 := rfl
  show s.totalVoteStaked - ((0 : Int64).toUInt64 + _) = _
  rw [hzero, zero_add]

theorem lookup_registerCand {s' : State} (h : s.registerCand id = .ok s') (a : Address) :
    s'.candidateState.lookup a = if a = id then some ⟨id, 0, -1⟩ else s.candidateState.lookup a := by
  unfold registerCand at h
  split_ifs at h
  obtain rfl := Except.ok.inj h
  split_ifs with ha
  · rw [ha]
    exact AList.lookup_insert _
  · exact AList.lookup_insert_ne ha

theorem lookup_quitCandidate {s' : State} {a : Address} {c : Candidate} (h : s.quitCandidate id = .ok s')
    (hc : s'.candidateState.lookup a = some c) : s.candidateState.lookup a = some c := by
  unfold quitCandidate at h
  split_ifs at h
  obtain rfl := Except.ok.inj h
  by_cases ha : a = id
  · subst ha
    simp at hc
  · rwa [← AList.lookup_erase_ne ha]

/-- The votes of a candidate that quits stay in the total. -/
theorem excess_quitCandidate {s' : State} {c : Candidate} (h : s.quitCandidate id = .ok s')
    (hc : s.candidateState.lookup id = some c) : s'.excess = s.excess + c.votePower.toUInt64 := by
  unfold quitCandidate at h
  split_ifs at h with hmem
  obtain rfl := Except.ok.inj h
  obtain ⟨b, l₁, l₂, hnot, hentries, herase⟩ := List.exists_of_kerase (AList.mem_keys.1 hmem)
  obtain rfl : b = c := by
    have hb : (⟨id, b⟩ : Sigma fun _ : Address => Candidate) ∈ s.candidateState.entries := by
      rw [hentries]
      simp
    exact Option.some.inj ((AList.mem_lookup_iff.2 hb).symm.trans hc)
  have hcandidates : s.candidates = l₁.map Sigma.snd ++ b :: l₂.map Sigma.snd := by
    rw [candidates, hentries, List.map_append, List.map_cons]
  have hrest : candidates ⟨s.candidateState.erase id, s.totalVoteStaked, s.childCommitteeSize, keyed_erase id s.keyed⟩ =
      l₁.map Sigma.snd ++ l₂.map Sigma.snd := by
    show (s.candidateState.entries.kerase id).map Sigma.snd = _
    rw [herase, List.map_append]
  rw [excess, excess, hcandidates]
  show s.totalVoteStaked - ((candidates ⟨s.candidateState.erase id, _, _, _⟩).map _).sum = _
  rw [hrest]
  simp only [List.map_append, List.map_cons, List.sum_append, List.sum_cons]
  abel

/-! ## The state from the wallets -/

/-- A candidate as its wallet has it. -/
def ofWallet (w : WalletAccess) (a : Address) : Candidate := refresh w ⟨a, 0, -1⟩

theorem refresh_eq_ofWallet {c : Candidate} (h : (w.getCandVotePower c.address).isOk) :
    refresh w c = ofWallet w c.address := by
  unfold ofWallet refresh
  dsimp only
  cases hget : w.getCandVotePower c.address with
  | error e =>
    rw [hget] at h
    cases h
  | ok v => rfl

/-- **`UpdateVotePower`** makes the candidates those that the wallets have. -/
theorem candidates_refreshed (h : ∀ a ∈ s.candidateState, (w.getCandVotePower a).isOk) :
    (s.updateVotePower w).candidates = s.candidateState.keys.map (ofWallet w) := by
  rw [candidates_updateVotePower, candidates, List.map_map, AList.keys, List.keys, List.map_map]
  refine List.map_congr_left fun e he => ?_
  have hkey : e.2.address = e.1 := s.keyed e he
  have hmem : e.1 ∈ s.candidateState := AList.mem_keys.2 (List.mem_map_of_mem he)
  show refresh w e.2 = ofWallet w e.1
  rw [refresh_eq_ofWallet (by rw [hkey]; exact h _ hmem), hkey]

/-- The candidates are those that the wallets have. -/
def Fresh (w : WalletAccess) (s : State) : Prop := ∀ c ∈ s.candidates, c = ofWallet w c.address

theorem address_ofWallet (w : WalletAccess) (a : Address) : (ofWallet w a).address = a := address_refresh w _

theorem fresh_updateVotePower (h : ∀ a ∈ s.candidateState, (w.getCandVotePower a).isOk) :
    Fresh w (s.updateVotePower w) := by
  intro c hc
  rw [candidates_refreshed h] at hc
  obtain ⟨a, -, rfl⟩ := List.mem_map.1 hc
  rw [address_ofWallet]

theorem Fresh.lookup {c : Candidate} (h : Fresh w s) (hc : s.candidateState.lookup id = some c) : c = ofWallet w id := by
  have hentry := AList.mem_lookup_iff.1 hc
  have hkey : c.address = id := s.keyed _ hentry
  rw [← hkey]
  exact h c (List.mem_map_of_mem hentry)

theorem addCandidate_spec (hnew : id ∉ s.candidateState) (hok : (w.getCandVotePower id).isOk) :
    (∀ a, a ∈ (addCandidate w s id).candidateState ↔ a = id ∨ a ∈ s.candidateState) ∧
      (addCandidate w s id).excess = s.excess ∧ (Fresh w s → Fresh w (addCandidate w s id)) := by
  unfold addCandidate
  cases hget : w.getCandVotePower id with
  | error e =>
    rw [hget] at hok
    cases hok
  | ok v =>
    have hinsert := candidates_insert (c := ⟨id, v.1.toInt64, v.2⟩) hnew (s.totalVoteStaked + v.1) s.childCommitteeSize
      (keyed_insert s.keyed)
    refine ⟨fun a => AList.mem_insert _, ?_, fun hfresh c hc => ?_⟩
    · rw [excess, excess, hinsert, List.map_cons, List.sum_cons, UInt64.toUInt64_toInt64]
      show s.totalVoteStaked + v.1 - (v.1 + _) = _
      rw [add_comm s.totalVoteStaked, add_sub_add_left_eq_sub]
    · rw [hinsert, List.mem_cons] at hc
      rcases hc with rfl | hc
      · simp only [ofWallet, refresh, hget]
      · exact hfresh c hc

/-- **The state from the wallets** has the registered candidates, and their votes in total. -/
theorem generateStateFromWallets_spec (w : WalletAccess) :
    (∀ a, a ∈ (generateStateFromWallets w).candidateState ↔ a ∈ w.getRegisteredCandidates) ∧
      (generateStateFromWallets w).excess = 0 ∧ Fresh w (generateStateFromWallets w) := by
  have hfold : ∀ (l : List Address) (s : State), l.Nodup → (∀ a ∈ l, (w.getCandVotePower a).isOk) →
      (∀ a ∈ l, a ∉ s.candidateState) → Fresh w s →
      (∀ a, a ∈ (l.foldl (addCandidate w) s).candidateState ↔ a ∈ l ∨ a ∈ s.candidateState) ∧
        (l.foldl (addCandidate w) s).excess = s.excess ∧ Fresh w (l.foldl (addCandidate w) s) := by
    intro l
    induction l with
    | nil => intro s _ _ _ hfresh; simpa using hfresh
    | cons b l ih =>
      intro s hnodup hok hnew hfresh
      obtain ⟨hb, hl⟩ := List.nodup_cons.1 hnodup
      obtain ⟨hmem, hexcess, hkeep⟩ := addCandidate_spec (hnew b (by simp)) (hok b (by simp))
      have hnew' : ∀ a ∈ l, a ∉ (addCandidate w s b).candidateState := by
        intro a ha hin
        rcases (hmem a).1 hin with rfl | hin
        · exact hb ha
        · exact hnew a (by simp [ha]) hin
      obtain ⟨hmem', hexcess', hfresh'⟩ := ih (addCandidate w s b) hl (fun a ha => hok a (by simp [ha])) hnew' (hkeep hfresh)
      rw [List.foldl_cons]
      refine ⟨fun a => ?_, hexcess'.trans hexcess, hfresh'⟩
      rw [hmem', hmem, List.mem_cons]
      grind
  obtain ⟨hmem, hexcess, hfresh⟩ := hfold w.getRegisteredCandidates newDposState
    w.nodup w.registered (fun a _ => AList.notMem_empty a) (fun c hc => absurd hc List.not_mem_nil)
  refine ⟨fun a => (hmem a).trans ?_, hexcess.trans rfl, hfresh⟩
  exact or_iff_left (AList.notMem_empty a)

theorem ranking_congr {s' : State} (h : ℤ) (hperm : s'.candidates.Perm s.candidates) : s'.ranking h = s.ranking h := by
  have heligible : (s'.eligible h).Perm (s.eligible h) := by
    unfold eligible
    split_ifs
    · exact hperm
    · exact hperm.filter _
  refine StableSort.sort_perm heligible fun a ha b hb => ?_
  exact ranked_antisymm ((s'.eligible_sublist h).subset ha) ((s'.eligible_sublist h).subset hb)

end State

namespace Committee

variable {s s' : State} {cs : List Candidate}

theorem computeNextCommitteeSize_congr (h : s'.totalVoteStaked = s.totalVoteStaked) :
    (computeNextCommitteeSize s' cs).1 = (computeNextCommitteeSize s cs).1 := by
  unfold computeNextCommitteeSize
  rw [h]
  split_ifs <;> dsimp only <;> split_ifs <;> rfl

theorem computeNextCommitteeSize_snd (s : State) (cs : List Candidate) :
    ∃ size, (computeNextCommitteeSize s cs).2 = { s with childCommitteeSize := size } := by
  unfold computeNextCommitteeSize
  split_ifs <;> dsimp only <;> split_ifs <;> exact ⟨_, rfl⟩

end Committee

namespace Dpos

variable {d d' r : Dpos} {w : WalletAccess} {h : ℤ} {stale : Set Address} {renewed : Bool}

/-! ## The simulation -/

/-- What a DPOS and the one restored from it have in common. -/
structure Alike (stale : Set Address) (renewed : Bool) (d r : Dpos) : Prop where
  roundNumber : r.roundNumber = d.roundNumber
  committee : r.committee.map Candidate.address = d.committee.map Candidate.address
  committeeRenewed : renewed → r.committee = d.committee
  nextRoundCommittee : r.nextRoundCommittee = d.nextRoundCommittee
  minerCache : r.minerCache = d.minerCache
  candidates : ∀ a, a ∈ r.state.candidateState ↔ a ∈ d.state.candidateState
  excess : r.state.excess = d.state.excess
  votes : ∀ id c c', (renewed ∨ id ∉ stale) → d.state.candidateState.lookup id = some c →
    r.state.candidateState.lookup id = some c' → c'.votePower = c.votePower

theorem Alike.sameView (h : Alike stale renewed d r) : SameView renewed d r :=
  ⟨h.roundNumber, h.committee, h.committeeRenewed, h.nextRoundCommittee, fun k => by rw [h.minerCache]⟩

/-- The round that begins when the candidates have been ranked. -/
def beginRound (state : State) (committeeCand : List Candidate) (d : Dpos) : Except Err Dpos :=
  let elected := Committee.copyCandToNextRoundCommittee committeeCand
    (Committee.computeNextCommitteeSize state committeeCand).1
  let committee := if d.roundNumber + 1 = 1 then elected else d.nextRoundCommittee
  let next : Dpos := ⟨d.roundNumber + 1, (Committee.computeNextCommitteeSize state committeeCand).2, committee, elected,
    d.minerCache, UInt32.ofNat committee.length⟩
  if UInt32.ofNat committee.length = 0 then .ok next
  else do
    let minerCache ← d.minerCache.addOrUpdateMinerEntry (committee.map Candidate.address) (d.roundNumber + 1)
    return { next with minerCache := minerCache }

theorem advanceRound_eq (w : WalletAccess) (order : CandidateOrder) (h : ℤ) (d : Dpos) : d.advanceRound w order h =
    State.sortByVotes h (order.list (d.state.updateVotePower w).candidates) >>= fun committeeCand =>
      beginRound (d.state.updateVotePower w) committeeCand d := rfl

/-- A round has begun. -/
structure Begun (s : State) (cands : List Candidate) (d d' : Dpos) : Prop where
  roundNumber : d'.roundNumber = d.roundNumber + 1
  candidates : ∀ a, a ∈ d'.state.candidateState ↔ a ∈ s.candidateState
  committee : d'.committee = if d.roundNumber + 1 = 1 then
      Committee.copyCandToNextRoundCommittee cands (Committee.computeNextCommitteeSize s cands).1
    else d.nextRoundCommittee
  committeeSize : d'.committeeSize = UInt32.ofNat d'.committee.length
  /-- the cache gets the committee, if there is one -/
  minerCache : if d'.committeeSize = 0 then d'.minerCache = d.minerCache
    else d.minerCache.addOrUpdateMinerEntry (d'.committee.map Candidate.address) (d.roundNumber + 1) =
      .ok d'.minerCache

/-- **What a round does when it begins.** -/
theorem beginRound_begun {s : State} {cands : List Candidate} (hround : beginRound s cands d = .ok d') :
    Begun s cands d d' := by
  have hmem : ∀ a, a ∈ (Committee.computeNextCommitteeSize s cands).2.candidateState ↔ a ∈ s.candidateState := by
    obtain ⟨size, hs⟩ := Committee.computeNextCommitteeSize_snd s cands
    rw [hs]
    exact fun _ => Iff.rfl
  unfold beginRound at hround
  dsimp only at hround
  by_cases hzero : UInt32.ofNat (if d.roundNumber + 1 = 1 then
      Committee.copyCandToNextRoundCommittee cands (Committee.computeNextCommitteeSize s cands).1
    else d.nextRoundCommittee).length = 0
  · rw [if_pos hzero] at hround
    obtain rfl := Except.ok.inj hround
    exact ⟨rfl, hmem, rfl, rfl, (if_pos hzero).symm ▸ rfl⟩
  · rw [if_neg hzero] at hround
    obtain ⟨cache, hcache, hround⟩ := except_bind_ok hround
    obtain rfl := Except.ok.inj hround
    exact ⟨rfl, hmem, rfl, rfl, (if_neg hzero).symm ▸ hcache⟩

/-- A round gives both the same committee. -/
theorem beginRound_alike {s s' : State} (halike : Alike stale renewed d r) (htotal : s'.totalVoteStaked = s.totalVoteStaked)
    (hmem : ∀ a, a ∈ s'.candidateState ↔ a ∈ s.candidateState) (hexcess : s'.excess = s.excess)
    (hfresh : s.Fresh w) (hfresh' : s'.Fresh w) (cands : List Candidate) :
    Agree (Alike stale true) (beginRound s cands d) (beginRound s' cands r) := by
  have hvotes : ∀ id c c', (true ∨ id ∉ stale) → s.candidateState.lookup id = some c →
      s'.candidateState.lookup id = some c' → c'.votePower = c.votePower := by
    intro id c c' _ hc hc'
    rw [hfresh.lookup hc, hfresh'.lookup hc']
  unfold beginRound
  rw [Committee.computeNextCommitteeSize_congr htotal, halike.roundNumber, halike.nextRoundCommittee, halike.minerCache]
  obtain ⟨size, hs⟩ := Committee.computeNextCommitteeSize_snd s cands
  obtain ⟨size', hs'⟩ := Committee.computeNextCommitteeSize_snd s' cands
  rw [hs, hs']
  dsimp only
  generalize (if d.roundNumber + 1 = 1 then _ else d.nextRoundCommittee) = committee
  by_cases hzero : UInt32.ofNat committee.length = 0
  · rw [if_pos hzero, if_pos hzero]
    exact ⟨rfl, rfl, fun _ => rfl, rfl, rfl, hmem, hexcess, hvotes⟩
  · rw [if_neg hzero, if_neg hzero]
    cases d.minerCache.addOrUpdateMinerEntry (committee.map Candidate.address) (d.roundNumber + 1) with
    | error e => exact rfl
    | ok cache => exact ⟨rfl, rfl, fun _ => rfl, rfl, rfl, hmem, hexcess, hvotes⟩

/-- **A round keeps what the two have in common.** -/
theorem Alike.advance (halike : Alike stale renewed d r) (hsound : SoundStep stale renewed d (.advance w h))
    (order order' : CandidateOrder) :
    Agree (Alike stale true) (d.advanceRound w order h) (r.advanceRound w order' h) := by
  obtain ⟨hok, hfew⟩ := hsound
  have hok' : ∀ a ∈ r.state.candidateState, (w.getCandVotePower a).isOk := fun a ha => hok a ((halike.candidates a).1 ha)
  -- the refreshed candidates are the same
  have hkeys : r.state.candidateState.keys.Perm d.state.candidateState.keys :=
    (List.perm_ext_iff_of_nodup (AList.keys_nodup _) (AList.keys_nodup _)).2 halike.candidates
  have hperm : (r.state.updateVotePower w).candidates.Perm (d.state.updateVotePower w).candidates := by
    rw [State.candidates_refreshed hok, State.candidates_refreshed hok']
    exact hkeys.map _
  have hexcess : (r.state.updateVotePower w).excess = (d.state.updateVotePower w).excess := by
    rw [State.excess_updateVotePower, State.excess_updateVotePower, halike.excess]
  have htotal : (r.state.updateVotePower w).totalVoteStaked = (d.state.updateVotePower w).totalVoteStaked := by
    rw [State.excess, State.excess, (hperm.map _).sum_eq] at hexcess
    exact sub_left_injective hexcess
  have hmem : ∀ a, a ∈ (r.state.updateVotePower w).candidateState ↔ a ∈ (d.state.updateVotePower w).candidateState := by
    intro a
    rw [State.mem_updateVotePower, State.mem_updateVotePower, halike.candidates]
  have hfew' : h = 0 ∨ (r.state.updateVotePower w).candidates.countP (fun c => State.Banned h c) ≤ 1 := by
    rwa [hperm.countP_eq]
  rw [advanceRound_eq, advanceRound_eq, State.sortByVotes_spec (order.perm _) hfew,
    State.sortByVotes_spec (order'.perm _) hfew', State.ranking_congr h hperm]
  show Agree _ (beginRound (d.state.updateVotePower w) _ d) (beginRound (r.state.updateVotePower w) _ r)
  exact beginRound_alike halike htotal hmem hexcess (State.fresh_updateVotePower hok) (State.fresh_updateVotePower hok') _

theorem Alike.register (halike : Alike stale renewed d r) (order order' : CandidateOrder) (id : Address) :
    Agree (Alike stale renewed) ((DposStep.register id).run order d) ((DposStep.register id).run order' r) := by
  simp only [DposStep.run]
  rcases State.registerCand_cases d.state id with ⟨s, hs, hnew, hmem⟩ | ⟨e, hs, hin⟩
  · rcases State.registerCand_cases r.state id with ⟨s', hs', -, hmem'⟩ | ⟨e', -, hin'⟩
    · rw [hs, hs']
      refine ⟨halike.roundNumber, halike.committee, halike.committeeRenewed, halike.nextRoundCommittee,
        halike.minerCache, ?_, ?_, ?_⟩
      · intro a
        show a ∈ s'.candidateState ↔ a ∈ s.candidateState
        rw [hmem, hmem', halike.candidates]
      · show s'.excess = s.excess
        rw [State.excess_registerCand hs, State.excess_registerCand hs', halike.excess]
      · intro a c c' hfresh hc hc'
        change s.candidateState.lookup a = some c at hc
        change s'.candidateState.lookup a = some c' at hc'
        rw [State.lookup_registerCand hs] at hc
        rw [State.lookup_registerCand hs'] at hc'
        split_ifs at hc hc'
        · rw [← Option.some.inj hc, ← Option.some.inj hc']
        · exact halike.votes a c c' hfresh hc hc'
    · exact absurd ((halike.candidates id).1 hin') hnew
  · rcases State.registerCand_cases r.state id with ⟨s', -, hnew', -⟩ | ⟨e', hs', -⟩
    · exact absurd ((halike.candidates id).2 hin) hnew'
    · rw [hs, hs']
      exact halike

theorem Alike.resign (halike : Alike stale renewed d r) (order order' : CandidateOrder) {id : Address}
    (hsound : SoundStep stale renewed d (.resign id)) :
    Agree (Alike stale renewed) ((DposStep.resign id).run order d) ((DposStep.resign id).run order' r) := by
  simp only [DposStep.run]
  rcases State.quitCandidate_cases d.state id with ⟨s, hs, hin, hmem⟩ | ⟨e, hs, hnew⟩
  · rcases State.quitCandidate_cases r.state id with ⟨s', hs', hin', hmem'⟩ | ⟨e', -, hnew'⟩
    · rw [hs, hs']
      obtain ⟨c, hc⟩ := Option.isSome_iff_exists.1 (AList.lookup_isSome.2 hin)
      obtain ⟨c', hc'⟩ := Option.isSome_iff_exists.1 (AList.lookup_isSome.2 hin')
      refine ⟨halike.roundNumber, halike.committee, halike.committeeRenewed, halike.nextRoundCommittee,
        halike.minerCache, ?_, ?_, ?_⟩
      · intro a
        show a ∈ s'.candidateState ↔ a ∈ s.candidateState
        rw [hmem, hmem', halike.candidates]
      · -- the votes that stay in the total are the same
        show s'.excess = s.excess
        rw [State.excess_quitCandidate hs hc, State.excess_quitCandidate hs' hc', halike.excess,
          halike.votes id c c' hsound hc hc']
      · intro a b b' hfresh hb hb'
        change s.candidateState.lookup a = some b at hb
        change s'.candidateState.lookup a = some b' at hb'
        exact halike.votes a b b' hfresh (State.lookup_quitCandidate hs hb) (State.lookup_quitCandidate hs' hb')
    · exact absurd ((halike.candidates id).2 hin) hnew'
  · rcases State.quitCandidate_cases r.state id with ⟨s', -, hin', -⟩ | ⟨e', hs', -⟩
    · exact absurd ((halike.candidates id).1 hin') hnew
    · rw [hs, hs']
      exact halike

/-- **Every step keeps what the two have in common.** -/
theorem Alike.step {step : DposStep} (halike : Alike stale renewed d r) (hsound : SoundStep stale renewed d step)
    (order order' : CandidateOrder) :
    Agree (Alike stale (renewed || step.renews)) (step.run order d) (step.run order' r) := by
  cases step with
  | advance w h =>
    rw [DposStep.renews, Bool.or_true]
    exact halike.advance hsound order order'
  | register id =>
    rw [DposStep.renews, Bool.or_false]
    exact halike.register order order' id
  | resign id =>
    rw [DposStep.renews, Bool.or_false]
    exact halike.resign order order' hsound

/-- **A run keeps what the two have in common**, by induction over its steps. -/
theorem Alike.run {orders orders' : ℕ → CandidateOrder} {stale : Set Address} :
    ∀ (steps : List DposStep) (renewed : Bool) (i : ℕ) {d r : Dpos}, Alike stale renewed d r →
      SoundRun orders stale renewed i steps d →
      Agree (SameView (renewed || steps.any DposStep.renews)) (run orders i steps d) (run orders' i steps r)
  | [], renewed, i, d, r, halike, _ => by
    rw [List.any_nil, Bool.or_false]
    exact halike.sameView
  | step :: steps, renewed, i, d, r, halike, hsound => by
    have hstep := halike.step hsound.1 (orders i) (orders' i)
    have hrest := hsound.2
    rw [List.any_cons, ← Bool.or_assoc]
    show Agree _ (step.run (orders i) d >>= fun d' => Dpos.run orders (i + 1) steps d')
      (step.run (orders' i) r >>= fun r' => Dpos.run orders' (i + 1) steps r')
    cases hd : step.run (orders i) d with
    | error e =>
      cases hr : step.run (orders' i) r with
      | error e' => rw [hd, hr] at hstep; exact hstep
      | ok r' => rw [hd, hr] at hstep; exact hstep.elim
    | ok d' =>
      cases hr : step.run (orders' i) r with
      | error e' => rw [hd, hr] at hstep; exact hstep.elim
      | ok r' =>
        rw [hd, hr] at hstep
        exact Alike.run steps _ (i + 1) hstep (hrest d' hd)

/-! ## The DPOS that are reached -/

theorem getLast?_pushMiners (cache : MinerCache) (lastEntry : MinersInRound) (miners : List Address) (k : ℤ) :
    ∃ e, (cache.pushMiners lastEntry miners k).getLast? = some e ∧ e.miners = miners := by
  unfold MinerCache.pushMiners
  split_ifs with hsame
  · exact ⟨_, List.getLast?_concat, hsame.symm⟩
  · exact ⟨_, List.getLast?_concat, rfl⟩

/-- After an update the last entry has the miners. -/
theorem getLast?_addOrUpdateMinerEntry {cache cache' : MinerCache} {miners : List Address} {k : ℤ}
    (h : cache.addOrUpdateMinerEntry miners k = .ok cache') : ∃ e, cache'.getLast? = some e ∧ e.miners = miners := by
  unfold MinerCache.addOrUpdateMinerEntry at h
  cases hlast : cache.getLast? with
  | none =>
    rw [hlast] at h
    rw [← Except.ok.inj h]
    exact ⟨_, rfl, rfl⟩
  | some lastEntry =>
    rw [hlast] at h
    dsimp only at h
    by_cases hge : lastEntry.round ≥ k
    · rw [if_pos hge] at h
      cases hdel : (cache.deleteEntryInMinerCache k).2.getLast? with
      | none =>
        rw [hdel] at h
        rw [← Except.ok.inj h]
        exact ⟨_, rfl, rfl⟩
      | some lastEntry' =>
        rw [hdel] at h
        rw [← Except.ok.inj h]
        exact getLast?_pushMiners _ _ _ _
    · rw [if_neg hge] at h
      split_ifs at h
      rw [← Except.ok.inj h]
      exact getLast?_pushMiners _ _ _ _

/-- The last entry of the cache has the committee, if there is one. -/
def LastEntry (d : Dpos) : Prop :=
  d.committeeSize ≠ 0 → ∃ e, d.minerCache.getLast? = some e ∧ e.miners = d.committee.map Candidate.address

theorem beginRound_spec {s : State} {cands : List Candidate} (hround : beginRound s cands d = .ok d') :
    (∀ a, a ∈ d'.state.candidateState ↔ a ∈ s.candidateState) ∧ d'.LastEntry := by
  have hbegun := beginRound_begun hround
  refine ⟨hbegun.candidates, fun hne => ?_⟩
  have hcache := hbegun.minerCache
  rw [if_neg hne] at hcache
  exact getLast?_addOrUpdateMinerEntry hcache

theorem advanceRound_spec {order : CandidateOrder} (hround : d.advanceRound w order h = .ok d') :
    (∀ a, a ∈ d'.state.candidateState ↔ a ∈ d.state.candidateState) ∧ d'.LastEntry := by
  rw [advanceRound_eq] at hround
  obtain ⟨cands, -, hround⟩ := except_bind_ok hround
  obtain ⟨hmem, hlast⟩ := beginRound_spec hround
  exact ⟨fun a => (hmem a).trans (State.mem_updateVotePower a), hlast⟩

/-- **The candidates are those registered in the wallets, and the last entry of the cache has the
    committee.** -/
theorem Reached.spec (hreached : Reached d w) :
    (∀ a, a ∈ d.state.candidateState ↔ a ∈ w.getRegisteredCandidates) ∧ d.LastEntry := by
  induction hreached with
  | init hnone =>
    refine ⟨fun a => ?_, fun hne => absurd rfl hne⟩
    rw [hnone]
    exact iff_of_false (AList.notMem_empty a) List.not_mem_nil
  | advance order bcHeight _ hround ih =>
    obtain ⟨hmem, hlast⟩ := advanceRound_spec hround
    exact ⟨fun a => (hmem a).trans (ih.1 a), hlast⟩
  | @register d w w' s id _ hreg hwallets ih =>
    rcases State.registerCand_cases d.state id with ⟨s', hs', -, hmem⟩ | ⟨e, hs', -⟩
    · obtain rfl : s = s' := Except.ok.inj (hreg.symm.trans hs')
      refine ⟨fun a => ?_, ih.2⟩
      rw [hwallets, ← ih.1]
      exact hmem a
    · rw [hreg] at hs'
      cases hs'
  | @resign d w w' s id _ hquit hwallets ih =>
    rcases State.quitCandidate_cases d.state id with ⟨s', hs', -, hmem⟩ | ⟨e, hs', -⟩
    · obtain rfl : s = s' := Except.ok.inj (hquit.symm.trans hs')
      refine ⟨fun a => ?_, ih.2⟩
      rw [hwallets, ← ih.1]
      exact hmem a
    · rw [hquit] at hs'
      cases hs'
  | votes _ hwallets ih => exact ⟨fun a => (ih.1 a).trans (hwallets a).symm, ih.2⟩

/-! ## The restored DPOS -/

theorem getCandidates {s : State} : ∀ ids : List Address, (∀ id ∈ ids, id ∈ s.candidateState) →
    ∃ cs, ids.mapM s.getCandidate = .ok cs ∧ cs.map Candidate.address = ids
  | [], _ => ⟨[], rfl, rfl⟩
  | id :: ids, hin => by
    obtain ⟨c, hc⟩ := Option.isSome_iff_exists.1 (AList.lookup_isSome.2 (hin id (by simp)))
    obtain ⟨cs, hcs, hids⟩ := getCandidates ids fun i hi => hin i (by simp [hi])
    have hget : s.getCandidate id = .ok c := by
      unfold State.getCandidate
      rw [hc]
    have hkey : c.address = id := s.keyed _ (AList.mem_lookup_iff.1 hc)
    refine ⟨c :: cs, ?_, by rw [List.map_cons, hkey, hids]⟩
    rw [List.mapM_cons, hget, hcs]
    rfl

/-- **The DPOS is restored**, and has in common with the old one what a run keeps. -/
theorem restored (hreached : Reached d w) (hsnap : Snapshottable d w) :
    ∃ r, newDposUsingSnapShot d.dposSnapshotUsingPb w = .ok r ∧ Alike (d.stale w) false d r := by
  obtain ⟨hmem, hexcess, hfresh⟩ := State.generateStateFromWallets_spec w
  obtain ⟨hcands, hlast⟩ := hreached.spec
  obtain ⟨e, he, hminers⟩ := hlast hsnap.elected
  obtain ⟨cs, hcs, haddr⟩ := getCandidates (s := State.generateStateFromWallets w) e.miners fun id hid => by
    rw [hminers] at hid
    obtain ⟨c, hc, rfl⟩ := List.mem_map.1 hid
    exact (hmem _).2 (hsnap.members c hc)
  refine ⟨⟨d.roundNumber, State.generateStateFromWallets w, cs, d.nextRoundCommittee, d.minerCache, 0⟩, ?_, ?_⟩
  · unfold newDposUsingSnapShot dposSnapshotUsingPb
    dsimp only
    rw [he]
    dsimp only
    rw [hcs]
    rfl
  · refine ⟨rfl, haddr.trans hminers, fun hrenewed => absurd hrenewed Bool.false_ne_true, rfl, rfl, ?_, ?_, ?_⟩
    · intro a
      rw [hmem, hcands]
    · rw [hsnap.staked]
      exact hexcess
    · intro id c c' hstale hc hc'
      have hnot : id ∉ d.stale w := hstale.resolve_left Bool.false_ne_true
      -- the wallets have the votes that the candidate has
      have hsame : (State.refresh w c).votePower = c.votePower := by
        by_contra hne
        exact hnot ⟨c, hc, hne⟩
      have hkey : c.address = id := d.state.keyed _ (AList.mem_lookup_iff.1 hc)
      have hwallet : (w.getCandVotePower c.address).isOk := by
        rw [hkey]
        exact w.registered id ((hcands id).1 (AList.lookup_isSome.1 (by rw [hc]; rfl)))
      rw [hfresh.lookup hc', ← hsame, State.refresh_eq_ofWallet hwallet, hkey]

/-- **The restored DPOS answers as the old one**, in every run whose steps meet the condition. -/
theorem snapshot_roundTrip (hreached : Reached d w) (hsnap : Snapshottable d w) :
    ∃ r, newDposUsingSnapShot d.dposSnapshotUsingPb w = .ok r ∧
      ∀ (orders orders' : ℕ → CandidateOrder) (steps : List DposStep), SoundRun orders (d.stale w) false 0 steps d →
        Agree (SameView (steps.any DposStep.renews)) (run orders 0 steps d) (run orders' 0 steps r) := by
  obtain ⟨r, hr, halike⟩ := restored hreached hsnap
  exact ⟨r, hr, fun orders orders' steps hsound => halike.run steps false 0 hsound⟩

/-! ## Two candidates -/

/-- Wallets of candidates with ten votes each. -/
def plainAccess (ids : List Address) (h : ids.Nodup) : WalletAccess where
  getRegisteredCandidates := ids
  getCandVotePower a := if a ∈ ids then .ok (10, -1) else .error (.error "Candidate doesn't exist")
  nodup := h
  registered a ha := by
    rw [if_pos ha]
    rfl

def plainOrder : CandidateOrder := ⟨id, List.Perm.refl⟩

theorem nodup_pair : ["a", "b"].Nodup := by decide

def noAccess : WalletAccess := plainAccess [] (by decide)
def pairAccess : WalletAccess := plainAccess ["a", "b"] nodup_pair

/-- The state after `a` has registered. -/
def oneState : State :=
  ⟨State.newDposState.candidateState.insert "a" ⟨"a", 0, -1⟩, 0, State.defaultCommitteeSize, State.keyed_insert (c := ⟨"a", 0, -1⟩) State.newDposState.keyed⟩

/-- The state after `b` has registered too. -/
def pairState : State :=
  ⟨oneState.candidateState.insert "b" ⟨"b", 0, -1⟩, 0, State.defaultCommitteeSize, State.keyed_insert (c := ⟨"b", 0, -1⟩) oneState.keyed⟩

theorem reached_pairState : Reached { init with state := pairState } pairAccess := by
  have hinit : Reached init noAccess := .init rfl
  have ha : init.state.registerCand "a" = .ok oneState := if_neg (by decide)
  have hb : oneState.registerCand "b" = .ok pairState := if_neg (by decide)
  have hone : Reached { init with state := oneState } (plainAccess ["a"] (List.nodup_singleton _)) :=
    hinit.register ha fun a => by simp [plainAccess, noAccess]
  exact hone.register hb fun a => by simp [plainAccess, pairAccess, or_comm]

/-- Both are elected in the first round. -/
theorem reached_elected : ∃ d, Reached d pairAccess ∧ d.committee.map Candidate.address = ["a", "b"] ∧
    d.committeeSize = 2 ∧ d.state.excess = 0 ∧ d.minerCache = [⟨["a", "b"], 1, 2⟩] ∧
      "b" ∈ d.state.candidateState := by
  have hround : (advanceRound pairAccess plainOrder 0 { init with state := pairState }).map
      (fun d => (d.committee.map Candidate.address, d.committeeSize, d.state.excess, d.minerCache,
        decide ("b" ∈ d.state.candidateState))) = .ok (["a", "b"], 2, 0, [⟨["a", "b"], 1, 2⟩], true) := by
    decide
  cases hd : advanceRound pairAccess plainOrder 0 { init with state := pairState } with
  | error e =>
    rw [hd] at hround
    cases hround
  | ok d =>
    rw [hd] at hround
    have hdata := Except.ok.inj hround
    simp only [Prod.mk.injEq, decide_eq_true_eq] at hdata
    obtain ⟨hcom, hsize, hexcess, hcache, hb⟩ := hdata
    exact ⟨d, reached_pairState.advance plainOrder 0 hd, hcom, hsize, hexcess, hcache, hb⟩

/-- The committee of `a` and `b`, and the next round. -/
theorem snapshot_roundTrip_pair : ∃ d r, d.committee.map Candidate.address = ["a", "b"] ∧
    newDposUsingSnapShot d.dposSnapshotUsingPb pairAccess = .ok r ∧
      Agree (SameView true) (run (fun _ => plainOrder) 0 [.advance pairAccess 0] d)
        (run (fun _ => plainOrder) 0 [.advance pairAccess 0] r) := by
  obtain ⟨d, hreached, hcom, hsize, hexcess, -, -⟩ := reached_elected
  have hsnap : Snapshottable d pairAccess := by
    refine ⟨by rw [hsize]; decide, fun c hc => ?_, hexcess⟩
    show c.address ∈ ["a", "b"]
    rw [← hcom]
    exact List.mem_map_of_mem hc
  have hsound : SoundRun (fun _ => plainOrder) (d.stale pairAccess) false 0 [.advance pairAccess 0] d :=
    ⟨⟨fun a ha => pairAccess.registered a ((hreached.spec.1 a).1 ha), .inl rfl⟩, fun _ _ => trivial⟩
  obtain ⟨r, hr, hruns⟩ := snapshot_roundTrip hreached hsnap
  exact ⟨d, r, hcom, hr, hruns _ _ _ hsound⟩

/-- A member of the committee that has quit is not in the store. -/
theorem not_snapshot_roundTrip : ¬ ∀ (d : Dpos) (w : WalletAccess), Reached d w →
    ∃ r, newDposUsingSnapShot d.dposSnapshotUsingPb w = .ok r ∧
      ∀ (orders orders' : ℕ → CandidateOrder) (steps : List DposStep),
        Agree (SameView (steps.any DposStep.renews)) (run orders 0 steps d) (run orders' 0 steps r) := by
  intro hall
  obtain ⟨d, hreached, -, -, -, hcache, hb⟩ := reached_elected
  rcases State.quitCandidate_cases d.state "b" with ⟨s, hs, -, -⟩ | ⟨e, -, hnot⟩
  · have hquit : Reached { d with state := s } (plainAccess ["a"] (List.nodup_singleton _)) :=
      hreached.resign hs fun a => by
        simp only [plainAccess, pairAccess, List.mem_cons, List.not_mem_nil, or_false]
        constructor
        · rintro rfl
          exact ⟨by decide, .inl rfl⟩
        · rintro ⟨hne, ha⟩
          exact ha.resolve_right hne
    obtain ⟨r, hr, -⟩ := hall _ _ hquit
    have hmissing : (["a", "b"].mapM (State.generateStateFromWallets
        (plainAccess ["a"] (List.nodup_singleton _))).getCandidate).isOk = false := by decide
    unfold newDposUsingSnapShot dposSnapshotUsingPb at hr
    dsimp only at hr
    rw [hcache] at hr
    obtain ⟨cs, hcs, -⟩ := except_bind_ok hr
    change ["a", "b"].mapM _ = _ at hcs
    rw [hcs] at hmissing
    cases hmissing
  · exact hnot hb

end Dpos

end Timbre
