/-
  The genesis round, replayed.

  A node that starts from its stored blocks updates the DPOS and the wallets with each of them.  A
  block of round 1 whose miner is not that of its parent restarts the round with the candidates that
  are registered by then.  **The replayed node therefore has the committees of a node that knew all
  candidates of the genesis block from the start exactly if the round is restarted once with a
  committee** (`replay_iff`); if the miner of the genesis block has no successor, it stays alone.
-/
import Timbre.Dpos.Rewind
import Timbre.Wallet.Readiness
import Timbre.Wallet.Twins

namespace Timbre

open Call WalletManager

/-! ## The source -/

namespace Dpos

/-- The loop of `UpdateDpos`, for a number of rounds. -/
def advanceRounds (w : WalletAccess) (orders : ℕ → CandidateOrder) (bcHeight : ℤ) :
    ℕ → Dpos → Except Err Dpos
  | 0, d => .ok d
  | n + 1, d => do advanceRounds w orders bcHeight n (← d.advanceRound w (orders n) bcHeight)

/-- What a block of a new miner changes before round 1 is started again. -/
def resetRound (block : PbBlock) (d : Dpos) : Dpos :=
  { d with
    committeeSize := if block.isGenesis then 0 else d.committeeSize
    state := d.state.addGenesisRoundCand block.minerPublicKey
    roundNumber := 0 }

end Dpos

/-- The orders of the maps while a block is replayed: of the wallets, and of the candidates each
    time that they are ranked. -/
structure MapOrders where
  wallets : MapOrder
  candidates : ℕ → CandidateOrder

/-- A stored block, and the length of the chain when it is replayed. -/
structure StoredBlock where
  block : PbBlock
  bcLength : ℕ

/-- A node that replays its blocks.  The candidates of the DPOS are the executor of its wallets. -/
structure ReplayNode where
  dpos : Dpos
  wm : WalletManager

namespace ReplayNode

/-- The wallets, over the candidates of the DPOS. -/
def wallets (n : ReplayNode) : WalletManager := { n.wm with executor := n.dpos.state }

/-- A call on the wallets; their executor writes to the DPOS. -/
def onWallets (c : WM Unit) : Call ReplayNode Err Unit := fun n =>
  ((c n.wallets).1, ⟨{ n.dpos with state := (c n.wallets).2.executor }, (c n.wallets).2⟩)

/-- A change of the DPOS, which may look at the wallets. -/
def onDpos (f : WalletManager → Dpos → Except Err Dpos) : Call ReplayNode Err Unit := fun n =>
  match f n.wallets n.dpos with
  | .ok d => (.ok (), { n with dpos := d })
  | .error e => (.error e, n)

/-- An error is logged, a panic is not. -/
def logged (c : Call ReplayNode Err Unit) : Call ReplayNode Err Unit :=
  tryCatch c fun
    | .error _ => pure ()
    | e => throw e

/-- `UpdateDpos`; the block it looks up is the parent. -/
def updateDpos (orders : MapOrders) (bcLength : ℕ) (parent : Option PbBlock) (block : PbBlock) :
    Call ReplayNode Err Unit := do
  let (pbRound, prevMiner) ← if block.isGenesis then pure ((0 : ℤ), "") else match parent with
    | some pBlock => pure (pBlock.roundNum.toInt, pBlock.minerPublicKey)
    | none => throw (.error "Can't fetch parent")
  let cbRound := block.roundNum.toInt
  if cbRound = 1 ∧ block.minerPublicKey ≠ prevMiner then
    onDpos fun wm d => (d.resetRound block).advanceRound (wm.access orders.wallets) (orders.candidates 0) bcLength
    if (← get).dpos.committeeSize = 0 then throw (.error "Invalid round. Committee size is 0")
  else
    if pbRound ≠ 0 ∧ (← get).dpos.roundNumber ≠ pbRound then onDpos fun _ d => d.revertDposTill pbRound
    onDpos fun wm d => d.advanceRounds (wm.access orders.wallets) orders.candidates bcLength (cbRound - pbRound).toNat

/-- One block of `Setup`. -/
def replayBlock (E : Env) (orders : MapOrders) (parent : Option PbBlock) (b : StoredBlock) :
    Call ReplayNode Err Unit := do
  logged (updateDpos orders b.bcLength parent b.block)
  logged (onWallets (checkAndUpdateWalletStates E b.block b.block.minerPublicKey orders.wallets))

/-- `Setup`, on the blocks behind a parent. -/
def replay (E : Env) (orders : ℕ → MapOrders) : ℕ → Option PbBlock → List StoredBlock → Call ReplayNode Err Unit
  | _, _, [] => pure ()
  | i, parent, b :: bs => do
    replayBlock E (orders i) parent b
    replay E orders (i + 1) (some b.block) bs

/-! ## What a replay should end with -/

/-- The senders that register in a block. -/
def registering (block : PbBlock) : List Address :=
  (block.transactions.filter fun tx => tx.type = .becomeCandidate).map Transaction.senderId

/-- A node without any block. -/
def fresh (userAddress : Address) : ReplayNode := ⟨.init, newWalletManager userAddress⟩

/-- The same node, but it knows the candidates of the genesis block. -/
def informed (genesis : PbBlock) (userAddress : Address) : ReplayNode :=
  ⟨{ Dpos.init with state := (registering genesis).foldl State.addGenesisRoundCand .newDposState },
    newWalletManager userAddress⟩

/-- The same committees: that of round 1 as the cache has it, and the next one, which `AdvanceRound`
    makes the committee of round 2. -/
structure SameCommittees (n n' : ReplayNode) : Prop where
  miners : n.dpos.minerCache.minersInRound 1 = n'.dpos.minerCache.minersInRound 1
  next : n.dpos.nextRoundCommittee = n'.dpos.nextRoundCommittee

/-- The block restarts round 1. -/
def Restarts (parent : PbBlock) (b : StoredBlock) : Prop := b.block.minerPublicKey ≠ parent.minerPublicKey

instance (parent : PbBlock) (b : StoredBlock) : Decidable (Restarts parent b) :=
  inferInstanceAs (Decidable (_ ≠ _))

/-- The candidates of the restarted round. -/
def electorate (n : ReplayNode) (b : StoredBlock) : State :=
  (n.dpos.state.addGenesisRoundCand b.block.minerPublicKey).updateVotePower (n.wm.access .sorted)

/-- The committee that is elected from candidates whose votes are those of the wallets. -/
def elected (s : State) (h : ℤ) : List Candidate :=
  Committee.copyCandToNextRoundCommittee (s.ranking h) (Committee.computeNextCommitteeSize s (s.ranking h)).1

/-- Whenever a block restarts the round, at most one of the candidates is banned. -/
def FewBanned (E : Env) (orders : ℕ → MapOrders) : ℕ → PbBlock → List StoredBlock → ReplayNode → Prop
  | _, _, [], _ => True
  | i, parent, b :: bs, n =>
    (Restarts parent b → b.bcLength = 0 ∨
        (n.electorate b).candidates.countP (fun c => State.Banned b.bcLength c) ≤ 1) ∧
      ∀ n', replayBlock E (orders i) (some parent) b n = (.ok (), n') →
        FewBanned E orders (i + 1) b.block bs n'

/-- Some block restarts the round, and a committee is elected then; its size is counted in 32 bits. -/
def Renewed (E : Env) (orders : ℕ → MapOrders) : ℕ → PbBlock → List StoredBlock → ReplayNode → Prop
  | _, _, [], _ => False
  | i, parent, b :: bs, n =>
    (Restarts parent b ∧ UInt32.ofNat (elected (n.electorate b) b.bcLength).length ≠ 0) ∨
      ∃ n', replayBlock E (orders i) (some parent) b n = (.ok (), n') ∧
        Renewed E orders (i + 1) b.block bs n'

/-- The candidates of the genesis block. -/
def genesisCandidates (genesis : PbBlock) : Finset Address := insert genesis.minerPublicKey (registering genesis).toFinset

/-- The committee of the genesis candidates is the miner alone: it is the only candidate, as they
    are counted in 32 bits, and none has a smaller address. -/
structure Alone (genesis : PbBlock) : Prop where
  card : (genesisCandidates genesis).card % 2 ^ 32 = 1
  least : ∀ a ∈ genesisCandidates genesis, genesis.minerPublicKey ≤ a

/-! ## The restart of the round -/

variable {E : Env} {orders : MapOrders} {n n' n₁ : ReplayNode} {b : StoredBlock} {parent : PbBlock} {s x : State} {h : ℤ}
  {c : WM Unit}

/-- The cache holds round 1, or nothing. -/
def OneRound (cache : MinerCache) : Prop := cache = [] ∨ ∃ e : MinersInRound, cache = [e] ∧ e.round = 1

theorem addOrUpdate_oneRound {cache : MinerCache} (hcache : OneRound cache) (miners : List Address) :
    cache.addOrUpdateMinerEntry miners 1 = .ok [⟨miners, 1, miners.length⟩] := by
  rcases hcache with rfl | ⟨e, rfl, he⟩
  · rfl
  · unfold MinerCache.addOrUpdateMinerEntry MinerCache.deleteEntryInMinerCache
    simp [he, MinerCache.deleteScan]

/-- The cache after the election of a committee for round 1. -/
def renewedCache (committee : List Candidate) (cache : MinerCache) : MinerCache :=
  if UInt32.ofNat committee.length = 0 then cache
  else [⟨committee.map Candidate.address, 1, (committee.map Candidate.address).length⟩]

theorem oneRound_renewedCache {cache : MinerCache} (hcache : OneRound cache) (committee : List Candidate) :
    OneRound (renewedCache committee cache) := by
  unfold renewedCache
  split_ifs
  · exact hcache
  · exact .inr ⟨_, rfl, rfl⟩

/-- The DPOS after round 1 has been started with some candidates. -/
def started (s : State) (h : ℤ) (d : Dpos) : Dpos where
  roundNumber := 1
  state := (Committee.computeNextCommitteeSize s (s.ranking h)).2
  committee := elected s h
  nextRoundCommittee := elected s h
  minerCache := renewedCache (elected s h) d.minerCache
  committeeSize := UInt32.ofNat (elected s h).length

/-- **The first round** has the committee of the ranking, whatever the order of the map. -/
theorem advanceRound_first {d : Dpos} {w : WalletAccess} (hround : d.roundNumber = 0) (hcache : OneRound d.minerCache)
    (hfew : h = 0 ∨ (d.state.updateVotePower w).candidates.countP (fun c => State.Banned h c) ≤ 1)
    (order : CandidateOrder) : d.advanceRound w order h = .ok (started (d.state.updateVotePower w) h d) := by
  rw [Dpos.advanceRound_eq, State.sortByVotes_spec (order.perm _) hfew]
  change Dpos.beginRound _ _ d = _
  unfold Dpos.beginRound
  have hfirst : d.roundNumber + 1 = 1 := by omega
  simp only [hfirst, if_true]
  have hadd := addOrUpdate_oneRound hcache
  change (if UInt32.ofNat (elected (d.state.updateVotePower w) h).length = 0 then _ else _) = _
  unfold started renewedCache
  split_ifs with hzero
  · rfl
  · rw [hadd]
    rfl

/-- With two banned candidates some order of the map makes the round panic. -/
theorem advanceRound_panics {d : Dpos} {w : WalletAccess} (h0 : h ≠ 0)
    (htwo : 1 < (d.state.updateVotePower w).candidates.countP (fun c => State.Banned h c)) :
    ∃ (order : CandidateOrder) (m : String), d.advanceRound w order h = .error (.panic m) := by
  obtain ⟨l, hperm, hpanic⟩ := State.sortByVotes_panics h0 htwo
  let order : CandidateOrder := ⟨fun l' => if l' = (d.state.updateVotePower w).candidates then l else l', fun l' => by
    split_ifs with hl
    · rw [hl]
      exact hperm
    · exact .refl _⟩
  refine ⟨order, "slice bounds out of range", ?_⟩
  have hlist : order.list (d.state.updateVotePower w).candidates = l := if_pos rfl
  rw [Dpos.advanceRound_eq, hlist, hpanic]
  rfl

/-! ## What the DPOS does with a block -/

/-- The node after the restart of the round. -/
def restarted (n : ReplayNode) (b : StoredBlock) : ReplayNode :=
  { n with dpos := started (n.electorate b) b.bcLength n.dpos }

theorem logged_ok {c : Call ReplayNode Err Unit} (hc : c n = (.ok (), n')) : logged c n = (.ok (), n') :=
  tryCatch_of_ok hc

theorem logged_error {c : Call ReplayNode Err Unit} {m : String} (hc : c n = (.error (.error m), n')) :
    logged c n = (.ok (), n') := (tryCatch_of_error hc).trans rfl

theorem logged_panic {c : Call ReplayNode Err Unit} {m : String} (hc : c n = (.error (.panic m), n')) :
    logged c n = (.error (.panic m), n') := (tryCatch_of_error hc).trans rfl

/-- The branch of `UpdateDpos` that restarts the round. -/
def restart (orders : MapOrders) (b : StoredBlock) : Call ReplayNode Err Unit := do
  onDpos fun wm d => (d.resetRound b.block).advanceRound (wm.access orders.wallets) (orders.candidates 0) b.bcLength
  if (← get).dpos.committeeSize = 0 then throw (.error "Invalid round. Committee size is 0")

theorem logged_restart (hcache : OneRound n.dpos.minerCache) (hfew : b.bcLength = 0 ∨
      (n.electorate b).candidates.countP (fun c => State.Banned b.bcLength c) ≤ 1) :
    logged (restart orders b) n = (.ok (), n.restarted b) := by
  have hround : (n.dpos.resetRound b.block).advanceRound (n.wallets.access orders.wallets) (orders.candidates 0)
      b.bcLength = .ok (started (n.electorate b) b.bcLength (n.dpos.resetRound b.block)) := by
    refine advanceRound_first (d := n.dpos.resetRound b.block) rfl hcache ?_ (orders.candidates 0)
    exact hfew.imp_left Nat.cast_eq_zero.2
  have hdpos : onDpos (fun wm d => (d.resetRound b.block).advanceRound (wm.access orders.wallets)
      (orders.candidates 0) b.bcLength) n = (.ok (), n.restarted b) := by
    unfold onDpos
    dsimp only
    rw [hround]
    rfl
  by_cases hzero : (n.restarted b).dpos.committeeSize = 0
  · refine logged_error (m := "Invalid round. Committee size is 0") ?_
    rw [restart, bind_of_ok hdpos]
    change (if (n.restarted b).dpos.committeeSize = 0 then _ else _ : Call ReplayNode Err Unit) _ = _
    rw [if_pos hzero]
    rfl
  · refine logged_ok ?_
    rw [restart, bind_of_ok hdpos]
    change (if (n.restarted b).dpos.committeeSize = 0 then _ else _ : Call ReplayNode Err Unit) _ = _
    rw [if_neg hzero]
    rfl

theorem restart_panics (h0 : b.bcLength ≠ 0)
    (htwo : 1 < (n.electorate b).candidates.countP (fun c => State.Banned b.bcLength c)) (maps : MapOrder) :
    ∃ (order : CandidateOrder) (m : String), logged (restart ⟨maps, fun _ => order⟩ b) n = (.error (.panic m), n) := by
  obtain ⟨order, m, hround⟩ : ∃ (order : CandidateOrder) (m : String),
      (n.dpos.resetRound b.block).advanceRound (n.wallets.access maps) order b.bcLength = .error (.panic m) :=
    advanceRound_panics (Nat.cast_ne_zero.2 h0) htwo
  refine ⟨order, m, logged_panic (bind_of_error ?_)⟩
  unfold onDpos
  dsimp only
  rw [hround]

/-- The genesis block starts the round. -/
theorem updateDpos_genesis (hgenesis : b.block.isGenesis = true) (hround : b.block.roundNum = 1)
    (hminer : b.block.minerPublicKey ≠ "") : updateDpos orders b.bcLength none b.block = restart orders b := by
  have hone : b.block.roundNum.toInt = 1 := by
    rw [hround]
    rfl
  unfold updateDpos
  rw [if_pos hgenesis]
  change (if b.block.roundNum.toInt = 1 ∧ b.block.minerPublicKey ≠ "" then _ else _ : Call ReplayNode Err Unit) = _
  rw [if_pos ⟨hone, hminer⟩]
  rfl

theorem updateDpos_restarts (hgenesis : b.block.isGenesis = false) (hround : b.block.roundNum = 1)
    (hminer : Restarts parent b) : updateDpos orders b.bcLength (some parent) b.block = restart orders b := by
  have hone : b.block.roundNum.toInt = 1 := by
    rw [hround]
    rfl
  unfold updateDpos
  rw [hgenesis]
  change (if b.block.roundNum.toInt = 1 ∧ b.block.minerPublicKey ≠ parent.minerPublicKey then _ else _ :
    Call ReplayNode Err Unit) = _
  rw [if_pos ⟨hone, hminer⟩]
  rfl

/-- A block of the same miner changes nothing. -/
theorem updateDpos_continues (hgenesis : b.block.isGenesis = false) (hround : b.block.roundNum = 1)
    (hparent : parent.roundNum = 1) (hnode : n.dpos.roundNumber = 1) (hminer : ¬ Restarts parent b) :
    updateDpos orders b.bcLength (some parent) b.block n = (.ok (), n) := by
  have hone : b.block.roundNum.toInt = 1 := by
    rw [hround]
    rfl
  have hpone : parent.roundNum.toInt = 1 := by
    rw [hparent]
    rfl
  unfold updateDpos
  rw [hgenesis]
  change (if b.block.roundNum.toInt = 1 ∧ b.block.minerPublicKey ≠ parent.minerPublicKey then _ else _ :
    Call ReplayNode Err Unit) n = _
  rw [if_neg fun h => hminer h.2]
  change (if parent.roundNum.toInt ≠ 0 ∧ n.dpos.roundNumber ≠ parent.roundNum.toInt then _ else _ :
    Call ReplayNode Err Unit) n = _
  rw [if_neg fun h => h.2 (hnode.trans hpone.symm), hone, hpone]
  rfl

/-! ## Two nodes with the same candidates -/

theorem same_addGenesisRoundCand (hsame : s.Same x) (a : Address) :
    (s.addGenesisRoundCand a).Same (x.addGenesisRoundCand a) := by
  unfold State.addGenesisRoundCand
  by_cases ha : a ∈ s.candidateState
  · rw [if_pos ha, if_pos ((hsame.mem a).2 ha)]
    exact hsame
  · rw [if_neg ha, if_neg (mt (hsame.mem a).1 ha)]
    exact ⟨AList.perm_insert hsame.entries, hsame.total⟩

theorem candidates_perm (hsame : s.Same x) : x.candidates.Perm s.candidates := hsame.entries.map _

theorem same_updateVotePower (hsame : s.Same x) (w : WalletAccess) : (s.updateVotePower w).Same (x.updateVotePower w) := by
  refine ⟨hsame.entries.map _, ?_⟩
  change x.candidates.foldl _ x.totalVoteStaked = s.candidates.foldl _ s.totalVoteStaked
  rw [State.foldl_add, State.foldl_add, hsame.total, ((candidates_perm hsame).map _).sum_eq]

theorem elected_same (hsame : s.Same x) (h : ℤ) : elected x h = elected s h := by
  unfold elected
  rw [State.ranking_congr h (candidates_perm hsame), Committee.computeNextCommitteeSize_congr hsame.total]

theorem same_started (hsame : s.Same x) (h : ℤ) (d d' : Dpos) : (started s h d).state.Same (started x h d').state := by
  obtain ⟨size, hs⟩ := Committee.computeNextCommitteeSize_snd s (s.ranking h)
  obtain ⟨size', hx⟩ := Committee.computeNextCommitteeSize_snd x (x.ranking h)
  unfold started
  dsimp only
  rw [hs, hx]
  exact ⟨hsame.entries, hsame.total⟩

/-- Both nodes are in round 1, with the same candidates and the same wallets. -/
structure Level (n n' : ReplayNode) : Prop where
  wallets : Twins n.wallets n'.wallets
  round : n.dpos.roundNumber = 1 ∧ n'.dpos.roundNumber = 1
  cache : OneRound n.dpos.minerCache ∧ OneRound n'.dpos.minerCache

theorem Level.electorate (hlevel : Level n n') (b : StoredBlock) : (n.electorate b).Same (n'.electorate b) := by
  have haccess : n'.wallets.access .sorted = n.wallets.access .sorted := by
    rw [hlevel.wallets.wallets]
    rfl
  change State.Same (State.updateVotePower (n.wallets.access .sorted) _) (State.updateVotePower (n'.wallets.access .sorted) _)
  rw [haccess]
  exact same_updateVotePower (same_addGenesisRoundCand hlevel.wallets.executor b.block.minerPublicKey) _

theorem Level.restarted (hlevel : Level n n') (b : StoredBlock) : Level (n.restarted b) (n'.restarted b) where
  wallets := by
    have hwallets := congrArg (fun wm : WalletManager => { wm with executor := (n'.restarted b).dpos.state })
      hlevel.wallets.wallets
    exact ⟨hwallets, same_started (hlevel.electorate b) b.bcLength n.dpos n'.dpos⟩
  round := ⟨rfl, rfl⟩
  cache := ⟨oneRound_renewedCache hlevel.cache.1 _, oneRound_renewedCache hlevel.cache.2 _⟩

/-- The DPOS after a block of round 1. -/
def afterDpos (n : ReplayNode) (parent : PbBlock) (b : StoredBlock) : ReplayNode :=
  if Restarts parent b then n.restarted b else n

theorem Level.afterDpos (hlevel : Level n n') (parent : PbBlock) (b : StoredBlock) :
    Level (n.afterDpos parent b) (n'.afterDpos parent b) := by
  unfold ReplayNode.afterDpos
  split_ifs
  · exact hlevel.restarted b
  · exact hlevel

/-- A block of round 1 that is not the genesis block. -/
structure Later (b : StoredBlock) : Prop where
  notGenesis : b.block.isGenesis = false
  round : b.block.roundNum = 1

theorem logged_updateDpos (hb : Later b) (hparent : parent.roundNum = 1) (hround : n.dpos.roundNumber = 1)
    (hcache : OneRound n.dpos.minerCache) (hfew : Restarts parent b → b.bcLength = 0 ∨
      (n.electorate b).candidates.countP (fun c => State.Banned b.bcLength c) ≤ 1) :
    logged (updateDpos orders b.bcLength (some parent) b.block) n = (.ok (), n.afterDpos parent b) := by
  unfold afterDpos
  split_ifs with hminer
  · rw [updateDpos_restarts hb.notGenesis hb.round hminer]
    exact logged_restart hcache (hfew hminer)
  · exact logged_ok (updateDpos_continues hb.notGenesis hb.round hparent hround hminer)

/-- The wallets do the same on both nodes, and leave the committees alone. -/
theorem Level.onWallets (hlevel : Level n n') (hc : Parallel c) :
    (ReplayNode.onWallets c n').1 = (ReplayNode.onWallets c n).1 ∧
      Level (ReplayNode.onWallets c n).2 (ReplayNode.onWallets c n').2 := by
  obtain ⟨hval, htwins⟩ := hc _ _ hlevel.wallets
  exact ⟨hval, ⟨htwins.wallets, htwins.executor⟩, hlevel.round, hlevel.cache⟩

theorem logged_eq_ok {c : Call ReplayNode Err Unit} :
    logged c n = (.ok (), n') ↔ (∀ m, (c n).1 ≠ .error (.panic m)) ∧ (c n).2 = n' := by
  rcases hc : c n with ⟨e | x, n₁⟩
  · cases e with
    | error m => rw [logged_error hc]; simp
    | panic m => rw [logged_panic hc]; simp
  · rw [logged_ok hc]
    simp

/-- The next committee, and that of round 1, are those that the DPOS has after the block. -/
structure HasDpos (n : ReplayNode) (parent : PbBlock) (b : StoredBlock) (n₁ : ReplayNode) : Prop where
  cache : n₁.dpos.minerCache = (n.afterDpos parent b).dpos.minerCache
  next : n₁.dpos.nextRoundCommittee = (n.afterDpos parent b).dpos.nextRoundCommittee

/-- **One block** has the same effect on both nodes, if few candidates are banned. -/
theorem Level.replayBlock {orders' : MapOrders} {n₁' : ReplayNode} (hlevel : Level n n') (hb : Later b)
    (hparent : parent.roundNum = 1) (hfew : Restarts parent b → b.bcLength = 0 ∨
      (n'.electorate b).candidates.countP (fun c => State.Banned b.bcLength c) ≤ 1)
    (h' : ReplayNode.replayBlock E orders' (some parent) b n' = (.ok (), n₁')) :
    ∃ n₁, (∀ orders, ReplayNode.replayBlock E orders (some parent) b n = (.ok (), n₁)) ∧ Level n₁ n₁' ∧
      HasDpos n parent b n₁ ∧ HasDpos n' parent b n₁' := by
  have hfew' : Restarts parent b → b.bcLength = 0 ∨
      (n.electorate b).candidates.countP (fun c => State.Banned b.bcLength c) ≤ 1 := by
    rw [(candidates_perm (hlevel.electorate b)).countP_eq] at hfew
    exact hfew
  have hafter := hlevel.afterDpos parent b
  have hblock : ∀ orders, ReplayNode.replayBlock E orders (some parent) b n =
      logged (ReplayNode.onWallets (checkAndUpdateWalletStates E b.block b.block.minerPublicKey orders.wallets))
        (n.afterDpos parent b) := fun orders =>
    bind_of_ok (logged_updateDpos hb hparent hlevel.round.1 hlevel.cache.1 hfew')
  have hblock' : ReplayNode.replayBlock E orders' (some parent) b n' =
      logged (ReplayNode.onWallets (checkAndUpdateWalletStates E b.block b.block.minerPublicKey orders'.wallets))
        (n'.afterDpos parent b) :=
    bind_of_ok (logged_updateDpos hb hparent hlevel.round.2 hlevel.cache.2 hfew)
  have hparallel : Parallel (checkAndUpdateWalletStates E b.block b.block.minerPublicKey orders'.wallets) :=
    parallel_checkAndUpdateWalletStates b.block
  obtain ⟨hval, hwallets⟩ := hafter.onWallets hparallel
  rw [hblock', logged_eq_ok] at h'
  obtain ⟨hnot, rfl⟩ := h'
  refine ⟨_, fun orders => ?_, hwallets, ⟨rfl, rfl⟩, ⟨rfl, rfl⟩⟩
  rw [hblock, checkAndUpdateWalletStates_order orders.wallets orders'.wallets, logged_eq_ok]
  exact ⟨fun m hm => hnot m (hval.trans hm), rfl⟩

theorem replayBlock_panics (hb : Later b) (hminer : Restarts parent b) (h0 : b.bcLength ≠ 0)
    (htwo : 1 < (n.electorate b).candidates.countP (fun c => State.Banned b.bcLength c)) :
    ∃ (orders : MapOrders) (m : String), replayBlock E orders (some parent) b n = (.error (.panic m), n) := by
  obtain ⟨order, m, hrestart⟩ := restart_panics h0 htwo .sorted
  refine ⟨⟨.sorted, fun _ => order⟩, m, bind_of_error ?_⟩
  rw [updateDpos_restarts hb.notGenesis hb.round hminer]
  exact hrestart

/-! ## A chain of blocks -/

/-- Both nodes have the same committee of round 1 in the cache. -/
def SameMiners (n n' : ReplayNode) : Prop := n.dpos.minerCache.minersInRound 1 = n'.dpos.minerCache.minersInRound 1

/-- Both nodes have the same next committee. -/
def SameNext (n n' : ReplayNode) : Prop := n.dpos.nextRoundCommittee = n'.dpos.nextRoundCommittee

/-- **What one block does to the committees**: those of a restart are the same. -/
theorem Level.committees {n₁' : ReplayNode} (hlevel : Level n n') (hn : HasDpos n parent b n₁) (hn' : HasDpos n' parent b n₁')
    (hlinked : SameMiners n n' → SameNext n n') :
    (SameMiners n₁ n₁' ↔ (Restarts parent b ∧ UInt32.ofNat (elected (n'.electorate b) b.bcLength).length ≠ 0) ∨
      SameMiners n n') ∧ (SameMiners n₁ n₁' → SameNext n₁ n₁') := by
  have helected := elected_same (hlevel.electorate b) b.bcLength
  unfold SameMiners SameNext at *
  rw [hn.cache, hn'.cache, hn.next, hn'.next]
  unfold ReplayNode.afterDpos
  by_cases hminer : Restarts parent b
  · rw [if_pos hminer, if_pos hminer]
    change (MinerCache.minersInRound (renewedCache (elected (n.electorate b) b.bcLength) n.dpos.minerCache) 1 =
        MinerCache.minersInRound (renewedCache (elected (n'.electorate b) b.bcLength) n'.dpos.minerCache) 1 ↔ _) ∧
      (_ → elected (n.electorate b) b.bcLength = elected (n'.electorate b) b.bcLength)
    rw [helected]
    refine ⟨?_, fun _ => rfl⟩
    unfold renewedCache
    split_ifs with hzero
    · simp [hzero]
    · simp [hminer, hzero]
  · rw [if_neg hminer, if_neg hminer]
    exact ⟨by simp [hminer], hlinked⟩

theorem replay_cons {orders : ℕ → MapOrders} {i : ℕ} {parent : Option PbBlock} {bs : List StoredBlock}
    (hb : replayBlock E (orders i) parent b n = (.ok (), n')) :
    replay E orders i parent (b :: bs) n = replay E orders (i + 1) (some b.block) bs n' := bind_of_ok hb

/-- **A chain of blocks of round 1**, by induction over the blocks: the committees end the same exactly if they
    were the same, or have been renewed. -/
theorem replay_level (orders' : ℕ → MapOrders) : ∀ (bs : List StoredBlock) (i : ℕ) (parent : PbBlock)
    {n n' full : ReplayNode}, Level n n' → (SameMiners n n' → SameNext n n') → parent.roundNum = 1 →
    (∀ b ∈ bs, Later b) → replay E orders' i (some parent) bs n' = (.ok (), full) →
    ((∀ orders, ∃ m, replay E orders i (some parent) bs n = (.ok (), m) ∧ SameCommittees m full) ↔
      FewBanned E orders' i parent bs n' ∧ (Renewed E orders' i parent bs n' ∨ SameMiners n n'))
  | [], i, parent, n, n', full, hlevel, hlinked, _, _, hfull => by
    obtain rfl : n' = full := congrArg Prod.snd hfull
    simp only [FewBanned, Renewed, true_and, false_or]
    constructor
    · intro h
      obtain ⟨m, hm, hsame⟩ := h fun _ => ⟨.sorted, fun _ => ⟨id, List.Perm.refl⟩⟩
      obtain rfl : n = m := congrArg Prod.snd hm
      exact hsame.miners
    · exact fun h _ => ⟨n, rfl, h, hlinked h⟩
  | b :: bs, i, parent, n, n', full, hlevel, hlinked, hparent, hlater, hfull => by
    have hb : Later b := hlater b (by simp)
    obtain ⟨_, n₁', hblock', hrest'⟩ := bind_ok hfull
    have hdet : ∀ m, replayBlock E (orders' i) (some parent) b n' = (.ok (), m) → m = n₁' := by
      intro m hm
      rw [hblock'] at hm
      exact (congrArg Prod.snd hm).symm
    rw [FewBanned, Renewed]
    by_cases hfew : Restarts parent b → b.bcLength = 0 ∨
        (n'.electorate b).candidates.countP (fun c => State.Banned b.bcLength c) ≤ 1
    · obtain ⟨n₁, hblock, hlevel₁, hn, hn'⟩ := hlevel.replayBlock hb hparent hfew hblock'
      obtain ⟨hminers, hlinked₁⟩ := hlevel.committees hn hn' hlinked
      have hreplay : ∀ orders, replay E orders i (some parent) (b :: bs) n = replay E orders (i + 1) (some b.block) bs n₁ :=
        fun orders => replay_cons (hblock (orders i))
      have ih := replay_level orders' bs (i + 1) b.block hlevel₁ hlinked₁ hb.round (fun c hc => hlater c (by simp [hc])) hrest'
      have hbanned : (∀ m, replayBlock E (orders' i) (some parent) b n' = (.ok (), m) →
          FewBanned E orders' (i + 1) b.block bs m) ↔ FewBanned E orders' (i + 1) b.block bs n₁' :=
        ⟨fun h => h n₁' hblock', fun h m hm => hdet m hm ▸ h⟩
      have hrenewed : (∃ m, replayBlock E (orders' i) (some parent) b n' = (.ok (), m) ∧
          Renewed E orders' (i + 1) b.block bs m) ↔ Renewed E orders' (i + 1) b.block bs n₁' :=
        ⟨fun ⟨m, hm, h⟩ => hdet m hm ▸ h, fun h => ⟨n₁', hblock', h⟩⟩
      simp only [hreplay]
      rw [ih, hminers, hbanned, hrenewed, or_assoc, or_left_comm]
      exact (and_congr_left fun _ => (and_iff_right hfew).symm)
    · -- some order of the candidates makes the replay panic
      refine iff_of_false (fun h => ?_) fun h => hfew h.1.1
      obtain ⟨hminer, hmany⟩ := Classical.not_imp.1 hfew
      obtain ⟨h0, htwo⟩ := not_or.1 hmany
      rw [(candidates_perm (hlevel.electorate b)).countP_eq, not_le] at htwo
      obtain ⟨orders, e, hpanic⟩ := replayBlock_panics (E := E) hb hminer h0 htwo
      obtain ⟨m, hm, -⟩ := h fun _ => orders
      have herror : replay E (fun _ => orders) i (some parent) (b :: bs) n = (.error (.panic e), n) :=
        bind_of_error hpanic
      rw [herror] at hm
      cases hm

/-! ## New candidates -/

/-- The candidates are those of a set, none has votes, and none is banned. -/
structure Novice (s : State) (C : Finset Address) : Prop where
  mem : ∀ a, a ∈ s.candidateState ↔ a ∈ C
  new : ∀ e ∈ s.candidateState.entries, e.2 = ⟨e.1, 0, -1⟩
  total : s.totalVoteStaked = 0

variable {C : Finset Address} {a m : Address} {user : Address}

theorem novice_empty : Novice State.newDposState ∅ :=
  ⟨fun a => iff_of_false (AList.notMem_empty a) (Finset.notMem_empty a), fun _ he => absurd he List.not_mem_nil, rfl⟩

theorem Novice.add (hs : Novice s C) (a : Address) : Novice (s.addGenesisRoundCand a) (insert a C) := by
  unfold State.addGenesisRoundCand
  split_ifs with ha
  · rw [Finset.insert_eq_of_mem ((hs.mem a).1 ha)]
    exact hs
  · refine ⟨fun b => ?_, fun e he => ?_, hs.total⟩
    · rw [Finset.mem_insert, ← hs.mem]
      exact AList.mem_insert _
    · change e ∈ (s.candidateState.insert a ⟨a, 0, -1⟩).entries at he
      rw [AList.entries_insert_of_notMem ha, List.mem_cons] at he
      rcases he with rfl | he
      · rfl
      · exact hs.new e he

theorem Novice.foldl (hs : Novice s C) (l : List Address) :
    Novice (l.foldl State.addGenesisRoundCand s) (l.toFinset ∪ C) := by
  induction l generalizing s C with
  | nil => simpa using hs
  | cons a l ih =>
    have h := ih (hs.add a)
    rwa [Finset.union_insert, ← Finset.insert_union, ← List.toFinset_cons] at h

theorem Novice.same {x : State} (hs : Novice s C) (hx : Novice x C) : s.Same x := by
  have hentry : ∀ {t : State}, Novice t C → ∀ e : Sigma fun _ : Address => Candidate,
      e ∈ t.candidateState.entries ↔ e.1 ∈ C ∧ e.2 = ⟨e.1, 0, -1⟩ := by
    intro t ht e
    constructor
    · exact fun he => ⟨(ht.mem _).1 (AList.mem_keys.2 (List.mem_map_of_mem he)), ht.new e he⟩
    · rintro ⟨he, hnew⟩
      obtain ⟨c, hc⟩ := Option.isSome_iff_exists.1 (AList.lookup_isSome.2 ((ht.mem e.1).2 he))
      have hmem := AList.mem_lookup_iff.1 hc
      have hc' : c = ⟨e.1, 0, -1⟩ := ht.new _ hmem
      rwa [hc', ← hnew] at hmem
  refine ⟨?_, hx.total.trans hs.total.symm⟩
  rw [List.perm_ext_iff_of_nodup x.candidateState.nodupKeys.nodup s.candidateState.nodupKeys.nodup]
  intro e
  rw [hentry hs, hentry hx]

/-- New wallets change nothing. -/
theorem refresh_new (order : MapOrder) (a : Address) :
    State.refresh ((newWalletManager user).access order) ⟨a, 0, -1⟩ = ⟨a, 0, -1⟩ := by
  unfold State.refresh WalletManager.access
  dsimp only
  split_ifs <;> rfl

theorem Novice.updateVotePower (hs : Novice s C) (order : MapOrder) :
    Novice (s.updateVotePower ((newWalletManager user).access order)) C := by
  refine ⟨fun a => (State.mem_updateVotePower a).trans (hs.mem a), fun e he => ?_, ?_⟩
  · obtain ⟨e', he', rfl⟩ := List.mem_map.1 he
    change State.refresh _ e'.2 = _
    rw [hs.new e' he', refresh_new]
  · have hzero : ∀ c ∈ s.candidates,
        ((State.refresh ((newWalletManager user).access order) c).votePower - c.votePower).toUInt64 = 0 := by
      intro c hc
      obtain ⟨e, he, rfl⟩ := List.mem_map.1 hc
      rw [hs.new e he, refresh_new, sub_self]
      rfl
    change s.candidates.foldl _ s.totalVoteStaked = 0
    rw [State.foldl_add, List.map_congr_left hzero, hs.total]
    simp

theorem Novice.started (hs : Novice s C) (h : ℤ) (d : Dpos) : Novice (started s h d).state C := by
  obtain ⟨size, hsize⟩ := Committee.computeNextCommitteeSize_snd s (s.ranking h)
  unfold ReplayNode.started
  dsimp only
  rw [hsize]
  exact ⟨hs.mem, hs.new, hs.total⟩

/-! ## The committee of new candidates -/

theorem Novice.mem_candidates (hs : Novice s C) {c : Candidate} :
    c ∈ s.candidates ↔ c.address ∈ C ∧ c = ⟨c.address, 0, -1⟩ := by
  constructor
  · intro hc
    obtain ⟨e, he, rfl⟩ := List.mem_map.1 hc
    rw [hs.new e he]
    exact ⟨(hs.mem _).1 (AList.mem_keys.2 (List.mem_map_of_mem he)), rfl⟩
  · rintro ⟨hc, hnew⟩
    obtain ⟨c', hc'⟩ := Option.isSome_iff_exists.1 (AList.lookup_isSome.2 ((hs.mem c.address).2 hc))
    have hentry := AList.mem_lookup_iff.1 hc'
    have hmem : c' ∈ s.candidates := List.mem_map_of_mem hentry
    rwa [show c' = _ from hs.new _ hentry, ← hnew] at hmem

theorem Novice.length_candidates (hs : Novice s C) : s.candidates.length = C.card := by
  have hkeys : s.candidateState.keys.toFinset = C := by
    ext a
    rw [List.mem_toFinset, ← AList.mem_keys, hs.mem]
  rw [← hkeys, List.toFinset_card_of_nodup s.candidateState.keys_nodup, State.candidates, List.length_map, AList.keys,
    List.keys, List.length_map]

theorem not_banned (len : ℕ) (a : Address) : ¬ State.Banned len ⟨a, 0, -1⟩ := by
  change ¬ ((len : ℤ) ≤ -1)
  omega

/-- Nobody is banned. -/
theorem Novice.eligible (hs : Novice s C) (len : ℕ) : s.eligible len = s.candidates := by
  unfold State.eligible
  split_ifs with hlen
  · rfl
  · refine List.filter_eq_self.2 fun c hc => ?_
    rw [(hs.mem_candidates.1 hc).2]
    exact decide_eq_true (not_banned len _)

theorem Novice.few (hs : Novice s C) (len : ℕ) :
    len = 0 ∨ s.candidates.countP (fun c => State.Banned len c) ≤ 1 := by
  right
  have hnone : s.candidates.countP (fun c => State.Banned len c) = 0 := by
    refine List.countP_eq_zero.2 fun c hc => ?_
    rw [(hs.mem_candidates.1 hc).2, decide_eq_true_eq]
    exact not_banned len _
  omega

/-- The ranking is by address. -/
theorem Novice.ranking (hs : Novice s C) (len : ℕ) : (s.ranking len).length = C.card ∧
    (∀ c, c ∈ s.ranking len ↔ c.address ∈ C ∧ c = ⟨c.address, 0, -1⟩) ∧
    (s.ranking len).Pairwise fun c c' => c.address ≤ c'.address := by
  have hperm := s.ranking_perm len
  rw [hs.eligible] at hperm
  refine ⟨hperm.length_eq.trans hs.length_candidates, fun c => hperm.mem_iff.trans hs.mem_candidates, ?_⟩
  refine (s.ranking_pairwise len).imp_of_mem fun {c c'} hc hc' hranked => hranked.2 ?_
  have hvotes : ∀ {c}, c ∈ s.ranking len → c.votePower = 0 := fun hc => by
    rw [(hs.mem_candidates.1 (hperm.mem_iff.1 hc)).2]
  exact Int64.le_of_eq ((hvotes hc).trans (hvotes hc').symm)

/-- How many new candidates are elected. -/
theorem Novice.elected_eq (hs : Novice s C) (len : ℕ) : ∃ k, elected s len = (s.ranking len).take k ∧
    (min k C.card = 1 ↔ C.card % 2 ^ 32 = 1) := by
  have hlen : (s.ranking len).length = C.card := (hs.ranking len).1
  have hcard : (UInt32.ofNat C.card).toNat = C.card % 2 ^ 32 := UInt32.toNat_ofNat'
  have hsize : (Committee.computeNextCommitteeSize s (s.ranking len)).1.toNat = min (C.card % 2 ^ 32) 15 := by
    unfold Committee.computeNextCommitteeSize
    rw [if_pos (.inl hs.total), hlen]
    dsimp only
    by_cases hle : UInt32.ofNat C.card ≤ Committee.maxComSize
    · rw [if_pos hle, hcard]
      have hle' := UInt32.le_iff_toNat_le.1 hle
      rw [hcard] at hle'
      exact (min_eq_left hle').symm
    · have hgt : UInt32.ofNat C.card > Committee.maxComSize := UInt32.not_le.1 hle
      rw [if_neg hle, if_pos hgt]
      have hgt' := UInt32.lt_iff_toNat_lt.1 hgt
      rw [hcard] at hgt'
      exact (min_eq_right (Nat.le_of_lt hgt')).symm
  have hzero : (Committee.computeNextCommitteeSize s (s.ranking len)).1 = 0 ↔ C.card % 2 ^ 32 = 0 := by
    rw [← UInt32.toNat_inj, hsize]
    change min _ 15 = 0 ↔ _
    omega
  unfold elected
  rw [Committee.copyCand_spec]
  refine ⟨_, rfl, ?_⟩
  split_ifs with h0
  · have := hzero.1 h0
    omega
  · rw [hsize]
    have := mt hzero.2 h0
    omega

/-- **The committee is one candidate** exactly if it is the only one, or counted as such. -/
theorem Novice.elected_single (hs : Novice s C) (len : ℕ) (hm : m ∈ C) :
    (elected s len).map Candidate.address = [m] ↔ C.card % 2 ^ 32 = 1 ∧ ∀ a ∈ C, m ≤ a := by
  obtain ⟨k, hk, hone⟩ := hs.elected_eq len
  obtain ⟨hlength, hmem, hsorted⟩ := hs.ranking len
  rw [← hone, hk]
  cases hr : s.ranking len with
  | nil =>
    rw [hr] at hmem
    exact absurd ((hmem ⟨m, 0, -1⟩).2 ⟨hm, rfl⟩) List.not_mem_nil
  | cons c cs =>
    rw [hr] at hlength hmem hsorted
    have hfirst : c.address ∈ C := ((hmem c).1 (by simp)).1
    have hleast : ∀ a ∈ C, c.address ≤ a := by
      intro a ha
      have hc' : (⟨a, 0, -1⟩ : Candidate) ∈ c :: cs := (hmem _).2 ⟨ha, rfl⟩
      rcases List.mem_cons.1 hc' with hc' | hc'
      · rw [← hc']
      · exact (List.pairwise_cons.1 hsorted).1 _ hc'
    have hsingle : ((c :: cs).take k).map Candidate.address = [m] ↔ min k C.card = 1 ∧ c.address = m := by
      rw [← hlength, ← List.length_take]
      rcases k with _ | k
      · simp
      · rw [List.take_succ_cons, List.map_cons, List.cons.injEq, List.map_eq_nil_iff, List.length_cons, and_comm,
          Nat.add_eq_right, List.length_eq_zero_iff]
    rw [hsingle]
    refine and_congr_right fun _ => ⟨?_, fun h => le_antisymm (hleast m hm) (h _ hfirst)⟩
    rintro rfl
    exact hleast

/-! ## The genesis block -/

/-- The wallets after a registration in the genesis block. -/
def enlist (wm : WalletManager) (tx : Transaction) : WalletManager :=
  ({ wm.put tx.senderId with executor := wm.executor.addGenesisRoundCand tx.senderId }.modifyWallet tx.senderId
    fun w => { w with isCandidate := true }).modifyWallet tx.senderId fun w => { w with nonce := w.nonce + 1 }

theorem executeRegister_genesis (wm : WalletManager) (a : Address) :
    (tryCatch (executeRegisterCandidate a) fun _ => pure () : WM Unit) wm =
      (.ok (), { wm with executor := wm.executor.addGenesisRoundCand a }) := by
  unfold State.addGenesisRoundCand
  by_cases ha : a ∈ wm.executor.candidateState
  · have hrefused : executeRegisterCandidate a wm =
        (.error (.error "Entry already in record. Can't register again"), wm) := by
      unfold executeRegisterCandidate
      rw [get_bind, State.registerCand, if_pos ha]
      rfl
    rw [tryCatch_of_error hrefused, if_pos ha]
    rfl
  · refine tryCatch_of_ok ?_
    unfold executeRegisterCandidate
    rw [get_bind, State.registerCand, if_neg ha, if_neg ha]
    rfl

theorem applyDelRegTxForGenesis_eq {tx : Transaction} (htype : tx.type = .becomeCandidate) (r : Int64) (wm : WalletManager) :
    applyDelRegTxForGenesis E tx r wm = (.ok (), enlist wm tx) := by
  have hs : tx.senderId ∈ (wm.put tx.senderId).keys := by simp
  -- whether the transaction is executable makes no difference
  have hcheck : (tryCatch (isExecutable E tx r) fun
      | .error _ => pure ()
      | e => throw e : WM Unit) (wm.put tx.senderId) = (.ok (), wm.put tx.senderId) := by
    have hspec : Spec (isExecutable E tx r) (wm.put tx.senderId) _ _ := isExecutable_spec hs (.inr (.inl htype))
    rcases hexec : isExecutable E tx r (wm.put tx.senderId) with ⟨e | x, wm₁⟩
    · obtain ⟨rfl, m, rfl⟩ := hspec.error hexec
      exact tryCatch_of_error hexec
    · obtain ⟨rfl, -⟩ := hspec.ok hexec
      exact tryCatch_of_ok hexec
  have hwallet : getWalletByAddress tx.senderId (wm.put tx.senderId) =
      (.ok ((wm.put tx.senderId).wallet tx.senderId), wm.put tx.senderId) := by
    have hspec : Spec (getWalletByAddress tx.senderId) (wm.put tx.senderId)
        (fun w wm' => w = (wm.put tx.senderId).wallet tx.senderId ∧ wm' = wm.put tx.senderId) fun _ _ => False := by
      rw [spec_getWallet, if_pos hs]
      exact ⟨rfl, rfl⟩
    obtain ⟨w, wm', h⟩ := hspec.returns
    obtain ⟨rfl, rfl⟩ := hspec.ok h
    exact h
  refine (bind_of_ok rfl).trans ((bind_of_ok hcheck).trans ((bind_of_ok hwallet).trans ?_))
  exact (bind_of_ok (executeRegister_genesis _ _)).trans rfl

theorem foldl_enlist : ∀ (txs : List Transaction) (wm : WalletManager) (x : State),
    txs.foldl enlist { wm with executor := x } =
      { txs.foldl enlist wm with executor := (txs.map Transaction.senderId).foldl State.addGenesisRoundCand x }
  | [], _, _ => rfl
  | tx :: txs, wm, x => by
    rw [List.foldl_cons, List.foldl_cons, List.map_cons, List.foldl_cons]
    exact foldl_enlist txs (enlist wm tx) (x.addGenesisRoundCand tx.senderId)

/-- The wallets after the genesis block. -/
def afterGenesis (E : Env) (genesis : PbBlock) (wm : WalletManager) : WalletManager :=
  (giveBlockReward E genesis genesis.minerPublicKey
    ((genesis.transactions.filter fun tx => tx.type = .becomeCandidate).foldl enlist
      ((wm.put genesis.minerPublicKey).modifyWallet genesis.minerPublicKey fun w => { w with isCandidate := true }))).2

theorem applyGenesis_eq (genesis : PbBlock) (wm : WalletManager) :
    applyGenesis E genesis wm = (.ok (), afterGenesis E genesis wm) := by
  have hregister : ∀ (txs : List Transaction) (wm : WalletManager), (∀ tx ∈ txs, tx.type = .becomeCandidate) →
      each (fun tx => applyDelRegTxForGenesis E tx genesis.roundNum) txs wm = (.ok (), txs.foldl enlist wm) := by
    intro txs wm htypes
    refine each_of_steps ?_
    induction txs generalizing wm with
    | nil => exact .nil wm
    | cons tx txs ih =>
      exact .cons (applyDelRegTxForGenesis_eq (htypes tx (by simp)) _ wm) (ih _ fun t ht => htypes t (by simp [ht]))
  refine (bind_of_ok rfl).trans ((bind_of_ok rfl).trans ((bind_of_ok (hregister _ _ ?_)).trans rfl))
  intro tx htx
  simpa using (List.mem_filter.1 htx).2

/-- The candidates before the genesis block make no difference to its wallets. -/
theorem afterGenesis_over (genesis : PbBlock) (wm : WalletManager) (x : State) :
    afterGenesis E genesis { wm with executor := x } =
      { afterGenesis E genesis wm with executor := (registering genesis).foldl State.addGenesisRoundCand x } := by
  have hfold := foldl_enlist (genesis.transactions.filter fun tx => tx.type = .becomeCandidate)
    ((wm.put genesis.minerPublicKey).modifyWallet genesis.minerPublicKey fun w => { w with isCandidate := true }) x
  exact congrArg (fun wm' => (giveBlockReward E genesis genesis.minerPublicKey wm').2) hfold

/-- The node after the genesis block. -/
def begun (E : Env) (b : StoredBlock) (n : ReplayNode) : ReplayNode :=
  (onWallets (applyGenesis E b.block) (n.restarted b)).2

/-- **The genesis block** is replayed without an error, if few candidates are banned. -/
theorem replayBlock_genesis (hgenesis : b.block.isGenesis = true) (hround : b.block.roundNum = 1)
    (hminer : b.block.minerPublicKey ≠ "") (hcache : OneRound n.dpos.minerCache) (hfew : b.bcLength = 0 ∨
      (n.electorate b).candidates.countP (fun c => State.Banned b.bcLength c) ≤ 1) (orders : MapOrders) :
    replayBlock E orders none b n = (.ok (), n.begun E b) := by
  have hdpos : logged (updateDpos orders b.bcLength none b.block) n = (.ok (), n.restarted b) := by
    rw [updateDpos_genesis hgenesis hround hminer]
    exact logged_restart hcache hfew
  have hwallets : checkAndUpdateWalletStates E b.block b.block.minerPublicKey orders.wallets = applyGenesis E b.block :=
    if_pos hgenesis
  have happly : onWallets (applyGenesis E b.block) (n.restarted b) = (.ok (), n.begun E b) := by
    unfold begun onWallets
    dsimp only
    rw [applyGenesis_eq]
  refine (bind_of_ok hdpos).trans ?_
  rw [hwallets]
  exact logged_ok happly

/-- The genesis block adds its candidates to those of the node. -/
theorem begun_eq (E : Env) (b : StoredBlock) (n : ReplayNode) :
    let state := (registering b.block).foldl State.addGenesisRoundCand (n.restarted b).dpos.state
    n.begun E b = ⟨{ (n.restarted b).dpos with state := state }, { afterGenesis E b.block n.wm with executor := state }⟩ := by
  intro state
  have hgenesis : afterGenesis E b.block (n.restarted b).wallets = { afterGenesis E b.block n.wm with executor := state } :=
    afterGenesis_over b.block n.wm (n.restarted b).dpos.state
  unfold begun onWallets
  dsimp only
  rw [applyGenesis_eq, hgenesis]

theorem begun_wallets (E : Env) (b : StoredBlock) (n : ReplayNode) : (n.begun E b).wallets =
    { afterGenesis E b.block n.wm with executor := (n.begun E b).dpos.state } := by
  rw [begun_eq E b n]
  rfl

/-- The candidates of a node before the genesis block. -/
structure Untouched (n : ReplayNode) (user : Address) (C : Finset Address) : Prop where
  wm : n.wm = newWalletManager user
  cache : n.dpos.minerCache = []
  state : Novice n.dpos.state C

theorem untouched_fresh (user : Address) : Untouched (fresh user) user ∅ := ⟨rfl, rfl, novice_empty⟩

theorem untouched_informed (genesis : PbBlock) (user : Address) :
    Untouched (informed genesis user) user (registering genesis).toFinset := by
  refine ⟨rfl, rfl, ?_⟩
  have hfold := novice_empty.foldl (registering genesis)
  rwa [Finset.union_empty] at hfold

theorem Untouched.electorate (hn : Untouched n user C) (b : StoredBlock) :
    Novice (n.electorate b) (insert b.block.minerPublicKey C) := by
  unfold ReplayNode.electorate
  rw [hn.wm]
  exact (hn.state.add b.block.minerPublicKey).updateVotePower .sorted

theorem Untouched.begun (hn : Untouched n user C) (E : Env) (b : StoredBlock) :
    Novice (n.begun E b).dpos.state ((registering b.block).toFinset ∪ insert b.block.minerPublicKey C) := by
  rw [begun_eq E b n]
  exact ((hn.electorate b).started b.bcLength n.dpos).foldl (registering b.block)

theorem Untouched.replayBlock (hn : Untouched n user C) (hgenesis : b.block.isGenesis = true)
    (hround : b.block.roundNum = 1) (hminer : b.block.minerPublicKey ≠ "") (orders : MapOrders) :
    ReplayNode.replayBlock E orders none b n = (.ok (), n.begun E b) :=
  replayBlock_genesis hgenesis hround hminer (.inl hn.cache) ((hn.electorate b).few b.bcLength) orders

/-- After the genesis block both nodes have the same candidates. -/
theorem level_genesis (E : Env) (b : StoredBlock) (user : Address) :
    Level ((fresh user).begun E b) ((informed b.block user).begun E b) := by
  have hfresh := (untouched_fresh user).begun E b
  have hinformed := (untouched_informed b.block user).begun E b
  have hsame : (registering b.block).toFinset ∪ insert b.block.minerPublicKey (registering b.block).toFinset =
      (registering b.block).toFinset ∪ insert b.block.minerPublicKey ∅ := by
    ext a
    simp only [Finset.mem_union, Finset.mem_insert, Finset.notMem_empty]
    grind
  rw [hsame] at hinformed
  refine ⟨⟨?_, ?_⟩, ⟨rfl, rfl⟩, ?_, ?_⟩
  · rw [begun_wallets E b (fresh user), begun_wallets E b (informed b.block user)]
    rfl
  · rw [begun_wallets E b (fresh user), begun_wallets E b (informed b.block user)]
    exact hfresh.same hinformed
  · exact oneRound_renewedCache (.inl rfl) _
  · exact oneRound_renewedCache (.inl rfl) _

/-! ## The committees after the genesis block -/

theorem minersInRound_renewedCache (committee : List Candidate) :
    MinerCache.minersInRound (renewedCache committee []) 1 = .ok [m] ↔ committee.map Candidate.address = [m] := by
  unfold renewedCache
  split_ifs with hzero
  · refine iff_of_false (fun h => ?_) fun h => ?_
    · cases h
    · have hlen : committee.length = 1 := by simpa using congrArg List.length h
      rw [hlen] at hzero
      exact absurd hzero (by decide)
  · change Except.ok (committee.map Candidate.address) = .ok [m] ↔ _
    rw [Except.ok.injEq]

/-- New candidates are determined by their addresses. -/
theorem Novice.elected_addresses (hs : Novice s C) (len : ℕ) :
    elected s len = ((elected s len).map Candidate.address).map fun a => ⟨a, 0, -1⟩ := by
  obtain ⟨k, hk, -⟩ := hs.elected_eq len
  have hnew : ∀ c ∈ elected s len, (⟨c.address, 0, -1⟩ : Candidate) = c := by
    intro c hc
    rw [hk] at hc
    exact (((hs.ranking len).2.1 c).1 (List.mem_of_mem_take hc)).2.symm
  rw [List.map_map]
  exact (List.map_id _).symm.trans (List.map_congr_left fun c hc => (hnew c hc).symm)

theorem Novice.elected_alone (hs : Novice s {m}) (len : ℕ) : (elected s len).map Candidate.address = [m] :=
  (hs.elected_single len (Finset.mem_singleton_self m)).2
    ⟨by rw [Finset.card_singleton]; rfl, fun _ ha => (Finset.mem_singleton.1 ha).ge⟩

/-- **The genesis block**: the nodes have the same committee exactly if the miner is alone. -/
theorem sameMiners_genesis (E : Env) (b : StoredBlock) (user : Address) :
    (SameMiners ((fresh user).begun E b) ((informed b.block user).begun E b) ↔ Alone b.block) ∧
      (SameMiners ((fresh user).begun E b) ((informed b.block user).begun E b) →
        SameNext ((fresh user).begun E b) ((informed b.block user).begun E b)) := by
  have hfresh := (untouched_fresh user).electorate b
  have hinformed := (untouched_informed b.block user).electorate b
  have halone := hfresh.elected_alone b.bcLength
  have hminers : SameMiners ((fresh user).begun E b) ((informed b.block user).begun E b) ↔
      (elected ((informed b.block user).electorate b) b.bcLength).map Candidate.address = [b.block.minerPublicKey] := by
    rw [← minersInRound_renewedCache, ← (minersInRound_renewedCache _).2 halone]
    exact eq_comm
  constructor
  · rw [hminers, hinformed.elected_single b.bcLength (Finset.mem_insert_self _ _)]
    exact ⟨fun h => ⟨h.1, h.2⟩, fun h => ⟨h.card, h.least⟩⟩
  · intro h
    change elected ((fresh user).electorate b) b.bcLength = elected ((informed b.block user).electorate b) b.bcLength
    rw [hfresh.elected_addresses, hinformed.elected_addresses, halone, hminers.1 h]

/-! ## The replay -/

/-- **The replayed genesis round is that of a node that knew all candidates** exactly if the round is
    restarted once with a committee, or the genesis miner is alone; and no restart meets two banned
    candidates. -/
theorem replay_iff (E : Env) {genesis : StoredBlock} {blocks : List StoredBlock} {orders' : ℕ → MapOrders}
    {full : ReplayNode} (hgenesis : genesis.block.isGenesis = true) (hround : genesis.block.roundNum = 1)
    (hminer : genesis.block.minerPublicKey ≠ "") (hlater : ∀ b ∈ blocks, Later b)
    (hfirst : replayBlock E (orders' 0) none genesis (informed genesis.block user) = (.ok (), n₁))
    (hfull : replay E orders' 1 (some genesis.block) blocks n₁ = (.ok (), full)) :
    (∀ orders, ∃ n, replay E orders 0 none (genesis :: blocks) (fresh user) = (.ok (), n) ∧ SameCommittees n full) ↔
      FewBanned E orders' 1 genesis.block blocks n₁ ∧
        (Renewed E orders' 1 genesis.block blocks n₁ ∨ Alone genesis.block) := by
  have hblock' := (untouched_informed genesis.block user).replayBlock (E := E) hgenesis hround hminer (orders' 0)
  obtain rfl : (informed genesis.block user).begun E genesis = n₁ := congrArg Prod.snd (hblock'.symm.trans hfirst)
  have hreplay : ∀ orders, replay E orders 0 none (genesis :: blocks) (fresh user) =
      replay E orders 1 (some genesis.block) blocks ((fresh user).begun E genesis) := by
    intro orders
    exact replay_cons ((untouched_fresh user).replayBlock hgenesis hround hminer (orders 0))
  obtain ⟨halone, hlinked⟩ := sameMiners_genesis E genesis user
  simp only [hreplay]
  rw [replay_level orders' blocks 1 genesis.block (level_genesis E genesis user) hlinked hround hlater hfull, halone]

/-- The maps in the order of the addresses. -/
def sortedMaps (_ : ℕ) : MapOrders := ⟨.sorted, fun _ => ⟨id, List.Perm.refl⟩⟩

/-- The genesis block of `"a"`, in which `"a"` and `"b"` register. -/
def genesisOfTwo : StoredBlock where
  block := { PbBlock.simple (["a", "b"].map fun a => .simple .becomeCandidate a 1 0 "" "") [] [] with
    height := 0, roundNum := 1, minerPublicKey := "a" }
  bcLength := 1

/-- The next block of the round. -/
def nextOf (miner : Address) : StoredBlock :=
  ⟨{ PbBlock.simple [] [] [] with roundNum := 1, minerPublicKey := miner }, 1⟩

/-- `"b"` restarts the round. -/
theorem replay_next_of_b : Restarts genesisOfTwo.block (nextOf "b") ∧ ∀ orders, ∃ n,
    replay Env.simple orders 0 none [genesisOfTwo, nextOf "b"] (fresh "u") = (.ok (), n) ∧ SameCommittees n
      (replay Env.simple sortedMaps 0 none [genesisOfTwo, nextOf "b"] (informed genesisOfTwo.block "u")).2 := by
  have hfirst : replayBlock Env.simple (sortedMaps 0) none genesisOfTwo (informed genesisOfTwo.block "u") =
      (.ok (), (replayBlock Env.simple (sortedMaps 0) none genesisOfTwo (informed genesisOfTwo.block "u")).2) :=
    ok_of_fst (by decide)
  have hlater : ∀ b ∈ [nextOf "b"], Later b := by
    intro b hb
    rw [List.mem_singleton.1 hb]
    exact ⟨by decide, rfl⟩
  have hfull : replay Env.simple sortedMaps 0 none [genesisOfTwo, nextOf "b"] (informed genesisOfTwo.block "u") =
      replay Env.simple sortedMaps 1 (some genesisOfTwo.block) [nextOf "b"]
        (replayBlock Env.simple (sortedMaps 0) none genesisOfTwo (informed genesisOfTwo.block "u")).2 :=
    replay_cons hfirst
  have hrest : replay Env.simple sortedMaps 1 (some genesisOfTwo.block) [nextOf "b"]
      (replayBlock Env.simple (sortedMaps 0) none genesisOfTwo (informed genesisOfTwo.block "u")).2 = (.ok (), _) :=
    ok_of_fst (by decide)
  have hiff := replay_iff Env.simple (by decide) rfl (by decide) hlater hfirst hrest
  have hrestarts : Restarts genesisOfTwo.block (nextOf "b") := by decide
  rw [hfull]
  refine ⟨hrestarts, hiff.2 ⟨⟨fun _ => .inr ?_, fun _ _ => trivial⟩, .inl (.inl ⟨hrestarts, ?_⟩)⟩⟩
  · decide
  · decide

/-- **After the genesis block of `"a"` and another block of `"a"`** the node does not have `"b"` in its
    committee. -/
theorem replay_next_of_a :
    (replay Env.simple sortedMaps 0 none [genesisOfTwo, nextOf "a"] (fresh "u")).1 = .ok () ∧
    (replay Env.simple sortedMaps 0 none [genesisOfTwo, nextOf "a"] (informed genesisOfTwo.block "u")).1 = .ok () ∧
    ¬ SameCommittees (replay Env.simple sortedMaps 0 none [genesisOfTwo, nextOf "a"] (fresh "u")).2
      (replay Env.simple sortedMaps 0 none [genesisOfTwo, nextOf "a"] (informed genesisOfTwo.block "u")).2 := by
  refine ⟨by decide, by decide, fun h => ?_⟩
  exact absurd h.miners (by decide)

end ReplayNode
end Timbre
