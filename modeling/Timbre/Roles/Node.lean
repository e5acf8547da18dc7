/-
  The state of a node that the blocks change: the chain, the deals, and the wallets with the
  DPOS, which share the candidates.

  The calls on the wallets and the DPOS are `Components`; with them the node offers the
  syncer its services.  **No service moves the main tail** (`keepsChain_services`).
-/
import Mathlib.Data.Finset.Basic
import Timbre.Core.Finality
import Timbre.Roles.Syncer
import Timbre.Wallet.Blocks

namespace Timbre

open Call

/-! ## The source -/

/-- A deal, by its hash. -/
structure DealEntry where
  hash : Hash
  expiryTime : ℤ
deriving DecidableEq, Repr

/-- What a node reads of the bodies of the blocks. -/
structure Bodies where
  deals : Block → List DealEntry
  chPrPair : Block → List Hash
  timestamp : Block → ℤ

/-- `σ` is the state of the wallets and the DPOS. -/
structure NodeState (σ : Type) where
  bc : Blockchain
  state : σ
  dealBucket : Hash → Option DealEntry
  activedeals : Finset Hash

/-- The calls on the wallet manager and the DPOS, and the numbers they give. -/
structure Components (σ : Type) extends Syncer.WalletCalls σ where
  hasStarted : σ → Bool
  stopDpos : Call σ Err Unit
  startDpos : Blockchain → Call σ Err Unit
  updateDpos : Blockchain → Block → Call σ Err Unit
  revertDposState : (block parent : Block) → Call σ Err Unit
  bootstrapFromEpochBlock : Block → Call σ Err Unit
  validateDigestMiners : Block → Call σ Err Unit
  validateMinerSlot : Blockchain → Block → Call σ Err Unit
  revertWalletStates : Block → Call σ Err Unit
  getComitteeSize : σ → UInt32
  numberOfToMineBlockPerSlot : ℕ

/-- A call of which the error is not looked at. -/
def ignoreError {σ : Type} (c : Call σ Err Unit) : Call σ Err Unit :=
  tryCatch c fun
    | .error _ => pure ()
    | e => throw e

namespace NodeState

variable {σ : Type}

/-- A call on the wallets and the DPOS of the node. -/
def onState {α : Type} (c : Call σ Err α) : Call (NodeState σ) Err α := fun n =>
  ((c n.state).1, { n with state := (c n.state).2 })

/-! ### Deals -/

/-- `AddDeals`.  A stored deal is not overwritten. -/
def addDeals (deals : List DealEntry) (addToCache : Bool) (n : NodeState σ) : NodeState σ :=
  deals.foldl (fun n deal => { n with
    dealBucket :=
      if (n.dealBucket deal.hash).isSome then n.dealBucket
      else Function.update n.dealBucket deal.hash (some deal)
    activedeals := if addToCache then insert deal.hash n.activedeals else n.activedeals }) n

/-- `RemoveDeals`. -/
def removeDeals (deals : List DealEntry) (n : NodeState σ) : NodeState σ :=
  { n with activedeals := deals.foldl (fun active deal => active.erase deal.hash) n.activedeals }

/-- `RemoveExpiredDeals`; the timestamp of the block is in nanoseconds, and cut off to seconds. -/
def removeExpiredDeals (blocktimestamp : ℤ) (chPrP : List Hash) (n : NodeState σ) : NodeState σ :=
  let remove (active : Finset Hash) (dealHash : Hash) : Finset Hash :=
    match n.dealBucket dealHash with
    | none => active
    | some deal =>
      if blocktimestamp / 1000000000 > deal.expiryTime then active.erase dealHash else active
  { n with activedeals := chPrP.foldl remove n.activedeals }

/-- `AddExpiredDealsWhileReverting`. -/
def addExpiredDealsWhileReverting (chPrP : List Hash) (n : NodeState σ) : NodeState σ :=
  let put (active : Finset Hash) (dealHash : Hash) : Finset Hash :=
    if (n.dealBucket dealHash).isSome then insert dealHash active else active
  { n with activedeals := chPrP.foldl put n.activedeals }

/-! ### The states of the node after a block, and before it -/

section
variable (C : Components σ) (B : Bodies)

/-- `UpdateStates`, as far as the chain and the deals go. -/
def updateStates (b : Block) (n : NodeState σ) : NodeState σ :=
  let n := n.addDeals (B.deals b) true
  let n := n.removeExpiredDeals (B.timestamp b) (B.chPrPair b)
  let size := C.getComitteeSize n.state
  { n with bc := n.bc.updateIrreversibleBlockNumber b.minerPublicKey size C.numberOfToMineBlockPerSlot }

/-- `RevertState`; an error of `RevertWalletStates` is not looked at. -/
def revertState (revertBlock : Block) : Call (NodeState σ) Err Unit := do
  onState (ignoreError (C.revertWalletStates revertBlock))
  match (← get).bc.getBlockByHash revertBlock.parentHash with
  | .error _ => throw (.panic "invalid memory address or nil pointer dereference")
  | .ok parent => do
    onState (C.revertDposState revertBlock parent)
    modify fun n => { n with bc := n.bc.updateIrreversibleBlockNumberWhileReverting }
    modify (removeDeals (B.deals revertBlock))
    modify (addExpiredDealsWhileReverting (B.chPrPair revertBlock))

/-- The part of `SwitchFork` that puts back the miners of older blocks. -/
def restoreMiners (lastblockToRevert : Block) : Call (NodeState σ) Err Unit := do
  let n ← get
  let size := C.getComitteeSize n.state
  let goBackblock := n.bc.last2by3MinedCommitteeMembers.length
  let counter := Blockchain.size2by3 size * C.numberOfToMineBlockPerSlot - goBackblock
  let inp : Blockchain.SyncInput := ⟨lastblockToRevert, fun _ => size, size, C.numberOfToMineBlockPerSlot, 0⟩
  match n.bc.addMiners inp counter (n.bc.goBack goBackblock (some lastblockToRevert)) with
  | .error e => throw e
  | .ok bc => modify fun n => { n with bc := bc }

/-- What the node does for its syncer. -/
def services : Syncer.Services (NodeState σ) where
  hasStarted n := C.hasStarted n.state
  stopDpos := onState C.stopDpos
  startDpos := fun n => onState (C.startDpos n.bc) n
  updateDpos b := fun n => onState (C.updateDpos n.bc b) n
  bootstrapFromEpochBlock b := onState (C.bootstrapFromEpochBlock b)
  applyGenesis b := onState (C.applyGenesis b)
  getMinerWallet b := onState (C.getMinerWallet b)
  validateDigestBlock b := onState (C.validateDigestBlock b)
  rewardAndReset mWallet b := onState (C.rewardAndReset mWallet b)
  applyBlock b := onState (C.applyBlock b)
  validateDigestMiners b := onState (C.validateDigestMiners b)
  validateMinerSlot b := fun n => onState (C.validateMinerSlot n.bc b) n
  updateStates b := modify (updateStates C B b)
  revertState := revertState C B
  restoreMiners := restoreMiners C

end

end NodeState

/-! ## The chain under the services -/

namespace Blockchain

/-- The two chains differ at most in the irreversible block number and the miners kept for it. -/
def SameBlocks (bc bc' : Blockchain) : Prop :=
  bc' = { bc with
    irreversibleBlock := bc'.irreversibleBlock
    last2by3MinedCommitteeMembers := bc'.last2by3MinedCommitteeMembers }

variable {bc bc' bc₁ : Blockchain}

theorem SameBlocks.refl (bc : Blockchain) : SameBlocks bc bc := rfl

theorem SameBlocks.trans (h : SameBlocks bc bc₁) (h' : SameBlocks bc₁ bc') : SameBlocks bc bc' := by
  unfold SameBlocks at h h' ⊢
  rw [h'.trans (by rw [h])]

theorem SameBlocks.of_fields {k : ℤ} {members : List Address} :
    SameBlocks bc { bc with irreversibleBlock := k, last2by3MinedCommitteeMembers := members } := rfl

theorem SameBlocks.getMainTail (h : SameBlocks bc bc') : bc'.getMainTail = bc.getMainTail := by
  rw [h]
  rfl

theorem sameBlocks_updateIrreversibleBlockNumber (bc : Blockchain) (minerAdd : Address) (size : UInt32)
    (k : ℕ) : SameBlocks bc (bc.updateIrreversibleBlockNumber minerAdd size k) := by
  unfold updateIrreversibleBlockNumber
  dsimp only
  split <;> rfl

theorem sameBlocks_whileReverting (bc : Blockchain) :
    SameBlocks bc bc.updateIrreversibleBlockNumberWhileReverting := by
  unfold updateIrreversibleBlockNumberWhileReverting
  split <;> rfl

theorem sameBlocks_addMiners {inp : SyncInput} : ∀ {n : ℕ} {bc bc' : Blockchain} {b : Option Block},
    addMiners inp bc n b = .ok bc' → SameBlocks bc bc'
  | 0, bc, bc', b, h => by
    obtain rfl := Except.ok.inj h
    rfl
  | n + 1, bc, bc', none, h => by cases h
  | n + 1, bc, bc', some b, h => by
    rw [addMiners] at h
    split at h
    · obtain rfl := Except.ok.inj h
      rfl
    · exact (SameBlocks.of_fields).trans (sameBlocks_addMiners h)

end Blockchain

/-! ## What the services do to a node -/

namespace Syncer

section
variable {σ : Type} {T : σ → σ → Prop} {S : Services σ} {getEpochNum : Block → Int32}

/-- All calls of the services move the state along `T`. -/
structure Services.Moves (T : σ → σ → Prop) (S : Services σ) : Prop where
  stopDpos : Call.Moves T S.stopDpos
  startDpos : Call.Moves T S.startDpos
  updateDpos : ∀ b, Call.Moves T (S.updateDpos b)
  bootstrapFromEpochBlock : ∀ b, Call.Moves T (S.bootstrapFromEpochBlock b)
  applyGenesis : ∀ b, Call.Moves T (S.applyGenesis b)
  getMinerWallet : ∀ b, Call.Moves T (S.getMinerWallet b)
  validateDigestBlock : ∀ b, Call.Moves T (S.validateDigestBlock b)
  rewardAndReset : ∀ mWallet b, Call.Moves T (S.rewardAndReset mWallet b)
  applyBlock : ∀ b, Call.Moves T (S.applyBlock b)
  validateDigestMiners : ∀ b, Call.Moves T (S.validateDigestMiners b)
  validateMinerSlot : ∀ b, Call.Moves T (S.validateMinerSlot b)
  updateStates : ∀ b, Call.Moves T (S.updateStates b)
  revertState : ∀ b, Call.Moves T (S.revertState b)
  restoreMiners : ∀ b, Call.Moves T (S.restoreMiners b)

variable [IsTrans σ T]

theorem Services.Moves.checkAndUpdateWalletStates (h : S.Moves T) (b : Block) :
    Call.Moves T (S.checkAndUpdateWalletStates b) := by
  unfold WalletCalls.checkAndUpdateWalletStates
  split
  · exact h.applyGenesis b
  · refine (h.getMinerWallet b).bind fun mWallet => ?_
    split
    · exact (h.validateDigestBlock b).bind fun _ => h.rewardAndReset mWallet b
    · exact h.applyBlock b

variable [Std.Refl T]

theorem Services.Moves.checkDigest (h : S.Moves T) {b : Block} {bootstrap : Call σ Err Bool} {required : Bool}
    (hboot : Call.Moves T bootstrap) (bcHeight : ℤ) :
    Call.Moves T (Syncer.checkDigest S getEpochNum b bootstrap required bcHeight) := by
  unfold Syncer.checkDigest
  split
  · split
    · refine hboot.bind fun _ => (h.validateDigestBlock b).bind fun _ => (h.validateDigestMiners b).bind fun _ => ?_
      split
      · exact (moves_throw _).bind fun _ => moves_pure _
      · exact moves_pure _
    · exact moves_throw _
  · exact moves_pure _

theorem Services.Moves.updateDposForMainTail (h : S.Moves T) (isSyncing : Bool) (bc : Blockchain) (b : Block) :
    Call.Moves T (Syncer.updateDposForMainTail S isSyncing bc b) := by
  refine moves_get.bind fun s => ?_
  split
  · refine ((h.updateDpos b).bind fun _ => moves_pure _).tryCatch fun e => ?_
    cases e with
    | error e =>
      dsimp only
      split
      · exact moves_pure _
      · exact moves_throw _
    | panic e => exact moves_throw _
  · split
    · exact moves_throw _
    · exact moves_pure _

theorem Services.Moves.validateForMainTail (h : S.Moves T) (isSyncing : Bool) (bc : Blockchain) (b : Block) :
    Call.Moves T (Syncer.validateForMainTail S getEpochNum isSyncing bc b) := by
  refine (h.updateDposForMainTail isSyncing bc b).bind fun required => ?_
  refine (h.checkDigest ?_ _).bind fun required => ?_
  · split
    · refine ((h.bootstrapFromEpochBlock b).bind fun _ => moves_pure _).tryCatch fun e => ?_
      cases e with
      | error e => exact moves_throw _
      | panic e => exact moves_throw _
    · exact moves_pure _
  · have hend : Call.Moves T (do
        if (bc.canBootstrapFromEpoch b && isSyncing) = false then S.validateMinerSlot b
        S.checkAndUpdateWalletStates b) := by
      dsimp only
      split
      · exact (h.validateMinerSlot b).bind fun _ => h.checkAndUpdateWalletStates b
      · exact h.checkAndUpdateWalletStates b
    dsimp only
    split
    · exact (moves_throw _).bind fun _ => hend
    · exact hend

theorem Services.Moves.replayBlock (h : S.Moves T) (bc : Blockchain) (b : Block) :
    Call.Moves T (Syncer.replayBlock S getEpochNum bc b) := by
  refine ((h.validateForMainTail true bc b).tryCatch fun e => ?_).bind fun _ => h.updateStates b
  cases e with
  | error e => exact moves_throw _
  | panic e => exact moves_throw _

theorem Services.Moves.switchFork (h : S.Moves T) (bc : Blockchain) (blocksToRevert blocksToProcess : List Block) :
    Call.Moves T (Syncer.switchFork S getEpochNum bc blocksToRevert blocksToProcess) := by
  refine moves_get.bind fun s => h.stopDpos.bind fun _ => (Call.Moves.each h.revertState _).bind fun _ => ?_
  split
  · exact moves_throw _
  · refine (h.restoreMiners _).bind fun _ => (Call.Moves.each (h.replayBlock bc) _).bind fun _ => ?_
    split
    · exact h.startDpos
    · exact moves_pure _

end

end Syncer

namespace NodeState

variable {σ : Type} {C : Components σ} {B : Bodies}

/-- The node keeps its blocks and its main tail. -/
def KeepsChain (n n' : NodeState σ) : Prop := n.bc.SameBlocks n'.bc

instance : Std.Refl (KeepsChain (σ := σ)) := ⟨fun n => .refl n.bc⟩

instance : IsTrans (NodeState σ) KeepsChain := ⟨fun _ _ _ h h' => h.trans h'⟩

theorem keepsChain_onState {α : Type} (c : Call σ Err α) : Call.Moves KeepsChain (onState c) :=
  fun n => .refl n.bc

theorem keepsChain_modify {f : NodeState σ → NodeState σ} (h : ∀ n : NodeState σ, n.bc.SameBlocks (f n).bc) :
    Call.Moves KeepsChain (modify f : Call (NodeState σ) Err PUnit) := h

/-- `AddDeals` changes the deals only, and the active ones only when it is told to. -/
theorem addDeals_eq (deals : List DealEntry) (addToCache : Bool) (n : NodeState σ) :
    ∃ bucket active, (addToCache = false → active = n.activedeals) ∧
      n.addDeals deals addToCache = { n with dealBucket := bucket, activedeals := active } := by
  induction deals generalizing n with
  | nil => exact ⟨n.dealBucket, n.activedeals, fun _ => rfl, rfl⟩
  | cons deal deals ih =>
    let added : NodeState σ := n.addDeals [deal] addToCache
    obtain ⟨bucket, active, hactive, h⟩ := ih added
    refine ⟨bucket, active, ?_, h⟩
    rintro rfl
    exact hactive rfl

theorem bc_addDeals (deals : List DealEntry) (addToCache : Bool) (n : NodeState σ) :
    (n.addDeals deals addToCache).bc = n.bc := by
  obtain ⟨bucket, active, -, h⟩ := addDeals_eq deals addToCache n
  rw [h]

/-- The recent miners are noted on the same chain. -/
theorem sameBlocks_addDeals (deals : List DealEntry) (minerAdd : Address) (size : UInt32) (k : ℕ) (n : NodeState σ) :
    n.bc.SameBlocks ((n.addDeals deals true).bc.updateIrreversibleBlockNumber minerAdd size k) := by
  rw [bc_addDeals]
  exact Blockchain.sameBlocks_updateIrreversibleBlockNumber n.bc minerAdd size k

theorem sameBlocks_updateStates (b : Block) (n : NodeState σ) :
    n.bc.SameBlocks (updateStates C B b n).bc := sameBlocks_addDeals _ _ _ _ n

/-- **No service moves the main tail.** -/
theorem keepsChain_services (C : Components σ) (B : Bodies) : (services C B).Moves KeepsChain where
  stopDpos := keepsChain_onState _
  startDpos := fun n => keepsChain_onState (C.startDpos n.bc) n
  updateDpos b := fun n => keepsChain_onState (C.updateDpos n.bc b) n
  bootstrapFromEpochBlock _ := keepsChain_onState _
  applyGenesis _ := keepsChain_onState _
  getMinerWallet _ := keepsChain_onState _
  validateDigestBlock _ := keepsChain_onState _
  rewardAndReset _ _ := keepsChain_onState _
  applyBlock _ := keepsChain_onState _
  validateDigestMiners _ := keepsChain_onState _
  validateMinerSlot b := fun n => keepsChain_onState (C.validateMinerSlot n.bc b) n
  updateStates b := keepsChain_modify (sameBlocks_updateStates b)
  revertState b := by
    refine (keepsChain_onState _).bind fun _ => moves_get.bind fun n => ?_
    split
    · exact moves_throw _
    · refine (keepsChain_onState _).bind fun _ => ?_
      refine (keepsChain_modify fun n => Blockchain.sameBlocks_whileReverting n.bc).bind fun _ => ?_
      exact (keepsChain_modify fun n => .refl n.bc).bind fun _ => keepsChain_modify fun n => .refl n.bc
  restoreMiners b := by
    intro n
    have hget : (get : Call (NodeState σ) Err _) n = (.ok n, n) := rfl
    show KeepsChain n (restoreMiners C b n).2
    unfold restoreMiners
    rw [bind_of_ok hget]
    generalize hadd : Blockchain.addMiners _ n.bc _ _ = added
    cases added with
    | error e => exact .refl n.bc
    | ok bc => exact Blockchain.sameBlocks_addMiners hadd

/-! ## The wallets as components -/

/-- The calls of `CheckAndUpdateWalletStates` on the wallets. -/
def walletCalls (E : Env) (body : Block → PbBlock) (order : MapOrder) : Syncer.WalletCalls WalletManager where
  applyGenesis b := WalletManager.applyGenesis E (body b)
  getMinerWallet b := do
    WalletManager.checkAndPutWalletByAddress b.minerPublicKey
    WalletManager.getWalletByAddress b.minerPublicKey
  validateDigestBlock b := WalletManager.validateDigestBlock (body b)
  rewardAndReset mWallet b := do
    if (← get).checkEntryByAddress b.minerPublicKey then WalletManager.giveBlockReward E (body b) b.minerPublicKey
    else
      modify fun wm => wm.reAssign E { mWallet with balance := mWallet.balance + WalletManager.blockReward E (body b) }
        (WalletManager.blockReward E (body b))
    WalletManager.resetWalletManagerState E order
  applyBlock b := WalletManager.applyBlock E (body b) b.minerPublicKey order

theorem checkAndUpdateWalletStates_eq {E : Env} {body : Block → PbBlock} {order : MapOrder} {b : Block}
    (hgenesis : (body b).isGenesis = b.isGenesis) (hdigest : (body b).isDigestBlock = b.isDigest) :
    (walletCalls E body order).checkAndUpdateWalletStates b =
      WalletManager.checkAndUpdateWalletStates E (body b) b.minerPublicKey order := by
  unfold Syncer.WalletCalls.checkAndUpdateWalletStates WalletManager.checkAndUpdateWalletStates
  rw [hgenesis, hdigest]
  refine if_congr Iff.rfl rfl (funext fun wm => ?_)
  have hput : (WalletManager.checkAndPutWalletByAddress b.minerPublicKey) wm = (.ok (), wm.put b.minerPublicKey) := rfl
  have hwallet : WalletManager.getWalletByAddress b.minerPublicKey (wm.put b.minerPublicKey) =
      (.ok ((wm.put b.minerPublicKey).wallet b.minerPublicKey), wm.put b.minerPublicKey) := by
    have hentry : (wm.put b.minerPublicKey).checkEntryByAddress b.minerPublicKey = true :=
      decide_eq_true (Finset.mem_insert_self _ _)
    refine (bind_of_ok rfl).trans ?_
    rw [if_pos hentry]
    rfl
  have hget : (walletCalls E body order).getMinerWallet b wm =
      (.ok ((wm.put b.minerPublicKey).wallet b.minerPublicKey), wm.put b.minerPublicKey) := by
    refine (bind_of_ok hput).trans ?_
    rw [hwallet]
  rw [bind_of_ok hput, bind_of_ok hget]
  cases b.isDigest with
  | false => rfl
  | true =>
    simp only [if_true]
    rw [WalletManager.applyDigestBlock, bind_of_ok hwallet]
    rfl

/-- The wallets, with a DPOS that has not started and has nothing against any block. -/
def walletComponents (E : Env) (body : Block → PbBlock) (order : MapOrder) : Components WalletManager where
  toWalletCalls := walletCalls E body order
  hasStarted _ := false
  stopDpos := pure ()
  startDpos _ := pure ()
  updateDpos _ _ := pure ()
  revertDposState _ _ := pure ()
  bootstrapFromEpochBlock _ := pure ()
  validateDigestMiners _ := pure ()
  validateMinerSlot _ _ := pure ()
  revertWalletStates b := WalletManager.revertWalletStates E (body b) b.minerPublicKey order
  getComitteeSize _ := 3
  numberOfToMineBlockPerSlot := 2

/-- The bodies of blocks that have transactions only. -/
def bareBody (transactions : Hash → List Transaction) (b : Block) : PbBlock where
  height := Int64.ofInt b.height
  minerPublicKey := b.minerPublicKey
  roundNum := 2
  transactions := transactions b.hash
  deals := []
  chPrPair := []
  votes := []
  accountStates := []

end NodeState

/-- Blocks without deals. -/
def Bodies.empty : Bodies := ⟨fun _ => [], fun _ => [], fun _ => 0⟩

end Timbre
