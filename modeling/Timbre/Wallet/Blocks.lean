/-
  Blocks: the reward of the miner, genesis and digest blocks, the application of a block and
  its reversal.
-/
import Mathlib.Data.Finset.Card
import Mathlib.Data.Finset.Sort
import Mathlib.Data.String.Basic
import Timbre.Wallet.Deals

namespace Timbre

/-- An order in which a loop over the map of wallets may visit its keys. -/
structure MapOrder where
  list : Finset Address → List Address
  nodup : ∀ s, (list s).Nodup
  mem : ∀ s a, a ∈ list s ↔ a ∈ s

/-- The order of the addresses. -/
def MapOrder.sorted : MapOrder where
  list s := s.sort (· ≤ ·)
  nodup s := s.sort_nodup (· ≤ ·)
  mem s _ := s.mem_sort (· ≤ ·)

namespace WalletManager

variable (E : Env)

/-! ## Rewards -/

/-- The reward for a block. -/
def blockReward (block : PbBlock) : Int64 := E.reward block.isEmpty block.height

/-- `GiveBlockReward`. -/
def giveBlockReward (block : PbBlock) (miner : Address) : WM Unit := do
  modify fun wm => wm.modifyWallet miner fun w =>
    { w with blockReward := w.blockReward + blockReward E block }
  addBalance E miner (blockReward E block)

/-- `RevertBlockReward`.  The vote power is told that the balance has grown. -/
def revertBlockReward (block : PbBlock) (miner : Address) : WM Unit := do
  modify fun wm => wm.modifyWallet miner fun w =>
    { w with
      balance := w.balance - blockReward E block
      blockReward := w.blockReward - blockReward E block }
  reAssignVotePower E miner (blockReward E block)

/-! ## Genesis blocks -/

/-- `ApplyDelRegTxForGenesis`.  No error stops it and nothing is charged. -/
def applyDelRegTxForGenesis (tx : Transaction) (bRound : Int64) : WM Unit := do
  checkAndPutWalletByAddress tx.senderId
  tryCatch (isExecutable E tx bRound) fun
    | .error _ => pure ()
    | e => throw e
  let _ ← getWalletByAddress tx.senderId
  tryCatch (executeRegisterCandidate tx.senderId) fun _ => pure ()
  setCandidate tx.senderId true
  setNonce tx.senderId (· + 1)

/-- `ApplyGenesis`. -/
def applyGenesis (block : PbBlock) : WM Unit := do
  let minerAdd := block.minerPublicKey
  checkAndPutWalletByAddress minerAdd
  setCandidate minerAdd true
  Call.each (fun tx => applyDelRegTxForGenesis E tx block.roundNum)
    (block.transactions.filter fun tx => tx.type = .becomeCandidate)
  giveBlockReward E block minerAdd

/-! ## Digest blocks -/

/-- One vote of an entry of a digest block, compared with the wallet. -/
def checkDigestVote (wal : Wallet) (vote : String) : WM Unit := do
  match parseVote vote with
  | .error e => throw e
  | .ok (_, percentVote, cand) =>
    if cand ∈ wal.voted.keys then
      if wal.voted.get cand ≠ percentVote then throw (.error "Vote percentage is not equal")
    else throw (.error "Vote entry doesn't exists")

/-- One entry of a digest block, compared with the wallets. -/
def checkDigestEntry (entry : AccState) : WM Unit := do
  let wm ← get
  if wm.checkEntryByAddress entry.pk then
    let wal := wm.wallet entry.pk
    if wal.balance ≠ entry.balance then throw (.error "Entries balance mismath")
    if wal.nonce ≠ entry.nonce then throw (.error "Mismatch nonce")
    if wal.isCandidate ≠ entry.isCandidate then throw (.error "Wrong candidate flag")
    if wal.podfHeights.length ≠ entry.podfHeights.length then
      throw (.error "Wrong podf lengths")
    if wal.podfHeights ≠ entry.podfHeights then throw (.error "Wrong podfs entry in slice")
    Call.each (checkDigestVote wal) entry.votes
  else throw (.error "Entry doesn't exist")

/-- The loop over the entries of a digest block; `seen` is `duplicateCheck`. -/
def checkDigestEntries : (seen : List Address) → List AccState → WM Unit
  | _, [] => pure ()
  | seen, entry :: entries => do
    if entry.pk ∈ seen then throw (.error "Duplicate entry found")
    checkDigestEntry entry
    checkDigestEntries (entry.pk :: seen) entries

/-- The deletion of the wallets that are not used. -/
def cleanUp (wm : WalletManager) : WalletManager :=
  { wm with walletByAddress := wm.walletByAddress.filter fun k => !(wm.wallet k).unusedWallet }

/-- `ValidateDigestBlock`.  The wallet of the node is put back in any case. -/
def validateDigestBlock (digest : PbBlock) : WM Unit := do
  let myWallet := (← get).wallet (← get).myAddress
  let putBack (wm : WalletManager) : WalletManager :=
    { wm with walletByAddress := wm.walletByAddress.set wm.myAddress myWallet }
  modify cleanUp
  tryCatch (do
    if digest.accountStates.length ≠ (← get).walletByAddress.keys.card then
      throw (.error "No of entries doesn't match")
    checkDigestEntries [] digest.accountStates) fun e => do
    modify putBack
    throw e
  modify putBack

/-- The reset of one wallet. -/
def resetWallet (a : Address) : WM Unit := do
  let wallet := (← get).wallet a
  let initBal := wallet.balance
  let rollBackMoney := E.rollBack initBal
  modify fun wm => wm.modifyWallet a fun w =>
    { w with rollBackAmount := rollBackMoney, balance := rollBackMoney }
  reAssignVotePower E a (rollBackMoney - initBal)
  modify fun wm => wm.modifyWallet a fun w =>
    { w with blockReward := 0, transactionFee := 0, proofReward := 0 }

/-- `ResetWalletManagerState`. -/
def resetWalletManagerState (order : MapOrder) : WM Unit := do
  let wm ← get
  Call.each (resetWallet E) (order.list wm.walletByAddress.keys)

/-- One wallet of `UndoDigestReset`. -/
def undoResetWallet (a : Address) : WM Unit := do
  let wallet := (← get).wallet a
  let initBal := wallet.balance
  let rollBackMoney := E.undoRollBack initBal
  modify fun wm => wm.modifyWallet a fun w =>
    { w with rollBackAmount := 0, balance := rollBackMoney }
  reAssignVotePower E a (rollBackMoney - initBal)

/-- `UndoDigestReset`. -/
def undoDigestReset (order : MapOrder) : WM Unit := do
  let wm ← get
  Call.each (undoResetWallet E) (order.list wm.walletByAddress.keys)

/-! ## Ordinary blocks -/

/-- `RevertWalletStates`. -/
def revertWalletStates (block : PbBlock) (minerAdd : Address) (order : MapOrder) : WM Unit := do
  let _ ← getWalletByAddress minerAdd
  if block.isDigestBlock then
    undoDigestReset E order
    revertBlockReward E block minerAdd
  else
    revertBlockReward E block minerAdd
    revertTransactions E block.transactions minerAdd block.roundNum
    revertDeals E block.deals minerAdd block.roundNum
    revertChPrPair E block.chPrPair

/-- The block that `InitiateRevertBlock` reverts: the items that were applied, at height 0,
    without votes and account states. -/
def bareBlock (origBlock : PbBlock) (numTy numDeal numProof : ℕ) : PbBlock where
  height := 0
  minerPublicKey := origBlock.minerPublicKey
  roundNum := origBlock.roundNum
  transactions := origBlock.transactions.take numTy
  deals := origBlock.deals.take numDeal
  chPrPair := origBlock.chPrPair.take numProof
  votes := []
  accountStates := []

/-- `InitiateRevertBlock`.  An error of the reversal is only logged. -/
def initiateRevertBlock (origBlock : PbBlock) (order : MapOrder) (numTy numDeal numProof : ℕ) :
    WM Unit :=
  tryCatch (revertWalletStates E (bareBlock origBlock numTy numDeal numProof)
    origBlock.minerPublicKey order) fun
    | .error _ => pure ()
    | e => throw e

/-- Runs a part of a block; if it returns an error, what has been applied so far is
    reverted and the error is returned. -/
def orRevert (part : Call WalletManager (ℕ × Err) Unit) (revert : ℕ → WM Unit) : WM Unit :=
  fun wm =>
    match part wm with
    | (.ok _, wm') => (.ok (), wm')
    | (.error (_, .panic e), wm') => (.error (.panic e), wm')
    | (.error (i, .error e), wm') => (do revert i; throw (.error e) : WM Unit) wm'

/-- A digest block: the reward goes to the wallet that the miner had before the clean-up. -/
def applyDigestBlock (block : PbBlock) (minerAdd : Address) (order : MapOrder) : WM Unit := do
  let mWallet ← getWalletByAddress minerAdd
  validateDigestBlock block
  if (← get).checkEntryByAddress minerAdd then giveBlockReward E block minerAdd
  else
    -- the wallet is no longer in the map: only those it voted for are told
    modify fun wm => wm.reAssign E { mWallet with balance := mWallet.balance + blockReward E block }
      (blockReward E block)
  resetWalletManagerState E order

/-- The content of an ordinary block, the miner's reward first. -/
def applyBlock (block : PbBlock) (minerAdd : Address) (order : MapOrder) : WM Unit := do
  giveBlockReward E block minerAdd
  orRevert (applyTransactions E block.transactions minerAdd block.roundNum) fun appliedTxs =>
    initiateRevertBlock E block order appliedTxs 0 0
  orRevert (applyDeals E block.deals minerAdd block.roundNum) fun appliedDeals =>
    initiateRevertBlock E block order block.transactions.length appliedDeals 0
  orRevert (applyChPrPair E block.chPrPair) fun appliedProofs =>
    initiateRevertBlock E block order block.transactions.length block.deals.length appliedProofs

/-- `CheckAndUpdateWalletStates`; `order` matters where the wallets are reset by a digest
    block. -/
def checkAndUpdateWalletStates (block : PbBlock) (minerAdd : Address) (order : MapOrder) :
    WM Unit := do
  if block.isGenesis then applyGenesis E block
  else
    checkAndPutWalletByAddress minerAdd
    if block.isDigestBlock then applyDigestBlock E block minerAdd order
    else applyBlock E block minerAdd order

end WalletManager
end Timbre
