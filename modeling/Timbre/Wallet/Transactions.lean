/-
  The transactions of a block: validation, application and reversal.
-/
import Timbre.Wallet.Types
import Timbre.Wallet.ParseVote

namespace Timbre
namespace WalletManager

variable (wm : WalletManager) (a : Address)

/-- The wallet stored under an address, `NewWallet` if there is none. -/
def wallet : Wallet := wm.walletByAddress.get a

/-- `CheckEntryByAddress`. -/
def checkEntryByAddress : Bool := a ∈ wm.walletByAddress.keys

/-- `CheckAndPutWalletByAddress(a, NewWallet(a))`, the error ignored. -/
def put : WalletManager := { wm with walletByAddress := wm.walletByAddress.touch a }

/-- A write through the pointer to a wallet. -/
def modifyWallet (f : Wallet → Wallet) : WalletManager :=
  { wm with walletByAddress := wm.walletByAddress.modify a f }

/-- `ReAssignVotePower`: every candidate with a wallet that the voter has an entry for. -/
def reAssign (E : Env) (voter : Wallet) (delta : Int64) : WalletManager :=
  { wm with walletByAddress := wm.walletByAddress.mapVals fun cand candWallet =>
      if cand ∈ voter.voted.keys then
        let percent := voter.voted.get cand
        let oldAmount := E.share percent (voter.balance - delta)
        let newAmount := E.share percent voter.balance
        if delta > 0 then candWallet.addVotePower (newAmount - oldAmount)
        else candWallet.subVotePower (oldAmount - newAmount)
      else candWallet }

/-- `AddVotePower`, the error ignored. -/
def addVotePower (E : Env) (candID : Address) (percentChange : ℤ) (voter : Wallet) :
    WalletManager :=
  if candID ∈ wm.walletByAddress.keys then
    let totalPercentage := voter.voted.get candID
    let totalAmount := E.share totalPercentage voter.balance
    let prevAmount := E.share (totalPercentage - percentChange) voter.balance
    wm.modifyWallet candID fun cand => cand.addVotePower (totalAmount - prevAmount)
  else wm

/-- `SubVotePower`, the error ignored. -/
def subVotePower (E : Env) (candID : Address) (percentChange : ℤ) (voter : Wallet) :
    WalletManager :=
  if candID ∈ wm.walletByAddress.keys then
    let totalPercentage := voter.voted.get candID
    let totalAmount := E.share totalPercentage voter.balance
    let prevAmount := E.share (totalPercentage + percentChange) voter.balance
    wm.modifyWallet candID fun cand => cand.subVotePower (prevAmount - totalAmount)
  else wm

/-- `balance += delta` and the vote power that follows it. -/
def credit (E : Env) (delta : Int64) : WalletManager :=
  let wm := wm.modifyWallet a fun w => { w with balance := w.balance + delta }
  wm.reAssign E (wm.wallet a) delta

/-- `balance -= amount` and the vote power that follows it. -/
def debit (E : Env) (amount : Int64) : WalletManager :=
  let wm := wm.modifyWallet a fun w => { w with balance := w.balance - amount }
  wm.reAssign E (wm.wallet a) (0 - amount)

/-- A vote of `percent` for `candID`: the entry, what is left to vote, the vote power. -/
def castVote (E : Env) (candID : Address) (percent : ℤ) : WalletManager :=
  let wm := wm.modifyWallet a fun w => (w.executeVote percent candID).subVoteLeft percent
  wm.addVotePower E candID percent (wm.wallet a)

/-- The withdrawal of `percent` from `candID`. -/
def castUnvote (E : Env) (candID : Address) (percent : ℤ) : WalletManager :=
  let wm := wm.modifyWallet a fun w => (w.executeUnvote percent candID).addVoteLeft percent
  wm.subVotePower E candID percent (wm.wallet a)

/-! ## Access to the wallets -/

def checkAndPutWalletByAddress (a : Address) : WM Unit := modify fun wm => wm.put a

/-- `GetWalletByAddress`: it fails if there is no wallet. -/
def getWalletByAddress (a : Address) : WM Wallet := do
  let wm ← get
  if wm.checkEntryByAddress a then return wm.wallet a
  else throw (.error (a ++ " wallet doesn't exist in the record,Can't fetch"))

def addBalance (E : Env) (a : Address) (delta : Int64) : WM Unit :=
  modify fun wm => wm.credit a E delta

def subBalance (E : Env) (a : Address) (amount : Int64) : WM Unit :=
  modify fun wm => wm.debit a E amount

/-- `ReAssignVotePower` for the wallet stored under `a`. -/
def reAssignVotePower (E : Env) (a : Address) (delta : Int64) : WM Unit :=
  modify fun wm => wm.reAssign E (wm.wallet a) delta

def setNonce (a : Address) (f : UInt64 → UInt64) : WM Unit :=
  modify fun wm => wm.modifyWallet a fun w => { w with nonce := f w.nonce }

def setCandidate (a : Address) (flag : Bool) : WM Unit :=
  modify fun wm => wm.modifyWallet a fun w => { w with isCandidate := flag }

/-- Fails with the error, if there is one. -/
def check : Option String → WM Unit
  | none => pure ()
  | some e => throw (.error e)

/-! ## The executor of candidate transactions -/

/-- `ExecuteRegisterCandidate`. -/
def executeRegisterCandidate (candID : Address) : WM Unit := do
  let wm ← get
  match wm.executor.registerCand candID with
  | .ok s => modify fun wm => { wm with executor := s }
  | .error e => throw e

/-- `ExecuteQuitCandidate`, with the `UnSetCandidacy` of the wallet. -/
def executeQuitCandidate (candID : Address) : WM Unit := do
  let wm ← get
  match wm.executor.quitCandidate candID with
  | .ok s => modify fun wm =>
      let wm := { wm with executor := s }
      if wm.checkEntryByAddress candID then
        wm.modifyWallet candID fun w => { w with isCandidate := false }
      else wm
  | .error e => throw e

/-! ## Validation -/

variable (E : Env)

/-- The fee of a transaction; the first rounds are free. -/
def txFee (tx : Transaction) (bRound : Int64) : Int64 :=
  if bRound ≤ genesisRounds then 0 else E.getTxFee tx

/-- The scan of `podfHeights`, from its end, for a report at height `h`. -/
def reportedAt (h : Int64) : List Int64 → Bool
  | [] => false
  | x :: xs => if x = h then true else if x < h - 21 then false else reportedAt h xs

/-- `ValidatePodf`. -/
def validatePodf (podf : Transaction) (bRound : Int64) : WM Unit := do
  check (E.hasValidSign podf)
  match E.podfPayload podf.payload with
  | .error e => throw (.error e)
  | .ok (some h1, some h2) =>
    if h1.height ≠ h2.height then throw (.error "Heights doesn't match in podf")
    if h1.hash = h2.hash then throw (.error "Both headers have the same hash")
    check (E.validateHeaderSign h1)
    check (E.validateHeaderSign h2)
    let mWallet ← getWalletByAddress h1.minerPublicKey
    if mWallet.isCandidate = false then throw (.error "Reported miner is not a candidate")
    checkAndPutWalletByAddress podf.senderId
    let txMaker ← getWalletByAddress podf.senderId
    if txMaker.checkNonce podf.nonce = false then throw (.error "out of order nonce")
    if txMaker.balance < txFee E podf bRound then throw (.error "Unable to pay txFee")
    if mWallet.bannedTill ≥ h1.height then throw (.error "Reported miner is already banned")
    if reportedAt h1.height mWallet.podfHeights.reverse then
      throw (.error "Misbehaving miner is already reported at the given height")
  | .ok _ => throw (.panic "nil pointer dereference")

/-- One entry of a vote transaction, checked against the wallet of the voter. -/
def checkEntry (vWallet : Wallet) (votedCand : String) : WM Unit := do
  match parseVote votedCand with
  | .error e => throw e
  | .ok (.unvote, percent, candID) => check (vWallet.checkUnvoteValidity percent candID)
  | .ok (.vote, percent, _) => check (vWallet.checkVoteValidity percent)

/-- `ValidateVote`. -/
def validateVote (vote : Transaction) (bRound : Int64) : WM Unit := do
  check (E.hasValidSign vote)
  checkAndPutWalletByAddress vote.senderId
  let vWallet ← getWalletByAddress vote.senderId
  if vWallet.checkNonce vote.nonce = false then throw (.error "out of order nonce")
  if vWallet.balance < txFee E vote bRound then
    throw (.error "Insufficient balance to pay vote fee")
  match E.votePayload vote.payload with
  | .error e => throw (.error e)
  | .ok votedCands => Call.each (checkEntry vWallet) votedCands

/-- `IsExecutable`. -/
def isExecutable (tx : Transaction) (bRound : Int64) : WM Unit := do
  check (E.hasValidSign tx)
  let wm ← get
  if wm.checkEntryByAddress tx.senderId = false ∧ tx.nonce = 1 then
    checkAndPutWalletByAddress tx.senderId
  let pWallet ← getWalletByAddress tx.senderId
  if pWallet.checkNonce tx.nonce = false then throw (.error "out of order nonce")
  if pWallet.balance < txFee E tx bRound then throw (.error "Payer can't pay fee")
  match tx.type with
  | .becomeCandidate =>
    if wm.executor.checkCandByAdd tx.senderId = true then throw (.error "Cand already exist")
  | .quitCandidate =>
    if wm.executor.checkCandByAdd tx.senderId = false then throw (.error "Cand doesn't exist")
  | .transfer =>
    if pWallet.balance < tx.decibels + txFee E tx bRound then
      throw (.error "Payer doesn't hold enough decibels")
  | .podf => validatePodf E tx bRound
  | .vote => validateVote E tx bRound
  | .other => throw (.error "Invalid type transaction")

/-! ## Application -/

/-- `ApplyTransferTx`. -/
def applyTransferTx (tx : Transaction) (transactionFee bRound : Int64) : WM Unit := do
  checkAndPutWalletByAddress tx.senderId
  checkAndPutWalletByAddress tx.recipientId
  isExecutable E tx bRound
  let _ ← getWalletByAddress tx.senderId
  subBalance E tx.senderId (tx.decibels + transactionFee)
  setNonce tx.senderId (· + 1)
  let _ ← getWalletByAddress tx.recipientId
  addBalance E tx.recipientId tx.decibels

/-- A candidate transaction: `execute` on the DPOS, the flag of the wallet, the price. -/
def applyCandidateTx (execute : Address → WM Unit) (flag : Bool) (tx : Transaction)
    (transactionFee bRound : Int64) : WM Unit := do
  checkAndPutWalletByAddress tx.senderId
  isExecutable E tx bRound
  let _ ← getWalletByAddress tx.senderId
  execute tx.senderId
  setCandidate tx.senderId flag
  subBalance E tx.senderId (tx.decibels + transactionFee)
  setNonce tx.senderId (· + 1)

/-- `ApplyDelegateRegistrationTx`. -/
def applyDelegateRegistrationTx : Transaction → Int64 → Int64 → WM Unit :=
  applyCandidateTx E executeRegisterCandidate true

/-- `ApplyQuitDelegateTx`. -/
def applyQuitDelegateTx : Transaction → Int64 → Int64 → WM Unit :=
  applyCandidateTx E executeQuitCandidate false

/-- One entry of a vote transaction: it is checked again, against the wallet as the entries
    before it have left it. -/
def applyEntry (voter : Address) (votedCand : String) : WM Unit := do
  let wm ← get
  checkEntry (wm.wallet voter) votedCand
  match parseVote votedCand with
  | .error e => throw e
  | .ok (.unvote, percent, candID) => modify fun wm => wm.castUnvote voter E candID percent
  | .ok (.vote, percent, candID) => modify fun wm => wm.castVote voter E candID percent

/-- The entries of a vote transaction; no entries if the payload cannot be decoded. -/
def votedCands (vote : Transaction) : List String :=
  match E.votePayload vote.payload with
  | .ok cands => cands
  | .error _ => []

/-- `ApplyVote`. -/
def applyVote (vote : Transaction) (transactionFee bRound : Int64) : WM Unit := do
  validateVote E vote bRound
  checkAndPutWalletByAddress vote.senderId
  setNonce vote.senderId (· + 1)
  subBalance E vote.senderId transactionFee
  Call.each (applyEntry E vote.senderId) (votedCands E vote)

/-- The miner reported by a PoDF: the miner of the first header. -/
def reportedHeader (podf : Transaction) : Option Header :=
  match E.podfPayload podf.payload with
  | .ok (h1, _) => h1
  | .error _ => none

def reportedMiner (podf : Transaction) : Address :=
  ((reportedHeader E podf).map Header.minerPublicKey).getD ""

/-- `ApplyPodf`. -/
def applyPodf (podf : Transaction) (transactionFee bRound : Int64) : WM Unit := do
  validatePodf E podf bRound
  match reportedHeader E podf with
  | none => throw (.panic "nil pointer dereference")
  | some h1 =>
    let repMiner := reportedMiner E podf
    let _ ← getWalletByAddress repMiner
    modify fun wm => wm.modifyWallet repMiner fun w =>
      { w with blockReward := w.blockReward - rewardForBlockCreation }
    subBalance E repMiner rewardForBlockCreation
    modify fun wm => wm.modifyWallet repMiner fun w =>
      let heights := w.podfHeights ++ [h1.height]
      { w with
        podfHeights := heights
        bannedTill :=
          if heights.length % blockThresholdToBan = 0 then h1.height + banDuration
          else w.bannedTill }
    checkAndPutWalletByAddress podf.senderId
    addBalance E podf.senderId (rewardForPodf - transactionFee)

/-- One round of the loop of `ApplyTransactions`. -/
def applyTransaction (miner : Address) (bRound : Int64) (tx : Transaction) : WM Unit := do
  let transactionFee := txFee E tx bRound
  match tx.type with
  | .transfer => applyTransferTx E tx transactionFee bRound
  | .becomeCandidate => applyDelegateRegistrationTx E tx transactionFee bRound
  | .quitCandidate => applyQuitDelegateTx E tx transactionFee bRound
  | .vote => applyVote E tx transactionFee bRound
  | .podf => applyPodf E tx transactionFee bRound
  | .other => throw (.error "Invalid type found in transaction")
  addBalance E miner transactionFee
  modify fun wm => wm.modifyWallet miner fun w =>
    { w with transactionFee := w.transactionFee + transactionFee }

/-- `ApplyTransactions`; an error comes with the number of transactions applied before it.
    `miner` is the address of `mWallet`. -/
def applyTransactions (transactions : List Transaction) (miner : Address) (bRound : Int64) :
    Call WalletManager (ℕ × Err) Unit :=
  Call.forEach (applyTransaction E miner bRound) transactions

/-! ## Reversal -/

/-- `RevertTransferTx`. -/
def revertTransferTx (tx : Transaction) (transactionFee : Int64) : WM Unit := do
  let _ ← getWalletByAddress tx.senderId
  addBalance E tx.senderId (tx.decibels + transactionFee)
  setNonce tx.senderId (· - 1)
  let _ ← getWalletByAddress tx.recipientId
  subBalance E tx.recipientId tx.decibels

/-- The reversal of a candidate transaction: the opposite transaction is executed on the
    DPOS, and if this fails nothing else is taken back. -/
def revertCandidateTx (execute : Address → WM Unit) (flag : Bool) (tx : Transaction)
    (transactionFee : Int64) : WM Unit := do
  let _ ← getWalletByAddress tx.senderId
  execute tx.senderId
  setCandidate tx.senderId flag
  addBalance E tx.senderId (tx.decibels + transactionFee)
  setNonce tx.senderId (· - 1)

/-- `RevertDelegateRegistrationTx`. -/
def revertDelegateRegistrationTx : Transaction → Int64 → WM Unit :=
  revertCandidateTx E executeQuitCandidate false

/-- `RevertQuitDelegateTx`. -/
def revertQuitDelegateTx : Transaction → Int64 → WM Unit :=
  revertCandidateTx E executeRegisterCandidate true

/-- One entry of a vote transaction taken back, without any check. -/
def revertEntry (voter : Address) (votedCand : String) : WM Unit := do
  match parseVote votedCand with
  | .ok (.unvote, percent, candID) => modify fun wm => wm.castVote voter E candID percent
  | .ok (.vote, percent, candID) => modify fun wm => wm.castUnvote voter E candID percent
  -- the error of `ParseVote` is ignored: no action, no candidate, 0 percent
  | .error (.error _) => modify fun wm => wm.castUnvote voter E "" 0
  | .error e => throw e

/-- `RevertVote`. -/
def revertVote (vote : Transaction) (transactionFee : Int64) : WM Unit := do
  let _ ← getWalletByAddress vote.senderId
  setNonce vote.senderId (· - 1)
  addBalance E vote.senderId transactionFee
  Call.each (revertEntry E vote.senderId) (votedCands E vote)

/-- `RevertPodf`. -/
def revertPodf (podf : Transaction) (transactionFee : Int64) : WM Unit := do
  let repMiner := reportedMiner E podf
  let rmWallet ← getWalletByAddress repMiner
  modify fun wm => wm.modifyWallet repMiner fun w =>
    { w with blockReward := w.blockReward + rewardForBlockCreation }
  addBalance E repMiner rewardForBlockCreation
  modify fun wm => wm.modifyWallet repMiner fun w =>
    { w with
      bannedTill := if w.podfHeights.length % blockThresholdToBan = 0 then -1 else w.bannedTill }
  if rmWallet.podfHeights.length = 0 then throw (.panic "slice bounds out of range")
  modify fun wm => wm.modifyWallet repMiner fun w =>
    { w with podfHeights := w.podfHeights.dropLast }
  let _ ← getWalletByAddress podf.senderId
  subBalance E podf.senderId (rewardForPodf - transactionFee)

/-- One round of the loop of `RevertTransactions`.  The fee is taken back from the miner
    also for a transaction of unknown type. -/
def revertTransaction (miner : Address) (bRound : Int64) (tx : Transaction) : WM Unit := do
  let transactionFee := txFee E tx bRound
  match tx.type with
  | .transfer => revertTransferTx E tx transactionFee
  | .becomeCandidate => revertDelegateRegistrationTx E tx transactionFee
  | .quitCandidate => revertQuitDelegateTx E tx transactionFee
  | .vote => revertVote E tx transactionFee
  | .podf => revertPodf E tx transactionFee
  | .other => pure ()
  subBalance E miner transactionFee
  modify fun wm => wm.modifyWallet miner fun w =>
    { w with transactionFee := w.transactionFee - transactionFee }

/-- `RevertTransactions`. -/
def revertTransactions (transactions : List Transaction) (miner : Address) (bRound : Int64) :
    WM Unit :=
  Call.each (revertTransaction E miner bRound) transactions

end WalletManager
end Timbre
