/-
  Wallet managers whose executor or node has not been set.

  `NewWalletManagerFromPb` restores the wallets of a snapshot, and `NewWmFromDigestBlock` builds those of a
  digest block.  Nobody sets the executor of candidate transactions of such a manager, and only the restored
  one gets a node.  **It goes along with a manager that has both, up to the first block that needs what is
  missing; there the node panics** (`follows_iff`).
-/
import Timbre.Lib.Partway
import Timbre.Wallet.Blocks
import Timbre.Wallet.Effects

namespace Timbre

open Call

/-- The references of a wallet manager that have been set, by `SetTxExecutor` and by `SetNode`.  What is
    behind a reference is not read while it is not set. -/
structure Refs where
  executor : Bool
  node : Bool

/-- The references of the wallets in `GenerateStateSnapshot`. -/
def restoredRefs : Refs := ⟨false, true⟩

/-- The references of the wallets after `BootstrapFromEpochBlock`. -/
def digestRefs : Refs := ⟨false, false⟩

def nilDereference : Err := .panic "invalid memory address or nil pointer dereference"

/-- A call through a reference. -/
def through {α : Type} (isSet : Bool) (c : WM α) : WM α := if isSet then c else throw nilDereference

namespace Detached

open WalletManager

/-! ## The source -/

variable (r : Refs) (E : Env)

/-- `IsExecutable`. -/
def isExecutable (tx : Transaction) (bRound : Int64) : WM Unit := do
  check (E.hasValidSign tx)
  let wm ← get
  if wm.checkEntryByAddress tx.senderId = false ∧ tx.nonce = 1 then
    checkAndPutWalletByAddress tx.senderId
  let pWallet ← getWalletByAddress tx.senderId
  if pWallet.checkNonce tx.nonce = false then throw (.error "out of order nonce")
  if pWallet.balance < txFee E tx bRound then throw (.error "Payer can't pay fee")
  match tx.type with
  | .becomeCandidate => through r.executor do
    if wm.executor.checkCandByAdd tx.senderId = true then throw (.error "Cand already exist")
  | .quitCandidate => through r.executor do
    if wm.executor.checkCandByAdd tx.senderId = false then throw (.error "Cand doesn't exist")
  | .transfer =>
    if pWallet.balance < tx.decibels + txFee E tx bRound then
      throw (.error "Payer doesn't hold enough decibels")
  | .podf => validatePodf E tx bRound
  | .vote => validateVote E tx bRound
  | .other => throw (.error "Invalid type transaction")

/-- `ApplyTransferTx`. -/
def applyTransferTx (tx : Transaction) (transactionFee bRound : Int64) : WM Unit := do
  checkAndPutWalletByAddress tx.senderId
  checkAndPutWalletByAddress tx.recipientId
  isExecutable r E tx bRound
  let _ ← getWalletByAddress tx.senderId
  subBalance E tx.senderId (tx.decibels + transactionFee)
  setNonce tx.senderId (· + 1)
  let _ ← getWalletByAddress tx.recipientId
  addBalance E tx.recipientId tx.decibels

/-- `ApplyDelegateRegistrationTx` and `ApplyQuitDelegateTx`. -/
def applyCandidateTx (execute : Address → WM Unit) (flag : Bool) (tx : Transaction)
    (transactionFee bRound : Int64) : WM Unit := do
  checkAndPutWalletByAddress tx.senderId
  isExecutable r E tx bRound
  let _ ← getWalletByAddress tx.senderId
  through r.executor (execute tx.senderId)
  setCandidate tx.senderId flag
  subBalance E tx.senderId (tx.decibels + transactionFee)
  setNonce tx.senderId (· + 1)

/-- One round of the loop of `ApplyTransactions`. -/
def applyTransaction (miner : Address) (bRound : Int64) (tx : Transaction) : WM Unit := do
  let transactionFee := txFee E tx bRound
  match tx.type with
  | .transfer => applyTransferTx r E tx transactionFee bRound
  | .becomeCandidate => applyCandidateTx r E executeRegisterCandidate true tx transactionFee bRound
  | .quitCandidate => applyCandidateTx r E executeQuitCandidate false tx transactionFee bRound
  | .vote => applyVote E tx transactionFee bRound
  | .podf => applyPodf E tx transactionFee bRound
  | .other => throw (.error "Invalid type found in transaction")
  addBalance E miner transactionFee
  modify fun wm => wm.modifyWallet miner fun w =>
    { w with transactionFee := w.transactionFee + transactionFee }

/-- `RevertDelegateRegistrationTx` and `RevertQuitDelegateTx`. -/
def revertCandidateTx (execute : Address → WM Unit) (flag : Bool) (tx : Transaction)
    (transactionFee : Int64) : WM Unit := do
  let _ ← getWalletByAddress tx.senderId
  through r.executor (execute tx.senderId)
  setCandidate tx.senderId flag
  addBalance E tx.senderId (tx.decibels + transactionFee)
  setNonce tx.senderId (· - 1)

/-- One round of the loop of `RevertTransactions`. -/
def revertTransaction (miner : Address) (bRound : Int64) (tx : Transaction) : WM Unit := do
  let transactionFee := txFee E tx bRound
  match tx.type with
  | .transfer => revertTransferTx E tx transactionFee
  | .becomeCandidate => revertCandidateTx r E executeQuitCandidate false tx transactionFee
  | .quitCandidate => revertCandidateTx r E executeRegisterCandidate true tx transactionFee
  | .vote => revertVote E tx transactionFee
  | .podf => revertPodf E tx transactionFee
  | .other => pure ()
  subBalance E miner transactionFee
  modify fun wm => wm.modifyWallet miner fun w =>
    { w with transactionFee := w.transactionFee - transactionFee }

/-- One round of the loop of `ApplyChPrPair`.  The node is asked for the deal first. -/
def applyPair (cProof : ChPrPair) : WM Unit := do
  let deal ← through r.node (getDealbyHash cProof.dealhash)
  let lastTs := (← get).times.lastTs deal cProof.dealhash
  modify fun wm => wm.setTimes (wm.times.record deal cProof)
  if checkChPrPair E deal cProof then
    match lastTs.getLast? with
    | some last => verificationPayment E deal (curTs deal cProof) last
    | none => throw (.panic "index out of range")

/-- One round of the loop of `RevertChPrPair`. -/
def revertPair (cProof : ChPrPair) : WM Unit := do
  let deal ← through r.node (getDealbyHash cProof.dealhash)
  let lastTs := (← get).times.recorded cProof.dealhash
  if lastTs = [] then throw (.panic "slice bounds out of range")
  modify fun wm => wm.setTimes (wm.times.unrecord cProof.dealhash)
  if checkChPrPair E deal cProof then
    revertVerificationPayment E deal cProof.timestamp (lastTs.dropLast.getLastD deal.timestamp)

/-- `ApplyDelRegTxForGenesis`. -/
def applyDelRegTxForGenesis (tx : Transaction) (bRound : Int64) : WM Unit := do
  checkAndPutWalletByAddress tx.senderId
  tryCatch (isExecutable r E tx bRound) fun
    | .error _ => pure ()
    | e => throw e
  let _ ← getWalletByAddress tx.senderId
  through r.executor (tryCatch (executeRegisterCandidate tx.senderId) fun _ => pure ())
  setCandidate tx.senderId true
  setNonce tx.senderId (· + 1)

/-- `ApplyGenesis`. -/
def applyGenesis (block : PbBlock) : WM Unit := do
  let minerAdd := block.minerPublicKey
  checkAndPutWalletByAddress minerAdd
  setCandidate minerAdd true
  Call.each (fun tx => applyDelRegTxForGenesis r E tx block.roundNum)
    (block.transactions.filter fun tx => tx.type = .becomeCandidate)
  giveBlockReward E block minerAdd

/-- `RevertWalletStates`. -/
def revertWalletStates (block : PbBlock) (minerAdd : Address) (order : MapOrder) : WM Unit := do
  let _ ← getWalletByAddress minerAdd
  if block.isDigestBlock then
    undoDigestReset E order
    revertBlockReward E block minerAdd
  else
    revertBlockReward E block minerAdd
    Call.each (revertTransaction r E minerAdd block.roundNum) block.transactions
    revertDeals E block.deals minerAdd block.roundNum
    Call.each (revertPair r E) block.chPrPair

/-- `InitiateRevertBlock`. -/
def initiateRevertBlock (origBlock : PbBlock) (order : MapOrder) (numTy numDeal numProof : ℕ) : WM Unit :=
  tryCatch (revertWalletStates r E (bareBlock origBlock numTy numDeal numProof)
    origBlock.minerPublicKey order) fun
    | .error _ => pure ()
    | e => throw e

/-- The content of an ordinary block, the miner's reward first. -/
def applyBlock (block : PbBlock) (minerAdd : Address) (order : MapOrder) : WM Unit := do
  giveBlockReward E block minerAdd
  orRevert (Call.forEach (applyTransaction r E minerAdd block.roundNum) block.transactions) fun appliedTxs =>
    initiateRevertBlock r E block order appliedTxs 0 0
  orRevert (applyDeals E block.deals minerAdd block.roundNum) fun appliedDeals =>
    initiateRevertBlock r E block order block.transactions.length appliedDeals 0
  orRevert (Call.forEach (applyPair r E) block.chPrPair) fun appliedProofs =>
    initiateRevertBlock r E block order block.transactions.length block.deals.length appliedProofs

/-- `CheckAndUpdateWalletStates`.  A digest block needs neither the executor nor the node. -/
def checkAndUpdateWalletStates (block : PbBlock) (minerAdd : Address) (order : MapOrder) : WM Unit := do
  if block.isGenesis then applyGenesis r E block
  else
    checkAndPutWalletByAddress minerAdd
    if block.isDigestBlock then applyDigestBlock E block minerAdd order
    else applyBlock r E block minerAdd order

end Detached

/-- What happens to the wallets of a fork: a block is applied by `CheckAndUpdateWalletStates`, or taken back
    by `RevertBatchBlocks`. -/
inductive ForkMove
  | apply (block : PbBlock)
  | revert (block : PbBlock)

namespace ForkMove

/-- A move of a manager with its executor and its node. -/
def run (E : Env) (order : MapOrder) : ForkMove → WM Unit
  | apply block => WalletManager.checkAndUpdateWalletStates E block block.minerPublicKey order
  | revert block => WalletManager.revertWalletStates E block block.minerPublicKey order

/-- A move of a manager with the references `r`. -/
def runWith (r : Refs) (E : Env) (order : MapOrder) : ForkMove → WM Unit
  | apply block => Detached.checkAndUpdateWalletStates r E block block.minerPublicKey order
  | revert block => Detached.revertWalletStates r E block block.minerPublicKey order

end ForkMove

/-! ## What is needed -/

namespace Detached

open WalletManager

variable {r : Refs} {E : Env} {bRound : Int64} {miner : Address} {order : MapOrder} {α : Type} {tx : Transaction}

/-- The call goes along with another one, up to a nil dereference. -/
abbrev Along (need : Prop) (c d : WM α) : Prop := Partway (· = nilDereference) need c d

theorem along_through (isSet : Bool) (c : WM α) : Along (isSet = false) (through isSet c) c := by
  cases isSet with
  | true => exact (Partway.refl c).congr (by simp)
  | false => exact ⟨fun h => absurd rfl h, fun _ _ => .inl ⟨_, rfl, rfl⟩⟩

/-- A candidate transaction needs the executor. -/
def NeedsExecutor (r : Refs) (tx : Transaction) : Prop := r.executor = false ∧ tx.isCandidateTx = true

theorem needsExecutor_iff (h : tx.type = .becomeCandidate ∨ tx.type = .quitCandidate) :
    r.executor = false ↔ NeedsExecutor r tx := by
  simp [NeedsExecutor, Transaction.isCandidateTx, h]

theorem not_needsExecutor (h : ¬ (tx.type = .becomeCandidate ∨ tx.type = .quitCandidate)) :
    False ↔ NeedsExecutor r tx := by
  simp [NeedsExecutor, Transaction.isCandidateTx, h]

theorem along_isExecutable (tx : Transaction) : Along (NeedsExecutor r tx) (isExecutable r E tx bRound)
    (WalletManager.isExecutable E tx bRound) := by
  refine Partway.after fun _ => Partway.after fun wm => .branch (Partway.after fun _ => ?_) ?_
  all_goals
    refine Partway.after fun pWallet => .guard _ fun _ => .guard _ fun _ => ?_
    cases htype : tx.type with
    | becomeCandidate => exact (along_through _ _).congr (needsExecutor_iff (.inl htype))
    | quitCandidate => exact (along_through _ _).congr (needsExecutor_iff (.inr htype))
    | _ => exact (Partway.refl _).congr (not_needsExecutor (by simp [htype]))

theorem along_applyTransferTx (tx : Transaction) (fee : Int64) : Along (NeedsExecutor r tx)
    (applyTransferTx r E tx fee bRound) (WalletManager.applyTransferTx E tx fee bRound) :=
  Partway.after fun _ => Partway.after fun _ => ((along_isExecutable tx).bind fun _ => Partway.refl _).congr (by simp)

theorem along_applyCandidateTx (execute : Address → WM Unit) (flag : Bool) (fee : Int64)
    (h : tx.type = .becomeCandidate ∨ tx.type = .quitCandidate) : Along (NeedsExecutor r tx)
    (applyCandidateTx r E execute flag tx fee bRound) (WalletManager.applyCandidateTx E execute flag tx fee bRound) := by
  refine Partway.after fun _ => ((along_isExecutable tx).bind fun _ => Partway.after fun _ =>
    (along_through r.executor _).bind fun _ => Partway.refl _).congr ?_
  rw [needsExecutor_iff h]
  simp

theorem along_applyTransaction (tx : Transaction) : Along (NeedsExecutor r tx)
    (applyTransaction r E miner bRound tx) (WalletManager.applyTransaction E miner bRound tx) := by
  unfold applyTransaction WalletManager.applyTransaction
  dsimp only
  cases htype : tx.type with
  | transfer => exact ((along_applyTransferTx tx _).bind fun _ => Partway.refl _).congr (by simp)
  | becomeCandidate =>
    exact ((along_applyCandidateTx _ true _ (.inl htype)).bind fun _ => Partway.refl _).congr (by simp)
  | quitCandidate =>
    exact ((along_applyCandidateTx _ false _ (.inr htype)).bind fun _ => Partway.refl _).congr (by simp)
  | _ => exact (Partway.refl _).congr (not_needsExecutor (by simp [htype]))

theorem along_revertCandidateTx (execute : Address → WM Unit) (flag : Bool) (tx : Transaction) (fee : Int64) :
    Along (r.executor = false) (revertCandidateTx r E execute flag tx fee)
      (WalletManager.revertCandidateTx E execute flag tx fee) :=
  Partway.after fun _ => ((along_through _ _).bind fun _ => Partway.refl _).congr (by simp)

theorem along_revertTransaction (tx : Transaction) : Along (NeedsExecutor r tx)
    (revertTransaction r E miner bRound tx) (WalletManager.revertTransaction E miner bRound tx) := by
  unfold revertTransaction WalletManager.revertTransaction
  dsimp only
  cases htype : tx.type with
  | becomeCandidate =>
    refine ((along_revertCandidateTx _ false tx _).bind fun _ => Partway.refl _).congr ?_
    rw [or_false]
    exact needsExecutor_iff (.inl htype)
  | quitCandidate =>
    refine ((along_revertCandidateTx _ true tx _).bind fun _ => Partway.refl _).congr ?_
    rw [or_false]
    exact needsExecutor_iff (.inr htype)
  | _ => exact (Partway.refl _).congr (not_needsExecutor (by simp [htype]))

theorem along_applyPair (cProof : ChPrPair) :
    Along (r.node = false) (applyPair r E cProof) (WalletManager.applyPair E cProof) :=
  ((along_through _ _).bind fun _ => Partway.refl _).congr (by simp)

theorem along_revertPair (cProof : ChPrPair) :
    Along (r.node = false) (revertPair r E cProof) (WalletManager.revertPair E cProof) :=
  ((along_through _ _).bind fun _ => Partway.refl _).congr (by simp)

/-! ## Blocks -/

/-- A block has a candidate transaction, or a proof. -/
def NeedsContent (r : Refs) (block : PbBlock) : Prop :=
  (∃ tx ∈ block.transactions, NeedsExecutor r tx) ∨ ∃ _cProof ∈ block.chPrPair, r.node = false

theorem along_revertWalletStates (block : PbBlock) : Along (block.isDigestBlock = false ∧ NeedsContent r block)
    (revertWalletStates r E block miner order) (WalletManager.revertWalletStates E block miner order) := by
  refine Partway.after fun _ => ?_
  cases hdigest : block.isDigestBlock with
  | true => exact (Partway.refl _).congr (by simp)
  | false =>
    refine (Partway.after fun _ => (Partway.each along_revertTransaction _).bind fun _ => Partway.after fun _ =>
      Partway.each along_revertPair _).congr ?_
    simp [NeedsContent]

/-- What is reverted for an error needs no more than the block. -/
theorem upTo_initiateRevertBlock (block : PbBlock) (numTy numDeal numProof : ℕ) : UpTo (· = nilDereference)
    (initiateRevertBlock r E block order numTy numDeal numProof)
    (WalletManager.initiateRevertBlock E block order numTy numDeal numProof) := by
  refine (along_revertWalletStates _).upTo.tryCatch ?_
  rintro _ rfl s
  exact ⟨_, rfl, rfl⟩

theorem initiateRevertBlock_eq {block : PbBlock} {numTy numDeal numProof : ℕ}
    (h : ¬ NeedsContent r (bareBlock block numTy numDeal numProof)) :
    initiateRevertBlock r E block order numTy numDeal numProof =
      WalletManager.initiateRevertBlock E block order numTy numDeal numProof := by
  have hrevert : revertWalletStates r E (bareBlock block numTy numDeal numProof) block.minerPublicKey order =
      WalletManager.revertWalletStates E (bareBlock block numTy numDeal numProof) block.minerPublicKey order :=
    (along_revertWalletStates _).same fun hneed => h hneed.2
  exact congrArg₂ tryCatch hrevert rfl

theorem along_orRevert {need : Prop} {part part₀ : Call WalletManager (ℕ × Err) Unit} {revert revert₀ : ℕ → WM Unit}
    (h : Partway (fun e => e.2 = nilDereference) need part part₀) (hsame : ¬ need → revert = revert₀)
    (hrevert : ∀ i, UpTo (· = nilDereference) (revert i) (revert₀ i)) :
    Along need (orRevert part revert) (orRevert part₀ revert₀) where
  same hn := by rw [h.same hn, hsame hn]
  fault hn s := by
    rcases h.fault hn s with ⟨⟨i, e⟩, hpart, rfl⟩ | ⟨halike, hfails⟩
    · have hs : part s = (.error (i, nilDereference), (part s).2) := Prod.ext hpart rfl
      exact .inl ⟨nilDereference, by rw [orRevert, hs]; rfl, rfl⟩
    · rcases hs : part₀ s with ⟨⟨i, e⟩ | a, s₁⟩
      · rw [hs] at halike
        cases e with
        | panic m => exact .inr ⟨by rw [orRevert, orRevert, halike, hs], fun a ha => by rw [orRevert, hs] at ha; cases ha⟩
        | error m =>
          have hrun : orRevert part revert s = (do revert i; throw (.error m) : WM Unit) s₁ := by rw [orRevert, halike]
          have hrun₀ : orRevert part₀ revert₀ s = (do revert₀ i; throw (.error m) : WM Unit) s₁ := by rw [orRevert, hs]
          rw [Faults, FailsAlike, hrun, hrun₀]
          exact (hrevert i).raise _ s₁
      · exact absurd (congrArg Prod.fst hs) (hfails a)

theorem along_applyBlock (block : PbBlock) : Along (NeedsContent r block) (applyBlock r E block miner order)
    (WalletManager.applyBlock E block miner order) := by
  refine Partway.after fun _ => ?_
  by_cases hexec : ∃ tx ∈ block.transactions, NeedsExecutor r tx
  · refine (Partway.before hexec (along_orRevert (Partway.forEach along_applyTransaction _) (absurd hexec) fun _ =>
      upTo_initiateRevertBlock block _ _ _)).congr ⟨.inl, fun _ => hexec⟩
  · have hrevert : ∀ numTy numDeal, initiateRevertBlock r E block order numTy numDeal 0 =
        WalletManager.initiateRevertBlock E block order numTy numDeal 0 := by
      refine fun numTy numDeal => initiateRevertBlock_eq ?_
      rintro (⟨tx, htx, hneeds⟩ | ⟨_, hmem, _⟩)
      · exact hexec ⟨tx, List.mem_of_mem_take htx, hneeds⟩
      · simp [bareBlock] at hmem
    have htx : Call.forEach (applyTransaction r E miner block.roundNum) block.transactions =
        WalletManager.applyTransactions E block.transactions miner block.roundNum :=
      (Partway.forEach along_applyTransaction _).same hexec
    rw [htx]
    simp only [hrevert]
    refine (Partway.after fun _ => Partway.after fun _ => along_orRevert (Partway.forEach along_applyPair _) ?_ fun _ =>
      upTo_initiateRevertBlock block _ _ _).congr ⟨.inr, fun h => h.resolve_left hexec⟩
    refine fun hnode => funext fun numProof => initiateRevertBlock_eq ?_
    rintro (⟨tx, htx, hneeds⟩ | ⟨cProof, hmem, hnil⟩)
    · exact hexec ⟨tx, List.mem_of_mem_take htx, hneeds⟩
    · exact hnode ⟨cProof, List.mem_of_mem_take hmem, hnil⟩

/-- The registration of a candidate by the genesis block, whose errors are not looked at. -/
theorem along_applyDelRegTxForGenesis (tx : Transaction) : Along (r.executor = false)
    (applyDelRegTxForGenesis r E tx bRound) (WalletManager.applyDelRegTxForGenesis E tx bRound) := by
  refine Partway.after fun _ => .afterUpTo ?_ (fun hexec => ?_) fun _ => Partway.after fun _ => ?_
  · refine (along_isExecutable tx).upTo.tryCatch ?_
    rintro _ rfl s
    exact ⟨_, rfl, rfl⟩
  · exact congrArg₂ tryCatch ((along_isExecutable tx).same fun hneed => hexec hneed.1) rfl
  · exact ((along_through _ _).bind fun _ => Partway.refl _).congr (by simp)

theorem along_applyGenesis (block : PbBlock) : Along (∃ tx ∈ block.transactions, tx.type = .becomeCandidate ∧ r.executor = false)
    (applyGenesis r E block) (WalletManager.applyGenesis E block) := by
  refine (Partway.after fun _ => Partway.after fun _ => (Partway.each along_applyDelRegTxForGenesis _).bind fun _ =>
    Partway.refl _).congr ?_
  simp [and_assoc]

/-- What a block needs: its registrations, if it is a genesis block, and nothing, if it is a digest block. -/
def NeedsBlock (r : Refs) (block : PbBlock) : Prop :=
  if block.isGenesis then ∃ tx ∈ block.transactions, tx.type = .becomeCandidate ∧ r.executor = false
  else block.isDigestBlock = false ∧ NeedsContent r block

theorem along_checkAndUpdateWalletStates (block : PbBlock) : Along (NeedsBlock r block)
    (checkAndUpdateWalletStates r E block miner order)
    (WalletManager.checkAndUpdateWalletStates E block miner order) := by
  unfold checkAndUpdateWalletStates WalletManager.checkAndUpdateWalletStates
  by_cases hgenesis : block.isGenesis = true
  · rw [if_pos hgenesis, if_pos hgenesis]
    exact (along_applyGenesis block).congr (by simp [NeedsBlock, hgenesis])
  · rw [if_neg hgenesis, if_neg hgenesis]
    have hneeds : NeedsBlock r block ↔ block.isDigestBlock = false ∧ NeedsContent r block := by
      simp [NeedsBlock, hgenesis]
    refine Partway.after fun _ => ?_
    by_cases hdigest : block.isDigestBlock = true
    · rw [if_pos hdigest, if_pos hdigest]
      exact (Partway.refl _).congr (by simp [hneeds, hdigest])
    · rw [if_neg hdigest, if_neg hdigest]
      exact (along_applyBlock block).congr (by simp [hneeds, hdigest])

end Detached

/-! ## Forks -/

namespace ForkMove

open Detached

variable {r : Refs} {E : Env} {order : MapOrder}

/-- What a move needs. -/
def Needs (r : Refs) : ForkMove → Prop
  | apply block => NeedsBlock r block
  | revert block => block.isDigestBlock = false ∧ NeedsContent r block

theorem along_run : ∀ move : ForkMove, Along (move.Needs r) (move.runWith r E order) (move.run E order)
  | apply block => along_checkAndUpdateWalletStates block
  | revert block => along_revertWalletStates block

/-- **A manager without its executor or its node goes through the moves that one with both goes through,
    exactly if none of them needs what is missing; if one does, it panics.** -/
theorem follows_iff {moves : List ForkMove} {wm wm' : WalletManager} (h : Call.each (run E order) moves wm = (.ok (), wm')) :
    (Call.each (runWith r E order) moves wm = (.ok (), wm') ↔ ∀ move ∈ moves, ¬ move.Needs r) ∧
      (Faults (· = nilDereference) (Call.each (runWith r E order) moves) wm ↔ ∃ move ∈ moves, move.Needs r) := by
  have hneed := (Partway.each (along_run (r := r)) moves).of_ok h
  simpa using hneed

/-- A block in which `"a"` registers as a candidate. -/
def registration : PbBlock := .simple [.simple .becomeCandidate "a" 1 0 "" ""] [] []

theorem follows_iff_registration :
    Faults (· = nilDereference) (Call.each (runWith restoredRefs Env.simple .sorted) [.apply registration])
      (newWalletManager "m") := by
  have hrun : (Call.each (run Env.simple .sorted) [.apply registration] (newWalletManager "m")).1 = .ok () := by
    decide
  exact (follows_iff (Prod.ext hrun rfl)).2.2 ⟨_, List.mem_singleton_self _, rfl, .inl ⟨_, List.mem_singleton_self _, rfl, rfl⟩⟩

end ForkMove
end Timbre
