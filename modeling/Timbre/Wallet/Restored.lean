/-
  Wallets that are stored as a snapshot, and restored.

  A snapshot has the percentages of the votes as 32-bit integers, and leaves out the reward for proofs.  **In
  every state of a run the restored wallets are those of the node** (`restored_of_run`): the votes of a wallet
  stay within a hundred percent, and no block gives a reward for proofs.
-/
import Timbre.Storage.Database
import Timbre.Wallet.VoteBudget

namespace Timbre

open Call Storage

/-! ## The source -/

/-- `pb.Wallet`. -/
structure PbWallet where
  isCandidate : Bool
  bannedTill : Int64
  votePower : UInt64
  address : Address
  balance : Int64
  voteLeft : Int32
  blockReward : Int64
  transactionFee : Int64
  nonce : UInt64
  rollBackAmount : Int64
  podfHeights : List Int64
  voted : Store Address (0 : Int32)

/-- `pb.ProofEntry`. -/
structure ProofEntry where
  dealHash : String
  timeStamps : List Int64

/-- `pb.WalletStates`. -/
structure WalletStates where
  wallets : List PbWallet
  proofTimes : List ProofEntry

namespace Wallet

/-- `DeepCopyToPbWallet`. -/
def deepCopyToPbWallet (address : Address) (w : Wallet) : PbWallet where
  isCandidate := w.isCandidate
  bannedTill := w.bannedTill
  votePower := w.votePower
  address := address
  balance := w.balance
  voteLeft := Int32.ofInt w.voteLeft
  blockReward := w.blockReward
  transactionFee := w.transactionFee
  nonce := w.nonce
  rollBackAmount := w.rollBackAmount
  podfHeights := w.podfHeights
  voted := ⟨w.voted.keys, fun c => Int32.ofInt (w.voted.get c), fun c hc => by rw [w.voted.get_absent c hc]; rfl⟩

/-- `FormProtoWallet`. -/
def formProtoWallet (w : PbWallet) : Wallet where
  isCandidate := w.isCandidate
  podfHeights := w.podfHeights
  bannedTill := w.bannedTill
  votePower := w.votePower
  nonce := w.nonce
  voted := ⟨w.voted.keys, fun c => (w.voted.get c).toInt, fun c hc => by rw [w.voted.get_absent c hc]; rfl⟩
  voteLeft := w.voteLeft.toInt
  balance := w.balance
  blockReward := w.blockReward
  proofReward := 0
  rollBackAmount := w.rollBackAmount
  transactionFee := w.transactionFee

end Wallet

/-- The bytes of a key, and the key of bytes. -/
def bytesOf (k : String) : Bytes := k.toUTF8.data.toList

def keyOf (bytes : Bytes) : String := (String.fromUTF8? ⟨bytes.toArray⟩).getD ""

/-- The value of a hexadecimal digit. -/
def fromHexChar (c : Char) : Option ℕ :=
  if '0' ≤ c ∧ c ≤ '9' then some (c.toNat - '0'.toNat)
  else if 'a' ≤ c ∧ c ≤ 'f' then some (c.toNat - 'a'.toNat + 10)
  else if 'A' ≤ c ∧ c ≤ 'F' then some (c.toNat - 'A'.toNat + 10)
  else none

/-- `hex.DecodeString`, without its error: the bytes before the first pair that is none of digits. -/
def decodeString : List Char → Bytes
  | c :: d :: cs =>
    match fromHexChar c, fromHexChar d with
    | some x, some y => UInt8.ofNat (16 * x + y) :: decodeString cs
    | _, _ => []
  | _ => []

namespace WalletManager

/-- `SnapShotWalletsUsingPb`; the loops over the two maps have their own orders. -/
def snapShotWalletsUsingPb (order timesOrder : MapOrder) (wm : WalletManager) : WalletStates where
  wallets := (order.list wm.walletByAddress.keys).map fun a => (wm.wallet a).deepCopyToPbWallet a
  proofTimes := (timesOrder.list wm.lastChVerificationTime.keys).map fun k =>
    ⟨hex (bytesOf k), wm.lastChVerificationTime.get k⟩

/-- `NewWalletManagerFromPb`.  The executor and the node are not set. -/
def newWalletManagerFromPb (wallets : WalletStates) (userAddress : Address) : WalletManager where
  walletByAddress := (wallets.wallets.foldl (fun ws wal => ws.set wal.address (Wallet.formProtoWallet wal))
    Store.empty).touch userAddress
  myAddress := userAddress
  lastChVerificationTime := wallets.proofTimes.foldl (fun times entry =>
    times.set (keyOf (decodeString entry.dealHash.toList)) entry.timeStamps) Store.empty
  executor := .newDposState
  node := ⟨fun _ => none, .empty⟩

end WalletManager

/-! ## Encodings -/

theorem keyOf_bytesOf (k : String) : keyOf (bytesOf k) = k := by
  have hvalid : String.fromUTF8? ⟨(bytesOf k).toArray⟩ = some k := by
    simp only [String.fromUTF8?, bytesOf, Array.toArray_toList]
    exact dif_pos k.isValidUTF8
  rw [keyOf, hvalid]
  rfl

theorem fromHexChar_digitChar : ∀ n < 16, fromHexChar (Nat.digitChar n) = some n := by decide

theorem decodeString_hex (bytes : Bytes) : decodeString (hex bytes).toList = bytes := by
  rw [hex, String.toList_ofList]
  induction bytes with
  | nil => rfl
  | cons b bytes ih =>
    have hb := b.toNat_lt
    have hhigh : fromHexChar (Nat.digitChar (b.toNat / 16)) = some (b.toNat / 16) := fromHexChar_digitChar _ (by omega)
    have hlow : fromHexChar (Nat.digitChar (b.toNat % 16)) = some (b.toNat % 16) := fromHexChar_digitChar _ (by omega)
    simp only [List.flatMap_cons, List.cons_append, List.nil_append, decodeString, hhigh, hlow, ih]
    rw [Nat.div_add_mod, UInt8.ofNat_toNat]

/-! ## One wallet -/

namespace Wallet

variable {w : Wallet}

theorem toInt_percent {n : ℤ} (h : 0 ≤ n ∧ n ≤ 100) : (Int32.ofInt n).toInt = n :=
  Int32.toInt_ofInt_of_le (by omega) (by omega)

theorem InBudget.vote (h : w.InBudget) (c : Address) : 0 ≤ w.voted.get c ∧ w.voted.get c ≤ 100 := by
  by_cases hc : c ∈ w.voted.keys
  · have hle : w.voted.get c ≤ ∑ c ∈ w.voted.keys, w.voted.get c := Finset.single_le_sum h.nonneg hc
    have htotal := h.total
    have hleft := h.left
    exact ⟨h.nonneg c hc, by omega⟩
  · rw [w.voted.get_absent c hc]
    exact ⟨le_rfl, by decide⟩

theorem proofReward_executeVote (w : Wallet) (p : ℤ) (c : Address) : (w.executeVote p c).proofReward = w.proofReward := by
  unfold executeVote
  split_ifs
  · rfl
  · rfl

theorem proofReward_executeUnvote (w : Wallet) (p : ℤ) (c : Address) :
    (w.executeUnvote p c).proofReward = w.proofReward := by
  unfold executeUnvote
  dsimp only
  split_ifs
  · rfl
  · rfl
  · rfl

/-- A wallet in its budget is restored, without its reward for proofs. -/
theorem InBudget.restored (h : w.InBudget) (a : Address) :
    formProtoWallet (w.deepCopyToPbWallet a) = { w with proofReward := 0 } := by
  have hvoted : (formProtoWallet (w.deepCopyToPbWallet a)).voted = w.voted :=
    Store.ext rfl (funext fun c => toInt_percent (h.vote c))
  have hleft : (formProtoWallet (w.deepCopyToPbWallet a)).voteLeft = w.voteLeft := toInt_percent h.left
  exact congrArg₂ (fun (voted : Store Address (0 : ℤ)) (voteLeft : ℤ) =>
    { w with voted := voted, voteLeft := voteLeft, proofReward := 0 }) hvoted hleft

end Wallet

/-! ## The reward for proofs -/

namespace WalletManager

variable {E : Env} {α β : Type} {bRound : Int64} {miner a : Address} {block : PbBlock} {order timesOrder : MapOrder}
  {wm wm₀ wm' : WalletManager} {es : List Event} {f : Wallet → Wallet}

/-- No wallet has a reward for proofs. -/
def Unproven (wm : WalletManager) : Prop := ∀ a, (wm.wallet a).proofReward = 0

/-- No wallet gets a reward for proofs. -/
def KeepsUnproven (wm wm' : WalletManager) : Prop := wm.Unproven → wm'.Unproven

instance : Std.Refl KeepsUnproven := ⟨fun _ h => h⟩

instance : IsTrans WalletManager KeepsUnproven := ⟨fun _ _ _ h h' hs => h' (h hs)⟩

/-- The call gives no wallet a reward for proofs, however it ends. -/
abbrev Unpaid (c : Call WalletManager β α) : Prop := Moves KeepsUnproven c

theorem unproven_of_wallet (h : wm'.wallet = wm.wallet) : KeepsUnproven wm wm' := fun hs a => by
  rw [h]
  exact hs a

theorem unproven_modifyWallet (hf : ∀ w, (f w).proofReward = 0 ∨ (f w).proofReward = w.proofReward) :
    KeepsUnproven wm (wm.modifyWallet a f) := fun h b => by
  by_cases hb : b = a
  · subst hb
    rw [wallet_modifyWallet_self]
    exact (hf _).elim id fun hsame => hsame.trans (h b)
  · rw [wallet_modifyWallet_of_ne hb]
    exact h b

theorem unproven_reAssign (voter : Wallet) (delta : Int64) : KeepsUnproven wm (wm.reAssign E voter delta) := fun h b => by
  rw [wallet_reAssign]
  split_ifs
  · exact h b
  · exact h b

theorem unproven_addVotePower (voter : Wallet) (p : ℤ) : KeepsUnproven wm (wm.addVotePower E a p voter) := fun h b => by
  rw [wallet_addVotePower]
  split_ifs
  · exact h b
  · exact h b

theorem unproven_castVote (voter : Address) (p : ℤ) : KeepsUnproven wm (wm.castVote voter E a p) := fun h =>
  unproven_addVotePower _ _ (unproven_modifyWallet (fun w => .inr (w.proofReward_executeVote p a)) h)

theorem unproven_castUnvote (voter : Address) (p : ℤ) : KeepsUnproven wm (wm.castUnvote voter E a p) := fun h => by
  rw [castUnvote, subVotePower_eq_addVotePower]
  exact unproven_addVotePower _ _ (unproven_modifyWallet (fun w => .inr (w.proofReward_executeUnvote p a)) h)

theorem unproven_tidied : KeepsUnproven wm wm.tidied := fun h a => by
  by_cases ha : a ∈ wm.tidied.keys
  · exact wallet_tidied ha ▸ h a
  · exact wallet_absent ha ▸ rfl

/-! ## Calls -/

theorem unpaid_ite {p : Prop} [Decidable p] {c d : WM α} (hc : Unpaid c) (hd : Unpaid d) :
    Unpaid (if p then c else d) := by
  split_ifs
  · exact hc
  · exact hd

theorem unpaid_of_grow {c : WM α} (h : ∀ wm, Spec c wm (fun _ wm' => Grow wm wm') fun _ wm' => Grow wm wm') :
    Unpaid c := fun wm => by
  have hwm := h wm
  rcases hc : c wm with ⟨e | x, wm'⟩
  · exact unproven_of_wallet (hwm.error hc).wallet
  · exact unproven_of_wallet (hwm.ok hc).wallet

theorem Unpaid.of_ok {c : Call WalletManager β α} {x : α} (hc : Unpaid c) (h : c wm = (.ok x, wm')) :
    KeepsUnproven wm wm' := by
  have hwm := hc wm
  rwa [h] at hwm

theorem unpaid_modify {g : WalletManager → WalletManager} (h : ∀ wm, KeepsUnproven wm (g wm)) :
    Unpaid (modify g : WM Unit) := h

theorem unpaid_modifyWallet (a : Address) (h : ∀ w, (f w).proofReward = 0 ∨ (f w).proofReward = w.proofReward) :
    Unpaid (modify fun wm : WalletManager => wm.modifyWallet a f : WM Unit) :=
  unpaid_modify fun _ => unproven_modifyWallet h

theorem unpaid_checkAndPut (a : Address) : Unpaid (checkAndPutWalletByAddress a) := fun _ => unproven_of_wallet rfl

theorem unpaid_getWallet (a : Address) : Unpaid (getWalletByAddress a) :=
  Moves.bind moves_get fun _ => unpaid_ite (moves_pure _) (moves_throw _)

theorem unpaid_addBalance (a : Address) (delta : Int64) : Unpaid (addBalance E a delta) :=
  unpaid_modify fun _ h => unproven_reAssign _ _ (unproven_modifyWallet (fun _ => .inr rfl) h)

theorem unpaid_subBalance (a : Address) (amount : Int64) : Unpaid (subBalance E a amount) :=
  unpaid_modify fun _ h => unproven_reAssign _ _ (unproven_modifyWallet (fun _ => .inr rfl) h)

theorem unpaid_reAssign (a : Address) (delta : Int64) : Unpaid (reAssignVotePower E a delta) :=
  unpaid_modify fun _ => unproven_reAssign _ _

theorem unpaid_setNonce (a : Address) (g : UInt64 → UInt64) : Unpaid (setNonce a g) :=
  unpaid_modifyWallet a fun _ => .inr rfl

theorem unpaid_setCandidate (a : Address) (flag : Bool) : Unpaid (setCandidate a flag) :=
  unpaid_modifyWallet a fun _ => .inr rfl

theorem unpaid_executeRegister (a : Address) : Unpaid (executeRegisterCandidate a) := by
  refine Moves.bind moves_get fun wm => ?_
  split
  · exact unpaid_modify fun _ => unproven_of_wallet rfl
  · exact moves_throw _

theorem unpaid_executeQuit (a : Address) : Unpaid (executeQuitCandidate a) := by
  refine Moves.bind moves_get fun wm => ?_
  split
  · refine unpaid_modify fun wm => ?_
    dsimp only
    split_ifs
    · exact fun h => unproven_modifyWallet (fun _ => .inr rfl) fun b => h b
    · exact unproven_of_wallet rfl
  · exact moves_throw _

theorem unpaid_isExecutable (tx : Transaction) : Unpaid (isExecutable E tx bRound) :=
  unpaid_of_grow fun wm => (isExecutable_admits E bRound tx wm).mono (fun _ _ h => h.1) fun _ _ h => h

theorem unpaid_validateVote (vote : Transaction) : Unpaid (validateVote E vote bRound) :=
  unpaid_of_grow fun wm => (validateVote_spec E bRound vote wm).mono (fun _ _ h => h.1 ▸ grow_put _ _) fun _ _ h => h

theorem unpaid_validatePodf (podf : Transaction) : Unpaid (validatePodf E podf bRound) :=
  unpaid_of_grow fun wm => (validatePodf_spec E bRound podf wm).mono (fun _ _ h => h.1 ▸ grow_put _ _) fun _ _ h => h

theorem unpaid_checkEntry (vWallet : Wallet) (votedCand : String) : Unpaid (checkEntry vWallet votedCand) :=
  unpaid_of_grow fun wm => (checkEntry_spec vWallet votedCand wm).mono (fun _ _ h => h.1 ▸ .refl _) fun _ _ h => h.1 ▸ .refl _

/-! ## Transactions -/

theorem unpaid_applyTransferTx (tx : Transaction) (fee : Int64) : Unpaid (applyTransferTx E tx fee bRound) :=
  (unpaid_checkAndPut _).bind fun _ => (unpaid_checkAndPut _).bind fun _ => (unpaid_isExecutable tx).bind fun _ =>
    (unpaid_getWallet _).bind fun _ => (unpaid_subBalance _ _).bind fun _ => (unpaid_setNonce _ _).bind fun _ =>
      (unpaid_getWallet _).bind fun _ => unpaid_addBalance _ _

theorem unpaid_applyCandidateTx {execute : Address → WM Unit} (h : ∀ a, Unpaid (execute a)) (flag : Bool)
    (tx : Transaction) (fee : Int64) : Unpaid (applyCandidateTx E execute flag tx fee bRound) :=
  (unpaid_checkAndPut _).bind fun _ => (unpaid_isExecutable tx).bind fun _ => (unpaid_getWallet _).bind fun _ =>
    (h _).bind fun _ => (unpaid_setCandidate _ _).bind fun _ => (unpaid_subBalance _ _).bind fun _ =>
      unpaid_setNonce _ _

theorem unpaid_applyEntry (voter : Address) (votedCand : String) : Unpaid (applyEntry E voter votedCand) := by
  refine Moves.bind moves_get fun wm => (unpaid_checkEntry (wm.wallet voter) votedCand).bind fun _ => ?_
  split
  · exact moves_throw _
  · exact unpaid_modify fun _ => unproven_castUnvote _ _
  · exact unpaid_modify fun _ => unproven_castVote _ _

theorem unpaid_applyVote (vote : Transaction) (fee : Int64) : Unpaid (applyVote E vote fee bRound) :=
  (unpaid_validateVote vote).bind fun _ => (unpaid_checkAndPut _).bind fun _ => (unpaid_setNonce _ _).bind fun _ =>
    (unpaid_subBalance _ _).bind fun _ => .each (unpaid_applyEntry _) _

theorem unpaid_applyPodf (podf : Transaction) (fee : Int64) : Unpaid (applyPodf E podf fee bRound) := by
  refine (unpaid_validatePodf podf).bind fun _ => ?_
  split
  · exact moves_throw _
  · refine (unpaid_getWallet _).bind fun _ => Moves.bind (unpaid_modifyWallet _ fun _ => .inr rfl) fun _ => ?_
    refine (unpaid_subBalance _ _).bind fun _ => Moves.bind (unpaid_modifyWallet _ fun _ => .inr rfl) fun _ => ?_
    exact (unpaid_checkAndPut _).bind fun _ => unpaid_addBalance _ _

theorem unpaid_applyTransaction (tx : Transaction) : Unpaid (applyTransaction E miner bRound tx) := by
  have hrest : Unpaid (do
      addBalance E miner (txFee E tx bRound)
      modify fun wm => wm.modifyWallet miner fun w =>
        { w with transactionFee := w.transactionFee + txFee E tx bRound } : WM Unit) :=
    (unpaid_addBalance _ _).bind fun _ => unpaid_modifyWallet _ fun _ => .inr rfl
  unfold applyTransaction
  dsimp only
  split
  · exact (unpaid_applyTransferTx tx _).bind fun _ => hrest
  · exact (unpaid_applyCandidateTx unpaid_executeRegister true tx _).bind fun _ => hrest
  · exact (unpaid_applyCandidateTx unpaid_executeQuit false tx _).bind fun _ => hrest
  · exact (unpaid_applyVote tx _).bind fun _ => hrest
  · exact (unpaid_applyPodf tx _).bind fun _ => hrest
  · exact (moves_throw _).bind fun _ => hrest

/-! ## Deals and verifications -/

theorem unpaid_chargePost (post : Post) : Unpaid (chargePost E bRound post) := by
  refine (unpaid_checkAndPut _).bind fun _ => (unpaid_getWallet _).bind fun _ =>
    unpaid_ite ((moves_throw _).bind fun _ => ?_) ?_
  all_goals exact Moves.bind (unpaid_modifyWallet _ fun _ => .inr rfl) fun _ => unpaid_reAssign _ _

theorem unpaid_applyDeal (deal : Deal) : Unpaid (applyDeal E miner bRound deal) := by
  have hvalid : Unpaid (validateDeal E deal bRound) :=
    Moves.bind moves_get fun _ => unpaid_ite (moves_throw _) (moves_pure _)
  exact hvalid.bind fun _ => (unpaid_checkAndPut _).bind fun _ => (Moves.each unpaid_chargePost _).bind fun _ =>
    (unpaid_addBalance _ _).bind fun _ => unpaid_modifyWallet _ fun _ => .inr rfl

theorem unpaid_verificationPayment (deal : Deal) (curTs lastTs : Int64) :
    Unpaid (verificationPayment E deal curTs lastTs) :=
  (unpaid_checkAndPut _).bind fun _ => .each (fun _ => (unpaid_checkAndPut _).bind fun _ => unpaid_addBalance _ _) _

theorem unpaid_applyPair (cProof : ChPrPair) : Unpaid (applyPair E cProof) := by
  have hdeal : Unpaid (getDealbyHash cProof.dealhash) := Moves.bind moves_get fun wm => by
    split
    · exact moves_pure _
    · exact moves_throw _
  refine hdeal.bind fun deal => Moves.bind moves_get fun wm => ?_
  refine Moves.bind (unpaid_modify fun _ => unproven_of_wallet rfl) fun _ => unpaid_ite ?_ (moves_pure _)
  split
  · exact unpaid_verificationPayment deal _ _
  · exact moves_throw _

/-! ## Blocks -/

theorem unpaid_giveBlockReward (block : PbBlock) : Unpaid (giveBlockReward E block miner) :=
  Moves.bind (unpaid_modifyWallet _ fun _ => .inr rfl) fun _ => unpaid_addBalance _ _

theorem unpaid_applyDelRegTxForGenesis (tx : Transaction) : Unpaid (applyDelRegTxForGenesis E tx bRound) := by
  refine (unpaid_checkAndPut _).bind fun _ => Moves.bind ((unpaid_isExecutable tx).tryCatch fun e => ?_) fun _ => ?_
  · cases e with
    | error e => exact moves_pure _
    | panic e => exact moves_throw _
  · refine (unpaid_getWallet _).bind fun _ => ?_
    refine Moves.bind ((unpaid_executeRegister _).tryCatch fun _ => moves_pure _) fun _ => ?_
    exact (unpaid_setCandidate _ _).bind fun _ => unpaid_setNonce _ _

theorem unpaid_applyGenesis (block : PbBlock) : Unpaid (applyGenesis E block) :=
  (unpaid_checkAndPut _).bind fun _ => (unpaid_setCandidate _ _).bind fun _ =>
    (Moves.each unpaid_applyDelRegTxForGenesis _).bind fun _ => unpaid_giveBlockReward block

/-- A digest block takes the rewards for proofs away. -/
theorem unpaid_resetWallet (a : Address) : Unpaid (resetWallet E a) :=
  Moves.bind moves_get fun _ => Moves.bind (unpaid_modifyWallet _ fun _ => .inr rfl) fun _ => (unpaid_reAssign _ _).bind fun _ =>
    unpaid_modifyWallet _ fun _ => .inl rfl

theorem unpaid_validateDigestBlock (digest : PbBlock) : Unpaid (validateDigestBlock digest) := fun wm => by
  have hspec := validateDigestBlock_spec digest wm
  rcases hc : validateDigestBlock digest wm with ⟨e | x, wm'⟩
  · exact (hspec.error hc).1 ▸ unproven_tidied
  · exact (hspec.ok hc).1 ▸ unproven_tidied

theorem unpaid_applyDigestBlock (block : PbBlock) : Unpaid (applyDigestBlock E block miner order) := by
  have hreset : Unpaid (resetWalletManagerState E order) :=
    Moves.bind moves_get fun _ => .each unpaid_resetWallet _
  refine (unpaid_getWallet _).bind fun mWallet => (unpaid_validateDigestBlock block).bind fun _ => ?_
  refine Moves.bind moves_get fun _ => unpaid_ite ?_ ?_
  · exact (unpaid_giveBlockReward block).bind fun _ => hreset
  · exact (unpaid_modify fun _ => unproven_reAssign _ _).bind fun _ => hreset

/-- The blocks of a run are accepted, so nothing is taken back. -/
theorem applyBlock_unproven (h : applyBlock E block miner order wm = (.ok (), wm')) : KeepsUnproven wm wm' := by
  obtain ⟨t₀, t₁, t₂, h⟩ := applyBlock_parts h
  have h₁ := Unpaid.of_ok (Moves.forEachFrom unpaid_applyTransaction block.transactions 0) h.transactions
  have h₂ := Unpaid.of_ok (Moves.forEachFrom unpaid_applyDeal block.deals 0) h.deals
  have h₃ := Unpaid.of_ok (Moves.forEachFrom unpaid_applyPair block.chPrPair 0) h.pairs
  exact fun hs => h₃ (h₂ (h₁ (Unpaid.of_ok (unpaid_giveBlockReward block) h.reward hs)))

theorem Happens.unproven {e : Event} (h : Happens E e wm wm') : KeepsUnproven wm wm' := by
  cases h with
  | @block block miner _ _ order h =>
    have hput : KeepsUnproven wm (wm.put miner) := unproven_of_wallet rfl
    unfold checkAndUpdateWalletStates at h
    split_ifs at h
    · exact Unpaid.of_ok (unpaid_applyGenesis block) h
    · exact fun hs => Unpaid.of_ok (unpaid_applyDigestBlock block) h (hput hs)
    · exact fun hs => applyBlock_unproven h (hput hs)
  | outside => exact unproven_of_wallet rfl

theorem Run.unproven (h : Run E es wm₀ wm) (hfresh : wm₀.Unproven) : wm.Unproven :=
  Steps.invariant (I := Unproven) h hfresh fun _ _ _ _ hs hx => hx.unproven hs

/-! ## The snapshot restored -/

theorem wallets_restored (hbudget : ∀ a, (wm.wallet a).InBudget) (hunproven : wm.Unproven) (order : MapOrder) :
    ((order.list wm.walletByAddress.keys).map fun a => (wm.wallet a).deepCopyToPbWallet a).foldl
      (fun ws wal => ws.set wal.address (Wallet.formProtoWallet wal)) Store.empty = wm.walletByAddress := by
  have hwallet : ∀ a, Wallet.formProtoWallet ((wm.wallet a).deepCopyToPbWallet a) = wm.wallet a := by
    intro a
    rw [(hbudget a).restored a, ← hunproven a]
  rw [List.foldl_map]
  exact Store.foldl_set_self (order.mem _) fun a _ => hwallet a

theorem times_restored (order : MapOrder) :
    ((order.list wm.lastChVerificationTime.keys).map fun k => ProofEntry.mk (hex (bytesOf k))
      (wm.lastChVerificationTime.get k)).foldl (fun times entry =>
        times.set (keyOf (decodeString entry.dealHash.toList)) entry.timeStamps) Store.empty =
      wm.lastChVerificationTime := by
  simp only [List.foldl_map, decodeString_hex, keyOf_bytesOf]
  exact Store.foldl_set_self (order.mem _) fun _ _ => rfl

theorem Run.restores (hfresh : Fresh wm₀) (h : Run E es wm₀ wm) (order timesOrder : MapOrder) :
    let wm' := newWalletManagerFromPb (wm.snapShotWalletsUsingPb order timesOrder) wm.myAddress
    wm'.walletByAddress = wm.walletByAddress ∧ wm'.lastChVerificationTime = wm.lastChVerificationTime := by
  have hbudget : ∀ a, (wm.wallet a).InBudget :=
    h.votes_invariant voteInvariant_inBudget fun a => hfresh.wallet a ▸ voteInvariant_inBudget.new
  have hunproven : wm.Unproven := h.unproven fun a => hfresh.wallet a ▸ rfl
  have hmine : wm.walletByAddress.touch wm.myAddress = wm.walletByAddress :=
    Store.ext (Finset.insert_eq_of_mem (h.good hfresh.good).mine) rfl
  refine ⟨?_, times_restored timesOrder⟩
  simp only [newWalletManagerFromPb, snapShotWalletsUsingPb, wallets_restored hbudget hunproven, hmine]

/-- **A snapshot of the wallets, taken in any state of a run of a node, restores them all**: with the executor and
    the node set again, the restored manager is the one the snapshot was taken of. -/
theorem restored_of_run (hfresh : Fresh wm₀) (h : Run E es wm₀ wm) (order timesOrder : MapOrder) :
    { newWalletManagerFromPb (wm.snapShotWalletsUsingPb order timesOrder) wm.myAddress with
        executor := wm.executor, node := wm.node } = wm := by
  obtain ⟨hwallets, htimes⟩ := h.restores hfresh order timesOrder
  dsimp only
  rw [hwallets, htimes]
  rfl

/-- `"a"` votes for the miner. -/
def votedFor : PbBlock := .simple [.simple .vote "a" 1 0 "" "+40|m"] [] []

theorem restored_of_run_vote :
    { newWalletManagerFromPb ((afterBlock votedFor).snapShotWalletsUsingPb .sorted .sorted) (afterBlock votedFor).myAddress with
        executor := (afterBlock votedFor).executor, node := (afterBlock votedFor).node } = afterBlock votedFor :=
  restored_of_run (fresh_newWalletManager "m") (.single (happens_afterBlock (by decide +kernel))) .sorted .sorted

end WalletManager
end Timbre
