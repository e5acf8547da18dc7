/-
  What a block carries, the wallets, and the state of the wallet manager.

  The map from addresses to wallets reads as `NewWallet` where it has no entry.  A pointer to
  a wallet of the map is the address it is stored under.  Amounts, nonces and vote powers are
  machine integers; percentages are small and stand as integers.
-/
import Timbre.Dpos.State
import Timbre.Core.Blockchain
import Timbre.Lib.Store
import Timbre.Lib.Call

namespace Timbre

/-! ## What a block carries -/

/-- The type of a transaction, a string in the source. -/
inductive TxType where
  | transfer | becomeCandidate | quitCandidate | vote | podf
  /-- any other string -/
  | other
deriving DecidableEq, Repr

/-- `pb.Transaction`, the payload not yet decoded. -/
structure Transaction where
  type : TxType
  senderId : Address
  recipientId : Address
  decibels : Int64
  timeStamp : Int64
  nonce : UInt64
  payload : String
  payerSig : String
deriving DecidableEq, Repr

/-- An unsigned transaction, for concrete runs. -/
def Transaction.simple (type : TxType) (senderId : Address) (nonce : UInt64) (decibels : Int64)
    (recipientId : Address) (payload : String) : Transaction :=
  { type, senderId, recipientId, decibels, timeStamp := 0, nonce, payload, payerSig := "" }

/-- `pb.BlockHeader`, as a PoDF carries it. -/
structure Header where
  height : Int64
  timestamp : Int64
  parentHash : Hash
  minerPublicKey : Address
  roundNum : Int64
  hash : Hash
  chainId : String
  minerSig : String
deriving DecidableEq, Repr

/-- The header of a block with the given hash, for concrete runs. -/
def Header.simple (height : Int64) (hash : Hash) (minerPublicKey : Address) : Header :=
  { height, timestamp := 0, parentHash := "", minerPublicKey, roundNum := 2, hash, chainId := "",
    minerSig := "" }

/-- `pb.SignedPostInfo`.  The poster is identified twice, by `pid` and by `authorAddress`. -/
structure Post where
  pid : Address
  authorAddress : Address
  maxCost : UInt32
  content : String
  sig : String
deriving DecidableEq, Repr

/-- `pb.Deal`. -/
structure Deal where
  list : List Post
  spid : Address
  spSig : String
  publicKey : String
  timestamp : Int64
  expiryTime : Int64
deriving DecidableEq, Repr

/-- `pb.ChPrPair`. -/
structure ChPrPair where
  dealhash : Hash
  timestamp : Int64
  challenge : String
  proof : Option String
deriving DecidableEq, Repr

/-- `pb.AccState`, an entry of a digest block. -/
structure AccState where
  pk : Address
  balance : Int64
  votes : List String
  isCandidate : Bool
  podfHeights : List Int64
  nonce : UInt64
deriving DecidableEq, Repr

/-- `pb.Block`, as far as the wallets look at it. -/
structure PbBlock where
  height : Int64
  minerPublicKey : Address
  roundNum : Int64
  transactions : List Transaction
  deals : List Deal
  chPrPair : List ChPrPair
  votes : List String
  accountStates : List AccState
deriving DecidableEq, Repr

namespace PbBlock

/-- A block of the miner `"m"` in the second round, for concrete runs. -/
def simple (transactions : List Transaction) (deals : List Deal) (chPrPair : List ChPrPair) :
    PbBlock :=
  { height := 1, minerPublicKey := "m", roundNum := 2, transactions, deals, chPrPair, votes := [],
    accountStates := [] }

def isGenesis (b : PbBlock) : Bool := b.height = 0

def isDigestBlock (b : PbBlock) : Bool := b.accountStates.length ≠ 0

def isEmpty (b : PbBlock) : Bool :=
  b.transactions.length = 0 ∧ b.votes.length = 0 ∧ b.deals.length = 0 ∧ b.chPrPair.length = 0 ∧
    b.isDigestBlock = false

end PbBlock

/-! ## What the wallets call -/

/-- The functions that the wallets call.  `hasValidSign` and `validateHeaderSign` return the
    error, if there is one.  Where the source computes with floats, the value it ends up
    with is given: `share p b` is `uint64((float64(p) / 100) * float64(b))`, `chargedAmount`
    the payment for one post of a deal and one verification, `sumFees` the total of the fees
    of the posts of a deal, `rollBack` and `undoRollBack` the balances after a reset and
    after it is undone. -/
structure Env where
  hasValidSign : Transaction → Option String
  getTxFee : Transaction → Int64
  getPostFee : Post → UInt32
  sumFees : List UInt32 → Int64
  votePayload : String → Except String (List String)
  podfPayload : String → Except String (Option Header × Option Header)
  validateHeaderSign : Header → Option String
  posVerify : (publicKey challenge proof : String) → Bool
  chargedAmount : (maxCost : UInt32) → (curTs lastTs totalDealTime : Int64) → Int64
  reward : (isEmpty : Bool) → (height : Int64) → Int64
  share : ℤ → Int64 → UInt64
  rollBack : Int64 → Int64
  undoRollBack : Int64 → Int64
  share_zero : ∀ b, share 0 b = 0

/-- The functions on a simple network, for concrete runs: every signature verifies, a
    transaction costs 1 and a post 2, a miner is paid 10 or 5 whatever the height, and the
    entries of a vote payload are separated by commas. -/
def Env.simple : Env where
  hasValidSign _ := none
  getTxFee _ := 1
  getPostFee _ := 2
  sumFees fees := fees.foldl (fun sum fee => sum + fee.toUInt64.toInt64) 0
  votePayload payload := .ok ((payload.toList.splitOn ',').map String.ofList)
  podfPayload _ := .ok (none, none)
  validateHeaderSign _ := none
  posVerify _ _ _ := true
  chargedAmount maxCost curTs lastTs totalDealTime :=
    Int64.ofInt (maxCost.toNat * (curTs.toInt - lastTs.toInt) / totalDealTime.toInt)
  reward isEmpty _ := if isEmpty then 5 else 10
  share percent balance := UInt64.ofNat (percent * balance.toInt / 100).toNat
  rollBack balance := balance
  undoRollBack balance := balance
  share_zero _ := by simp

/-! ## The wallets -/

def baseBalance : Int64 := 10000000

def blockThresholdToBan : ℕ := 3
def banDuration : Int64 := 100
def genesisRounds : Int64 := 1

def rewardForBlockCreation : Int64 := 10
def rewardForPodf : Int64 := rewardForBlockCreation / 2

structure Wallet where
  isCandidate : Bool
  podfHeights : List Int64
  bannedTill : Int64
  votePower : UInt64
  nonce : UInt64
  voted : Store Address (0 : ℤ)
  voteLeft : ℤ
  balance : Int64
  blockReward : Int64
  proofReward : Int64
  rollBackAmount : Int64
  transactionFee : Int64

/-- `NewWallet`.  The address of a wallet is the key it is stored under. -/
def newWallet : Wallet where
  isCandidate := false
  podfHeights := []
  bannedTill := -1
  votePower := 0
  nonce := 0
  voted := .empty
  voteLeft := 100
  balance := baseBalance
  blockReward := 0
  proofReward := 0
  rollBackAmount := 0
  transactionFee := 0

/-- What the wallets see of the node: the stored deals, and the verification times of deals
    that have expired. -/
structure Node where
  deals : Hash → Option Deal
  lastChVerifications : Store Hash ([] : List Int64)

/-- `WalletManager`.  `MyWallet` is the wallet stored under `myAddress`; the executor of
    candidate transactions is the state of the DPOS. -/
structure WalletManager where
  walletByAddress : Store Address newWallet
  myAddress : Address
  lastChVerificationTime : Store Hash ([] : List Int64)
  executor : State
  node : Node

/-- `NewWalletManager`, on a node that knows no deals and no candidates. -/
def newWalletManager (userAddress : Address) : WalletManager where
  walletByAddress := Store.empty.touch userAddress
  myAddress := userAddress
  lastChVerificationTime := .empty
  executor := .newDposState
  node := ⟨fun _ => none, .empty⟩

/-- A call on the wallet manager. -/
abbrev WM := Call WalletManager Err

/-! ## Operations on one wallet -/

namespace Wallet

def unusedWallet (w : Wallet) : Bool :=
  w.balance = baseBalance ∧ w.voteLeft = 100 ∧ w.blockReward = 0 ∧ w.transactionFee = 0 ∧
    w.isCandidate = false

/-- `CheckUnvoteValidity`; returns the error, if there is one. -/
def checkUnvoteValidity (w : Wallet) (percent : ℤ) (candID : Address) : Option String :=
  if candID ∈ w.voted.keys then
    if w.voted.get candID < percent then some "Unvote percent is greater and invalid" else none
  else some "Not voted before. Can't unvote"

/-- `CheckVoteValidity`; returns the error, if there is one. -/
def checkVoteValidity (w : Wallet) (percent : ℤ) : Option String :=
  if percent > w.voteLeft then some "Vote exceeds the leftover vote balance" else none

def executeVote (w : Wallet) (toAdd : ℤ) (candID : Address) : Wallet :=
  if candID ∈ w.voted.keys then
    { w with voted := w.voted.set candID (w.voted.get candID + toAdd) }
  else { w with voted := w.voted.set candID toAdd }

/-- `ExecuteUnvote`.  An entry that has come down to zero is deleted and set again; when
    there is no entry to delete, the wallet is left as it is. -/
def executeUnvote (w : Wallet) (toSub : ℤ) (candID : Address) : Wallet :=
  let updated := w.voted.get candID - toSub
  if updated = 0 then
    if candID ∈ w.voted.keys then { w with voted := (w.voted.erase candID).set candID updated } else w
  else { w with voted := w.voted.set candID updated }

def addVoteLeft (w : Wallet) (num : ℤ) : Wallet := { w with voteLeft := w.voteLeft + num }
def subVoteLeft (w : Wallet) (num : ℤ) : Wallet := { w with voteLeft := w.voteLeft - num }

def addVotePower (w : Wallet) (num : UInt64) : Wallet := { w with votePower := w.votePower + num }
def subVotePower (w : Wallet) (num : UInt64) : Wallet := { w with votePower := w.votePower - num }

/-- `wm.CheckNonce`. -/
def checkNonce (txNonce : UInt64) (w : Wallet) : Bool := txNonce = w.nonce + 1

theorem nonce_of_check {txNonce : UInt64} {w : Wallet} (h : ¬ w.checkNonce txNonce = false) :
    txNonce = w.nonce + 1 := by
  simpa [checkNonce] using h

theorem voted_executeVote (w : Wallet) (p : ℤ) (c : Address) :
    (w.executeVote p c).voted = w.voted.set c (w.voted.get c + p) := by
  unfold executeVote
  split_ifs with h
  · rfl
  · rw [w.voted.get_absent c h, Int.zero_add]

theorem get_voted_executeUnvote (w : Wallet) (p : ℤ) (c : Address) :
    (w.executeUnvote p c).voted.get = Function.update w.voted.get c (w.voted.get c - p) := by
  unfold executeUnvote
  dsimp only
  split_ifs with h hc
  · simp
  · rw [h]
    exact (Function.update_eq_self_iff.2 (w.voted.get_absent c hc).symm).symm
  · rfl

end Wallet
end Timbre
