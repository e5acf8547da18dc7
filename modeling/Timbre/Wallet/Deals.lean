/-
  The deals of a block and the verifications of stored deals: validation, application and
  reversal.
-/
import Timbre.Lib.UnixTime
import Timbre.Wallet.Transactions

namespace Timbre
namespace WalletManager

variable (E : Env)

/-! ## Deals -/

/-- The fee of a post; the first rounds are free. -/
def postFee (post : Post) (bRound : Int64) : UInt32 :=
  if bRound ≤ genesisRounds then 0 else E.getPostFee post

/-- `int64(chargedAmount) + int64(perPostFee)`. -/
def postPrice (post : Post) (bRound : Int64) : Int64 :=
  post.maxCost.toUInt64.toInt64 + (postFee E post bRound).toUInt64.toInt64

/-- `int64(totalFee)`. -/
def dealFee (deal : Deal) (bRound : Int64) : Int64 :=
  E.sumFees (deal.list.map fun post => postFee E post bRound)

/-- `ValidateDeal`.  The local copies of the wallets are never charged, so every post is
    checked against the balance that its poster had before the deal. -/
def validateDeal (deal : Deal) (bRound : Int64) : WM Unit := do
  let wm ← get
  if deal.list.any fun post => (wm.wallet post.pid).balance < postPrice E post bRound then
    throw (.error "insufficient payer balance")

/-- The charge for one post.  It goes to the author of the post, and what the vote power is
    told is computed in `uint32`. -/
def chargePost (bRound : Int64) (post : Post) : WM Unit := do
  let posterAdd := post.authorAddress
  checkAndPutWalletByAddress posterAdd
  let pWallet ← getWalletByAddress posterAdd
  if pWallet.balance < postPrice E post bRound then
    throw (.panic "Deal payment not possible-> Balance will go in negative. Handle this")
  modify fun wm => wm.modifyWallet posterAdd fun w =>
    { w with balance := w.balance - postPrice E post bRound }
  reAssignVotePower E posterAdd (0 - post.maxCost - postFee E post bRound).toUInt64.toInt64

/-- One round of the loop of `applyDeals`. -/
def applyDeal (miner : Address) (bRound : Int64) (deal : Deal) : WM Unit := do
  validateDeal E deal bRound
  checkAndPutWalletByAddress deal.spid
  Call.each (chargePost E bRound) deal.list
  addBalance E miner (dealFee E deal bRound)
  modify fun wm => wm.modifyWallet miner fun w =>
    { w with transactionFee := w.transactionFee + dealFee E deal bRound }

/-- `applyDeals`; an error comes with the number of deals applied before it. -/
def applyDeals (deals : List Deal) (miner : Address) (bRound : Int64) :
    Call WalletManager (ℕ × Err) Unit :=
  Call.forEach (applyDeal E miner bRound) deals

/-- The charge for one post given back, to the poster named by `pid`. -/
def refundPost (bRound : Int64) (post : Post) : WM Unit := do
  let posterAdd := post.pid
  let _ ← getWalletByAddress posterAdd
  modify fun wm => wm.modifyWallet posterAdd fun w =>
    { w with balance := w.balance + postPrice E post bRound }
  reAssignVotePower E posterAdd (post.maxCost + postFee E post bRound).toUInt64.toInt64

/-- One round of the loop of `RevertDeals`. -/
def revertDeal (miner : Address) (bRound : Int64) (deal : Deal) : WM Unit := do
  checkAndPutWalletByAddress deal.spid
  Call.each (refundPost E bRound) deal.list
  subBalance E miner (dealFee E deal bRound)
  modify fun wm => wm.modifyWallet miner fun w =>
    { w with transactionFee := w.transactionFee - dealFee E deal bRound }

/-- `RevertDeals`. -/
def revertDeals (deals : List Deal) (miner : Address) (bRound : Int64) : WM Unit :=
  Call.each (revertDeal E miner bRound) deals

/-! ## Verifications -/

/-- `CheckChPrPair`. -/
def checkChPrPair (deal : Deal) (cProof : ChPrPair) : Bool :=
  match cProof.proof with
  | none => false
  | some proof => E.posVerify deal.publicKey cProof.challenge proof

/-- The payment for one post of a deal whose storage is verified at `curTs`, the last time
    having been `lastTs`. -/
def payment (deal : Deal) (curTs lastTs : Int64) (post : Post) : Int64 :=
  E.chargedAmount post.maxCost curTs lastTs (deal.expiryTime - deal.timestamp)

/-- `VerificationPayment`. -/
def verificationPayment (deal : Deal) (curTs lastTs : Int64) : WM Unit := do
  checkAndPutWalletByAddress deal.spid
  Call.each (fun post => do
    checkAndPutWalletByAddress post.pid
    addBalance E deal.spid (payment E deal curTs lastTs post)) deal.list

/-- `RevertVerificationPayment`. -/
def revertVerificationPayment (deal : Deal) (curTs lastTs : Int64) : WM Unit := do
  checkAndPutWalletByAddress deal.spid
  Call.each (fun post => do
    checkAndPutWalletByAddress post.pid
    subBalance E deal.spid (payment E deal curTs lastTs post)) deal.list

/-- The times at which deals have been verified, and the node, whose database keeps those of
    expired deals. -/
abbrev Times : Type := Store Hash ([] : List Int64) × Node

/-- The verification times of a deal: its own time, if it has not been verified before. -/
def Times.lastTs (t : Times) (deal : Deal) (dealHash : Hash) : List Int64 :=
  if dealHash ∈ t.1.keys then t.1.get dealHash else [deal.timestamp]

/-- The entry for a verification.  After the deal has expired its times go to the database
    of the node, without this verification, unless the database holds times of the deal. -/
def Times.record (t : Times) (deal : Deal) (cProof : ChPrPair) : Times :=
  if UnixTime.After cProof.timestamp deal.expiryTime then
    (t.1.erase cProof.dealhash,
      { t.2 with
        lastChVerifications :=
          t.2.lastChVerifications.setNew cProof.dealhash (t.lastTs deal cProof.dealhash) })
  else (t.1.modify cProof.dealhash fun times => times ++ [cProof.timestamp], t.2)

/-- The verification times of a deal to be reverted; those of an expired deal are taken from
    the database. -/
def Times.recorded (t : Times) (dealHash : Hash) : List Int64 :=
  if dealHash ∈ t.1.keys then t.1.get dealHash else t.2.lastChVerifications.get dealHash

/-- Takes back the last verification of a deal. -/
def Times.unrecord (t : Times) (dealHash : Hash) : Times :=
  if (t.recorded dealHash).dropLast = [] then
    (t.1.erase dealHash,
      { t.2 with lastChVerifications := t.2.lastChVerifications.erase dealHash })
  else (t.1.set dealHash (t.recorded dealHash).dropLast, t.2)

def times (wm : WalletManager) : Times := (wm.lastChVerificationTime, wm.node)

def setTimes (wm : WalletManager) (t : Times) : WalletManager :=
  { wm with lastChVerificationTime := t.1, node := t.2 }

/-- The deal of a challenge-proof pair. -/
def getDealbyHash (dealHash : Hash) : WM Deal := do
  let wm ← get
  match wm.node.deals dealHash with
  | some deal => return deal
  | none => throw (.error ("Reference deal cannot be found " ++ dealHash))

/-- The time up to which a verification is paid. -/
def curTs (deal : Deal) (cProof : ChPrPair) : Int64 :=
  if UnixTime.After cProof.timestamp deal.expiryTime then deal.expiryTime else cProof.timestamp

/-- One round of the loop of `ApplyChPrPair`. -/
def applyPair (cProof : ChPrPair) : WM Unit := do
  let deal ← getDealbyHash cProof.dealhash
  let lastTs := (← get).times.lastTs deal cProof.dealhash
  modify fun wm => wm.setTimes (wm.times.record deal cProof)
  if checkChPrPair E deal cProof then
    match lastTs.getLast? with
    | some last => verificationPayment E deal (curTs deal cProof) last
    | none => throw (.panic "index out of range")

/-- `ApplyChPrPair`; an error comes with the number of pairs applied before it. -/
def applyChPrPair (chPrP : List ChPrPair) : Call WalletManager (ℕ × Err) Unit :=
  Call.forEach (applyPair E) chPrP

/-- One round of the loop of `RevertChPrPair`.  The payment is computed up to the time of
    the proof, also after the deal has expired. -/
def revertPair (cProof : ChPrPair) : WM Unit := do
  let deal ← getDealbyHash cProof.dealhash
  let lastTs := (← get).times.recorded cProof.dealhash
  if lastTs = [] then throw (.panic "slice bounds out of range")
  modify fun wm => wm.setTimes (wm.times.unrecord cProof.dealhash)
  if checkChPrPair E deal cProof then
    revertVerificationPayment E deal cProof.timestamp (lastTs.dropLast.getLastD deal.timestamp)

/-- `RevertChPrPair`. -/
def revertChPrPair (chPrP : List ChPrPair) : WM Unit := Call.each (revertPair E) chPrP

end WalletManager
end Timbre
