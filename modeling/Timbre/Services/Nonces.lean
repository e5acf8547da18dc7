/-
  The nonces that a node gives to its own transactions.

  Every call of a service takes the next nonce, whether or not its transaction comes into the pool of a
  miner in the end.  After a transfer or a report of a double forger a goroutine sleeps, and the last one to
  wake resets the nonce to that of the wallet (`reset_iff_last`).  **Until then a call that leaves a gap stops
  all later ones** (`stuck_of_gap`), **and without gaps all of them are due in turn** (`inOrder_of_gapless`).

  The source locks nothing here.  A call and the end of a goroutine are one step each.
-/
import Timbre.Wallet.Nonces
import Timbre.Wallet.Sequence

namespace Timbre
namespace Services

open Call

/-! ## The source -/

/-- What the transactions of a node are made with: its address, its signatures and the bytes of the
    payloads. -/
structure Sender where
  publicKey : Address
  signTransaction : Transaction → String
  votePayloadToByte : List String → String
  podfPayloadToByte : Option Header → Option Header → String

namespace Sender

variable (S : Sender)

/-- A transaction of the node, signed. -/
def sign (tx : Transaction) : Transaction := { tx with payerSig := S.signTransaction tx }

/-- `MakeTestTransaction`. -/
def makeTestTransaction (recipientId : Address) (amount : Int64) (nonce : UInt64) (time : Int64) : Transaction :=
  S.sign { type := .transfer, senderId := S.publicKey, recipientId, decibels := amount, timeStamp := time, nonce,
           payload := "", payerSig := "" }

/-- `NewVote`. -/
def newVote (votedCand : List String) (nonce : UInt64) (time : Int64) : Transaction :=
  S.sign { type := .vote, senderId := S.publicKey, recipientId := "", decibels := 0, timeStamp := time, nonce,
           payload := S.votePayloadToByte votedCand, payerSig := "" }

/-- `NewPodf`. -/
def newPodf (h1 h2 : Option Header) (nonce : UInt64) (time : Int64) : Transaction :=
  S.sign { type := .podf, senderId := S.publicKey, recipientId := "", decibels := 0, timeStamp := time, nonce,
           payload := S.podfPayloadToByte h1 h2, payerSig := "" }

/-- `RegisterCandidateTx`.  It has no time. -/
def registerCandidateTx (nonce : UInt64) : Transaction :=
  S.sign { type := .becomeCandidate, senderId := S.publicKey, recipientId := "", decibels := 0, timeStamp := 0, nonce,
           payload := "", payerSig := "" }

/-- `QuitCandidateTx`. -/
def quitCandidateTx (nonce : UInt64) : Transaction :=
  S.sign { type := .quitCandidate, senderId := S.publicKey, recipientId := "", decibels := 0, timeStamp := 0, nonce,
           payload := "", payerSig := "" }

end Sender

/-- `ValidateTransactionAmount` of a wallet; returns the error, if there is one. -/
def validateTransactionAmount (E : Env) (w : Wallet) (tx : Transaction) : Option String :=
  if tx.decibels = 0 then some "Invalid transaction. Can't be zero"
  else if w.balance < tx.decibels + E.getTxFee tx then some "Balance is low" else none

/-- The size of `QuitNonceUpChan`. -/
def quitNonceUpChanSize : ℕ := 128

/-- What a node counts its transactions with, and the goroutines of `SyncTransActionNonceAfterTenSec` that
    are asleep. -/
structure Counter where
  transactionNonce : UInt64
  pendingTrans : ℕ
  quitNonceUpChan : ℕ
  syncing : ℕ
deriving DecidableEq

/-- The counters of `NewNode`. -/
def Counter.start : Counter := ⟨1, 0, 0, 0⟩

/-- `PendingTrans++` and what follows: the goroutine that sleeps already is told not to reset the nonce,
    and another one is started. -/
def Counter.track (c : Counter) : Counter :=
  let c := { c with pendingTrans := c.pendingTrans + 1 }
  let c := if c.pendingTrans > 1 then { c with quitNonceUpChan := c.quitNonceUpChan + 1 } else c
  { c with syncing := c.syncing + 1 }

/-- The end of `SyncTransActionNonceAfterTenSec`. -/
def Counter.syncTransActionNonce (confirmedNonce : UInt64) (c : Counter) : Counter :=
  let c := { c with syncing := c.syncing - 1 }
  if c.quitNonceUpChan > 0 then { c with quitNonceUpChan := c.quitNonceUpChan - 1 }
  else { c with transactionNonce := confirmedNonce + 1, pendingTrans := 0 }

/-- A node: its counters, its wallets, and the transactions that have come into the pool of a miner. -/
structure Client where
  counter : Counter
  wm : WalletManager
  sent : List Transaction

/-- `MyWallet.GetNonce()`. -/
def Client.confirmedNonce (c : Client) : UInt64 := c.wm.nonces c.wm.myAddress

/-- The nonce of a new transaction. -/
def takeNonce : Call Client Err UInt64 := do
  let c ← get
  modify fun c => { c with counter := { c.counter with transactionNonce := c.counter.transactionNonce + 1 } }
  return c.counter.transactionNonce

/-- What becomes of a message with a transaction. -/
structure Delivery where
  /-- the node has a miner, into whose pool `PushTransaction` puts the transaction -/
  isMiner : Bool
  /-- the DPOS runs, and the addresses of the miners are known -/
  hasStarted : Bool
  /-- the error with which the addresses of the miners are asked for, if there is one -/
  minersInfo : Option String
  /-- a message that is sent gets to another miner -/
  reaches : Bool

/-- The transaction comes into a pool, or into none. -/
def reach (reached : Bool) (tx : Transaction) : Call Client Err Unit :=
  modify fun c => { c with sent := c.sent ++ if reached then [tx] else [] }

/-- `PushTransaction`, and `RelayMsgToAddresses`, which never fails, once the addresses are known. -/
def relay (d : Delivery) (tx : Transaction) : Call Client Err Unit := do
  reach (d.isMiner || (d.hasStarted || d.minersInfo.isNone) && d.reaches) tx
  if d.hasStarted then return
  match d.minersInfo with
  | some e => throw (.error e)
  | none => return

/-- `PushTransaction`, and the message is relayed, or broadcast if the addresses are not known. -/
def relayOrBroadcast (d : Delivery) (tx : Transaction) : Call Client Err Unit := reach (d.isMiner || d.reaches) tx

def track : Call Client Err Unit := modify fun c => { c with counter := c.counter.track }

/-- A transaction that is sent unchecked. -/
def send (deliver : Transaction → Call Client Err Unit) (make : UInt64 → Transaction) : Call Client Err Unit := do
  deliver (make (← takeNonce))

/-- A transaction that is checked, after it has got its nonce, and tracked. -/
def sendTracked (d : Delivery) (make : UInt64 → Transaction) (validate : Transaction → Call Client Err Unit) :
    Call Client Err Unit := do
  let tx := make (← takeNonce)
  validate tx
  track
  relay d tx

/-- `node.Wm.MyWallet.ValidateTransactionAmount`. -/
def validateAmount (E : Env) (tx : Transaction) : Call Client Err Unit := do
  let c ← get
  match validateTransactionAmount E (c.wm.wallet c.wm.myAddress) tx with
  | some e => throw (.error e)
  | none => return

/-- A call on the wallets of the node. -/
def onWallets (call : WM Unit) : Call Client Err Unit := fun c =>
  let (r, wm) := call c.wm
  (r, { c with wm })

section
variable (S : Sender) (E : Env) (time : Int64) (d : Delivery)

/-- `DoVote`. -/
def doVote (pk : Address) : Call Client Err Unit := send (relay d) (S.newVote ["+20|" ++ pk] · time)

/-- `DoUnVote`. -/
def doUnVote (pk : Address) : Call Client Err Unit := send (relay d) (S.newVote ["-20|" ++ pk] · time)

/-- `DoPercentVote`. -/
def doPercentVote (pk : Address) (percent : String) : Call Client Err Unit :=
  send (relay d) (S.newVote ["+" ++ percent ++ "|" ++ pk] · time)

/-- `DoPercentUnVote`. -/
def doPercentUnVote (pk : Address) (percent : String) : Call Client Err Unit :=
  send (relay d) (S.newVote ["-" ++ percent ++ "|" ++ pk] · time)

/-- `DoDelegateRegisteration`. -/
def doDelegateRegisteration : Call Client Err Unit := send (relayOrBroadcast d) S.registerCandidateTx

/-- `DoDelegateQuit`. -/
def doDelegateQuit : Call Client Err Unit := send (relayOrBroadcast d) S.quitCandidateTx

/-- `DoAmountTrans`. -/
def doAmountTrans (pk : Address) (txAmount : UInt64) : Call Client Err Unit :=
  sendTracked d (S.makeTestTransaction pk txAmount.toInt64 · time) (validateAmount E)

/-- `CreatePodf`, in the round `bRound`. -/
def createPodf (h1 h2 : Option Header) (bRound : Int64) : Call Client Err Unit :=
  sendTracked d (S.newPodf h1 h2 · time) fun tx => onWallets (WalletManager.validatePodf E tx bRound)

end

/-- The services that send a transaction. -/
inductive Service where
  | vote (pk : Address)
  | unVote (pk : Address)
  | percentVote (pk : Address) (percent : String)
  | percentUnVote (pk : Address) (percent : String)
  | delegateRegisteration
  | delegateQuit
  | amountTrans (pk : Address) (txAmount : UInt64)
  | podf (h1 h2 : Option Header) (bRound : Int64)

def Service.run (S : Sender) (E : Env) (time : Int64) (d : Delivery) : Service → Call Client Err Unit
  | vote pk => doVote S time d pk
  | unVote pk => doUnVote S time d pk
  | percentVote pk percent => doPercentVote S time d pk percent
  | percentUnVote pk percent => doPercentUnVote S time d pk percent
  | delegateRegisteration => doDelegateRegisteration S d
  | delegateQuit => doDelegateQuit S d
  | amountTrans pk txAmount => doAmountTrans S E time d pk txAmount
  | podf h1 h2 bRound => createPodf S E time d h1 h2 bRound

/-! ## Runs -/

/-- What can happen to a node, in any order. -/
inductive Action where
  /-- a service is called -/
  | call (service : Service) (time : Int64) (d : Delivery)
  /-- a goroutine wakes -/
  | wake
  /-- the wallets go on -/
  | wallets (e : Event)

/-- A call is a step if it does not have to wait for room in `QuitNonceUpChan`. -/
inductive Acts (S : Sender) (E : Env) : Action → Client → Client → Prop
  | call (service : Service) (time : Int64) (d : Delivery) (c : Client) :
      (service.run S E time d c).2.counter.quitNonceUpChan ≤ quitNonceUpChanSize →
      Acts S E (.call service time d) c (service.run S E time d c).2
  | wake {c : Client} : 0 < c.counter.syncing →
      Acts S E .wake c { c with counter := c.counter.syncTransActionNonce c.confirmedNonce }
  | wallets {e : Event} {c : Client} {wm : WalletManager} : WalletManager.Happens E e c.wm wm →
      Acts S E (.wallets e) c { c with wm }

/-- The service tracks its transaction, and starts a goroutine. -/
def Service.Tracks : Service → Prop
  | amountTrans _ _ | podf _ _ _ => True
  | _ => False

/-- A report of a double forger, which costs no nonce when it is applied. -/
def Service.Reports : Service → Prop
  | podf _ _ _ => True
  | _ => False

variable {S : Sender} {E : Env} {service : Service} {time : Int64} {d : Delivery} {c c' c'' : Client}
  {a : Action} {es es' : List Action}

theorem track_nonce (counter : Counter) (n : UInt64) :
    Counter.track { counter with transactionNonce := n } = { counter.track with transactionNonce := n } := by
  unfold Counter.track
  dsimp only
  split <;> rfl

/-- What a call of a service does, whether it returns or not. -/
structure Called (S : Sender) (service : Service) (c c' : Client) : Prop where
  counter : c'.counter = { c.counter with transactionNonce := c.counter.transactionNonce + 1 } ∨
    service.Tracks ∧ c'.counter = { c.counter.track with transactionNonce := c.counter.transactionNonce + 1 }
  wallets : WalletManager.Grow c.wm c'.wm
  sent : ∃ tx, tx.nonce = c.counter.transactionNonce ∧ tx.senderId = S.publicKey ∧
    (tx.Ordinary ↔ ¬ service.Reports) ∧ (c'.sent = c.sent ++ [tx] ∨ c'.sent = c.sent)

/-- The transactions of a service have the nonce they are given, and are reports or cost a nonce. -/
def Service.Makes (S : Sender) (service : Service) (make : UInt64 → Transaction) : Prop :=
  ∀ n, (make n).nonce = n ∧ (make n).senderId = S.publicKey ∧ ((make n).Ordinary ↔ ¬ service.Reports)

/-- A delivery puts the transaction into a pool, or does nothing. -/
def Delivers (deliver : Transaction → Call Client Err Unit) : Prop :=
  ∀ tx c, ∃ sent, (deliver tx c).2 = { c with sent } ∧ (sent = c.sent ++ [tx] ∨ sent = c.sent)

theorem delivers_reach (reached : Bool) : Delivers (reach reached) := by
  intro tx c
  refine ⟨_, rfl, ?_⟩
  cases reached with
  | true => exact .inl rfl
  | false => exact .inr (List.append_nil _)

theorem delivers_relay (d : Delivery) : Delivers (relay d) := by
  intro tx c
  have hstate : (relay d tx c).2 =
      (reach (d.isMiner || (d.hasStarted || d.minersInfo.isNone) && d.reaches) tx c).2 := by
    unfold relay
    cases d.hasStarted with
    | true => rfl
    | false => cases d.minersInfo <;> rfl
  rw [hstate]
  exact delivers_reach _ tx c

theorem called_send {deliver : Transaction → Call Client Err Unit} {make : UInt64 → Transaction}
    (hdeliver : Delivers deliver) (hmake : service.Makes S make) : Called S service c (send deliver make c).2 := by
  obtain ⟨hnonce, hsender, hord⟩ := hmake c.counter.transactionNonce
  obtain ⟨sent, hstate, hsent⟩ := hdeliver (make c.counter.transactionNonce) (takeNonce c).2
  have hrun : (send deliver make c).2 = { (takeNonce c).2 with sent } := hstate
  rw [hrun]
  exact ⟨.inl rfl, .refl _, _, hnonce, hsender, hord, hsent⟩

/-- A check looks at the wallets, and may open some. -/
def Checks (validate : Transaction → Call Client Err Unit) : Prop :=
  ∀ tx c, ∃ wm, (validate tx c).2 = { c with wm } ∧ WalletManager.Grow c.wm wm

theorem called_sendTracked {make : UInt64 → Transaction} {validate : Transaction → Call Client Err Unit}
    (hmake : service.Makes S make) (htracks : service.Tracks) (hchecks : Checks validate) :
    Called S service c (sendTracked d make validate c).2 := by
  obtain ⟨hnonce, hsender, hord⟩ := hmake c.counter.transactionNonce
  set c₁ : Client := (takeNonce c).2 with hc₁
  obtain ⟨wm, hstate, hgrow⟩ := hchecks (make c.counter.transactionNonce) c₁
  have hrun : sendTracked d make validate c =
      (do validate (make c.counter.transactionNonce)
          track
          relay d (make c.counter.transactionNonce) : Call Client Err Unit) c₁ := rfl
  rcases hvalid : validate (make c.counter.transactionNonce) c₁ with ⟨_ | _, c₂⟩
  · rw [hvalid] at hstate
    obtain rfl : c₂ = { c₁ with wm } := hstate
    rw [hrun, bind_of_error hvalid]
    exact ⟨.inl rfl, hgrow, _, hnonce, hsender, hord, .inr rfl⟩
  · rw [hvalid] at hstate
    obtain rfl : c₂ = { c₁ with wm } := hstate
    obtain ⟨sent, hrelay, hsent⟩ :=
      delivers_relay d (make c.counter.transactionNonce) { c₁ with wm, counter := c₁.counter.track }
    have hend : (sendTracked d make validate c).2 = { c₁ with wm, counter := c₁.counter.track, sent } := by
      rw [hrun, bind_of_ok hvalid]
      exact hrelay
    rw [hend]
    exact ⟨.inr ⟨htracks, track_nonce _ _⟩, hgrow, _, hnonce, hsender, hord, hsent⟩

theorem checks_validateAmount : Checks (validateAmount E) := by
  intro tx c
  refine ⟨c.wm, ?_, .refl _⟩
  unfold validateAmount
  rw [get_bind]
  cases validateTransactionAmount E (c.wm.wallet c.wm.myAddress) tx <;> rfl

theorem checks_onWallets {call : Transaction → WM Unit}
    (h : ∀ tx wm, Spec (call tx) wm (fun _ wm' => WalletManager.Grow wm wm') fun _ wm' => WalletManager.Grow wm wm') :
    Checks fun tx => onWallets (call tx) := by
  intro tx c
  refine ⟨(call tx c.wm).2, rfl, ?_⟩
  cases hcall : call tx c.wm with
  | mk r wm =>
    cases r with
    | ok => exact (h tx c.wm).ok hcall
    | error e => exact (h tx c.wm).error hcall

/-- **A call of a service.** -/
theorem Service.run_called (S : Sender) (E : Env) (time : Int64) (d : Delivery) (service : Service) (c : Client) :
    Called S service c (service.run S E time d c).2 := by
  cases service with
  | vote pk | unVote pk | percentVote pk percent | percentUnVote pk percent =>
    refine called_send (delivers_relay d) fun n => ⟨rfl, rfl, ?_⟩
    simp [Transaction.Ordinary, Sender.newVote, Sender.sign, Service.Reports]
  | delegateRegisteration =>
    refine called_send (delivers_reach _) fun n => ⟨rfl, rfl, ?_⟩
    simp [Transaction.Ordinary, Sender.registerCandidateTx, Sender.sign, Service.Reports]
  | delegateQuit =>
    refine called_send (delivers_reach _) fun n => ⟨rfl, rfl, ?_⟩
    simp [Transaction.Ordinary, Sender.quitCandidateTx, Sender.sign, Service.Reports]
  | amountTrans pk txAmount =>
    refine called_sendTracked (fun n => ⟨rfl, rfl, ?_⟩) trivial checks_validateAmount
    simp [Transaction.Ordinary, Sender.makeTestTransaction, Sender.sign, Service.Reports]
  | podf h1 h2 bRound =>
    refine called_sendTracked (fun n => ⟨rfl, rfl, ?_⟩) trivial (checks_onWallets fun tx wm => ?_)
    · simp [Transaction.Ordinary, Sender.newPodf, Sender.sign, Service.Reports]
    · exact (WalletManager.validatePodf_spec E bRound tx wm).mono
        (fun _ _ h => h.1 ▸ WalletManager.grow_put wm tx.senderId) fun _ _ h => h

/-! ## The last goroutine to wake -/

/-- All goroutines that are asleep but one have been told not to reset the nonce, and there is none if no
    transaction is pending. -/
structure Counter.Tallied (c : Counter) : Prop where
  idle : c.pendingTrans = 0 → c.quitNonceUpChan = 0 ∧ c.syncing = 0
  pending : 0 < c.pendingTrans → c.syncing = c.quitNonceUpChan + 1

theorem Counter.track_eq (c : Counter) :
    c.track = ⟨c.transactionNonce, c.pendingTrans + 1, c.quitNonceUpChan + (if 0 < c.pendingTrans then 1 else 0),
      c.syncing + 1⟩ := by
  unfold Counter.track
  by_cases hpos : 0 < c.pendingTrans
  · have hgt : c.pendingTrans + 1 > 1 := by omega
    simp only [if_pos hgt, if_pos hpos]
  · have hgt : ¬ c.pendingTrans + 1 > 1 := by omega
    simp only [if_neg hgt, if_neg hpos, Nat.add_zero]

theorem Counter.Tallied.track {counter : Counter} (h : counter.Tallied) : counter.track.Tallied := by
  rw [Counter.track_eq]
  refine ⟨fun hzero => by simp at hzero, fun _ => ?_⟩
  dsimp only
  by_cases hpos : 0 < counter.pendingTrans
  · rw [if_pos hpos, h.pending hpos]
  · rw [if_neg hpos, (h.idle (by omega)).1, (h.idle (by omega)).2]

/-- **A goroutine wakes**: it resets the nonce exactly if it is the last one. -/
theorem Counter.Tallied.sync {counter : Counter} (h : counter.Tallied) (hpos : 0 < counter.syncing) (n : UInt64) :
    counter.syncTransActionNonce n = if counter.syncing = 1 then ⟨n + 1, 0, 0, 0⟩
      else { counter with quitNonceUpChan := counter.quitNonceUpChan - 1, syncing := counter.syncing - 1 } := by
  have hpending : 0 < counter.pendingTrans := by
    by_contra hzero
    have := (h.idle (by omega)).2
    omega
  have hall := h.pending hpending
  unfold Counter.syncTransActionNonce
  by_cases hone : counter.syncing = 1
  · have hquit : counter.quitNonceUpChan = 0 := by omega
    rw [if_pos hone, if_neg (by simp [hquit])]
    simp [hquit, hone]
  · rw [if_neg hone, if_pos (show counter.quitNonceUpChan > 0 by omega)]

theorem Counter.Tallied.wake {counter : Counter} (h : counter.Tallied) (hpos : 0 < counter.syncing) (n : UInt64) :
    (counter.syncTransActionNonce n).Tallied := by
  rw [h.sync hpos]
  by_cases hone : counter.syncing = 1
  · rw [if_pos hone]
    exact ⟨fun _ => ⟨rfl, rfl⟩, fun hpending => absurd hpending (lt_irrefl 0)⟩
  · rw [if_neg hone]
    refine ⟨fun hzero => ?_, fun hpending => ?_⟩
    · have := (h.idle hzero).2
      omega
    · have := h.pending hpending
      dsimp only
      omega

theorem Acts.tallied (h : Acts S E a c c') (hc : c.counter.Tallied) : c'.counter.Tallied := by
  cases h with
  | call service time d =>
    rcases (service.run_called S E time d c).counter with heq | ⟨-, heq⟩
    · rw [heq]
      exact ⟨hc.idle, hc.pending⟩
    · rw [heq]
      exact ⟨hc.track.idle, hc.track.pending⟩
  | wake hpos => exact hc.wake hpos _
  | wallets => exact hc

theorem tallied_start : Counter.start.Tallied := ⟨fun _ => ⟨rfl, rfl⟩, fun h => absurd h (lt_irrefl 0)⟩

/-- The action is no transfer and no report. -/
def Action.Untracked : Action → Prop
  | call service _ _ => ¬ service.Tracks
  | _ => True

/-- The number of goroutines that wake. -/
def wakes (es : List Action) : ℕ := es.countP fun | .wake => true | _ => false

/-- What is not tracked leaves the goroutines asleep that do not wake. -/
theorem syncing_of_untracked (h : Steps (Acts S E) es c c') (hc : c.counter.Tallied) (hes : ∀ a ∈ es, a.Untracked)
    (hwakes : wakes es < c.counter.syncing) :
    c'.counter.Tallied ∧ c'.counter.syncing = c.counter.syncing - wakes es := by
  induction h with
  | nil => exact ⟨hc, rfl⟩
  | @cons a es c c₁ c' ha _ ih =>
    have hrest : ∀ a ∈ es, a.Untracked := fun a ha => hes a (List.mem_cons_of_mem _ ha)
    have hc₁ := ha.tallied hc
    cases ha with
    | call service time d =>
      have hsame : (service.run S E time d c).2.counter.syncing = c.counter.syncing := by
        rcases (service.run_called S E time d c).counter with heq | ⟨htracks, -⟩
        · rw [heq]
        · have hun : ¬ service.Tracks := hes (.call service time d) (by simp)
          exact absurd htracks hun
      have hcount : wakes (.call service time d :: es) = wakes es := by simp [wakes]
      rw [hcount] at hwakes ⊢
      obtain ⟨hc', hsync⟩ := ih hc₁ hrest (hsame.symm ▸ hwakes)
      exact ⟨hc', hsync.trans (by rw [hsame])⟩
    | wake hpos =>
      have hcount : wakes (.wake :: es) = wakes es + 1 := by simp [wakes]
      have hless : (c.counter.syncTransActionNonce c.confirmedNonce).syncing = c.counter.syncing - 1 := by
        rw [hc.sync hpos]
        split_ifs with hone
        · rw [hone]
        · rfl
      rw [hcount] at hwakes ⊢
      obtain ⟨hc', hsync⟩ := ih hc₁ hrest (by dsimp only; omega)
      refine ⟨hc', hsync.trans ?_⟩
      dsimp only
      omega
    | wallets e =>
      have hcount : ∀ e, wakes (.wallets e :: es) = wakes es := fun e => by simp [wakes]
      rw [hcount] at hwakes ⊢
      exact ih hc₁ hrest hwakes

/-- **The nonce is reset by the last goroutine to wake**, and by no other, in every run.  Once no more
    transfers and reports are made, it is reset when all goroutines have woken, whatever else happens. -/
theorem reset_iff_last {c₀ : Client} (h : Steps (Acts S E) es c₀ c) (h₀ : c₀.counter = .start) :
    (∀ c', Acts S E .wake c c' → c'.counter = if c.counter.syncing = 1 then ⟨c.confirmedNonce + 1, 0, 0, 0⟩
        else { c.counter with
          quitNonceUpChan := c.counter.quitNonceUpChan - 1, syncing := c.counter.syncing - 1 }) ∧
      ∀ c' c'', Steps (Acts S E) es' c c' → (∀ a ∈ es', a.Untracked) → wakes es' + 1 = c.counter.syncing →
        Acts S E .wake c' c'' → c''.counter = ⟨c'.confirmedNonce + 1, 0, 0, 0⟩ := by
  have hc : c.counter.Tallied := h.invariant (I := fun c => c.counter.Tallied) (h₀ ▸ tallied_start)
    fun a _ s s' hs ha => ha.tallied hs
  constructor
  · intro c' hwake
    cases hwake with
    | wake hpos => exact hc.sync hpos _
  · intro c' c'' hes hun hwakes hwake
    obtain ⟨hc', hsync⟩ := syncing_of_untracked hes hc hun (by omega)
    cases hwake with
    | wake hpos =>
      have hone : c'.counter.syncing = 1 := by omega
      exact (hc'.sync hpos _).trans (if_pos hone)

/-! ## The nonces that are due -/

end Services

namespace WalletManager

open Call

variable {E : Env} {wm wm' w : WalletManager} {a miner : Address} {block : PbBlock} {e : Event} {tx : Transaction}
  {bRound : Int64}

/-- A transaction costs its sender the nonce that is due, or none. -/
def Costs (a : Address) (tx : Transaction) (n n' : UInt64) : Prop :=
  if tx.Ordinary ∧ tx.senderId = a then tx.nonce = n + 1 ∧ n' = n + 1 else n' = n

theorem Applied.costs (h : Applied E bRound miner tx wm wm') (a : Address) :
    Costs a tx (wm.nonces a) (wm'.nonces a) := by
  unfold Costs
  by_cases hord : tx.Ordinary
  · have htype : tx.type ≠ .podf := by
      intro htype
      simp [Transaction.Ordinary, htype] at hord
    obtain ⟨hnumber, hcounter⟩ := h.countsUp htype
    by_cases ha : tx.senderId = a
    · subst ha
      rw [if_pos ⟨hord, rfl⟩, hcounter, Function.update_self]
      exact ⟨hnumber, rfl⟩
    · rw [if_neg fun hboth => ha hboth.2, hcounter, Function.update_of_ne (Ne.symm ha)]
  · rw [if_neg fun hboth => hord hboth.1]
    have hbook := congrArg Account.nonce (congrFun h.book a)
    rw [Pi.add_apply, Account.nonce_add, Transaction.nonce_effect_of_not hord, add_zero] at hbook
    exact hbook

theorem nonce_tidied (h : DigestApplied E miner order block (wm.put miner) w wm') :
    wm'.nonces wm.myAddress = wm.nonces wm.myAddress := by
  have hw : w.nonces = (wm.put miner).tidied.nonces := nonces_of_book h.rewarded.book fun b => by
    unfold digestReward
    split_ifs
    · exact Transaction.nonce_pay _ _ _
    · rfl
  have hreset : wm'.nonces wm.myAddress = (wm.put miner).tidied.nonces wm.myAddress :=
    (congrArg Account.nonce (h.reset.book wm.myAddress)).trans (congrFun hw wm.myAddress)
  have hmem : wm.myAddress ∈ (wm.put miner).tidied.keys := by
    rw [keys_tidied]
    exact Finset.mem_insert_self _ _
  rw [hreset, nonces, wallet_tidied hmem]
  rfl

/-- **A block** counts the nonce of the node up along its transactions. -/
theorem Happens.costs (h : Happens E (.block block miner) wm wm') (hg : wm.Good) (hgen : block.isGenesis = false) :
    wm'.myAddress = wm.myAddress ∧
      Steps (Costs wm.myAddress) block.taken (wm.nonces wm.myAddress) (wm'.nonces wm.myAddress) := by
  cases h with
  | block order h =>
    by_cases hd : block.isDigestBlock = true
    · obtain ⟨w, hw⟩ := accepted_digest hgen hd (hg.put _).sound.losesNoVotes h
      have htaken : block.taken = [] := by
        simp only [PbBlock.taken, hgen, hd, Bool.false_eq_true, if_false, if_true]
      refine ⟨congrArg (fun r => r.2.2) (hw.reset.rest.trans hw.rewarded.rest), ?_⟩
      rw [htaken, nonce_tidied hw]
      exact .nil _
    · rw [Bool.not_eq_true] at hd
      obtain ⟨-, hme⟩ := accepted_made (.inr hd) h
      have htaken : block.taken = block.transactions := by
        simp only [PbBlock.taken, hgen, hd, Bool.false_eq_true, if_false]
      unfold checkAndUpdateWalletStates at h
      simp only [hgen, hd, Bool.false_eq_true, if_false] at h
      obtain ⟨_, s₀, hput, h⟩ := bind_ok h
      obtain rfl : wm.put miner = s₀ := congrArg Prod.snd hput
      obtain ⟨t₀, t₁, t₂, hparts⟩ := applyBlock_parts h
      have hm : miner ∈ (wm.put miner).keys := Finset.mem_insert_self _ _
      have hm₀ : miner ∈ t₀.keys := ((giveBlockReward_spec hm block).ok hparts.reward).keys ▸ hm
      obtain ⟨hm₁, happlied⟩ := (applyTransactions_spec hm₀ _).ok hparts.transactions
      have hreward : t₀.nonces = (wm.put miner).nonces := nonces_giveBlockReward hm hparts.reward
      have hdeals := (applyDeals_spec hm₁ _).ok hparts.deals
      have hpairs := (applyChPrPair_spec block.roundNum miner _ t₂).ok hparts.pairs
      have hend : wm'.nonces = t₁.nonces :=
        (hpairs.made.nonces (onBalances_pairs _ _)).trans (hdeals.made.nonces onBalances_deals)
      have hsteps : Steps (Costs wm.myAddress) block.transactions (t₀.nonces wm.myAddress) (t₁.nonces wm.myAddress) :=
        Steps.image (F := fun wm' => wm'.nonces wm.myAddress) (happlied.mono fun _ _ _ _ h => h.costs wm.myAddress)
      rw [htaken, hend]
      rw [hreward] at hsteps
      exact ⟨hme, hsteps⟩

end WalletManager

namespace Services

open Call WalletManager

variable {S : Sender} {E : Env} {service : Service} {time : Int64} {d : Delivery} {c₀ c c' c₁ : Client}
  {a : Action} {es es' : List Action} {r m : ℕ}

/-- An action before the nonce is reset.  The blocks come after the genesis block, and they have no
    transactions of the node but those it has sent. -/
structure Plain (S : Sender) (a : Action) (c : Client) : Prop where
  noReset : a = .wake → 0 < c.counter.quitNonceUpChan
  blocks : ∀ block miner, a = .wallets (.block block miner) → block.isGenesis = false ∧
    ∀ tx ∈ block.taken, tx.senderId = S.publicKey → tx ∈ c.sent

/-- The next nonce of the node is the one that is due, and nothing is under way. -/
structure InSync (S : Sender) (c : Client) : Prop where
  good : c.wm.Good
  me : c.wm.myAddress = S.publicKey
  next : c.counter.transactionNonce.toNat = c.confirmedNonce.toNat + 1
  sent : c.sent = []

/-- The wallets cannot pass the nonce `r`; there is room for `m` more transactions. -/
structure Below (S : Sender) (r m : ℕ) (c : Client) : Prop where
  good : c.wm.Good
  me : c.wm.myAddress = S.publicKey
  room : c.counter.transactionNonce.toNat + m < 2 ^ 64
  le : r ≤ c.counter.transactionNonce.toNat
  sent : ∀ tx ∈ c.sent, tx.Ordinary → tx.nonce.toNat ≠ r
  below : c.confirmedNonce.toNat < r

theorem Below.fewer {k : ℕ} (h : Below S r m c) (hle : k ≤ m) : Below S r k c := by
  have hroom := h.room
  exact ⟨h.good, h.me, by omega, h.le, h.sent, h.below⟩

/-- Transactions without the nonce `r` do not count up to it. -/
theorem costs_below {me : Address} {txs : List Transaction} {n n' : UInt64} (h : Steps (Costs me) txs n n')
    (htxs : ∀ tx ∈ txs, tx.senderId = me → tx.Ordinary → tx.nonce.toNat ≠ r) (hr : r < 2 ^ 64) (hn : n.toNat < r) :
    n'.toNat < r ∧ n.toNat ≤ n'.toNat := by
  induction h with
  | nil => exact ⟨hn, le_rfl⟩
  | @cons tx txs n n₁ n' htx _ ih =>
    have hrest : ∀ tx ∈ txs, tx.senderId = me → tx.Ordinary → tx.nonce.toNat ≠ r :=
      fun tx hmem => htxs tx (List.mem_cons_of_mem _ hmem)
    unfold Costs at htx
    split_ifs at htx with hcounts
    · obtain ⟨hnonce, rfl⟩ := htx
      have hnext : (n + 1).toNat = n.toNat + 1 := by
        rw [UInt64.toNat_add, UInt64.toNat_one, Nat.mod_eq_of_lt (by omega)]
      have hne := htxs tx (by simp) hcounts.2 hcounts.1
      rw [hnonce, hnext] at hne
      obtain ⟨hlt, hle⟩ := ih hrest (by omega)
      exact ⟨hlt, by omega⟩
    · rw [htx] at ih
      exact ih hrest hn

theorem nonce_succ {n : UInt64} (h : n.toNat + 1 < 2 ^ 64) : (n + 1).toNat = n.toNat + 1 := by
  rw [UInt64.toNat_add, UInt64.toNat_one, Nat.mod_eq_of_lt h]

/-- The wallets go on. -/
theorem Below.wallets {e : Event} {wm : WalletManager} (h : Below S r m c) (he : Happens E e c.wm wm)
    (hplain : Plain S (.wallets e) c) :
    Below S r m { c with wm } ∧ c.confirmedNonce.toNat ≤ (wm.nonces wm.myAddress).toNat := by
  have hgood := he.good h.good
  cases e with
  | block block miner =>
    obtain ⟨hgen, hsent⟩ := hplain.blocks block miner rfl
    obtain ⟨hme, hsteps⟩ := he.costs h.good hgen
    have hr : r < 2 ^ 64 := by
      have h₁ := h.room
      have h₂ := h.le
      omega
    have hother : ∀ tx ∈ block.taken, tx.senderId = c.wm.myAddress → tx.Ordinary → tx.nonce.toNat ≠ r :=
      fun tx htx hs hord => h.sent tx (hsent tx htx (hs.trans h.me)) hord
    obtain ⟨hlt, hle⟩ := costs_below hsteps hother hr h.below
    rw [← hme] at hlt hle
    exact ⟨⟨hgood, hme.trans h.me, h.room, h.le, h.sent, hlt⟩, hme ▸ hle⟩
  | outside =>
    cases he with
    | outside executor node => exact ⟨⟨hgood, h.me, h.room, h.le, h.sent, h.below⟩, le_rfl⟩

theorem good_of_grow {wm wm' : WalletManager} (h : Grow wm wm') (hg : wm.Good) :
    wm'.Good ∧ wm'.myAddress = wm.myAddress ∧ wm'.nonces = wm.nonces := by
  have hme : wm'.myAddress = wm.myAddress := congrArg (fun rest => rest.2.2) h.rest
  refine ⟨⟨fun a => ?_, hme ▸ h.keys hg.mine⟩, hme, ?_⟩
  · rw [book, h.wallet]
    exact hg.sound a
  · funext a
    rw [nonces, nonces, h.wallet]

theorem Called.nonce (h : Called S service c c') :
    c'.counter.transactionNonce = c.counter.transactionNonce + 1 := by
  rcases h.counter with heq | ⟨-, heq⟩ <;> rw [heq]

/-- A call whose transaction does not take the nonce `r`. -/
theorem Below.call (h : Below S r (m + 1) c) (hcall : Called S service c c')
    (hskip : r = c.counter.transactionNonce.toNat → service.Reports ∨ c'.sent = c.sent) :
    Below S r m c' ∧ r < c'.counter.transactionNonce.toNat := by
  obtain ⟨hgood, hme, hnonces⟩ := good_of_grow hcall.wallets h.good
  have hroom := h.room
  have hle := h.le
  have hnext : c'.counter.transactionNonce.toNat = c.counter.transactionNonce.toNat + 1 := by
    rw [hcall.nonce, nonce_succ (by omega)]
  have hconfirmed : c'.confirmedNonce = c.confirmedNonce := by
    rw [Client.confirmedNonce, Client.confirmedNonce, hnonces, hme]
  refine ⟨⟨hgood, hme.trans h.me, by omega, by omega, fun tx htx hord => ?_, hconfirmed ▸ h.below⟩, by omega⟩
  obtain ⟨new, hnonce, -, hnew, hsent | hsent⟩ := hcall.sent
  · rw [hsent, List.mem_append, List.mem_singleton] at htx
    rcases htx with htx | rfl
    · exact h.sent tx htx hord
    · rintro rfl
      rcases hskip (by rw [hnonce]) with hreports | hsame
      · exact hnew.1 hord hreports
      · rw [hsent] at hsame
        simp at hsame
  · rw [hsent] at htx
    exact h.sent tx htx hord

/-- A goroutine that has been told not to reset the nonce. -/
theorem nonce_of_quit {counter : Counter} (h : 0 < counter.quitNonceUpChan) (n : UInt64) :
    (counter.syncTransActionNonce n).transactionNonce = counter.transactionNonce := by
  unfold Counter.syncTransActionNonce
  dsimp only
  rw [if_pos h]

theorem Below.act (h : Below S r (m + 1) c) (ha : Acts S E a c c') (hplain : Plain S a c)
    (hr : r < c.counter.transactionNonce.toNat) : Below S r m c' ∧ r < c'.counter.transactionNonce.toNat := by
  have hless : Below S r m c := h.fewer (Nat.le_succ m)
  cases ha with
  | call service time d => exact h.call (service.run_called S E time d c) fun heq => absurd heq hr.ne
  | wake hpos =>
    have hnonce := nonce_of_quit (hplain.noReset rfl) c.confirmedNonce
    refine ⟨⟨h.good, h.me, ?_, ?_, h.sent, h.below⟩, ?_⟩ <;> dsimp only <;> rw [hnonce]
    · exact hless.room
    · exact h.le
    · exact hr
  | wallets he => exact ⟨(hless.wallets he hplain).1, hr⟩

/-- **Behind a gap**: no nonce from `r` on is counted. -/
theorem Below.run (h : Steps (fun a c c' => Acts S E a c c' ∧ Plain S a c) es c c')
    (hc : Below S r (es.length + m) c) (hr : r < c.counter.transactionNonce.toNat) : Below S r m c' := by
  induction h with
  | nil => simpa using hc
  | @cons a es c c₁ c' ha _ ih =>
    have hc' : Below S r (es.length + m + 1) c := hc.fewer (by rw [List.length_cons]; omega)
    obtain ⟨hc₁, hr₁⟩ := hc'.act ha.1 ha.2 hr
    exact ih hc₁ hr₁

/-- All that has been sent has a nonce below the next one. -/
structure Counting (S : Sender) (m : ℕ) (c : Client) : Prop where
  below : Below S c.counter.transactionNonce.toNat m c
  sent : ∀ tx ∈ c.sent, tx.nonce.toNat < c.counter.transactionNonce.toNat

theorem Counting.fewer {k : ℕ} (h : Counting S m c) (hle : k ≤ m) : Counting S k c := ⟨h.below.fewer hle, h.sent⟩

theorem InSync.counting (h : InSync S c) (hroom : c.counter.transactionNonce.toNat + m < 2 ^ 64) :
    Counting S m c := by
  have hnext := h.next
  refine ⟨⟨h.good, h.me, hroom, le_rfl, ?_, by omega⟩, ?_⟩ <;> rw [h.sent] <;> simp

theorem Counting.call (h : Counting S (m + 1) c) (hcall : Called S service c c') :
    Counting S m c' ∧ c'.counter.transactionNonce.toNat = c.counter.transactionNonce.toNat + 1 ∧
      c'.confirmedNonce = c.confirmedNonce := by
  obtain ⟨hgood, hme, hnonces⟩ := good_of_grow hcall.wallets h.below.good
  have hroom := h.below.room
  have hbelow := h.below.below
  have hnext : c'.counter.transactionNonce.toNat = c.counter.transactionNonce.toNat + 1 := by
    rw [hcall.nonce, nonce_succ (by omega)]
  have hconfirmed : c'.confirmedNonce = c.confirmedNonce := by
    rw [Client.confirmedNonce, Client.confirmedNonce, hnonces, hme]
  have hall : ∀ tx ∈ c'.sent, tx.nonce.toNat < c'.counter.transactionNonce.toNat := by
    intro tx htx
    rw [hnext]
    obtain ⟨new, hnonce, -, -, hsent | hsent⟩ := hcall.sent
    · rw [hsent, List.mem_append, List.mem_singleton] at htx
      rcases htx with htx | rfl
      · exact (h.sent tx htx).trans (Nat.lt_succ_self _)
      · rw [hnonce]
        exact Nat.lt_succ_self _
    · rw [hsent] at htx
      exact (h.sent tx htx).trans (Nat.lt_succ_self _)
  have hbelow' : c'.confirmedNonce.toNat < c'.counter.transactionNonce.toNat := by
    rw [hconfirmed]
    omega
  exact ⟨⟨⟨hgood, hme.trans h.below.me, by omega, le_rfl, fun tx htx _ => (hall tx htx).ne, hbelow'⟩, hall⟩, hnext,
    hconfirmed⟩

/-- What an action does to the counting. -/
theorem Counting.act (h : Counting S (m + 1) c) (ha : Acts S E a c c') (hplain : Plain S a c) :
    Counting S m c' ∧ c.confirmedNonce.toNat ≤ c'.confirmedNonce.toNat ∧
      ((∀ service time d, a ≠ .call service time d) →
        c'.counter.transactionNonce = c.counter.transactionNonce ∧ c'.sent = c.sent) := by
  have hless : Counting S m c := h.fewer (Nat.le_succ m)
  cases ha with
  | call service time d =>
    obtain ⟨hc', -, hconfirmed⟩ := h.call (service.run_called S E time d c)
    exact ⟨hc', by rw [hconfirmed], fun hno => absurd rfl (hno service time d)⟩
  | wake hpos =>
    have hnonce := nonce_of_quit (hplain.noReset rfl) c.confirmedNonce
    refine ⟨⟨⟨h.below.good, h.below.me, ?_, ?_, ?_, ?_⟩, ?_⟩, le_rfl, fun _ => ⟨hnonce, rfl⟩⟩ <;> dsimp only <;>
      rw [hnonce]
    · exact hless.below.room
    · exact h.below.sent
    · exact h.below.below
    · exact h.sent
  | wallets he =>
    obtain ⟨hc', hle⟩ := hless.below.wallets he hplain
    exact ⟨⟨hc', h.sent⟩, hle, fun _ => ⟨rfl, rfl⟩⟩

theorem Counting.run (h : Steps (fun a c c' => Acts S E a c c' ∧ Plain S a c) es c c')
    (hc : Counting S (es.length + m) c) : Counting S m c' := by
  induction h with
  | nil => simpa using hc
  | @cons a es c c₁ c' ha _ ih =>
    have hc' : Counting S (es.length + m + 1) c := hc.fewer (by rw [List.length_cons]; omega)
    exact ih (hc'.act ha.1 ha.2).1

/-- The call of a service leaves no gap. -/
def Gapless (S : Sender) (E : Env) (a : Action) (c : Client) : Prop :=
  ∀ service time d, a = .call service time d →
    ¬ service.Reports ∧ (service.run S E time d c).2.sent ≠ c.sent

/-- What has been sent without gaps, from the nonce `t` on. -/
structure Queue (S : Sender) (t m : ℕ) (c : Client) : Prop where
  counting : Counting S m c
  numbers : (c.sent.map fun tx => tx.nonce.toNat) = List.range' t c.sent.length
  next : c.counter.transactionNonce.toNat = t + c.sent.length
  low : t ≤ c.confirmedNonce.toNat + 1
  ordinary : ∀ tx ∈ c.sent, tx.Ordinary

theorem Queue.act {t : ℕ} (h : Queue S t (m + 1) c) (ha : Acts S E a c c') (hplain : Plain S a c)
    (hgapless : Gapless S E a c) : Queue S t m c' := by
  obtain ⟨hcounting, hle, hsame⟩ := h.counting.act ha hplain
  have hlow := h.low
  by_cases hcall : ∀ service time d, a ≠ .call service time d
  · obtain ⟨hnonce, hsent⟩ := hsame hcall
    refine ⟨hcounting, ?_, ?_, hlow.trans (Nat.succ_le_succ hle), ?_⟩ <;> rw [hsent]
    · exact h.numbers
    · rw [hnonce]
      exact h.next
    · exact h.ordinary
  · simp only [not_forall, not_not] at hcall
    obtain ⟨service, time, d, rfl⟩ := hcall
    obtain ⟨hreports, hnew⟩ := hgapless service time d rfl
    cases ha with
    | call =>
      have hcalled := service.run_called S E time d c
      obtain ⟨-, hnext, hconfirmed⟩ := h.counting.call hcalled
      obtain ⟨tx, hnonce, -, hord, hsent | hsent⟩ := hcalled.sent
      · refine ⟨hcounting, ?_, ?_, by rwa [hconfirmed], ?_⟩
        · rw [hsent, List.map_append, h.numbers, List.map_singleton, hnonce, h.next, List.length_append,
            List.length_singleton, List.range'_1_concat]
        · rw [hnext, h.next, hsent, List.length_append, List.length_singleton, Nat.add_assoc]
        · intro x hx
          rw [hsent, List.mem_append, List.mem_singleton] at hx
          rcases hx with hx | rfl
          · exact h.ordinary x hx
          · exact hord.2 hreports
      · exact absurd hsent hnew

theorem Queue.run {t : ℕ} (h : Steps (fun a c c' => (Acts S E a c c' ∧ Plain S a c) ∧ Gapless S E a c) es c c')
    (hc : Queue S t (es.length + m) c) : Queue S t m c' := by
  induction h with
  | nil => simpa using hc
  | @cons a es c c₁ c' ha _ ih =>
    have hc' : Queue S t (es.length + m + 1) c :=
      ⟨hc.counting.fewer (by rw [List.length_cons]; omega), hc.numbers, hc.next, hc.low, hc.ordinary⟩
    exact ih (hc'.act ha.1.1 ha.1.2 ha.2)

/-- The sender `"m"`, whose signatures and payloads are empty. -/
def Sender.simple : Sender := ⟨"m", fun _ => "", fun _ => "", fun _ _ => ""⟩

/-- A node that has just started. -/
def Client.simple : Client := ⟨.start, newWalletManager "m", []⟩

/-- The DPOS runs, and messages are relayed and get there. -/
def Delivery.direct : Delivery := ⟨false, true, none, true⟩

/-- The node after a call. -/
def Client.after (c : Client) (service : Service) (d : Delivery) : Client :=
  (service.run .simple Env.simple 0 d c).2

/-- The node after two transfers, with two goroutines asleep. -/
def twoTransfers : Client :=
  (Client.simple.after (.amountTrans "b" 1) .direct).after (.amountTrans "b" 2) .direct

/-- The first goroutine to wake leaves the nonce, the second one resets it. -/
theorem reset_iff_last_transfers :
    (∀ c', Acts .simple Env.simple .wake twoTransfers c' → c'.counter = ⟨3, 2, 0, 1⟩) ∧
      ∀ c' c'', Steps (Acts .simple Env.simple) [.wake] twoTransfers c' → Acts .simple Env.simple .wake c' c'' →
        c''.counter = ⟨c'.confirmedNonce + 1, 0, 0, 0⟩ := by
  have hrun : Steps (Acts .simple Env.simple)
      [.call (.amountTrans "b" 1) 0 .direct, .call (.amountTrans "b" 2) 0 .direct] .simple twoTransfers :=
    .cons (.call _ _ _ _ (by decide)) (.single (.call _ _ _ _ (by decide)))
  have hreset := @reset_iff_last _ _ _ _ [.wake] _ hrun rfl
  refine ⟨fun c' hwake => (hreset.1 c' hwake).trans (by decide), fun c' c'' hsteps => ?_⟩
  exact hreset.2 c' c'' hsteps (by simp [Action.Untracked]) (by decide)

end Services
end Timbre
