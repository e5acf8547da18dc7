/-
  The effects of transactions on the accounts, and specifications of the functions that
  validate them and carry out their parts.

  What does not belong to the accounts is covered by `rest` (PoDF records, verification
  times, the node) and by the set of candidates.  `Grow` adds wallets and nothing else,
  `Move` is an effect on the accounts and nothing else, `Candidacy` a change of the set of
  candidates.
-/
import Timbre.Wallet.Accounts

namespace Timbre

/-! ## The effects -/

namespace Transaction

variable (E : Env) (bRound : Int64) (miner : Address) (tx : Transaction)

/-- What the sender pays in a transfer or candidate transaction. -/
abbrev price : Int64 := tx.decibels + WalletManager.txFee E tx bRound

/-- The vote in one entry of a vote transaction; no vote if it cannot be parsed. -/
def entryBallot (voter : Address) (votedCand : String) : Book :=
  match parseVote votedCand with
  | .ok (.vote, percent, candID) => Book.ballot voter candID percent
  | .ok (.unvote, percent, candID) => Book.ballot voter candID (-percent)
  | .error _ => 0

/-- The effect of a list of entries of a vote transaction. -/
def ballots (voter : Address) (cands : List String) : Book := (cands.map (entryBallot voter)).sum

/-- The effect of a transaction, without the fee that the miner gets. -/
def ownEffect : Book :=
  match tx.type with
  | .transfer =>
    Book.pay tx.senderId (-tx.price E bRound) + Book.bump tx.senderId 1 +
      Book.pay tx.recipientId tx.decibels
  | .becomeCandidate | .quitCandidate =>
    Book.pay tx.senderId (-tx.price E bRound) + Book.bump tx.senderId 1
  | .vote =>
    Book.bump tx.senderId 1 + Book.pay tx.senderId (-WalletManager.txFee E tx bRound) +
      ballots tx.senderId (WalletManager.votedCands E tx)
  | .podf =>
    Book.pay (WalletManager.reportedMiner E tx) (-rewardForBlockCreation) +
      Book.pay tx.senderId (rewardForPodf - WalletManager.txFee E tx bRound)
  | .other => 0

/-- The effect of a transaction. -/
def effect : Book :=
  tx.ownEffect E bRound + Book.pay miner (WalletManager.txFee E tx bRound)

/-- The effect of a list of transactions. -/
def effects (txs : List Transaction) : Book := (txs.map fun tx => tx.effect E bRound miner).sum

/-- The addresses that get a wallet when the transaction is applied. -/
def touched : Finset Address :=
  if tx.type = .transfer then {tx.senderId, tx.recipientId} else {tx.senderId}

/-- The addresses that get a wallet when a list of transactions is applied. -/
def touchedBy (txs : List Transaction) : Finset Address := (txs.map touched).foldr (· ∪ ·) ∅

/-- The transaction changes the set of candidates. -/
def isCandidateTx : Bool := tx.type = .becomeCandidate ∨ tx.type = .quitCandidate

variable {E bRound miner tx}

@[simp] theorem ballots_nil (voter : Address) : ballots voter [] = 0 := rfl

@[simp]
theorem ballots_cons (voter : Address) (s : String) (cands : List String) :
    ballots voter (s :: cands) = entryBallot voter s + ballots voter cands := List.sum_cons

@[simp] theorem effects_nil : effects E bRound miner [] = 0 := rfl

@[simp]
theorem effects_cons (txs : List Transaction) :
    effects E bRound miner (tx :: txs) = tx.effect E bRound miner + effects E bRound miner txs :=
  List.sum_cons

@[simp] theorem touchedBy_nil : touchedBy [] = ∅ := rfl

@[simp]
theorem touchedBy_cons (txs : List Transaction) :
    touchedBy (tx :: txs) = tx.touched ∪ touchedBy txs := rfl

end Transaction

namespace WalletManager

open Call

variable {E : Env} {wm wm' wm₁ : WalletManager} {a c miner : Address} {f : Wallet → Wallet}
  {tx : Transaction} {bRound : Int64}

/-! ## What is not part of the accounts -/

/-- The PoDF records of all addresses, the verification times, the address of the node. -/
abbrev Rest : Type := (Address → List Int64 × Int64) × Times × Address

/-- What the accounts, the vote power and the candidates leave of the state. -/
def rest (wm : WalletManager) : Rest :=
  (fun a => ((wm.wallet a).podfHeights, (wm.wallet a).bannedTill), wm.times, wm.myAddress)

/-- The record of a miner who has been reported at height `h`. -/
def report (h : Int64) (r : List Int64 × Int64) : List Int64 × Int64 :=
  (r.1 ++ [h],
    if (r.1 ++ [h]).length % blockThresholdToBan = 0 then h + banDuration else r.2)

/-- The record of a miner after a report is taken back. -/
def unreport (r : List Int64 × Int64) : List Int64 × Int64 :=
  (r.1.dropLast, if r.1.length % blockThresholdToBan = 0 then -1 else r.2)

/-- A change of the record of one address. -/
def Rest.modify (r : Rest) (a : Address) (g : List Int64 × Int64 → List Int64 × Int64) : Rest :=
  (Function.update r.1 a (g (r.1 a)), r.2)

@[simp] theorem rest_put : (wm.put a).rest = wm.rest := rfl

theorem rest_modifyWallet (h₁ : (f (wm.wallet a)).podfHeights = (wm.wallet a).podfHeights)
    (h₂ : (f (wm.wallet a)).bannedTill = (wm.wallet a).bannedTill) :
    (wm.modifyWallet a f).rest = wm.rest := by
  refine Prod.ext (funext fun b => ?_) rfl
  by_cases hb : b = a
  · subst hb
    simp only [rest, wallet_modifyWallet_self, h₁, h₂]
  · simp only [rest, wallet_modifyWallet_of_ne hb]

theorem rest_modify_record {g : List Int64 × Int64 → List Int64 × Int64}
    (h : ((f (wm.wallet a)).podfHeights, (f (wm.wallet a)).bannedTill) =
      g ((wm.wallet a).podfHeights, (wm.wallet a).bannedTill)) :
    (wm.modifyWallet a f).rest = wm.rest.modify a g := by
  refine Prod.ext (funext fun b => ?_) rfl
  by_cases hb : b = a
  · subst hb
    simp only [rest, Rest.modify, wallet_modifyWallet_self, h, Function.update_self]
  · simp only [rest, Rest.modify, wallet_modifyWallet_of_ne hb, Function.update_of_ne hb]

@[simp]
theorem rest_reAssign {voter : Wallet} {d : Int64} : (wm.reAssign E voter d).rest = wm.rest := by
  refine Prod.ext (funext fun b => ?_) rfl
  simp only [rest, wallet_reAssign]
  split_ifs <;> rfl

@[simp]
theorem rest_credit {d : Int64} : (wm.credit a E d).rest = wm.rest := by
  rw [credit, rest_reAssign]
  exact rest_modifyWallet rfl rfl

@[simp]
theorem rest_debit {d : Int64} : (wm.debit a E d).rest = wm.rest := by
  rw [debit_eq_credit, rest_credit]

theorem rest_addVotePower {voter : Wallet} {p : ℤ} : (wm.addVotePower E c p voter).rest = wm.rest := by
  unfold addVotePower
  split_ifs
  · exact rest_modifyWallet rfl rfl
  · rfl

@[simp]
theorem rest_castVote {p : ℤ} : (wm.castVote a E c p).rest = wm.rest := by
  rw [castVote, rest_addVotePower]
  refine rest_modifyWallet ?_ ?_ <;>
  · unfold Wallet.executeVote
    split_ifs <;> rfl

@[simp]
theorem rest_castUnvote {p : ℤ} : (wm.castUnvote a E c p).rest = wm.rest := by
  rw [castUnvote, subVotePower_eq_addVotePower, rest_addVotePower]
  refine rest_modifyWallet ?_ ?_ <;>
  · unfold Wallet.executeUnvote
    dsimp only
    split_ifs <;> rfl

@[simp] theorem executor_put : (wm.put a).executor = wm.executor := rfl
@[simp] theorem executor_modifyWallet : (wm.modifyWallet a f).executor = wm.executor := rfl
@[simp] theorem executor_credit {d : Int64} : (wm.credit a E d).executor = wm.executor := rfl
@[simp] theorem executor_debit {d : Int64} : (wm.debit a E d).executor = wm.executor := rfl

theorem executor_addVotePower {voter : Wallet} {p : ℤ} :
    (wm.addVotePower E c p voter).executor = wm.executor := by
  unfold addVotePower
  split_ifs <;> rfl

@[simp]
theorem executor_castVote {p : ℤ} : (wm.castVote a E c p).executor = wm.executor :=
  executor_addVotePower

@[simp]
theorem executor_castUnvote {p : ℤ} : (wm.castUnvote a E c p).executor = wm.executor := by
  rw [castUnvote, subVotePower_eq_addVotePower, executor_addVotePower]
  rfl

/-- Wallets are added, and nothing else happens. -/
structure Grow (wm wm' : WalletManager) : Prop where
  keys : wm.keys ⊆ wm'.keys
  wallet : wm'.wallet = wm.wallet
  executor : wm'.executor = wm.executor
  rest : wm'.rest = wm.rest

theorem Grow.refl (wm : WalletManager) : Grow wm wm := ⟨subset_rfl, rfl, rfl, rfl⟩

theorem Grow.trans (h : Grow wm wm₁) (h' : Grow wm₁ wm') : Grow wm wm' :=
  ⟨h.keys.trans h'.keys, h'.wallet.trans h.wallet, h'.executor.trans h.executor,
    h'.rest.trans h.rest⟩

theorem grow_put (wm : WalletManager) (a : Address) : Grow wm (wm.put a) :=
  ⟨Finset.subset_insert _ _, rfl, rfl, rfl⟩

theorem Grow.put (h : Grow wm wm₁) (a : Address) : Grow wm (wm₁.put a) := h.trans (grow_put _ a)

theorem Grow.book (h : Grow wm wm') : wm'.book = wm.book := by
  funext b
  rw [WalletManager.book, h.wallet, WalletManager.book]

theorem Grow.drift (h : Grow wm wm') : wm'.drift E = wm.drift E := by
  funext b
  rw [WalletManager.drift, WalletManager.drift, h.wallet, h.book]

theorem put_of_mem (h : a ∈ wm.keys) : wm.put a = wm := by
  have : wm.walletByAddress.touch a = wm.walletByAddress := by
    refine Store.ext ?_ rfl
    exact Finset.insert_eq_of_mem h
  rw [put, this]

/-! ## Specifications of the calls -/

@[simp]
theorem spec_check {o : Option String} {Q : Unit → WalletManager → Prop}
    {R : Err → WalletManager → Prop} :
    Spec (check o) wm Q R ↔ (o = none → Q () wm) ∧ ∀ e, o = some e → R (.error e) wm := by
  cases o with
  | none => simp [check]
  | some e => simp [check]

@[simp]
theorem spec_checkAndPut {Q : Unit → WalletManager → Prop} {R : Err → WalletManager → Prop} :
    Spec (checkAndPutWalletByAddress a) wm Q R ↔ Q () (wm.put a) := Iff.rfl

@[simp]
theorem spec_getWallet {Q : Wallet → WalletManager → Prop} {R : Err → WalletManager → Prop} :
    Spec (getWalletByAddress a) wm Q R ↔
      if a ∈ wm.keys then Q (wm.wallet a) wm
      else R (.error (a ++ " wallet doesn't exist in the record,Can't fetch")) wm := by
  simp only [getWalletByAddress, spec_bind, spec_get, spec_ite, spec_pure, spec_throw,
    checkEntryByAddress, decide_eq_true_eq]

@[simp]
theorem spec_addBalance {d : Int64} {Q : Unit → WalletManager → Prop}
    {R : Err → WalletManager → Prop} :
    Spec (addBalance E a d) wm Q R ↔ Q () (wm.credit a E d) := Iff.rfl

@[simp]
theorem spec_subBalance {d : Int64} {Q : Unit → WalletManager → Prop}
    {R : Err → WalletManager → Prop} :
    Spec (subBalance E a d) wm Q R ↔ Q () (wm.debit a E d) := Iff.rfl

@[simp]
theorem spec_setNonce {g : UInt64 → UInt64} {Q : Unit → WalletManager → Prop}
    {R : Err → WalletManager → Prop} :
    Spec (setNonce a g) wm Q R ↔ Q () (wm.modifyWallet a fun w => { w with nonce := g w.nonce }) :=
  Iff.rfl

@[simp]
theorem spec_setCandidate {flag : Bool} {Q : Unit → WalletManager → Prop}
    {R : Err → WalletManager → Prop} :
    Spec (setCandidate a flag) wm Q R ↔
      Q () (wm.modifyWallet a fun w => { w with isCandidate := flag }) := Iff.rfl

/-! ## Validation -/

/-- What `IsExecutable` has checked when it accepts a transfer or candidate transaction. -/
structure Executable (E : Env) (bRound : Int64) (tx : Transaction) (wm : WalletManager) : Prop where
  sign : E.hasValidSign tx = none
  nonce : tx.nonce = (wm.wallet tx.senderId).nonce + 1
  fee : txFee E tx bRound ≤ (wm.wallet tx.senderId).balance
  transfer : tx.type = .transfer → tx.price E bRound ≤ (wm.wallet tx.senderId).balance
  becomeCandidate : tx.type = .becomeCandidate → tx.senderId ∉ wm.executor.candidateState
  quitCandidate : tx.type = .quitCandidate → tx.senderId ∈ wm.executor.candidateState

/-- The transaction is a transfer or a candidate transaction. -/
def Plain (tx : Transaction) : Prop :=
  tx.type = .transfer ∨ tx.type = .becomeCandidate ∨ tx.type = .quitCandidate

/-- The checks of `IsExecutable` on the wallet of the payer. -/
def payerChecks (E : Env) (tx : Transaction) (bRound : Int64) (executor : State) : WM Unit := do
  let pWallet ← getWalletByAddress tx.senderId
  if pWallet.checkNonce tx.nonce = false then throw (.error "out of order nonce")
  if pWallet.balance < txFee E tx bRound then throw (.error "Payer can't pay fee")
  match tx.type with
  | .becomeCandidate =>
    if executor.checkCandByAdd tx.senderId = true then throw (.error "Cand already exist")
  | .quitCandidate =>
    if executor.checkCandByAdd tx.senderId = false then throw (.error "Cand doesn't exist")
  | .transfer =>
    if pWallet.balance < tx.decibels + txFee E tx bRound then
      throw (.error "Payer doesn't hold enough decibels")
  | .podf => validatePodf E tx bRound
  | .vote => validateVote E tx bRound
  | .other => throw (.error "Invalid type transaction")

/-- The wallet of a new payer is added before it is checked. -/
theorem isExecutable_eq (tx : Transaction) (bRound : Int64) : isExecutable E tx bRound =
    check (E.hasValidSign tx) >>= fun _ => get >>= fun wm =>
      if wm.checkEntryByAddress tx.senderId = false ∧ tx.nonce = 1 then
        checkAndPutWalletByAddress tx.senderId >>= fun _ => payerChecks E tx bRound wm.executor
      else payerChecks E tx bRound wm.executor := rfl

theorem isExecutable_spec (hsender : tx.senderId ∈ wm.keys) (htype : Plain tx) :
    Spec (isExecutable E tx bRound) wm (fun _ wm' => wm' = wm ∧ Executable E bRound tx wm)
      fun e wm' => wm' = wm ∧ ∃ m, e = .error m := by
  have hentry : wm.checkEntryByAddress tx.senderId = true := by simpa [checkEntryByAddress]
  rcases htype with h | h | h <;>
    simp only [isExecutable, spec_bind, spec_check, spec_get, hentry, Bool.true_eq_false, false_and,
      if_false, spec_pure, spec_getWallet, if_pos hsender, spec_ite, spec_throw, h] <;>
    refine ⟨fun hsign => ?_, fun e _ => ⟨trivial, e, rfl⟩⟩ <;>
    split_ifs with hnonce hfee hlast <;> try exact ⟨trivial, _, rfl⟩
  all_goals
    have hn : tx.nonce = (wm.wallet tx.senderId).nonce + 1 := Wallet.nonce_of_check hnonce
    have hf : txFee E tx bRound ≤ (wm.wallet tx.senderId).balance := Int64.not_lt.1 hfee
  · exact ⟨trivial, hsign, hn, hf, fun _ => Int64.not_lt.1 hlast, by simp [h], by simp [h]⟩
  · exact ⟨trivial, hsign, hn, hf, by simp [h], fun _ => by simpa [State.checkCandByAdd] using hlast,
      by simp [h]⟩
  · exact ⟨trivial, hsign, hn, hf, by simp [h], by simp [h],
      fun _ => by simpa [State.checkCandByAdd] using hlast⟩

/-- What `ValidatePodf` has checked when it accepts a report of the miner of header `h`. -/
structure Reportable (E : Env) (bRound : Int64) (tx : Transaction) (wm : WalletManager)
    (h : Header) : Prop where
  sign : E.hasValidSign tx = none
  header : reportedHeader E tx = some h
  wallet : h.minerPublicKey ∈ wm.keys
  candidate : (wm.wallet h.minerPublicKey).isCandidate = true
  nonce : tx.nonce = (wm.wallet tx.senderId).nonce + 1
  fee : txFee E tx bRound ≤ (wm.wallet tx.senderId).balance
  notBanned : (wm.wallet h.minerPublicKey).bannedTill < h.height
  notReported : reportedAt h.height (wm.wallet h.minerPublicKey).podfHeights.reverse = false

theorem Reportable.miner_eq {h : Header} (hr : Reportable E bRound tx wm h) :
    reportedMiner E tx = h.minerPublicKey := by
  simp [reportedMiner, hr.header]

theorem validatePodf_spec (E : Env) (bRound : Int64) (tx : Transaction) (wm : WalletManager) :
    Spec (validatePodf E tx bRound) wm
      (fun _ wm' => wm' = wm.put tx.senderId ∧ ∃ h, Reportable E bRound tx wm h)
      fun _ wm' => Grow wm wm' := by
  simp only [validatePodf, spec_bind, spec_check]
  refine ⟨fun hsign => ?_, fun e _ => .refl _⟩
  have hself : tx.senderId ∈ (wm.put tx.senderId).keys := Finset.mem_insert_self _ _
  split
  · exact .refl _
  · rename_i h1 h2 hpayload
    simp only [spec_bind, spec_ite, spec_throw, spec_pure, spec_check, spec_getWallet,
      spec_checkAndPut, if_pos hself, wallet_put]
    split_ifs with hheight hhash hkey hcand hnonce hfee hban hrep
    · exact .refl _
    · exact .refl _
    all_goals refine ⟨fun _ => ⟨fun _ => ?_, fun _ _ => .refl _⟩, fun _ _ => .refl _⟩
    · exact .refl _
    · exact grow_put _ _
    · exact grow_put _ _
    · exact grow_put _ _
    · exact grow_put _ _
    · refine ⟨trivial, h1, hsign, ?_, hkey, by simpa using hcand, ?_, Int64.not_lt.1 hfee,
        Int64.not_le.1 hban, by simpa using hrep⟩
      · simp only [reportedHeader, hpayload]
      · exact Wallet.nonce_of_check hnonce
    · exact .refl _
  · exact .refl _

/-- An entry of a vote transaction that the wallet of the voter allows. -/
inductive EntryValid (vWallet : Wallet) (votedCand : String) : Prop
  | vote {percent : ℤ} {candID : Address} :
      parseVote votedCand = .ok (.vote, percent, candID) → percent ≤ vWallet.voteLeft →
      EntryValid vWallet votedCand
  | unvote {percent : ℤ} {candID : Address} :
      parseVote votedCand = .ok (.unvote, percent, candID) → candID ∈ vWallet.voted.keys →
      percent ≤ vWallet.voted.get candID → EntryValid vWallet votedCand

theorem checkEntry_spec (vWallet : Wallet) (votedCand : String) (wm : WalletManager) :
    Spec (checkEntry vWallet votedCand) wm (fun _ wm' => wm' = wm ∧ EntryValid vWallet votedCand)
      fun _ wm' => wm' = wm ∧ ¬ EntryValid vWallet votedCand := by
  unfold checkEntry
  split
  · rename_i e he
    refine ⟨rfl, ?_⟩
    rintro (⟨h, -⟩ | ⟨h, -, -⟩) <;> simp [he] at h
  · rename_i percent candID h
    rw [spec_check]
    simp only [Wallet.checkUnvoteValidity]
    split_ifs with hmem hlt
    · refine ⟨by simp, fun e _ => ⟨trivial, ?_⟩⟩
      rintro (⟨h', -⟩ | ⟨h', -, hle⟩)
      · simp [h] at h'
      · rw [h] at h'
        cases h'
        omega
    · exact ⟨fun _ => ⟨trivial, .unvote h hmem (by omega)⟩, by simp⟩
    · refine ⟨by simp, fun e _ => ⟨trivial, ?_⟩⟩
      rintro (⟨h', -⟩ | ⟨h', hmem', -⟩)
      · simp [h] at h'
      · rw [h] at h'
        cases h'
        exact hmem hmem'
  · rename_i percent candID h
    rw [spec_check]
    simp only [Wallet.checkVoteValidity]
    split_ifs with hlt
    · refine ⟨by simp, fun e _ => ⟨trivial, ?_⟩⟩
      rintro (⟨h', hle⟩ | ⟨h', -, -⟩)
      · rw [h] at h'
        cases h'
        omega
      · simp [h] at h'
    · exact ⟨fun _ => ⟨trivial, .vote h (by omega)⟩, by simp⟩

/-- What `ValidateVote` has checked when it accepts a vote transaction. -/
structure Votable (E : Env) (bRound : Int64) (tx : Transaction) (wm : WalletManager) : Prop where
  sign : E.hasValidSign tx = none
  nonce : tx.nonce = (wm.wallet tx.senderId).nonce + 1
  fee : txFee E tx bRound ≤ (wm.wallet tx.senderId).balance
  entries : ∀ s ∈ votedCands E tx, EntryValid (wm.wallet tx.senderId) s

theorem validateVote_spec (E : Env) (bRound : Int64) (tx : Transaction) (wm : WalletManager) :
    Spec (validateVote E tx bRound) wm
      (fun _ wm' => wm' = wm.put tx.senderId ∧ Votable E bRound tx wm)
      fun _ wm' => Grow wm wm' := by
  have hself : tx.senderId ∈ (wm.put tx.senderId).keys := Finset.mem_insert_self _ _
  simp only [validateVote, spec_bind, spec_check, spec_checkAndPut, spec_getWallet, spec_ite,
    spec_throw]
  refine ⟨fun hsign => ?_, fun e _ => .refl _⟩
  rw [if_pos hself]
  split_ifs with hnonce hfee
  · exact grow_put _ _
  · exact grow_put _ _
  have hvalid : (∀ s ∈ votedCands E tx, EntryValid (wm.wallet tx.senderId) s) →
      Votable E bRound tx wm := fun h =>
    ⟨hsign, Wallet.nonce_of_check hnonce, Int64.not_lt.1 hfee, h⟩
  split
  · exact grow_put _ _
  · rename_i cands hcands
    have hcheck : ∀ s ∈ cands, ∀ wm₁, wm₁ = wm.put tx.senderId →
        Spec (checkEntry (wm.wallet tx.senderId) s) wm₁
          (fun _ wm' => wm' = wm.put tx.senderId ∧ EntryValid (wm.wallet tx.senderId) s)
          fun _ wm' => wm' = wm.put tx.senderId := by
      rintro s _ _ rfl
      exact (checkEntry_spec _ _ _).mono (fun _ _ h => h) fun _ _ h => h.1
    refine (each_spec hcheck rfl).mono ?_ ?_
    · rintro _ wm' ⟨hwm', hsteps⟩
      refine ⟨hwm', hvalid fun s hs => ?_⟩
      simp only [votedCands, hcands] at hs
      exact hsteps.forall s hs
    · rintro e wm' ⟨pre, s, post, wm₁, -, -, -, rfl⟩
      exact grow_put _ _

/-! ## Moves -/

/-- A change of the accounts that leaves everything else as it is. -/
structure Move (E : Env) (wm wm' : WalletManager) (e : Book) : Prop extends Shift E wm wm' e where
  rest : wm'.rest = wm.rest
  executor : wm'.executor = wm.executor

theorem Move.refl (E : Env) (wm : WalletManager) : Move E wm wm 0 := ⟨.refl E wm, rfl, rfl⟩

theorem Move.trans {e e' : Book} (h : Move E wm wm₁ e) (h' : Move E wm₁ wm' e') :
    Move E wm wm' (e + e') :=
  ⟨h.toShift.trans h'.toShift, h'.rest.trans h.rest, h'.executor.trans h.executor⟩

theorem Move.mem {e : Book} (h : Move E wm wm' e) (ha : a ∈ wm.keys) : a ∈ wm'.keys := h.keys ▸ ha

theorem move_credit (ha : a ∈ wm.keys) (d : Int64) : Move E wm (wm.credit a E d) (Book.pay a d) :=
  ⟨shift_credit ha d, rest_credit, rfl⟩

theorem move_debit (ha : a ∈ wm.keys) (d : Int64) : Move E wm (wm.debit a E d) (Book.pay a (-d)) :=
  ⟨shift_debit ha d, rest_debit, rfl⟩

theorem move_incNonce (ha : a ∈ wm.keys) :
    Move E wm (wm.modifyWallet a fun w => { w with nonce := w.nonce + 1 }) (Book.bump a 1) :=
  ⟨shift_nonce ha fun _ => rfl, rest_modifyWallet rfl rfl, rfl⟩

theorem move_decNonce (ha : a ∈ wm.keys) :
    Move E wm (wm.modifyWallet a fun w => { w with nonce := w.nonce - 1 }) (Book.bump a (-1)) :=
  ⟨shift_nonce ha fun k => UInt64.sub_eq_add_neg k 1, rest_modifyWallet rfl rfl, rfl⟩

theorem move_castVote (ha : a ∈ wm.keys) (p : ℤ) :
    Move E wm (wm.castVote a E c p) (Book.ballot a c p) :=
  ⟨shift_castVote ha p, rest_castVote, executor_castVote⟩

theorem move_castUnvote (ha : a ∈ wm.keys) (p : ℤ) :
    Move E wm (wm.castUnvote a E c p) (Book.ballot a c (-p)) :=
  ⟨shift_castUnvote ha p, rest_castUnvote, executor_castUnvote⟩

/-- A change of a wallet that its account, its vote power and its PoDF record do not see. -/
theorem move_modify (ha : a ∈ wm.keys) (hacc : (f (wm.wallet a)).account = (wm.wallet a).account)
    (hpow : (f (wm.wallet a)).votePower = (wm.wallet a).votePower)
    (h₁ : (f (wm.wallet a)).podfHeights = (wm.wallet a).podfHeights)
    (h₂ : (f (wm.wallet a)).bannedTill = (wm.wallet a).bannedTill) :
    Move E wm (wm.modifyWallet a f) 0 :=
  ⟨shift_modify ha hacc hpow, rest_modifyWallet h₁ h₂, rfl⟩

/-! ## Entries of vote transactions -/

theorem applyEntry_spec {voter : Address} (hv : voter ∈ wm.keys) (s : String) :
    Spec (applyEntry E voter s) wm
      (fun _ wm' => Move E wm wm' (Transaction.entryBallot voter s) ∧ EntryValid (wm.wallet voter) s)
      fun _ wm' => wm' = wm ∧ ¬ EntryValid (wm.wallet voter) s := by
  unfold applyEntry
  rw [spec_bind, spec_get, spec_bind]
  refine (checkEntry_spec (wm.wallet voter) s wm).mono ?_ fun _ _ h => h
  rintro _ _ ⟨rfl, hvalid⟩
  unfold Transaction.entryBallot
  rcases hvalid with ⟨h, hle⟩ | ⟨h, hmem, hle⟩
  · simp only [h, spec_modify]
    exact ⟨move_castVote hv _, .vote h hle⟩
  · simp only [h, spec_modify]
    exact ⟨move_castUnvote hv _, .unvote h hmem hle⟩

/-- Accounts that are sound stay sound. -/
def KeepsSound (wm wm' : WalletManager) : Prop := ∀ a, (wm.book a).Sound → (wm'.book a).Sound

theorem KeepsSound.trans (h : KeepsSound wm wm₁) (h' : KeepsSound wm₁ wm') : KeepsSound wm wm' :=
  fun a ha => h' a (h a ha)

theorem keepsSound_of_book {e : Book} (h : wm'.book = wm.book + e) (he : e.Voteless) :
    KeepsSound wm wm' := by
  intro a ha
  rw [h]
  refine ha.congr ?_ ?_
  · rw [Pi.add_apply, Account.votes_add, (he a).1, add_zero]
  · rw [Pi.add_apply, Account.voteLeft_add, (he a).2, add_zero]

theorem keepsSound_entry {voter : Address} {s : String}
    (h : Move E wm wm' (Transaction.entryBallot voter s)) (hvalid : EntryValid (wm.wallet voter) s) :
    KeepsSound wm wm' := by
  intro a ha
  rw [h.book]
  by_cases hav : a = voter
  · subst hav
    rcases hvalid with ⟨hs, -⟩ | ⟨hs, -, hle⟩ <;>
      simp only [Transaction.entryBallot, hs, Pi.add_apply, Book.ballot, Pi.single_eq_same]
    · exact ha.ballot (Int.add_nonneg (ha.nonneg _) (parseVote_percent hs))
    · exact ha.ballot (by simpa [book, Wallet.account] using hle)
  · have he : Transaction.entryBallot voter s a = 0 := by
      rcases hvalid with ⟨hs, -⟩ | ⟨hs, -, -⟩ <;>
      · simp only [Transaction.entryBallot, hs]
        exact Pi.single_eq_of_ne hav _
    rwa [Pi.add_apply, he, add_zero]

/-- The entries of a vote transaction are applied in order, up to one that the wallet of the
    voter does not allow at its turn. -/
theorem applyEntries_spec {voter : Address} (hv : voter ∈ wm.keys) (cands : List String) :
    Spec (each (applyEntry E voter) cands) wm
      (fun _ wm' => Move E wm wm' (Transaction.ballots voter cands) ∧ KeepsSound wm wm')
      fun _ wm' => ∃ pre s post, cands = pre ++ s :: post ∧
        Move E wm wm' (Transaction.ballots voter pre) ∧ ¬ EntryValid (wm'.wallet voter) s := by
  have hsteps : ∀ {pre : List String} {wm wm' : WalletManager},
      Steps (fun s wm wm' => Move E wm wm' (Transaction.entryBallot voter s) ∧
        EntryValid (wm.wallet voter) s) pre wm wm' →
        Move E wm wm' (Transaction.ballots voter pre) ∧ KeepsSound wm wm' := by
    intro pre wm wm' h
    induction h with
    | nil => exact ⟨.refl E _, fun _ h => h⟩
    | cons hx _ ih =>
      rw [Transaction.ballots_cons]
      exact ⟨hx.1.trans ih.1, (keepsSound_entry hx.1 hx.2).trans ih.2⟩
  have hentry : ∀ s ∈ cands, ∀ wm, voter ∈ wm.keys → Spec (applyEntry E voter s) wm
      (fun _ wm' => voter ∈ wm'.keys ∧ Move E wm wm' (Transaction.entryBallot voter s) ∧
        EntryValid (wm.wallet voter) s)
      fun _ wm' => wm' = wm ∧ ¬ EntryValid (wm.wallet voter) s := fun s _ wm hv =>
    (applyEntry_spec hv s).mono (fun _ _ h => ⟨h.1.mem hv, h⟩) fun _ _ h => h
  refine (each_spec hentry hv).mono (fun _ _ h => hsteps h.2) ?_
  rintro _ wm' ⟨pre, s, post, wm₁, hcands, hpre, -, rfl, hinvalid⟩
  exact ⟨pre, s, post, hcands, (hsteps hpre).1, hinvalid⟩

/-! ## Candidacy -/

/-- The candidate joins (`flag`) or leaves the set of candidates. -/
structure Candidacy (E : Env) (flag : Bool) (a : Address) (wm wm' : WalletManager) : Prop extends
    Shift E wm wm' 0 where
  rest : wm'.rest = wm.rest
  before : a ∈ wm.executor.candidateState ↔ flag = false
  after : ∀ b, b ∈ wm'.executor.candidateState ↔
    if b = a then flag = true else b ∈ wm.executor.candidateState

/-- `execute` makes `a` a candidate, or no longer one, and fails if `a` is already. -/
def Executes (E : Env) (execute : Address → WM Unit) (flag : Bool) : Prop :=
  ∀ (a : Address) (wm : WalletManager), a ∈ wm.keys →
    Spec (execute a) wm (fun _ wm' => Candidacy E flag a wm wm')
      fun e wm' => wm' = wm ∧ (a ∈ wm.executor.candidateState ↔ flag = true) ∧ ∃ m, e = .error m

theorem shift_executor (s : State) : Shift E wm { wm with executor := s } 0 :=
  ⟨rfl, (add_zero _).symm, fun _ _ => rfl⟩

theorem executes_register (E : Env) : Executes E executeRegisterCandidate true := by
  intro a wm _
  simp only [executeRegisterCandidate, spec_bind, spec_get]
  rcases State.registerCand_cases wm.executor a with ⟨s, hs, ha, hmem⟩ | ⟨e, hs, ha⟩
  · simp only [hs, spec_modify]
    refine ⟨shift_executor s, rfl, by simpa using ha, fun b => ?_⟩
    rw [hmem]
    by_cases hb : b = a <;> simp [hb]
  · simp only [hs, spec_throw]
    exact ⟨trivial, by simpa using ha, e, rfl⟩

theorem executes_quit (E : Env) : Executes E executeQuitCandidate false := by
  intro a wm hkey
  simp only [executeQuitCandidate, spec_bind, spec_get]
  rcases State.quitCandidate_cases wm.executor a with ⟨s, hs, ha, hmem⟩ | ⟨e, hs, ha⟩
  · have hentry : ({ wm with executor := s } : WalletManager).checkEntryByAddress a = true := by
      simpa [checkEntryByAddress] using hkey
    simp only [hs, spec_modify, hentry, if_true]
    have hshift : Shift E wm _ (0 + 0) := (shift_executor s).trans
      (shift_modify (f := fun w => { w with isCandidate := false }) (a := a) hkey rfl rfl)
    refine ⟨by simpa using hshift, ?_, by simpa using ha, fun b => ?_⟩
    · let wm₁ : WalletManager := { wm with executor := s }
      have hrest : (wm₁.modifyWallet a fun w => { w with isCandidate := false }).rest = wm₁.rest :=
        rest_modifyWallet rfl rfl
      exact hrest
    · rw [executor_modifyWallet, hmem]
      by_cases hb : b = a <;> simp [hb]
  · simp only [hs, spec_throw]
    exact ⟨trivial, by simpa using ha, e, rfl⟩

end WalletManager
end Timbre
