/-
  Wallets over the same candidates.

  A map of candidates has no order, so two nodes may store the same candidates differently.  **The
  wallets do not notice** (`parallel_checkAndUpdateWalletStates`): of the candidates they ask only
  who is registered, and what they write is the same on both nodes.
-/
import Timbre.Lib.Related
import Timbre.Wallet.Effects

namespace Timbre

open Call

/-! ## The same candidates -/

/-- The same candidates and the same votes staked, stored in some other order. -/
structure State.Same (s x : State) : Prop where
  entries : x.candidateState.entries.Perm s.candidateState.entries
  total : x.totalVoteStaked = s.totalVoteStaked

namespace State

variable {s x : State} {id : Address}

theorem Same.mem (h : s.Same x) (a : Address) : a ∈ x.candidateState ↔ a ∈ s.candidateState := by
  rw [← AList.lookup_isSome, ← AList.lookup_isSome, AList.perm_lookup h.entries]

/-- Both register a candidate, or both refuse. -/
theorem Same.registerCand (h : s.Same x) (id : Address) :
    (∃ s' x', s.registerCand id = .ok s' ∧ x.registerCand id = .ok x' ∧ s'.Same x') ∨
      ∃ e, s.registerCand id = .error e ∧ x.registerCand id = .error e := by
  unfold State.registerCand
  by_cases hid : id ∈ s.candidateState
  · rw [if_pos hid, if_pos ((h.mem id).2 hid)]
    exact .inr ⟨_, rfl, rfl⟩
  · rw [if_neg hid, if_neg (mt (h.mem id).1 hid)]
    exact .inl ⟨_, _, rfl, rfl, AList.perm_insert h.entries, h.total⟩

theorem Same.quitCandidate (h : s.Same x) (id : Address) :
    (∃ s' x', s.quitCandidate id = .ok s' ∧ x.quitCandidate id = .ok x' ∧ s'.Same x') ∨
      ∃ e, s.quitCandidate id = .error e ∧ x.quitCandidate id = .error e := by
  unfold State.quitCandidate
  by_cases hid : id ∈ s.candidateState
  · rw [if_pos hid, if_pos ((h.mem id).2 hid)]
    exact .inl ⟨_, _, rfl, rfl, AList.perm_erase h.entries, h.total⟩
  · rw [if_neg hid, if_neg (mt (h.mem id).1 hid)]
    exact .inr ⟨_, rfl, rfl⟩

end State

namespace WalletManager

variable {E : Env} {ε α : Type} {bRound : Int64} {miner : Address} {flag : Bool} {wm : WalletManager}
  {a b c : Address} {order : MapOrder}

/-- The same wallets over the same candidates. -/
structure Twins (wm wm' : WalletManager) : Prop where
  wallets : wm' = { wm with executor := wm'.executor }
  executor : wm.executor.Same wm'.executor

theorem Twins.rec_on {P : WalletManager → WalletManager → Prop}
    (h : ∀ wm x, wm.executor.Same x → P wm { wm with executor := x }) : ∀ wm wm', Twins wm wm' → P wm wm' := by
  rintro wm wm' ⟨hwallets, hexec⟩
  rw [hwallets]
  exact h wm _ hexec

/-- Made on twins, the call ends alike and leaves twins. -/
abbrev Parallel (c : Call WalletManager ε α) : Prop := Matches Twins c c

theorem parallel_modify {g : WalletManager → WalletManager}
    (h : ∀ wm x, g { wm with executor := x } = { g wm with executor := x }) : Parallel (modify g : WM Unit) := by
  refine matches_modify (Twins.rec_on fun wm x hx => ⟨?_, ?_⟩)
  · rw [h wm x]
  · have hexec : (g wm).executor = wm.executor := by
      have hself := congrArg executor (h wm wm.executor)
      exact hself
    rw [h wm x]
    change (g wm).executor.Same x
    rwa [hexec]

/-! ## Access to the wallets -/

theorem parallel_modifyWallet (a : Address) (f : Wallet → Wallet) :
    Parallel (modify fun wm : WalletManager => wm.modifyWallet a f : WM Unit) := parallel_modify fun _ _ => rfl

theorem parallel_checkAndPut (a : Address) : Parallel (checkAndPutWalletByAddress a) :=
  parallel_modify fun _ _ => rfl

theorem parallel_getWallet (a : Address) : Parallel (getWalletByAddress a) :=
  matches_get (Twins.rec_on fun _ _ _ => .ite (matches_pure _) (matches_throw _))

theorem parallel_addBalance (a : Address) (delta : Int64) : Parallel (addBalance E a delta) :=
  parallel_modify fun _ _ => rfl

theorem parallel_subBalance (a : Address) (amount : Int64) : Parallel (subBalance E a amount) :=
  parallel_modify fun _ _ => rfl

theorem parallel_reAssign (a : Address) (delta : Int64) : Parallel (reAssignVotePower E a delta) :=
  parallel_modify fun _ _ => rfl

theorem parallel_setNonce (a : Address) (f : UInt64 → UInt64) : Parallel (setNonce a f) :=
  parallel_modifyWallet a _

theorem parallel_setCandidate (a : Address) (flag : Bool) : Parallel (setCandidate a flag) :=
  parallel_modifyWallet a _

theorem parallel_castVote (a candID : Address) (percent : ℤ) :
    Parallel (modify fun wm : WalletManager => wm.castVote a E candID percent : WM Unit) := by
  refine parallel_modify fun wm x => ?_
  unfold castVote addVotePower
  dsimp only [modifyWallet]
  split_ifs
  · rfl
  · rfl

theorem parallel_castUnvote (a candID : Address) (percent : ℤ) :
    Parallel (modify fun wm : WalletManager => wm.castUnvote a E candID percent : WM Unit) := by
  refine parallel_modify fun wm x => ?_
  unfold castUnvote subVotePower
  dsimp only [modifyWallet]
  split_ifs
  · rfl
  · rfl

theorem parallel_check (e : Option String) : Parallel (check e) := by
  cases e with
  | none => exact matches_pure _
  | some e => exact matches_throw _

/-! ## The executor -/

theorem parallel_executeRegister (a : Address) : Parallel (executeRegisterCandidate a) := by
  refine matches_get (Twins.rec_on fun wm x hx => ?_)
  rcases hx.registerCand a with ⟨s, s', hs, hs', hsame⟩ | ⟨e, hs, hs'⟩
  · rw [hs]
    dsimp only
    rw [hs']
    exact matches_modify fun t t' ht => ⟨by rw [ht.wallets], hsame⟩
  · rw [hs]
    dsimp only
    rw [hs']
    exact matches_throw e

theorem parallel_executeQuit (a : Address) : Parallel (executeQuitCandidate a) := by
  refine matches_get (Twins.rec_on fun wm x hx => ?_)
  rcases hx.quitCandidate a with ⟨s, s', hs, hs', hsame⟩ | ⟨e, hs, hs'⟩
  · rw [hs]
    dsimp only
    rw [hs']
    refine matches_modify (Twins.rec_on fun t y _ => ?_)
    change Twins (if t.checkEntryByAddress a then _ else _) (if t.checkEntryByAddress a then _ else _)
    split_ifs
    · exact ⟨rfl, hsame⟩
    · exact ⟨rfl, hsame⟩
  · rw [hs]
    dsimp only
    rw [hs']
    exact matches_throw e

/-! ## Validation -/

theorem parallel_validatePodf (podf : Transaction) : Parallel (validatePodf E podf bRound) := by
  refine (parallel_check _).bind fun _ => ?_
  split
  · exact matches_throw _
  · refine .guard _ fun _ => .guard _ fun _ => (parallel_check _).bind fun _ => (parallel_check _).bind fun _ => ?_
    refine (parallel_getWallet _).bind fun mWallet => .guard _ fun _ => (parallel_checkAndPut _).bind fun _ => ?_
    refine (parallel_getWallet _).bind fun txMaker => .guard _ fun _ => .guard _ fun _ => .guard _ fun _ => ?_
    exact .ite (matches_throw _) (matches_pure _)
  · exact matches_throw _

theorem parallel_checkEntry (vWallet : Wallet) (votedCand : String) : Parallel (checkEntry vWallet votedCand) := by
  unfold checkEntry
  split
  · exact matches_throw _
  · exact parallel_check _
  · exact parallel_check _

theorem parallel_validateVote (vote : Transaction) : Parallel (validateVote E vote bRound) := by
  refine (parallel_check _).bind fun _ => (parallel_checkAndPut _).bind fun _ => ?_
  refine (parallel_getWallet _).bind fun vWallet => .guard _ fun _ => .guard _ fun _ => ?_
  split
  · exact matches_throw _
  · exact .each (parallel_checkEntry vWallet) _

theorem parallel_payerChecks (tx : Transaction) (executor : State) : Parallel (payerChecks E tx bRound executor) := by
  refine (parallel_getWallet _).bind fun pWallet => .guard _ fun _ => .guard _ fun _ => ?_
  cases tx.type with
  | podf => exact parallel_validatePodf tx
  | vote => exact parallel_validateVote tx
  | other => exact matches_throw _
  | _ => exact .ite (matches_throw _) (matches_pure _)

/-- Of the candidates, the checks only ask whether the payer is one. -/
theorem payerChecks_congr {s x : State} (tx : Transaction)
    (h : x.checkCandByAdd tx.senderId = s.checkCandByAdd tx.senderId) :
    payerChecks E tx bRound x = payerChecks E tx bRound s := by
  unfold payerChecks
  rw [h]

theorem parallel_isExecutable (tx : Transaction) : Parallel (isExecutable E tx bRound) := by
  rw [isExecutable_eq]
  refine (parallel_check _).bind fun _ => matches_get (Twins.rec_on fun wm x hx => ?_)
  have hrest : Parallel (payerChecks E tx bRound wm.executor) := parallel_payerChecks tx wm.executor
  dsimp only
  rw [payerChecks_congr tx (decide_eq_decide.2 (hx.mem tx.senderId))]
  exact .ite ((parallel_checkAndPut _).bind fun _ => hrest) hrest

/-! ## Transactions -/

theorem parallel_applyTransferTx (tx : Transaction) (fee : Int64) : Parallel (applyTransferTx E tx fee bRound) :=
  (parallel_checkAndPut _).bind fun _ => (parallel_checkAndPut _).bind fun _ => (parallel_isExecutable tx).bind fun _ =>
    (parallel_getWallet _).bind fun _ => (parallel_subBalance _ _).bind fun _ => (parallel_setNonce _ _).bind fun _ =>
      (parallel_getWallet _).bind fun _ => parallel_addBalance _ _

theorem parallel_applyCandidateTx {execute : Address → WM Unit} (h : ∀ a, Parallel (execute a)) (tx : Transaction)
    (fee : Int64) : Parallel (applyCandidateTx E execute flag tx fee bRound) :=
  (parallel_checkAndPut _).bind fun _ => (parallel_isExecutable tx).bind fun _ => (parallel_getWallet _).bind fun _ =>
    (h _).bind fun _ => (parallel_setCandidate _ _).bind fun _ => (parallel_subBalance _ _).bind fun _ =>
      parallel_setNonce _ _

theorem parallel_applyEntry (voter : Address) (votedCand : String) : Parallel (applyEntry E voter votedCand) := by
  refine matches_get (Twins.rec_on fun wm _ _ => (parallel_checkEntry (wm.wallet voter) votedCand).bind fun _ => ?_)
  split
  · exact matches_throw _
  · exact parallel_castUnvote _ _ _
  · exact parallel_castVote _ _ _

theorem parallel_applyVote (vote : Transaction) (fee : Int64) : Parallel (applyVote E vote fee bRound) :=
  (parallel_validateVote vote).bind fun _ => (parallel_checkAndPut _).bind fun _ => (parallel_setNonce _ _).bind fun _ =>
    (parallel_subBalance _ _).bind fun _ => .each (parallel_applyEntry _) _

theorem parallel_applyPodf (podf : Transaction) (fee : Int64) : Parallel (applyPodf E podf fee bRound) := by
  refine (parallel_validatePodf podf).bind fun _ => ?_
  split
  · exact matches_throw _
  · refine (parallel_getWallet _).bind fun _ => (parallel_modifyWallet _ _).bind fun _ => ?_
    refine (parallel_subBalance _ _).bind fun _ => (parallel_modifyWallet _ _).bind fun _ => ?_
    exact (parallel_checkAndPut _).bind fun _ => parallel_addBalance _ _

theorem parallel_applyTransaction (tx : Transaction) : Parallel (applyTransaction E miner bRound tx) := by
  have hrest : Parallel (do
      addBalance E miner (txFee E tx bRound)
      modify fun wm => wm.modifyWallet miner fun w =>
        { w with transactionFee := w.transactionFee + txFee E tx bRound } : WM Unit) :=
    (parallel_addBalance _ _).bind fun _ => parallel_modifyWallet _ _
  unfold applyTransaction
  dsimp only
  split
  · exact (parallel_applyTransferTx tx _).bind fun _ => hrest
  · exact (parallel_applyCandidateTx parallel_executeRegister tx _).bind fun _ => hrest
  · exact (parallel_applyCandidateTx parallel_executeQuit tx _).bind fun _ => hrest
  · exact (parallel_applyVote tx _).bind fun _ => hrest
  · exact (parallel_applyPodf tx _).bind fun _ => hrest
  · exact (matches_throw _).bind fun _ => hrest

/-! ## Transactions taken back -/

theorem parallel_revertTransferTx (tx : Transaction) (fee : Int64) : Parallel (revertTransferTx E tx fee) :=
  (parallel_getWallet _).bind fun _ => (parallel_addBalance _ _).bind fun _ => (parallel_setNonce _ _).bind fun _ =>
    (parallel_getWallet _).bind fun _ => parallel_subBalance _ _

theorem parallel_revertCandidateTx {execute : Address → WM Unit} (h : ∀ a, Parallel (execute a)) (tx : Transaction)
    (fee : Int64) : Parallel (revertCandidateTx E execute flag tx fee) :=
  (parallel_getWallet _).bind fun _ => (h _).bind fun _ => (parallel_setCandidate _ _).bind fun _ =>
    (parallel_addBalance _ _).bind fun _ => parallel_setNonce _ _

theorem parallel_revertEntry (voter : Address) (votedCand : String) : Parallel (revertEntry E voter votedCand) := by
  unfold revertEntry
  split
  · exact parallel_castVote _ _ _
  · exact parallel_castUnvote _ _ _
  · exact parallel_castUnvote _ _ _
  · exact matches_throw _

theorem parallel_revertVote (vote : Transaction) (fee : Int64) : Parallel (revertVote E vote fee) :=
  (parallel_getWallet _).bind fun _ => (parallel_setNonce _ _).bind fun _ => (parallel_addBalance _ _).bind fun _ =>
    .each (parallel_revertEntry _) _

theorem parallel_revertPodf (podf : Transaction) (fee : Int64) : Parallel (revertPodf E podf fee) := by
  refine (parallel_getWallet _).bind fun rmWallet => (parallel_modifyWallet _ _).bind fun _ => ?_
  refine (parallel_addBalance _ _).bind fun _ => (parallel_modifyWallet _ _).bind fun _ => .guard _ fun _ => ?_
  exact (parallel_modifyWallet _ _).bind fun _ => (parallel_getWallet _).bind fun _ => parallel_subBalance _ _

theorem parallel_revertTransaction (tx : Transaction) : Parallel (revertTransaction E miner bRound tx) := by
  have hrest : Parallel (do
      subBalance E miner (txFee E tx bRound)
      modify fun wm => wm.modifyWallet miner fun w =>
        { w with transactionFee := w.transactionFee - txFee E tx bRound } : WM Unit) :=
    (parallel_subBalance _ _).bind fun _ => parallel_modifyWallet _ _
  unfold revertTransaction
  dsimp only
  split
  · exact (parallel_revertTransferTx tx _).bind fun _ => hrest
  · exact (parallel_revertCandidateTx parallel_executeQuit tx _).bind fun _ => hrest
  · exact (parallel_revertCandidateTx parallel_executeRegister tx _).bind fun _ => hrest
  · exact (parallel_revertVote tx _).bind fun _ => hrest
  · exact (parallel_revertPodf tx _).bind fun _ => hrest
  · exact (matches_pure ()).bind fun _ => hrest

/-! ## Deals and verifications -/

theorem parallel_validateDeal (deal : Deal) : Parallel (validateDeal E deal bRound) :=
  matches_get (Twins.rec_on fun _ _ _ => .ite (matches_throw _) (matches_pure _))

theorem parallel_chargePost (post : Post) : Parallel (chargePost E bRound post) :=
  (parallel_checkAndPut _).bind fun _ => (parallel_getWallet _).bind fun _ => .guard _ fun _ =>
    (parallel_modifyWallet _ _).bind fun _ => parallel_reAssign _ _

theorem parallel_applyDeal (deal : Deal) : Parallel (applyDeal E miner bRound deal) :=
  (parallel_validateDeal deal).bind fun _ => (parallel_checkAndPut _).bind fun _ =>
    (Matches.each parallel_chargePost deal.list).bind fun _ => (parallel_addBalance _ _).bind fun _ =>
      parallel_modifyWallet _ _

theorem parallel_refundPost (post : Post) : Parallel (refundPost E bRound post) :=
  (parallel_getWallet _).bind fun _ => (parallel_modifyWallet _ _).bind fun _ => parallel_reAssign _ _

theorem parallel_revertDeal (deal : Deal) : Parallel (revertDeal E miner bRound deal) :=
  (parallel_checkAndPut _).bind fun _ => (Matches.each parallel_refundPost deal.list).bind fun _ =>
    (parallel_subBalance _ _).bind fun _ => parallel_modifyWallet _ _

theorem parallel_getDealbyHash (dealHash : Hash) : Parallel (getDealbyHash dealHash) := by
  refine matches_get (Twins.rec_on fun wm x _ => ?_)
  dsimp only
  cases wm.node.deals dealHash with
  | some deal => exact matches_pure deal
  | none => exact matches_throw _

theorem parallel_verificationPayment (deal : Deal) (curTs lastTs : Int64) :
    Parallel (verificationPayment E deal curTs lastTs) :=
  (parallel_checkAndPut _).bind fun _ => .each (fun _ => (parallel_checkAndPut _).bind fun _ =>
    parallel_addBalance _ _) deal.list

theorem parallel_revertVerificationPayment (deal : Deal) (curTs lastTs : Int64) :
    Parallel (revertVerificationPayment E deal curTs lastTs) :=
  (parallel_checkAndPut _).bind fun _ => .each (fun _ => (parallel_checkAndPut _).bind fun _ =>
    parallel_subBalance _ _) deal.list

theorem parallel_applyPair (cProof : ChPrPair) : Parallel (applyPair E cProof) := by
  refine (parallel_getDealbyHash _).bind fun deal => matches_get (Twins.rec_on fun wm _ _ => ?_)
  refine (parallel_modify fun _ _ => rfl).bind fun _ => .ite ?_ (matches_pure _)
  change Parallel _
  split
  · exact parallel_verificationPayment deal _ _
  · exact matches_throw _

theorem parallel_revertPair (cProof : ChPrPair) : Parallel (revertPair E cProof) := by
  refine (parallel_getDealbyHash _).bind fun deal => matches_get (Twins.rec_on fun wm _ _ => ?_)
  refine .guard _ fun _ => (parallel_modify fun _ _ => rfl).bind fun _ => .ite ?_ (matches_pure _)
  exact parallel_revertVerificationPayment deal _ _

/-! ## The reset of all wallets -/

/-- The wallets after the reset of one. -/
def resetAt (E : Env) (wm : WalletManager) (a : Address) : WalletManager := (resetWallet E a wm).2

/-- A wallet after its reset. -/
def cleared (E : Env) (w : Wallet) : Wallet :=
  { w with
    rollBackAmount := E.rollBack w.balance
    balance := E.rollBack w.balance
    blockReward := 0
    transactionFee := 0
    proofReward := 0 }

/-- What a reset gives to a candidate of the voter. -/
def gift (E : Env) (voter : Wallet) (c : Address) : UInt64 :=
  E.share (voter.voted.get c) (E.rollBack voter.balance) - E.share (voter.voted.get c) voter.balance

theorem keys_resetAt (ha : a ∈ wm.keys) : (resetAt E wm a).keys = wm.keys := by
  have hkeys : (resetAt E wm a).keys = insert a (insert a wm.keys) := rfl
  rw [hkeys, Finset.insert_idem, Finset.insert_eq_of_mem ha]

theorem wallet_resetAt (ha : a ∈ wm.keys) (c : Address) : (resetAt E wm a).wallet c =
    if c ∈ wm.keys then (if c = a then cleared E (wm.wallet a) else wm.wallet c).addVotePower (gift E (wm.wallet a) c)
    else wm.wallet c := by
  have hreset : resetAt E wm a = ((wm.modifyWallet a fun w => { w with
      rollBackAmount := E.rollBack (wm.wallet a).balance, balance := E.rollBack (wm.wallet a).balance }).reAssign E
        ((wm.modifyWallet a fun w => { w with
          rollBackAmount := E.rollBack (wm.wallet a).balance, balance := E.rollBack (wm.wallet a).balance }).wallet a)
        (E.rollBack (wm.wallet a).balance - (wm.wallet a).balance)).modifyWallet a fun w =>
          { w with blockReward := 0, transactionFee := 0, proofReward := 0 } := rfl
  have hkeys : ∀ f, (wm.modifyWallet a f).keys = wm.keys := fun _ => Finset.insert_eq_of_mem ha
  rw [hreset]
  by_cases hc : c = a
  · subst hc
    rw [wallet_modifyWallet_self, wallet_reAssign, hkeys, if_pos ha, if_pos ha, if_pos rfl, wallet_modifyWallet_self,
      gift, sub_sub_cancel]
    rfl
  · rw [wallet_modifyWallet_of_ne hc, wallet_reAssign, hkeys, if_neg hc, wallet_modifyWallet_of_ne hc,
      wallet_modifyWallet_self, gift, sub_sub_cancel]

/-- Two resets: both give to every candidate. -/
theorem wallet_resetAt_twice (ha : a ∈ wm.keys) (hb : b ∈ wm.keys) (hab : a ≠ b) (c : Address) :
    (resetAt E (resetAt E wm a) b).wallet c =
      if c ∈ wm.keys then
        (if c = a then cleared E (wm.wallet a) else if c = b then cleared E (wm.wallet b) else wm.wallet c).addVotePower
          (gift E (wm.wallet a) c + gift E (wm.wallet b) c)
      else wm.wallet c := by
  have hwallet : (resetAt E wm a).wallet b = (wm.wallet b).addVotePower (gift E (wm.wallet a) b) := by
    rw [wallet_resetAt ha, if_pos hb, if_neg (Ne.symm hab)]
  have hgift : gift E ((resetAt E wm a).wallet b) c = gift E (wm.wallet b) c := by
    rw [hwallet]
    rfl
  rw [wallet_resetAt (by rwa [keys_resetAt ha]), keys_resetAt ha, hgift]
  by_cases hc : c ∈ wm.keys
  · rw [if_pos hc, if_pos hc]
    by_cases hcb : c = b
    · subst hcb
      rw [if_pos rfl, if_neg (Ne.symm hab), if_pos rfl, hwallet]
      simp only [Wallet.addVotePower, cleared, add_assoc]
    · rw [if_neg hcb, if_neg hcb, wallet_resetAt ha, if_pos hc]
      simp only [Wallet.addVotePower, add_assoc]
  · rw [if_neg hc, if_neg hc, wallet_resetAt ha, if_neg hc]

theorem resetAt_comm (ha : a ∈ wm.keys) (hb : b ∈ wm.keys) :
    resetAt E (resetAt E wm a) b = resetAt E (resetAt E wm b) a := by
  by_cases hab : a = b
  · rw [hab]
  have hwallet : (resetAt E (resetAt E wm a) b).wallet = (resetAt E (resetAt E wm b) a).wallet := by
    funext c
    rw [wallet_resetAt_twice ha hb hab, wallet_resetAt_twice hb ha (Ne.symm hab), add_comm (gift E (wm.wallet b) c)]
    by_cases hca : c = a
    · subst hca
      rw [if_pos rfl, if_neg hab, if_pos rfl]
    · rw [if_neg hca, if_neg hca]
  have hkeys : (resetAt E (resetAt E wm a) b).keys = (resetAt E (resetAt E wm b) a).keys := by
    have hka := keys_resetAt (E := E) ha
    have hkb := keys_resetAt (E := E) hb
    rw [keys_resetAt (by rwa [hka]), hka, keys_resetAt (by rwa [hkb]), hkb]
  have hstore : (resetAt E (resetAt E wm a) b).walletByAddress = (resetAt E (resetAt E wm b) a).walletByAddress :=
    Store.ext hkeys hwallet
  calc resetAt E (resetAt E wm a) b
      = { wm with walletByAddress := (resetAt E (resetAt E wm a) b).walletByAddress } := rfl
    _ = { wm with walletByAddress := (resetAt E (resetAt E wm b) a).walletByAddress } := by rw [hstore]
    _ = resetAt E (resetAt E wm b) a := rfl

/-- **Whatever the order, the reset ends with the same wallets.** -/
theorem foldl_resetAt {l l' : List Address} (h : l.Perm l') : ∀ wm : WalletManager, (∀ a ∈ l, a ∈ wm.keys) →
    l.foldl (resetAt E) wm = l'.foldl (resetAt E) wm := by
  induction h with
  | nil => exact fun _ _ => rfl
  | cons a _ ih =>
    intro wm hmem
    have ha := hmem a (by simp)
    exact ih _ fun b hb => by
      rw [keys_resetAt ha]
      exact hmem b (by simp [hb])
  | swap a b l =>
    intro wm hmem
    rw [List.foldl_cons, List.foldl_cons, List.foldl_cons, List.foldl_cons,
      resetAt_comm (hmem b (by simp)) (hmem a (by simp))]
  | trans h₁ _ ih₁ ih₂ =>
    intro wm hmem
    exact (ih₁ wm hmem).trans (ih₂ wm fun a ha => hmem a (h₁.mem_iff.2 ha))

theorem resetWallets_eq (l : List Address) (wm : WalletManager) :
    each (resetWallet E) l wm = (.ok (), l.foldl (resetAt E) wm) := by
  refine each_of_steps ?_
  induction l generalizing wm with
  | nil => exact .nil wm
  | cons a l ih => exact .cons rfl (ih _)

theorem resetWalletManagerState_order (order order' : MapOrder) :
    resetWalletManagerState E order = resetWalletManagerState E order' := by
  funext wm
  have hperm : (order.list wm.keys).Perm (order'.list wm.keys) := by
    rw [List.perm_ext_iff_of_nodup (order.nodup _) (order'.nodup _)]
    intro a
    rw [order.mem, order'.mem]
  show each (resetWallet E) (order.list wm.keys) wm = each (resetWallet E) (order'.list wm.keys) wm
  rw [resetWallets_eq, resetWallets_eq, foldl_resetAt hperm wm fun a ha => (order.mem _ a).1 ha]

/-! ## Blocks -/

theorem parallel_giveBlockReward (block : PbBlock) : Parallel (giveBlockReward E block miner) :=
  (parallel_modifyWallet _ _).bind fun _ => parallel_addBalance _ _

theorem parallel_revertBlockReward (block : PbBlock) : Parallel (revertBlockReward E block miner) :=
  (parallel_modifyWallet _ _).bind fun _ => parallel_reAssign _ _

theorem parallel_resetWallet (a : Address) : Parallel (resetWallet E a) :=
  matches_get (Twins.rec_on fun _ _ _ => (parallel_modifyWallet _ _).bind fun _ => (parallel_reAssign _ _).bind fun _ =>
    parallel_modifyWallet _ _)

theorem parallel_resetWalletManagerState : Parallel (resetWalletManagerState E order) :=
  matches_get (Twins.rec_on fun _ _ _ => .each parallel_resetWallet _)

theorem parallel_checkDigestEntry (entry : AccState) : Parallel (checkDigestEntry entry) := by
  refine matches_get (Twins.rec_on fun wm _ _ => .ite ?_ (matches_throw _))
  refine .guard _ fun _ => .guard _ fun _ => .guard _ fun _ => .guard _ fun _ => .guard _ fun _ => .each (fun vote => ?_) _
  unfold checkDigestVote
  split
  · exact matches_throw _
  · exact .ite (.ite (matches_throw _) (matches_pure _)) (matches_throw _)

theorem parallel_checkDigestEntries : ∀ (entries : List AccState) (seen : List Address),
    Parallel (checkDigestEntries seen entries)
  | [], _ => matches_pure ()
  | entry :: entries, _ => .guard _ fun _ => (parallel_checkDigestEntry entry).bind fun _ =>
      parallel_checkDigestEntries entries _

theorem parallel_validateDigestBlock (digest : PbBlock) : Parallel (validateDigestBlock digest) := by
  refine matches_get (Twins.rec_on fun wm _ _ => matches_get (Twins.rec_on fun wm' _ _ => ?_))
  have hputBack : Parallel (modify fun t : WalletManager =>
      { t with walletByAddress := t.walletByAddress.set t.myAddress (wm.wallet wm'.myAddress) } : WM Unit) :=
    parallel_modify fun _ _ => rfl
  refine (parallel_modify fun _ _ => rfl).bind fun _ => Matches.bind (.tryCatch ?_ fun e => ?_) fun _ => hputBack
  · exact matches_get (Twins.rec_on fun _ _ _ => .guard _ fun _ => parallel_checkDigestEntries _ _)
  · exact hputBack.bind fun _ => matches_throw e

/-- The block that is reverted is never a digest block. -/
theorem parallel_initiateRevertBlock (block : PbBlock) (numTy numDeal numProof : ℕ) :
    Parallel (initiateRevertBlock E block order numTy numDeal numProof) := by
  have hrest (b : PbBlock) : Parallel (do
      revertBlockReward E b block.minerPublicKey
      revertTransactions E b.transactions block.minerPublicKey b.roundNum
      revertDeals E b.deals block.minerPublicKey b.roundNum
      revertChPrPair E b.chPrPair : WM Unit) :=
    (parallel_revertBlockReward b).bind fun _ => (Matches.each parallel_revertTransaction _).bind fun _ =>
      (Matches.each parallel_revertDeal _).bind fun _ => .each parallel_revertPair _
  refine Matches.tryCatch ((parallel_getWallet _).bind fun _ => hrest _) fun e => ?_
  cases e with
  | error e => exact matches_pure _
  | panic e => exact matches_throw _

theorem parallel_orRevert {part : Call WalletManager (ℕ × Err) Unit} {revert : ℕ → WM Unit} (h : Parallel part)
    (hrevert : ∀ i, Parallel (revert i)) : Parallel (orRevert part revert) := by
  intro s t ht
  obtain ⟨hval, hstate⟩ := h s t ht
  unfold orRevert
  rcases hs : part s with ⟨⟨i, e⟩ | a, s₁⟩ <;> rcases hs' : part t with ⟨⟨i', e'⟩ | a', t₁⟩ <;>
    rw [hs, hs'] at hval hstate <;> cases hval
  · cases e with
    | error e => exact ((hrevert i).bind fun _ => matches_throw _) s₁ t₁ hstate
    | panic e => exact ⟨rfl, hstate⟩
  · exact ⟨rfl, hstate⟩

theorem parallel_applyDelRegTxForGenesis (tx : Transaction) : Parallel (applyDelRegTxForGenesis E tx bRound) := by
  refine (parallel_checkAndPut _).bind fun _ => Matches.bind ((parallel_isExecutable tx).tryCatch fun e => ?_) fun _ => ?_
  · cases e with
    | error e => exact matches_pure _
    | panic e => exact matches_throw _
  · refine (parallel_getWallet _).bind fun _ => ?_
    refine Matches.bind ((parallel_executeRegister _).tryCatch fun _ => matches_pure _) fun _ => ?_
    exact (parallel_setCandidate _ _).bind fun _ => parallel_setNonce _ _

theorem parallel_applyGenesis (block : PbBlock) : Parallel (applyGenesis E block) :=
  (parallel_checkAndPut _).bind fun _ => (parallel_setCandidate _ _).bind fun _ =>
    (Matches.each parallel_applyDelRegTxForGenesis _).bind fun _ => parallel_giveBlockReward block

theorem parallel_applyDigestBlock (block : PbBlock) : Parallel (applyDigestBlock E block miner order) := by
  refine (parallel_getWallet _).bind fun mWallet => (parallel_validateDigestBlock block).bind fun _ => ?_
  refine matches_get (Twins.rec_on fun _ _ _ => .ite ?_ ?_)
  · exact (parallel_giveBlockReward block).bind fun _ => parallel_resetWalletManagerState
  · exact (parallel_modify fun _ _ => rfl).bind fun _ => parallel_resetWalletManagerState

theorem parallel_applyBlock (block : PbBlock) : Parallel (applyBlock E block miner order) := by
  refine (parallel_giveBlockReward block).bind fun _ => ?_
  refine (parallel_orRevert (.forEach parallel_applyTransaction _) fun _ => parallel_initiateRevertBlock _ _ _ _).bind
    fun _ => ?_
  refine (parallel_orRevert (.forEach parallel_applyDeal _) fun _ => parallel_initiateRevertBlock _ _ _ _).bind
    fun _ => ?_
  exact parallel_orRevert (.forEach parallel_applyPair _) fun _ => parallel_initiateRevertBlock _ _ _ _

/-- **Twins do the same with a block, and stay twins.** -/
theorem parallel_checkAndUpdateWalletStates (block : PbBlock) :
    Parallel (checkAndUpdateWalletStates E block miner order) :=
  .ite (parallel_applyGenesis block) ((parallel_checkAndPut _).bind fun _ =>
    .ite (parallel_applyDigestBlock block) (parallel_applyBlock block))

/-- **The order of the map of wallets makes no difference**: only the reset of a digest block ranges over it. -/
theorem checkAndUpdateWalletStates_order (order order' : MapOrder) (block : PbBlock) :
    checkAndUpdateWalletStates E block miner order = checkAndUpdateWalletStates E block miner order' := by
  have hdigest : applyDigestBlock E block miner order = applyDigestBlock E block miner order' := by
    unfold applyDigestBlock
    rw [resetWalletManagerState_order order order']
  unfold checkAndUpdateWalletStates
  rw [hdigest]
  rfl

end WalletManager
end Timbre
