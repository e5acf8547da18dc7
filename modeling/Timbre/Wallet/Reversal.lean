/-
  The reversal of transactions.

  **A transaction that is reverted changes the accounts by the opposite of its effect**
  (`revertTransaction_spec`).  The reversal fails, and takes nothing back, exactly if it is
  one of a candidate transaction and the sender already is what the reversal would make it.
-/
import Timbre.Wallet.Application

namespace Timbre

open Call

/-- The set of candidates after a transaction is reverted. -/
def Transaction.candidatesBefore (tx : Transaction) (P : Address → Prop) (b : Address) : Prop :=
  if tx.isCandidateTx ∧ b = tx.senderId then tx.type = .quitCandidate else P b

namespace WalletManager

/-- What is not part of the accounts, after a transaction is reverted. -/
def restBefore (E : Env) (tx : Transaction) (r : Rest) : Rest :=
  if tx.type = .podf then r.modify (reportedMiner E tx) unreport else r

variable {E : Env} {wm wm' wm₁ : WalletManager} {a c miner : Address} {tx : Transaction}
  {bRound : Int64}

/-- The state allows the transaction to be reverted, as far as it is not a candidate
    transaction: the wallets are there, and so is the report that is to be taken back. -/
structure Revertible (E : Env) (tx : Transaction) (wm : WalletManager) : Prop where
  sender : tx.senderId ∈ wm.keys
  recipient : tx.type = .transfer → tx.recipientId ∈ wm.keys
  entries : tx.type = .vote → ∀ s ∈ votedCands E tx, ∃ v, parseVote s = .ok v
  reported : tx.type = .podf → reportedMiner E tx ∈ wm.keys ∧
    (wm.wallet (reportedMiner E tx)).podfHeights ≠ []

/-- The transaction has been reverted. -/
structure Reverted (E : Env) (bRound : Int64) (miner : Address) (tx : Transaction)
    (wm wm' : WalletManager) : Prop extends Shift E wm wm' (-tx.effect E bRound miner) where
  before : tx.isCandidateTx →
    (tx.senderId ∈ wm.executor.candidateState ↔ tx.type = .becomeCandidate)
  candidates : ∀ b, b ∈ wm'.executor.candidateState ↔
    tx.candidatesBefore (· ∈ wm.executor.candidateState) b
  rest : wm'.rest = restBefore E tx wm.rest

/-- The reversal of a candidate transaction has failed. -/
structure Stuck (tx : Transaction) (e : Err) (wm wm' : WalletManager) : Prop where
  state : wm' = wm
  type : tx.isCandidateTx
  before : ¬ (tx.senderId ∈ wm.executor.candidateState ↔ tx.type = .becomeCandidate)
  error : ∃ m, e = .error m

theorem restBefore_of_ne (h : tx.type ≠ .podf) (r : Rest) : restBefore E tx r = r := if_neg h

theorem candidatesBefore_of_not (h : tx.isCandidateTx = false) (P : Address → Prop) (b : Address) :
    tx.candidatesBefore P b ↔ P b := by
  simp [Transaction.candidatesBefore, h]

/-- The fee is taken back from the miner. -/
theorem move_unfee (hm : miner ∈ wm.keys) (fee : Int64) :
    Move E wm ((wm.debit miner E fee).modifyWallet miner fun w =>
      { w with transactionFee := w.transactionFee - fee }) (Book.pay miner (-fee)) := by
  have h := move_debit (E := E) hm fee
  simpa using h.trans (move_modify (h.mem hm) rfl rfl rfl rfl)

/-! ## The parts -/

theorem revertTransferTx_spec (htype : tx.type = .transfer) (h : Revertible E tx wm) :
    Spec (revertTransferTx E tx (txFee E tx bRound)) wm
      (fun _ wm' => Move E wm wm' (-tx.ownEffect E bRound)) fun _ _ => False := by
  simp only [revertTransferTx, spec_bind, spec_getWallet]
  rw [if_pos h.sender, spec_addBalance, spec_setNonce]
  have h₁ := move_credit (E := E) h.sender (tx.price E bRound)
  have h₂ := h₁.trans (move_decNonce (h₁.mem h.sender))
  rw [if_pos (h₂.mem (h.recipient htype)), spec_subBalance]
  have h₃ := h₂.trans (move_debit (h₂.mem (h.recipient htype)) tx.decibels)
  have he : Book.pay tx.senderId (tx.price E bRound) + Book.bump tx.senderId (-1) +
      Book.pay tx.recipientId (-tx.decibels) = -tx.ownEffect E bRound := by
    simp only [Transaction.ownEffect, htype, Book.pay_neg, Book.bump_neg]
    abel
  exact he ▸ h₃

theorem revertCandidateTx_spec {execute : Address → WM Unit} {flag : Bool}
    (hexec : Executes E execute flag)
    (htype : tx.type = if flag then .quitCandidate else .becomeCandidate) (h : tx.senderId ∈ wm.keys) :
    Spec (revertCandidateTx E execute flag tx (txFee E tx bRound)) wm
      (fun _ wm' => Shift E wm wm' (-tx.ownEffect E bRound) ∧
        (tx.senderId ∈ wm.executor.candidateState ↔ tx.type = .becomeCandidate) ∧
        (∀ b, b ∈ wm'.executor.candidateState ↔
          tx.candidatesBefore (· ∈ wm.executor.candidateState) b) ∧ wm'.rest = wm.rest)
      fun e wm' => Stuck tx e wm wm' := by
  simp only [revertCandidateTx, spec_bind, spec_getWallet]
  rw [if_pos h]
  refine (hexec _ _ h).mono ?_ ?_
  · intro _ wm₁ hcand
    have hs := hcand.keys ▸ h
    have h₁ := move_modify (E := E) (f := fun w => { w with isCandidate := flag }) hs rfl rfl rfl rfl
    have h₂ := h₁.trans (move_credit (h₁.mem hs) (tx.price E bRound))
    have h₃ := h₂.trans (move_decNonce (h₂.mem hs))
    have hshift := hcand.toShift.trans h₃.toShift
    have he : (0 + (0 + Book.pay tx.senderId (tx.price E bRound) + Book.bump tx.senderId (-1))) =
        -tx.ownEffect E bRound := by
      cases flag <;>
      · simp only [Transaction.ownEffect, htype, Book.pay_neg, Book.bump_neg, if_true,
          Bool.false_eq_true, if_false]
        abel
    rw [spec_setCandidate, spec_addBalance, spec_setNonce]
    refine ⟨he ▸ hshift, ?_, fun b => ?_, h₃.rest.trans hcand.rest⟩
    · rw [hcand.before]
      cases flag <;> simp [htype]
    · rw [h₃.executor, hcand.after, Transaction.candidatesBefore]
      cases flag <;> simp [htype, Transaction.isCandidateTx]
  · rintro e wm' ⟨rfl, hbefore, herr⟩
    refine ⟨rfl, ?_, ?_, herr⟩
    · cases flag <;> simp [htype, Transaction.isCandidateTx]
    · rw [hbefore]
      cases flag <;> simp [htype]

theorem revertEntry_spec {voter : Address} (hv : voter ∈ wm.keys) {s : String}
    (hs : ∃ v, parseVote s = .ok v) :
    Spec (revertEntry E voter s) wm
      (fun _ wm' => Move E wm wm' (-Transaction.entryBallot voter s)) fun _ _ => False := by
  obtain ⟨⟨action, p, c⟩, hs⟩ := hs
  unfold revertEntry Transaction.entryBallot
  cases action with
  | vote =>
    simp only [hs, spec_modify]
    rw [← Book.ballot_neg]
    exact move_castUnvote hv p
  | unvote =>
    simp only [hs, spec_modify]
    rw [← Book.ballot_neg, neg_neg]
    exact move_castVote hv p

theorem revertEntries_spec {voter : Address} :
    ∀ (cands : List String) (wm : WalletManager), voter ∈ wm.keys →
      (∀ s ∈ cands, ∃ v, parseVote s = .ok v) →
      Spec (each (revertEntry E voter) cands) wm
        (fun _ wm' => Move E wm wm' (-Transaction.ballots voter cands)) fun _ _ => False
  | [], wm, _, _ => by
    simpa using Move.refl E wm
  | s :: cands, wm, hv, hs => by
    rw [spec_each_cons]
    refine (revertEntry_spec hv (hs s (by simp))).mono (fun _ wm₁ h₁ => ?_) fun _ _ h => h
    refine (revertEntries_spec cands wm₁ (h₁.mem hv) fun s hs' => hs s (by simp [hs'])).mono
      (fun _ wm' h₂ => ?_) fun _ _ h => h
    have h := h₁.trans h₂
    rwa [← neg_add, ← Transaction.ballots_cons] at h

theorem revertVote_spec (htype : tx.type = .vote) (h : Revertible E tx wm) :
    Spec (revertVote E tx (txFee E tx bRound)) wm
      (fun _ wm' => Move E wm wm' (-tx.ownEffect E bRound)) fun _ _ => False := by
  simp only [revertVote, spec_bind, spec_getWallet]
  rw [if_pos h.sender, spec_setNonce, spec_addBalance]
  have h₁ := move_decNonce (E := E) h.sender
  have h₂ := h₁.trans (move_credit (h₁.mem h.sender) (txFee E tx bRound))
  refine (revertEntries_spec _ _ (h₂.mem h.sender) (h.entries htype)).mono (fun _ wm' h₃ => ?_) fun _ _ h => h
  have he : Book.bump tx.senderId (-1) + Book.pay tx.senderId (txFee E tx bRound) +
      -Transaction.ballots tx.senderId (votedCands E tx) = -tx.ownEffect E bRound := by
    simp only [Transaction.ownEffect, htype, Book.pay_neg, Book.bump_neg]
    abel
  exact he ▸ h₂.trans h₃

theorem revertPodf_spec (htype : tx.type = .podf) (h : Revertible E tx wm) :
    Spec (revertPodf E tx (txFee E tx bRound)) wm
      (fun _ wm' => Shift E wm wm' (-tx.ownEffect E bRound) ∧ wm'.executor = wm.executor ∧
        wm'.rest = restBefore E tx wm.rest) fun _ _ => False := by
  obtain ⟨hr, hne⟩ := h.reported htype
  have hlen : (wm.wallet (reportedMiner E tx)).podfHeights.length ≠ 0 := by simpa using hne
  simp only [revertPodf, spec_bind, spec_getWallet, spec_modify, spec_addBalance, spec_ite,
    spec_throw, spec_subBalance]
  rw [if_pos hr, if_neg hlen]
  have h₁ := (move_modify (E := E)
    (f := fun w => { w with blockReward := w.blockReward + rewardForBlockCreation }) hr rfl rfl rfl
      rfl).toShift
  have hr₁ := h₁.keys ▸ hr
  have h₂ := h₁.trans (shift_credit hr₁ rewardForBlockCreation)
  have hr₂ := h₂.keys ▸ hr
  have h₃ := h₂.trans (shift_modify (f := fun w => { w with
    bannedTill := if w.podfHeights.length % blockThresholdToBan = 0 then -1 else w.bannedTill })
      hr₂ rfl rfl)
  have hr₃ := h₃.keys ▸ hr
  have h₄ := h₃.trans (shift_modify (f := fun w => { w with podfHeights := w.podfHeights.dropLast })
      hr₃ rfl rfl)
  have hs₄ := h₄.keys ▸ h.sender
  have h₅ := h₄.trans (shift_debit hs₄ (rewardForPodf - txFee E tx bRound))
  rw [if_pos hs₄]
  have he : 0 + Book.pay (reportedMiner E tx) rewardForBlockCreation + 0 + 0 +
      Book.pay tx.senderId (-(rewardForPodf - txFee E tx bRound)) = -tx.ownEffect E bRound := by
    simp only [Transaction.ownEffect, htype, Book.pay_neg]
    abel
  refine ⟨he ▸ h₅, rfl, ?_⟩
  rw [rest_debit, rest_modify_record (g := fun r => (r.1.dropLast, r.2)) rfl,
    rest_modify_record (g := fun r => (r.1, if r.1.length % blockThresholdToBan = 0 then -1 else r.2))
      rfl, rest_credit, rest_modifyWallet rfl rfl, restBefore, if_pos htype]
  simp [Rest.modify, unreport]

/-! ## One transaction -/

theorem reverted_of_shift (hm : miner ∈ wm.keys) (h : Shift E wm wm' (-tx.ownEffect E bRound))
    (hbefore : tx.isCandidateTx →
      (tx.senderId ∈ wm.executor.candidateState ↔ tx.type = .becomeCandidate))
    (hcand : ∀ b, b ∈ wm'.executor.candidateState ↔
      tx.candidatesBefore (· ∈ wm.executor.candidateState) b)
    (hrest : wm'.rest = restBefore E tx wm.rest) :
    Reverted E bRound miner tx wm ((wm'.debit miner E (txFee E tx bRound)).modifyWallet miner fun w =>
      { w with transactionFee := w.transactionFee - txFee E tx bRound }) := by
  have hm' : miner ∈ wm'.keys := h.keys ▸ hm
  have hfee := move_unfee (E := E) hm' (txFee E tx bRound)
  have he : -tx.ownEffect E bRound + Book.pay miner (-txFee E tx bRound) =
      -tx.effect E bRound miner := by
    rw [Transaction.effect, Book.pay_neg]
    abel
  exact {
    toShift := he ▸ h.trans hfee.toShift
    before := hbefore
    candidates := fun b => by rw [hfee.executor, hcand]
    rest := hfee.rest.trans hrest }

/-- **A transaction that is reverted changes the accounts by the opposite of its effect.** -/
theorem revertTransaction_spec (hm : miner ∈ wm.keys) (h : Revertible E tx wm) :
    Spec (revertTransaction E miner bRound tx) wm
      (fun _ wm' => Reverted E bRound miner tx wm wm') fun e wm' => Stuck tx e wm wm' := by
  cases htype : tx.type with
  | transfer =>
    simp only [revertTransaction, htype, spec_bind, spec_subBalance, spec_modify]
    refine (revertTransferTx_spec htype h).mono (fun _ wm' hmove => ?_) fun _ _ h => h.elim
    refine reverted_of_shift hm hmove.toShift (by simp [Transaction.isCandidateTx, htype]) (fun b => ?_)
      (hmove.rest.trans (restBefore_of_ne (by simp [htype]) _).symm)
    rw [candidatesBefore_of_not (by simp [Transaction.isCandidateTx, htype]), hmove.executor]
  | becomeCandidate =>
    simp only [revertTransaction, htype, spec_bind, spec_subBalance, spec_modify]
    refine (revertCandidateTx_spec (executes_quit E) htype h.sender).mono ?_ fun _ _ h => h
    rintro _ wm' ⟨hshift, hbefore, hcand, hrest⟩
    exact reverted_of_shift hm hshift (fun _ => hbefore) hcand
      (hrest.trans (restBefore_of_ne (by simp [htype]) _).symm)
  | quitCandidate =>
    simp only [revertTransaction, htype, spec_bind, spec_subBalance, spec_modify]
    refine (revertCandidateTx_spec (executes_register E) htype h.sender).mono ?_ fun _ _ h => h
    rintro _ wm' ⟨hshift, hbefore, hcand, hrest⟩
    exact reverted_of_shift hm hshift (fun _ => hbefore) hcand
      (hrest.trans (restBefore_of_ne (by simp [htype]) _).symm)
  | vote =>
    simp only [revertTransaction, htype, spec_bind, spec_subBalance, spec_modify]
    refine (revertVote_spec htype h).mono (fun _ wm' hmove => ?_) fun _ _ h => h.elim
    refine reverted_of_shift hm hmove.toShift (by simp [Transaction.isCandidateTx, htype]) (fun b => ?_)
      (hmove.rest.trans (restBefore_of_ne (by simp [htype]) _).symm)
    rw [candidatesBefore_of_not (by simp [Transaction.isCandidateTx, htype]), hmove.executor]
  | podf =>
    simp only [revertTransaction, htype, spec_bind, spec_subBalance, spec_modify]
    refine (revertPodf_spec htype h).mono ?_ fun _ _ h => h.elim
    rintro _ wm' ⟨hshift, hexec, hrest⟩
    refine reverted_of_shift hm hshift (by simp [Transaction.isCandidateTx, htype]) (fun b => ?_) hrest
    rw [candidatesBefore_of_not (by simp [Transaction.isCandidateTx, htype]), hexec]
  | other =>
    simp only [revertTransaction, htype, spec_bind, spec_subBalance, spec_modify]
    refine reverted_of_shift hm ?_ (by simp [Transaction.isCandidateTx, htype]) (fun b => ?_)
      (restBefore_of_ne (by simp [htype]) _).symm
    · simpa [Transaction.ownEffect, htype] using Shift.refl E wm
    · rw [candidatesBefore_of_not (by simp [Transaction.isCandidateTx, htype])]

end WalletManager
end Timbre
