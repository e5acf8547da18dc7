/-
  The application of transactions.

  **An applied transaction adds the wallets it touches and changes the accounts by its
  effect** (`applyTransaction_spec`); one that fails adds wallets at most, unless it is a
  vote transaction that fails at one of its entries.
-/
import Timbre.Wallet.Effects

namespace Timbre

open Call

/-- The set of candidates after a transaction. -/
def Transaction.candidatesAfter (tx : Transaction) (P : Address → Prop) (b : Address) : Prop :=
  if tx.isCandidateTx ∧ b = tx.senderId then tx.type = .becomeCandidate else P b

namespace WalletManager

/-- What is not part of the accounts, after a transaction: a PoDF adds to the record of the
    reported miner. -/
def restAfter (E : Env) (tx : Transaction) (r : Rest) : Rest :=
  match tx.type, reportedHeader E tx with
  | .podf, some h => r.modify h.minerPublicKey (report h.height)
  | _, _ => r

variable {E : Env} {wm wm' wm₁ : WalletManager} {a c miner : Address} {tx : Transaction}
  {bRound : Int64}

/-- What has been checked of a transaction that is applied. -/
inductive Valid (E : Env) (bRound : Int64) (tx : Transaction) (wm : WalletManager) : Prop
  | plain : Plain tx → Executable E bRound tx wm → Valid E bRound tx wm
  | vote : tx.type = .vote → Votable E bRound tx wm → Valid E bRound tx wm
  | podf (h : Header) : tx.type = .podf → Reportable E bRound tx wm h → Valid E bRound tx wm

theorem Valid.sign (h : Valid E bRound tx wm) : E.hasValidSign tx = none := by
  cases h with
  | plain _ h | vote _ h | podf _ _ h => exact h.sign

theorem Valid.nonce (h : Valid E bRound tx wm) :
    tx.nonce = (wm.wallet tx.senderId).nonce + 1 := by
  cases h with
  | plain _ h | vote _ h | podf _ _ h => exact h.nonce

theorem Valid.fee (h : Valid E bRound tx wm) :
    txFee E tx bRound ≤ (wm.wallet tx.senderId).balance := by
  cases h with
  | plain _ h | vote _ h | podf _ _ h => exact h.fee

theorem Valid.before (h : Valid E bRound tx wm) (htype : tx.isCandidateTx) :
    tx.senderId ∈ wm.executor.candidateState ↔ tx.type = .quitCandidate := by
  simp only [Transaction.isCandidateTx, decide_eq_true_eq] at htype
  cases h with
  | plain _ h =>
    rcases htype with ht | ht
    · simp [ht, h.becomeCandidate ht]
    · simp [ht, h.quitCandidate ht]
  | vote ht _ => simp [ht] at htype
  | podf _ ht _ => simp [ht] at htype

/-- Wallets for `new` are added, then the accounts change by the effect `e`. -/
structure Posted (E : Env) (new : Finset Address) (e : Book) (wm wm' : WalletManager) : Prop where
  keys : wm'.keys = wm.keys ∪ new
  book : wm'.book = wm.book + e
  drift : ∀ c ∈ wm'.keys, wm'.drift E c = wm.drift E c

theorem Posted.of_shift {new : Finset Address} {e : Book} (hg : Grow wm wm₁)
    (hkeys : wm₁.keys = wm.keys ∪ new) (h : Shift E wm₁ wm' e) : Posted E new e wm wm' where
  keys := h.keys.trans hkeys
  book := by rw [h.book, hg.book]
  drift c hc := by rw [h.drift c (h.keys ▸ hc), hg.drift]

/-- The transaction has been applied. -/
structure Applied (E : Env) (bRound : Int64) (miner : Address) (tx : Transaction)
    (wm wm' : WalletManager) : Prop extends
    Posted E tx.touched (tx.effect E bRound miner) wm wm' where
  valid : Valid E bRound tx wm
  candidates : ∀ b, b ∈ wm'.executor.candidateState ↔
    tx.candidatesAfter (· ∈ wm.executor.candidateState) b
  rest : wm'.rest = restAfter E tx wm.rest
  sound : KeepsSound wm wm'

/-- A vote transaction has been applied up to an entry that fails. -/
structure HalfApplied (E : Env) (bRound : Int64) (tx : Transaction) (pre : List String)
    (wm wm' : WalletManager) : Prop extends
    Posted E {tx.senderId} (Book.bump tx.senderId 1 +
      Book.pay tx.senderId (-txFee E tx bRound) + Transaction.ballots tx.senderId pre) wm wm' where
  type : tx.type = .vote
  valid : Votable E bRound tx wm
  executor : wm'.executor = wm.executor
  rest : wm'.rest = wm.rest
  failing : ∃ s post, votedCands E tx = pre ++ s :: post ∧ ¬ EntryValid (wm'.wallet tx.senderId) s

/-- The transaction has failed. -/
def Failed (E : Env) (bRound : Int64) (tx : Transaction) (wm wm' : WalletManager) : Prop :=
  Grow wm wm' ∨ ∃ pre, HalfApplied E bRound tx pre wm wm'

/-! ## Transfers and candidate transactions -/

theorem keys_put_put (a b : Address) : ((wm.put a).put b).keys = wm.keys ∪ {a, b} := by
  ext c
  simp only [keys_put, Finset.mem_insert, Finset.mem_union, Finset.mem_singleton]
  grind

theorem keys_put_touched (h : tx.type ≠ .transfer) :
    (wm.put tx.senderId).keys = wm.keys ∪ tx.touched := by
  rw [Transaction.touched, if_neg h, Finset.union_singleton]
  rfl

theorem applyTransferTx_spec (htype : tx.type = .transfer) :
    Spec (applyTransferTx E tx (txFee E tx bRound) bRound) wm
      (fun _ wm' => Executable E bRound tx wm ∧ wm'.keys = wm.keys ∪ tx.touched ∧
        ∃ wm₁, Grow wm wm₁ ∧ Move E wm₁ wm' (tx.ownEffect E bRound))
      fun _ wm' => Grow wm wm' := by
  have hgrow : Grow wm ((wm.put tx.senderId).put tx.recipientId) := (grow_put _ _).put _
  have hs : tx.senderId ∈ ((wm.put tx.senderId).put tx.recipientId).keys := by simp
  have hr : tx.recipientId ∈ ((wm.put tx.senderId).put tx.recipientId).keys := by simp
  simp only [applyTransferTx, spec_bind, spec_checkAndPut, spec_getWallet]
  refine (isExecutable_spec hs (.inl htype)).mono ?_ ?_
  · rintro _ _ ⟨rfl, hexec⟩
    rw [if_pos hs, spec_subBalance, spec_setNonce]
    have h₁ := move_debit (E := E) hs (tx.price E bRound)
    have h₂ := h₁.trans (move_incNonce (h₁.mem hs))
    rw [if_pos (h₂.mem hr), spec_addBalance]
    have h₃ := h₂.trans (move_credit (h₂.mem hr) tx.decibels)
    refine ⟨⟨hexec.sign, hexec.nonce, hexec.fee, hexec.transfer, hexec.becomeCandidate,
      hexec.quitCandidate⟩, ?_, _, hgrow, ?_⟩
    · rw [h₃.keys, Transaction.touched, if_pos htype, keys_put_put]
    · simpa only [Transaction.ownEffect, htype] using h₃
  · rintro _ _ ⟨rfl, -⟩
    exact hgrow

theorem applyCandidateTx_spec {execute : Address → WM Unit} {flag : Bool}
    (hexec : Executes E execute flag)
    (htype : tx.type = if flag then .becomeCandidate else .quitCandidate) :
    Spec (applyCandidateTx E execute flag tx (txFee E tx bRound) bRound) wm
      (fun _ wm' => Executable E bRound tx wm ∧ wm'.keys = wm.keys ∪ tx.touched ∧
        (∀ b, b ∈ wm'.executor.candidateState ↔
          tx.candidatesAfter (· ∈ wm.executor.candidateState) b) ∧ wm'.rest = wm.rest ∧
        Shift E (wm.put tx.senderId) wm' (tx.ownEffect E bRound))
      fun _ wm' => Grow wm wm' := by
  have hplain : Plain tx := by
    unfold Plain
    cases flag <;> simp [htype]
  have hs : tx.senderId ∈ (wm.put tx.senderId).keys := by simp
  simp only [applyCandidateTx, spec_bind, spec_checkAndPut, spec_getWallet]
  refine (isExecutable_spec hs hplain).mono ?_ ?_
  · rintro _ _ ⟨rfl, hvalid⟩
    rw [if_pos hs]
    refine (hexec _ _ hs).mono ?_ ?_
    · intro _ wm₁ hcand
      have hs₁ : tx.senderId ∈ wm₁.keys := hcand.keys ▸ hs
      have h₁ := move_modify (E := E) (f := fun w => { w with isCandidate := flag }) hs₁ rfl rfl rfl rfl
      have h₂ := h₁.trans (move_debit (h₁.mem hs₁) (tx.price E bRound))
      have h₃ := h₂.trans (move_incNonce (h₂.mem hs₁))
      have hshift := hcand.toShift.trans h₃.toShift
      rw [spec_setCandidate, spec_subBalance, spec_setNonce]
      refine ⟨⟨hvalid.sign, hvalid.nonce, hvalid.fee, hvalid.transfer, hvalid.becomeCandidate,
        hvalid.quitCandidate⟩, ?_, fun b => ?_, h₃.rest.trans hcand.rest, ?_⟩
      · exact hshift.keys.trans (keys_put_touched (by cases flag <;> simp [htype]))
      · rw [h₃.executor, hcand.after, Transaction.candidatesAfter]
        cases flag <;> simp [htype, Transaction.isCandidateTx]
      · cases flag <;> simpa [Transaction.ownEffect, htype] using hshift
    · rintro _ _ ⟨rfl, -, -⟩
      exact grow_put _ _
  · rintro _ _ ⟨rfl, -⟩
    exact grow_put _ _

/-! ## Votes -/

/-- What is done for a vote transaction that has been accepted. -/
theorem applyVote_entries (htype : tx.type = .vote) (hvalid : Votable E bRound tx wm) :
    Spec (do
      checkAndPutWalletByAddress tx.senderId
      setNonce tx.senderId (· + 1)
      subBalance E tx.senderId (txFee E tx bRound)
      each (applyEntry E tx.senderId) (votedCands E tx)) (wm.put tx.senderId)
      (fun _ wm' => wm'.keys = wm.keys ∪ tx.touched ∧
        Move E (wm.put tx.senderId) wm' (tx.ownEffect E bRound) ∧ KeepsSound wm wm')
      fun _ wm' => ∃ pre, HalfApplied E bRound tx pre wm wm' := by
  have hs : tx.senderId ∈ (wm.put tx.senderId).keys := by simp
  simp only [spec_bind]
  rw [spec_checkAndPut, spec_setNonce, spec_subBalance, put_of_mem hs]
  have h₁ := move_incNonce (E := E) hs
  have h₂ := h₁.trans (move_debit (h₁.mem hs) (txFee E tx bRound))
  refine (applyEntries_spec (h₂.mem hs) _).mono ?_ ?_
  · rintro _ wm' ⟨h, hsound⟩
    have h₃ := h₂.trans h
    have hsound₂ : KeepsSound wm _ :=
      keepsSound_of_book h₂.book ((Book.voteless_bump _ _).add (Book.voteless_pay _ _))
    exact ⟨h₃.keys.trans (keys_put_touched (by simp [htype])),
      by simpa only [Transaction.ownEffect, htype] using h₃, hsound₂.trans hsound⟩
  · rintro _ wm' ⟨pre, s, post, hcands, h, hinvalid⟩
    have h₃ := h₂.trans h
    exact ⟨pre, .of_shift (grow_put wm _) (Finset.union_singleton _ _).symm h₃.toShift, htype,
      hvalid, h₃.executor, h₃.rest, s, post, hcands, hinvalid⟩

theorem applyVote_spec (htype : tx.type = .vote) :
    Spec (applyVote E tx (txFee E tx bRound) bRound) wm
      (fun _ wm' => Votable E bRound tx wm ∧ wm'.keys = wm.keys ∪ tx.touched ∧
        Move E (wm.put tx.senderId) wm' (tx.ownEffect E bRound) ∧ KeepsSound wm wm')
      fun _ wm' => Failed E bRound tx wm wm' := by
  rw [applyVote, spec_bind]
  refine (validateVote_spec E bRound tx wm).mono ?_ fun _ _ h => .inl h
  rintro _ _ ⟨rfl, hvalid⟩
  exact (applyVote_entries htype hvalid).mono (fun _ _ h => ⟨hvalid, h⟩) fun _ _ h => .inr h

/-! ## PoDFs -/

theorem applyPodf_spec (htype : tx.type = .podf) :
    Spec (applyPodf E tx (txFee E tx bRound) bRound) wm
      (fun _ wm' => (∃ h, Reportable E bRound tx wm h) ∧ wm'.keys = wm.keys ∪ tx.touched ∧
        wm'.executor = wm.executor ∧ wm'.rest = restAfter E tx wm.rest ∧
        Shift E (wm.put tx.senderId) wm' (tx.ownEffect E bRound))
      fun _ wm' => Grow wm wm' := by
  have hs : tx.senderId ∈ (wm.put tx.senderId).keys := by simp
  simp only [applyPodf, spec_bind]
  refine (validatePodf_spec E bRound tx wm).mono ?_ fun _ _ h => h
  rintro _ _ ⟨rfl, h, hvalid⟩
  have hrep : reportedMiner E tx = h.minerPublicKey := hvalid.miner_eq
  have hr : reportedMiner E tx ∈ (wm.put tx.senderId).keys := by
    rw [hrep]
    exact Finset.mem_insert_of_mem hvalid.wallet
  simp only [hvalid.header, spec_bind, spec_getWallet, spec_modify, spec_subBalance, spec_checkAndPut,
    spec_addBalance]
  rw [if_pos hr]
  have h₁ := (move_modify (E := E)
    (f := fun w => { w with blockReward := w.blockReward - rewardForBlockCreation }) hr rfl rfl rfl
      rfl).toShift
  have hr₁ := h₁.keys ▸ hr
  have h₂ := h₁.trans (shift_debit hr₁ rewardForBlockCreation)
  have hr₂ := h₂.keys ▸ hr
  have h₃ := h₂.trans (shift_modify (f := fun w =>
      let heights := w.podfHeights ++ [h.height]
      { w with
        podfHeights := heights
        bannedTill :=
          if heights.length % blockThresholdToBan = 0 then h.height + banDuration
          else w.bannedTill }) hr₂ rfl rfl)
  have hs₃ := h₃.keys ▸ hs
  have h₄ := h₃.trans (shift_credit hs₃ (rewardForPodf - txFee E tx bRound))
  rw [put_of_mem hs₃]
  refine ⟨⟨h, hvalid⟩, h₄.keys.trans (keys_put_touched (by simp [htype])), rfl, ?_,
    by simpa [Transaction.ownEffect, htype] using h₄⟩
  rw [rest_credit, rest_modify_record (g := report h.height) rfl, rest_debit,
    rest_modifyWallet rfl rfl, rest_put, restAfter, htype, hvalid.header, hrep]

/-! ## One transaction -/

/-- The credit of the fee to the miner. -/
theorem move_fee (hm : miner ∈ wm.keys) (fee : Int64) :
    Move E wm ((wm.credit miner E fee).modifyWallet miner fun w =>
      { w with transactionFee := w.transactionFee + fee }) (Book.pay miner fee) := by
  have h := move_credit (E := E) hm fee
  simpa using h.trans (move_modify (h.mem hm) rfl rfl rfl rfl)

theorem applied_of_shift (hm : miner ∈ wm.keys) (hvalid : Valid E bRound tx wm)
    (hg : Grow wm wm₁) (hkeys : wm'.keys = wm.keys ∪ tx.touched)
    (h : Shift E wm₁ wm' (tx.ownEffect E bRound))
    (hcand : ∀ b, b ∈ wm'.executor.candidateState ↔
      tx.candidatesAfter (· ∈ wm.executor.candidateState) b)
    (hrest : wm'.rest = restAfter E tx wm.rest) (hsound : KeepsSound wm wm') :
    Applied E bRound miner tx wm ((wm'.credit miner E (txFee E tx bRound)).modifyWallet miner fun w =>
      { w with transactionFee := w.transactionFee + txFee E tx bRound }) := by
  have hm' : miner ∈ wm'.keys := hkeys ▸ Finset.mem_union_left _ hm
  have hfee := move_fee (E := E) hm' (txFee E tx bRound)
  exact {
    toPosted := .of_shift hg (h.keys.symm.trans hkeys) (h.trans hfee.toShift)
    valid := hvalid
    candidates := fun b => by rw [hfee.executor, hcand]
    rest := hfee.rest.trans hrest
    sound := hsound.trans (keepsSound_of_book hfee.book (Book.voteless_pay _ _)) }

/-- A transaction that is no vote leaves all votes as they are. -/
theorem voteless_ownEffect (h : tx.type ≠ .vote) : (tx.ownEffect E bRound).Voteless := by
  unfold Transaction.ownEffect
  split
  · exact ((Book.voteless_pay _ _).add (Book.voteless_bump _ _)).add (Book.voteless_pay _ _)
  · exact (Book.voteless_pay _ _).add (Book.voteless_bump _ _)
  · exact (Book.voteless_pay _ _).add (Book.voteless_bump _ _)
  · exact absurd ‹_› h
  · exact (Book.voteless_pay _ _).add (Book.voteless_pay _ _)
  · exact fun _ => ⟨rfl, rfl⟩

theorem keepsSound_of_shift (hg : Grow wm wm₁) (h : Shift E wm₁ wm' (tx.ownEffect E bRound))
    (htype : tx.type ≠ .vote) : KeepsSound wm wm' :=
  keepsSound_of_book (hg.book ▸ h.book) (voteless_ownEffect htype)

theorem restAfter_of_ne (h : tx.type ≠ .podf) (r : Rest) : restAfter E tx r = r := by
  unfold restAfter
  split
  · exact absurd ‹_› h
  · rfl

theorem candidatesAfter_of_not (h : tx.isCandidateTx = false) (P : Address → Prop) (b : Address) :
    tx.candidatesAfter P b ↔ P b := by
  simp [Transaction.candidatesAfter, h]

/-- **A transaction that is applied changes the accounts by its effect.** -/
theorem applyTransaction_spec (hm : miner ∈ wm.keys) :
    Spec (applyTransaction E miner bRound tx) wm
      (fun _ wm' => Applied E bRound miner tx wm wm') fun _ wm' => Failed E bRound tx wm wm' := by
  cases htype : tx.type with
  | transfer =>
    simp only [applyTransaction, htype, spec_bind, spec_addBalance, spec_modify]
    refine (applyTransferTx_spec htype).mono ?_ fun _ _ h => .inl h
    rintro _ wm' ⟨hexec, hkeys, wm₁, hg, hmove⟩
    refine applied_of_shift hm (.plain (.inl htype) hexec) hg hkeys hmove.toShift (fun b => ?_)
      ((hmove.rest.trans hg.rest).trans (restAfter_of_ne (by simp [htype]) _).symm)
      (keepsSound_of_shift hg hmove.toShift (by simp [htype]))
    rw [candidatesAfter_of_not (by simp [Transaction.isCandidateTx, htype]), hmove.executor,
      hg.executor]
  | becomeCandidate =>
    simp only [applyTransaction, htype, spec_bind, spec_addBalance, spec_modify]
    refine (applyCandidateTx_spec (executes_register E) htype).mono ?_ fun _ _ h => .inl h
    rintro _ wm' ⟨hexec, hkeys, hcand, hrest, hshift⟩
    exact applied_of_shift hm (.plain (.inr (.inl htype)) hexec) (grow_put _ _) hkeys hshift hcand
      (hrest.trans (restAfter_of_ne (by simp [htype]) _).symm)
      (keepsSound_of_shift (grow_put _ _) hshift (by simp [htype]))
  | quitCandidate =>
    simp only [applyTransaction, htype, spec_bind, spec_addBalance, spec_modify]
    refine (applyCandidateTx_spec (executes_quit E) htype).mono ?_ fun _ _ h => .inl h
    rintro _ wm' ⟨hexec, hkeys, hcand, hrest, hshift⟩
    exact applied_of_shift hm (.plain (.inr (.inr htype)) hexec) (grow_put _ _) hkeys hshift hcand
      (hrest.trans (restAfter_of_ne (by simp [htype]) _).symm)
      (keepsSound_of_shift (grow_put _ _) hshift (by simp [htype]))
  | vote =>
    simp only [applyTransaction, htype, spec_bind, spec_addBalance, spec_modify]
    refine (applyVote_spec htype).mono ?_ fun _ _ h => h
    rintro _ wm' ⟨hvalid, hkeys, hmove, hsound⟩
    refine applied_of_shift hm (.vote htype hvalid) (grow_put _ _) hkeys hmove.toShift (fun b => ?_)
      (hmove.rest.trans (restAfter_of_ne (by simp [htype]) _).symm) hsound
    rw [candidatesAfter_of_not (by simp [Transaction.isCandidateTx, htype]), hmove.executor]
    rfl
  | podf =>
    simp only [applyTransaction, htype, spec_bind, spec_addBalance, spec_modify]
    refine (applyPodf_spec htype).mono ?_ fun _ _ h => .inl h
    rintro _ wm' ⟨⟨h, hvalid⟩, hkeys, hexec, hrest, hshift⟩
    refine applied_of_shift hm (.podf h htype hvalid) (grow_put _ _) hkeys hshift (fun b => ?_) hrest
      (keepsSound_of_shift (grow_put _ _) hshift (by simp [htype]))
    rw [candidatesAfter_of_not (by simp [Transaction.isCandidateTx, htype]), hexec]
  | other =>
    simp only [applyTransaction, htype, spec_bind, spec_throw]
    exact .inl (.refl _)

/-! ## Lists of postings -/

section

variable {α : Type} {new : α → Finset Address} {eff : α → Book} {x : α} {xs pre post : List α}

/-- The addresses that get a wallet in a list of postings. -/
def newBy (new : α → Finset Address) (xs : List α) : Finset Address := (xs.map new).foldr (· ∪ ·) ∅

theorem mem_newBy : c ∈ newBy new xs ↔ ∃ x ∈ xs, c ∈ new x := by
  induction xs with
  | nil => simp [newBy]
  | cons x xs ih =>
    have hcons : newBy new (x :: xs) = new x ∪ newBy new xs := rfl
    simp [hcons, ih]

/-- The first item that brings a wallet for an address. -/
theorem exists_first (h : c ∈ newBy new xs) :
    ∃ pre x post, xs = pre ++ x :: post ∧ c ∈ new x ∧ c ∉ newBy new pre := by
  induction xs with
  | nil => simp [newBy] at h
  | cons x xs ih =>
    by_cases hc : c ∈ new x
    · exact ⟨[], x, xs, rfl, hc, by simp [newBy]⟩
    · have hcons : c ∈ new x ∪ newBy new xs := h
      obtain ⟨pre, x', post, rfl, hc', hpre⟩ := ih ((Finset.mem_union.1 hcons).resolve_left hc)
      refine ⟨x :: pre, x', post, rfl, hc', fun hmem => ?_⟩
      have hcons' : c ∈ new x ∪ newBy new pre := hmem
      exact (Finset.mem_union.1 hcons').elim hc hpre

/-- Wallets are added and effects posted, item by item. -/
def AllPosted (E : Env) (new : α → Finset Address) (eff : α → Book) :
    List α → WalletManager → WalletManager → Prop := Steps fun x => Posted E (new x) (eff x)

theorem Posted.mem {new : Finset Address} {e : Book} (h : Posted E new e wm wm') (ha : a ∈ wm.keys) :
    a ∈ wm'.keys := h.keys ▸ Finset.mem_union_left _ ha

theorem AllPosted.keys (h : AllPosted E new eff xs wm wm') : wm'.keys = wm.keys ∪ newBy new xs := by
  induction h with
  | nil => exact (Finset.union_empty _).symm
  | cons hx _ ih =>
    rw [ih, hx.keys, Finset.union_assoc]
    rfl

theorem AllPosted.book (h : AllPosted E new eff xs wm wm') : wm'.book = wm.book + (xs.map eff).sum := by
  induction h with
  | nil => exact (add_zero _).symm
  | cons hx _ ih => rw [ih, hx.book, add_assoc, List.map_cons, List.sum_cons]

/-- The vote power of a wallet that was there before has been kept up to date. -/
theorem AllPosted.drift (h : AllPosted E new eff xs wm wm') (hc : c ∈ wm.keys) :
    wm'.drift E c = wm.drift E c := by
  induction h with
  | nil => rfl
  | cons hx _ ih => rw [ih (hx.mem hc), hx.drift c (hx.mem hc)]

theorem drift_absent (h : c ∉ wm.keys) : wm.drift E c = -wm.book.stake E c := by
  rw [WalletManager.drift, wallet_absent h]
  exact zero_sub _

/-- A wallet that is added starts without the shares that its address got before. -/
theorem AllPosted.drift_new (h : AllPosted E new eff (pre ++ x :: post) wm wm') (hc : c ∈ new x)
    (hnew : c ∉ wm.keys ∪ newBy new pre) :
    wm'.drift E c = -(wm.book + (pre.map eff).sum).stake E c := by
  obtain ⟨wm₁, h₁, h₂⟩ := Steps.append_inv h
  cases h₂ with
  | cons hx h₂ =>
    have hc₂ := hx.keys ▸ Finset.mem_union_right _ hc
    rw [AllPosted.drift h₂ hc₂, hx.drift c hc₂, drift_absent (by rwa [AllPosted.keys h₁]),
      AllPosted.book h₁]

end

/-! ## Lists of transactions -/

/-- Transactions have been applied one after the other. -/
def AllApplied (E : Env) (bRound : Int64) (miner : Address) : List Transaction →
    WalletManager → WalletManager → Prop := Steps (Applied E bRound miner)

variable {txs : List Transaction}

theorem applyTransactions_spec (hm : miner ∈ wm.keys) (txs : List Transaction) :
    Spec (applyTransactions E txs miner bRound) wm
      (fun _ wm' => miner ∈ wm'.keys ∧ AllApplied E bRound miner txs wm wm')
      fun ie wm' => ∃ pre tx post wm₁, txs = pre ++ tx :: post ∧ ie.1 = pre.length ∧
        AllApplied E bRound miner pre wm wm₁ ∧ miner ∈ wm₁.keys ∧ Failed E bRound tx wm₁ wm' :=
  forEach_spec (fun _ _ _ hm => (applyTransaction_spec hm).mono
    (fun _ _ h => ⟨h.toPosted.mem hm, h⟩) fun _ _ h => h) hm

theorem AllApplied.posted (h : AllApplied E bRound miner txs wm wm') :
    AllPosted E Transaction.touched (fun tx => tx.effect E bRound miner) txs wm wm' :=
  h.mono fun _ _ _ _ hx => hx.toPosted

theorem AllApplied.keys (h : AllApplied E bRound miner txs wm wm') :
    wm'.keys = wm.keys ∪ Transaction.touchedBy txs := h.posted.keys

/-- **The accounts after a list of transactions.** -/
theorem AllApplied.book (h : AllApplied E bRound miner txs wm wm') :
    wm'.book = wm.book + Transaction.effects E bRound miner txs := h.posted.book

end WalletManager
end Timbre
