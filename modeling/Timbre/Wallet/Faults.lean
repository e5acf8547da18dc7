/-
  Items that fail.

  Before it fails a transaction may have opened wallets (`Page.opensFailing`), and a vote
  transaction that has been accepted fails half applied.  **Nothing else is left of a
  transaction that fails** (`applyTransaction_fails`); a deal that is refused leaves nothing.
-/
import Timbre.Wallet.Ledger
import Timbre.Wallet.Pages

namespace Timbre

open Call

namespace WalletManager

variable {E : Env} {wm wm' : WalletManager} {miner : Address} {tx : Transaction} {bRound : Int64}

/-- Wallets have been opened, and nothing else has happened. -/
structure Opened (K : Finset Address) (wm wm' : WalletManager) : Prop extends Grow wm wm' where
  opens : wm'.keys = wm.keys ∪ K

theorem Opened.refl (wm : WalletManager) : Opened ∅ wm wm := ⟨.refl wm, (Finset.union_empty _).symm⟩

theorem opened_put (wm : WalletManager) (a : Address) : Opened {a} wm (wm.put a) :=
  ⟨grow_put wm a, (Finset.union_singleton _ _).symm⟩

theorem Opened.entered {K : Finset Address} (h : Opened K wm wm') : Entered E (.opening K) wm wm' where
  keys := h.opens
  book := h.book.trans (add_zero _).symm
  drift c _ := (congrFun h.drift c).trans (add_zero _).symm

theorem opened_touched (h : tx.type ≠ .transfer) : Opened tx.touched wm (wm.put tx.senderId) := by
  rw [Transaction.touched, if_neg h]
  exact opened_put wm _

theorem applyTransferTx_fails (htype : tx.type = .transfer) :
    Spec (applyTransferTx E tx (txFee E tx bRound) bRound) wm (fun _ _ => True)
      fun _ wm' => Opened tx.touched wm wm' := by
  have hs : tx.senderId ∈ ((wm.put tx.senderId).put tx.recipientId).keys := by simp
  have hr : tx.recipientId ∈ ((wm.put tx.senderId).put tx.recipientId).keys := by simp
  simp only [applyTransferTx, spec_bind, spec_checkAndPut, spec_getWallet]
  refine (isExecutable_spec hs (.inl htype)).mono ?_ ?_
  · rintro _ _ ⟨rfl, -⟩
    have h₁ := move_debit (E := E) hs (tx.price E bRound)
    have h₂ := h₁.trans (move_incNonce (h₁.mem hs))
    rw [if_pos hs, spec_subBalance, spec_setNonce, if_pos (h₂.mem hr)]
    trivial
  · rintro _ _ ⟨rfl, -⟩
    exact ⟨(grow_put _ _).put _, by rw [keys_put_put, Transaction.touched, if_pos htype]⟩

theorem applyCandidateTx_fails {execute : Address → WM Unit} {flag : Bool}
    (hexec : Executes E execute flag)
    (htype : tx.type = if flag then .becomeCandidate else .quitCandidate) :
    Spec (applyCandidateTx E execute flag tx (txFee E tx bRound) bRound) wm (fun _ _ => True)
      fun _ wm' => Opened tx.touched wm wm' := by
  have hplain : Plain tx := by
    unfold Plain
    cases flag <;> simp [htype]
  have hne : tx.type ≠ .transfer := by cases flag <;> simp [htype]
  have hs : tx.senderId ∈ (wm.put tx.senderId).keys := by simp
  simp only [applyCandidateTx, spec_bind, spec_checkAndPut, spec_getWallet]
  refine (isExecutable_spec hs hplain).mono ?_ ?_
  · rintro _ _ ⟨rfl, -⟩
    rw [if_pos hs]
    refine (hexec _ _ hs).mono (fun _ _ _ => trivial) ?_
    rintro _ _ ⟨rfl, -⟩
    exact opened_touched hne
  · rintro _ _ ⟨rfl, -⟩
    exact opened_touched hne

theorem validateVote_opens (htype : tx.type = .vote) : Spec (validateVote E tx bRound) wm (fun _ _ => True)
    fun _ wm' => Opened (wm.page.opensFailing E tx) wm wm' := by
  have hself : tx.senderId ∈ (wm.put tx.senderId).keys := Finset.mem_insert_self _ _
  simp only [validateVote, spec_bind, spec_check, spec_checkAndPut, spec_getWallet, spec_ite,
    spec_throw]
  refine ⟨fun hsign => ?_, fun e he => ?_⟩
  · have hopen : Opened (wm.page.opensFailing E tx) wm (wm.put tx.senderId) := by
      rw [Page.opensFailing, htype, if_pos hsign]
      exact opened_touched (by simp [htype])
    rw [if_pos hself]
    refine ite_intro (fun _ => hopen) fun _ => ite_intro (fun _ => hopen) fun _ => ?_
    split
    · exact hopen
    · rename_i cands _
      have hcheck : ∀ s ∈ cands, ∀ wm₁, wm₁ = wm.put tx.senderId →
          Spec (checkEntry (wm.wallet tx.senderId) s) wm₁ (fun _ wm' => wm' = wm.put tx.senderId ∧ True)
            fun _ wm' => wm' = wm.put tx.senderId := by
        rintro s _ _ rfl
        exact (checkEntry_spec _ _ _).mono (fun _ _ h => ⟨h.1, trivial⟩) fun _ _ h => h.1
      refine (each_spec hcheck rfl).mono (fun _ _ _ => trivial) ?_
      rintro e _ ⟨_, _, _, _, -, -, -, rfl⟩
      exact hopen
  · rw [Page.opensFailing, htype]
    simp only [he, reduceCtorEq, if_false]
    exact .refl wm

theorem applyVote_fails (htype : tx.type = .vote) :
    Spec (applyVote E tx (txFee E tx bRound) bRound) wm (fun _ _ => True) fun _ wm' =>
      (wm.page.VoteAccepted E bRound tx ∧ ∃ pre, HalfApplied E bRound tx pre wm wm') ∨
        (¬ wm.page.VoteAccepted E bRound tx ∧ Opened (wm.page.opensFailing E tx) wm wm') := by
  rw [applyVote, spec_bind]
  refine (((validateVote_spec E bRound tx wm).and (validateVote_decides E bRound tx wm)).and
    (validateVote_opens htype)).mono ?_ fun _ _ h =>
      .inr ⟨fun hacc => h.1.2 ((describes_page wm).voteAccepted_iff.1 hacc).2, h.2⟩
  rintro _ _ ⟨⟨⟨rfl, hvalid⟩, hformed⟩, -⟩
  exact (applyVote_entries htype hvalid).mono (fun _ _ _ => trivial)
    fun _ _ h => .inl ⟨(describes_page wm).voteAccepted_iff.2 ⟨htype, hformed, hvalid⟩, h⟩

theorem validatePodf_opens (htype : tx.type = .podf) : Spec (validatePodf E tx bRound) wm (fun _ _ => True)
    fun _ wm' => Opened (wm.page.opensFailing E tx) wm wm' := by
  have hself : tx.senderId ∈ (wm.put tx.senderId).keys := Finset.mem_insert_self _ _
  have hrefl : ¬ (E.hasValidSign tx = none ∧ wm.page.accuses E tx = true) → Opened (wm.page.opensFailing E tx) wm wm := by
    intro h
    rw [Page.opensFailing, htype]
    dsimp only
    rw [if_neg h]
    exact .refl wm
  have hput : E.hasValidSign tx = none ∧ wm.page.accuses E tx = true →
      Opened (wm.page.opensFailing E tx) wm (wm.put tx.senderId) := by
    intro h
    rw [Page.opensFailing, htype]
    dsimp only
    rw [if_pos h]
    exact opened_touched (by simp [htype])
  simp only [validatePodf, spec_bind, spec_check]
  refine ⟨fun hsign => ?_, fun e he => hrefl (by simp [he])⟩
  split
  · rename_i hpayload
    exact hrefl (by simp [Page.accuses, hpayload])
  · rename_i h1 h2 hpayload
    simp only [spec_bind, spec_ite, spec_throw, spec_pure, spec_check, spec_getWallet,
      spec_checkAndPut, if_pos hself, wallet_put]
    have hacc : wm.page.accuses E tx = decide (h1.height = h2.height ∧ h1.hash ≠ h2.hash ∧
        E.validateHeaderSign h1 = none ∧ E.validateHeaderSign h2 = none ∧ h1.minerPublicKey ∈ wm.keys ∧
        (wm.wallet h1.minerPublicKey).isCandidate = true) := by
      simp only [Page.accuses, hpayload]
      rfl
    simp only [hacc, decide_eq_true_eq] at hrefl hput
    refine ite_intro (fun hheight => hrefl fun h => hheight h.2.1) fun hheight => ?_
    refine ite_intro (fun hhash => hrefl fun h => h.2.2.1 hhash) fun hhash => ?_
    refine ⟨fun hv₁ => ⟨fun hv₂ => ?_, fun e he => hrefl (by simp [he])⟩, fun e he => hrefl (by simp [he])⟩
    refine ite_intro (fun hkey => ?_) fun hkey => hrefl fun h => hkey h.2.2.2.2.2.1
    refine ite_intro (fun hcand => hrefl fun h => by simp [hcand] at h) fun hcand => ?_
    have hopen := hput ⟨hsign, not_not.1 hheight, hhash, hv₁, hv₂, hkey, by simpa using hcand⟩
    exact ite_intro (fun _ => hopen) fun _ => ite_intro (fun _ => hopen) fun _ =>
      ite_intro (fun _ => hopen) fun _ => ite_intro (fun _ => hopen) fun _ => trivial
  · rename_i headers hne hpayload
    refine hrefl fun h => ?_
    have hacc := h.2
    simp only [Page.accuses, hpayload] at hacc
    split at hacc
    · exact hne _ _ (Except.ok.inj ‹_›)
    · cases hacc

theorem applyPodf_fails (htype : tx.type = .podf) :
    Spec (applyPodf E tx (txFee E tx bRound) bRound) wm (fun _ _ => True)
      fun _ wm' => Opened (wm.page.opensFailing E tx) wm wm' := by
  simp only [applyPodf, spec_bind]
  refine ((validatePodf_spec E bRound tx wm).and (validatePodf_opens htype)).mono ?_ fun _ _ h => h.2
  rintro _ _ ⟨⟨rfl, h, hvalid⟩, -⟩
  have hrep : reportedMiner E tx = h.minerPublicKey := hvalid.miner_eq
  have hr : reportedMiner E tx ∈ (wm.put tx.senderId).keys := by
    rw [hrep]
    exact Finset.mem_insert_of_mem hvalid.wallet
  simp only [hvalid.header, spec_bind, spec_getWallet, spec_modify, spec_subBalance, spec_checkAndPut,
    spec_addBalance]
  rw [if_pos hr]
  trivial

/-- **What is left of a transaction that fails**: the wallets it has opened, and of a vote
    transaction that has been accepted the entries before the one that fails. -/
theorem applyTransaction_fails : Spec (applyTransaction E miner bRound tx) wm (fun _ _ => True)
    fun _ wm' => (wm.page.VoteAccepted E bRound tx ∧ ∃ pre, HalfApplied E bRound tx pre wm wm') ∨
      (¬ wm.page.VoteAccepted E bRound tx ∧ Opened (wm.page.opensFailing E tx) wm wm') := by
  have hother : ∀ {K : Finset Address} {wm' : WalletManager}, tx.type ≠ .vote → wm.page.opensFailing E tx = K →
      Opened K wm wm' → (wm.page.VoteAccepted E bRound tx ∧ ∃ pre, HalfApplied E bRound tx pre wm wm') ∨
        (¬ wm.page.VoteAccepted E bRound tx ∧ Opened (wm.page.opensFailing E tx) wm wm') := fun hne hK h =>
    .inr ⟨fun hv => hne hv.type, hK ▸ h⟩
  cases htype : tx.type <;> simp only [applyTransaction, htype, spec_bind, spec_addBalance, spec_modify]
  case transfer =>
    exact (applyTransferTx_fails htype).mono (fun _ _ h => h)
      fun _ _ => hother (by simp [htype]) (by simp [Page.opensFailing, htype])
  case becomeCandidate =>
    exact (applyCandidateTx_fails (executes_register E) htype).mono (fun _ _ h => h)
      fun _ _ => hother (by simp [htype]) (by simp [Page.opensFailing, htype])
  case quitCandidate =>
    exact (applyCandidateTx_fails (executes_quit E) htype).mono (fun _ _ h => h)
      fun _ _ => hother (by simp [htype]) (by simp [Page.opensFailing, htype])
  case vote => exact applyVote_fails htype
  case podf =>
    exact (applyPodf_fails htype).mono (fun _ _ h => h) fun _ _ => hother (by simp [htype]) rfl
  case other =>
    rw [spec_throw]
    exact hother (by simp [htype]) (by simp [Page.opensFailing, htype]) (.refl wm)

/-- A deal is refused if a poster cannot pay; later it panics. -/
theorem applyDeal_fails (deal : Deal) (wm : WalletManager) : Spec (applyDeal E miner bRound deal) wm
    (fun _ _ => True) fun e wm' => (∃ m, e = .panic m) ∨
      wm' = wm ∧ ∃ post ∈ deal.list, (wm.wallet post.pid).balance < postPrice E post bRound := by
  simp only [applyDeal, validateDeal, spec_bind, spec_get, spec_ite, spec_throw, spec_pure,
    spec_checkAndPut, spec_addBalance, spec_modify]
  refine ite_intro (fun hpoor => .inr ⟨trivial, ?_⟩) fun _ => ?_
  · simpa only [List.any_eq_true, decide_eq_true_eq] using hpoor
  · exact (chargePosts_spec "" deal.list _).mono (fun _ _ _ => trivial) fun _ _ h => .inl h

end WalletManager
end Timbre
