/-
  What the reversal of a block has booked when it returns.

  Nothing is known of the wallets that it starts from: some may have been deleted since the block was
  accepted.  **A reversal that returns has entered the items of its `unwinding`** (`unwound_of_reverted`):
  where a wallet or a report is missing it does not return.
-/
import Timbre.Wallet.Rollback

namespace Timbre

open Call

namespace WalletManager

variable {E : Env} {bRound : Int64} {wm wm' s s' : WalletManager} {a miner : Address} {tx : Transaction}
  {txs : List Transaction} {deal : Deal} {block : PbBlock} {order : MapOrder}

/-! ## Transactions -/

/-- What is known of a transaction that has been applied once. -/
structure Taken (E : Env) (tx : Transaction) : Prop where
  type : tx.type ≠ .other
  entries : tx.type = .vote → ∀ s ∈ votedCands E tx, ∃ v, parseVote s = .ok v

theorem Applied.taken (h : Applied E bRound miner tx wm wm') : Taken E tx := by
  cases h.valid with
  | plain hp _ =>
    rcases hp with ht | ht | ht <;> exact ⟨by simp [ht], by simp [ht]⟩
  | vote ht hx =>
    refine ⟨by simp [ht], fun _ s hs => ?_⟩
    rcases hx.entries s hs with ⟨h, -⟩ | ⟨h, -, -⟩ <;> exact ⟨_, h⟩
  | podf _ ht _ => exact ⟨by simp [ht], by simp [ht]⟩

/-- Where a wallet or a report is missing the reversal of a transaction does not return. -/
theorem revertTransaction_revertible (h : Taken E tx) : Spec (revertTransaction E miner bRound tx) wm
    (fun _ _ => Revertible E tx wm) fun _ _ => True := by
  have hpart : ∀ {part : WM Unit} {rest : Unit → WM Unit},
      Spec part wm (fun _ _ => Revertible E tx wm) (fun _ _ => True) →
      Spec (part >>= rest) wm (fun _ _ => Revertible E tx wm) fun _ _ => True := fun hx =>
    hx.bind (fun _ _ hrev => .intro (fun _ _ _ => hrev) fun _ _ _ => trivial) fun _ _ h => h
  have hgiven : ∀ {c : WM Unit}, Revertible E tx wm → Spec c wm (fun _ _ => Revertible E tx wm) fun _ _ => True :=
    fun hrev => .intro (fun _ _ _ => hrev) fun _ _ _ => trivial
  unfold revertTransaction
  cases ht : tx.type with
  | transfer =>
    refine hpart ?_
    by_cases hs : tx.senderId ∈ wm.keys
    · by_cases hr : tx.recipientId ∈ wm.keys
      · exact hgiven ⟨hs, fun _ => hr, by simp [ht], by simp [ht]⟩
      · simp only [revertTransferTx, spec_bind, spec_getWallet, if_pos hs, spec_addBalance, spec_setNonce]
        have h₁ := move_credit (E := E) hs (tx.decibels + txFee E tx bRound)
        have h₂ := h₁.trans (move_decNonce (h₁.mem hs))
        rw [if_neg fun h => hr (h₂.keys ▸ h)]
        trivial
    · simp only [revertTransferTx, spec_bind, spec_getWallet, if_neg hs]
  | becomeCandidate =>
    refine hpart ?_
    by_cases hs : tx.senderId ∈ wm.keys
    · exact hgiven ⟨hs, by simp [ht], by simp [ht], by simp [ht]⟩
    · simp only [revertDelegateRegistrationTx, revertCandidateTx, spec_bind, spec_getWallet, if_neg hs]
  | quitCandidate =>
    refine hpart ?_
    by_cases hs : tx.senderId ∈ wm.keys
    · exact hgiven ⟨hs, by simp [ht], by simp [ht], by simp [ht]⟩
    · simp only [revertQuitDelegateTx, revertCandidateTx, spec_bind, spec_getWallet, if_neg hs]
  | vote =>
    refine hpart ?_
    by_cases hs : tx.senderId ∈ wm.keys
    · exact hgiven ⟨hs, by simp [ht], fun _ => h.entries ht, by simp [ht]⟩
    · simp only [revertVote, spec_bind, spec_getWallet, if_neg hs]
  | podf =>
    refine hpart ?_
    simp only [revertPodf, spec_bind, spec_getWallet, spec_modify, spec_addBalance, spec_ite, spec_throw,
      spec_subBalance]
    refine ite_intro (fun hr => ite_intro (fun _ => trivial) fun hlen => ite_intro (fun hs => ?_) fun _ => trivial)
      fun _ => trivial
    refine ⟨?_, by simp [ht], by simp [ht], fun _ => ⟨hr, by simpa using hlen⟩⟩
    simpa [hr] using hs
  | other => exact absurd ht h.type

/-- Transactions that are reverted one after the other. -/
theorem allReverted_of_steps (htaken : ∀ tx ∈ txs, Taken E tx) (hm : miner ∈ s.keys)
    (h : Steps (fun tx s s' => revertTransaction E miner bRound tx s = (.ok (), s')) txs s s') :
    AllReverted E bRound miner txs s s' :=
  h.strengthen (I := fun s => miner ∈ s.keys) hm fun tx htx _ _ hm hx =>
    have hrev : Revertible E tx _ := (revertTransaction_revertible (htaken tx htx)).ok hx
    have hreverted : Reverted E bRound miner tx _ _ := (revertTransaction_spec hm hrev).ok hx
    ⟨hreverted.keys ▸ hm, hreverted⟩

/-! ## Deals -/

/-- The provider of a deal gets a wallet, if it has none any more. -/
theorem revertDeal_refunded (hm : miner ∈ s.keys) (h : revertDeal E miner bRound deal s = (.ok (), s')) :
    Steps (Refunded E) (undoLines E bRound miner deal) s s' ∧ miner ∈ s'.keys := by
  obtain ⟨_, s₁, hput, h⟩ := bind_ok h
  obtain rfl : s.put deal.spid = s₁ := congrArg Prod.snd hput
  have hm₁ : miner ∈ (s.put deal.spid).keys := Finset.mem_insert_of_mem hm
  have hposts : Refunds E (s.put deal.spid).keys (deal.list.map (refundLine E bRound))
      (each (refundPost E bRound) deal.list) := by
    rw [List.map_eq_flatMap]
    exact Performs.each fun post _ => refunds_post post
  obtain ⟨hkeys, -, hrefunded⟩ := (hposts.bind (refunds_unfee hm₁ (dealFee E deal bRound)) _ rfl).ok h
  refine ⟨.cons ⟨booked_put s deal.spid, rfl, rfl⟩ hrefunded, ?_⟩
  rw [hkeys]
  exact hm₁

theorem deals_refunded {deals : List Deal} (hm : miner ∈ s.keys)
    (h : Steps (fun deal s s' => revertDeal E miner bRound deal s = (.ok (), s')) deals s s') :
    Steps (Refunded E) (deals.flatMap (undoLines E bRound miner)) s s' :=
  (h.strengthen (I := fun s => miner ∈ s.keys) hm fun _ _ _ _ hm hx =>
    ⟨(revertDeal_refunded hm hx).2, (revertDeal_refunded hm hx).1⟩).flatMap

/-! ## Blocks -/

/-- The reward of a block that is taken back. -/
def unreward (E : Env) (block : PbBlock) (miner : Address) : Item :=
  (⟨miner, -blockReward E block, blockReward E block⟩ : Line).item E

/-- The balances that the reversal of a digest block undoes, those of the wallets `K`. -/
def unscaling (E : Env) (K : Finset Address) (b : Book) : Item where
  opens := ∅
  effect a := if a ∈ K then ⟨E.undoRollBack (b a).balance - (b a).balance, 0, 0, 0⟩ else 0
  excess _ _ := 0

/-- What the reversal of a block enters, with the wallets `K`, the accounts `b` and the times `t`. -/
def unwinding (E : Env) (block : PbBlock) (miner : Address) (K : Finset Address) (b : Book) (t : Times) :
    List Item :=
  if block.isDigestBlock then [unscaling E K b, unreward E block miner]
  else unreward E block miner :: block.transactions.map (Transaction.reversal E block.roundNum miner) ++
    (block.deals.flatMap (undoLines E block.roundNum miner)).map (Line.item E) ++
    unpairsItems E t block.chPrPair

theorem entered_undoDigestReset (h : undoDigestReset E order s = (.ok (), s')) :
    Entered E (unscaling E s.keys s.book) s s' := by
  have hscaled := (undoDigestReset_spec order s).ok h
  refine ⟨hscaled.keys.trans (Finset.union_empty _).symm, funext fun a => ?_, fun c hc => ?_⟩
  · rw [hscaled.book, Pi.add_apply, unscaling]
    dsimp only
    by_cases ha : a ∈ s.keys
    · rw [if_pos ((order.mem _ a).2 ha), if_pos ha]
      exact Account.ext (add_sub_cancel _ _).symm (add_zero _).symm (add_zero _).symm (add_zero _).symm
    · rw [if_neg fun h => ha ((order.mem _ a).1 h), if_neg ha, add_zero]
  · exact (hscaled.drift c (hscaled.keys ▸ hc)).trans (add_zero _).symm

/-- **What a reversal that returns has entered**, the transactions having been applied once. -/
theorem unwound_of_reverted (htaken : block.isDigestBlock = false → ∀ tx ∈ block.transactions, Taken E tx)
    (h : revertWalletStates E block miner order s = (.ok (), s')) :
    Steps (Entered E) (unwinding E block miner s.keys s.book s.times) s s' := by
  obtain ⟨_, s₀, hget, hrest⟩ := bind_ok h
  have hgot : Spec (getWalletByAddress miner) s (fun _ s₀ => s₀ = s ∧ miner ∈ s.keys) fun _ _ => True :=
    spec_getWallet.2 (ite_intro (fun hm => ⟨rfl, hm⟩) fun _ => trivial)
  obtain ⟨rfl, hm⟩ := hgot.ok hget
  unfold unwinding
  by_cases hd : block.isDigestBlock = true
  · rw [if_pos hd] at hrest ⊢
    obtain ⟨_, s₁, hundo, hreward⟩ := bind_ok hrest
    obtain rfl : afterUnreward E miner (blockReward E block) s₁ = s' := congrArg Prod.snd hreward
    exact .cons (entered_undoDigestReset hundo) (.single (entered_afterUnreward _))
  · rw [if_neg hd] at hrest ⊢
    obtain ⟨_, s₁, hreward, hrest⟩ := bind_ok hrest
    obtain rfl : afterUnreward E miner (blockReward E block) s₀ = s₁ := congrArg Prod.snd hreward
    obtain ⟨_, s₂, htxs, hrest⟩ := bind_ok hrest
    obtain ⟨_, s₃, hdeals, hpairs⟩ := bind_ok hrest
    have hm₁ : miner ∈ (afterUnreward E miner (blockReward E block) s₀).keys := Finset.mem_insert_self _ _
    have h₂ := allReverted_of_steps (htaken (Bool.not_eq_true _ ▸ hd)) hm₁ (each_ok htxs)
    have h₃ := deals_refunded (h₂.shift.keys ▸ hm₁) (each_ok hdeals)
    have h₄ : Steps (PairRetracted E) block.chPrPair s₃ s' :=
      (each_ok hpairs).mono fun x _ s s' hx => (revertPair_spec x s).ok hx
    have htimes : s₃.times = s₀.times := by
      have hrest₃ : s₃.rest.2 = s₀.rest.2 := by
        rw [(refunded_rest h₃).1, h₂.rest_snd, rest_afterUnreward]
      exact congrArg Prod.fst hrest₃
    have hbegun := (Steps.single (entered_afterUnreward (blockReward E block))).append h₂.entered
    exact (hbegun.append (refunded_entered h₃)).append (htimes ▸ retracted_entered h₄)

end WalletManager
end Timbre
