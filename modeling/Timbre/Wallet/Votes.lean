/-
  What the votes of all wallets keep.

  Only the entries of vote transactions change the votes of a wallet.  **A property of the
  votes that every entry keeps therefore holds in every state of a run**
  (`Run.votes_invariant`).
-/
import Timbre.Wallet.Keeps
import Timbre.Wallet.Run

namespace Timbre
namespace WalletManager

open Call

variable {E : Env} {bRound : Int64} {wm wm' wm₁ : WalletManager} {a miner : Address} {tx : Transaction}
  {block : PbBlock} {order : MapOrder} {ε α β : Type} {es : List Event}

/-! ## Calls that change no votes -/

/-- The call changes no votes. -/
def KeepsVotes (c : Call WalletManager ε α) : Prop :=
  ∀ wm, Spec c wm (fun _ wm' => Frame ∅ Set.univ wm wm') fun _ _ => True

theorem ignoresMoney_votes : Wallet.IgnoresMoney fun w => (w.voted, w.voteLeft) := fun _ _ _ _ _ _ _ => rfl

theorem frame_of_view (h : wm'.view (fun w => (w.voted, w.voteLeft)) = wm.view fun w => (w.voted, w.voteLeft)) :
    Frame ∅ Set.univ wm wm' :=
  ⟨fun a _ => Prod.mk.inj (congrFun h a), fun a ha => absurd (Set.mem_univ a) ha⟩

theorem Keeps.votes {c : WM α} (h : Keeps (fun w => (w.voted, w.voteLeft)) c) : KeepsVotes c := fun wm =>
  (h wm).mono (fun _ _ h => frame_of_view h) fun _ _ h => h

/-- A registration in a genesis block. -/
theorem keepsVotes_applyDelRegTxForGenesis (tx : Transaction) :
    Keeps (fun w => (w.voted, w.voteLeft)) (applyDelRegTxForGenesis E tx bRound) :=
  (keeps_checkAndPut _).bind fun _ => (keeps_checkedForGenesis tx).bind fun _ => (keeps_getWallet _).bind fun _ =>
    (keeps_registeredForGenesis _).bind fun _ => Keeps.bind (keeps_modifyWallet fun _ => rfl) fun _ =>
      keeps_modifyWallet fun _ => rfl

theorem keepsVotes_applyGenesis (block : PbBlock) : KeepsVotes (applyGenesis E block) :=
  Keeps.votes <| (keeps_checkAndPut _).bind fun _ => Keeps.bind (keeps_modifyWallet fun _ => rfl) fun _ =>
    (Keeps.each (fun tx => keepsVotes_applyDelRegTxForGenesis tx) _).bind fun _ =>
      keeps_giveBlockReward ignoresMoney_votes block _

/-! ## Invariants -/

/-- A property of the votes of a wallet that every entry of a vote transaction keeps. -/
structure VoteInvariant (P : Wallet → Prop) : Prop where
  new : P newWallet
  same : ∀ {w w' : Wallet}, w.SameVotes w' → P w → P w'
  entry : ∀ {w : Wallet} {s : String}, EntryValid w s → P w → P (w.afterEntry s)

variable {P : Wallet → Prop}

theorem Frame.holds (h : Frame ∅ Set.univ wm wm') (hP : VoteInvariant P) (hw : ∀ a, P (wm.wallet a)) (a : Address) :
    P (wm'.wallet a) := hP.same (h.votes a (Set.notMem_empty a)).symm (hw a)

theorem applyEntries_holds (hP : VoteInvariant P) (voter : Address) : ∀ (cands : List String)
    (wm : WalletManager), P (wm.wallet voter) →
    Spec (each (applyEntry E voter) cands) wm (fun _ wm' => P (wm'.wallet voter)) fun _ _ => True
  | [], _, hw => hw
  | s :: cands, wm, hw => by
    rw [spec_each_cons]
    refine (applyEntry_votes voter s wm).mono (fun _ wm₁ h₁ => ?_) fun _ _ _ => trivial
    exact applyEntries_holds hP voter cands wm₁ (hP.same h₁.2.symm (hP.entry h₁.1 hw))

theorem applyVote_holds (hP : VoteInvariant P) (hw : P (wm.wallet tx.senderId)) :
    Spec (applyVote E tx (txFee E tx bRound) bRound) wm (fun _ wm' => P (wm'.wallet tx.senderId))
      fun _ _ => True := by
  simp only [applyVote, spec_bind]
  refine (validateVote_spec E bRound tx wm).mono ?_ fun _ _ _ => trivial
  rintro _ _ ⟨rfl, -⟩
  rw [spec_checkAndPut, spec_setNonce, spec_subBalance]
  refine applyEntries_holds hP _ _ _ (hP.same ?_ hw)
  have hbefore : Frame ∅ ∅ (((wm.put tx.senderId).put tx.senderId)) _ :=
    (frame_nonce _ tx.senderId (· + 1)).trans (frame_debit (E := E) _ tx.senderId (txFee E tx bRound))
  exact (hbefore.votes tx.senderId (Set.notMem_empty _)).symm

theorem applyTransaction_holds (hP : VoteInvariant P) (hw : ∀ a, P (wm.wallet a)) :
    Spec (applyTransaction E miner bRound tx) wm (fun _ wm' => ∀ a, P (wm'.wallet a)) fun _ _ => True := by
  have hframed := applyTransaction_ready E bRound miner tx wm
  have hothers : ∀ wm', Framed tx wm wm' → ∀ a, ¬ (tx.type = .vote ∧ a = tx.senderId) → P (wm'.wallet a) :=
    fun wm' h a ha => hP.same (h.frame.votes a ha).symm (hw a)
  by_cases htype : tx.type = .vote
  · have hvoter : Spec (applyTransaction E miner bRound tx) wm (fun _ wm' => P (wm'.wallet tx.senderId))
        fun _ _ => True := by
      simp only [applyTransaction, htype, spec_bind, spec_addBalance, spec_modify]
      refine (applyVote_holds hP (hw _)).mono (fun _ wm' h => ?_) fun _ _ h => h
      have hfee : Frame ∅ ∅ wm' _ := frame_fee (E := E) wm' miner (txFee E tx bRound)
      exact hP.same (hfee.votes _ (Set.notMem_empty _)).symm h
    refine (hframed.and hvoter).mono (fun _ wm' h a => ?_) fun _ _ _ => trivial
    by_cases ha : a = tx.senderId
    · exact ha ▸ h.2
    · exact hothers wm' h.1.1 a fun h => ha h.2
  · exact hframed.mono (fun _ wm' h a => hothers wm' h.1 a fun h => htype h.1) fun _ _ _ => trivial

theorem holds_tidied (hP : VoteInvariant P) (hw : ∀ a, P (wm.wallet a)) (a : Address) :
    P (wm.tidied.wallet a) := by
  by_cases ha : a ∈ wm.tidied.keys
  · exact wallet_tidied ha ▸ hw a
  · exact wallet_absent ha ▸ hP.new

theorem applyBlock_holds (hP : VoteInvariant P) (hw : ∀ a, P (wm.wallet a))
    (h : applyBlock E block miner order wm = (.ok (), wm')) (a : Address) : P (wm'.wallet a) := by
  obtain ⟨t₀, t₁, t₂, h⟩ := applyBlock_parts h
  have h₀ := (frame_of_view ((keeps_giveBlockReward ignoresMoney_votes block miner).ok h.reward)).holds hP hw
  have h₁ : ∀ a, P (t₁.wallet a) :=
    Steps.invariant (I := fun s => ∀ a, P (s.wallet a)) (forEach_ok h.transactions) h₀
      fun _ _ _ _ hs hx => (applyTransaction_holds hP hs).ok hx
  have hdeals := Keeps.steps (keeps_applyDeal ignoresMoney_votes) (forEach_ok h.deals)
  have hpairs := Keeps.steps (keeps_applyPair ignoresMoney_votes) (forEach_ok h.pairs)
  have h₂ := (frame_of_view hdeals).holds hP h₁
  exact (frame_of_view hpairs).holds hP h₂ a

theorem applyDigestBlock_holds (hP : VoteInvariant P) (hw : ∀ a, P (wm.wallet a)) (hm : miner ∈ wm.keys)
    (h : applyDigestBlock E block miner order wm = (.ok (), wm')) (a : Address) : P (wm'.wallet a) := by
  have hview := view_applyDigestBlock ignoresMoney_votes hm h
  exact (frame_of_view hview).holds hP (holds_tidied hP hw) a

theorem Happens.holds {e : Event} (h : Happens E e wm wm') (hP : VoteInvariant P)
    (hw : ∀ a, P (wm.wallet a)) (a : Address) : P (wm'.wallet a) := by
  cases h with
  | @block block miner _ _ order h =>
    have hput : ∀ a, P ((wm.put miner).wallet a) := hw
    unfold checkAndUpdateWalletStates at h
    split_ifs at h with hg hd
    · exact ((keepsVotes_applyGenesis block wm).ok h).holds hP hw a
    · exact applyDigestBlock_holds hP hput (Finset.mem_insert_self _ _) h a
    · exact applyBlock_holds hP hput h a
  | outside => exact hw a

/-- **A property of the votes that every entry keeps holds of all wallets in every state of a
    run.** -/
theorem Run.votes_invariant (h : Run E es wm wm') (hP : VoteInvariant P) (hw : ∀ a, P (wm.wallet a)) :
    ∀ a, P (wm'.wallet a) :=
  Steps.invariant (I := fun wm => ∀ a, P (wm.wallet a)) h hw fun _ _ _ _ hs hx => hx.holds hP hs

end WalletManager
end Timbre
