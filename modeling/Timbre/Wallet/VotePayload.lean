/-
  When the entries of a vote transaction fit the wallet of the voter.

  `ValidateVote` holds every entry against the wallet as it is before the transaction, and
  `ApplyVote` against what the entries before it have left.  **`voteAgrees_iff` says for which
  payloads both come to the same.**
-/
import Timbre.Wallet.Readiness
import Timbre.Wallet.Undo

namespace Timbre

open Call

/-! ## What the entries add up to -/

namespace Transaction

/-- What an entry gives to the candidate `c`; an unvote takes it back. -/
def gives (c : Address) (votedCand : String) : ℤ :=
  match parseVote votedCand with
  | .ok (.vote, percent, candID) => if candID = c then percent else 0
  | .ok (.unvote, percent, candID) => if candID = c then -percent else 0
  | .error _ => 0

/-- What an entry takes from what is left to vote. -/
def takes (votedCand : String) : ℤ :=
  match parseVote votedCand with
  | .ok (.vote, percent, _) => percent
  | .ok (.unvote, percent, _) => -percent
  | .error _ => 0

/-- The entry is a vote for `c`. -/
def VotesFor (c : Address) (votedCand : String) : Prop :=
  ∃ percent, parseVote votedCand = .ok (.vote, percent, c)

end Transaction

open Transaction

namespace WalletManager

/-- An entry fits what the entries `before` leave of the wallet: a vote asks for no more than is
    left to vote, an unvote for no more than the candidate has. -/
inductive FitsAfter (vWallet : Wallet) (before : List String) (votedCand : String) : Prop
  | vote {percent : ℤ} {candID : Address} :
      parseVote votedCand = .ok (.vote, percent, candID) →
      percent ≤ vWallet.voteLeft - (before.map takes).sum → FitsAfter vWallet before votedCand
  | unvote {percent : ℤ} {candID : Address} :
      parseVote votedCand = .ok (.unvote, percent, candID) →
      (candID ∈ vWallet.voted.keys ∨ ∃ s ∈ before, VotesFor candID s) →
      percent ≤ vWallet.voted.get candID + (before.map (gives candID)).sum →
      FitsAfter vWallet before votedCand

/-- Every entry fits what the entries before it leave. -/
def FitsInTurn (vWallet : Wallet) (votedCands : List String) : Prop :=
  ∀ before votedCand after, votedCands = before ++ votedCand :: after → FitsAfter vWallet before votedCand

variable {E : Env} {bRound fee : Int64} {wm wm' : WalletManager} {tx : Transaction} {w : Wallet}
  {s : String} {before cands : List String}

theorem fits_nil : FitsAfter w [] s ↔ EntryValid w s := by
  constructor
  · rintro (⟨h, hle⟩ | ⟨h, hmem, hle⟩)
    · exact .vote h (by simpa using hle)
    · exact .unvote h (by simpa using hmem) (by simpa using hle)
  · rintro (⟨h, hle⟩ | ⟨h, hmem, hle⟩)
    · exact .vote h (by simpa using hle)
    · exact .unvote h (.inl hmem) (by simpa using hle)

theorem voteLeft_afterEntry (h : EntryValid w s) : (w.afterEntry s).voteLeft = w.voteLeft - takes s := by
  rcases h with ⟨h, -⟩ | ⟨h, hmem, -⟩
  · simp only [Wallet.afterEntry, takes, h, Wallet.subVoteLeft, Wallet.executeVote]
    split_ifs <;> rfl
  · simp only [Wallet.afterEntry, takes, h, Wallet.addVoteLeft, Wallet.executeUnvote, if_pos hmem]
    split_ifs <;> dsimp only <;> omega

theorem get_afterEntry (h : EntryValid w s) (c : Address) :
    (w.afterEntry s).voted.get c = w.voted.get c + gives c s := by
  rcases h with @⟨p, d, h, -⟩ | @⟨p, d, h, hmem, -⟩
  · simp only [Wallet.afterEntry, gives, h, Wallet.subVoteLeft, Wallet.voted_executeVote, Store.get_set,
      Function.update_apply]
    by_cases hc : c = d
    · rw [hc, if_pos rfl, if_pos rfl]
    · rw [if_neg hc, if_neg (Ne.symm hc), add_zero]
  · simp only [Wallet.afterEntry, gives, h, Wallet.addVoteLeft, Wallet.get_voted_executeUnvote,
      Function.update_apply]
    by_cases hc : c = d
    · rw [hc, if_pos rfl, if_pos rfl, sub_eq_add_neg]
    · rw [if_neg hc, if_neg (Ne.symm hc), add_zero]

/-- An unvote deletes no candidate for good. -/
theorem keys_executeUnvote {p : ℤ} {c : Address} (h : c ∈ w.voted.keys) :
    (w.executeUnvote p c).voted.keys = w.voted.keys := by
  have hdelete : insert c (w.voted.keys.erase c) = w.voted.keys := Finset.insert_erase h
  simp only [Wallet.executeUnvote, if_pos h]
  split_ifs
  · exact hdelete
  · exact Finset.insert_eq_of_mem h

theorem mem_afterEntry (h : EntryValid w s) (c : Address) :
    c ∈ (w.afterEntry s).voted.keys ↔ c ∈ w.voted.keys ∨ VotesFor c s := by
  rcases h with @⟨p, d, h, -⟩ | @⟨p, d, h, hmem, -⟩
  · have hvotes : VotesFor c s ↔ c = d := by simp [VotesFor, h, eq_comm]
    simp only [Wallet.afterEntry, h, Wallet.subVoteLeft, Wallet.voted_executeVote, Store.keys_set,
      Finset.mem_insert]
    rw [hvotes, or_comm]
  · have hvotes : ¬ VotesFor c s := by simp [VotesFor, h]
    simp only [Wallet.afterEntry, h, Wallet.addVoteLeft]
    rw [keys_executeUnvote hmem, or_iff_left hvotes]

/-- An entry that has been applied counts as one of those before. -/
theorem fits_afterEntry {t : String} (h : EntryValid w s) :
    FitsAfter (w.afterEntry s) before t ↔ FitsAfter w (s :: before) t := by
  have hleft := voteLeft_afterEntry h
  have hmem : ∀ c, (c ∈ (w.afterEntry s).voted.keys ∨ ∃ u ∈ before, VotesFor c u) ↔
      c ∈ w.voted.keys ∨ ∃ u ∈ s :: before, VotesFor c u := by
    intro c
    rw [mem_afterEntry h, or_assoc]
    simp
  constructor
  · rintro (⟨ht, hle⟩ | @⟨p, c, ht, hkey, hle⟩)
    · refine .vote ht ?_
      rw [List.map_cons, List.sum_cons]
      omega
    · refine .unvote ht ((hmem c).1 hkey) ?_
      rw [get_afterEntry h] at hle
      rw [List.map_cons, List.sum_cons]
      omega
  · rintro (⟨ht, hle⟩ | @⟨p, c, ht, hkey, hle⟩)
    · refine .vote ht ?_
      rw [List.map_cons, List.sum_cons] at hle
      omega
    · refine .unvote ht ((hmem c).2 hkey) ?_
      rw [get_afterEntry h]
      rw [List.map_cons, List.sum_cons] at hle
      omega

/-- **The entries are valid one after the other exactly if each fits in its turn.** -/
theorem entriesValid_iff : ∀ {cands : List String} {w : Wallet}, EntriesValid w cands ↔ FitsInTurn w cands
  | [], w => by
    refine iff_of_true trivial fun before s after h => ?_
    simp at h
  | s :: cands, w => by
    have ih := fun w => @entriesValid_iff cands w
    constructor
    · rintro ⟨hs, hcands⟩ before t after h
      cases before with
      | nil =>
        obtain ⟨rfl, rfl⟩ := List.cons.inj h
        exact fits_nil.2 hs
      | cons u before =>
        obtain ⟨rfl, rfl⟩ := List.cons.inj h
        exact (fits_afterEntry hs).1 ((ih _).1 hcands before t after rfl)
    · intro h
      have hs : EntryValid w s := fits_nil.1 (h [] s cands rfl)
      refine ⟨hs, (ih _).2 fun before t after hcands => (fits_afterEntry hs).2 ?_⟩
      exact h (s :: before) t after (congrArg (s :: ·) hcands)

/-! ## The two calls -/

/-- What `ApplyVote` does when the vote has been validated. -/
def castEntries (E : Env) (vote : Transaction) (transactionFee : Int64) : WM Unit := do
  checkAndPutWalletByAddress vote.senderId
  setNonce vote.senderId (· + 1)
  subBalance E vote.senderId transactionFee
  each (applyEntry E vote.senderId) (votedCands E vote)

theorem applyVote_eq (E : Env) (vote : Transaction) (transactionFee bRound : Int64) :
    applyVote E vote transactionFee bRound =
      validateVote E vote bRound >>= fun _ => castEntries E vote transactionFee := rfl

/-- The vote is signed and can be decoded, and its nonce and its fee are right. -/
structure Payable (E : Env) (bRound : Int64) (tx : Transaction) (wm : WalletManager) : Prop where
  sign : E.hasValidSign tx = none
  formed : VoteFormed E tx
  nonce : tx.nonce = (wm.wallet tx.senderId).nonce + 1
  fee : txFee E tx bRound ≤ (wm.wallet tx.senderId).balance

/-- `ValidateVote` accepts exactly the votes that can be paid and applied, entry by entry; and an
    error of `ApplyVote` leaves the wallets as they are. -/
structure VoteAgrees (E : Env) (bRound fee : Int64) (tx : Transaction) (wm : WalletManager) : Prop where
  accepts : Returns (validateVote E tx bRound) wm ↔
    Payable E bRound tx wm ∧ Returns (castEntries E tx fee) wm
  atomic : ∀ e wm', applyVote E tx fee bRound wm = (.error e, wm') → ∀ a, wm'.wallet a = wm.wallet a

theorem validateVote_returns : Returns (validateVote E tx bRound) wm ↔
    Payable E bRound tx wm ∧ ∀ s ∈ votedCands E tx, FitsAfter (wm.wallet tx.senderId) [] s := by
  have hspec := (validateVote_spec E bRound tx wm).and (validateVote_decides E bRound tx wm)
  constructor
  · rintro ⟨_, wm', h⟩
    obtain ⟨⟨-, hvalid⟩, hformed⟩ := hspec.ok h
    exact ⟨⟨hvalid.sign, hformed, hvalid.nonce, hvalid.fee⟩, fun s hs => fits_nil.2 (hvalid.entries s hs)⟩
  · rintro ⟨hpay, hfits⟩
    have hvalid : Votable E bRound tx wm :=
      ⟨hpay.sign, hpay.nonce, hpay.fee, fun s hs => fits_nil.1 (hfits s hs)⟩
    exact hspec.returns_of fun _ _ h => h.2 ⟨hpay.formed, hvalid⟩

/-- The entries succeed exactly if each fits in its turn; if one fails, the nonce has changed. -/
theorem castEntries_spec (wm : WalletManager) : Spec (castEntries E tx fee) wm
    (fun _ _ => FitsInTurn (wm.wallet tx.senderId) (votedCands E tx))
    fun _ wm' => ¬ FitsInTurn (wm.wallet tx.senderId) (votedCands E tx) ∧
      (wm'.wallet tx.senderId).nonce = (wm.wallet tx.senderId).nonce + 1 := by
  have hs : tx.senderId ∈ (wm.put tx.senderId).keys := by simp
  simp only [castEntries, spec_bind]
  rw [spec_checkAndPut, spec_setNonce, spec_subBalance]
  have h₁ := move_incNonce (E := E) hs
  have h₂ := h₁.trans (move_debit (h₁.mem hs) fee)
  have hframe : Frame ∅ ∅ (wm.put tx.senderId) (((wm.put tx.senderId).modifyWallet tx.senderId fun w =>
      { w with nonce := w.nonce + 1 }).debit tx.senderId E fee) :=
    (frame_nonce _ tx.senderId (· + 1)).trans (frame_debit _ _ _)
  have hsame := hframe.votes tx.senderId (Set.notMem_empty _)
  refine ((applyEntries_votes tx.senderId (votedCands E tx) _).and
    (applyEntries_spec (h₂.mem hs) (votedCands E tx))).mono (fun _ _ h => ?_) ?_
  · exact entriesValid_iff.1 (entriesValid_congr hsame h.1)
  · rintro _ wm' ⟨hnot, before, s, after, -, hmove, -⟩
    refine ⟨fun h => hnot (entriesValid_congr hsame.symm (entriesValid_iff.2 h)), ?_⟩
    have hbook := congrArg Account.nonce (congrFun (h₂.trans hmove).book tx.senderId)
    have hnonce : (wm'.book tx.senderId).nonce = (wm.book tx.senderId).nonce + 1 := by
      simpa [nonce_bump, nonce_pay, nonce_ballots] using hbook
    exact hnonce

theorem castEntries_returns : Returns (castEntries E tx fee) wm ↔
    FitsInTurn (wm.wallet tx.senderId) (votedCands E tx) := by
  refine ⟨fun ⟨_, _, h⟩ => (castEntries_spec wm).ok h, fun h => ?_⟩
  exact (castEntries_spec wm).returns_of fun _ _ h' => h'.1 h

theorem nonce_ne (n : UInt64) : n + 1 ≠ n := by
  intro h
  exact absurd (add_left_cancel (h.trans (add_zero n).symm)) (by decide)

/-- An application that fails changes nothing, exactly if entries that all fit the wallet as it is
    also fit in turn. -/
theorem applyVote_atomic_iff :
    (∀ e wm', applyVote E tx fee bRound wm = (.error e, wm') → ∀ a, wm'.wallet a = wm.wallet a) ↔
      (Payable E bRound tx wm → (∀ s ∈ votedCands E tx, FitsAfter (wm.wallet tx.senderId) [] s) →
        FitsInTurn (wm.wallet tx.senderId) (votedCands E tx)) := by
  rw [applyVote_eq]
  constructor
  · intro h hpay hfits
    by_contra hturn
    obtain ⟨_, wm₁, hvalidate⟩ := validateVote_returns.2 ⟨hpay, hfits⟩
    obtain ⟨rfl, -⟩ := (validateVote_spec E bRound tx wm).ok hvalidate
    rcases hcast : castEntries E tx fee (wm.put tx.senderId) with ⟨e | _, wm'⟩
    · have hsame := h e wm' ((bind_of_ok hvalidate).trans hcast) tx.senderId
      have hnonce := ((castEntries_spec _).error hcast).2
      rw [hsame] at hnonce
      exact nonce_ne _ hnonce.symm
    · exact hturn ((castEntries_spec (wm.put tx.senderId)).ok hcast)
  · intro h e wm' hfail a
    rcases bind_error_iff.1 hfail with hvalidate | ⟨_, wm₁, hvalidate, hentries⟩
    · exact congrFun ((validateVote_spec E bRound tx wm).error hvalidate).wallet a
    · obtain ⟨hpay, hfits⟩ := validateVote_returns.1 ⟨_, _, hvalidate⟩
      obtain ⟨rfl, -⟩ := (validateVote_spec E bRound tx wm).ok hvalidate
      exact absurd (h hpay hfits) ((castEntries_spec _).error hentries).1

/-- **The validation of a vote agrees with its application exactly if the entries of a vote that
    can be paid either fit both the wallet as it is and in turn, or neither.** -/
theorem voteAgrees_iff (E : Env) (bRound fee : Int64) (tx : Transaction) (wm : WalletManager) :
    VoteAgrees E bRound fee tx wm ↔ (Payable E bRound tx wm →
      ((∀ s ∈ votedCands E tx, FitsAfter (wm.wallet tx.senderId) [] s) ↔
        FitsInTurn (wm.wallet tx.senderId) (votedCands E tx))) := by
  constructor
  · rintro h hpay
    have haccepts := h.accepts
    rw [validateVote_returns, castEntries_returns] at haccepts
    exact ⟨fun hfits => (haccepts.1 ⟨hpay, hfits⟩).2, fun hturn => (haccepts.2 ⟨hpay, hturn⟩).2⟩
  · intro h
    refine ⟨?_, applyVote_atomic_iff.2 fun hpay => (h hpay).1⟩
    rw [validateVote_returns, castEntries_returns]
    exact ⟨fun hv => ⟨hv.1, (h hv.1).1 hv.2⟩, fun hv => ⟨hv.1, (h hv.1).2 hv.2⟩⟩

/-- Two votes that each ask for more than half. -/
def overVote : Transaction := .simple .vote "a" 1 0 "" "+60|b,+60|c"

/-- Each of the votes fits a new wallet; both together do not. -/
theorem not_voteAgrees : ¬ VoteAgrees Env.simple 2 1 overVote (newWalletManager "m") := by
  intro h
  have hvalidated : Returns (validateVote Env.simple overVote 2) (newWalletManager "m") :=
    ⟨(), _, ok_of_fst (by decide +kernel)⟩
  obtain ⟨-, ⟨⟩, _, hcast⟩ := h.accepts.1 hvalidated
  have hfails : (castEntries Env.simple overVote 1 (newWalletManager "m")).1 ≠ .ok () := by decide +kernel
  exact hfails (congrArg Prod.fst hcast)

end WalletManager
end Timbre
