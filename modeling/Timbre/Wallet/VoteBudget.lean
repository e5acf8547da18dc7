/-
  The hundred percent that a wallet has to vote with.

  A vote transaction moves percentages between the candidates of the voter and what is left to
  vote, one entry at a time, and an entry that fails ends the call where it stands.  **A new wallet
  stays in its budget after any calls, whether they return or fail** (`inBudget_afterVotes`).
-/
import Timbre.Wallet.Votes
import Timbre.Wallet.VotePayload

namespace Timbre

/-- The votes of a wallet and what is left make a hundred percent, and nothing is negative. -/
structure Wallet.InBudget (w : Wallet) : Prop where
  total : w.voteLeft + ∑ c ∈ w.voted.keys, w.voted.get c = 100
  nonneg : ∀ c ∈ w.voted.keys, 0 ≤ w.voted.get c
  left : 0 ≤ w.voteLeft ∧ w.voteLeft ≤ 100

namespace WalletManager

open Call Transaction

/-- A call of `ApplyVote`. -/
structure VoteCall where
  vote : Transaction
  transactionFee : Int64
  bRound : Int64

/-- The state that a call leaves, whether it returns or fails. -/
def afterVote (E : Env) (wm : WalletManager) (call : VoteCall) : WalletManager :=
  (applyVote E call.vote call.transactionFee call.bRound wm).2

variable {E : Env} {bRound fee : Int64} {wm wm' : WalletManager} {a voter : Address} {tx : Transaction}
  {w : Wallet} {s : String} {P : Wallet → Prop}

/-! ## The budget of one wallet -/

/-- The votes for all candidates are those of the candidates in the map. -/
theorem inBudget_iff : w.InBudget ↔ w.account.Sound ∧ 0 ≤ w.voteLeft := by
  have hrest : ∀ {S : Finset Address}, (∀ c ∉ S, w.voted.get c = 0) →
      ∑ c ∈ S, w.voted.get c = ∑ c ∈ w.voted.keys, w.voted.get c := by
    intro S hS
    have hkeys : ∑ c ∈ w.voted.keys, w.voted.get c = ∑ c ∈ S ∪ w.voted.keys, w.voted.get c :=
      Finset.sum_subset Finset.subset_union_right fun c _ hc => w.voted.get_absent c hc
    rw [hkeys]
    exact Finset.sum_subset Finset.subset_union_left fun c _ hc => hS c hc
  constructor
  · intro h
    refine ⟨⟨fun c => ?_, w.voted.keys, w.voted.get_absent, by rw [add_comm]; exact h.total⟩, h.left.1⟩
    by_cases hc : c ∈ w.voted.keys
    · exact h.nonneg c hc
    · exact (w.voted.get_absent c hc).ge
  · rintro ⟨⟨hnonneg, S, hS, hsum⟩, hleft⟩
    have hsum' : ∑ c ∈ S, w.voted.get c + w.voteLeft = 100 := hsum
    rw [hrest hS] at hsum'
    have hvotes : 0 ≤ ∑ c ∈ w.voted.keys, w.voted.get c := Finset.sum_nonneg fun c _ => hnonneg c
    exact ⟨by omega, fun c _ => hnonneg c, hleft, by omega⟩

/-- An entry moves its percentage between what is left to vote and its candidate. -/
theorem sound_afterEntry (h : EntryValid w s) (hw : w.account.Sound) : (w.afterEntry s).account.Sound := by
  have hmoved : ∀ c p, parseVote s = .ok (.vote, p, c) ∨ parseVote s = .ok (.unvote, -p, c) →
      0 ≤ w.voted.get c + p → (w.afterEntry s).account.Sound := by
    intro c p hs hp
    refine (Account.Sound.ballot (c := c) (p := p) hw hp).congr ?_ ?_
    · funext b
      have hb := get_afterEntry h b
      rcases hs with hs | hs <;>
      · simp only [gives, hs, neg_neg] at hb
        simpa [Wallet.account, Pi.single_apply, eq_comm] using hb
    · have hleft := voteLeft_afterEntry h
      rcases hs with hs | hs <;>
      · simp only [takes, hs, neg_neg] at hleft
        simpa [Wallet.account, sub_eq_add_neg] using hleft
  rcases h with @⟨p, c, hs, -⟩ | @⟨p, c, hs, -, hle⟩
  · exact hmoved c p (.inl hs) (Int.add_nonneg (hw.nonneg c) (parseVote_percent hs))
  · refine hmoved c (-p) (.inr ?_) (by omega)
    rwa [neg_neg]

theorem voteInvariant_inBudget : VoteInvariant Wallet.InBudget where
  new := inBudget_iff.2 ⟨sound_newWallet, by decide⟩
  same {w w'} h hw := by
    obtain ⟨hvoted, hleft⟩ := h
    exact ⟨hvoted ▸ hleft ▸ hw.total, hvoted ▸ hw.nonneg, hleft ▸ hw.left⟩
  entry {w s} h hw := by
    obtain ⟨hsound, hleft⟩ := inBudget_iff.1 hw
    refine inBudget_iff.2 ⟨sound_afterEntry h hsound, ?_⟩
    rw [voteLeft_afterEntry h]
    rcases h with ⟨hs, hle⟩ | ⟨hs, -, -⟩
    · simp only [takes, hs]
      omega
    · have := parseVote_percent hs
      simp only [takes, hs]
      omega

/-! ## Calls that return or fail -/

/-- An entry keeps a property of the votes; one that fails changes nothing. -/
theorem applyEntry_keeps (hP : VoteInvariant P) (voter : Address) (s : String) (hw : P (wm.wallet a)) :
    Spec (applyEntry E voter s) wm (fun _ wm' => P (wm'.wallet a)) fun _ wm' => wm' = wm := by
  have hframe : Spec (applyEntry E voter s) wm (fun _ wm' => Frame {voter} ∅ wm wm') _ :=
    applyEntry_frame (Set.mem_singleton voter) s wm
  refine (hframe.and (applyEntry_votes voter s wm)).mono ?_ fun _ _ h => h.1
  rintro _ wm' ⟨hothers, hvalid, hvoter⟩
  by_cases ha : a = voter
  · subst ha
    exact hP.same hvoter.symm (hP.entry hvalid hw)
  · exact hP.same (hothers.votes a ha).symm hw

/-- The entries keep a property of the votes, up to one that fails. -/
theorem applyEntries_keeps (hP : VoteInvariant P) (voter : Address) : ∀ (cands : List String)
    (wm : WalletManager), P (wm.wallet a) →
    Spec (each (applyEntry E voter) cands) wm (fun _ wm' => P (wm'.wallet a)) fun _ wm' => P (wm'.wallet a)
  | [], _, hw => hw
  | s :: cands, wm, hw => by
    rw [spec_each_cons]
    refine (applyEntry_keeps hP voter s hw).mono ?_ ?_
    · intro _ wm₁ h₁
      exact applyEntries_keeps hP voter cands wm₁ h₁
    · rintro _ wm' rfl
      exact hw

/-- `ApplyVote` keeps a property of the votes, also when it fails halfway. -/
theorem applyVote_keeps (hP : VoteInvariant P) (hw : P (wm.wallet a)) :
    Spec (applyVote E tx fee bRound) wm (fun _ wm' => P (wm'.wallet a)) fun _ wm' => P (wm'.wallet a) := by
  simp only [applyVote, spec_bind]
  refine (validateVote_spec E bRound tx wm).mono ?_ fun _ wm' h => h.wallet ▸ hw
  rintro _ _ ⟨rfl, -⟩
  rw [spec_checkAndPut, spec_setNonce, spec_subBalance]
  refine applyEntries_keeps hP _ _ _ (hP.same ?_ hw)
  have hpaid : Frame ∅ ∅ ((wm.put tx.senderId).put tx.senderId) _ :=
    (frame_nonce _ tx.senderId (· + 1)).trans (frame_debit (E := E) _ tx.senderId fee)
  exact (hpaid.votes a (Set.notMem_empty _)).symm

theorem afterVote_keeps (hP : VoteInvariant P) (hw : P (wm.wallet a)) (call : VoteCall) :
    P ((afterVote E wm call).wallet a) := by
  have hspec : Spec (applyVote E call.vote call.transactionFee call.bRound) wm
      (fun _ wm' => P (wm'.wallet a)) fun _ wm' => P (wm'.wallet a) := applyVote_keeps hP hw
  unfold afterVote
  rcases hcall : applyVote E call.vote call.transactionFee call.bRound wm with ⟨e | _, wm'⟩
  · exact hspec.error hcall
  · exact hspec.ok hcall

/-- **A property of the votes that every entry keeps is kept by all calls**, in whatever order they
    return or fail. -/
theorem afterVotes_keeps (hP : VoteInvariant P) (calls : List VoteCall) (hw : P (wm.wallet a)) :
    P ((calls.foldl (afterVote E) wm).wallet a) := by
  induction calls generalizing wm with
  | nil => exact hw
  | cons call calls ih => exact ih (afterVote_keeps hP hw call)

/-- **A new wallet stays in its budget.** -/
theorem inBudget_afterVotes (E : Env) (hnew : wm.wallet a = newWallet) (calls : List VoteCall) :
    ((calls.foldl (afterVote E) wm).wallet a).InBudget := by
  refine afterVotes_keeps voteInvariant_inBudget calls ?_
  rw [hnew]
  exact voteInvariant_inBudget.new

/-- A vote, an unvote down to zero, and a vote whose second entry finds too little left. -/
theorem inBudget_afterVotes_three :
    (([⟨.simple .vote "m" 1 0 "" "+60|b", 1, 2⟩, ⟨.simple .vote "m" 2 0 "" "-60|b", 1, 2⟩,
      ⟨.simple .vote "m" 3 0 "" "+60|b,+60|c", 1, 2⟩].foldl (afterVote Env.simple)
        (newWalletManager "m")).wallet "m").InBudget :=
  inBudget_afterVotes Env.simple rfl _

end WalletManager
end Timbre
