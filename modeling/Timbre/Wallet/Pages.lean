/-
  What the transactions of a block find.

  A transaction reads the balance, the nonce and the votes of its sender, the candidates, and of a
  reported miner the flag and the record.  A page holds what is read, and every transaction leaves its
  effects on it (`Page.after`).  **Transactions are applied one after the other exactly if each of them
  is ready on the page that those before it leave** (`returns_applyTransactions_iff`), so that the first
  one that fails is known from the wallets before all of them.
-/
import Timbre.Wallet.Readiness

namespace Timbre

open Call

theorem Wallet.SameVotes.afterEntries : ∀ (cands : List String) {w w' : Wallet}, w.SameVotes w' →
    (cands.foldl Wallet.afterEntry w).SameVotes (cands.foldl Wallet.afterEntry w')
  | [], _, _, h => h
  | s :: cands, _, _, h => afterEntries cands (h.afterEntry s)

namespace WalletManager

/-- What the transactions of a block read. -/
structure Page where
  keys : Finset Address
  book : Book
  /-- the wallets of the voters, for their votes -/
  voter : Address → Wallet
  flag : Address → Bool
  candidate : Address → Prop
  rest : Rest

/-- What is read of the wallets. -/
def page (wm : WalletManager) : Page where
  keys := wm.keys
  book := wm.book
  voter := wm.wallet
  flag a := (wm.wallet a).isCandidate
  candidate a := a ∈ wm.executor.candidateState
  rest := wm.rest

namespace Page

variable (E : Env) (bRound : Int64) (miner : Address) (p : Page) (tx : Transaction)

/-- The page after a transaction. -/
def after : Page where
  keys := p.keys ∪ tx.touched
  book := p.book + tx.effect E bRound miner
  voter := if tx.type = .vote then
      Function.update p.voter tx.senderId ((votedCands E tx).foldl Wallet.afterEntry (p.voter tx.senderId))
    else p.voter
  flag := if tx.isCandidateTx then Function.update p.flag tx.senderId (tx.type = .becomeCandidate) else p.flag
  candidate := tx.candidatesAfter p.candidate
  rest := restAfter E tx p.rest

/-- The page after the reward of the miner. -/
def rewarded (reward : Int64) : Page := { p with book := p.book + Book.pay miner reward }

/-- The transaction is signed, comes in order, and its sender has the fee. -/
structure Pays : Prop where
  sign : E.hasValidSign tx = none
  nonce : tx.nonce = (p.book tx.senderId).nonce + 1
  fee : txFee E tx bRound ≤ (p.book tx.senderId).balance

/-- `ValidateVote` accepts the transaction. -/
structure VoteAccepted : Prop where
  type : tx.type = .vote
  formed : VoteFormed E tx
  pays : p.Pays E bRound tx
  entries : ∀ s ∈ votedCands E tx, EntryValid (p.voter tx.senderId) s

/-- The transaction can be applied. -/
inductive Ready : Prop
  | transfer : tx.type = .transfer → p.Pays E bRound tx →
      tx.price E bRound ≤ (p.book tx.senderId).balance → Ready
  | becomeCandidate : tx.type = .becomeCandidate → p.Pays E bRound tx → ¬ p.candidate tx.senderId → Ready
  | quitCandidate : tx.type = .quitCandidate → p.Pays E bRound tx → p.candidate tx.senderId → Ready
  | vote : p.VoteAccepted E bRound tx → EntriesValid (p.voter tx.senderId) (votedCands E tx) → Ready
  | podf (h : Header) : tx.type = .podf → PodfFormed E tx → p.Pays E bRound tx →
      reportedHeader E tx = some h → h.minerPublicKey ∈ p.keys → p.flag h.minerPublicKey = true →
      (p.rest.1 h.minerPublicKey).2 < h.height →
      reportedAt h.height (p.rest.1 h.minerPublicKey).1.reverse = false → Ready

/-- The headers of a PoDF are evidence against a candidate. -/
def accuses : Bool :=
  match E.podfPayload tx.payload with
  | .ok (some h1, some h2) =>
    h1.height = h2.height ∧ h1.hash ≠ h2.hash ∧ E.validateHeaderSign h1 = none ∧
      E.validateHeaderSign h2 = none ∧ h1.minerPublicKey ∈ p.keys ∧ p.flag h1.minerPublicKey = true
  | _ => false

/-- The addresses that get a wallet from a transaction before it fails. -/
def opensFailing : Finset Address :=
  match tx.type with
  | .transfer | .becomeCandidate | .quitCandidate => tx.touched
  | .vote => if E.hasValidSign tx = none then tx.touched else ∅
  | .podf => if E.hasValidSign tx = none ∧ p.accuses E tx then tx.touched else ∅
  | .other => ∅

/-- The transactions can be applied one after the other. -/
def AllReady : Page → List Transaction → Prop
  | _, [] => True
  | p, tx :: txs => p.Ready E bRound tx ∧ AllReady (p.after E bRound miner tx) txs

/-- The page after a list of transactions. -/
def afterAll (txs : List Transaction) : Page := txs.foldl (after E bRound miner) p

/-- The page says what is read of the wallets. -/
structure Describes (wm : WalletManager) : Prop where
  keys : wm.keys = p.keys
  book : wm.book = p.book
  votes : ∀ a, (wm.wallet a).SameVotes (p.voter a)
  flag : ∀ a, (wm.wallet a).isCandidate = p.flag a
  candidate : ∀ a, a ∈ wm.executor.candidateState ↔ p.candidate a
  rest : wm.rest = p.rest

end Page

variable {E : Env} {bRound : Int64} {wm wm' : WalletManager} {a miner : Address} {tx : Transaction}
  {txs : List Transaction} {p : Page}

theorem describes_page (wm : WalletManager) : wm.page.Describes wm :=
  ⟨rfl, rfl, fun _ => .refl _, fun _ => rfl, fun _ => Iff.rfl, rfl⟩

namespace Page.Describes

/-! ## What a transaction needs -/

section

variable (h : p.Describes wm)

include h

theorem nonce (a : Address) : (wm.wallet a).nonce = (p.book a).nonce := congrArg (fun b => (b a).nonce) h.book

theorem balance (a : Address) : (wm.wallet a).balance = (p.book a).balance :=
  congrArg (fun b => (b a).balance) h.book

theorem record (a : Address) : ((wm.wallet a).podfHeights, (wm.wallet a).bannedTill) = p.rest.1 a :=
  congrArg (fun r => r.1 a) h.rest

theorem entryValid_iff (s : String) : EntryValid (wm.wallet a) s ↔ EntryValid (p.voter a) s :=
  ⟨entryValid_congr (h.votes a), entryValid_congr (h.votes a).symm⟩

theorem entriesValid_iff (cands : List String) :
    EntriesValid (wm.wallet a) cands ↔ EntriesValid (p.voter a) cands :=
  ⟨entriesValid_congr (h.votes a), entriesValid_congr (h.votes a).symm⟩

theorem executable_iff : Executable E bRound tx wm ↔ p.Pays E bRound tx ∧
    (tx.type = .transfer → tx.price E bRound ≤ (p.book tx.senderId).balance) ∧
    (tx.type = .becomeCandidate → ¬ p.candidate tx.senderId) ∧
    (tx.type = .quitCandidate → p.candidate tx.senderId) := by
  constructor
  · intro hx
    refine ⟨⟨hx.sign, h.nonce _ ▸ hx.nonce, h.balance _ ▸ hx.fee⟩, fun ht => h.balance _ ▸ hx.transfer ht, ?_, ?_⟩
    · exact fun ht hc => hx.becomeCandidate ht ((h.candidate _).2 hc)
    · exact fun ht => (h.candidate _).1 (hx.quitCandidate ht)
  · rintro ⟨hpays, htransfer, hbecome, hquit⟩
    exact {
      sign := hpays.sign
      nonce := (h.nonce _).symm ▸ hpays.nonce
      fee := (h.balance _).symm ▸ hpays.fee
      transfer := fun ht => (h.balance _).symm ▸ htransfer ht
      becomeCandidate := fun ht hc => hbecome ht ((h.candidate _).1 hc)
      quitCandidate := fun ht => (h.candidate _).2 (hquit ht) }

theorem votable_iff : Votable E bRound tx wm ↔
    p.Pays E bRound tx ∧ ∀ s ∈ votedCands E tx, EntryValid (p.voter tx.senderId) s := by
  constructor
  · intro hx
    exact ⟨⟨hx.sign, h.nonce _ ▸ hx.nonce, h.balance _ ▸ hx.fee⟩,
      fun s hs => (h.entryValid_iff s).1 (hx.entries s hs)⟩
  · rintro ⟨hpays, hentries⟩
    exact ⟨hpays.sign, (h.nonce _).symm ▸ hpays.nonce, (h.balance _).symm ▸ hpays.fee,
      fun s hs => (h.entryValid_iff s).2 (hentries s hs)⟩

theorem voteAccepted_iff : p.VoteAccepted E bRound tx ↔
    tx.type = .vote ∧ VoteFormed E tx ∧ Votable E bRound tx wm := by
  rw [h.votable_iff]
  exact ⟨fun hx => ⟨hx.type, hx.formed, hx.pays, hx.entries⟩, fun hx => ⟨hx.1, hx.2.1, hx.2.2.1, hx.2.2.2⟩⟩

theorem opensFailing_eq : wm.page.opensFailing E tx = p.opensFailing E tx := by
  have hkeys : wm.page.keys = p.keys := h.keys
  have hflag : wm.page.flag = p.flag := funext h.flag
  unfold Page.opensFailing Page.accuses
  rw [hkeys, hflag]

/-- **A transaction is ready exactly if it is ready on the page.** -/
theorem ready_iff : WalletManager.Ready E bRound tx wm ↔ p.Ready E bRound tx := by
  constructor
  · intro hready
    cases hready with
    | plain hp hx =>
      obtain ⟨hpays, htransfer, hbecome, hquit⟩ := h.executable_iff.1 hx
      rcases hp with ht | ht | ht
      · exact .transfer ht hpays (htransfer ht)
      · exact .becomeCandidate ht hpays (hbecome ht)
      · exact .quitCandidate ht hpays (hquit ht)
    | vote ht hformed hx hentries =>
      exact .vote (h.voteAccepted_iff.2 ⟨ht, hformed, hx⟩) ((h.entriesValid_iff _).1 hentries)
    | podf hd ht hformed hx =>
      have hrecord := h.record hd.minerPublicKey
      exact .podf hd ht hformed ⟨hx.sign, h.nonce _ ▸ hx.nonce, h.balance _ ▸ hx.fee⟩ hx.header (h.keys ▸ hx.wallet)
        (h.flag _ ▸ hx.candidate) (hrecord ▸ hx.notBanned) (hrecord ▸ hx.notReported)
  · intro hready
    cases hready with
    | transfer ht hpays hprice =>
      exact .plain (.inl ht) (h.executable_iff.2 ⟨hpays, fun _ => hprice, by simp [ht], by simp [ht]⟩)
    | becomeCandidate ht hpays hcand =>
      exact .plain (.inr (.inl ht)) (h.executable_iff.2 ⟨hpays, by simp [ht], fun _ => hcand, by simp [ht]⟩)
    | quitCandidate ht hpays hcand =>
      exact .plain (.inr (.inr ht)) (h.executable_iff.2 ⟨hpays, by simp [ht], by simp [ht], fun _ => hcand⟩)
    | vote hacc hentries =>
      obtain ⟨ht, hformed, hx⟩ := h.voteAccepted_iff.1 hacc
      exact .vote ht hformed hx ((h.entriesValid_iff _).2 hentries)
    | podf hd ht hformed hpays hheader hkey hflag hban hrep =>
      rw [← h.record] at hban hrep
      exact .podf hd ht hformed ⟨hpays.sign, hheader, h.keys.symm ▸ hkey, (h.flag _).trans hflag,
        (h.nonce _).symm ▸ hpays.nonce, (h.balance _).symm ▸ hpays.fee, hban, hrep⟩

end

end Page.Describes

/-! ## The votes after a transaction -/

theorem applyEntries_ballots (voter : Address) : ∀ (cands : List String) (wm : WalletManager),
    Spec (each (applyEntry E voter) cands) wm
      (fun _ wm' => (wm'.wallet voter).SameVotes (cands.foldl Wallet.afterEntry (wm.wallet voter)))
      fun _ _ => True
  | [], wm => .refl (wm.wallet voter)
  | s :: cands, wm => by
    rw [spec_each_cons]
    refine (applyEntry_votes voter s wm).mono (fun _ wm₁ h₁ => ?_) fun _ _ _ => trivial
    refine (applyEntries_ballots voter cands wm₁).mono (fun _ _ h => ?_) fun _ _ h => h
    exact h.trans (Wallet.SameVotes.afterEntries cands h₁.2)

theorem applyVote_ballots : Spec (applyVote E tx (txFee E tx bRound) bRound) wm
    (fun _ wm' => (wm'.wallet tx.senderId).SameVotes
      ((votedCands E tx).foldl Wallet.afterEntry (wm.wallet tx.senderId)))
    fun _ _ => True := by
  have hs : tx.senderId ∈ (wm.put tx.senderId).keys := by simp
  simp only [applyVote, spec_bind]
  refine (validateVote_spec E bRound tx wm).mono ?_ fun _ _ _ => trivial
  rintro _ _ ⟨rfl, -⟩
  rw [spec_checkAndPut, spec_setNonce, spec_subBalance, put_of_mem hs]
  have hframe : Frame ∅ ∅ wm (((wm.put tx.senderId).modifyWallet tx.senderId fun w =>
      { w with nonce := w.nonce + 1 }).debit tx.senderId E (txFee E tx bRound)) :=
    ((frame_nonce (wm.put tx.senderId) tx.senderId (· + 1)).trans (frame_debit _ _ _)).of_put
  refine (applyEntries_ballots tx.senderId _ _).mono (fun _ _ h => ?_) fun _ _ h => h
  exact h.trans (Wallet.SameVotes.afterEntries _ (hframe.votes _ (Set.notMem_empty _)))

/-- The votes of the sender of a vote transaction are those its entries leave. -/
theorem applyTransaction_ballots (htype : tx.type = .vote) : Spec (applyTransaction E miner bRound tx) wm
    (fun _ wm' => (wm'.wallet tx.senderId).SameVotes
      ((votedCands E tx).foldl Wallet.afterEntry (wm.wallet tx.senderId)))
    fun _ _ => True := by
  simp only [applyTransaction, htype, spec_bind, spec_addBalance, spec_modify]
  refine applyVote_ballots.mono (fun _ wm₁ h => ?_) fun _ _ h => h
  have hfee : Frame ∅ ∅ wm₁ _ := frame_fee (E := E) wm₁ miner (txFee E tx bRound)
  exact (hfee.votes _ (Set.notMem_empty _)).trans h

/-! ## One transaction after the other -/

/-- **A transaction that is applied leaves its effects on the page.** -/
theorem Page.Describes.after (h : p.Describes wm) (hm : miner ∈ wm.keys)
    (hx : applyTransaction E miner bRound tx wm = (.ok (), wm')) :
    (p.after E bRound miner tx).Describes wm' := by
  have happlied : Applied E bRound miner tx wm wm' := (applyTransaction_spec hm).ok hx
  have hframed : Framed tx wm wm' := ((applyTransaction_ready E bRound miner tx wm).ok hx).1
  refine ⟨?_, ?_, fun a => ?_, fun a => ?_, fun a => ?_, ?_⟩
  · rw [happlied.keys, h.keys]
    rfl
  · rw [happlied.book, h.book]
    rfl
  · simp only [Page.after]
    split_ifs with hvote
    · by_cases ha : a = tx.senderId
      · subst ha
        rw [Function.update_self]
        exact ((applyTransaction_ballots hvote).ok hx).trans (Wallet.SameVotes.afterEntries _ (h.votes _))
      · rw [Function.update_of_ne ha]
        exact (hframed.frame.votes a fun hv => ha hv.2).trans (h.votes a)
    · exact (hframed.frame.votes a fun hv => hvote hv.1).trans (h.votes a)
  · simp only [Page.after]
    split_ifs with hcand
    · by_cases ha : a = tx.senderId
      · subst ha
        rw [Function.update_self]
        exact hframed.flag hcand
      · rw [Function.update_of_ne ha]
        exact (hframed.frame.flag a fun hc => ha hc.2).trans (h.flag a)
    · exact (hframed.frame.flag a fun hc => hcand hc.1).trans (h.flag a)
  · rw [happlied.candidates]
    simp only [Page.after, Transaction.candidatesAfter, h.candidate]
  · rw [happlied.rest, h.rest]
    rfl

/-- The page after a list of transactions that have been applied. -/
theorem Page.Describes.afterAll (hm : miner ∈ wm.keys)
    (hrun : Steps (fun tx s s' => applyTransaction E miner bRound tx s = (.ok (), s')) txs wm wm')
    (h : p.Describes wm) : (p.afterAll E bRound miner txs).Describes wm' := by
  induction hrun generalizing p with
  | nil => exact h
  | cons hx _ ih => exact ih (((applyTransaction_spec hm).ok hx).toPosted.mem hm) (h.after hm hx)

/-- **Transactions are applied exactly if each of them is ready on the page that those before it
    leave.** -/
theorem returns_applyTransactions_iff : ∀ (txs : List Transaction) {p : Page} {wm : WalletManager},
    p.Describes wm → miner ∈ wm.keys →
    (Returns (applyTransactions E txs miner bRound) wm ↔ p.AllReady E bRound miner txs)
  | [], _, wm, _, _ => iff_of_true ⟨(), wm, rfl⟩ trivial
  | tx :: txs, p, wm, h, hm => by
    have hready := applyTransaction_ready E bRound miner tx wm
    have hnext : ∀ wm₁, applyTransaction E miner bRound tx wm = (.ok (), wm₁) →
        (Returns (applyTransactions E txs miner bRound) wm₁ ↔
          (p.after E bRound miner tx).AllReady E bRound miner txs) := fun wm₁ hx =>
      returns_applyTransactions_iff txs (h.after hm hx) (((applyTransaction_spec hm).ok hx).toPosted.mem hm)
    rw [applyTransactions, returns_forEach_cons]
    constructor
    · rintro ⟨wm₁, hx, hrest⟩
      exact ⟨h.ready_iff.1 (hready.ok hx).2, (hnext wm₁ hx).1 hrest⟩
    · rintro ⟨htx, hrest⟩
      rcases hx : applyTransaction E miner bRound tx wm with ⟨_ | _, wm₁⟩
      · exact absurd (h.ready_iff.2 htx) (hready.error hx)
      · exact ⟨wm₁, rfl, (hnext wm₁ hx).2 hrest⟩

end WalletManager
end Timbre
