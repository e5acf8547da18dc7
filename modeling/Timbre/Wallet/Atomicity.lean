/-
  Blocks that are not accepted.

  A block that fails is reverted as the bare block of the items that were applied before the
  failing one.  The bare block has height 0 and may be empty, so that it takes back another
  reward than the one that was given; and a vote transaction that fails at one of its entries,
  or a digest block that does not match the wallets, is not reverted at all.  **`atomic_iff`
  says exactly when a failing block leaves nothing behind.**
-/
import Timbre.Wallet.Digest
import Timbre.Wallet.Progress

namespace Timbre

open Call

namespace WalletManager

open Transaction

variable {E : Env} {block : PbBlock} {order : MapOrder} {wm wm' s t : WalletManager} {e : Err}
  {numTy numDeal numProof : ℕ} {opened : Finset Address}

/-! ## Where a block fails -/

/-- A part of the block has returned an error, the numbers of applied items being given. -/
inductive Breaks (E : Env) (block : PbBlock) (wm : WalletManager) :
    Err → (numTy numDeal numProof : ℕ) → WalletManager → Prop
  | transactions {t₀ s : WalletManager} {i : ℕ} {e : Err} :
      giveBlockReward E block block.minerPublicKey wm = (.ok (), t₀) →
      applyTransactions E block.transactions block.minerPublicKey block.roundNum t₀ = (.error (i, e), s) →
      Breaks E block wm e i 0 0 s
  | deals {t₀ t₁ s : WalletManager} {i : ℕ} {e : Err} :
      giveBlockReward E block block.minerPublicKey wm = (.ok (), t₀) →
      applyTransactions E block.transactions block.minerPublicKey block.roundNum t₀ = (.ok (), t₁) →
      applyDeals E block.deals block.minerPublicKey block.roundNum t₁ = (.error (i, e), s) →
      Breaks E block wm e block.transactions.length i 0 s
  | pairs {t₀ t₁ t₂ s : WalletManager} {i : ℕ} {e : Err} :
      giveBlockReward E block block.minerPublicKey wm = (.ok (), t₀) →
      applyTransactions E block.transactions block.minerPublicKey block.roundNum t₀ = (.ok (), t₁) →
      applyDeals E block.deals block.minerPublicKey block.roundNum t₁ = (.ok (), t₂) →
      applyChPrPair E block.chPrPair t₂ = (.error (i, e), s) →
      Breaks E block wm e block.transactions.length block.deals.length i s

theorem initiateRevertBlock_ne_error (m : String) :
    initiateRevertBlock E block order numTy numDeal numProof s ≠ (.error (.error m), wm') := by
  have h : Spec (initiateRevertBlock E block order numTy numDeal numProof) s (fun _ _ => True)
      fun e _ => ∃ m, e = .panic m := by
    rw [initiateRevertBlock, spec_tryCatch]
    refine .intro (fun _ _ _ => trivial) fun e _ _ => ?_
    cases e with
    | error m => trivial
    | panic m => exact ⟨m, rfl⟩
  intro heq
  obtain ⟨_, h⟩ := h.error heq
  cases h

theorem orRevert_error {part : Call WalletManager (ℕ × Err) Unit} {revert : ℕ → WM Unit} {m : String}
    (hrevert : ∀ i s, revert i s ≠ (.error (.error m), wm'))
    (h : orRevert part revert wm = (.error (.error m), wm')) :
    ∃ i s, part wm = (.error (i, .error m), s) ∧ revert i s = (.ok (), wm') := by
  unfold orRevert at h
  split at h
  · cases h
  · cases h
  · rename_i i m' s hpart
    rcases bind_error_iff.1 h with herr | ⟨_, s₁, hok, hthrow⟩
    · exact absurd herr (hrevert i s)
    · cases hthrow
      exact ⟨i, s, hpart, hok⟩

/-- A block that is not accepted has been reverted from the state that the failing part has left. -/
theorem applyBlock_breaks {m : String} (hm : block.minerPublicKey ∈ wm.keys)
    (h : applyBlock E block block.minerPublicKey order wm = (.error (.error m), wm')) :
    ∃ numTy numDeal numProof s, Breaks E block wm (.error m) numTy numDeal numProof s ∧
      initiateRevertBlock E block order numTy numDeal numProof s = (.ok (), wm') := by
  rcases bind_error_iff.1 h with h₀ | ⟨_, t₀, h₀, h⟩
  · exact ((giveBlockReward_spec hm block).error h₀).elim
  rcases bind_error_iff.1 h with h₁ | ⟨_, t₁, h₁, h⟩
  · obtain ⟨i, s, hs, hrevert⟩ := orRevert_error (fun _ _ => initiateRevertBlock_ne_error _) h₁
    exact ⟨i, 0, 0, s, .transactions h₀ hs, hrevert⟩
  have htxs := orRevert_eq_ok h₁
  rcases bind_error_iff.1 h with h₂ | ⟨_, t₂, h₂, h₃⟩
  · obtain ⟨i, s, hs, hrevert⟩ := orRevert_error (fun _ _ => initiateRevertBlock_ne_error _) h₂
    exact ⟨_, i, 0, s, .deals h₀ htxs hs, hrevert⟩
  · obtain ⟨i, s, hs, hrevert⟩ := orRevert_error (fun _ _ => initiateRevertBlock_ne_error _) h₃
    exact ⟨_, _, i, s, .pairs h₀ htxs (orRevert_eq_ok h₂) hs, hrevert⟩

/-- There is one place where a block fails. -/
theorem Breaks.unique {e' : Err} {n d p : ℕ} (h : Breaks E block wm e numTy numDeal numProof s)
    (h' : Breaks E block wm e' n d p t) : e = e' ∧ numTy = n ∧ numDeal = d ∧ numProof = p ∧ s = t := by
  cases h with
  | transactions h₀ h₁ =>
    cases h' with
    | transactions h₀' h₁' =>
      cases h₀.symm.trans h₀'
      cases h₁.symm.trans h₁'
      exact ⟨rfl, rfl, rfl, rfl, rfl⟩
    | deals h₀' h₁' _ | pairs h₀' h₁' _ _ =>
      cases h₀.symm.trans h₀'
      cases h₁.symm.trans h₁'
  | deals h₀ h₁ h₂ =>
    cases h' with
    | transactions h₀' h₁' =>
      cases h₀.symm.trans h₀'
      cases h₁.symm.trans h₁'
    | deals h₀' h₁' h₂' =>
      cases h₀.symm.trans h₀'
      cases h₁.symm.trans h₁'
      cases h₂.symm.trans h₂'
      exact ⟨rfl, rfl, rfl, rfl, rfl⟩
    | pairs h₀' h₁' h₂' _ =>
      cases h₀.symm.trans h₀'
      cases h₁.symm.trans h₁'
      cases h₂.symm.trans h₂'
  | pairs h₀ h₁ h₂ h₃ =>
    cases h' with
    | transactions h₀' h₁' =>
      cases h₀.symm.trans h₀'
      cases h₁.symm.trans h₁'
    | deals h₀' h₁' h₂' =>
      cases h₀.symm.trans h₀'
      cases h₁.symm.trans h₁'
      cases h₂.symm.trans h₂'
    | pairs h₀' h₁' h₂' h₃' =>
      cases h₀.symm.trans h₀'
      cases h₁.symm.trans h₁'
      cases h₂.symm.trans h₂'
      cases h₃.symm.trans h₃'
      exact ⟨rfl, rfl, rfl, rfl, rfl⟩

/-! ## The failing item -/

/-- The page that the transactions of the block find. -/
def firstPage (E : Env) (block : PbBlock) (wm : WalletManager) : Page :=
  wm.page.rewarded block.minerPublicKey (blockReward E block)

/-- The page behind the first transactions of the block. -/
def pageAt (E : Env) (block : PbBlock) (wm : WalletManager) (numTy : ℕ) : Page :=
  (firstPage E block wm).afterAll E block.roundNum block.minerPublicKey (block.transactions.take numTy)

/-- The first transactions of the block can be applied one after the other. -/
def ReadyUpTo (E : Env) (block : PbBlock) (wm : WalletManager) (numTy : ℕ) : Prop :=
  (firstPage E block wm).AllReady E block.roundNum block.minerPublicKey (block.transactions.take numTy)

/-- The accounts behind the transactions and the first deals of the block. -/
def bookAt (E : Env) (block : PbBlock) (wm : WalletManager) (numDeal : ℕ) : Book :=
  (pageAt E block wm block.transactions.length).book +
    Entry.effects E block.roundNum block.minerPublicKey
      ((block.deals.take numDeal).flatMap (dealEntries E block.roundNum block.minerPublicKey))

/-- The first deals of the block can be charged behind the transactions. -/
def ChargedUpTo (E : Env) (block : PbBlock) (wm : WalletManager) (numDeal : ℕ) : Prop :=
  ReadyUpTo E block wm block.transactions.length ∧
    DealsReady E block.roundNum block.minerPublicKey (pageAt E block wm block.transactions.length).book
      (block.deals.take numDeal)

/-- An item of the block fails behind the given numbers of items, and nothing is left of it but the
    wallets that it has opened: the wallets are judged by the effects of the items before it.  A vote
    transaction that has been accepted is not among the items. -/
inductive Fault (E : Env) (block : PbBlock) (wm : WalletManager) :
    (numTy numDeal numProof : ℕ) → (opened : Finset Address) → Prop
  | transaction {i : ℕ} {tx : Transaction} :
      block.transactions[i]? = some tx → ReadyUpTo E block wm i →
      ¬ (pageAt E block wm i).Ready E block.roundNum tx →
      ¬ (pageAt E block wm i).VoteAccepted E block.roundNum tx →
      Fault E block wm i 0 0 ((pageAt E block wm i).opensFailing E tx)
  | deal {i : ℕ} {deal : Deal} :
      block.deals[i]? = some deal → ChargedUpTo E block wm i →
      (∃ post ∈ deal.list, (bookAt E block wm i post.pid).balance < postPrice E post block.roundNum) →
      Fault E block wm block.transactions.length i 0 ∅
  | pair {i : ℕ} {cProof : ChPrPair} :
      block.chPrPair[i]? = some cProof → ChargedUpTo E block wm block.deals.length →
      PairsReady E wm.times (block.chPrPair.take i) → wm.node.deals cProof.dealhash = none →
      Fault E block wm block.transactions.length block.deals.length i ∅

/-- The reward of the miner is on the first page. -/
theorem giveBlockReward_page (hm : block.minerPublicKey ∈ wm.keys) :
    Spec (giveBlockReward E block block.minerPublicKey) wm
      (fun _ t₀ => (block.minerPublicKey ∈ t₀.keys ∧ t₀.times = wm.times) ∧ (firstPage E block wm).Describes t₀)
      fun _ _ => False := by
  simp only [giveBlockReward, spec_bind, spec_modify, spec_addBalance]
  have hmove := move_reward (E := E) hm (blockReward E block)
  have hframe : Frame ∅ ∅ wm (((wm.modifyWallet block.minerPublicKey fun w =>
      { w with blockReward := w.blockReward + blockReward E block })).credit block.minerPublicKey E
        (blockReward E block)) :=
    (frame_modifyWallet (fun _ => ⟨rfl, rfl⟩) fun _ => rfl).trans (frame_credit _ _ _)
  refine ⟨⟨hmove.mem hm, congrArg (fun r => r.2.1) hmove.rest⟩, hmove.keys, hmove.book, fun a => ?_, fun a => ?_,
    fun a => ?_, hmove.rest⟩
  · exact hframe.votes a (Set.notMem_empty a)
  · exact hframe.flag a (Set.notMem_empty a)
  · rw [hmove.executor]
    exact Iff.rfl

section

variable {t₀ t₁ t₂ : WalletManager} {i : ℕ} (hm : block.minerPublicKey ∈ wm.keys)
  (h₀ : giveBlockReward E block block.minerPublicKey wm = (.ok (), t₀))

include hm h₀

theorem returns_readyUpTo : Returns (applyTransactions E (block.transactions.take i) block.minerPublicKey
    block.roundNum) t₀ ↔ ReadyUpTo E block wm i := by
  obtain ⟨⟨hm₀, -⟩, hpage⟩ := (giveBlockReward_page hm).ok h₀
  exact returns_applyTransactions_iff _ hpage hm₀

/-- The first transactions that have been applied leave their page. -/
theorem page_of_applied (h₁ : applyTransactions E (block.transactions.take i) block.minerPublicKey
    block.roundNum t₀ = (.ok (), t₁)) :
    (block.minerPublicKey ∈ t₁.keys ∧ t₁.times = wm.times) ∧ (pageAt E block wm i).Describes t₁ := by
  obtain ⟨⟨hm₀, htimes⟩, hpage⟩ := (giveBlockReward_page hm).ok h₀
  obtain ⟨hm₁, happlied⟩ := (applyTransactions_spec hm₀ _).ok h₁
  exact ⟨⟨hm₁, (congrArg Prod.fst (AllApplied.rest_snd happlied)).trans htimes⟩,
    hpage.afterAll hm₀ (forEach_ok h₁)⟩

variable (h₁ : applyTransactions E block.transactions block.minerPublicKey block.roundNum t₀ = (.ok (), t₁))

include h₁

theorem page_of_allApplied : (block.minerPublicKey ∈ t₁.keys ∧ t₁.times = wm.times) ∧
    (pageAt E block wm block.transactions.length).Describes t₁ :=
  page_of_applied hm h₀ (List.take_length.symm ▸ h₁)

theorem returns_chargedUpTo : Returns (applyDeals E (block.deals.take i) block.minerPublicKey block.roundNum) t₁ ↔
    ChargedUpTo E block wm i := by
  obtain ⟨⟨hm₁, -⟩, hpage⟩ := page_of_allApplied hm h₀ h₁
  have hready : ReadyUpTo E block wm block.transactions.length :=
    (returns_readyUpTo hm h₀).1 ⟨(), t₁, List.take_length.symm ▸ h₁⟩
  rw [returns_applyDeals _ t₁ hm₁, hpage.book, ChargedUpTo, and_iff_right hready]

/-- The accounts and the times behind the first deals. -/
theorem book_of_charged
    (h₂ : applyDeals E (block.deals.take i) block.minerPublicKey block.roundNum t₁ = (.ok (), t₂)) :
    t₂.book = bookAt E block wm i ∧ t₂.times = wm.times := by
  obtain ⟨⟨hm₁, htimes⟩, hpage⟩ := page_of_allApplied hm h₀ h₁
  have hquiet := (applyDeals_spec hm₁ _).ok h₂
  refine ⟨?_, (congrArg (fun r => r.2.1) hquiet.rest).trans htimes⟩
  rw [hquiet.made.book, hpage.book, bookAt]

end

/-- The verifications leave the stored deals as they are. -/
theorem deals_of_verified {t₂ t : WalletManager} {pairs : List ChPrPair} (htimes : t₂.times = wm.times)
    (h : applyChPrPair E pairs t₂ = (.ok (), t)) : t.node.deals = wm.node.deals := by
  have hpaid : Steps (PairPaid E) pairs t₂ t := (forEach_ok h).mono fun x _ s s' hx => (applyPair_paid x s).ok hx
  exact (paid_deals hpaid).trans (congrArg (fun r => r.2.deals) htimes)

/-- The parts of a block before the failing one have been applied. -/
theorem ReadyUpTo.returns {i : ℕ} (hm : block.minerPublicKey ∈ wm.keys) (h : ReadyUpTo E block wm i) :
    ∃ t₀ t, giveBlockReward E block block.minerPublicKey wm = (.ok (), t₀) ∧
      applyTransactions E (block.transactions.take i) block.minerPublicKey block.roundNum t₀ = (.ok (), t) := by
  obtain ⟨_, t₀, h₀⟩ := (giveBlockReward_page hm).returns
  obtain ⟨_, t, ht⟩ := (returns_readyUpTo hm h₀).2 h
  exact ⟨t₀, t, h₀, ht⟩

theorem ChargedUpTo.returns {i : ℕ} (hm : block.minerPublicKey ∈ wm.keys) (h : ChargedUpTo E block wm i) :
    ∃ t₀ t₁ t, giveBlockReward E block block.minerPublicKey wm = (.ok (), t₀) ∧
      applyTransactions E block.transactions block.minerPublicKey block.roundNum t₀ = (.ok (), t₁) ∧
      applyDeals E (block.deals.take i) block.minerPublicKey block.roundNum t₁ = (.ok (), t) := by
  obtain ⟨t₀, t₁, h₀, h₁⟩ := h.1.returns hm
  rw [List.take_length] at h₁
  obtain ⟨_, t, ht⟩ := (returns_chargedUpTo hm h₀ h₁).2 h
  exact ⟨t₀, t₁, t, h₀, h₁, ht⟩

theorem Fault.breaks (hm : block.minerPublicKey ∈ wm.keys)
    (h : Fault E block wm numTy numDeal numProof opened) :
    ∃ e s, Breaks E block wm e numTy numDeal numProof s ∧ ((∃ m, e = .panic m) ∨
      Reached E (bareBlock block numTy numDeal numProof) wm s ∧
        Steps (Entered E) (application E (blockReward E block) (bareBlock block numTy numDeal numProof)
          opened wm.times) wm s) := by
  have htys : ∀ d p, (bareBlock block block.transactions.length d p).transactions = block.transactions :=
    fun _ _ => List.take_length
  have hdeals : ∀ p, (bareBlock block block.transactions.length block.deals.length p).deals = block.deals :=
    fun _ => List.take_length
  cases h with
  | @transaction i tx hget hbefore hready hvote =>
    obtain ⟨t₀, t, h₀, hpre⟩ := hbefore.returns hm
    obtain ⟨-, hpage⟩ := page_of_applied hm h₀ hpre
    rcases hx : applyTransaction E block.minerPublicKey block.roundNum tx t with ⟨e | _, s⟩
    · refine ⟨e, s, .transactions h₀ (forEach_error_iff.2 ⟨tx, t, hget, hpre, hx⟩), .inr ?_⟩
      rcases applyTransaction_fails.error hx with ⟨hacc, -⟩ | ⟨-, hopen⟩
      · exact absurd (hpage.voteAccepted_iff.2 ((describes_page t).voteAccepted_iff.1 hacc)) hvote
      · exact reached_of_applied hm h₀ hpre (hpage.opensFailing_eq ▸ hopen) rfl rfl
    · exact absurd (hpage.ready_iff.1 ((applyTransaction_ready E _ _ tx t).ok hx).2) hready
  | @deal i deal hget hbefore hpoor =>
    obtain ⟨t₀, t₁, t, h₀, h₁, hpre⟩ := hbefore.returns hm
    rcases hx : applyDeal E block.minerPublicKey block.roundNum deal t with ⟨e | _, s⟩
    · refine ⟨e, s, .deals h₀ h₁ (forEach_error_iff.2 ⟨deal, t, hget, hpre, hx⟩), ?_⟩
      rcases (applyDeal_fails deal t).error hx with hpanic | ⟨rfl, -⟩
      · exact .inl hpanic
      · exact .inr (reached_of_applied hm h₀ (by rw [htys]; exact h₁) (.refl _) hpre rfl)
    · obtain ⟨post, hpost, hlt⟩ := hpoor
      rw [← (book_of_charged hm h₀ h₁ hpre).1] at hlt
      exact absurd hlt (Int64.not_lt.2 (((applyDeal_ready _ deal t).ok hx).1 post hpost))
  | @pair i cProof hget hbefore hpairs hnone =>
    obtain ⟨t₀, t₁, t₂, h₀, h₁, h₂⟩ := hbefore.returns hm
    have htimes := (book_of_charged hm h₀ h₁ h₂).2
    rw [List.take_length] at h₂
    obtain ⟨_, t, hpre⟩ := (returns_applyChPrPair _ t₂).2 (htimes.symm ▸ hpairs)
    rcases hx : applyPair E cProof t with ⟨e | _, s⟩
    · refine ⟨e, s, .pairs h₀ h₁ h₂ (forEach_error_iff.2 ⟨cProof, t, hget, hpre, hx⟩), ?_⟩
      rcases (applyPair_spec 0 "" cProof t).error hx with ⟨rfl, -⟩ | hpanic
      · exact .inr (reached_of_applied hm h₀ (by rw [htys]; exact h₁) (.refl _) (by rw [hdeals]; exact h₂) hpre)
      · exact .inl hpanic
    · obtain ⟨deal, happlied⟩ := (applyPair_spec 0 "" cProof t).ok hx
      rw [← deals_of_verified htimes hpre, happlied.stored] at hnone
      cases hnone

/-- A vote transaction of the block has failed at one of its entries. -/
structure HalfVoted (E : Env) (block : PbBlock) (wm : WalletManager) (i : ℕ) (t s : WalletManager) : Prop where
  before : Reached E (bareBlock block i 0 0) wm t ∧
    Steps (Entered E) (application E (blockReward E block) (bareBlock block i 0 0) ∅ wm.times) wm t
  vote : ∃ tx pre, HalfApplied E block.roundNum tx pre t s

/-- **Why a block fails.** -/
theorem Breaks.fault {m : String} (hm : block.minerPublicKey ∈ wm.keys)
    (h : Breaks E block wm (.error m) numTy numDeal numProof s) :
    (∃ opened, Fault E block wm numTy numDeal numProof opened) ∨
      numDeal = 0 ∧ numProof = 0 ∧ ∃ t, HalfVoted E block wm numTy t s := by
  cases h with
  | transactions h₀ h₁ =>
    obtain ⟨tx, t, hget, hpre, hx⟩ := forEach_error_iff.1 h₁
    have hready := (returns_readyUpTo hm h₀).1 ⟨(), t, hpre⟩
    obtain ⟨-, hpage⟩ := page_of_applied hm h₀ hpre
    rcases applyTransaction_fails.error hx with ⟨hacc, pre, hhalf⟩ | ⟨hnot, hopen⟩
    · exact .inr ⟨rfl, rfl, t, reached_of_applied hm h₀ hpre (.refl t) rfl rfl, tx, pre, hhalf⟩
    · refine .inl ⟨_, .transaction hget hready (fun h => ?_) fun h => ?_⟩
      · exact (applyTransaction_ready E _ _ tx t).error hx (hpage.ready_iff.2 h)
      · exact hnot ((describes_page t).voteAccepted_iff.2 (hpage.voteAccepted_iff.1 h))
  | deals h₀ h₁ h₂ =>
    obtain ⟨deal, t, hget, hpre, hx⟩ := forEach_error_iff.1 h₂
    have hcharged := (returns_chargedUpTo hm h₀ h₁).1 ⟨(), t, hpre⟩
    rcases (applyDeal_fails deal t).error hx with ⟨_, hpanic⟩ | ⟨-, post, hpost, hpoor⟩
    · cases hpanic
    · refine .inl ⟨∅, .deal hget hcharged ⟨post, hpost, ?_⟩⟩
      rw [← (book_of_charged hm h₀ h₁ hpre).1]
      exact hpoor
  | pairs h₀ h₁ h₂ h₃ =>
    obtain ⟨cProof, t, hget, hpre, hx⟩ := forEach_error_iff.1 h₃
    rw [← List.take_length (l := block.deals)] at h₂
    have hcharged := (returns_chargedUpTo hm h₀ h₁).1 ⟨(), _, h₂⟩
    have htimes := (book_of_charged hm h₀ h₁ h₂).2
    rcases (applyPair_spec 0 "" cProof t).error hx with ⟨-, hnone⟩ | ⟨_, hpanic⟩
    · refine .inl ⟨∅, .pair hget hcharged (htimes ▸ (returns_applyChPrPair _ _).1 ⟨(), t, hpre⟩) ?_⟩
      rw [← deals_of_verified htimes hpre]
      exact hnone
    · cases hpanic

/-! ## The reversal -/

theorem rewound_of_initiate (h : Reached E (bareBlock block numTy numDeal numProof) wm s)
    (hrevert : initiateRevertBlock E block order numTy numDeal numProof s = (.ok (), wm')) :
    Rewound E (bareBlock block numTy numDeal numProof) block.minerPublicKey s wm' := by
  have hspec : Spec (initiateRevertBlock E block order numTy numDeal numProof) s
      (fun _ s' => Rewound E (bareBlock block numTy numDeal numProof) block.minerPublicKey s s')
      fun _ _ => True := by
    rw [initiateRevertBlock, spec_tryCatch]
    refine (h.rewound rfl).mono (fun _ _ h => h) fun e s' he => ?_
    cases e with
    | error m => exact he.resolve_left (by simp)
    | panic m => trivial
  exact hspec.ok hrevert

theorem Rewound.nonce {bare : PbBlock} {miner : Address} (h : Rewound E bare miner s wm') :
    ∃ pre post, bare.transactions = pre ++ post ∧ ∀ a, (s.wallet a).nonce =
      (wm'.wallet a).nonce + UInt64.ofNat (counted a pre) := by
  rcases h with h | ⟨pre, tx, post, htxs, h⟩
  · exact ⟨_, [], (List.append_nil _).symm, h.nonce⟩
  · exact ⟨pre, tx :: post, htxs, h.nonce⟩

/-- A vote transaction that has failed at one of its entries has used up a nonce. -/
theorem HalfVoted.not_restored {i : ℕ} (h : HalfVoted E block wm i t s) (hlen : block.transactions.length < 2 ^ 63)
    (hrevert : initiateRevertBlock E block order i 0 0 s = (.ok (), wm')) : ¬ Restored wm wm' := by
  obtain ⟨hreached, hentered⟩ := h.before
  obtain ⟨tx, pre, hhalf⟩ := h.vote
  have hsub : t.keys ⊆ s.keys := hhalf.keys ▸ Finset.subset_union_left
  have hreached' : Reached E (bareBlock block i 0 0) wm s := by
    obtain ⟨t₀, t₁, hexec₀, hrest₀, happlied, hkeys, hexec, hrest⟩ := hreached.transactions
    refine ⟨hsub hreached.miner, ⟨t₀, t₁, hexec₀, hrest₀, happlied, hkeys.trans hsub,
      hhalf.executor.trans hexec, (congrArg Prod.fst hhalf.rest).trans hrest⟩, ?_, s, ?_, .nil s⟩
    · exact fun deal hdeal => nomatch hdeal
    · exact (congrArg (fun r => r.2.1) hhalf.rest).trans hreached.times
  have hhalf' : (s.wallet tx.senderId).nonce = (t.wallet tx.senderId).nonce + 1 := by
    have hbook := congrArg Account.nonce (congrFun hhalf.book tx.senderId)
    simp only [Pi.add_apply, Account.nonce_add, nonce_bump, if_true, nonce_pay, nonce_ballots, add_zero] at hbook
    exact hbook
  obtain ⟨pre', post, htxs, hnonce⟩ := (rewound_of_initiate hreached' hrevert).nonce
  have hcount : counted tx.senderId post ≤ block.transactions.length := by
    have hle : post.length ≤ (block.transactions.take i).length := by
      have hlen' := congrArg List.length htxs
      rw [List.length_append] at hlen'
      exact hlen' ▸ Nat.le_add_left _ _
    exact List.countP_le_length.trans (hle.trans (List.length_take_le' _ _))
  have hleft : (wm'.wallet tx.senderId).nonce =
      (wm.wallet tx.senderId).nonce + UInt64.ofNat (counted tx.senderId post + 1) := by
    refine add_right_cancel (b := UInt64.ofNat (counted tx.senderId pre')) ?_
    rw [← hnonce, hhalf', entered_nonce hentered, htxs, counted_append, UInt64.ofNat_add, UInt64.ofNat_add]
    change _ + _ + 1 = _ + (_ + 1) + _
    abel
  exact not_restored_of_nonce (Nat.succ_pos _) (by omega) hleft

/-- **When the state before an ordinary block is restored.** -/
theorem restored_block_iff {m : String} (hm : block.minerPublicKey ∈ wm.keys)
    (hlen : block.transactions.length < 2 ^ 63)
    (h : applyBlock E block block.minerPublicKey order wm = (.error (.error m), wm')) :
    Restored wm wm' ↔ ∃ numTy numDeal numProof opened, Fault E block wm numTy numDeal numProof opened ∧
      Recoverable E (blockReward E block) (bareBlock block numTy numDeal numProof) opened wm := by
  obtain ⟨numTy, numDeal, numProof, s, hbreaks, hrevert⟩ := applyBlock_breaks hm h
  have hfault : ∀ n d p opened, Fault E block wm n d p opened →
      (Restored wm wm' ↔ Recoverable E (blockReward E block) (bareBlock block n d p) opened wm) := by
    intro n d p opened hfault
    obtain ⟨e, s', hbreaks', hreached⟩ := hfault.breaks hm
    obtain ⟨rfl, rfl, rfl, rfl, rfl⟩ := hbreaks'.unique hbreaks
    rcases hreached with ⟨_, hpanic⟩ | ⟨hreached, hentered⟩
    · cases hpanic
    · exact restored_iff hentered hreached (rewound_of_initiate hreached hrevert)
        (lt_of_le_of_lt (List.length_take_le' _ _) hlen)
  constructor
  · intro hres
    rcases hbreaks.fault hm with ⟨opened, hf⟩ | ⟨rfl, rfl, t, hhalf⟩
    · exact ⟨_, _, _, opened, hf, (hfault _ _ _ _ hf).1 hres⟩
    · exact absurd hres (hhalf.not_restored hlen hrevert)
  · rintro ⟨n, d, p, opened, hf, hrec⟩
    exact (hfault n d p opened hf).2 hrec

/-! ## Digest blocks -/

end WalletManager

/-- A wallet that is not used says nothing that a new one does not say. -/
def Wallet.Blank (w : Wallet) : Prop :=
  w.nonce = 0 ∧ w.voted.get = 0 ∧ w.votePower = 0 ∧ w.podfHeights = [] ∧ w.bannedTill = -1

namespace WalletManager

/-- Nothing is lost with the wallets that a digest block deletes. -/
def Sweepable (wm : WalletManager) : Prop :=
  ∀ a ∈ wm.keys, a ≠ wm.myAddress → (wm.wallet a).unusedWallet = true → (wm.wallet a).Blank

theorem restored_tidied_iff (wm : WalletManager) : Restored wm wm.tidied ↔ Sweepable wm := by
  constructor
  · intro hres a ha hne hunused
    have hnew := wallet_absent ((notMem_tidied_iff ha).2 ⟨hne, hunused⟩)
    have hacc := hres.account a
    have hpower := hres.votePower a
    have hheights := hres.podfHeights a
    have hban := hres.bannedTill a
    rw [hnew] at hacc hpower hheights hban
    exact ⟨(congrArg Account.nonce hacc).symm, (congrArg Account.votes hacc).symm, hpower.symm,
      hheights.symm, hban.symm⟩
  · intro hsweep
    have hsame : ∀ a, (wm.tidied.wallet a).account = (wm.wallet a).account ∧
        (wm.tidied.wallet a).votePower = (wm.wallet a).votePower ∧
        (wm.tidied.wallet a).podfHeights = (wm.wallet a).podfHeights ∧
        (wm.tidied.wallet a).bannedTill = (wm.wallet a).bannedTill := by
      intro a
      by_cases hin : a ∈ wm.tidied.keys
      · rw [wallet_tidied hin]
        exact ⟨rfl, rfl, rfl, rfl⟩
      · rw [wallet_absent hin]
        by_cases ha : a ∈ wm.keys
        · obtain ⟨hne, hunused⟩ := (notMem_tidied_iff ha).1 hin
          obtain ⟨hnonce, hvoted, hpower, hheights, hban⟩ := hsweep a ha hne hunused
          simp only [Wallet.unusedWallet, decide_eq_true_eq] at hunused
          exact ⟨Account.ext hunused.1.symm hnonce.symm hunused.2.1.symm hvoted.symm, hpower.symm,
            hheights.symm, hban.symm⟩
        · rw [wallet_absent ha]
          exact ⟨rfl, rfl, rfl, rfl⟩
    exact ⟨⟨fun a => (hsame a).1, fun a => (hsame a).2.1, fun _ => Iff.rfl⟩, fun a => (hsame a).2.2.1,
      fun a => (hsame a).2.2.2, rfl⟩

/-- A digest block that is not accepted has been compared with the wallets, and no more. -/
theorem applyDigestBlock_error (hm : block.minerPublicKey ∈ wm.keys) :
    Spec (applyDigestBlock E block block.minerPublicKey order) wm (fun _ _ => True)
      fun _ wm' => wm' = wm.tidied := by
  rw [applyDigestBlock, spec_bind, spec_getWallet, if_pos hm]
  refine (validateDigestBlock_spec block wm).bind ?_ fun _ _ h => h.1
  rintro _ _ ⟨rfl, -⟩
  have hreset : ∀ w, Spec (resetWalletManagerState E order) w (fun _ _ => True) fun _ wm' => wm' = wm.tidied :=
    fun w => (resetWalletManagerState_spec order w).mono (fun _ _ _ => trivial) fun _ _ h => h.elim
  simp only [spec_bind, spec_get, spec_ite, spec_modify]
  refine ite_intro (fun hin => ?_) fun _ => hreset _
  have hin' : block.minerPublicKey ∈ wm.tidied.keys := by simpa [checkEntryByAddress] using hin
  exact (giveBlockReward_spec hin' block).mono (fun _ w _ => hreset w) fun _ _ h => h.elim

/-! ## All blocks -/

/-- The block leaves nothing behind if it fails. -/
def LeavesNothing (E : Env) (block : PbBlock) (wm : WalletManager) : Prop :=
  if block.isDigestBlock then Sweepable wm
  else ∃ numTy numDeal numProof opened, Fault E block wm numTy numDeal numProof opened ∧
    Recoverable E (blockReward E block) (bareBlock block numTy numDeal numProof) opened wm

/-- **A block that is not accepted** leaves the state as it was exactly if nothing is lost with
    the wallets that a digest block deletes; and if an ordinary block fails at an item that is
    not a vote transaction which has been accepted, behind items that can be reverted as a block of
    height 0. -/
theorem atomic_iff (E : Env) (wm wm' : WalletManager) (block : PbBlock) (order : MapOrder) (m : String)
    (hlen : block.transactions.length < 2 ^ 63)
    (h : checkAndUpdateWalletStates E block block.minerPublicKey order wm = (.error (.error m), wm')) :
    Restored wm wm' ↔ LeavesNothing E block (wm.put block.minerPublicKey) := by
  have hm : block.minerPublicKey ∈ (wm.put block.minerPublicKey).keys := Finset.mem_insert_self _ _
  have hput : Restored wm wm' ↔ Restored (wm.put block.minerPublicKey) wm' :=
    ⟨fun h => ⟨⟨h.account, h.votePower, h.candidates⟩, h.podfHeights, h.bannedTill, h.times⟩,
      fun h => ⟨⟨h.account, h.votePower, h.candidates⟩, h.podfHeights, h.bannedTill, h.times⟩⟩
  unfold checkAndUpdateWalletStates at h
  unfold LeavesNothing
  rw [hput]
  by_cases hg : block.isGenesis = true
  · rw [if_pos hg] at h
    exact ((applyGenesis_spec "" block wm).error h).elim
  · rw [if_neg hg] at h
    by_cases hd : block.isDigestBlock = true
    · rw [if_pos hd] at h ⊢
      have hspec : Spec (do
          checkAndPutWalletByAddress block.minerPublicKey
          applyDigestBlock E block block.minerPublicKey order) wm _ _ :=
        spec_bind.2 (spec_checkAndPut.2 (applyDigestBlock_error hm))
      rw [hspec.error h]
      exact restored_tidied_iff _
    · rw [if_neg hd] at h ⊢
      exact restored_block_iff hm hlen h

/-! ## A transaction out of order -/

/-- A block whose only transaction comes out of order. -/
def outOfOrder : PbBlock := .simple [.simple .transfer "a" 5 1 "b" ""] [] []

theorem atomic_iff_outOfOrder : Restored (newWalletManager "m") (afterBlock outOfOrder) ↔
    LeavesNothing Env.simple outOfOrder ((newWalletManager "m").put "m") :=
  atomic_iff Env.simple _ (afterBlock outOfOrder) outOfOrder .sorted "out of order nonce" (by decide)
    (Prod.ext (by decide) rfl)

/-- The miner is given the reward for a block with transactions, and the reward for an empty
    block is taken back. -/
theorem not_atomic : ¬ ∀ (E : Env) (wm wm' : WalletManager) (block : PbBlock) (order : MapOrder) (m : String),
    block.transactions.length < 2 ^ 63 →
    checkAndUpdateWalletStates E block block.minerPublicKey order wm = (.error (.error m), wm') →
    Restored wm wm' := by
  intro h
  have hrestored := h Env.simple (newWalletManager "m") (afterBlock outOfOrder) outOfOrder .sorted
    "out of order nonce" (by decide) (Prod.ext (by decide) rfl)
  have hbalance := congrArg Account.balance (hrestored.account "m")
  revert hbalance
  decide

end WalletManager
end Timbre
