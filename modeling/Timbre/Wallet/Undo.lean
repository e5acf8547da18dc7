/-
  The reversal of applied transactions.

  The effects of the transactions are taken back one by one, which restores the accounts.
  Two things stand in the way: a candidate transaction is not reverted while its sender
  already is what the reversal would make it, and the shares that an address gets before it
  has a wallet never reach its vote power.  **`revert_iff` says exactly when the reversal
  restores the state.**
-/
import Mathlib.Algebra.Ring.Parity
import Timbre.Wallet.Reversal

namespace Timbre

open Call

namespace Transaction

variable {E : Env} {bRound : Int64} {miner : Address} {tx : Transaction} {txs pre post : List Transaction}
  {a c : Address}

/-- The number of candidate transactions of an address. -/
def candidateTxs (a : Address) (txs : List Transaction) : ℕ :=
  txs.countP fun tx => tx.isCandidateTx ∧ tx.senderId = a

@[simp] theorem candidateTxs_nil (a : Address) : candidateTxs a [] = 0 := rfl

theorem candidateTxs_cons (a : Address) (tx : Transaction) (txs : List Transaction) :
    candidateTxs a (tx :: txs) =
      candidateTxs a txs + if tx.isCandidateTx ∧ tx.senderId = a then 1 else 0 := by
  simp [candidateTxs, List.countP_cons]

theorem candidateTxs_append (a : Address) (xs ys : List Transaction) :
    candidateTxs a (xs ++ ys) = candidateTxs a xs + candidateTxs a ys := List.countP_append

/-- A transaction of one of the four kinds that cost the sender a nonce. -/
def Ordinary (tx : Transaction) : Prop :=
  tx.type = .transfer ∨ tx.type = .vote ∨ tx.type = .becomeCandidate ∨ tx.type = .quitCandidate

theorem effects_append (xs ys : List Transaction) :
    effects E bRound miner (xs ++ ys) = effects E bRound miner xs + effects E bRound miner ys := by
  simp [effects]

/-! ## Nonces -/

theorem nonce_pay (a b : Address) (d : Int64) : (Book.pay a d b).nonce = 0 := by
  unfold Book.pay
  by_cases h : b = a
  · subst h
    simp
  · rw [Pi.single_eq_of_ne h]
    rfl

theorem nonce_bump (a b : Address) (n : UInt64) : (Book.bump a n b).nonce = if a = b then n else 0 := by
  unfold Book.bump
  by_cases h : a = b
  · subst h
    simp
  · rw [Pi.single_eq_of_ne (Ne.symm h), if_neg h]
    rfl

theorem nonce_ballots (voter a : Address) : ∀ cands : List String, (ballots voter cands a).nonce = 0
  | [] => rfl
  | s :: cands => by
    rw [ballots_cons, Pi.add_apply, Account.nonce_add, nonce_ballots voter a cands, add_zero]
    have hballot : ∀ c p, (Book.ballot voter c p a).nonce = 0 := by
      intro c p
      unfold Book.ballot
      by_cases h : a = voter
      · subst h
        simp
      · rw [Pi.single_eq_of_ne h]
        rfl
    unfold entryBallot
    rcases parseVote s with e | ⟨action, p, c⟩
    · rfl
    · cases action <;> exact hballot c _

/-- An ordinary transaction adds one to the nonce of its sender. -/
theorem nonce_effect (h : tx.Ordinary) (a : Address) :
    (tx.effect E bRound miner a).nonce = if tx.senderId = a then 1 else 0 := by
  unfold effect ownEffect
  rcases h with h | h | h | h <;>
    simp [h, nonce_pay, nonce_bump, nonce_ballots]

theorem nonce_effects (h : ∀ tx ∈ txs, tx.Ordinary) (a : Address) :
    (effects E bRound miner txs a).nonce = UInt64.ofNat (txs.countP fun tx => tx.senderId = a) := by
  induction txs with
  | nil => rfl
  | cons tx txs ih =>
    rw [effects_cons, Pi.add_apply, Account.nonce_add, nonce_effect (h tx (by simp)),
      ih fun tx' h' => h tx' (by simp [h']), List.countP_cons, UInt64.ofNat_add, add_comm]
    by_cases ha : tx.senderId = a <;> simp [ha]

end Transaction

namespace WalletManager

open Transaction

variable {E : Env} {wm wm' wm₁ wm₂ s : WalletManager} {a c miner : Address} {tx : Transaction}
  {txs pre post : List Transaction} {bRound : Int64}

/-! ## Candidates -/

/-- The candidate transactions of an address turn its candidacy over, one after the other. -/
theorem candidate_iff_of_steps {R : Transaction → WalletManager → WalletManager → Prop}
    (hR : ∀ {tx s s'}, R tx s s' → (a ∈ s'.executor.candidateState ↔
      (a ∈ s.executor.candidateState ↔ ¬ (tx.isCandidateTx ∧ tx.senderId = a))))
    (h : Steps R txs wm wm') : a ∈ wm'.executor.candidateState ↔
      (a ∈ wm.executor.candidateState ↔ Even (candidateTxs a txs)) := by
  induction h with
  | nil => simp
  | @cons tx txs s s₁ s' hx _ ih =>
    rw [ih, candidateTxs_cons, hR hx]
    by_cases ha : tx.isCandidateTx ∧ tx.senderId = a
    · rw [if_pos ha, Nat.even_add_one]
      grind
    · rw [if_neg ha, add_zero]
      grind

/-- The candidate transactions of an address make it a candidate and no longer one in
    turns. -/
theorem AllApplied.candidate_iff (h : AllApplied E bRound miner txs wm wm') (a : Address) :
    a ∈ wm'.executor.candidateState ↔
      (a ∈ wm.executor.candidateState ↔ Even (candidateTxs a txs)) := by
  refine candidate_iff_of_steps (fun {tx s s'} hx => ?_) h
  rw [hx.candidates, candidatesAfter]
  by_cases ha : tx.isCandidateTx ∧ tx.senderId = a
  · obtain ⟨htype, rfl⟩ := ha
    rw [if_pos ⟨htype, rfl⟩]
    have hbefore := hx.valid.before htype
    simp only [Transaction.isCandidateTx, decide_eq_true_eq] at htype
    rcases htype with ht | ht <;> simp only [ht] at hbefore ⊢ <;> simp_all [isCandidateTx]
  · rw [if_neg fun h => ha ⟨h.1, h.2.symm⟩]
    simp [ha]

/-- The candidate transaction at its place in the list is a registration exactly if those
    before it have left the sender no candidate. -/
theorem AllApplied.becomeCandidate_iff (h : AllApplied E bRound miner (pre ++ tx :: post) wm wm')
    (htype : tx.isCandidateTx) : tx.type = .becomeCandidate ↔
      ¬ (tx.senderId ∈ wm.executor.candidateState ↔ Even (candidateTxs tx.senderId pre)) := by
  obtain ⟨s, hpre, hpost⟩ := Steps.append_inv h
  cases hpost with
  | cons hx _ =>
    rw [← AllApplied.candidate_iff hpre, hx.valid.before htype]
    simp only [isCandidateTx, decide_eq_true_eq] at htype
    rcases htype with ht | ht <;> simp [ht]

/-- Transactions have been reverted one after the other. -/
def AllReverted (E : Env) (bRound : Int64) (miner : Address) : List Transaction →
    WalletManager → WalletManager → Prop := Steps (Reverted E bRound miner)

theorem AllReverted.shift (h : AllReverted E bRound miner txs wm wm') :
    Shift E wm wm' (-effects E bRound miner txs) := by
  induction h with
  | nil => simpa using Shift.refl E _
  | cons hx _ ih =>
    rw [effects_cons, neg_add]
    exact hx.toShift.trans ih

theorem AllReverted.candidate_iff (h : AllReverted E bRound miner txs wm wm') (a : Address) :
    a ∈ wm'.executor.candidateState ↔
      (a ∈ wm.executor.candidateState ↔ Even (candidateTxs a txs)) := by
  refine candidate_iff_of_steps (fun {tx s s'} hx => ?_) h
  rw [hx.candidates, candidatesBefore]
  by_cases ha : tx.isCandidateTx ∧ tx.senderId = a
  · obtain ⟨htype, rfl⟩ := ha
    rw [if_pos ⟨htype, rfl⟩]
    have hbefore := hx.before htype
    simp only [isCandidateTx, decide_eq_true_eq] at htype
    rcases htype with ht | ht <;> simp only [ht] at hbefore ⊢ <;> simp_all [isCandidateTx]
  · rw [if_neg fun h => ha ⟨h.1, h.2.symm⟩]
    simp [ha]

/-- With the candidates that a list of transactions leaves behind, a candidate transaction of the
    list can be reverted when its turn comes exactly if its sender has an odd number. -/
theorem before_iff_odd (h : AllApplied E bRound miner (pre ++ tx :: post) wm wm₁)
    (hexec : s.executor = wm₁.executor) (h' : AllReverted E bRound miner pre s wm₂)
    (htype : tx.isCandidateTx) :
    (tx.senderId ∈ wm₂.executor.candidateState ↔ tx.type = .becomeCandidate) ↔
      Odd (candidateTxs tx.senderId (pre ++ tx :: post)) := by
  rw [h'.candidate_iff, hexec, h.candidate_iff, h.becomeCandidate_iff htype, ← Nat.not_even_iff_odd]
  grind

/-! ## The loop of the reversal -/

theorem AllApplied.exists_applied (h : AllApplied E bRound miner txs wm wm₁) (htx : tx ∈ txs) :
    ∃ s s', Applied E bRound miner tx s s' ∧ s'.keys ⊆ wm₁.keys := by
  obtain ⟨pre, post, rfl⟩ := List.append_of_mem htx
  obtain ⟨s, -, hpost⟩ := Steps.append_inv h
  cases hpost with
  | cons hx hpost => exact ⟨s, _, hx, AllApplied.keys hpost ▸ Finset.subset_union_left⟩

/-- What a transaction needs to be reverted, it has left behind; only its report may be gone. -/
theorem Applied.revertible (h : Applied E bRound miner tx wm wm') (hkeys : wm'.keys ⊆ s.keys)
    (hne : tx.type = .podf → (s.wallet (reportedMiner E tx)).podfHeights ≠ []) : Revertible E tx s := by
  have hmem : ∀ b ∈ tx.touched, b ∈ s.keys := fun b hb => hkeys (h.keys ▸ Finset.mem_union_right _ hb)
  refine ⟨hmem _ ?_, fun ht => hmem _ ?_, fun ht e he => ?_, fun ht => ⟨hkeys ?_, hne ht⟩⟩
  · rw [touched]
    split_ifs <;> simp
  · rw [touched, if_pos ht]
    simp
  · cases h.valid with
    | vote _ hv =>
      rcases hv.entries e he with ⟨hp, -⟩ | ⟨hp, -, -⟩ <;> exact ⟨_, hp⟩
    | plain hp _ => rcases hp with hp | hp | hp <;> simp [ht] at hp
    | podf _ hp _ => simp [ht] at hp
  · cases h.valid with
    | vote hv _ => simp [ht] at hv
    | plain hp _ => rcases hp with hp | hp | hp <;> simp [ht] at hp
    | podf header _ hvalid =>
      have hrep : reportedMiner E tx = header.minerPublicKey := hvalid.miner_eq
      exact h.toPosted.mem (hrep ▸ hvalid.wallet)

theorem AllApplied.revertible (h : AllApplied E bRound miner txs wm wm₁) (htx : tx ∈ txs)
    (hne : tx.type ≠ .podf) (hkeys : wm'.keys = wm₁.keys) : Revertible E tx wm' := by
  obtain ⟨s, s', hx, hsub⟩ := h.exists_applied htx
  exact hx.revertible (hkeys ▸ hsub) fun ht => absurd ht hne

/-- Applied transactions are reverted in order, up to a candidate transaction that cannot be
    reverted. -/
theorem revertTransactions_spec (h : AllApplied E bRound miner txs wm wm₁) (hm : miner ∈ wm₁.keys)
    (hne : ∀ tx ∈ txs, tx.type ≠ .podf) :
    Spec (revertTransactions E txs miner bRound) wm₁
      (fun _ wm₂ => AllReverted E bRound miner txs wm₁ wm₂)
      fun e wm₂ => ∃ pre tx post, txs = pre ++ tx :: post ∧
        AllReverted E bRound miner pre wm₁ wm₂ ∧ Stuck tx e wm₂ wm₂ := by
  have hround : ∀ tx ∈ txs, ∀ s, s.keys = wm₁.keys → Spec (revertTransaction E miner bRound tx) s
      (fun _ s' => s'.keys = wm₁.keys ∧ Reverted E bRound miner tx s s')
      fun e s' => Stuck tx e s s' := fun tx htx s hs =>
    (revertTransaction_spec (hs ▸ hm) (h.revertible htx (hne tx htx) hs)).mono
      (fun _ _ hr => ⟨hr.keys.trans hs, hr⟩) fun _ _ h => h
  refine (each_spec hround rfl).mono (fun _ _ h => h.2) ?_
  rintro e wm₂ ⟨pre, tx, post, s, htxs, hpre, -, hstuck⟩
  obtain rfl := hstuck.state
  exact ⟨pre, tx, post, htxs, hpre, hstuck⟩

/-! ## The state after the reversal -/

/-- Nobody can tell the two states apart by accounts, vote powers and candidates.  An address
    without a wallet counts as a new wallet, an absent vote as 0 percent. -/
structure SameState (wm wm' : WalletManager) : Prop where
  account : ∀ a, (wm'.wallet a).account = (wm.wallet a).account
  votePower : ∀ a, (wm'.wallet a).votePower = (wm.wallet a).votePower
  candidates : ∀ a, a ∈ wm'.executor.candidateState ↔ a ∈ wm.executor.candidateState

/-- No address ends up in its old status by candidate transactions. -/
def NoRoundTrip (txs : List Transaction) : Prop :=
  ∀ a, candidateTxs a txs = 0 ∨ Odd (candidateTxs a txs)

/-- Transactions can be reverted only if no address ends up in its old status. -/
theorem noRoundTrip_of_reverted (h : AllApplied E bRound miner txs wm wm₁)
    (hexec : s.executor = wm₁.executor) (h' : AllReverted E bRound miner txs s wm₂) : NoRoundTrip txs := by
  intro a
  by_cases h0 : candidateTxs a txs = 0
  · exact .inl h0
  · obtain ⟨tx, htx, ha⟩ := List.countP_pos_iff.1 (Nat.pos_of_ne_zero h0)
    obtain ⟨htype, rfl⟩ := of_decide_eq_true ha
    obtain ⟨pre, post, rfl⟩ := List.append_of_mem htx
    obtain ⟨t, hpre, hpost⟩ := Steps.append_inv h'
    cases hpost with
    | cons hx _ => exact .inr ((before_iff_odd h hexec hpre htype).1 (hx.before htype))

/-- The reversal gets stuck only where an address ends up in its old status. -/
theorem not_noRoundTrip_of_stuck {e : Err} (h : AllApplied E bRound miner (pre ++ tx :: post) wm wm₁)
    (hexec : s.executor = wm₁.executor) (h' : AllReverted E bRound miner pre s wm₂)
    (hstuck : Stuck tx e wm₂ wm₂) : ¬ NoRoundTrip (pre ++ tx :: post) := by
  intro hodd
  have h0 : candidateTxs tx.senderId (pre ++ tx :: post) ≠ 0 := by
    rw [candidateTxs_append, candidateTxs_cons, if_pos ⟨hstuck.type, rfl⟩]
    omega
  exact hstuck.before ((before_iff_odd h hexec h' hstuck.type).2 ((hodd _).resolve_left h0))

/-- When an address gets its wallet, the shares that it gets from the voters are what they
    were at first.  The accounts at that moment are the first ones and the effects of the
    transactions before. -/
def StableStart (E : Env) (wm : WalletManager) (miner : Address) (bRound : Int64)
    (txs : List Transaction) : Prop :=
  ∀ pre tx post, txs = pre ++ tx :: post →
    ∀ c ∈ tx.touched, c ∉ wm.keys ∪ touchedBy pre →
      (wm.book + effects E bRound miner pre).stake E c = wm.book.stake E c

section

variable {α : Type} {new : α → Finset Address} {eff : α → Book} {xs : List α}

/-- When an item brings a wallet for an address, the shares that it gets are what they were
    at first. -/
def StartsAlike (E : Env) (wm : WalletManager) (new : α → Finset Address) (eff : α → Book)
    (xs : List α) : Prop :=
  ∀ pre x post, xs = pre ++ x :: post → ∀ c ∈ new x, c ∉ wm.keys ∪ newBy new pre →
    (wm.book + (pre.map eff).sum).stake E c = wm.book.stake E c

/-- With the accounts restored, the vote powers are restored exactly if every new wallet
    started with the shares of the first state. -/
theorem votePower_restored_iff (h : AllPosted E new eff xs wm wm₁)
    (h' : Shift E wm₁ wm₂ (-(xs.map eff).sum)) :
    (∀ c, (wm₂.wallet c).votePower = (wm.wallet c).votePower) ↔ StartsAlike E wm new eff xs := by
  have hbook : wm₂.book = wm.book := by
    rw [h'.book, h.book]
    abel
  have hpower : ∀ c ∈ wm₁.keys, (wm₂.wallet c).votePower = wm₁.drift E c + wm.book.stake E c := by
    intro c hc
    rw [← h'.drift c hc, drift, hbook, sub_add_cancel]
  constructor
  · rintro hvp pre x post rfl c hc hnew
    have hc₁ : c ∈ wm₁.keys := by
      rw [h.keys]
      exact Finset.mem_union_right _ (mem_newBy.2 ⟨x, by simp, hc⟩)
    have hold : c ∉ wm.keys := fun hmem => hnew (Finset.mem_union_left _ hmem)
    have := hpower c hc₁
    rw [hvp c, wallet_absent hold, h.drift_new hc hnew] at this
    exact (neg_add_eq_zero.1 this.symm).symm ▸ rfl
  · intro hstable c
    by_cases hold : c ∈ wm.keys
    · rw [hpower c (h.keys ▸ Finset.mem_union_left _ hold), h.drift hold, drift, sub_add_cancel]
    · by_cases hc₁ : c ∈ wm₁.keys
      · have hnewBy : c ∈ newBy new xs := by
          rw [h.keys, Finset.mem_union] at hc₁
          exact hc₁.resolve_left hold
        obtain ⟨pre, x, post, rfl, hc, hpre⟩ := exists_first hnewBy
        have hnew : c ∉ wm.keys ∪ newBy new pre := by simp [hold, hpre]
        rw [hpower c hc₁, h.drift_new hc hnew, hstable pre x post rfl c hc hnew, wallet_absent hold]
        exact neg_add_cancel _
      · rw [wallet_absent hold, wallet_absent (h'.keys ▸ hc₁)]

end

/-- A reversal that stops leaves a nonce too high. -/
theorem not_sameState_of_stuck (h : AllApplied E bRound miner (pre ++ tx :: post) wm wm₁)
    (h' : AllReverted E bRound miner pre wm₁ wm₂) (hord : ∀ t ∈ tx :: post, t.Ordinary)
    (hlen : (tx :: post).length < 2 ^ 64) : ¬ SameState wm wm₂ := by
  intro hsame
  have hbook : wm₂.book = wm.book + effects E bRound miner (tx :: post) := by
    rw [h'.shift.book, h.book, effects_append]
    abel
  have hnonce := congrArg Account.nonce (congrFun hbook tx.senderId)
  rw [show wm₂.book tx.senderId = wm.book tx.senderId from hsame.account _, Pi.add_apply,
    Account.nonce_add, nonce_effects hord, left_eq_add] at hnonce
  have hle : (tx :: post).countP (fun t => t.senderId = tx.senderId) ≤ (tx :: post).length :=
    List.countP_le_length
  have hpos : 0 < (tx :: post).countP fun t => t.senderId = tx.senderId := by
    rw [List.countP_cons_of_pos (by simp)]
    omega
  have h0 := congrArg UInt64.toNat hnonce
  rw [UInt64.toNat_ofNat', Nat.mod_eq_of_lt (by omega), UInt64.toNat_zero] at h0
  omega

/-- **Revert undoes apply**, for a list of transfers, votes and candidate transactions,
    exactly if no address ends up in its old status by candidate transactions and every new
    wallet starts with the shares that its address had at first. -/
theorem revert_iff (E : Env) (wm wm₁ wm₂ : WalletManager) (txs : List Transaction) (miner : Address)
    (bRound : Int64) (result : Except Err Unit) (hm : miner ∈ wm.keys)
    (hord : ∀ tx ∈ txs, tx.Ordinary) (hlen : txs.length < 2 ^ 63)
    (happly : applyTransactions E txs miner bRound wm = (.ok (), wm₁))
    (hrevert : revertTransactions E txs miner bRound wm₁ = (result, wm₂)) :
    SameState wm wm₂ ↔ NoRoundTrip txs ∧ StableStart E wm miner bRound txs := by
  have h := ((applyTransactions_spec hm txs).ok happly).2
  have hm₁ : miner ∈ wm₁.keys := h.keys ▸ Finset.mem_union_left _ hm
  have hne : ∀ tx ∈ txs, tx.type ≠ .podf := fun tx htx => by
    rcases hord tx htx with ht | ht | ht | ht <;> simp [ht]
  have hspec := revertTransactions_spec h hm₁ hne
  cases result with
  | ok u =>
    have h' := hspec.ok hrevert
    have hodd : NoRoundTrip txs := noRoundTrip_of_reverted h rfl h'
    constructor
    · intro hsame
      exact ⟨hodd, (votePower_restored_iff h.posted h'.shift).1 hsame.votePower⟩
    · rintro ⟨-, hstable⟩
      refine ⟨fun a => ?_, (votePower_restored_iff h.posted h'.shift).2 hstable, fun a => ?_⟩
      · have hbook : wm₂.book = wm.book := by
          rw [h'.shift.book, h.book]
          abel
        exact congrFun hbook a
      · rw [h'.candidate_iff, h.candidate_iff]
        grind
  | error e =>
    obtain ⟨pre, tx, post, rfl, h', hstuck⟩ := hspec.error hrevert
    constructor
    · intro hsame
      refine absurd hsame (not_sameState_of_stuck h h' (fun t ht => hord t ?_) ?_)
      · exact List.mem_append_right _ ht
      · rw [List.length_append] at hlen
        omega
    · exact fun hable => absurd hable.1 (not_noRoundTrip_of_stuck h rfl h' hstuck)

/-! ## A registration and a resignation -/

/-- A registration. -/
def registerTx : Transaction := .simple .becomeCandidate "a" 1 0 "" ""

/-- The resignation that follows it. -/
def quitTx : Transaction := .simple .quitCandidate "a" 2 0 "" ""

/-- The wallets of the node `"m"` after some transactions. -/
def afterApply (txs : List Transaction) : WalletManager :=
  (applyTransactions Env.simple txs "m" 2 (newWalletManager "m")).2

/-- The wallets after the reversal of the transactions. -/
def afterRevert (txs : List Transaction) : WalletManager :=
  (revertTransactions Env.simple txs "m" 2 (afterApply txs)).2

/-- A transfer of the new candidate, which needs the nonce of the registration. -/
def paymentTx : Transaction := .simple .transfer "a" 2 7 "b" ""

theorem revert_iff_register : SameState (newWalletManager "m") (afterRevert [registerTx, paymentTx]) ↔
    NoRoundTrip [registerTx, paymentTx] ∧
      StableStart Env.simple (newWalletManager "m") "m" 2 [registerTx, paymentTx] :=
  revert_iff Env.simple _ (afterApply [registerTx, paymentTx]) _ [registerTx, paymentTx] "m" 2 (.ok ()) (by decide)
    (by simp [Ordinary, registerTx, paymentTx, Transaction.simple]) (by simp)
    (Prod.ext (by decide) rfl) (Prod.ext (by decide) rfl)

/-- A registration and a resignation are not reverted: the reversal of the registration
    comes first, and finds no candidate. -/
theorem not_revert : ¬ ∀ (E : Env) (wm wm₁ wm₂ : WalletManager) (txs : List Transaction)
    (miner : Address) (bRound : Int64) (result : Except Err Unit), miner ∈ wm.keys →
    (∀ tx ∈ txs, tx.Ordinary) → txs.length < 2 ^ 63 →
    applyTransactions E txs miner bRound wm = (.ok (), wm₁) →
    revertTransactions E txs miner bRound wm₁ = (result, wm₂) → SameState wm wm₂ := by
  intro h
  have hsame := h Env.simple (newWalletManager "m") (afterApply [registerTx, quitTx])
    (afterRevert [registerTx, quitTx]) [registerTx, quitTx] "m" 2
    (.error (.error "Entry not in record. Can't unregister")) (by decide)
    (by simp [Ordinary, registerTx, quitTx, Transaction.simple]) (by simp)
    (Prod.ext (by decide) rfl) (Prod.ext (by decide) rfl)
  have hnonce := congrArg Account.nonce (hsame.account "a")
  revert hnonce
  decide

end WalletManager
end Timbre
