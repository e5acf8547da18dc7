/-
  The reversal of what has been applied of a block.

  The reversal starts from a later state than the one the transactions have left, and may
  stop: at a candidate transaction that cannot be reverted, or at a poster who has no wallet.
  What it books until then are the items of its `retraction`.
-/
import Timbre.Wallet.Faults
import Timbre.Wallet.PairsUndo
import Timbre.Wallet.PodfUndo
import Timbre.Wallet.Sequence

namespace Timbre

open Call

namespace WalletManager

open Transaction

variable {E : Env} {bRound : Int64} {miner a c : Address} {wm wm' wm₁ wm₂ s s' : WalletManager}
  {tx : Transaction} {txs pre post : List Transaction}

/-! ## Reports among transactions -/

/-- The heights at which an address is reported in a list of transactions. -/
def reportsIn (E : Env) (a : Address) (txs : List Transaction) : List Int64 :=
  (txs.filter fun tx => tx.type = .podf ∧ reportedMiner E tx = a).map (reportedHeight E)

theorem reportsIn_cons (a : Address) (tx : Transaction) (txs : List Transaction) :
    reportsIn E a (tx :: txs) = if tx.type = .podf ∧ reportedMiner E tx = a then
      reportedHeight E tx :: reportsIn E a txs else reportsIn E a txs := by
  unfold reportsIn
  rw [List.filter_cons]
  by_cases h : tx.type = .podf ∧ reportedMiner E tx = a
  · rw [if_pos (by simpa using h), if_pos h, List.map_cons]
  · rw [if_neg (by simpa using h), if_neg h]

theorem reportsIn_append (a : Address) (txs txs' : List Transaction) :
    reportsIn E a (txs ++ txs') = reportsIn E a txs ++ reportsIn E a txs' := by
  rw [reportsIn, List.filter_append, List.map_append]
  rfl

theorem Applied.record (h : Applied E bRound miner tx wm wm') (a : Address) : wm'.rest.1 a =
    if tx.type = .podf ∧ reportedMiner E tx = a then report (reportedHeight E tx) (wm.rest.1 a)
    else wm.rest.1 a := by
  rw [h.rest]
  by_cases htype : tx.type = .podf
  · cases h.valid with
    | plain hp _ => rcases hp with hp | hp | hp <;> simp [htype] at hp
    | vote hv _ => simp [htype] at hv
    | podf header _ hvalid =>
      have hrep : reportedMiner E tx = header.minerPublicKey := hvalid.miner_eq
      have hheight : reportedHeight E tx = header.height := hvalid.height_eq
      have hrest : restAfter E tx wm.rest = wm.rest.modify header.minerPublicKey (report header.height) := by
        rw [restAfter, htype, hvalid.header]
      rw [hrest, hrep, hheight, Rest.modify_fst]
      simp [htype]
  · rw [restAfter_of_ne htype, if_neg fun h => htype h.1]

theorem Reverted.record (h : Reverted E bRound miner tx wm wm') (a : Address) : wm'.rest.1 a =
    if tx.type = .podf ∧ reportedMiner E tx = a then unreport (wm.rest.1 a) else wm.rest.1 a := by
  rw [h.rest, restBefore]
  by_cases htype : tx.type = .podf
  · rw [if_pos htype, Rest.modify_fst]
    simp [htype]
  · rw [if_neg htype, if_neg fun h => htype h.1]

/-- The records after a list of transactions. -/
theorem AllApplied.record (h : AllApplied E bRound miner txs wm wm') (a : Address) :
    wm'.rest.1 a = reportAll (wm.rest.1 a) (reportsIn E a txs) := by
  induction h with
  | nil => rfl
  | cons hx _ ih =>
    rw [ih, hx.record, reportsIn_cons]
    split_ifs <;> rfl

theorem AllReverted.record (h : AllReverted E bRound miner txs wm wm') (a : Address) :
    wm'.rest.1 a = unreportN (wm.rest.1 a) (reportsIn E a txs).length := by
  induction h with
  | nil => rfl
  | cons hx _ ih =>
    rw [ih, hx.record, reportsIn_cons]
    split_ifs <;> rfl

/-! ## Transactions -/

/-- The transactions can be reverted, as far as they are no candidate transactions, if there are
    as many reports to take back. -/
def Reversible (E : Env) (K : Finset Address) (txs : List Transaction) : Prop :=
  ∀ tx ∈ txs, ∀ t : WalletManager, t.keys = K →
    (tx.type = .podf → (t.wallet (reportedMiner E tx)).podfHeights ≠ []) → Revertible E tx t

theorem AllApplied.reversible (h : AllApplied E bRound miner txs wm wm₁) {K : Finset Address}
    (hkeys : wm₁.keys ⊆ K) : Reversible E K txs := by
  intro tx htx t ht hne
  obtain ⟨s, s', hx, hsub⟩ := h.exists_applied htx
  exact hx.revertible (ht ▸ hsub.trans hkeys) hne

/-- Transactions are reverted in order, up to a candidate transaction that cannot be reverted. -/
theorem revertTransactions_run (hrev : Reversible E s.keys txs) (hm : miner ∈ s.keys)
    (hcount : ∀ a, (reportsIn E a txs).length ≤ (s.rest.1 a).1.length) :
    Spec (revertTransactions E txs miner bRound) s
      (fun _ s' => AllReverted E bRound miner txs s s')
      fun e s' => ∃ pre tx post, txs = pre ++ tx :: post ∧ AllReverted E bRound miner pre s s' ∧
        Stuck tx e s' s' := by
  induction txs generalizing s with
  | nil => exact .nil s
  | cons tx txs ih =>
    have hne : tx.type = .podf → (s.wallet (reportedMiner E tx)).podfHeights ≠ [] := by
      intro ht hnil
      have h := hcount (reportedMiner E tx)
      rw [reportsIn_cons, if_pos ⟨ht, rfl⟩, List.length_cons] at h
      have h0 : (s.rest.1 (reportedMiner E tx)).1.length = 0 := congrArg List.length hnil
      omega
    rw [revertTransactions, spec_each_cons]
    refine (revertTransaction_spec hm (hrev tx (by simp) s rfl hne)).mono (fun _ s₁ h₁ => ?_) fun e s' h => ?_
    · have hcount₁ : ∀ a, (reportsIn E a txs).length ≤ (s₁.rest.1 a).1.length := by
        intro a
        have h := hcount a
        rw [reportsIn_cons] at h
        rw [h₁.record]
        split_ifs at h ⊢ with ha
        · rw [List.length_cons] at h
          simp only [unreport, List.length_dropLast]
          omega
        · exact h
      have hrev₁ : Reversible E s₁.keys txs := by
        rw [h₁.keys]
        exact fun x hx => hrev x (by simp [hx])
      refine (ih hrev₁ (h₁.keys ▸ hm) hcount₁).mono (fun _ _ h => .cons h₁ h) ?_
      rintro e s' ⟨pre, tx', post, rfl, hpre, hstuck⟩
      exact ⟨tx :: pre, tx', post, rfl, .cons h₁ hpre, hstuck⟩
    · obtain rfl := h.state
      exact ⟨[], tx, txs, rfl, .nil _, h⟩

/-! ## Challenge-proof pairs -/

/-- What is entered when pairs are taken back, if `t` are the times before it. -/
def unpairsItems (E : Env) : Times → List ChPrPair → List Item
  | _, [] => []
  | t, x :: pairs => unpairItems E t x ++ unpairsItems E (t.unrecord x.dealhash) pairs

variable {pairs : List ChPrPair}

theorem retracted_entered (h : Steps (PairRetracted E) pairs s s') :
    Steps (Entered E) (unpairsItems E s.times pairs) s s' := by
  induction h with
  | nil => exact .nil _
  | cons hx _ ih =>
    rw [hx.times] at ih
    exact hx.entered.append ih

theorem retracted_rest (h : Steps (PairRetracted E) pairs s s') :
    s'.rest.1 = s.rest.1 ∧ s'.executor = s.executor :=
  Steps.invariant (I := fun t => t.rest.1 = s.rest.1 ∧ t.executor = s.executor) h ⟨rfl, rfl⟩
    fun _ _ _ _ ht hx => ⟨hx.record.trans ht.1, hx.executor.trans ht.2⟩

/-- Pairs of stored deals are reverted, or the reversal panics. -/
theorem revertChPrPair_run (hstored : ∀ x ∈ pairs, ∃ deal, s.times.2.deals x.dealhash = some deal) :
    Spec (revertChPrPair E pairs) s (fun _ s' => Steps (PairRetracted E) pairs s s')
      fun e _ => ∃ m, e = .panic m := by
  have hstep : ∀ x ∈ pairs, ∀ t, t.times.2.deals = s.times.2.deals → Spec (revertPair E x) t
      (fun _ t' => t'.times.2.deals = s.times.2.deals ∧ PairRetracted E x t t')
      fun e _ => s.times.2.deals x.dealhash = none ∨ ∃ m, e = .panic m := fun x _ t ht =>
    (revertPair_spec x t).mono (fun _ _ h => ⟨h.toPairTaken.deals.trans ht, h⟩)
      fun _ _ h => h.imp (fun h => ht ▸ h) And.right
  refine (each_spec hstep rfl).mono (fun _ _ h => h.2) ?_
  rintro e _ ⟨pre, x, post, t, rfl, -, -, hnone | hpanic⟩
  · obtain ⟨deal, hdeal⟩ := hstored x (by simp)
    rw [hnone] at hdeal
    cases hdeal
  · exact hpanic

/-! ## Blocks -/

variable {bare : PbBlock} {order : MapOrder} {K : Finset Address}

theorem refunded_entered {xs : List Line} (h : Steps (Refunded E) xs s s') :
    Steps (Entered E) (xs.map (Line.item E)) s s' :=
  bookedAll_entered (h.mono fun _ _ _ _ h => h.toBooked)

theorem refunded_rest {xs : List Line} (h : Steps (Refunded E) xs s s') :
    s'.rest = s.rest ∧ s'.executor = s.executor :=
  Steps.invariant (I := fun t => t.rest = s.rest ∧ t.executor = s.executor) h ⟨rfl, rfl⟩
    fun _ _ _ _ ht hx => ⟨hx.rest.trans ht.1, hx.executor.trans ht.2⟩

/-- What the reversal of a block enters, with the wallets `K` and the times `t`.  The pairs are not
    reached if a poster has no wallet. -/
def retraction (E : Env) (bare : PbBlock) (miner : Address) (K : Finset Address) (t : Times) : List Item :=
  (⟨miner, -blockReward E bare, blockReward E bare⟩ : Line).item E ::
    bare.transactions.map (reversal E bare.roundNum miner) ++
    ((bare.deals.flatMap (undoLines E bare.roundNum miner)).takeWhile fun x => x.account ∈ K).map
      (Line.item E) ++
    if Housed K (bare.deals.flatMap Deal.list) then unpairsItems E t bare.chPrPair else []

theorem entered_afterUnreward (r : Int64) :
    Entered E ((⟨miner, -r, r⟩ : Line).item E) s (afterUnreward E miner r s) := by
  have hbooked : Booked E ⟨miner, -r, r⟩ s (afterUnreward E miner r s) :=
    booked_of_told rfl (book_afterUnreward r) fun c hc => by
      rw [drift_afterUnreward r hc]
      simp only [book, Wallet.account, sub_eq_add_neg]
  exact hbooked.entered

theorem rest_afterUnreward (r : Int64) : (afterUnreward E miner r s).rest = s.rest := by
  rw [afterUnreward, rest_reAssign, rest_modifyWallet rfl rfl]

/-- The reversal of a block has gone through its transactions. -/
structure Retracted (E : Env) (bare : PbBlock) (miner : Address) (s s' : WalletManager) : Prop where
  entered : Steps (Entered E) (retraction E bare miner s.keys s.times) s s'
  transactions : ∃ s₁ s₂, s₁.executor = s.executor ∧ s₁.rest = s.rest ∧
    AllReverted E bare.roundNum miner bare.transactions s₁ s₂ ∧ s'.executor = s₂.executor ∧
    s'.rest.1 = s₂.rest.1
  pairs : if Housed s.keys (bare.deals.flatMap Deal.list) then
      ∃ s₃, s₃.times = s.times ∧ Steps (PairRetracted E) bare.chPrPair s₃ s'
    else s'.times = s.times

/-- The reversal of a block has stopped at the transaction `tx`. -/
structure StoppedAt (E : Env) (bare : PbBlock) (miner : Address) (pre : List Transaction)
    (tx : Transaction) (s s' : WalletManager) : Prop where
  reverted : ∃ s₁, s₁.executor = s.executor ∧ s₁.book = s.book + Book.pay miner (-blockReward E bare) ∧
    AllReverted E bare.roundNum miner pre s₁ s'
  stuck : ∃ e, Stuck tx e s' s'

/-- How the reversal of a block ends, if it does not panic. -/
def Rewound (E : Env) (bare : PbBlock) (miner : Address) (s s' : WalletManager) : Prop :=
  Retracted E bare miner s s' ∨ ∃ pre tx post, bare.transactions = pre ++ tx :: post ∧
    StoppedAt E bare miner pre tx s s'

theorem AllReverted.rest_snd (h : AllReverted E bRound miner txs wm wm') : wm'.rest.2 = wm.rest.2 := by
  induction h with
  | nil => rfl
  | cons hx _ ih =>
    rw [ih, hx.rest, restBefore]
    split_ifs <;> rfl

/-- **How far the reversal of a block gets.** -/
theorem revertWalletStates_run (hd : bare.isDigestBlock = false) (hm : miner ∈ s.keys)
    (hrev : Reversible E s.keys bare.transactions)
    (hcount : ∀ a, (reportsIn E a bare.transactions).length ≤ (s.rest.1 a).1.length)
    (hs : ∀ deal ∈ bare.deals, deal.spid ∈ s.keys)
    (hstored : ∀ x ∈ bare.chPrPair, ∃ deal, s.times.2.deals x.dealhash = some deal) :
    Spec (revertWalletStates E bare miner order) s (fun _ s' => Rewound E bare miner s s')
      fun e s' => (∃ m, e = .panic m) ∨ Rewound E bare miner s s' := by
  set s₁ := afterUnreward E miner (blockReward E bare) s with hs₁
  have hreward : Entered E ((⟨miner, -blockReward E bare, blockReward E bare⟩ : Line).item E) s s₁ :=
    entered_afterUnreward _
  have hkeys₁ : s₁.keys = s.keys := Finset.insert_eq_of_mem hm
  have hrest₁ : s₁.rest = s.rest := rest_afterUnreward _
  have hbegin : Spec (revertBlockReward E bare miner) s (fun _ t => t = s₁) fun _ _ => False := rfl
  have hrun : Spec (revertTransactions E bare.transactions miner bare.roundNum) s₁ _ _ :=
    revertTransactions_run (hkeys₁ ▸ hrev) (hkeys₁ ▸ hm) fun a => hrest₁ ▸ hcount a
  rw [revertWalletStates, spec_bind, spec_getWallet, if_pos hm, hd]
  refine hbegin.bind ?_ fun _ _ h => h.elim
  rintro _ _ rfl
  refine hrun.bind (fun _ s₂ h₂ => ?_) ?_
  · have hkeys₂ : s₂.keys = s.keys := h₂.shift.keys.trans hkeys₁
    have htimes₂ : s₂.times = s.times :=
      congrArg Prod.fst (h₂.rest_snd.trans (congrArg Prod.snd hrest₁))
    have hhoused : (∀ x ∈ bare.deals.flatMap (undoLines E bare.roundNum miner), x.account ∈ s.keys) ↔ _ :=
      housed_iff hm hs
    have hbegun := (Steps.single hreward).append h₂.entered
    refine (refunds_deals hm hs s₂ hkeys₂).bind ?_ ?_
    · rintro _ s₃ ⟨-, hall, h₃⟩
      obtain ⟨hrest₃, hexec₃⟩ := refunded_rest h₃
      have htimes₃ : s₃.times = s.times := (congrArg (fun r => r.2.1) hrest₃).trans htimes₂
      refine (revertChPrPair_run (htimes₃ ▸ hstored)).mono (fun _ s' h₄ => .inl ⟨?_, ?_, ?_⟩)
        fun _ _ h => .inl h
      · rw [retraction, if_pos (hhoused.1 hall), List.takeWhile_eq_self_iff.2 (by simpa using hall)]
        exact (hbegun.append (refunded_entered h₃)).append (htimes₃ ▸ retracted_entered h₄)
      · obtain ⟨hrest₄, hexec₄⟩ := retracted_rest h₄
        exact ⟨s₁, s₂, rfl, hrest₁, h₂, hexec₄.trans hexec₃,
          hrest₄.trans (congrArg (fun r => r.1) hrest₃)⟩
      · rw [if_pos (hhoused.1 hall)]
        exact ⟨s₃, htimes₃, h₄⟩
    · rintro e s₃ ⟨-, -, hnot, h₃⟩
      obtain ⟨hrest₃, hexec₃⟩ := refunded_rest h₃
      refine .inr (.inl ⟨?_, ?_, ?_⟩)
      · rw [retraction, if_neg fun h => hnot (hhoused.2 h), List.append_nil]
        exact hbegun.append (refunded_entered h₃)
      · exact ⟨s₁, s₂, rfl, hrest₁, h₂, hexec₃, congrArg (fun r => r.1) hrest₃⟩
      · rw [if_neg fun h => hnot (hhoused.2 h)]
        exact (congrArg (fun r => r.2.1) hrest₃).trans htimes₂
  · rintro e s' ⟨pre, tx, post, htxs, hpre, hstuck⟩
    exact .inr (.inr ⟨pre, tx, post, htxs, ⟨s₁, rfl, book_afterUnreward _, hpre⟩, e, hstuck⟩)

end WalletManager
end Timbre
