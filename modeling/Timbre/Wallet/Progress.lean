/-
  How far a block has been applied, and what is left of it once that has been reverted.

  The items that have been applied are those of the bare block, and the reversal starts from
  the state that the failing item leaves.  **The state is restored exactly if the bare block
  is recoverable** (`restored_iff`): the candidate transactions can be reverted, no ban is
  lost, and what is booked forth and back cancels out.
-/
import Timbre.Wallet.Rollback

namespace Timbre

open Call

namespace WalletManager

open Transaction

variable {E : Env} {reward : Int64} {bare : PbBlock} {opened : Finset Address}
  {wm wm' s : WalletManager} {t : Times} {pairs : List ChPrPair}

/-- What the items of a bare block have entered, a reward having been given, if `t` are the times
    before it.  A transaction that fails behind those of the bare block has opened some wallets. -/
def application (E : Env) (reward : Int64) (bare : PbBlock) (opened : Finset Address) (t : Times) :
    List Item :=
  (Entry.paid bare.minerPublicKey reward :: bare.transactions.map Entry.transaction).map
    (Entry.item E bare.roundNum bare.minerPublicKey) ++ [.opening opened] ++
  (bare.deals.flatMap (dealEntries E bare.roundNum bare.minerPublicKey)).map
    (Entry.item E bare.roundNum bare.minerPublicKey) ++
  (pairsEntries E t bare.chPrPair).map (Entry.item E bare.roundNum bare.minerPublicKey)

/-- The wallets there are when the reversal starts. -/
def walletsIn (E : Env) (reward : Int64) (bare : PbBlock) (opened : Finset Address)
    (wm : WalletManager) : Finset Address :=
  wm.keys ∪ newBy Item.opens (application E reward bare opened wm.times)

/-- All that is entered by the application of a bare block and its reversal. -/
def ledger (E : Env) (reward : Int64) (bare : PbBlock) (opened : Finset Address) (wm : WalletManager) :
    List Item :=
  application E reward bare opened wm.times ++ retraction E bare bare.minerPublicKey
    (walletsIn E reward bare opened wm) (wm.times.recordAll bare.chPrPair)

/-! ## What the ledger comes to -/

theorem monetary_dealEntries (bRound : Int64) (miner : Address) (deal : Deal) :
    ∀ x ∈ dealEntries E bRound miner deal, Book.Monetary (x.effect E bRound miner) := by
  intro x hx
  simp only [dealEntries, List.mem_append, List.mem_singleton, List.mem_map] at hx
  rcases hx with (rfl | ⟨post, -, rfl⟩) | rfl
  · exact Book.monetary_zero
  · exact Book.monetary_pay _ _
  · exact Book.monetary_pay _ _

theorem monetary_pairsEntries (bRound : Int64) (miner : Address) (t : Times) :
    ∀ x ∈ pairsEntries E t pairs, Book.Monetary (x.effect E bRound miner) := by
  induction pairs generalizing t with
  | nil => simp [pairsEntries]
  | cons cProof pairs ih =>
    intro x hx
    unfold pairsEntries at hx
    split at hx
    · simp at hx
    · rename_i deal _
      rcases List.mem_append.1 hx with hx | hx
      · simp only [pairEntries, paymentEntries, List.mem_cons] at hx
        rcases hx with rfl | hx
        · exact Book.monetary_zero
        · split_ifs at hx
          · simp only [List.mem_append, List.mem_flatMap, List.mem_cons, List.not_mem_nil, or_false] at hx
            rcases hx with rfl | ⟨post, -, rfl | rfl⟩
            · exact Book.monetary_zero
            · exact Book.monetary_zero
            · exact Book.monetary_pay _ _
          · simp at hx
      · exact ih _ x hx

theorem monetary_unpairsItems (t : Times) : ∀ x ∈ unpairsItems E t pairs, Book.Monetary x.effect := by
  induction pairs generalizing t with
  | nil => simp [unpairsItems]
  | cons cProof pairs ih =>
    intro x hx
    rcases List.mem_append.1 hx with hx | hx
    · unfold unpairItems at hx
      split at hx
      · simp at hx
      · rcases List.mem_cons.1 hx with rfl | hx
        · exact Book.monetary_zero
        · split_ifs at hx
          · obtain ⟨line, -, rfl⟩ := List.mem_map.1 hx
            exact Book.monetary_pay _ _
          · simp at hx
    · exact ih _ x hx

/-- Besides the effects of the transactions, balances are changed only. -/
theorem monetary_application : (Item.total (application E reward bare opened t) -
    effects E bare.roundNum bare.minerPublicKey bare.transactions).Monetary := by
  have hdeals : (Item.total ((bare.deals.flatMap (dealEntries E bare.roundNum bare.minerPublicKey)).map
      (Entry.item E bare.roundNum bare.minerPublicKey))).Monetary := by
    refine Item.monetary_total fun x hx => ?_
    obtain ⟨y, hy, rfl⟩ := List.mem_map.1 hx
    obtain ⟨deal, -, hy⟩ := List.mem_flatMap.1 hy
    exact monetary_dealEntries _ _ deal y hy
  have hpairs : (Item.total ((pairsEntries E t bare.chPrPair).map
      (Entry.item E bare.roundNum bare.minerPublicKey))).Monetary := by
    refine Item.monetary_total fun x hx => ?_
    obtain ⟨y, hy, rfl⟩ := List.mem_map.1 hx
    exact monetary_pairsEntries _ _ _ y hy
  convert ((Book.monetary_pay bare.minerPublicKey reward).add hdeals).add hpairs using 1
  simp only [application, List.map_cons, Item.total_append, Item.total_cons, Item.total_transactions,
    List.cons_append, Entry.item, Entry.effect, Item.opening, Item.total_nil]
  abel

theorem monetary_retraction {m : Address} {K : Finset Address} : (Item.total (retraction E bare m K t) -
    -effects E bare.roundNum m bare.transactions).Monetary := by
  have hlines : (Item.total (((bare.deals.flatMap (undoLines E bare.roundNum m)).takeWhile
      fun x => x.account ∈ K).map (Line.item E))).Monetary := by
    refine Item.monetary_total fun x hx => ?_
    obtain ⟨line, -, rfl⟩ := List.mem_map.1 hx
    exact Book.monetary_pay _ _
  have hunpairs : (Item.total (if Housed K (bare.deals.flatMap Deal.list) then
      unpairsItems E t bare.chPrPair else [])).Monetary := by
    split_ifs
    · exact Item.monetary_total (monetary_unpairsItems _)
    · exact Book.monetary_zero
  convert ((Book.monetary_pay m (-blockReward E bare)).add hlines).add hunpairs using 1
  simp only [retraction, Item.total_append, Item.total_cons, Item.total_reversals, List.cons_append, Line.item]
  abel

/-- **The application and the reversal together change balances only.** -/
theorem monetary_ledger : (Item.total (ledger E reward bare opened wm)).Monetary := by
  have happ : (Item.total (application E reward bare opened wm.times) -
      effects E bare.roundNum bare.minerPublicKey bare.transactions).Monetary := monetary_application
  have hret : (Item.total (retraction E bare bare.minerPublicKey (walletsIn E reward bare opened wm)
      (wm.times.recordAll bare.chPrPair)) -
        -effects E bare.roundNum bare.minerPublicKey bare.transactions).Monetary := monetary_retraction
  convert happ.add hret using 1
  rw [ledger, Item.total_append]
  abel

/-! ## Before the reversal -/

/-- The items of a bare block have been applied; the failing item may have opened wallets. -/
structure Reached (E : Env) (bare : PbBlock) (wm s : WalletManager) : Prop where
  miner : bare.minerPublicKey ∈ s.keys
  transactions : ∃ t₀ t₁, t₀.executor = wm.executor ∧ t₀.rest = wm.rest ∧
    AllApplied E bare.roundNum bare.minerPublicKey bare.transactions t₀ t₁ ∧ t₁.keys ⊆ s.keys ∧
    s.executor = t₁.executor ∧ s.rest.1 = t₁.rest.1
  providers : ∀ deal ∈ bare.deals, deal.spid ∈ s.keys
  pairs : ∃ t₂, t₂.times = wm.times ∧ Steps (PairPaid E) bare.chPrPair t₂ s

theorem Reached.record (h : Reached E bare wm s) (a : Address) :
    s.rest.1 a = reportAll (wm.rest.1 a) (reportsIn E a bare.transactions) := by
  obtain ⟨t₀, t₁, -, hrest, happlied, -, -, hs⟩ := h.transactions
  rw [hs, happlied.record, hrest]

theorem paid_times {t₂ : WalletManager} (h : Steps (PairPaid E) pairs t₂ s) :
    s.times = t₂.times.recordAll pairs := by
  induction h with
  | nil => rfl
  | cons hx _ ih =>
    obtain ⟨deal, hdeal, htimes⟩ := hx.times
    rw [ih, htimes, Times.recordAll, hdeal]

theorem Reached.times (h : Reached E bare wm s) : s.times = wm.times.recordAll bare.chPrPair := by
  obtain ⟨t₂, ht₂, hpaid⟩ := h.pairs
  rw [paid_times hpaid, ht₂]

/-- The parts of a bare block have been applied, the wallets `opened` having been opened behind the
    transactions. -/
theorem reached_of_applied {block : PbBlock} {t₀ t₁ t₂ t₃ : WalletManager}
    (hm : bare.minerPublicKey ∈ wm.keys)
    (hreward : giveBlockReward E block bare.minerPublicKey wm = (.ok (), t₀))
    (htxs : applyTransactions E bare.transactions bare.minerPublicKey bare.roundNum t₀ = (.ok (), t₁))
    (hopened : Opened opened t₁ t₂)
    (hdeals : applyDeals E bare.deals bare.minerPublicKey bare.roundNum t₂ = (.ok (), t₃))
    (hpairs : applyChPrPair E bare.chPrPair t₃ = (.ok (), s)) :
    Reached E bare wm s ∧
      Steps (Entered E) (application E (blockReward E block) bare opened wm.times) wm s := by
  have h₀ := (giveBlockReward_spec hm block).ok hreward
  obtain ⟨hm₁, h₁⟩ := (applyTransactions_spec (h₀.mem hm) bare.transactions).ok htxs
  have h₃ := (applyDeals_spec (hopened.keys hm₁) bare.deals).ok hdeals
  have h₄ := (applyChPrPair_spec bare.roundNum bare.minerPublicKey bare.chPrPair t₃).ok hpairs
  have hpaid : Steps (PairPaid E) bare.chPrPair t₃ s := (forEach_ok hpairs).mono
    fun x _ s s' hx => (applyPair_paid x s).ok hx
  have htimes : t₃.times = wm.times := by
    have hrest : t₃.rest.2 = wm.rest.2 := by
      rw [h₃.rest, hopened.rest, AllApplied.rest_snd h₁, h₀.rest]
    exact congrArg Prod.fst hrest
  have hbegun := (Steps.single (made_of_shift h₀.toShift)).append (AllApplied.made h₁)
  have hdone := ((AllMade.entered hbegun).append (.single hopened.entered)).append (AllMade.entered h₃.made)
  refine ⟨⟨?_, ⟨t₀, t₁, h₀.executor, h₀.rest, h₁, fun a ha => ?_, ?_, ?_⟩, fun deal hdeal => ?_, t₃, htimes,
    hpaid⟩, hdone.append (htimes ▸ AllMade.entered h₄.made)⟩
  · exact entered_mem (AllMade.entered h₄.made) (h₃.mem (hopened.keys hm₁))
  · exact entered_mem (AllMade.entered h₄.made) (h₃.mem (hopened.keys ha))
  · rw [h₄.executor, h₃.executor, hopened.executor]
  · rw [h₄.rest, ← hopened.rest, ← h₃.rest]
  · refine entered_mem (AllMade.entered h₄.made) ?_
    rw [entered_keys (AllMade.entered h₃.made), Finset.mem_union]
    have hentry : Entry.opened deal.spid ∈ bare.deals.flatMap (dealEntries E bare.roundNum bare.minerPublicKey) :=
      List.mem_flatMap.2 ⟨deal, hdeal, by simp [dealEntries]⟩
    exact .inr (mem_newBy.2 ⟨_, List.mem_map_of_mem hentry, Finset.mem_singleton_self _⟩)

/-- **What has been applied can be reverted**, as far as no candidate transaction stands in the way
    and every poster has a wallet, or the reversal panics. -/
theorem Reached.rewound {order : MapOrder} (hd : bare.isDigestBlock = false) (h : Reached E bare wm s) :
    Spec (revertWalletStates E bare bare.minerPublicKey order) s
      (fun _ s' => Rewound E bare bare.minerPublicKey s s')
      fun e s' => (∃ m, e = .panic m) ∨ Rewound E bare bare.minerPublicKey s s' := by
  obtain ⟨t₀, t₁, -, -, happlied, hsub, -, -⟩ := h.transactions
  obtain ⟨t₂, -, hpaid⟩ := h.pairs
  refine revertWalletStates_run hd h.miner (happlied.reversible hsub) (fun a => ?_) h.providers ?_
  · rw [h.record, reportAll_fst, List.length_append]
    omega
  · exact paid_deals hpaid ▸ paid_stored hpaid

/-! ## After the reversal -/

/-- Nobody can tell the two states apart: accounts, vote powers, candidates, PoDF records and
    verification times are the same. -/
structure Restored (wm wm' : WalletManager) : Prop extends SameState wm wm' where
  podfHeights : ∀ a, (wm'.wallet a).podfHeights = (wm.wallet a).podfHeights
  bannedTill : ∀ a, (wm'.wallet a).bannedTill = (wm.wallet a).bannedTill
  times : wm'.lastChVerificationTime = wm.lastChVerificationTime

/-- No third report of an address is among the transactions. -/
def NoBan (E : Env) (wm : WalletManager) (txs : List Transaction) (a : Address) : Prop :=
  ((wm.wallet a).podfHeights.length + (reportsIn E a txs).length) / blockThresholdToBan =
    (wm.wallet a).podfHeights.length / blockThresholdToBan

instance (txs : List Transaction) (a : Address) : Decidable (NoBan E wm txs a) :=
  inferInstanceAs (Decidable (_ = _))

/-- The wallets stand the application of a bare block and its reversal. -/
structure Recoverable (E : Env) (reward : Int64) (bare : PbBlock) (opened : Finset Address)
    (wm : WalletManager) : Prop where
  candidates : NoRoundTrip bare.transactions
  bans : ∀ a, NoBan E wm bare.transactions a ∨ (wm.wallet a).bannedTill = -1
  /-- what is given to an address agrees with what is taken back -/
  square : ∀ a, (Item.total (ledger E reward bare opened wm) a).balance = 0
  /-- what the vote powers are told amiss cancels out -/
  even : ∀ c, Item.gaps E c wm.keys wm.book (ledger E reward bare opened wm) = 0
  /-- the pairs are reverted only if every poster has a wallet -/
  times : if Housed (walletsIn E reward bare opened wm) (bare.deals.flatMap Deal.list) then
      LogsUndoable wm.times bare.chPrPair
    else (wm.times.recordAll bare.chPrPair).1 = wm.times.1

section

variable {m : Address} (h : Reached E bare wm s) (h' : Retracted E bare m s wm')

include h h'

theorem retracted_noRoundTrip (hm : m = bare.minerPublicKey) : NoRoundTrip bare.transactions := by
  subst hm
  obtain ⟨t₀, t₁, -, -, happlied, -, hexec, -⟩ := h.transactions
  obtain ⟨s₁, s₂, hexec₁, -, hreverted, -, -⟩ := h'.transactions
  exact noRoundTrip_of_reverted happlied (hexec₁.trans hexec) hreverted

theorem retracted_candidates (a : Address) :
    a ∈ wm'.executor.candidateState ↔ a ∈ wm.executor.candidateState := by
  obtain ⟨t₀, t₁, hexec₀, -, happlied, -, hexec, -⟩ := h.transactions
  obtain ⟨s₁, s₂, hexec₁, -, hreverted, hexec', -⟩ := h'.transactions
  rw [hexec', hreverted.candidate_iff, hexec₁, hexec, happlied.candidate_iff, hexec₀]
  tauto

theorem retracted_record (a : Address) : wm'.rest.1 a = ((wm.rest.1 a).1,
    if NoBan E wm bare.transactions a then (wm.rest.1 a).2 else -1) := by
  obtain ⟨s₁, s₂, -, hrest, hreverted, -, hrest'⟩ := h'.transactions
  have hpair : s₁.rest.1 a = ((wm.rest.1 a).1 ++ reportsIn E a bare.transactions, (s.rest.1 a).2) := by
    rw [hrest]
    refine Prod.ext ?_ rfl
    rw [h.record, reportAll_fst]
  rw [hrest', hreverted.record, hpair, unreportN_append]
  refine Prod.ext rfl ?_
  change (if NoBan E wm bare.transactions a then _ else _) = _
  split_ifs with hno
  · rw [h.record]
    exact reportAll_snd hno
  · rfl

theorem retracted_times : wm'.lastChVerificationTime = wm.lastChVerificationTime ↔
    if Housed s.keys (bare.deals.flatMap Deal.list) then LogsUndoable wm.times bare.chPrPair
    else (wm.times.recordAll bare.chPrPair).1 = wm.times.1 := by
  have hpairs := h'.pairs
  split_ifs at hpairs ⊢
  · obtain ⟨t₂, ht₂, hpaid⟩ := h.pairs
    obtain ⟨s₃, hs₃, htaken⟩ := hpairs
    have htaken : Steps (PairTaken E) bare.chPrPair s₃ wm' := htaken.mono fun _ _ _ _ hx => hx.toPairTaken
    have hrestored := times_restored_iff hpaid hs₃ htaken
    rwa [ht₂] at hrestored
  · rw [← h.times, ← hpairs]
    rfl

end

/-- **The state is restored exactly if the bare block is recoverable**, if the reversal goes through
    the transactions. -/
theorem restored_iff_of_retracted (hentered : Steps (Entered E) (application E reward bare opened wm.times) wm s)
    (h : Reached E bare wm s) (h' : Retracted E bare bare.minerPublicKey s wm') :
    Restored wm wm' ↔ Recoverable E reward bare opened wm := by
  have hkeys : s.keys = walletsIn E reward bare opened wm := entered_keys hentered
  have hledger : Steps (Entered E) (ledger E reward bare opened wm) wm wm' :=
    hentered.append (h.times ▸ hkeys ▸ h'.entered)
  have hbook : wm'.book = wm.book ↔ ∀ a, (Item.total (ledger E reward bare opened wm) a).balance = 0 := by
    rw [entered_book hledger, add_eq_left]
    exact monetary_ledger.eq_zero_iff
  have hban : ∀ a, (wm'.wallet a).bannedTill = (wm.wallet a).bannedTill ↔
      NoBan E wm bare.transactions a ∨ (wm.wallet a).bannedTill = -1 := fun a =>
    ban_kept_iff (congrArg Prod.snd (retracted_record h h' a))
  have htimes := hkeys ▸ retracted_times h h'
  constructor
  · intro hres
    have hsame : wm'.book = wm.book := funext hres.account
    exact {
      candidates := retracted_noRoundTrip h h' rfl
      bans := fun a => (hban a).1 (hres.bannedTill a)
      square := hbook.1 hsame
      even := fun c => (votePower_restored_of_entered hledger hsame c).1 (hres.votePower c)
      times := htimes.1 hres.times }
  · intro hrec
    have hsame := hbook.2 hrec.square
    exact {
      account := congrFun hsame
      votePower := fun c => (votePower_restored_of_entered hledger hsame c).2 (hrec.even c)
      candidates := retracted_candidates h h'
      podfHeights := fun a => congrArg Prod.fst (retracted_record h h' a)
      bannedTill := fun a => (hban a).2 (hrec.bans a)
      times := htimes.2 hrec.times }

/-! ## Nonces that are not given back -/

theorem not_restored_of_nonce {a : Address} {n : ℕ} (hpos : 0 < n) (hlt : n < 2 ^ 64)
    (h : (wm'.wallet a).nonce = (wm.wallet a).nonce + UInt64.ofNat n) : ¬ Restored wm wm' := by
  intro hres
  have hsame : (wm'.wallet a).nonce = (wm.wallet a).nonce := congrArg Account.nonce (hres.account a)
  rw [hsame, left_eq_add] at h
  have h0 := congrArg UInt64.toNat h
  rw [UInt64.toNat_ofNat', Nat.mod_eq_of_lt hlt, UInt64.toNat_zero] at h0
  omega

theorem AllReverted.nonce {bRound : Int64} {miner : Address} {txs : List Transaction}
    (h : AllReverted E bRound miner txs s wm') (a : Address) :
    (s.wallet a).nonce = (wm'.wallet a).nonce + UInt64.ofNat (counted a txs) := by
  have hbook := congrArg Account.nonce (congrFun h.shift.book a)
  rw [Pi.add_apply, Pi.neg_apply, Account.nonce_add, Account.nonce_neg, nonce_effects_counted] at hbook
  exact (add_eq_of_eq_sub (hbook.trans (sub_eq_add_neg _ _).symm)).symm

theorem entered_nonce (h : Steps (Entered E) (application E reward bare opened t) wm s) (a : Address) :
    (s.wallet a).nonce = (wm.wallet a).nonce + UInt64.ofNat (counted a bare.transactions) := by
  have hbook := congrArg Account.nonce (congrFun (entered_book h) a)
  rwa [Pi.add_apply, Account.nonce_add, monetary_application.nonce, nonce_effects_counted] at hbook

theorem Retracted.nonce {m : Address} (h : Retracted E bare m s wm') (a : Address) :
    (s.wallet a).nonce = (wm'.wallet a).nonce + UInt64.ofNat (counted a bare.transactions) := by
  have hbook := congrArg Account.nonce (congrFun (entered_book h.entered) a)
  rw [Pi.add_apply, Account.nonce_add, monetary_retraction.nonce, Pi.neg_apply, Account.nonce_neg,
    nonce_effects_counted] at hbook
  exact (add_eq_of_eq_sub (hbook.trans (sub_eq_add_neg _ _).symm)).symm

theorem StoppedAt.nonce {m : Address} {pre : List Transaction} {tx : Transaction}
    (h : StoppedAt E bare m pre tx s wm') (a : Address) :
    (s.wallet a).nonce = (wm'.wallet a).nonce + UInt64.ofNat (counted a pre) := by
  obtain ⟨s₁, -, hbook, hreverted⟩ := h.reverted
  have hnonce : (s₁.wallet a).nonce = (s.wallet a).nonce := by
    have hb := congrArg Account.nonce (congrFun hbook a)
    rwa [Pi.add_apply, Account.nonce_add, nonce_pay, add_zero] at hb
  rw [← hnonce, hreverted.nonce]

theorem counted_pos {a : Address} {txs : List Transaction} {tx : Transaction} (hord : tx.Ordinary)
    (ha : tx.senderId = a) : 0 < counted a (tx :: txs) := by
  rw [counted_cons, if_pos ⟨hord, ha⟩]
  omega

section

variable {m : Address} {pre post : List Transaction} {tx : Transaction}

theorem not_restored_of_stopped
    (hentered : Steps (Entered E) (application E reward bare opened wm.times) wm s)
    (h : StoppedAt E bare m pre tx s wm') (htxs : bare.transactions = pre ++ tx :: post)
    (hlen : bare.transactions.length < 2 ^ 63) : ¬ Restored wm wm' := by
  obtain ⟨e, hstuck⟩ := h.stuck
  have hord : tx.Ordinary := by
    have htype := hstuck.type
    simp only [isCandidateTx, decide_eq_true_eq] at htype
    exact .inr (.inr htype)
  have hcount : counted tx.senderId (tx :: post) ≤ bare.transactions.length := by
    rw [htxs, List.length_append]
    exact List.countP_le_length.trans (Nat.le_add_left _ _)
  have hnonce := entered_nonce hentered tx.senderId
  rw [h.nonce, htxs, counted_append, UInt64.ofNat_add] at hnonce
  have hleft : (wm'.wallet tx.senderId).nonce =
      (wm.wallet tx.senderId).nonce + UInt64.ofNat (counted tx.senderId (tx :: post)) := by
    refine add_right_cancel (b := UInt64.ofNat (counted tx.senderId pre)) ?_
    rw [hnonce]
    abel
  exact not_restored_of_nonce (counted_pos hord rfl) (by omega) hleft

theorem not_recoverable_of_stopped (h : Reached E bare wm s)
    (h' : StoppedAt E bare bare.minerPublicKey pre tx s wm') (htxs : bare.transactions = pre ++ tx :: post) :
    ¬ Recoverable E reward bare opened wm := by
  obtain ⟨t₀, t₁, -, -, happlied, -, hexec, -⟩ := h.transactions
  obtain ⟨s₁, hexec₁, -, hreverted⟩ := h'.reverted
  obtain ⟨e, hstuck⟩ := h'.stuck
  intro hrec
  have hcand := hrec.candidates
  rw [htxs] at happlied hcand
  exact not_noRoundTrip_of_stuck happlied (hexec₁.trans hexec) hreverted hstuck hcand

end

/-- **When the state before a block is restored**, if the items of the bare block have been applied
    and have been reverted as far as possible. -/
theorem restored_iff (hentered : Steps (Entered E) (application E reward bare opened wm.times) wm s)
    (h : Reached E bare wm s) (h' : Rewound E bare bare.minerPublicKey s wm')
    (hlen : bare.transactions.length < 2 ^ 63) : Restored wm wm' ↔ Recoverable E reward bare opened wm := by
  rcases h' with h' | ⟨pre, tx, post, htxs, h'⟩
  · exact restored_iff_of_retracted hentered h h'
  · exact iff_of_false (not_restored_of_stopped hentered h' htxs hlen)
      (not_recoverable_of_stopped h h' htxs)

end WalletManager
end Timbre
