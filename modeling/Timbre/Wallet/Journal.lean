/-
  The journal of a block: what its content does to the accounts, entry by entry.

  An entry adds wallets, then books amounts and changes the accounts by its effect.  Only the
  charge for a post tells the vote power something else than it books; the difference is the
  `gap` of the entry.  **A block that is accepted makes the entries of its journal one after
  the other** (`accepted_made`).
-/
import Timbre.Wallet.Credits

namespace Timbre

open Call Postings

/-! ## Entries -/

/-- An entry of a journal. -/
inductive Entry where
  /-- an address gets a wallet, if it has none -/
  | opened (a : Address)
  | paid (a : Address) (delta : Int64)
  | transaction (tx : Transaction)
  /-- the charge for a post of a deal -/
  | charged (post : Post)
  /-- a registration in the genesis block -/
  | registered (a : Address)
  /-- the verification of a deal is recorded -/
  | recorded

namespace Entry

variable (E : Env) (bRound : Int64) (miner : Address)

/-- The addresses that get a wallet, before anything is booked. -/
def new : Entry → Finset Address
  | opened a | registered a => {a}
  | transaction tx => tx.touched
  | charged post => {post.authorAddress}
  | paid _ _ | recorded => ∅

/-- The exact amounts that are booked, in order. -/
def credits : Entry → List (Address × ℤ)
  | paid a delta => [(a, delta.toInt)]
  | transaction tx => tx.credits E bRound miner
  | charged post => [(post.authorAddress, -(WalletManager.postPrice E post bRound).toInt)]
  | opened _ | registered _ | recorded => []

/-- The effect on the accounts. -/
def effect : Entry → Book
  | paid a delta => Book.pay a delta
  | transaction tx => tx.effect E bRound miner
  | charged post => Book.pay post.authorAddress (-WalletManager.postPrice E post bRound)
  | registered a => Book.bump a 1
  | opened _ | recorded => 0

/-- The change of the balance that the vote power is told in the charge for a post. -/
def told (post : Post) : Int64 :=
  (0 - post.maxCost - WalletManager.postFee E post bRound).toUInt64.toInt64

/-- What the vote power of a candidate gets in excess, if `b` are the accounts before the
    entry. -/
def gap (b : Book) (c : Address) : Entry → UInt64
  | charged post =>
    let payer := b post.authorAddress
    E.share (payer.votes c) payer.balance - E.share (payer.votes c)
      (payer.balance - WalletManager.postPrice E post bRound - told E bRound post)
  | _ => 0

/-- What has been checked of an entry that is made, if `b` are the accounts before it. -/
def Checked (b : Book) : Entry → Prop
  | transaction tx => E.hasValidSign tx = none ∧
      WalletManager.txFee E tx bRound ≤ (b tx.senderId).balance ∧
      (tx.type = .transfer → tx.price E bRound ≤ (b tx.senderId).balance)
  | charged post => WalletManager.postPrice E post bRound ≤ (b post.authorAddress).balance
  | _ => True

/-- The effect of a list of entries. -/
def effects (xs : List Entry) : Book := (xs.map fun x => x.effect E bRound miner).sum

/-- The entries book what they do to the balances. -/
theorem balance_effect (x : Entry) (a : Address) :
    (x.effect E bRound miner a).balance = Int64.ofInt (net (x.credits E bRound miner) a) := by
  cases x with
  | opened | recorded => rfl
  | registered b => exact Book.balance_bump b a 1
  | transaction tx => exact Transaction.balance_effect a
  | paid b delta => simp [effect, credits, Book.balance_pay, net_cons, apply_ite Int64.ofInt]
  | charged post => simp [effect, credits, Book.balance_pay, net_cons, apply_ite Int64.ofInt]

end Entry

namespace WalletManager

variable {E : Env} {bRound : Int64} {miner a c : Address} {wm wm' wm₁ : WalletManager} {x : Entry}
  {xs ys : List Entry}

/-- The entry has been made. -/
structure Made (E : Env) (bRound : Int64) (miner : Address) (x : Entry) (wm wm' : WalletManager) :
    Prop where
  keys : wm'.keys = wm.keys ∪ x.new
  book : wm'.book = wm.book + x.effect E bRound miner
  drift : ∀ c ∈ wm'.keys, wm'.drift E c = wm.drift E c + x.gap E bRound wm.book c
  sound : KeepsSound wm wm'
  checked : x.Checked E bRound wm.book

/-- The balances after an entry. -/
theorem Made.balance (h : Made E bRound miner x wm wm') (a : Address) :
    (wm'.wallet a).balance = (wm.wallet a).balance + Int64.ofInt (net (x.credits E bRound miner) a) := by
  rw [← Entry.balance_effect]
  exact congrArg Account.balance (congrFun h.book a)

/-- Entries have been made one after the other. -/
def AllMade (E : Env) (bRound : Int64) (miner : Address) :
    List Entry → WalletManager → WalletManager → Prop := Steps (Made E bRound miner)

/-- **The accounts after a list of entries.** -/
theorem AllMade.book (h : AllMade E bRound miner xs wm wm') :
    wm'.book = wm.book + Entry.effects E bRound miner xs := by
  induction h with
  | nil => exact (add_zero _).symm
  | @cons x xs s s₁ s' hx _ ih =>
    have hcons : Entry.effects E bRound miner (x :: xs) = _ := List.sum_cons
    rw [ih, hx.book, add_assoc, hcons]
    rfl

/-- Entries have been made, and only the accounts have changed. -/
structure Quiet (E : Env) (bRound : Int64) (miner : Address) (xs : List Entry)
    (wm wm' : WalletManager) : Prop where
  made : AllMade E bRound miner xs wm wm'
  rest : wm'.rest = wm.rest
  executor : wm'.executor = wm.executor

theorem Quiet.nil (wm : WalletManager) : Quiet E bRound miner [] wm wm := ⟨.nil _, rfl, rfl⟩

theorem Quiet.append (h : Quiet E bRound miner xs wm wm₁) (h' : Quiet E bRound miner ys wm₁ wm') :
    Quiet E bRound miner (xs ++ ys) wm wm' :=
  ⟨h.made.append h'.made, h'.rest.trans h.rest, h'.executor.trans h.executor⟩

theorem Quiet.mem (h : Quiet E bRound miner xs wm wm') (ha : a ∈ wm.keys) : a ∈ wm'.keys := by
  refine Steps.invariant (I := fun wm => a ∈ wm.keys) h.made ha fun x _ s s' hs hx => ?_
  exact hx.keys ▸ Finset.mem_union_left _ hs

/-! ## Entries that change balances only -/

theorem made_opened_of_move (h : Move E (wm.put a) wm' 0) : Made E bRound miner (.opened a) wm wm' where
  keys := h.keys.trans (Finset.union_singleton _ _).symm
  book := h.book
  drift c hc := (h.drift c (h.keys ▸ hc)).trans (add_zero _).symm
  sound := keepsSound_of_book h.book fun _ => ⟨rfl, rfl⟩
  checked := trivial

theorem made_of_shift {d : Int64} (h : Shift E wm wm' (Book.pay a d)) :
    Made E bRound miner (.paid a d) wm wm' where
  keys := h.keys.trans (Finset.union_empty _).symm
  book := h.book
  drift c hc := (h.drift c (h.keys ▸ hc)).trans (add_zero _).symm
  sound := keepsSound_of_book h.book (Book.voteless_pay _ _)
  checked := trivial

theorem quiet_opened (wm : WalletManager) (a : Address) :
    Quiet E bRound miner [.opened a] wm (wm.put a) :=
  ⟨.single (made_opened_of_move (.refl E _)), rfl, rfl⟩

theorem quiet_paid {d : Int64} (h : Move E wm wm' (Book.pay a d)) :
    Quiet E bRound miner [.paid a d] wm wm' :=
  ⟨.single (made_of_shift h.toShift), h.rest, h.executor⟩

/-! ## Deals -/

/-- What is booked for a deal. -/
def dealEntries (E : Env) (bRound : Int64) (miner : Address) (deal : Deal) : List Entry :=
  [.opened deal.spid] ++ deal.list.map .charged ++ [.paid miner (dealFee E deal bRound)]

@[simp]
theorem spec_reAssignVotePower {d : Int64} {Q : Unit → WalletManager → Prop}
    {R : Err → WalletManager → Prop} :
    Spec (reAssignVotePower E a d) wm Q R ↔ Q () (wm.reAssign E (wm.wallet a) d) := Iff.rfl

/-- The wallets after the charge for a post. -/
def afterCharge (E : Env) (bRound : Int64) (post : Post) (wm : WalletManager) : WalletManager :=
  let wm := (wm.put post.authorAddress).modifyWallet post.authorAddress fun w =>
    { w with balance := w.balance - postPrice E post bRound }
  wm.reAssign E (wm.wallet post.authorAddress) (Entry.told E bRound post)

theorem book_afterCharge (post : Post) : (afterCharge E bRound post wm).book =
    wm.book + Book.pay post.authorAddress (-postPrice E post bRound) := by
  rw [afterCharge, book_reAssign]
  exact book_modifyWallet_add (by simp [Wallet.account, sub_eq_add_neg])

theorem made_charged {post : Post} (h : postPrice E post bRound ≤ (wm.wallet post.authorAddress).balance) :
    Made E bRound miner (.charged post) wm (afterCharge E bRound post wm) where
  keys := by
    ext b
    simp [afterCharge, Entry.new]
  book := book_afterCharge post
  drift c hc := by
    have hc' : c ∈ insert post.authorAddress (wm.put post.authorAddress).keys := hc
    exact drift_told rfl rfl hc'
  sound := keepsSound_of_book (book_afterCharge post) (Book.voteless_pay _ _)
  checked := h

theorem chargePost_spec (miner : Address) (post : Post) (wm : WalletManager) :
    Spec (chargePost E bRound post) wm
      (fun _ wm' => Quiet E bRound miner [.charged post] wm wm') fun e _ => ∃ m, e = .panic m := by
  have hself : post.authorAddress ∈ (wm.put post.authorAddress).keys := Finset.mem_insert_self _ _
  simp only [chargePost, spec_bind, spec_checkAndPut, spec_getWallet, if_pos hself, spec_ite,
    spec_throw, spec_modify, spec_reAssignVotePower]
  split_ifs with hle
  · exact ⟨_, rfl⟩
  · refine ⟨.single (made_charged (Int64.not_lt.1 hle)), ?_, rfl⟩
    rw [rest_reAssign, rest_modifyWallet rfl rfl, rest_put]

theorem chargePosts_spec (miner : Address) : ∀ (posts : List Post) (wm : WalletManager),
    Spec (each (chargePost E bRound) posts) wm
      (fun _ wm' => Quiet E bRound miner (posts.map .charged) wm wm') fun e _ => ∃ m, e = .panic m
  | [], wm => Quiet.nil wm
  | post :: posts, wm => by
    rw [spec_each_cons]
    refine (chargePost_spec miner post wm).mono (fun _ wm₁ h₁ => ?_) fun _ _ h => h
    exact (chargePosts_spec miner posts wm₁).mono (fun _ _ h₂ => h₁.append h₂) fun _ _ h => h

/-- **A deal that is applied books its entries.**  One that is refused has changed nothing;
    later it is too late to go back. -/
theorem applyDeal_spec (hm : miner ∈ wm.keys) (deal : Deal) :
    Spec (applyDeal E miner bRound deal) wm
      (fun _ wm' => Quiet E bRound miner (dealEntries E bRound miner deal) wm wm')
      fun e wm' => wm' = wm ∨ ∃ m, e = .panic m := by
  simp only [applyDeal, validateDeal, spec_bind, spec_get, spec_ite, spec_throw, spec_pure,
    spec_checkAndPut, spec_addBalance, spec_modify]
  split_ifs
  · exact .inl trivial
  · have h₀ : Quiet E bRound miner [.opened deal.spid] wm _ := quiet_opened wm deal.spid
    refine (chargePosts_spec miner deal.list _).mono (fun _ wm₁ h₁ => ?_) fun _ _ h => .inr h
    have h₂ := h₀.append h₁
    exact h₂.append (quiet_paid (move_fee (h₂.mem hm) _))

theorem applyDeals_spec (hm : miner ∈ wm.keys) (deals : List Deal) :
    Spec (applyDeals E deals miner bRound) wm
      (fun _ wm' => Quiet E bRound miner (deals.flatMap (dealEntries E bRound miner)) wm wm')
      fun ie wm' => (∃ m, ie.2 = .panic m) ∨ ∃ pre post, deals = pre ++ post ∧
        ie.1 = pre.length ∧ Quiet E bRound miner (pre.flatMap (dealEntries E bRound miner)) wm wm' := by
  have hquiet : ∀ {deals : List Deal} {wm wm' : WalletManager},
      Steps (fun deal wm wm' => Quiet E bRound miner (dealEntries E bRound miner deal) wm wm')
        deals wm wm' → Quiet E bRound miner (deals.flatMap (dealEntries E bRound miner)) wm wm' := by
    intro deals wm wm' h
    induction h with
    | nil => exact .nil _
    | cons hx _ ih =>
      rw [List.flatMap_cons]
      exact hx.append ih
  refine (forEach_spec (fun deal _ s hs => (applyDeal_spec hs deal).mono
    (fun _ s' h => ⟨h.mem hs, h⟩) fun _ _ h => h) hm).mono (fun _ _ h => hquiet h.2) ?_
  rintro ie wm' ⟨pre, deal, post, wm₁, hdeals, hi, hpre, -, rfl | hpanic⟩
  · exact .inr ⟨pre, deal :: post, hdeals, hi, hquiet hpre⟩
  · exact .inl hpanic

/-! ## Verifications -/

/-- What is booked for a verified deal. -/
def paymentEntries (E : Env) (deal : Deal) (curTs lastTs : Int64) : List Entry :=
  [.opened deal.spid] ++ deal.list.flatMap fun post =>
    [.opened post.pid, .paid deal.spid (payment E deal curTs lastTs post)]

theorem verificationPayment_spec (bRound : Int64) (miner : Address) (deal : Deal)
    (curTs lastTs : Int64) (wm : WalletManager) :
    Spec (verificationPayment E deal curTs lastTs) wm
      (fun _ wm' => Quiet E bRound miner (paymentEntries E deal curTs lastTs) wm wm')
      fun _ _ => False := by
  have hposts : ∀ (posts : List Post) (wm : WalletManager), deal.spid ∈ wm.keys →
      Spec (each (fun post => do
        checkAndPutWalletByAddress post.pid
        addBalance E deal.spid (payment E deal curTs lastTs post)) posts) wm
        (fun _ wm' => Quiet E bRound miner (posts.flatMap fun post =>
          [.opened post.pid, .paid deal.spid (payment E deal curTs lastTs post)]) wm wm')
        fun _ _ => False := by
    intro posts
    induction posts with
    | nil => exact fun wm _ => Quiet.nil wm
    | cons post posts ih =>
      intro wm hs
      rw [spec_each_cons, spec_bind, spec_checkAndPut, spec_addBalance]
      have h₁ : Quiet E bRound miner [.opened post.pid] wm _ := quiet_opened wm post.pid
      have h₂ := h₁.append (quiet_paid (move_credit (h₁.mem hs) (payment E deal curTs lastTs post)))
      exact (ih _ (h₂.mem hs)).mono (fun _ _ h₃ => h₂.append h₃) fun _ _ h => h
  rw [verificationPayment, spec_bind, spec_checkAndPut]
  have h₁ : Quiet E bRound miner [.opened deal.spid] wm _ := quiet_opened wm deal.spid
  exact (hposts deal.list _ (Finset.mem_insert_self _ _)).mono (fun _ _ h₂ => h₁.append h₂)
    fun _ _ h => h

/-- What is booked for a challenge-proof pair, if `t` are the times before it. -/
def pairEntries (E : Env) (t : Times) (deal : Deal) (cProof : ChPrPair) : List Entry :=
  .recorded :: if checkChPrPair E deal cProof then
    paymentEntries E deal (curTs deal cProof) ((t.lastTs deal cProof.dealhash).getLastD 0)
  else []

/-- What is booked for a list of challenge-proof pairs, up to one whose deal is missing. -/
def pairsEntries (E : Env) : Times → List ChPrPair → List Entry
  | _, [] => []
  | t, cProof :: pairs =>
    match t.2.deals cProof.dealhash with
    | none => []
    | some deal => pairEntries E t deal cProof ++ pairsEntries E (t.record deal cProof) pairs

/-- A challenge-proof pair of a deal has been applied. -/
structure PairApplied (E : Env) (bRound : Int64) (miner : Address) (cProof : ChPrPair) (deal : Deal)
    (wm wm' : WalletManager) : Prop where
  stored : wm.node.deals cProof.dealhash = some deal
  made : AllMade E bRound miner (pairEntries E wm.times deal cProof) wm wm'
  rest : wm'.rest = (wm.rest.1, wm.times.record deal cProof, wm.myAddress)
  executor : wm'.executor = wm.executor

theorem made_recorded (t : Times) : Made E bRound miner .recorded wm (wm.setTimes t) where
  keys := (Finset.union_empty _).symm
  book := (add_zero _).symm
  drift _ _ := (add_zero _).symm
  sound _ h := h
  checked := trivial

theorem applyPair_spec (bRound : Int64) (miner : Address) (cProof : ChPrPair) (wm : WalletManager) :
    Spec (applyPair E cProof) wm
      (fun _ wm' => ∃ deal, PairApplied E bRound miner cProof deal wm wm')
      fun e wm' => (wm' = wm ∧ wm.node.deals cProof.dealhash = none) ∨ ∃ m, e = .panic m := by
  simp only [applyPair, getDealbyHash, spec_bind, spec_get]
  split
  · rename_i deal hdeal
    have h₀ : Made E bRound miner .recorded wm (wm.setTimes (wm.times.record deal cProof)) :=
      made_recorded _
    simp only [spec_pure, spec_modify, spec_ite]
    split_ifs with hcheck
    · split
      · rename_i last hlast
        have hlast' : (wm.times.lastTs deal cProof.dealhash).getLastD 0 = last := by
          rw [List.getLastD_eq_getLast?, hlast, Option.getD_some]
        refine (verificationPayment_spec bRound miner deal _ last _).mono
          (fun _ wm' h => ⟨deal, hdeal, ?_, h.rest, h.executor⟩) fun _ _ h => h.elim
        rw [pairEntries, if_pos hcheck, hlast']
        exact .cons h₀ h.made
      · exact .inr ⟨_, rfl⟩
    · refine ⟨deal, hdeal, ?_, rfl, rfl⟩
      rw [pairEntries, if_neg hcheck]
      exact .single h₀
  · rename_i hnone
    exact .inl ⟨rfl, hnone⟩

/-- The times after a list of challenge-proof pairs, up to one whose deal is missing. -/
def Times.recordAll : Times → List ChPrPair → Times
  | t, [] => t
  | t, cProof :: pairs =>
    match t.2.deals cProof.dealhash with
    | none => t
    | some deal => (t.record deal cProof).recordAll pairs

/-- Challenge-proof pairs have been applied. -/
structure PairsApplied (E : Env) (bRound : Int64) (miner : Address) (pairs : List ChPrPair)
    (wm wm' : WalletManager) : Prop where
  made : AllMade E bRound miner (pairsEntries E wm.times pairs) wm wm'
  rest : wm'.rest = (wm.rest.1, wm.times.recordAll pairs, wm.myAddress)
  executor : wm'.executor = wm.executor

theorem pairsApplied_of_steps {pairs : List ChPrPair}
    (h : Steps (fun cProof wm wm' => ∃ deal, PairApplied E bRound miner cProof deal wm wm')
      pairs wm wm') : PairsApplied E bRound miner pairs wm wm' := by
  induction h with
  | nil => exact ⟨.nil _, rfl, rfl⟩
  | @cons cProof pairs s s₁ s' hx _ ih =>
    obtain ⟨deal, hx⟩ := hx
    have hdeal : s.times.2.deals cProof.dealhash = some deal := hx.stored
    have htimes : s₁.times = s.times.record deal cProof := congrArg (fun r => r.2.1) hx.rest
    have hme : s₁.myAddress = s.myAddress := congrArg (fun r => r.2.2) hx.rest
    refine ⟨?_, ?_, ih.executor.trans hx.executor⟩
    · simp only [pairsEntries, hdeal]
      exact hx.made.append (htimes ▸ ih.made)
    · simp only [Times.recordAll, hdeal]
      rw [ih.rest, htimes, hme, hx.rest]

theorem applyChPrPair_spec (bRound : Int64) (miner : Address) (pairs : List ChPrPair)
    (wm : WalletManager) : Spec (applyChPrPair E pairs) wm
      (fun _ wm' => PairsApplied E bRound miner pairs wm wm')
      fun ie wm' => (∃ m, ie.2 = .panic m) ∨ ∃ pre post, pairs = pre ++ post ∧
        ie.1 = pre.length ∧ PairsApplied E bRound miner pre wm wm' := by
  refine (forEach_spec (I := fun _ => True) (fun cProof _ s _ =>
    (applyPair_spec bRound miner cProof s).mono (fun _ _ h => ⟨trivial, h⟩) fun _ _ h => h)
    trivial).mono (fun _ _ h => pairsApplied_of_steps h.2) ?_
  rintro ie wm' ⟨pre, cProof, post, wm₁, hpairs, hi, hpre, -, ⟨rfl, -⟩ | hpanic⟩
  · exact .inr ⟨pre, cProof :: post, hpairs, hi, pairsApplied_of_steps hpre⟩
  · exact .inl hpanic

/-! ## Transactions and the reward -/

theorem Applied.made {tx : Transaction} (h : Applied E bRound miner tx wm wm') :
    Made E bRound miner (.transaction tx) wm wm' where
  keys := h.keys
  book := h.book
  drift c hc := (h.drift c hc).trans (add_zero _).symm
  sound := h.sound
  checked := ⟨h.valid.sign, h.valid.fee, fun htype => by
    cases h.valid with
    | plain _ hexec => exact hexec.transfer htype
    | vote ht _ => simp [htype] at ht
    | podf _ ht _ => simp [htype] at ht⟩

theorem AllApplied.made {txs : List Transaction} (h : AllApplied E bRound miner txs wm wm') :
    AllMade E bRound miner (txs.map .transaction) wm wm' :=
  Steps.map (h.mono fun _ _ _ _ h => h.made)

theorem move_reward (hm : miner ∈ wm.keys) (reward : Int64) :
    Move E wm (((wm.modifyWallet miner fun w => { w with blockReward := w.blockReward + reward })).credit
      miner E reward) (Book.pay miner reward) := by
  have h := move_modify (E := E)
    (f := fun w => { w with blockReward := w.blockReward + reward }) hm rfl rfl rfl rfl
  simpa using h.trans (move_credit (h.mem hm) reward)

theorem giveBlockReward_spec (hm : miner ∈ wm.keys) (block : PbBlock) :
    Spec (giveBlockReward E block miner) wm
      (fun _ wm' => Move E wm wm' (Book.pay miner (blockReward E block))) fun _ _ => False := by
  simp only [giveBlockReward, spec_bind, spec_modify, spec_addBalance]
  exact move_reward hm _

/-! ## Genesis blocks -/

/-- What is still done for a candidate once the DPOS has been asked. -/
theorem enlist_spec {w : WalletManager} (ha : a ∈ w.keys) (h : Shift E w wm 0) :
    Spec (do setCandidate a true; setNonce a (· + 1) : WM Unit) wm
      (fun _ wm' => Shift E w wm' (Book.bump a 1) ∧ wm'.rest = wm.rest) fun _ _ => False := by
  have ha' := h.keys ▸ ha
  have h₁ := move_modify (E := E) (f := fun w => { w with isCandidate := true }) ha' rfl rfl rfl rfl
  have h₂ := h₁.trans (move_incNonce (h₁.mem ha'))
  rw [spec_bind, spec_setCandidate, spec_setNonce]
  exact ⟨by simpa using h.trans h₂.toShift, h₂.rest⟩

theorem applyDelRegTxForGenesis_spec (miner : Address) {tx : Transaction}
    (htype : tx.type = .becomeCandidate) (wm : WalletManager) :
    Spec (applyDelRegTxForGenesis E tx bRound) wm
      (fun _ wm' => Made E bRound miner (.registered tx.senderId) wm wm' ∧ wm'.rest = wm.rest)
      fun _ _ => False := by
  have hs : tx.senderId ∈ (wm.put tx.senderId).keys := Finset.mem_insert_self _ _
  have hregister : Spec (tryCatch (executeRegisterCandidate tx.senderId) fun _ => pure ())
      (wm.put tx.senderId) (fun _ wm₁ => Shift E (wm.put tx.senderId) wm₁ 0 ∧ wm₁.rest = wm.rest)
      fun _ _ => False := by
    rw [spec_tryCatch]
    refine (executes_register E _ _ hs).mono (fun _ _ h => ⟨h.toShift, h.rest⟩) ?_
    rintro _ _ ⟨rfl, -⟩
    exact ⟨.refl E _, rfl⟩
  rw [applyDelRegTxForGenesis, spec_bind, spec_checkAndPut, spec_bind]
  refine Spec.mono (Q := fun _ wm₁ => wm₁ = wm.put tx.senderId) (R := fun _ _ => False) ?_ ?_ fun _ _ h => h.elim
  · rw [spec_tryCatch]
    refine (isExecutable_spec hs (.inr (.inl htype))).mono (fun _ _ h => h.1) ?_
    rintro _ _ ⟨h, m, rfl⟩
    exact h
  rintro _ _ rfl
  rw [spec_bind, spec_getWallet, if_pos hs]
  refine hregister.bind ?_ fun _ _ h => h
  rintro _ wm₁ ⟨h₁, hrest⟩
  refine (enlist_spec hs h₁).mono (fun _ wm' h => ⟨?_, h.2.trans hrest⟩) fun _ _ h => h
  exact {
    keys := h.1.keys.trans (Finset.union_singleton _ _).symm
    book := h.1.book
    drift := fun c hc => (h.1.drift c (h.1.keys ▸ hc)).trans (add_zero _).symm
    sound := keepsSound_of_book h.1.book (Book.voteless_bump _ _)
    checked := trivial }

theorem registrations_spec (miner : Address) {txs : List Transaction}
    (htypes : ∀ tx ∈ txs, tx.type = .becomeCandidate) (ha : a ∈ wm.keys) :
    Spec (each (fun tx => applyDelRegTxForGenesis E tx bRound) txs) wm
      (fun _ wm' => (a ∈ wm'.keys ∧ wm'.rest = wm.rest) ∧
        AllMade E bRound miner (txs.map fun tx => .registered tx.senderId) wm wm')
      fun _ _ => False := by
  have hround : ∀ tx ∈ txs, ∀ s, a ∈ s.keys ∧ s.rest = wm.rest →
      Spec (applyDelRegTxForGenesis E tx bRound) s (fun _ s' => (a ∈ s'.keys ∧ s'.rest = wm.rest) ∧
        Made E bRound miner (.registered tx.senderId) s s') fun _ _ => False := fun tx htx s hs =>
    (applyDelRegTxForGenesis_spec miner (htypes tx htx) s).mono
      (fun _ _ h => ⟨⟨h.1.keys ▸ Finset.mem_union_left _ hs.1, h.2.trans hs.2⟩, h.1⟩) fun _ _ h => h
  refine (each_spec hround ⟨ha, rfl⟩).mono (fun _ _ h => ⟨h.1, Steps.map h.2⟩) ?_
  rintro _ _ ⟨_, _, _, _, _, _, _, h⟩
  exact h

/-- The entries of a genesis block. -/
def genesisEntries (E : Env) (block : PbBlock) : List Entry :=
  [.opened block.minerPublicKey] ++
    ((block.transactions.filter fun tx => tx.type = .becomeCandidate).map fun tx =>
      .registered tx.senderId) ++
    [.paid block.minerPublicKey (blockReward E block)]

theorem applyGenesis_spec (miner : Address) (block : PbBlock) (wm : WalletManager) :
    Spec (applyGenesis E block) wm
      (fun _ wm' => AllMade E block.roundNum miner (genesisEntries E block) wm wm' ∧
        wm'.myAddress = wm.myAddress)
      fun _ _ => False := by
  have hm : block.minerPublicKey ∈ (wm.put block.minerPublicKey).keys := Finset.mem_insert_self _ _
  have h₁ := move_modify (E := E) (f := fun w => { w with isCandidate := true }) hm rfl rfl rfl rfl
  have hopen : Made E block.roundNum miner (.opened block.minerPublicKey) wm _ := made_opened_of_move h₁
  have htypes : ∀ tx ∈ block.transactions.filter fun tx => tx.type = .becomeCandidate,
      tx.type = .becomeCandidate := fun tx htx => by simpa using (List.mem_filter.1 htx).2
  rw [applyGenesis, spec_bind, spec_checkAndPut, spec_bind, spec_setCandidate]
  refine (registrations_spec miner htypes (h₁.mem hm)).bind ?_ fun _ _ h => h
  rintro _ wm₁ ⟨⟨hm₁, hrest⟩, hall⟩
  refine (giveBlockReward_spec hm₁ block).mono (fun _ wm' h => ⟨?_, ?_⟩) fun _ _ h => h
  · exact ((Steps.single hopen).append hall).append (.single (made_of_shift h.toShift))
  · exact congrArg (fun r => r.2.2) ((h.rest.trans hrest).trans h₁.rest)

/-! ## Blocks -/

/-- The journal of a genesis block or an ordinary block, if `t` are the times before it. -/
def journal (E : Env) (block : PbBlock) (minerAdd : Address) (t : Times) : List Entry :=
  if block.isGenesis then genesisEntries E block
  else
    [.opened minerAdd, .paid minerAdd (blockReward E block)] ++
      block.transactions.map .transaction ++
      block.deals.flatMap (dealEntries E block.roundNum minerAdd) ++
      pairsEntries E t block.chPrPair

/-- The rule for a part of a block that is reverted when it returns an error. -/
theorem orRevert_spec {part : Call WalletManager (ℕ × Err) Unit} {revert : ℕ → WM Unit}
    {Q : Unit → WalletManager → Prop} {R : Err → WalletManager → Prop}
    {R' : ℕ × Err → WalletManager → Prop} (h : Spec part wm Q R')
    (hpanic : ∀ i m wm', R' (i, .panic m) wm' → R (.panic m) wm')
    (herror : ∀ i m wm', R' (i, .error m) wm' →
      Spec (revert i) wm' (fun _ s => R (.error m) s) R) : Spec (orRevert part revert) wm Q R := by
  rcases hpart : part wm with ⟨_ | _, wm₁⟩ <;> unfold Spec orRevert <;> rw [hpart]
  · rename_i ie
    obtain ⟨i, m | m⟩ := ie
    · have hrevert : Spec (do revert i; throw (.error m) : WM Unit) wm₁ Q R :=
        spec_bind.2 (herror i m wm₁ (h.error hpart))
      exact hrevert
    · exact hpanic i m wm₁ (h.error hpart)
  · exact h.ok hpart

/-- If nothing is asked of a call that goes wrong, its reversal does not matter. -/
theorem orRevert_ok {part : Call WalletManager (ℕ × Err) Unit} {revert : ℕ → WM Unit}
    {Q : Unit → WalletManager → Prop} {R : ℕ × Err → WalletManager → Prop} (h : Spec part wm Q R) :
    Spec (orRevert part revert) wm Q fun _ _ => True :=
  orRevert_spec h (fun _ _ _ _ => trivial) fun _ _ _ _ =>
    .intro (fun _ _ _ => trivial) fun _ _ _ => trivial

/-- The parts of an ordinary block that is accepted. -/
structure BlockApplied (E : Env) (block : PbBlock) (miner : Address) (wm t₀ t₁ t₂ wm' : WalletManager) :
    Prop where
  reward : giveBlockReward E block miner wm = (.ok (), t₀)
  transactions : applyTransactions E block.transactions miner block.roundNum t₀ = (.ok (), t₁)
  deals : applyDeals E block.deals miner block.roundNum t₁ = (.ok (), t₂)
  pairs : applyChPrPair E block.chPrPair t₂ = (.ok (), wm')

theorem orRevert_eq_ok {part : Call WalletManager (ℕ × Err) Unit} {revert : ℕ → WM Unit}
    (h : orRevert part revert wm = (.ok (), wm')) : part wm = (.ok (), wm') := by
  unfold orRevert at h
  split at h
  · cases h
    assumption
  · cases h
  · obtain ⟨_, _, _, hthrow⟩ := bind_ok h
    cases hthrow

theorem applyBlock_parts {block : PbBlock} {order : MapOrder}
    (h : applyBlock E block miner order wm = (.ok (), wm')) :
    ∃ t₀ t₁ t₂, BlockApplied E block miner wm t₀ t₁ t₂ wm' := by
  obtain ⟨_, t₀, h₀, h⟩ := bind_ok h
  obtain ⟨_, t₁, h₁, h⟩ := bind_ok h
  obtain ⟨_, t₂, h₂, h₃⟩ := bind_ok h
  exact ⟨t₀, t₁, t₂, h₀, orRevert_eq_ok h₁, orRevert_eq_ok h₂, orRevert_eq_ok h₃⟩

theorem restAfter_snd (tx : Transaction) (r : Rest) : (restAfter E tx r).2 = r.2 := by
  unfold restAfter
  split <;> rfl

theorem AllApplied.rest_snd {txs : List Transaction} (h : AllApplied E bRound miner txs wm wm') :
    wm'.rest.2 = wm.rest.2 := by
  induction h with
  | nil => rfl
  | cons hx _ ih => rw [ih, hx.rest, restAfter_snd]

theorem applyBlock_spec (hm : miner ∈ wm.keys) (block : PbBlock) (order : MapOrder) :
    Spec (applyBlock E block miner order) wm
      (fun _ wm' => AllMade E block.roundNum miner
        ([.paid miner (blockReward E block)] ++ block.transactions.map .transaction ++
          block.deals.flatMap (dealEntries E block.roundNum miner) ++
          pairsEntries E wm.times block.chPrPair) wm wm' ∧ wm'.myAddress = wm.myAddress)
      fun _ _ => True := by
  rw [applyBlock]
  refine (giveBlockReward_spec hm block).bind (fun _ wm₁ h₁ => ?_) fun _ _ h => h.elim
  refine (orRevert_ok (applyTransactions_spec (h₁.mem hm) _)).bind (fun _ wm₂ h₂ => ?_) fun _ _ h => h
  refine (orRevert_ok (applyDeals_spec h₂.1 _)).bind (fun _ wm₃ h₃ => ?_) fun _ _ h => h
  refine (orRevert_ok (applyChPrPair_spec block.roundNum miner _ wm₃)).mono (fun _ wm₄ h₄ => ?_)
    fun _ _ h => h
  have hrest : wm₃.rest.2 = wm.rest.2 :=
    (congrArg Prod.snd h₃.rest).trans ((AllApplied.rest_snd h₂.2).trans (congrArg Prod.snd h₁.rest))
  have htimes : wm₃.times = wm.times := congrArg Prod.fst hrest
  have hpaid : AllMade E block.roundNum miner [.paid miner (blockReward E block)] wm wm₁ :=
    .single (made_of_shift h₁.toShift)
  refine ⟨((hpaid.append (AllApplied.made h₂.2)).append h₃.made).append (htimes ▸ h₄.made), ?_⟩
  exact (congrArg (fun r => r.2.2) h₄.rest).trans (congrArg Prod.snd hrest)

/-- **What an accepted block does**, unless it is a digest block. -/
theorem accepted_made {block : PbBlock} {order : MapOrder}
    (hblock : block.isGenesis = true ∨ block.isDigestBlock = false)
    (h : checkAndUpdateWalletStates E block miner order wm = (.ok (), wm')) :
    AllMade E block.roundNum miner (journal E block miner wm.times) wm wm' ∧
      wm'.myAddress = wm.myAddress := by
  unfold checkAndUpdateWalletStates at h
  unfold journal
  by_cases hg : block.isGenesis = true
  · rw [if_pos hg] at h ⊢
    exact (applyGenesis_spec miner block wm).ok h
  · have hd := hblock.resolve_left hg
    simp only [if_neg hg, hd, Bool.false_eq_true, if_false] at h ⊢
    have hm : miner ∈ (wm.put miner).keys := Finset.mem_insert_self _ _
    have hspec : Spec (do checkAndPutWalletByAddress miner; applyBlock E block miner order) wm _ _ :=
      spec_bind.2 (spec_checkAndPut.2 (applyBlock_spec hm block order))
    obtain ⟨hmade, hme⟩ := hspec.ok h
    have hopen : Made E block.roundNum miner (.opened miner) wm _ := made_opened_of_move (.refl E _)
    exact ⟨.cons hopen hmade, hme⟩

end WalletManager
end Timbre
