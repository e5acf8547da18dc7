/-
  The reversal of deals.

  A deal charges the authors of its posts and pays the miner; the reversal refunds the
  posters.  What the vote power is told of a charge or a refund is computed in `uint32` and
  need not be what is booked.  **The reversal restores balances and vote powers exactly if
  every poster has a wallet, every address gets back what it has paid, and what the vote
  powers are told amiss cancels out** (`deals_undone_iff`).
-/
import Timbre.Wallet.Charges
import Timbre.Wallet.Undo

namespace Timbre

open Call

/-- The addresses that get a wallet for a deal. -/
def Deal.opens (deal : Deal) : List Address := deal.spid :: deal.list.map Post.authorAddress

/-! ## Ledgers -/

/-- A line of a ledger: an amount for an account, and what the vote powers are told of it. -/
structure Line where
  account : Address
  amount : Int64
  told : Int64

namespace Line

variable {E : Env} {b : Book} {K : Finset Address} {a c : Address} {x : Line} {xs ys : List Line}

/-- What the vote power of `c` gets in excess, if `b` are the accounts before the line and
    `K` the wallets after it.  A vote power without a wallet is told nothing. -/
def gap (E : Env) (K : Finset Address) (b : Book) (c : Address) (x : Line) : UInt64 :=
  let payer := b x.account
  E.share (payer.votes c) payer.balance -
    E.share (payer.votes c) (payer.balance + x.amount - if c ∈ K then x.told else 0)

/-- What the vote power of `c` gets in excess in a ledger. -/
def gaps (E : Env) (c : Address) : Finset Address → Book → List Line → UInt64
  | _, _, [] => 0
  | K, b, x :: xs => x.gap E (insert x.account K) b c +
      gaps E c (insert x.account K) (b + Book.pay x.account x.amount) xs

/-- What a ledger books on an account. -/
def booked (a : Address) (xs : List Line) : Int64 :=
  (xs.map fun x => if x.account = a then x.amount else 0).sum

theorem booked_cons (x : Line) (xs : List Line) :
    booked a (x :: xs) = (if x.account = a then x.amount else 0) + booked a xs := List.sum_cons

theorem booked_append (xs ys : List Line) : booked a (xs ++ ys) = booked a xs + booked a ys := by
  simp [booked]

/-- A line that tells the vote powers what it books leaves none of them behind. -/
theorem gap_of_told (hc : c ∈ K) (h : x.told = x.amount) : x.gap E K b c = 0 := by
  simp only [gap, if_pos hc, h, add_sub_cancel_right, sub_self]

end Line

namespace WalletManager

variable {E : Env} {bRound : Int64} {miner a c : Address} {wm wm' wm₁ wm₂ : WalletManager}
  {x : Line} {xs : List Line} {post : Post} {posts : List Post} {deal : Deal} {deals : List Deal}

/-- The line has been booked; the account has got a wallet, if it had none. -/
structure Booked (E : Env) (x : Line) (wm wm' : WalletManager) : Prop where
  keys : wm'.keys = insert x.account wm.keys
  book : wm'.book = wm.book + Book.pay x.account x.amount
  drift : ∀ c, wm'.drift E c = wm.drift E c + x.gap E wm'.keys wm.book c

/-- Without a wallet an address loses what the change of an account would give to it. -/
theorem booked_of_told (hkeys : wm'.keys = insert x.account wm.keys)
    (hbook : wm'.book = wm.book + Book.pay x.account x.amount)
    (hdrift : ∀ c ∈ wm'.keys, wm'.drift E c = wm.drift E c +
      (E.share ((wm.book x.account).votes c) (wm.book x.account).balance -
        E.share ((wm.book x.account).votes c) ((wm.book x.account).balance + x.amount - x.told))) :
    Booked E x wm wm' where
  keys := hkeys
  book := hbook
  drift c := by
    by_cases hc : c ∈ wm'.keys
    · rw [hdrift c hc, Line.gap, if_pos hc]
    · have hold : c ∉ wm.keys := fun h => hc (hkeys ▸ Finset.mem_insert_of_mem h)
      have hstake : wm'.book.stake E c = _ := stake_change (a := x.account) wm
        (fun v hv => by rw [hbook, Pi.add_apply, Book.pay, Pi.single_eq_of_ne hv, add_zero]) c
      have hself : wm'.book x.account = wm.book x.account + ⟨x.amount, 0, 0, 0⟩ := by
        rw [hbook, Pi.add_apply, Book.pay, Pi.single_eq_same]
      rw [drift_absent hc, drift_absent hold, hstake, hself, Line.gap, if_neg hc]
      simp only [Account.balance_add, Account.votes_add, add_zero, sub_zero]
      abel

/-- An amount of which the vote powers are told. -/
theorem booked_of_shift {d : Int64} (ha : a ∈ wm.keys) (h : Shift E wm wm' (Book.pay a d)) :
    Booked E ⟨a, d, d⟩ wm wm' := by
  refine booked_of_told (h.keys.trans (Finset.insert_eq_of_mem ha).symm) h.book fun c hc => ?_
  rw [h.drift c (h.keys ▸ hc), add_sub_cancel_right, sub_self, add_zero]

theorem booked_put (wm : WalletManager) (a : Address) : Booked E ⟨a, 0, 0⟩ wm (wm.put a) := by
  have hpay : Book.pay a 0 = 0 := Pi.single_zero a
  refine booked_of_told rfl (by rw [hpay, add_zero, book_put]) fun c _ => ?_
  rw [drift_put, add_zero, sub_zero, sub_self, add_zero]

theorem bookedAll_keys (h : Steps (Booked E) xs wm wm') :
    wm'.keys = wm.keys ∪ (xs.map Line.account).toFinset := by
  induction h with
  | nil => simp
  | cons hx _ ih => rw [ih, hx.keys, List.map_cons, List.toFinset_cons, Finset.insert_union, Finset.union_insert]

theorem bookedAll_book (h : Steps (Booked E) xs wm wm') (a : Address) :
    wm'.book a = wm.book a + ⟨Line.booked a xs, 0, 0, 0⟩ := by
  induction h with
  | nil => exact (add_zero _).symm
  | @cons x xs s s₁ s' hx _ ih =>
    have hpay : Book.pay x.account x.amount a = ⟨if x.account = a then x.amount else 0, 0, 0, 0⟩ := by
      unfold Book.pay
      by_cases ha : x.account = a
      · rw [if_pos ha, ha, Pi.single_eq_same]
      · rw [if_neg ha, Pi.single_eq_of_ne (Ne.symm ha)]
        rfl
    rw [ih, hx.book, Pi.add_apply, hpay, add_assoc, Account.mk_add_mk, Line.booked_cons]
    rfl

/-- **What the vote powers get in excess in a ledger.** -/
theorem bookedAll_drift (h : Steps (Booked E) xs wm wm') (c : Address) :
    wm'.drift E c = wm.drift E c + Line.gaps E c wm.keys wm.book xs := by
  induction h with
  | nil => exact (add_zero _).symm
  | cons hx _ ih => rw [ih, hx.drift, hx.keys, hx.book, Line.gaps, add_assoc]

/-! ## The lines of a deal -/

def chargeLine (E : Env) (bRound : Int64) (post : Post) : Line :=
  ⟨post.authorAddress, -postPrice E post bRound, Entry.told E bRound post⟩

def refundLine (E : Env) (bRound : Int64) (post : Post) : Line :=
  ⟨post.pid, postPrice E post bRound, (post.maxCost + postFee E post bRound).toUInt64.toInt64⟩

theorem toInt64_toUInt64 (x : UInt32) : x.toUInt64.toInt64 = Int64.ofNat x.toNat := by
  rw [← Int64.toBitVec_inj]
  apply BitVec.eq_of_toNat_eq
  simp

/-- The vote powers are told of a charge that the balance of the payer has grown by what is
    missing to `2 ^ 32`. -/
theorem price_add_told (h : 0 < post.maxCost.toNat + (postFee E post bRound).toNat)
    (h' : post.maxCost.toNat + (postFee E post bRound).toNat < 2 ^ 32) :
    postPrice E post bRound + Entry.told E bRound post = 4294967296 := by
  have htold : (0 - post.maxCost - postFee E post bRound).toNat =
      2 ^ 32 - (post.maxCost.toNat + (postFee E post bRound).toNat) := by
    rw [UInt32.toNat_sub, UInt32.toNat_sub, UInt32.toNat_zero]
    omega
  rw [postPrice, Entry.told, toInt64_toUInt64, toInt64_toUInt64, toInt64_toUInt64, htold,
    ← Int64.ofNat_add, ← Int64.ofNat_add, Nat.add_sub_cancel' h'.le]
  rfl

/-- **What is wrong with a charge.**  The vote power of a candidate keeps the share that the
    payer gives to it, and loses the one it would give with `2 ^ 32` less on its account. -/
theorem gap_chargeLine {K : Finset Address} {b : Book} (hc : c ∈ K)
    (h : 0 < post.maxCost.toNat + (postFee E post bRound).toNat)
    (h' : post.maxCost.toNat + (postFee E post bRound).toNat < 2 ^ 32) :
    (chargeLine E bRound post).gap E K b c =
      E.share ((b post.authorAddress).votes c) (b post.authorAddress).balance -
        E.share ((b post.authorAddress).votes c) ((b post.authorAddress).balance - 4294967296) := by
  rw [Line.gap, if_pos hc, chargeLine, ← price_add_told h h']
  simp only [sub_eq_add_neg, neg_add, add_assoc]

/-- The vote powers are told the truth of a refund, unless it reaches `2 ^ 32`. -/
theorem gap_refundLine {K : Finset Address} {b : Book} (hc : c ∈ K)
    (h' : post.maxCost.toNat + (postFee E post bRound).toNat < 2 ^ 32) :
    (refundLine E bRound post).gap E K b c = 0 := by
  refine Line.gap_of_told hc ?_
  rw [refundLine, postPrice, toInt64_toUInt64, toInt64_toUInt64, toInt64_toUInt64, ← Int64.ofNat_add,
    UInt32.toNat_add, Nat.mod_eq_of_lt h']

/-- What `applyDeals` books for a deal. -/
def dealLines (E : Env) (bRound : Int64) (miner : Address) (deal : Deal) : List Line :=
  [⟨deal.spid, 0, 0⟩] ++ deal.list.map (chargeLine E bRound) ++
    [⟨miner, dealFee E deal bRound, dealFee E deal bRound⟩]

/-- What `RevertDeals` books for a deal. -/
def undoLines (E : Env) (bRound : Int64) (miner : Address) (deal : Deal) : List Line :=
  [⟨deal.spid, 0, 0⟩] ++ deal.list.map (refundLine E bRound) ++
    [⟨miner, -dealFee E deal bRound, -dealFee E deal bRound⟩]

theorem chargePost_booked (post : Post) (wm : WalletManager) :
    Spec (chargePost E bRound post) wm
      (fun _ wm' => Booked E (chargeLine E bRound post) wm wm') fun _ _ => True := by
  refine (chargePost_spec post.pid post wm).mono (fun _ wm' h => ?_) fun _ _ _ => trivial
  cases h.made with
  | cons hx hnil =>
    cases hnil
    refine booked_of_told (hx.keys.trans (Finset.union_singleton _ _)) hx.book fun c hc => ?_
    rw [hx.drift c hc, Entry.gap, chargeLine]
    simp only [sub_eq_add_neg]

theorem chargePosts_booked (posts : List Post) (wm : WalletManager) :
    Spec (each (chargePost E bRound) posts) wm
      (fun _ wm' => Steps (Booked E) (posts.map (chargeLine E bRound)) wm wm') fun _ _ => True := by
  have hstep : ∀ post ∈ posts, ∀ s, True → Spec (chargePost E bRound post) s
      (fun _ s' => True ∧ Booked E (chargeLine E bRound post) s s') fun _ _ => True := fun post _ s _ =>
    (chargePost_booked post s).mono (fun _ _ h => ⟨trivial, h⟩) fun _ _ h => h
  exact (each_spec hstep trivial).mono (fun _ _ h => h.2.map) fun _ _ _ => trivial

theorem Booked.mem (h : Booked E x wm wm') (ha : a ∈ wm.keys) : a ∈ wm'.keys :=
  h.keys ▸ Finset.mem_insert_of_mem ha

theorem bookedAll_mem (h : Steps (Booked E) xs wm wm') (ha : a ∈ wm.keys) : a ∈ wm'.keys :=
  Steps.invariant (I := fun wm => a ∈ wm.keys) h ha fun _ _ _ _ hs hx => hx.mem hs

theorem applyDeal_booked (hm : miner ∈ wm.keys) (deal : Deal) :
    Spec (applyDeal E miner bRound deal) wm
      (fun _ wm' => Steps (Booked E) (dealLines E bRound miner deal) wm wm') fun _ _ => True := by
  simp only [applyDeal, validateDeal, spec_bind, spec_get, spec_ite, spec_throw, spec_pure,
    spec_checkAndPut, spec_addBalance, spec_modify]
  split_ifs
  have h₀ : Steps (Booked E) [⟨deal.spid, 0, 0⟩] wm _ := .single (booked_put wm deal.spid)
  refine (chargePosts_booked deal.list _).mono (fun _ wm₁ h₁ => ?_) fun _ _ _ => trivial
  have h₂ := h₀.append h₁
  have hm₂ := bookedAll_mem h₂ hm
  exact h₂.append (.single (booked_of_shift hm₂ (move_fee hm₂ _).toShift))

theorem applyDeals_booked (hm : miner ∈ wm.keys) (deals : List Deal) :
    Spec (applyDeals E deals miner bRound) wm
      (fun _ wm' => Steps (Booked E) (deals.flatMap (dealLines E bRound miner)) wm wm')
      fun _ _ => True := by
  have hstep : ∀ deal ∈ deals, ∀ s, miner ∈ s.keys → Spec (applyDeal E miner bRound deal) s
      (fun _ s' => miner ∈ s'.keys ∧ Steps (Booked E) (dealLines E bRound miner deal) s s')
      fun _ _ => True := fun deal _ s hs =>
    (applyDeal_booked hs deal).mono (fun _ _ h => ⟨bookedAll_mem h hs, h⟩) fun _ _ h => h
  exact (forEach_spec hstep hm).mono (fun _ _ h => h.2.flatMap) fun _ _ _ => trivial

/-! ## The reversal -/

/-- A line has been booked, and only accounts have changed. -/
structure Refunded (E : Env) (x : Line) (wm wm' : WalletManager) : Prop extends Booked E x wm wm' where
  rest : wm'.rest = wm.rest
  executor : wm'.executor = wm.executor

/-- With the wallets `K`, the call books the lines up to the first one on an account that has no
    wallet. -/
def Refunds (E : Env) (K : Finset Address) : List Line → WM Unit → Prop :=
  Performs (fun wm => wm.keys = K) (Refunded E) (fun x => x.account ∈ K) fun e => ∃ m, e = .error m

variable {K : Finset Address}

theorem refunds_post (post : Post) : Refunds E K [refundLine E bRound post] (refundPost E bRound post) := by
  refine Performs.single fun wm hk => ?_
  subst hk
  simp only [refundPost, spec_bind, spec_getWallet, spec_modify, spec_reAssignVotePower]
  split_ifs with hp
  · refine ⟨Finset.insert_eq_of_mem hp, hp, booked_of_told rfl ?_ fun c hc => ?_, ?_, rfl⟩
    · rw [book_reAssign]
      exact book_modifyWallet_add (by simp [Wallet.account, refundLine])
    · exact drift_told rfl rfl hc
    · rw [rest_reAssign, rest_modifyWallet rfl rfl]
  · exact ⟨⟨_, rfl⟩, trivial, hp⟩

theorem refunds_put (ha : a ∈ K) : Refunds E K [⟨a, 0, 0⟩] (checkAndPutWalletByAddress a) := by
  refine Performs.single fun wm hk => ?_
  subst hk
  exact ⟨Finset.insert_eq_of_mem ha, ha, booked_put wm a, rfl, rfl⟩

theorem refunds_unfee (hm : miner ∈ K) (fee : Int64) : Refunds E K [⟨miner, -fee, -fee⟩] (do
    subBalance E miner fee
    modify fun wm => wm.modifyWallet miner fun w => { w with transactionFee := w.transactionFee - fee }) := by
  refine Performs.single fun wm hk => ?_
  subst hk
  have h := move_unfee (E := E) hm fee
  exact ⟨h.keys, hm, booked_of_shift hm h.toShift, h.rest, h.executor⟩

theorem refunds_deal (hm : miner ∈ K) (hs : deal.spid ∈ K) :
    Refunds E K (undoLines E bRound miner deal) (revertDeal E miner bRound deal) := by
  have hposts : Refunds E K (deal.list.map (refundLine E bRound)) (each (refundPost E bRound) deal.list) := by
    rw [List.map_eq_flatMap]
    exact Performs.each fun post _ => refunds_post post
  exact ((refunds_put hs).bind hposts).bind (refunds_unfee hm _)

/-- **The reversal of deals refunds the posts up to the first poster who has no wallet.** -/
theorem refunds_deals (hm : miner ∈ K) (hs : ∀ deal ∈ deals, deal.spid ∈ K) :
    Refunds E K (deals.flatMap (undoLines E bRound miner)) (revertDeals E deals miner bRound) :=
  Performs.each fun deal hdeal => refunds_deal hm (hs deal hdeal)

/-- Every poster has a wallet. -/
def Housed (K : Finset Address) (posts : List Post) : Prop := ∀ post ∈ posts, post.pid ∈ K

instance (K : Finset Address) (posts : List Post) : Decidable (Housed K posts) :=
  inferInstanceAs (Decidable (∀ post ∈ posts, post.pid ∈ K))

theorem housed_iff (hm : miner ∈ K) (hs : ∀ deal ∈ deals, deal.spid ∈ K) :
    (∀ x ∈ deals.flatMap (undoLines E bRound miner), x.account ∈ K) ↔ Housed K (deals.flatMap Deal.list) := by
  constructor
  · intro h post hpost
    obtain ⟨deal, hdeal, hpost⟩ := List.mem_flatMap.1 hpost
    refine h (refundLine E bRound post) (List.mem_flatMap.2 ⟨deal, hdeal, ?_⟩)
    simp only [undoLines, List.mem_append, List.mem_map]
    exact .inl (.inr ⟨post, hpost, rfl⟩)
  · intro h x hx
    obtain ⟨deal, hdeal, hx⟩ := List.mem_flatMap.1 hx
    simp only [undoLines, List.mem_append, List.mem_singleton, List.mem_map] at hx
    rcases hx with (rfl | ⟨post, hpost, rfl⟩) | rfl
    · exact hs deal hdeal
    · exact h post (List.mem_flatMap.2 ⟨deal, hdeal, hpost⟩)
    · exact hm

theorem revertDeals_booked (hm : miner ∈ wm.keys) (hs : ∀ deal ∈ deals, deal.spid ∈ wm.keys) :
    Spec (revertDeals E deals miner bRound) wm
      (fun _ wm' => Housed wm.keys (deals.flatMap Deal.list) ∧
        Steps (Booked E) (deals.flatMap (undoLines E bRound miner)) wm wm')
      fun _ _ => ¬ Housed wm.keys (deals.flatMap Deal.list) := by
  have hhoused : (∀ x ∈ deals.flatMap (undoLines E bRound miner), x.account ∈ wm.keys) ↔ _ :=
    housed_iff hm hs
  exact (refunds_deals hm hs wm rfl).mono
    (fun _ _ h => ⟨hhoused.1 h.2.1, h.2.2.mono fun _ _ _ _ h => h.toBooked⟩)
    fun _ _ h => fun hh => h.2.2.1 (hhoused.2 hh)

/-! ## The state after the reversal -/

/-- What an address pays for posts. -/
def paidBy (E : Env) (bRound : Int64) (a : Address) (posts : List Post) : Int64 :=
  (posts.map fun post => if post.authorAddress = a then postPrice E post bRound else 0).sum

/-- What an address gets back for posts. -/
def repaidTo (E : Env) (bRound : Int64) (a : Address) (posts : List Post) : Int64 :=
  (posts.map fun post => if post.pid = a then postPrice E post bRound else 0).sum

/-- The ledger of some deals and their reversal. -/
def undoLedger (E : Env) (bRound : Int64) (miner : Address) (deals : List Deal) : List Line :=
  deals.flatMap (dealLines E bRound miner) ++ deals.flatMap (undoLines E bRound miner)

/-- Balances and vote powers are what they were before some deals. -/
structure DealsUndone (wm wm' : WalletManager) : Prop where
  balance : ∀ a, (wm'.wallet a).balance = (wm.wallet a).balance
  votePower : ∀ a, (wm'.wallet a).votePower = (wm.wallet a).votePower

/-- The wallets stand some deals and their reversal. -/
structure DealsUndoable (E : Env) (wm : WalletManager) (miner : Address) (bRound : Int64)
    (deals : List Deal) : Prop where
  /-- there is a wallet for every poster -/
  housed : Housed (wm.keys ∪ (deals.flatMap Deal.opens).toFinset) (deals.flatMap Deal.list)
  /-- everybody gets back what he has paid -/
  square : ∀ a, paidBy E bRound a (deals.flatMap Deal.list) = repaidTo E bRound a (deals.flatMap Deal.list)
  /-- what the vote powers are told amiss cancels out -/
  even : ∀ c, Line.gaps E c wm.keys wm.book (undoLedger E bRound miner deals) = 0

theorem booked_charges (a : Address) (posts : List Post) :
    Line.booked a (posts.map (chargeLine E bRound)) = -paidBy E bRound a posts := by
  induction posts with
  | nil => simp [Line.booked, paidBy]
  | cons post posts ih =>
    rw [List.map_cons, Line.booked_cons, ih, chargeLine, paidBy, paidBy, List.map_cons, List.sum_cons, neg_add]
    split_ifs <;> simp

theorem booked_refunds (a : Address) (posts : List Post) :
    Line.booked a (posts.map (refundLine E bRound)) = repaidTo E bRound a posts := by
  rw [Line.booked, repaidTo, List.map_map]
  rfl

/-- The fees of the miner cancel out. -/
theorem booked_undoLedger (a : Address) (deals : List Deal) :
    Line.booked a (undoLedger E bRound miner deals) =
      repaidTo E bRound a (deals.flatMap Deal.list) - paidBy E bRound a (deals.flatMap Deal.list) := by
  induction deals with
  | nil => simp [undoLedger, Line.booked, paidBy, repaidTo]
  | cons deal deals ih =>
    rw [undoLedger, Line.booked_append] at ih ⊢
    have hpaid : paidBy E bRound a (deal.list ++ deals.flatMap Deal.list) =
        paidBy E bRound a deal.list + paidBy E bRound a (deals.flatMap Deal.list) := by
      simp [paidBy]
    have hrepaid : repaidTo E bRound a (deal.list ++ deals.flatMap Deal.list) =
        repaidTo E bRound a deal.list + repaidTo E bRound a (deals.flatMap Deal.list) := by
      simp [repaidTo]
    have hsingle : ∀ x : Line, Line.booked a [x] = if x.account = a then x.amount else 0 := by
      intro x
      simp [Line.booked]
    simp only [List.flatMap_cons, Line.booked_append, dealLines, undoLines, booked_charges,
      booked_refunds, hsingle, hpaid, hrepaid, ite_self]
    rw [eq_sub_of_add_eq ih]
    split_ifs <;> abel

theorem keys_applyDeals (hm : miner ∈ wm.keys)
    (h : Steps (Booked E) (deals.flatMap (dealLines E bRound miner)) wm wm₁) :
    wm₁.keys = wm.keys ∪ (deals.flatMap Deal.opens).toFinset := by
  have hlines : ∀ deal : Deal, (dealLines E bRound miner deal).map Line.account = deal.opens ++ [miner] := by
    intro deal
    simp [dealLines, Deal.opens, chargeLine, Function.comp_def]
  ext a
  rw [bookedAll_keys h, List.map_flatMap]
  simp only [hlines, Finset.mem_union, List.mem_toFinset, List.mem_flatMap, List.mem_append,
    List.mem_singleton]
  constructor
  · rintro (ha | ⟨deal, hdeal, ha | rfl⟩)
    · exact .inl ha
    · exact .inr ⟨deal, hdeal, ha⟩
    · exact .inl hm
  · rintro (ha | ⟨deal, hdeal, ha⟩)
    · exact .inl ha
    · exact .inr ⟨deal, hdeal, .inl ha⟩

/-- With the balances restored, the vote powers are restored as far as they have been told
    what was booked. -/
theorem votePower_restored_of_ledger (h : Steps (Booked E) xs wm wm') (hbook : wm'.book = wm.book)
    (c : Address) : (wm'.wallet c).votePower = (wm.wallet c).votePower ↔
      Line.gaps E c wm.keys wm.book xs = 0 := by
  have hdrift := bookedAll_drift h c
  rw [drift, drift, hbook, sub_add_eq_add_sub, sub_left_inj] at hdrift
  rw [hdrift, add_eq_left]

/-- **Deals that are reverted** leave balances and vote powers as they were exactly if every
    poster has a wallet, everybody gets back what he has paid, and what the vote powers are
    told amiss cancels out. -/
theorem deals_undone_iff (E : Env) (wm wm₁ wm₂ : WalletManager) (deals : List Deal) (miner : Address)
    (bRound : Int64) (result : Except Err Unit) (hm : miner ∈ wm.keys)
    (happly : applyDeals E deals miner bRound wm = (.ok (), wm₁))
    (hrevert : revertDeals E deals miner bRound wm₁ = (result, wm₂)) :
    result = .ok () ∧ DealsUndone wm wm₂ ↔ DealsUndoable E wm miner bRound deals := by
  have h₁ := (applyDeals_booked hm deals).ok happly
  have hkeys := keys_applyDeals hm h₁
  have hs : ∀ deal ∈ deals, deal.spid ∈ wm₁.keys := by
    intro deal hdeal
    rw [hkeys, Finset.mem_union, List.mem_toFinset]
    exact .inr (List.mem_flatMap.2 ⟨deal, hdeal, List.mem_cons_self⟩)
  have hspec : Spec (revertDeals E deals miner bRound) wm₁ _ _ :=
    revertDeals_booked (bookedAll_mem h₁ hm) hs
  rw [hkeys] at hspec
  cases result with
  | error e => exact ⟨fun h => (nomatch h.1), fun h => absurd h.housed (hspec.error hrevert)⟩
  | ok u =>
    obtain ⟨hhoused, h₂⟩ := hspec.ok hrevert
    have h : Steps (Booked E) (undoLedger E bRound miner deals) wm wm₂ := h₁.append h₂
    have hbalance : ∀ a, (wm₂.wallet a).balance = (wm.wallet a).balance ↔
        paidBy E bRound a (deals.flatMap Deal.list) = repaidTo E bRound a (deals.flatMap Deal.list) := by
      intro a
      have ha : (wm₂.wallet a).balance = _ := congrArg Account.balance (bookedAll_book h a)
      rw [ha, booked_undoLedger, eq_comm (b := repaidTo _ _ _ _), ← sub_eq_zero (a := repaidTo _ _ _ _)]
      exact add_eq_left
    have hbook (hsq : ∀ a, paidBy E bRound a (deals.flatMap Deal.list) =
        repaidTo E bRound a (deals.flatMap Deal.list)) : wm₂.book = wm.book := by
      funext a
      rw [bookedAll_book h a, booked_undoLedger, hsq a, sub_self]
      exact add_zero _
    constructor
    · rintro ⟨-, hundone⟩
      have hsquare := fun a => (hbalance a).1 (hundone.balance a)
      exact ⟨hhoused, hsquare, fun c =>
        (votePower_restored_of_ledger h (hbook hsquare) c).1 (hundone.votePower c)⟩
    · intro hable
      exact ⟨rfl, fun a => (hbalance a).2 (hable.square a), fun c =>
        (votePower_restored_of_ledger h (hbook hable.square) c).2 (hable.even c)⟩

/-! ## Two deals that even each other out, and a payer who has voted -/

/-- The wallets after some deals. -/
def afterDeals (deals : List Deal) (wm : WalletManager) : WalletManager := (applyDeals Env.simple deals "m" 2 wm).2

/-- The wallets after the deals have been reverted. -/
def afterDealsUndo (deals : List Deal) (wm : WalletManager) : WalletManager :=
  (revertDeals Env.simple deals "m" 2 (afterDeals deals wm)).2

/-- Two deals with a post each, of which `"a"` is the author of one and the payee of the other, and `"b"` likewise. -/
def crossedDeals : List Deal :=
  [{ dealOfA with list := [⟨"a", "b", 100, "", ""⟩] }, { dealOfA with list := [⟨"b", "a", 100, "", ""⟩] }]

theorem deals_undone_iff_crossed : .ok () = (.ok () : Except Err Unit) ∧
    DealsUndone (newWalletManager "m") (afterDealsUndo crossedDeals (newWalletManager "m")) ↔
      DealsUndoable Env.simple (newWalletManager "m") "m" 2 crossedDeals :=
  deals_undone_iff Env.simple _ (afterDeals crossedDeals (newWalletManager "m")) _ crossedDeals "m" 2 (.ok ())
    (by decide) (Prod.ext (by decide) rfl) (Prod.ext (by decide) rfl)

/-- Wallets in which `"a"` has given half of its votes to the miner. -/
def halfVoted : WalletManager :=
  ((newWalletManager "m").modifyWallet "a" fun w =>
    { w with voted := w.voted.set "m" 50, voteLeft := 50 }).modifyWallet "m" fun w =>
      w.addVotePower 5000000

/-- The charge wraps around: the vote power of the miner is told that the balance of the
    payer has grown by almost `2 ^ 32`. -/
theorem not_deals_undone : ¬ ∀ (E : Env) (wm wm₁ wm₂ : WalletManager) (deals : List Deal)
    (miner : Address) (bRound : Int64) (result : Except Err Unit), miner ∈ wm.keys →
    applyDeals E deals miner bRound wm = (.ok (), wm₁) →
    revertDeals E deals miner bRound wm₁ = (result, wm₂) → result = .ok () ∧ DealsUndone wm wm₂ := by
  intro h
  have hundone := (h Env.simple halfVoted (afterDeals [dealOfA] halfVoted) (afterDealsUndo [dealOfA] halfVoted) [dealOfA] "m" 2
    (.ok ()) (by decide) (Prod.ext (by decide) rfl) (Prod.ext (by decide) rfl)).2
  have hpower := hundone.votePower "m"
  revert hpower
  decide

end WalletManager
end Timbre
