/-
  Ledgers: all that is booked from one state to another, whoever books it.

  An item adds wallets and changes the accounts by its effect; what the vote powers are told
  may differ from it.  The entries of a journal, the lines of a refund and the reversal of a
  transaction are items.  **With the accounts restored, the vote power of a candidate is
  restored exactly if its gaps cancel out** (`votePower_restored_of_entered`).
-/
import Timbre.Wallet.DealsUndo

namespace Timbre

open Call

/-- An item of a ledger. -/
structure Item where
  /-- the addresses that get a wallet -/
  opens : Finset Address
  effect : Book
  /-- what the vote power of a wallet is told in excess, from the accounts before the item -/
  excess : Book → Address → UInt64

namespace Item

variable {E : Env} {b : Book} {K : Finset Address} {c : Address} {x : Item} {xs ys : List Item}

/-- What the vote power of `c` gets in excess, if `b` are the accounts before the item and `K`
    the wallets after it.  Without a wallet it misses all that the shares change by. -/
noncomputable def gap (E : Env) (K : Finset Address) (b : Book) (c : Address) (x : Item) : UInt64 :=
  if c ∈ K then x.excess b c else b.stake E c - (b + x.effect).stake E c

/-- What the vote power of `c` gets in excess in a ledger. -/
noncomputable def gaps (E : Env) (c : Address) : Finset Address → Book → List Item → UInt64
  | _, _, [] => 0
  | K, b, x :: xs => x.gap E (K ∪ x.opens) b c + gaps E c (K ∪ x.opens) (b + x.effect) xs

/-- The effect of a ledger. -/
def total (xs : List Item) : Book := (xs.map effect).sum

@[simp] theorem total_nil : total [] = 0 := rfl

@[simp]
theorem total_cons (x : Item) (xs : List Item) : total (x :: xs) = x.effect + total xs := List.sum_cons

@[simp]
theorem total_append (xs ys : List Item) : total (xs ++ ys) = total xs + total ys := by
  simp [total]

end Item

/-- The effect is one on balances only. -/
def Book.Monetary (e : Book) : Prop := e.Voteless ∧ ∀ a, (e a).nonce = 0

namespace Book

variable {e e' : Book}

theorem monetary_zero : (0 : Book).Monetary := ⟨fun _ => ⟨rfl, rfl⟩, fun _ => rfl⟩

theorem monetary_pay (a : Address) (d : Int64) : (pay a d).Monetary :=
  ⟨voteless_pay a d, fun b => Transaction.nonce_pay a b d⟩

theorem Monetary.add (h : e.Monetary) (h' : e'.Monetary) : (e + e').Monetary := by
  refine ⟨h.1.add h'.1, fun a => ?_⟩
  rw [Pi.add_apply, Account.nonce_add, h.2, h'.2, add_zero]

/-- Effects that differ in balances only agree on nonces. -/
theorem Monetary.nonce (h : (e - e').Monetary) (a : Address) : (e a).nonce = (e' a).nonce := by
  have hsum : e a = (e - e') a + e' a := by rw [← Pi.add_apply, sub_add_cancel]
  rw [hsum, Account.nonce_add, h.2, zero_add]

/-- An effect on balances that leaves every balance as it is is none. -/
theorem Monetary.eq_zero_iff (h : e.Monetary) : e = 0 ↔ ∀ a, (e a).balance = 0 := by
  constructor
  · rintro rfl a
    rfl
  · intro hb
    funext a
    exact Account.ext (hb a) (h.2 a) (h.1 a).2 (h.1 a).1

end Book

/-- Wallets that are opened, and nothing else. -/
def Item.opening (K : Finset Address) : Item := ⟨K, 0, fun _ _ => 0⟩

/-- An entry of a journal. -/
def Entry.item (E : Env) (bRound : Int64) (miner : Address) (x : Entry) : Item :=
  ⟨x.new, x.effect E bRound miner, fun b c => x.gap E bRound b c⟩

/-- A line of a ledger of amounts. -/
def Line.item (E : Env) (x : Line) : Item where
  opens := {x.account}
  effect := Book.pay x.account x.amount
  excess b c :=
    E.share ((b x.account).votes c) (b x.account).balance -
      E.share ((b x.account).votes c) ((b x.account).balance + x.amount - x.told)

/-- A transaction that is reverted. -/
def Transaction.reversal (E : Env) (bRound : Int64) (miner : Address) (tx : Transaction) : Item :=
  ⟨∅, -tx.effect E bRound miner, fun _ _ => 0⟩

namespace Item

variable {E : Env} {bRound : Int64} {miner : Address} {xs : List Item}

theorem monetary_total (h : ∀ x ∈ xs, x.effect.Monetary) : (total xs).Monetary := by
  induction xs with
  | nil => exact Book.monetary_zero
  | cons x xs ih => exact (h x (by simp)).add (ih fun y hy => h y (by simp [hy]))

theorem total_transactions (txs : List Transaction) :
    total ((txs.map Entry.transaction).map (Entry.item E bRound miner)) =
      Transaction.effects E bRound miner txs := by
  rw [total, List.map_map, List.map_map]
  rfl

theorem total_reversals (txs : List Transaction) :
    total (txs.map (Transaction.reversal E bRound miner)) = -Transaction.effects E bRound miner txs := by
  induction txs with
  | nil => exact neg_zero.symm
  | cons tx txs ih =>
    rw [List.map_cons, total_cons, ih, Transaction.effects_cons, neg_add]
    rfl

end Item

namespace WalletManager

variable {E : Env} {bRound : Int64} {miner a c : Address} {wm wm' wm₁ : WalletManager} {x : Item}
  {xs : List Item}

/-- The item has been entered. -/
structure Entered (E : Env) (x : Item) (wm wm' : WalletManager) : Prop where
  keys : wm'.keys = wm.keys ∪ x.opens
  book : wm'.book = wm.book + x.effect
  drift : ∀ c ∈ wm'.keys, wm'.drift E c = wm.drift E c + x.excess wm.book c

theorem Made.entered {x : Entry} (h : Made E bRound miner x wm wm') :
    Entered E (x.item E bRound miner) wm wm' := ⟨h.keys, h.book, h.drift⟩

theorem AllMade.entered {xs : List Entry} (h : AllMade E bRound miner xs wm wm') :
    Steps (Entered E) (xs.map (Entry.item E bRound miner)) wm wm' :=
  Steps.map (h.mono fun _ _ _ _ h => h.entered)

theorem Booked.entered {x : Line} (h : Booked E x wm wm') : Entered E (x.item E) wm wm' where
  keys := h.keys.trans (Finset.union_singleton _ _).symm
  book := h.book
  drift c hc := by rw [h.drift c, Line.gap, if_pos hc, Line.item]

theorem bookedAll_entered {xs : List Line} (h : Steps (Booked E) xs wm wm') :
    Steps (Entered E) (xs.map (Line.item E)) wm wm' :=
  Steps.map (h.mono fun _ _ _ _ h => h.entered)

theorem AllReverted.entered {txs : List Transaction} (h : AllReverted E bRound miner txs wm wm') :
    Steps (Entered E) (txs.map (Transaction.reversal E bRound miner)) wm wm' := by
  refine Steps.map (h.mono fun tx _ s s' hx => ?_)
  exact ⟨hx.keys.trans (Finset.union_empty _).symm, hx.book, fun c hc =>
    (hx.drift c (hx.keys ▸ hc)).trans (add_zero _).symm⟩

/-! ## From one state to another -/

theorem entered_keys (h : Steps (Entered E) xs wm wm') : wm'.keys = wm.keys ∪ newBy Item.opens xs := by
  induction h with
  | nil => exact (Finset.union_empty _).symm
  | cons hx _ ih =>
    rw [ih, hx.keys, Finset.union_assoc]
    rfl

theorem entered_mem (h : Steps (Entered E) xs wm wm') (ha : a ∈ wm.keys) : a ∈ wm'.keys :=
  entered_keys h ▸ Finset.mem_union_left _ ha

theorem entered_book (h : Steps (Entered E) xs wm wm') : wm'.book = wm.book + Item.total xs := by
  induction h with
  | nil => exact (add_zero _).symm
  | cons hx _ ih => rw [ih, hx.book, add_assoc, Item.total_cons]

/-- An address without a wallet misses what its shares change by. -/
theorem Entered.gap (h : Entered E x wm wm') (c : Address) :
    wm'.drift E c = wm.drift E c + x.gap E wm'.keys wm.book c := by
  by_cases hc : c ∈ wm'.keys
  · rw [h.drift c hc, Item.gap, if_pos hc]
  · have hold : c ∉ wm.keys := fun hmem => hc (h.keys ▸ Finset.mem_union_left _ hmem)
    rw [drift_absent hc, drift_absent hold, h.book, Item.gap, if_neg hc]
    abel

/-- **What the vote powers get in excess from one state to another.** -/
theorem entered_drift (h : Steps (Entered E) xs wm wm') (c : Address) :
    wm'.drift E c = wm.drift E c + Item.gaps E c wm.keys wm.book xs := by
  induction h with
  | nil => exact (add_zero _).symm
  | cons hx _ ih => rw [ih, hx.gap, hx.keys, hx.book, Item.gaps, add_assoc]

/-- With the accounts restored, the vote powers are restored as far as their gaps cancel out. -/
theorem votePower_restored_of_entered (h : Steps (Entered E) xs wm wm') (hbook : wm'.book = wm.book)
    (c : Address) : (wm'.wallet c).votePower = (wm.wallet c).votePower ↔
      Item.gaps E c wm.keys wm.book xs = 0 := by
  have hdrift := entered_drift h c
  rw [drift, drift, hbook, sub_add_eq_add_sub, sub_left_inj] at hdrift
  rw [hdrift, add_eq_left]

end WalletManager
end Timbre
