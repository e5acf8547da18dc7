/-
  Solvency: balances along runs, counted exactly.

  The code compares a transfer, the fee of a vote and the charge for a post with the balance
  that pays them.  The amounts of candidate transactions, the penalty of a PoDF and everything
  that is credited are booked without a check.  **A run stays solvent exactly if those
  bookings leave an amount on every account** (`solvent_iff`).
-/
import Timbre.Wallet.Run

namespace Timbre

open Call Postings

/-! ## Bookings -/

namespace Entry

variable (E : Env) (bRound : Int64) (miner : Address)

/-- The sums of amounts that are computed for an entry. -/
def sums : Entry → List ℤ
  | transaction tx =>
    match tx.type with
    | .transfer | .becomeCandidate | .quitCandidate => [tx.decibels.toInt + tx.feeAmount E bRound]
    | .podf => [rewardForPodf.toInt - tx.feeAmount E bRound]
    | .vote | .other => []
  | charged post => [post.maxCost.toNat + (WalletManager.postFee E post bRound).toNat]
  | opened _ | paid _ _ | registered _ | recorded => []

/-- The first amount is compared with the balance before it is booked. -/
def guarded : Entry → Bool
  | transaction tx => tx.type = .transfer ∨ tx.type = .vote
  | charged _ => true
  | opened _ | paid _ _ | registered _ | recorded => false

/-- Nothing that is computed for the entry leaves its range, if `b` are the balances before. -/
def Exact (b : Address → ℤ) (x : Entry) : Prop :=
  (∀ n ∈ x.sums E bRound, InRange n) ∧ Fits b (x.credits E bRound miner)

/-- What the code does not check of it. -/
def Payable (b : Address → ℤ) (x : Entry) : Prop :=
  (∀ n ∈ x.sums E bRound, InRange n) ∧
    match x.credits E bRound miner with
    | [] => True
    | (a, n) :: ps => (x.guarded = false → 0 ≤ b a + n) ∧ b a + n < 2 ^ 63 ∧ Fits (Function.update b a (b a + n)) ps

instance (b : Address → ℤ) (x : Entry) : Decidable (x.Payable E bRound miner b) := by
  unfold Payable
  split <;> infer_instance

/-- The condition on a list of entries, the balances being counted exactly. -/
def AllPayable : (Address → ℤ) → List Entry → Prop
  | _, [] => True
  | b, x :: xs => x.Payable E bRound miner b ∧ AllPayable (b + net (x.credits E bRound miner)) xs

instance AllPayable.decidable : (b : Address → ℤ) → (xs : List Entry) → Decidable (AllPayable E bRound miner b xs)
  | _, [] => isTrue trivial
  | b, x :: xs =>
    have := AllPayable.decidable (b + net (x.credits E bRound miner)) xs
    inferInstanceAs (Decidable (_ ∧ _))

end Entry

namespace WalletManager

/-- The balances as integers. -/
def balances (wm : WalletManager) : Address → ℤ := fun a => (wm.wallet a).balance.toInt

/-- All balances are amounts. -/
def Solvent (wm : WalletManager) : Prop := ∀ a, IsAmount (wm.balances a)

/-- Entries are made one after the other, and each is exact. -/
abbrev AllExact (E : Env) (bRound : Int64) (miner : Address) : List Entry → WalletManager → WalletManager → Prop :=
  Steps fun x s s' => Made E bRound miner x s s' ∧ x.Exact E bRound miner s.balances

end WalletManager

open WalletManager in
/-- The condition on an event: the bookings that are not checked leave an amount on every
    account; of a digest block this is the reward, and the wallets that are kept are not rolled
    back to a negative balance. -/
def Event.Affordable (E : Env) (wm : WalletManager) : Event → Prop
  | .block b minerAdd =>
    if b.isGenesis = false ∧ b.isDigestBlock then
      IsAmount (wm.balances minerAdd + (blockReward E b).toInt) ∧ ∀ a ∈ (wm.put minerAdd).tidied.keys,
        0 ≤ E.rollBack (if a = minerAdd then (wm.wallet a).balance + blockReward E b else (wm.wallet a).balance)
    else Entry.AllPayable E b.roundNum minerAdd wm.balances (journal E b minerAdd wm.times)
  | .outside => True

open WalletManager in
/-- The event leaves no balance negative, and nothing that is computed for its entries leaves its
    range. -/
def Event.Exact (E : Env) (wm wm' : WalletManager) : Event → Prop
  | .block b minerAdd => wm'.Solvent ∧
    if b.isGenesis = false ∧ b.isDigestBlock then IsAmount (wm.balances minerAdd + (blockReward E b).toInt)
    else AllExact E b.roundNum minerAdd (journal E b minerAdd wm.times) wm wm'
  | .outside => True

namespace WalletManager

variable {E : Env} {bRound : Int64} {miner : Address} {wm wm' w : WalletManager} {x : Entry} {xs : List Entry}
  {block : PbBlock} {order : MapOrder} {es : List Event}

/-! ## Entries -/

/-- The charge for a post is never out of range. -/
theorem toInt_postPrice (post : Post) :
    (postPrice E post bRound).toInt = post.maxCost.toNat + (postFee E post bRound).toNat := by
  have hwide : ∀ n : UInt32, n.toUInt64.toInt64.toInt = n.toNat ∧ n.toNat < 2 ^ 32 := by
    intro n
    have hlt := n.toNat_lt
    have hnat : n.toUInt64.toNat = n.toNat := n.toNat_toUInt64
    refine ⟨?_, hlt⟩
    rw [← Int64.toInt_toBitVec, UInt64.toBitVec_toInt64, BitVec.toInt_eq_toNat_of_lt]
    · exact congrArg Nat.cast hnat
    · show 2 * n.toUInt64.toNat < _
      omega
  obtain ⟨hcost, hcost'⟩ := hwide post.maxCost
  obtain ⟨hfee, hfee'⟩ := hwide (postFee E post bRound)
  rw [postPrice, Int64.toInt_add, hcost, hfee]
  exact bmod_of_inRange ⟨by omega, by omega⟩

/-- What the code has compared with the balance leaves nothing negative. -/
theorem Made.guarded {a : Address} {n : ℤ} {ps : List (Address × ℤ)} (h : Made E bRound miner x wm wm')
    (hsums : ∀ n ∈ x.sums E bRound, InRange n) (hguarded : x.guarded = true)
    (hcredits : x.credits E bRound miner = (a, n) :: ps) : 0 ≤ wm.balances a + n := by
  have hchecked := h.checked
  cases x with
  | opened | paid | registered | recorded => cases hguarded
  | charged post =>
    have hle : (postPrice E post bRound).toInt ≤ wm.balances post.authorAddress := Int64.le_iff_toInt_le.1 hchecked
    simp only [Entry.credits, List.cons.injEq, Prod.mk.injEq] at hcredits
    obtain ⟨⟨rfl, rfl⟩, -⟩ := hcredits
    omega
  | transaction tx =>
    obtain ⟨-, hfee, hprice⟩ := hchecked
    have hfee' : tx.feeAmount E bRound ≤ wm.balances tx.senderId := Int64.le_iff_toInt_le.1 hfee
    simp only [Entry.guarded, decide_eq_true_eq] at hguarded
    rcases hguarded with ht | ht
    · have hle : (tx.price E bRound).toInt ≤ wm.balances tx.senderId := Int64.le_iff_toInt_le.1 (hprice ht)
      have hsum : InRange (tx.decibels.toInt + tx.feeAmount E bRound) := hsums _ (by simp [Entry.sums, ht])
      have hexact : (tx.price E bRound).toInt = tx.decibels.toInt + tx.feeAmount E bRound := by
        rw [Transaction.price, Int64.toInt_add]
        exact bmod_of_inRange hsum
      simp only [Entry.credits, Transaction.credits, ht, List.cons.injEq, Prod.mk.injEq] at hcredits
      obtain ⟨⟨rfl, rfl⟩, -⟩ := hcredits
      omega
    · simp only [Entry.credits, Transaction.credits, ht, List.cons.injEq, Prod.mk.injEq] at hcredits
      obtain ⟨⟨rfl, rfl⟩, -⟩ := hcredits
      omega

/-- **An entry that is made is exact exactly if what the code does not check fits.** -/
theorem Made.payable_iff (h : Made E bRound miner x wm wm') :
    x.Payable E bRound miner wm.balances ↔ x.Exact E bRound miner wm.balances := by
  unfold Entry.Payable Entry.Exact
  refine and_congr_right fun hsums => ?_
  cases hcredits : x.credits E bRound miner with
  | nil => exact Iff.rfl
  | cons p ps =>
    obtain ⟨a, n⟩ := p
    constructor
    · rintro ⟨hlow, hhigh, hps⟩
      refine ⟨⟨?_, hhigh⟩, hps⟩
      cases hguarded : x.guarded with
      | false => exact hlow hguarded
      | true => exact h.guarded hsums hguarded hcredits
    · rintro ⟨⟨hlow, hhigh⟩, hps⟩
      exact ⟨fun _ => hlow, hhigh, hps⟩

/-- **An exact entry changes the balances by what it books.** -/
theorem Made.balances (h : Made E bRound miner x wm wm') (hs : wm.Solvent) (hexact : x.Exact E bRound miner wm.balances) :
    wm'.balances = wm.balances + net (x.credits E bRound miner) ∧ wm'.Solvent := by
  have hfits := hexact.2.net hs
  have hbalances : wm'.balances = wm.balances + net (x.credits E bRound miner) := by
    funext a
    rw [WalletManager.balances, h.balance, toInt_add_ofInt]
    exact bmod_of_inRange (hfits a).inRange
  refine ⟨hbalances, fun a => ?_⟩
  rw [hbalances]
  exact hfits a

theorem AllMade.exact (h : AllMade E bRound miner xs wm wm') :
    wm.Solvent → Entry.AllPayable E bRound miner wm.balances xs → AllExact E bRound miner xs wm wm' := by
  induction h with
  | nil => exact fun _ _ => .nil _
  | cons hx _ ih =>
    rintro hs ⟨hpay, hrest⟩
    have hexact := hx.payable_iff.1 hpay
    obtain ⟨hbalances, hs'⟩ := hx.balances hs hexact
    exact .cons ⟨hx, hexact⟩ (ih hs' (hbalances ▸ hrest))

theorem AllExact.payable (h : AllExact E bRound miner xs wm wm') :
    wm.Solvent → Entry.AllPayable E bRound miner wm.balances xs ∧ wm'.Solvent := by
  induction h with
  | nil => exact fun hs => ⟨trivial, hs⟩
  | cons hx _ ih =>
    intro hs
    obtain ⟨hbalances, hs'⟩ := hx.1.balances hs hx.2
    obtain ⟨hrest, hlast⟩ := ih hs'
    exact ⟨⟨hx.1.payable_iff.2 hx.2, hbalances ▸ hrest⟩, hlast⟩

/-! ## Digest blocks -/

/-- The balances that are rolled back. -/
theorem DigestApplied.balance {a : Address} (h : DigestApplied E miner order block wm w wm') (ha : a ∈ wm.tidied.keys) :
    (wm'.wallet a).balance =
      E.rollBack (if a = miner then (wm.wallet a).balance + blockReward E block else (wm.wallet a).balance) := by
  have hw : (w.wallet a).balance = (wm.tidied.wallet a).balance + (digestReward E miner block wm a).balance :=
    congrArg Account.balance (congrFun h.rewarded.book a)
  have hreset : (wm'.wallet a).balance = if a ∈ order.list w.keys then E.rollBack (w.wallet a).balance
      else (w.wallet a).balance := congrArg Account.balance (h.reset.book a)
  rw [hreset, if_pos ((order.mem _ a).2 (h.rewarded.keys ▸ ha)), hw, wallet_tidied ha]
  unfold digestReward
  by_cases hm : a = miner
  · subst hm
    rw [if_pos ha, if_pos rfl, Book.balance_pay, if_pos rfl]
  · rw [if_neg hm]
    split_ifs
    · rw [Book.balance_pay, if_neg (Ne.symm hm), add_zero]
    · exact congrArg E.rollBack (add_zero _)

/-- The balance of an address whose wallet is not kept. -/
theorem DigestApplied.balance_absent {a : Address} (h : DigestApplied E miner order block wm w wm')
    (ha : a ∉ wm.tidied.keys) : (wm'.wallet a).balance = baseBalance := by
  rw [wallet_absent (h.keys ▸ ha)]
  rfl

theorem DigestApplied.solvent_iff_rolledBack (h : DigestApplied E miner order block wm w wm') :
    wm'.Solvent ↔ ∀ a ∈ wm.tidied.keys,
      0 ≤ E.rollBack (if a = miner then (wm.wallet a).balance + blockReward E block else (wm.wallet a).balance) := by
  constructor
  · intro hs a ha
    rw [← h.balance ha]
    exact Int64.le_iff_toInt_le.2 (hs a).1
  · intro hroll a
    by_cases ha : a ∈ wm.tidied.keys
    · refine ⟨?_, (inRange_toInt _).2⟩
      have hle := hroll a ha
      rw [← h.balance ha] at hle
      exact Int64.le_iff_toInt_le.1 hle
    · rw [balances, h.balance_absent ha]
      exact ⟨by decide, by decide⟩

/-! ## Runs -/

theorem Happens.affordable_iff {e : Event} (h : Happens E e wm wm') (hg : wm.Good) (hs : wm.Solvent) :
    e.Affordable E wm ↔ e.Exact E wm wm' := by
  cases h with
  | outside => exact Iff.rfl
  | @block block minerAdd _ _ order h =>
    simp only [Event.Affordable, Event.Exact]
    rcases accepted_cases hg h with ⟨hmade, -, hblock⟩ | ⟨⟨w, hw⟩, hdigest⟩
    · have hnot : ¬ (block.isGenesis = false ∧ block.isDigestBlock = true) := by
        rintro ⟨hgen, hdig⟩
        rcases hblock with h | h <;> simp_all
      rw [if_neg hnot, if_neg hnot]
      constructor
      · intro hpay
        have hexact := hmade.exact hs hpay
        exact ⟨(hexact.payable hs).2, hexact⟩
      · rintro ⟨-, hexact⟩
        exact (AllExact.payable hexact hs).1
    · rw [if_pos hdigest, if_pos hdigest]
      rw [hw.solvent_iff_rolledBack]
      exact and_comm

theorem Happens.solvent {e : Event} (hhappens : Happens E e wm wm') (h : e.Exact E wm wm') (hs : wm.Solvent) :
    wm'.Solvent := by
  cases hhappens with
  | block order _ => exact h.1
  | outside => exact hs

theorem Fresh.solvent (h : Fresh wm) : wm.Solvent := by
  intro a
  rw [balances, h.wallet]
  exact ⟨by decide, by decide⟩

/-- The events of a run, each with something that holds of the wallets before and after it. -/
abbrev RunWith (E : Env) (P : Event → WalletManager → WalletManager → Prop) :
    List Event → WalletManager → WalletManager → Prop :=
  Steps fun e s s' => Happens E e s s' ∧ P e s s'

/-- **Solvency.**  In a run from wallets that have not been used, no balance is ever negative and
    nothing that is computed for its entries leaves its range exactly if the bookings that are
    not checked leave an amount on every account. -/
theorem solvent_iff (E : Env) (es : List Event) (wm wm' : WalletManager) (h₀ : Fresh wm) :
    RunWith E (fun e s s' => e.Exact E s s' ∧ ∀ a, 0 ≤ (s'.wallet a).balance) es wm wm' ↔
      RunWith E (fun e s _ => e.Affordable E s) es wm wm' := by
  constructor
  · intro h
    refine Steps.strengthen (I := fun s => s.Good ∧ s.Solvent) h ⟨h₀.good, h₀.solvent⟩ fun e _ s s' hs hx => ?_
    obtain ⟨hhappens, hexact, -⟩ := hx
    exact ⟨⟨hhappens.good hs.1, hhappens.solvent hexact hs.2⟩, hhappens,
      (hhappens.affordable_iff hs.1 hs.2).2 hexact⟩
  · intro h
    refine Steps.strengthen (I := fun s => s.Good ∧ s.Solvent) h ⟨h₀.good, h₀.solvent⟩ fun e _ s s' hs hx => ?_
    obtain ⟨hhappens, haffordable⟩ := hx
    have hexact := (hhappens.affordable_iff hs.1 hs.2).1 haffordable
    have hsolvent := hhappens.solvent hexact hs.2
    exact ⟨⟨hhappens.good hs.1, hsolvent⟩, hhappens, hexact, fun a => Int64.le_iff_toInt_le.2 (hsolvent a).1⟩

/-! ## A transfer, and a deposit that is not covered -/

/-- A registration with a deposit of twenty millions. -/
def uncoveredDeposit : PbBlock := .simple [.simple .becomeCandidate "a" 1 20000000 "" ""] [] []

def smallTransfer : PbBlock := .simple [.simple .transfer "a" 1 100 "b" ""] [] []

theorem happens_smallTransfer : Happens Env.simple (.block smallTransfer "m") (newWalletManager "m")
    (afterBlock smallTransfer) := happens_afterBlock (by decide)

theorem happens_uncoveredDeposit : Happens Env.simple (.block uncoveredDeposit "m") (newWalletManager "m")
    (afterBlock uncoveredDeposit) := happens_afterBlock (by decide)

theorem solvent_iff_smallTransfer : RunWith Env.simple (fun e s s' => e.Exact Env.simple s s' ∧
    ∀ a, 0 ≤ (s'.wallet a).balance) [.block smallTransfer "m"] (newWalletManager "m") (afterBlock smallTransfer) := by
  refine (solvent_iff Env.simple _ _ _ (fresh_newWalletManager "m")).2 (.single ⟨happens_smallTransfer, ?_⟩)
  simp only [Event.Affordable]
  rw [if_neg (by decide)]
  decide

/-- The amount of a registration is not compared with the balance. -/
theorem not_solvent : ¬ ∀ (E : Env) (es : List Event) (wm wm' : WalletManager), Fresh wm → Run E es wm wm' →
    ∀ a, 0 ≤ (wm'.wallet a).balance := by
  intro h
  have ha := h Env.simple _ _ _ (fresh_newWalletManager "m") (.single happens_uncoveredDeposit) "a"
  revert ha
  decide

end WalletManager
end Timbre
