/-
  Conservation of the supply.

  Fees and transferred amounts only change hands.  The amount of a candidate transaction is
  taken from its sender and given to nobody, and a balance that leaves the 64-bit range
  wraps around: **the supply is conserved exactly if these losses cancel out**
  (`conserved_iff`).
-/
import Mathlib.Tactic.Linarith
import Mathlib.Tactic.Ring
import Timbre.Wallet.Credits

namespace Timbre

open Postings

namespace WalletManager

/-- The sum of all balances, counted from the balance of an address without a wallet. -/
def supply (wm : WalletManager) : ℤ :=
  ∑ a ∈ wm.keys, ((wm.wallet a).balance.toInt - baseBalance.toInt)

/-- What PoDFs change the supply by. -/
def podfChange (txs : List Transaction) : ℤ :=
  (txs.countP fun tx => tx.type = .podf) * (rewardForPodf.toInt - rewardForBlockCreation.toInt)

/-- The amounts of the candidate transactions. -/
def deposits (txs : List Transaction) : ℤ :=
  ((txs.filter Transaction.isCandidateTx).map fun tx => tx.decibels.toInt).sum

/-- What wrap-around takes from the balances. -/
def overflow (E : Env) (wm : WalletManager) (miner : Address) (bRound : Int64)
    (txs : List Transaction) : ℤ :=
  ∑ a ∈ wm.keys ∪ Transaction.touchedBy txs,
    carry (wm.wallet a).balance (net (Transaction.allCredits E bRound miner txs) a)

variable {E : Env} {bRound : Int64} {miner : Address} {tx : Transaction} {txs : List Transaction}
  {wm wm' : WalletManager}

/-- The supply as a sum over any finite set that holds all wallets. -/
theorem supply_eq_sum {S : Finset Address} (h : wm.keys ⊆ S) :
    wm.supply = ∑ a ∈ S, ((wm.wallet a).balance.toInt - baseBalance.toInt) := by
  refine Finset.sum_subset h fun a _ ha => ?_
  rw [wallet_absent ha]
  exact sub_self _

/-- A transaction that is applied books in total what a PoDF changes, less its deposit. -/
theorem total_credits (h : Valid E bRound tx wm) :
    total (tx.credits E bRound miner) = podfChange [tx] - deposits [tx] := by
  cases h with
  | plain htype _ =>
    rcases htype with ht | ht | ht <;>
    · simp [Transaction.credits, podfChange, deposits, Transaction.isCandidateTx, ht]
      try ring
  | vote ht _ => simp [Transaction.credits, podfChange, deposits, Transaction.isCandidateTx, ht]
  | podf _ ht _ =>
    simp [Transaction.credits, podfChange, deposits, Transaction.isCandidateTx, ht]
    ring

theorem podfChange_cons (tx : Transaction) (txs : List Transaction) :
    podfChange (tx :: txs) = podfChange [tx] + podfChange txs := by
  simp only [podfChange, List.countP_cons, List.countP_nil]
  push_cast
  ring

theorem deposits_cons (tx : Transaction) (txs : List Transaction) :
    deposits (tx :: txs) = deposits [tx] + deposits txs := by
  unfold deposits
  by_cases h : tx.isCandidateTx <;> simp [h]

theorem AllApplied.total_credits (h : AllApplied E bRound miner txs wm wm') :
    total (Transaction.allCredits E bRound miner txs) = podfChange txs - deposits txs := by
  induction h with
  | nil => rfl
  | @cons tx txs _ _ _ hx _ ih =>
    rw [Transaction.allCredits_cons, total_append, WalletManager.total_credits hx.valid, ih,
      podfChange_cons tx txs, deposits_cons tx txs]
    ring

/-- The supply after a list of transactions. -/
theorem AllApplied.supply (h : AllApplied E bRound miner txs wm wm') (hm : miner ∈ wm.keys) :
    wm'.supply =
      wm.supply + podfChange txs - deposits txs - overflow E wm miner bRound txs := by
  have hkeys : wm.keys ⊆ wm'.keys := h.keys ▸ Finset.subset_union_left
  have hsum := sum_balances (h.credits_mem hm) fun a => (wm.wallet a).balance
  rw [supply_eq_sum hkeys, supply_eq_sum subset_rfl, overflow, ← h.keys]
  simp only [Finset.sum_sub_distrib, h.balance]
  rw [hsum, h.total_credits]
  ring

/-- The supply is conserved, up to what PoDFs change. -/
def Conserved (txs : List Transaction) (wm wm' : WalletManager) : Prop :=
  wm'.supply = wm.supply + podfChange txs

instance (txs : List Transaction) (wm wm' : WalletManager) : Decidable (Conserved txs wm wm') :=
  inferInstanceAs (Decidable (_ = _))

/-- **Conservation of the supply.**  `ApplyTransactions` conserves the supply exactly if the
    amounts of the candidate transactions and what wrap-around takes from the balances add up
    to nothing.  `miner` is the address of `mWallet`, a wallet of the map. -/
theorem conserved_iff (E : Env) (wm wm' : WalletManager) (txs : List Transaction) (miner : Address)
    (bRound : Int64) (hm : miner ∈ wm.keys)
    (h : applyTransactions E txs miner bRound wm = (.ok (), wm')) :
    Conserved txs wm wm' ↔ deposits txs + overflow E wm miner bRound txs = 0 := by
  have happlied := ((applyTransactions_spec hm txs).ok h).2
  rw [Conserved, happlied.supply hm]
  constructor <;> intro h <;> linarith

/-- A registration with an amount of 100. -/
def depositTx : Transaction := .simple .becomeCandidate "a" 1 100 "" ""

/-- The wallets of the node `"m"` after the registration. -/
def afterDeposit : WalletManager :=
  (applyTransactions Env.simple [depositTx] "m" 2 (newWalletManager "m")).2

theorem apply_depositTx :
    applyTransactions Env.simple [depositTx] "m" 2 (newWalletManager "m") = (.ok (), afterDeposit) :=
  Prod.ext (by decide) rfl

theorem conserved_iff_deposit : ¬ Conserved [depositTx] (newWalletManager "m") afterDeposit := by
  rw [conserved_iff Env.simple _ _ [depositTx] "m" 2 (by decide) apply_depositTx]
  decide

/-- The amount of a registration is destroyed. -/
theorem not_conserved : ¬ ∀ (E : Env) (wm wm' : WalletManager) (txs : List Transaction)
    (miner : Address) (bRound : Int64), miner ∈ wm.keys →
    applyTransactions E txs miner bRound wm = (.ok (), wm') → Conserved txs wm wm' := by
  intro h
  have := h Env.simple _ _ [depositTx] "m" 2 (by decide) apply_depositTx
  revert this
  decide

end WalletManager
end Timbre
