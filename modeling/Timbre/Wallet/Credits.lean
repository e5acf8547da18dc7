/-
  The exact amounts that transactions book on the accounts.
-/
import Timbre.Wallet.Application

namespace Timbre

open Postings

namespace Book

theorem balance_pay (a b : Address) (d : Int64) : (pay a d b).balance = if a = b then d else 0 := by
  unfold pay
  by_cases h : a = b
  · subst h
    simp
  · rw [Pi.single_eq_of_ne (Ne.symm h), if_neg h]
    rfl

theorem balance_bump (a b : Address) (n : UInt64) : (bump a n b).balance = 0 := by
  unfold bump
  by_cases h : b = a
  · subst h
    simp
  · rw [Pi.single_eq_of_ne h]
    rfl

theorem balance_ballot (a b c : Address) (p : ℤ) : (ballot a c p b).balance = 0 := by
  unfold ballot
  by_cases h : b = a
  · subst h
    simp
  · rw [Pi.single_eq_of_ne h]
    rfl

end Book

namespace Transaction

variable (E : Env) (bRound : Int64) (miner : Address) (tx : Transaction)

/-- The fee of the transaction as an integer. -/
def feeAmount : ℤ := (WalletManager.txFee E tx bRound).toInt

/-- What a transaction books on the accounts. -/
def credits : List (Address × ℤ) :=
  match tx.type with
  | .transfer =>
    [(tx.senderId, -(tx.decibels.toInt + tx.feeAmount E bRound)),
      (tx.recipientId, tx.decibels.toInt), (miner, tx.feeAmount E bRound)]
  | .becomeCandidate | .quitCandidate =>
    [(tx.senderId, -(tx.decibels.toInt + tx.feeAmount E bRound)), (miner, tx.feeAmount E bRound)]
  | .vote => [(tx.senderId, -tx.feeAmount E bRound), (miner, tx.feeAmount E bRound)]
  | .podf =>
    [(WalletManager.reportedMiner E tx, -rewardForBlockCreation.toInt),
      (tx.senderId, rewardForPodf.toInt - tx.feeAmount E bRound), (miner, tx.feeAmount E bRound)]
  | .other => [(miner, tx.feeAmount E bRound)]

/-- What a list of transactions books on the accounts. -/
def allCredits (txs : List Transaction) : List (Address × ℤ) :=
  txs.flatMap fun tx => tx.credits E bRound miner

variable {E bRound miner tx}

theorem allCredits_cons (txs : List Transaction) : allCredits E bRound miner (tx :: txs) =
    tx.credits E bRound miner ++ allCredits E bRound miner txs := List.flatMap_cons

theorem balance_entryBallot (voter a : Address) (s : String) : (entryBallot voter s a).balance = 0 := by
  unfold entryBallot
  rcases parseVote s with e | ⟨action, p, c⟩
  · rfl
  · cases action <;> exact Book.balance_ballot voter a c _

theorem balance_ballots (voter a : Address) : ∀ cands : List String,
    (ballots voter cands a).balance = 0
  | [] => rfl
  | s :: cands => by
    rw [ballots_cons, Pi.add_apply, Account.balance_add, balance_entryBallot, zero_add,
      balance_ballots voter a cands]

/-- The postings of a transaction are what its effect does to the balances. -/
theorem balance_effect (a : Address) :
    (tx.effect E bRound miner a).balance = Int64.ofInt (net (tx.credits E bRound miner) a) := by
  unfold effect ownEffect credits
  cases tx.type <;>
    simp only [Pi.add_apply, Account.balance_add, Book.balance_pay, Book.balance_bump,
      balance_ballots, ofInt_net_cons, net_nil, feeAmount, Int64.ofInt_neg, Int64.ofInt_add,
      Int64.ofInt_sub, Int64.ofInt_toInt, Pi.zero_apply, Account.balance_zero, price,
      show Int64.ofInt 0 = 0 from rfl] <;> abel

theorem balance_effects (txs : List Transaction) (a : Address) :
    (effects E bRound miner txs a).balance = Int64.ofInt (net (allCredits E bRound miner txs) a) := by
  induction txs with
  | nil => rfl
  | cons tx txs ih =>
    rw [effects_cons, Pi.add_apply, Account.balance_add, balance_effect, ih, allCredits_cons,
      ofInt_net_append]

end Transaction

namespace WalletManager

variable {E : Env} {bRound : Int64} {miner : Address} {tx : Transaction} {txs : List Transaction}
  {wm wm' : WalletManager}

/-- **The balances after a list of transactions**: what is booked is added, modulo 2^64. -/
theorem AllApplied.balance (h : AllApplied E bRound miner txs wm wm') (a : Address) :
    (wm'.wallet a).balance =
      (wm.wallet a).balance + Int64.ofInt (net (Transaction.allCredits E bRound miner txs) a) := by
  rw [← Transaction.balance_effects]
  exact congrArg Account.balance (congrFun h.book a)

/-- Everything is booked on an address that has a wallet afterwards. -/
theorem Applied.credits_mem (h : Applied E bRound miner tx wm wm') (hm : miner ∈ wm.keys) :
    ∀ p ∈ tx.credits E bRound miner, p.1 ∈ wm'.keys := by
  have hminer := h.toPosted.mem hm
  have hsender : tx.senderId ∈ wm'.keys := by
    rw [h.keys, Transaction.touched]
    split_ifs <;> simp
  intro p hp
  cases h.valid with
  | plain htype _ =>
    rcases htype with ht | ht | ht
    · have hrecipient : tx.recipientId ∈ wm'.keys := by
        rw [h.keys, Transaction.touched, if_pos ht]
        simp
      simp only [Transaction.credits, ht, List.mem_cons, List.not_mem_nil, or_false] at hp
      rcases hp with rfl | rfl | rfl <;> assumption
    all_goals
      simp only [Transaction.credits, ht, List.mem_cons, List.not_mem_nil, or_false] at hp
      rcases hp with rfl | rfl <;> assumption
  | vote ht _ =>
    simp only [Transaction.credits, ht, List.mem_cons, List.not_mem_nil, or_false] at hp
    rcases hp with rfl | rfl <;> assumption
  | podf hd ht hrep =>
    have hreported : reportedMiner E tx ∈ wm'.keys := by
      refine h.toPosted.mem ?_
      simpa [reportedMiner, hrep.header] using hrep.wallet
    simp only [Transaction.credits, ht, List.mem_cons, List.not_mem_nil, or_false] at hp
    rcases hp with rfl | rfl | rfl <;> assumption

theorem AllApplied.credits_mem (h : AllApplied E bRound miner txs wm wm') (hm : miner ∈ wm.keys) :
    ∀ p ∈ Transaction.allCredits E bRound miner txs, p.1 ∈ wm'.keys := by
  induction h with
  | nil => simp [Transaction.allCredits]
  | cons hx hxs ih =>
    intro p hp
    rw [Transaction.allCredits_cons, List.mem_append] at hp
    rcases hp with hp | hp
    · rw [AllApplied.keys hxs]
      exact Finset.mem_union_left _ (hx.credits_mem hm p hp)
    · exact ih (hx.toPosted.mem hm) p hp

end WalletManager
end Timbre
