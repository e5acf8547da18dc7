/-
  The registrations of delegates in the pool of a miner.

  The pool is popped as often as it is long, and what is no registration is pushed back.  **The
  registrations come out and the other transactions stay, both in their order**
  (`getDelegateRegTx_splits`): behind a `Pop` there is room for the `Push`, whose error is ignored.
-/
import Timbre.Storage.TransactionPool
import Timbre.Wallet.Types

namespace Timbre

open Storage (TransactionPool)

/-- The loop of `GetDelegateRegTx`. -/
def delegateLoop : ℕ → List Transaction → Call (TransactionPool Transaction) Err (List Transaction)
  | 0, delegateTx => return delegateTx
  | n + 1, delegateTx => do
    match (← TransactionPool.pop).toOption with
    | none => throw (.panic "interface conversion: interface is nil, not *protobuf.Transaction")
    | some aTrans =>
      if aTrans.type = .becomeCandidate then delegateLoop n (delegateTx ++ [aTrans])
      else
        let _ ← TransactionPool.push aTrans
        delegateLoop n delegateTx

/-- `GetDelegateRegTx`. -/
def getDelegateRegTx : Call (TransactionPool Transaction) Err (List Transaction) := do
  let delSize ← TransactionPool.lengthOfPool
  delegateLoop delSize []

/-- **The loop**: what is still to come stands before what has been pushed back. -/
theorem delegateLoop_spec {capacity : ℕ} (rest back delegateTx : List Transaction)
    (h : (rest ++ back).length ≤ capacity) :
    delegateLoop rest.length delegateTx ⟨rest ++ back, capacity⟩ =
      (.ok (delegateTx ++ rest.filter fun tx => tx.type = .becomeCandidate),
        ⟨back ++ rest.filter fun tx => tx.type ≠ .becomeCandidate, capacity⟩) := by
  induction rest generalizing back delegateTx with
  | nil => simp [delegateLoop, pure]
  | cons tx rest ih =>
    have hroom : (rest ++ back).length < capacity := h
    rw [List.length_cons, delegateLoop, List.cons_append, Call.bind_of_ok (TransactionPool.pop_cons tx _ capacity)]
    show (if tx.type = .becomeCandidate then _ else _ : Call (TransactionPool Transaction) Err _) _ = _
    by_cases htype : tx.type = .becomeCandidate
    · rw [if_pos htype, ih back (delegateTx ++ [tx]) hroom.le, List.filter_cons_of_pos (by simpa using htype),
        List.filter_cons_of_neg (by simpa using htype), List.append_assoc, List.singleton_append]
    · have hpush : TransactionPool.push tx ⟨rest ++ back, capacity⟩ =
          (.ok (.ok ()), ⟨rest ++ back ++ [tx], capacity⟩) := TransactionPool.push_ok tx hroom
      have hlength : (rest ++ (back ++ [tx])).length ≤ capacity := by
        rw [← List.append_assoc, List.length_append, List.length_singleton]
        exact hroom
      rw [if_neg htype, Call.bind_of_ok hpush, List.append_assoc, ih (back ++ [tx]) delegateTx hlength,
        List.filter_cons_of_neg (by simpa using htype), List.filter_cons_of_pos (by simpa using htype),
        List.append_assoc, List.singleton_append]

/-- **The registrations come out and the others stay, both in their order**, if the pool is within
    its capacity. -/
theorem getDelegateRegTx_splits (pool : TransactionPool Transaction) (h : pool.tPool.length ≤ pool.capacity) :
    getDelegateRegTx pool = (.ok (pool.tPool.filter fun tx => tx.type = .becomeCandidate),
        { pool with tPool := pool.tPool.filter fun tx => tx.type ≠ .becomeCandidate }) ∧
      ((pool.tPool.filter fun tx => tx.type = .becomeCandidate) ++
        pool.tPool.filter fun tx => tx.type ≠ .becomeCandidate).Perm pool.tPool := by
  constructor
  · have hlength : TransactionPool.lengthOfPool pool = (.ok pool.tPool.length, pool) := rfl
    have hroom : (pool.tPool ++ []).length ≤ pool.capacity := by rwa [List.append_nil]
    have hloop := delegateLoop_spec pool.tPool [] [] hroom
    rw [List.append_nil] at hloop
    rw [getDelegateRegTx, Call.bind_of_ok hlength]
    exact hloop
  · have hperm := List.filter_append_perm (fun tx : Transaction => decide (tx.type = .becomeCandidate)) pool.tPool
    simpa only [decide_not] using hperm

/-- A full pool with a vote between two registrations. -/
def fullPool : TransactionPool Transaction :=
  ⟨[.simple .becomeCandidate "a" 1 0 "" "", .simple .vote "b" 1 0 "" "", .simple .becomeCandidate "c" 1 0 "" ""], 3⟩

theorem getDelegateRegTx_splits_fullPool :
    getDelegateRegTx fullPool = (.ok (fullPool.tPool.filter fun tx => tx.type = .becomeCandidate),
        { fullPool with tPool := fullPool.tPool.filter fun tx => tx.type ≠ .becomeCandidate }) ∧
      ((fullPool.tPool.filter fun tx => tx.type = .becomeCandidate) ++
        fullPool.tPool.filter fun tx => tx.type ≠ .becomeCandidate).Perm fullPool.tPool :=
  getDelegateRegTx_splits fullPool (by decide)

end Timbre
