/-
  The pool of transactions.

  A bounded queue.  The transactions of a block are removed from it in place, while a loop counts
  up to the length that the pool had at first.  **What is left is what prints differently from
  every transaction of the block, and no index is out of range** (`removeRedundantTx_filters`).
-/
import Timbre.Core.Types
import Timbre.Lib.Call

namespace Timbre.Storage

/-! ## The source -/

/-- Each method holds the mutex; `capacity` is the one that the slice was made with. -/
@[ext]
structure TransactionPool (τ : Type) where
  tPool : List τ
  capacity : ℕ
deriving DecidableEq

/-- `NewTransactionPool`. -/
def newTransactionPool (τ : Type) (cacheSize : ℕ) : TransactionPool τ := ⟨[], cacheSize⟩

variable {σ τ : Type}

/-- `xs[i]`. -/
def index (xs : List τ) (i : ℤ) : Call σ Err τ :=
  match if 0 ≤ i then xs[i.toNat]? else none with
  | some x => pure x
  | none => throw (.panic "runtime error: index out of range")

/-- `xs[lo:hi]`. -/
def slice (xs : List τ) (lo hi : ℤ) : Call σ Err (List τ) :=
  if 0 ≤ lo ∧ lo ≤ hi ∧ hi ≤ xs.length then pure ((xs.take hi.toNat).drop lo.toNat)
  else throw (.panic "runtime error: slice bounds out of range")

namespace TransactionPool

variable (sprintf : τ → String)

def push (tx : τ) : Call (TransactionPool τ) Err (Except String Unit) := do
  let tp ← MonadState.get
  if tp.tPool.length ≥ tp.capacity then return .error "Transaction pool is already full. Can't add more"
  else
    MonadState.set { tp with tPool := tp.tPool ++ [tx] }
    return .ok ()

def pop : Call (TransactionPool τ) Err (Except String τ) := do
  let tp ← MonadState.get
  if tp.tPool.length = 0 then return .error "Transaction pool is empty"
  else
    let tx ← index tp.tPool 0
    MonadState.set { tp with tPool := ← slice tp.tPool 1 tp.tPool.length }
    return .ok tx

def getHead : Call (TransactionPool τ) Err (Except String τ) := do
  let tp ← MonadState.get
  if tp.tPool.length = 0 then return .error "Transaction pool is empty"
  else return .ok (← index tp.tPool 0)

def lengthOfPool : Call (TransactionPool τ) Err ℕ := do return (← MonadState.get).tPool.length

def emptyPool : Call (TransactionPool τ) Err Unit := modify fun tp => { tp with tPool := [] }

/-- The inner loop of `RemoveRedundantTx`, over the indices that are still to come. -/
def evict (str1 : String) : List ℕ → ℤ → Call (TransactionPool τ) Err Unit
  | [], _ => return ()
  | y :: ys, deleted => do
    let tp ← MonadState.get
    let i := y - deleted
    let str2 := sprintf (← index tp.tPool i)
    if str1 = str2 then
      let dst ← slice tp.tPool i tp.tPool.length
      let src ← slice tp.tPool (i + 1) tp.tPool.length
      let n := min dst.length src.length
      let copied := tp.tPool.take i.toNat ++ (src.take n ++ dst.drop n)
      MonadState.set { tp with tPool := ← slice copied 0 (i + n) }
      evict str1 ys (deleted + 1)
    else evict str1 ys deleted

/-- The outer loop of `RemoveRedundantTx`. -/
def evictAll : List τ → Call (TransactionPool τ) Err Unit
  | [] => return ()
  | tx :: added => do
    evict sprintf (sprintf tx) (List.range (← MonadState.get).tPool.length) 0
    evictAll added

/-- `RemoveRedundantTx`; `sprintf` is `fmt.Sprintf` with the verb `%v`. -/
def removeRedundantTx (added : List τ) : Call (TransactionPool τ) Err Unit := do
  if (← lengthOfPool) = 0 then return ()
  else evictAll sprintf added

/-! ## Slices -/

variable {sprintf : τ → String} {tp : TransactionPool τ} {xs ys zs : List τ} {lo hi : ℤ} {s : σ}

theorem index_ok {tx : τ} (hzs : zs = xs ++ tx :: ys) (hlo : lo = xs.length) : index zs lo s = (.ok tx, s) := by
  have hget : (if 0 ≤ lo then zs[lo.toNat]? else none) = some tx := by
    rw [if_pos (by omega), hzs, hlo, Int.toNat_natCast]
    simp
  rw [index, hget]
  rfl

theorem slice_from (hzs : zs = xs ++ ys) (hlo : lo = xs.length) (hhi : hi = zs.length) :
    slice zs lo hi s = (.ok ys, s) := by
  have hlen : zs.length = xs.length + ys.length := by rw [hzs, List.length_append]
  rw [slice, if_pos (by omega), hhi, hlo, Int.toNat_natCast, Int.toNat_natCast, List.take_length, hzs,
    List.drop_left]
  rfl

theorem slice_to (hzs : zs = xs ++ ys) (hhi : hi = xs.length) : slice zs 0 hi s = (.ok xs, s) := by
  have hlen : zs.length = xs.length + ys.length := by rw [hzs, List.length_append]
  rw [slice, if_pos (by omega), hhi, Int.toNat_natCast, hzs, List.take_left]
  rfl

/-! ## The methods -/

theorem push_ok (tx : τ) (h : tp.tPool.length < tp.capacity) :
    push tx tp = (.ok (.ok ()), { tp with tPool := tp.tPool ++ [tx] }) := by
  rw [push, Call.get_bind, if_neg (by omega)]
  rfl

theorem push_full (tx : τ) (h : tp.capacity ≤ tp.tPool.length) :
    push tx tp = (.ok (.error "Transaction pool is already full. Can't add more"), tp) := by
  rw [push, Call.get_bind, if_pos h]
  rfl

theorem pop_cons (tx : τ) (rest : List τ) (capacity : ℕ) :
    pop ⟨tx :: rest, capacity⟩ = (.ok (.ok tx), ⟨rest, capacity⟩) := by
  have hindex (s : TransactionPool τ) : index (tx :: rest) 0 s = (.ok tx, s) :=
    index_ok (List.nil_append _).symm rfl
  have hslice (s : TransactionPool τ) : slice (tx :: rest) 1 (tx :: rest).length s = (.ok rest, s) :=
    slice_from List.singleton_append.symm rfl rfl
  rw [pop, Call.get_bind, if_neg (by simp), Call.bind_of_ok (hindex _), Call.bind_of_ok (hslice _)]
  rfl

/-! ## The removal -/

/-- **The inner loop**: the transactions before index `y` that are kept stand before those that are
    still to come. -/
theorem evict_spec (sprintf : τ → String) (str1 : String) (capacity : ℕ) (rest kept : List τ) (y : ℕ)
    {deleted : ℤ} (hdeleted : deleted = y - kept.length) :
    evict sprintf str1 (List.range' y rest.length) deleted ⟨kept ++ rest, capacity⟩ =
      (.ok (), ⟨kept ++ rest.filter fun tx => str1 ≠ sprintf tx, capacity⟩) := by
  induction rest generalizing kept y deleted with
  | nil => rfl
  | cons tx rest ih =>
    have hi : (y : ℤ) - deleted = kept.length := by omega
    have hassoc : kept ++ tx :: rest = kept ++ [tx] ++ rest := by simp
    rw [List.length_cons, List.range'_succ, evict, Call.get_bind, hi, Call.bind_of_ok (index_ok rfl rfl)]
    by_cases heq : str1 = sprintf tx
    · have hmin : min (tx :: rest).length rest.length = rest.length := by simp
      have hcopied : kept ++ (rest.take rest.length ++ (tx :: rest).drop rest.length) =
          kept ++ rest ++ (tx :: rest).drop rest.length := by simp
      rw [if_pos heq, Call.bind_of_ok (slice_from rfl rfl rfl),
        Call.bind_of_ok (slice_from hassoc (by simp) rfl)]
      dsimp only
      rw [hmin, Int.toNat_natCast, List.take_left, Call.bind_of_ok (slice_to hcopied (by simp))]
      show evict sprintf str1 _ _ ⟨kept ++ rest, capacity⟩ = _
      rw [ih kept (y + 1) (by push_cast; omega), List.filter_cons_of_neg (by simpa using heq)]
    · rw [if_neg heq]
      show evict sprintf str1 _ _ ⟨kept ++ tx :: rest, capacity⟩ = _
      rw [hassoc, ih (kept ++ [tx]) (y + 1) (by simp; omega), List.filter_cons_of_pos (by simpa using heq)]
      simp

/-- The transactions that print differently from all that are added. -/
def others (sprintf : τ → String) (added tPool : List τ) : List τ :=
  tPool.filter fun tx => ∀ a ∈ added, sprintf a ≠ sprintf tx

theorem others_cons (a : τ) (added tPool : List τ) :
    others sprintf added (tPool.filter fun tx => sprintf a ≠ sprintf tx) = others sprintf (a :: added) tPool := by
  rw [others, others, List.filter_filter]
  refine List.filter_congr fun tx _ => ?_
  simp only [List.forall_mem_cons, Bool.decide_and, Bool.and_comm]

/-- **The outer loop.** -/
theorem evictAll_eq (sprintf : τ → String) (capacity : ℕ) (added tPool : List τ) :
    evictAll sprintf added ⟨tPool, capacity⟩ = (.ok (), ⟨others sprintf added tPool, capacity⟩) := by
  induction added generalizing tPool with
  | nil =>
    have hall : others sprintf [] tPool = tPool := List.filter_eq_self.2 (by simp)
    rw [hall]
    rfl
  | cons a added ih =>
    have hevict : evict sprintf (sprintf a) (List.range tPool.length) 0 ⟨tPool, capacity⟩ =
        (.ok (), ⟨tPool.filter fun tx => sprintf a ≠ sprintf tx, capacity⟩) := by
      rw [List.range_eq_range']
      exact evict_spec sprintf (sprintf a) capacity tPool [] 0 (by simp)
    rw [evictAll, Call.get_bind, Call.bind_of_ok hevict, ih, others_cons]

theorem removeRedundantTx_eq (sprintf : τ → String) (added : List τ) (tp : TransactionPool τ) :
    removeRedundantTx sprintf added tp = (.ok (), { tp with tPool := others sprintf added tp.tPool }) := by
  have hlength : lengthOfPool tp = (.ok tp.tPool.length, tp) := rfl
  rw [removeRedundantTx, Call.bind_of_ok hlength]
  split_ifs with hempty
  · rw [List.length_eq_zero_iff.1 hempty, others, List.filter_nil, ← List.length_eq_zero_iff.1 hempty]
    rfl
  · exact evictAll_eq sprintf tp.capacity added tp.tPool

/-- **What is left is what prints differently from every transaction that is added**, and nothing
    panics. -/
theorem removeRedundantTx_filters (sprintf : τ → String) (added : List τ) (tp : TransactionPool τ) :
    removeRedundantTx sprintf added tp = (.ok (), { tp with
      tPool := tp.tPool.filter fun tx => ∀ a ∈ added, sprintf a ≠ sprintf tx }) :=
  removeRedundantTx_eq sprintf added tp

/-! ## Runs -/

/-- The pool is no longer than its capacity. -/
def Within (tp : TransactionPool τ) : Prop := tp.tPool.length ≤ tp.capacity

inductive Op (τ : Type)
  | push (tx : τ)
  | pop
  | emptyPool
  | removeRedundantTx (added : List τ)

namespace Op

/-- What is offered to the pool. -/
def pushed : Op τ → List τ
  | push tx => [tx]
  | _ => []

/-- What is taken out by `Pop`. -/
def run (sprintf : τ → String) : Op τ → Call (TransactionPool τ) Err (List τ)
  | push tx => do
    let _ ← TransactionPool.push tx
    return []
  | pop => do return (← TransactionPool.pop).toOption.toList
  | emptyPool => do
    TransactionPool.emptyPool
    return []
  | removeRedundantTx added => do
    TransactionPool.removeRedundantTx sprintf added
    return []

def runAll (sprintf : τ → String) : List (Op τ) → Call (TransactionPool τ) Err (List τ)
  | [] => return []
  | op :: ops => do
    let popped ← op.run sprintf
    return popped ++ (← runAll sprintf ops)

end Op

/-- What the pool has given out and what it holds stand in the order in which they came, and the
    pool is within its capacity. -/
structure Serves (tp : TransactionPool τ) (pushed popped : List τ) (tp' : TransactionPool τ) : Prop where
  capacity : tp'.capacity = tp.capacity
  within : tp.Within → tp'.Within
  order : (popped ++ tp'.tPool).Sublist (tp.tPool ++ pushed)

theorem Serves.trans {tp₁ tp₂ tp₃ : TransactionPool τ} {pushed pushed' popped popped' : List τ}
    (h : Serves tp₁ pushed popped tp₂) (h' : Serves tp₂ pushed' popped' tp₃) :
    Serves tp₁ (pushed ++ pushed') (popped ++ popped') tp₃ where
  capacity := h'.capacity.trans h.capacity
  within hwithin := h'.within (h.within hwithin)
  order := by
    have hrest := h'.order.append_left popped
    have hfirst := h.order.append_right pushed'
    rw [List.append_assoc, ← List.append_assoc tp₁.tPool]
    rw [List.append_assoc] at hfirst
    exact hrest.trans hfirst

/-- A method that only drops transactions. -/
theorem Serves.of_sublist {tPool : List τ} (h : tPool.Sublist tp.tPool) : Serves tp [] [] { tp with tPool } where
  capacity := rfl
  within hwithin := h.length_le.trans hwithin
  order := by rwa [List.append_nil]

theorem Op.run_ok (sprintf : τ → String) (op : Op τ) (tp : TransactionPool τ) :
    ∃ popped tp', op.run sprintf tp = (.ok popped, tp') ∧ Serves tp op.pushed popped tp' := by
  cases op with
  | push tx =>
    rcases Nat.lt_or_ge tp.tPool.length tp.capacity with hlt | hge
    · refine ⟨[], _, Call.bind_of_ok (push_ok tx hlt), rfl, fun _ => ?_, List.Sublist.refl _⟩
      rw [Within, List.length_append, List.length_singleton]
      exact hlt
    · exact ⟨[], tp, Call.bind_of_ok (push_full tx hge), rfl, id, List.sublist_append_left _ _⟩
  | pop =>
    obtain ⟨tPool, capacity⟩ := tp
    cases tPool with
    | nil => exact ⟨[], _, rfl, rfl, id, List.Sublist.refl _⟩
    | cons tx rest =>
      refine ⟨[tx], _, Call.bind_of_ok (pop_cons tx rest capacity), rfl, fun h => ?_, ?_⟩
      · exact (Nat.le_succ _).trans h
      · exact (List.append_nil _).symm ▸ List.Sublist.refl _
  | emptyPool => exact ⟨[], _, rfl, .of_sublist (List.nil_sublist _)⟩
  | removeRedundantTx added =>
    exact ⟨[], _, Call.bind_of_ok (removeRedundantTx_eq sprintf added tp), .of_sublist List.filter_sublist⟩

/-- **In every run** no call panics, the pool stays within its capacity, and the transactions leave
    in the order in which they came. -/
theorem runAll_serves (sprintf : τ → String) (ops : List (Op τ)) (tp : TransactionPool τ) :
    ∃ popped tp', Op.runAll sprintf ops tp = (.ok popped, tp') ∧
      Serves tp (ops.flatMap Op.pushed) popped tp' := by
  induction ops generalizing tp with
  | nil => exact ⟨[], tp, rfl, .of_sublist (List.Sublist.refl _)⟩
  | cons op ops ih =>
    obtain ⟨popped, tp₁, hop, hserves⟩ := op.run_ok sprintf tp
    obtain ⟨popped', tp₂, hops, hserves'⟩ := ih tp₁
    refine ⟨popped ++ popped', tp₂, ?_, hserves.trans hserves'⟩
    rw [Op.runAll, Call.bind_of_ok hop, Call.bind_of_ok hops]
    rfl

end TransactionPool
end Timbre.Storage
