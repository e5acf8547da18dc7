/-
  Whole runs of the cache.

  **A run of `Add`, `Remove`, `Get`, `Peek` and `Contains` answers as the list of the keys in
  the order of their last use** (`refines`).  `Pop` calls `Get` with the mutex held: **a run of
  all requests goes on exactly while every `Pop` finds the cache empty** (`served_iff`).
-/
import Timbre.Lib.Runs
import Timbre.Storage.LRU

namespace Timbre.Storage

variable {κ ν : Type} [DecidableEq κ]

/-! ## Runs without `Pop` -/

inductive Op (κ ν : Type)
  | add (key : κ) (value : ν)
  | remove (key : κ)
  | get (key : κ)
  | peek (key : κ)
  | contains (key : κ)

inductive Answer (ν : Type)
  | done
  | value (v : Option ν)
  | present (ok : Bool)
deriving DecidableEq

namespace Op

def run : Op κ ν → Call (LRU κ ν) Stop (Answer ν)
  | add key value => do
    LRU.add key value
    return .done
  | remove key => do
    LRU.remove key
    return .done
  | get key => do return .value (← LRU.get key)
  | peek key => do return .value (← LRU.peek key)
  | contains key => do return .present (← LRU.contains key)

/-- The operation on the list of keys in the order of their last use. -/
def refer (capacity : ℤ) : Op κ ν → Recency κ ν → Answer ν × Recency κ ν
  | add key value, l => (.done, l.add capacity key value)
  | remove key, l => (.done, l.erase key)
  | get key, l => (.value (l.use key).1, (l.use key).2)
  | peek key, l => (.value (l.find key), l)
  | contains key, l => (.present (l.find key).isSome, l)

def runAll : List (Op κ ν) → Call (LRU κ ν) Stop (List (Answer ν))
  | [] => pure []
  | op :: ops => do
    let a ← op.run
    return a :: (← runAll ops)

def referAll (capacity : ℤ) : List (Op κ ν) → Recency κ ν → List (Answer ν) × Recency κ ν
  | [], l => ([], l)
  | op :: ops, l =>
    let (a, l) := op.refer capacity l
    let (as, l) := referAll capacity ops l
    (a :: as, l)

variable {lru : LRU κ ν} {l : Recency κ ν} {capacity : ℤ}

/-- **One operation** answers as the list does. -/
theorem run_spec (h : lru.Holds capacity l) (op : Op κ ν) :
    ∃ lru', op.run lru = (.ok (op.refer capacity l).1, lru') ∧ lru'.Holds capacity (op.refer capacity l).2 := by
  cases op with
  | add key value =>
    obtain ⟨lru', hcall, hlru'⟩ := h.add key value
    exact ⟨lru', Call.bind_of_ok hcall, hlru'⟩
  | remove key =>
    obtain ⟨lru', hcall, hlru'⟩ := h.remove key
    exact ⟨lru', Call.bind_of_ok hcall, hlru'⟩
  | get key =>
    obtain ⟨lru', hcall, hlru'⟩ := h.get key
    exact ⟨lru', Call.bind_of_ok hcall, hlru'⟩
  | peek key => exact ⟨lru, Call.bind_of_ok (h.peek key), h⟩
  | contains key => exact ⟨lru, Call.bind_of_ok (h.contains key), h⟩

theorem length_refer_le (op : Op κ ν) (hl : l.entries.length ≤ capacity) :
    ((op.refer capacity l).2.entries.length : ℤ) ≤ capacity := by
  cases op with
  | add key value => exact Recency.length_add_le hl
  | remove key => exact le_trans (Int.ofNat_le.2 Recency.length_erase_le) hl
  | get key => exact le_trans (Int.ofNat_le.2 (l.length_use_le key)) hl
  | peek key => exact hl
  | contains key => exact hl

/-- **All operations** do. -/
theorem runAll_spec : ∀ (ops : List (Op κ ν)) {lru : LRU κ ν} {l : Recency κ ν}, lru.Holds capacity l →
    l.entries.length ≤ capacity →
      ∃ lru', runAll ops lru = (.ok (referAll capacity ops l).1, lru') ∧
        lru'.Holds capacity (referAll capacity ops l).2 ∧
        ((referAll capacity ops l).2.entries.length : ℤ) ≤ capacity
  | [], lru, _, h, hl => ⟨lru, rfl, h, hl⟩
  | op :: ops, lru, l, h, hl => by
    obtain ⟨lru₁, hop, hlru₁⟩ := run_spec h op
    obtain ⟨lru', hops, hlru', hl'⟩ := runAll_spec ops hlru₁ (length_refer_le op hl)
    refine ⟨lru', ?_, hlru', hl'⟩
    rw [runAll, Call.bind_of_ok hop, Call.bind_of_ok hops]
    rfl

end Op

/-- **The cache refines the list of its keys in the order of their last use**: the answers and the
    pairs are those of the list, there are never more than the capacity, and the map and
    the eviction list hold the same keys, once each. -/
theorem refines {capacity : ℤ} (h : 1 ≤ capacity) (ops : List (Op κ ν)) :
    ∃ lru₀ lru, newLRU κ ν capacity = .ok lru₀ ∧
      Op.runAll ops lru₀ = (.ok (Op.referAll capacity ops .empty).1, lru) ∧
      (lru.evictList.map fun e => (e.key, e.value)) = (Op.referAll capacity ops .empty).2.entries ∧
      (∀ key, (lru.elements.lookup key).map Element.value = (Op.referAll capacity ops .empty).2.find key) ∧
      lru.size ≤ capacity ∧ lru.elements.keys.Nodup ∧
      lru.elements.keys.Perm (lru.evictList.map Element.key) := by
  obtain ⟨lru₀, hnew, hlru₀⟩ : ∃ lru₀, newLRU κ ν capacity = .ok lru₀ ∧ lru₀.Holds capacity .empty :=
    LRU.holds_newLRU h
  obtain ⟨lru, hrun, hlru, hlen⟩ := Op.runAll_spec ops hlru₀ (by simp [Recency.empty]; omega)
  refine ⟨lru₀, lru, hnew, hrun, hlru.represents.contents, fun key => hlru.represents.find_eq.symm, ?_,
    lru.elements.keys_nodup, hlru.represents.keys_perm⟩
  rw [hlru.size_eq]
  exact hlen

/-- The oldest key is dropped, the one that was looked up stays. -/
theorem refines_three : ∃ lru₀ lru, newLRU String ℕ 2 = .ok lru₀ ∧
    Op.runAll [.add "a" 1, .add "b" 2, .get "a", .add "c" 3] lru₀ =
      (.ok [.done, .done, .value (some 1), .done], lru) ∧
    (lru.evictList.map fun e => (e.key, e.value)) = [("a", 1), ("c", 3)] := by
  obtain ⟨lru₀, lru, hnew, hrun, hlist, -⟩ :=
    refines (by decide : (1 : ℤ) ≤ 2) [.add "a" 1, .add "b" 2, .get "a", .add "c" 3]
  exact ⟨lru₀, lru, hnew, hrun, hlist⟩

/-! ## Runs with `Pop` -/

inductive Request (κ ν : Type)
  | op (o : Op κ ν)
  | pop
  | keys

inductive Reply (κ ν : Type)
  | answer (a : Answer ν)
  | popped (r : Except String ν)
  | keys (ks : List κ)

namespace Request

variable (range : RangeOrder κ)

def run : Request κ ν → Call (LRU κ ν) Stop (Reply κ ν)
  | op o => do return .answer (← o.run)
  | pop => do return .popped (← LRU.pop)
  | keys => do return .keys (← LRU.keys range)

/-- The cache after the request, if it returns. -/
def step (r : Request κ ν) (lru : LRU κ ν) : Except Stop (LRU κ ν) :=
  match r.run range lru with
  | (.ok _, lru) => .ok lru
  | (.error stop, _) => .error stop

/-- The request returns and leaves the mutex free; `Pop` returns the front, if there is one, and
    removes it. -/
def Served (r : Request κ ν) (lru : LRU κ ν) : Prop :=
  ∃ reply lru', r.run range lru = (.ok reply, lru') ∧ lru'.mutex = false ∧
    (r = pop → ∀ e rest, lru.evictList = e :: rest →
      reply = .popped (.ok e.value) ∧ lru'.evictList = rest)

variable {range} {lru : LRU κ ν} {l : Recency κ ν} {capacity : ℤ}

theorem pop_run_deadlock (h : lru.Holds capacity l) (hne : lru.evictList ≠ []) :
    (pop : Request κ ν).run range lru = (.error .deadlock, { lru with mutex := true }) := by
  have hl : l.entries ≠ [] := by
    rw [← h.represents.contents]
    simpa using hne
  exact Call.bind_of_error (h.pop_deadlock hl)

/-- A request that is no `Pop` of a cache with entries is served, and the cache is as it should be. -/
theorem run_spec (range : RangeOrder κ) (h : lru.Holds capacity l) {r : Request κ ν} (hr : r = pop → lru.evictList = []) :
    ∃ reply lru' l', r.run range lru = (.ok reply, lru') ∧ lru'.Holds capacity l' := by
  cases r with
  | op o =>
    obtain ⟨lru', ho, hlru'⟩ := Op.run_spec h o
    exact ⟨_, lru', _, Call.bind_of_ok ho, hlru'⟩
  | pop =>
    have hl : l.entries = [] := by
      rw [← h.represents.contents, hr rfl]
      rfl
    exact ⟨_, lru, l, Call.bind_of_ok (h.pop_nil hl), h⟩
  | keys => exact ⟨_, lru, l, Call.bind_of_ok (h.keys range), h⟩

theorem served_iff_step (h : lru.Holds capacity l) (r : Request κ ν) :
    r.Served range lru ↔ (r = pop → lru.evictList = []) := by
  constructor
  · rintro ⟨reply, lru', hrun, -⟩ rfl
    by_contra hne
    rw [pop_run_deadlock h hne] at hrun
    cases hrun
  · intro hr
    obtain ⟨reply, lru', l', hrun, hlru'⟩ := run_spec range h hr
    refine ⟨reply, lru', hrun, hlru'.free, fun hpop e rest hlist => ?_⟩
    rw [hr hpop] at hlist
    cases hlist

end Request

open Request in
/-- **The cache never waits for its own mutex exactly while every `Pop` finds it empty.** -/
theorem served_iff (range : RangeOrder κ) {lru : LRU κ ν} {capacity : ℤ} {l : Recency κ ν}
    (h : lru.Holds capacity l) (requests : List (Request κ ν)) :
    Runs.Always (step range) (fun r s _ => r.Served range s) requests lru ↔
      Runs.Always (step range) (fun r s _ => r = .pop → s.evictList = []) requests lru := by
  refine Runs.always_iff (I := fun s => ∃ l, s.Holds capacity l) ?_ ?_ requests ⟨l, h⟩
  · rintro r s ⟨l, hs⟩
    exact served_iff_step hs r
  · rintro r s s' ⟨l, hs⟩ hstep hserved
    obtain ⟨reply, lru', l', hrun, hlru'⟩ : ∃ reply lru' l', r.run range s = (.ok reply, lru') ∧
        lru'.Holds capacity l' := run_spec range hs ((served_iff_step hs r).1 hserved)
    rw [step, hrun] at hstep
    cases hstep
    exact ⟨l', hlru'⟩

/-- The order in which the keys are stored. -/
def storedOrder : RangeOrder String := ⟨id, List.Perm.refl⟩

theorem served_iff_pop : ∃ lru, newLRU String ℕ 1 = .ok lru ∧
    (Runs.Always (Request.step storedOrder) (fun r s _ => r.Served storedOrder s) [.op (.add "a" 1), .pop] lru ↔
      Runs.Always (Request.step storedOrder) (fun r s _ => r = .pop → s.evictList = [])
        [.op (.add "a" 1), .pop] lru) := by
  obtain ⟨lru, hnew, hlru⟩ : ∃ lru, newLRU String ℕ 1 = .ok lru ∧ lru.Holds 1 .empty :=
    LRU.holds_newLRU le_rfl
  exact ⟨lru, hnew, served_iff storedOrder hlru _⟩

/-- `Pop` after `Add` waits for ever. -/
theorem not_served : ¬ ∀ (lru : LRU String ℕ) (capacity : ℤ) (l : Recency String ℕ)
    (requests : List (Request String ℕ)), lru.Holds capacity l →
      Runs.Always (Request.step storedOrder) (fun r s _ => r.Served storedOrder s) requests lru := by
  intro hall
  obtain ⟨lru, -, hlru⟩ : ∃ lru, newLRU String ℕ 1 = .ok lru ∧ lru.Holds 1 .empty :=
    LRU.holds_newLRU le_rfl
  obtain ⟨lru', hadd, hlru'⟩ := Op.run_spec hlru (.add "a" 1)
  have hstep : (Request.op (.add "a" 1)).step storedOrder lru = .ok lru' := by
    rw [Request.step, Request.run, Call.bind_of_ok hadd]
    rfl
  have hpop := ((hall lru 1 .empty [.op (.add "a" 1), .pop] hlru).2 lru' hstep).1
  have hempty := (Request.served_iff_step hlru' .pop).1 hpop rfl
  have hcontents := hlru'.represents.contents
  rw [hempty] at hcontents
  exact absurd hcontents (by decide)

end Timbre.Storage
