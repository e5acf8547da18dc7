/-
  The cache that drops the least recently used key.

  The map holds for each key its element in the eviction list.  Elements are told apart by
  their identity, and the mutex is part of the state: `Lock` on a mutex that is held never
  returns.  **Without `Pop` the cache answers as a list of distinct keys in the order of
  their last use** (`refines`).
-/
import Mathlib.Data.List.AList
import Mathlib.Tactic.Linarith
import Timbre.Lib.Call
import Timbre.Lib.Recency

namespace Timbre.Storage

/-! ## The source -/

/-- How a call stops without returning. -/
inductive Stop
  | deadlock
  | fatal (s : String)
  | panic (s : String)
deriving DecidableEq, Repr

/-- The order in which a map yields its keys. -/
structure RangeOrder (κ : Type) where
  list : List κ → List κ
  perm : ∀ l, (list l).Perm l

/-- An element of `container/list`, with the pair it holds. -/
structure Element (κ ν : Type) where
  id : ℕ
  key : κ
  value : ν
deriving DecidableEq

/-- `fresh` is the identity of the next element. -/
structure LRU (κ ν : Type) [DecidableEq κ] where
  mutex : Bool
  capacity : ℤ
  elements : AList fun _ : κ => Element κ ν
  evictList : List (Element κ ν)
  fresh : ℕ

variable {κ ν α : Type} [DecidableEq κ]

/-- `NewLRU`. -/
def newLRU (κ ν : Type) [DecidableEq κ] (capacity : ℤ) : Except String (LRU κ ν) :=
  if capacity ≤ 0 then .error "cache capacity must be positive"
  else .ok ⟨false, capacity, ∅, [], 0⟩

namespace LRU

/-- `len(lru.elements)`. -/
def size (lru : LRU κ ν) : ℕ := lru.elements.keys.length

def lock : Call (LRU κ ν) Stop Unit := do
  if (← MonadState.get).mutex then throw .deadlock
  modify fun lru => { lru with mutex := true }

def unlock : Call (LRU κ ν) Stop Unit := do
  if !(← MonadState.get).mutex then throw (.fatal "sync: unlock of unlocked mutex")
  modify fun lru => { lru with mutex := false }

/-- `lru.mutex.Lock(); defer lru.mutex.Unlock()`.  What is deferred runs after a panic as well,
    but never where the call waits for ever. -/
def locked (body : Call (LRU κ ν) Stop α) : Call (LRU κ ν) Stop α := do
  lock
  let a ← tryCatch body fun stop => do
    if stop ≠ .deadlock then unlock
    throw stop
  unlock
  return a

def contains (key : κ) : Call (LRU κ ν) Stop Bool := locked do
  return ((← MonadState.get).elements.lookup key).isSome

/-- `evictList.Remove` finds the element by its identity. -/
def remove (key : κ) : Call (LRU κ ν) Stop Unit := locked do
  match (← MonadState.get).elements.lookup key with
  | some element => modify fun lru => { lru with
      elements := lru.elements.erase element.key
      evictList := lru.evictList.filter (·.id ≠ element.id) }
  | none => pure ()

/-- `MoveToBack` leaves a list alone that does not have the element. -/
def get (key : κ) : Call (LRU κ ν) Stop (Option ν) := locked do
  match (← MonadState.get).elements.lookup key with
  | some element =>
    modify fun lru =>
      if lru.evictList.any (·.id = element.id) then
        { lru with evictList := lru.evictList.filter (·.id ≠ element.id) ++ [element] }
      else lru
    return some element.value
  | none => return none

def peek (key : κ) : Call (LRU κ ν) Stop (Option ν) := locked do
  return ((← MonadState.get).elements.lookup key).map Element.value

def keys (range : RangeOrder κ) : Call (LRU κ ν) Stop (List κ) := locked do
  return range.list (← MonadState.get).elements.keys

def pushBack (key : κ) (value : ν) (lru : LRU κ ν) : LRU κ ν :=
  { lru with
    elements := lru.elements.insert key ⟨lru.fresh, key, value⟩
    evictList := lru.evictList ++ [⟨lru.fresh, key, value⟩]
    fresh := lru.fresh + 1 }

/-- The front of the list, of which the value is read. -/
def front : Call (LRU κ ν) Stop (Element κ ν) := do
  match (← MonadState.get).evictList with
  | [] => throw (.panic "invalid memory address or nil pointer dereference")
  | element :: _ => return element

/-- Drops the front if the cache is too large, after `Unlock`. -/
def evict : Call (LRU κ ν) Stop Unit := do
  let lru ← MonadState.get
  if lru.size > lru.capacity then
    remove (← front).key

def add (key : κ) (value : ν) : Call (LRU κ ν) Stop Unit := do
  if ← contains key then remove key
  lock
  modify (pushBack key value)
  unlock
  evict

/-- `Pop`: the value of the front, or an error. -/
def pop : Call (LRU κ ν) Stop (Except String ν) := locked do
  if (← MonadState.get).size = 0 then return .error "Size of cache is zero"
  let key := (← front).key
  match ← get key with
  | none => return .error "Failed to get a key value pair"
  | some value =>
    remove key
    return .ok value

/-! ## What the cache holds -/

/-- Without a key, the key is not found, and the others as before. -/
theorem find?_filter_key {es : List (Element κ ν)} {k k' : κ} :
    (es.filter (·.key ≠ k')).find? (·.key = k) = if k = k' then none else es.find? (·.key = k) := by
  rw [List.find?_filter]
  split_ifs with hk
  · rw [List.find?_eq_none]
    intro e _
    simp [hk]
  · congr 1
    ext e
    by_cases hek : e.key = k
    · simp [hek, hk]
    · simp [hek]

/-- The map and the eviction list hold the pairs of `l`, in its order. -/
structure Represents (lru : LRU κ ν) (l : Recency κ ν) : Prop where
  contents : (lru.evictList.map fun e => (e.key, e.value)) = l.entries
  ids : (lru.evictList.map Element.id).Nodup
  fresh : ∀ e ∈ lru.evictList, e.id < lru.fresh
  lookup : ∀ k, lru.elements.lookup k = lru.evictList.find? (·.key = k)

variable {lru : LRU κ ν} {l : Recency κ ν} {k : κ} {v : ν}

namespace Represents

theorem keys_eq (h : lru.Represents l) : lru.evictList.map Element.key = l.keys := by
  rw [Recency.keys, ← h.contents, List.map_map]
  rfl

theorem nodup (h : lru.Represents l) : (lru.evictList.map Element.key).Nodup := h.keys_eq ▸ l.nodup

/-- An element is told by its key as well. -/
theorem eq_of_key (h : lru.Represents l) {e e' : Element κ ν} (he : e ∈ lru.evictList)
    (he' : e' ∈ lru.evictList) (hkey : e.key = e'.key) : e = e' :=
  List.inj_on_of_nodup_map h.nodup he he' hkey

theorem eq_of_id (h : lru.Represents l) {e e' : Element κ ν} (he : e ∈ lru.evictList)
    (he' : e' ∈ lru.evictList) (hid : e.id = e'.id) : e = e' :=
  List.inj_on_of_nodup_map h.ids he he' hid

theorem lookup_eq_some (h : lru.Represents l) {e : Element κ ν} :
    lru.elements.lookup k = some e ↔ e ∈ lru.evictList ∧ e.key = k := by
  rw [h.lookup]
  constructor
  · intro hfind
    exact ⟨List.mem_of_find?_eq_some hfind, by simpa using List.find?_some hfind⟩
  · rintro ⟨he, rfl⟩
    cases hfind : lru.evictList.find? (·.key = e.key) with
    | none => exact absurd (List.find?_eq_none.1 hfind e he) (by simp)
    | some e' =>
      have hkey : e'.key = e.key := by simpa using List.find?_some hfind
      rw [h.eq_of_key (List.mem_of_find?_eq_some hfind) he hkey]

theorem find_eq (h : lru.Represents l) : l.find k = (lru.elements.lookup k).map Element.value := by
  rw [Recency.find, ← h.contents, List.find?_map, h.lookup, Option.map_map]
  rfl

/-- **The map and the eviction list hold the same keys, once each.** -/
theorem keys_perm (h : lru.Represents l) : lru.elements.keys.Perm (lru.evictList.map Element.key) := by
  refine (List.perm_ext_iff_of_nodup lru.elements.keys_nodup h.nodup).2 fun k => ?_
  rw [← AList.mem_keys, ← AList.lookup_isSome, h.lookup, List.find?_isSome, List.mem_map]
  simp

theorem size_eq (h : lru.Represents l) : lru.size = l.entries.length := by
  rw [size, h.keys_perm.length_eq, List.length_map, ← h.contents, List.length_map]

/-- Without an element by its identity is without it by its key. -/
theorem filter_id (h : lru.Represents l) {e : Element κ ν} (he : e ∈ lru.evictList) :
    lru.evictList.filter (·.id ≠ e.id) = lru.evictList.filter (·.key ≠ e.key) := by
  refine List.filter_congr fun x hx => ?_
  have hiff : x.id = e.id ↔ x.key = e.key :=
    ⟨fun hid => by rw [h.eq_of_id hx he hid], fun hkey => by rw [h.eq_of_key hx he hkey]⟩
  simp [hiff]

theorem erase (h : lru.Represents l) {e : Element κ ν} (he : e ∈ lru.evictList) :
    Represents { lru with
      elements := lru.elements.erase e.key
      evictList := lru.evictList.filter (·.id ≠ e.id) } (l.erase e.key) := by
  rw [h.filter_id he]
  refine ⟨?_, h.ids.sublist (List.filter_sublist.map _), fun x hx => h.fresh x (List.mem_filter.1 hx).1, ?_⟩
  · rw [Recency.entries_erase, ← h.contents, List.filter_map]
    rfl
  · intro k
    dsimp only
    rw [find?_filter_key]
    split_ifs with hk
    · rw [hk, AList.lookup_erase]
    · rw [AList.lookup_erase_ne hk, h.lookup]

theorem moveToBack (h : lru.Represents l) {e : Element κ ν} (he : e ∈ lru.evictList) :
    Represents { lru with evictList := lru.evictList.filter (·.id ≠ e.id) ++ [e] } (l.touch e.key e.value) := by
  refine ⟨?_, ?_, ?_, fun k => ?_⟩
  · rw [h.filter_id he, List.map_append, Recency.entries_touch, Recency.entries_erase, ← h.contents,
      List.filter_map]
    rfl
  · rw [List.map_append, List.nodup_append]
    refine ⟨h.ids.sublist (List.filter_sublist.map _), List.nodup_singleton _, ?_⟩
    intro a ha b hb hab
    obtain ⟨x, hx, rfl⟩ := List.mem_map.1 ha
    obtain rfl : b = e.id := by simpa using hb
    exact absurd hab (by simpa using (List.mem_filter.1 hx).2)
  · intro x hx
    rcases List.mem_append.1 hx with hx | hx
    · exact h.fresh x (List.mem_filter.1 hx).1
    · rw [List.mem_singleton.1 hx]
      exact h.fresh e he
  · rw [h.filter_id he, List.find?_append, find?_filter_key]
    split_ifs with hk
    · subst hk
      rw [(h.lookup_eq_some).2 ⟨he, rfl⟩]
      simp
    · rw [h.lookup, List.find?_singleton]
      simp [Ne.symm hk]

theorem pushBack (h : lru.Represents l) (hk : l.find k = none) :
    (lru.pushBack k v).Represents (l.touch k v) := by
  have hnot : ∀ e ∈ lru.evictList, e.key ≠ k := by
    intro e he hek
    exact Recency.find_eq_none_iff.1 hk (h.keys_eq ▸ hek ▸ List.mem_map_of_mem he)
  refine ⟨?_, ?_, ?_, fun k' => ?_⟩
  · rw [Recency.entries_touch, Recency.erase_of_find_none hk, ← h.contents]
    simp [LRU.pushBack]
  · show ((lru.evictList ++ [_]).map Element.id).Nodup
    rw [List.map_append, List.nodup_append]
    refine ⟨h.ids, List.nodup_singleton _, ?_⟩
    intro a ha b hb hab
    obtain ⟨e, he, rfl⟩ := List.mem_map.1 ha
    obtain rfl : b = lru.fresh := by simpa using hb
    exact absurd (h.fresh e he) (by rw [hab]; exact lt_irrefl _)
  · intro x hx
    rcases List.mem_append.1 hx with hx | hx
    · exact Nat.lt_succ_of_lt (h.fresh x hx)
    · rw [List.mem_singleton.1 hx]
      exact Nat.lt_succ_self _
  · show (lru.elements.insert _ _).lookup k' = (lru.evictList ++ [_]).find? _
    rw [List.find?_append, ← h.lookup, List.find?_singleton]
    by_cases hkk : k' = k
    · subst hkk
      have hnone : lru.elements.lookup k' = none := by
        rw [h.lookup, List.find?_eq_none]
        simpa using hnot
      rw [AList.lookup_insert, hnone]
      simp
    · rw [AList.lookup_insert_ne hkk]
      simp [Ne.symm hkk]

/-- The front of a cache that is not empty. -/
theorem front (h : lru.Represents l) {e : κ × ν} {rest : List (κ × ν)} (hl : l.entries = e :: rest) :
    ∃ x, LRU.front lru = (.ok x, lru) ∧ (x.key, x.value) = e := by
  have hcontents := h.contents
  rw [hl] at hcontents
  obtain ⟨x, xs, hxs, hx, -⟩ := List.map_eq_cons_iff.1 hcontents
  refine ⟨x, ?_, hx⟩
  rw [LRU.front, Call.get_bind, hxs]
  rfl

end Represents

/-! ## The mutex -/

theorem lock_free (h : lru.mutex = false) : lock lru = (.ok (), { lru with mutex := true }) := by
  rw [lock, Call.get_bind, if_neg (by simp [h])]
  rfl

theorem lock_held (h : lru.mutex = true) : lock lru = (.error .deadlock, lru) := by
  rw [lock, Call.get_bind, if_pos h]
  rfl

theorem unlock_held (h : lru.mutex = true) : unlock lru = (.ok (), { lru with mutex := false }) := by
  rw [unlock, Call.get_bind, if_neg (by simp [h])]
  rfl

variable {body : Call (LRU κ ν) Stop α} {a : α} {t : LRU κ ν}

/-- What is locked runs on its own, if the mutex is free. -/
theorem locked_ok (hfree : lru.mutex = false) (h : body { lru with mutex := true } = (.ok a, t))
    (hheld : t.mutex = true) : locked body lru = (.ok a, { t with mutex := false }) := by
  rw [locked, Call.bind_of_ok (lock_free hfree), Call.bind_of_ok (Call.tryCatch_of_ok h),
    Call.bind_of_ok (unlock_held hheld)]
  rfl

theorem locked_held (hheld : lru.mutex = true) : locked body lru = (.error .deadlock, lru) := by
  rw [locked, Call.bind_of_error (lock_held hheld)]

/-- A deadlock inside leaves the mutex as it is. -/
theorem locked_deadlock (hfree : lru.mutex = false)
    (h : body { lru with mutex := true } = (.error .deadlock, t)) :
    locked body lru = (.error .deadlock, t) := by
  rw [locked, Call.bind_of_ok (lock_free hfree), Call.bind_of_error]
  rw [Call.tryCatch_of_error h]
  rfl

/-! ## The operations -/

/-- The mutex is free, and the cache has the pairs of `l` and this capacity. -/
structure Holds (lru : LRU κ ν) (capacity : ℤ) (l : Recency κ ν) : Prop where
  free : lru.mutex = false
  capacity : lru.capacity = capacity
  represents : lru.Represents l

variable {capacity : ℤ}

theorem holds_newLRU (h : 1 ≤ capacity) :
    ∃ lru, newLRU κ ν capacity = .ok lru ∧ lru.Holds capacity .empty := by
  refine ⟨_, if_neg (by omega), rfl, rfl, ?_⟩
  exact ⟨rfl, List.nodup_nil, by simp, fun k => rfl⟩

theorem free_eq (h : lru.mutex = false) : { lru with mutex := false } = lru := by
  rw [← h]

/-- Looking up under the lock leaves the cache as it is. -/
theorem locked_read (hfree : lru.mutex = false) {f : LRU κ ν → α}
    (hf : f { lru with mutex := true } = a) :
    locked (do return f (← MonadState.get)) lru = (.ok a, lru) := by
  have hbody : (do return f (← MonadState.get) : Call (LRU κ ν) Stop α) { lru with mutex := true } =
      (.ok a, { lru with mutex := true }) := by
    rw [Call.get_bind, hf]
    rfl
  rw [locked_ok hfree hbody rfl, free_eq hfree]

namespace Holds

theorem contains (h : lru.Holds capacity l) (k : κ) : lru.contains k = (.ok (l.find k).isSome, lru) :=
  locked_read h.free (by simp [h.represents.find_eq])

theorem peek (h : lru.Holds capacity l) (k : κ) : lru.peek k = (.ok (l.find k), lru) :=
  locked_read h.free h.represents.find_eq.symm

theorem keys (h : lru.Holds capacity l) (range : RangeOrder κ) :
    lru.keys range = (.ok (range.list lru.elements.keys), lru) :=
  locked_read h.free rfl

theorem size_eq (h : lru.Holds capacity l) : lru.size = l.entries.length := h.represents.size_eq

theorem remove (h : lru.Holds capacity l) (k : κ) :
    ∃ lru', lru.remove k = (.ok (), lru') ∧ lru'.Holds capacity (l.erase k) := by
  cases hk : lru.elements.lookup k with
  | none =>
    have hbody : LRU.remove k lru = (.ok (), { lru with mutex := false }) := by
      refine locked_ok (t := { lru with mutex := true }) h.free ?_ rfl
      rw [Call.get_bind, hk]
      rfl
    refine ⟨lru, by rw [hbody, free_eq h.free], h.free, h.capacity, ?_⟩
    rw [Recency.erase_of_find_none (by rw [h.represents.find_eq, hk]; rfl)]
    exact h.represents
  | some e =>
    obtain ⟨he, rfl⟩ := h.represents.lookup_eq_some.1 hk
    refine ⟨_, locked_ok (t := { lru with
      mutex := true
      elements := lru.elements.erase e.key
      evictList := lru.evictList.filter (·.id ≠ e.id) }) h.free ?_ rfl, rfl, h.capacity, ?_⟩
    · rw [Call.get_bind, hk]
      rfl
    · have herase := h.represents.erase he
      exact ⟨herase.contents, herase.ids, herase.fresh, herase.lookup⟩

theorem get (h : lru.Holds capacity l) (k : κ) :
    ∃ lru', lru.get k = (.ok (l.use k).1, lru') ∧ lru'.Holds capacity (l.use k).2 := by
  have hfind := h.represents.find_eq (k := k)
  cases hk : lru.elements.lookup k with
  | none =>
    rw [hk] at hfind
    have hbody : LRU.get k lru = (.ok none, { lru with mutex := false }) := by
      refine locked_ok (t := { lru with mutex := true }) h.free ?_ rfl
      rw [Call.get_bind, hk]
      rfl
    have huse : l.use k = (none, l) := by
      rw [Recency.use, hfind]
      rfl
    rw [huse]
    exact ⟨lru, by rw [hbody, free_eq h.free], h⟩
  | some e =>
    rw [hk] at hfind
    obtain ⟨he, rfl⟩ := h.represents.lookup_eq_some.1 hk
    have huse : l.use e.key = (some e.value, l.touch e.key e.value) := by
      rw [Recency.use, hfind]
      rfl
    have hany : lru.evictList.any (·.id = e.id) = true := List.any_eq_true.2 ⟨e, he, by simp⟩
    rw [huse]
    refine ⟨_, locked_ok (t := { lru with
      mutex := true
      evictList := lru.evictList.filter (·.id ≠ e.id) ++ [e] }) h.free ?_ rfl, rfl, h.capacity, ?_⟩
    · rw [Call.get_bind, hk]
      show ((.ok (some e.value) : Except Stop (Option ν)),
        if lru.evictList.any (·.id = e.id) then _ else _) = _
      rw [if_pos hany]
    · have hmove := h.represents.moveToBack he
      exact ⟨hmove.contents, hmove.ids, hmove.fresh, hmove.lookup⟩

theorem evict (h : lru.Holds capacity l) (hne : l.entries ≠ []) :
    ∃ lru', LRU.evict lru = (.ok (), lru') ∧
      lru'.Holds capacity (if l.entries.length > capacity then l.dropFirst else l) := by
  unfold LRU.evict
  rw [Call.get_bind, h.size_eq, h.capacity]
  split_ifs with hfull
  · obtain ⟨e, rest, hl⟩ := List.exists_cons_of_ne_nil hne
    obtain ⟨x, hfront, rfl⟩ := h.represents.front hl
    rw [Call.bind_of_ok hfront, ← Recency.erase_first hl]
    exact h.remove x.key
  · exact ⟨lru, rfl, h⟩

theorem pushBack (h : lru.Holds capacity l) (hk : l.find k = none) :
    (lru.pushBack k v).Holds capacity (l.touch k v) :=
  ⟨h.free, h.capacity, h.represents.pushBack hk⟩

theorem add (h : lru.Holds capacity l) (k : κ) (v : ν) :
    ∃ lru', lru.add k v = (.ok (), lru') ∧ lru'.Holds capacity (l.add capacity k v) := by
  -- the key is not in the cache when the pair is pushed
  obtain ⟨lru₁, hcall, hholds⟩ : ∃ lru₁, (if (l.find k).isSome then LRU.remove k else pure ()) lru = (.ok (), lru₁) ∧
      lru₁.Holds capacity (l.erase k) := by
    split_ifs with hk
    · exact h.remove k
    · refine ⟨lru, rfl, ?_⟩
      rwa [Recency.erase_of_find_none (by simpa using hk)]
  have hpush : (lru₁.pushBack k v).Holds capacity (l.touch k v) :=
    Recency.touch_erase (l := l) ▸ hholds.pushBack Recency.find_erase
  obtain ⟨lru', hevict, hlru'⟩ := hpush.evict (by simp)
  refine ⟨lru', ?_, hlru'⟩
  have hlock := lock_free hholds.free
  have hunlock : unlock { lru₁.pushBack k v with mutex := true } = (.ok (), lru₁.pushBack k v) := by
    rw [unlock_held rfl]
    exact congrArg (Prod.mk _) (free_eq hpush.free)
  have hinsert : (do lock; modify (LRU.pushBack k v); unlock; LRU.evict : Call (LRU κ ν) Stop Unit) lru₁ =
      (.ok (), lru') := by
    rw [Call.bind_of_ok hlock]
    exact (Call.bind_of_ok (f := fun _ => LRU.evict) hunlock).trans hevict
  rw [LRU.add, Call.bind_of_ok (h.contains k)]
  split_ifs at hcall ⊢
  · exact (Call.bind_of_ok hcall).trans hinsert
  · cases hcall
    exact hinsert

/-- `Pop` of an empty cache is an error. -/
theorem pop_nil (h : lru.Holds capacity l) (hl : l.entries = []) :
    lru.pop = (.ok (.error "Size of cache is zero"), lru) := by
  have hbody : LRU.pop lru = (.ok (.error "Size of cache is zero"), { lru with mutex := false }) := by
    refine locked_ok (t := { lru with mutex := true }) h.free ?_ rfl
    have hsize : LRU.size { lru with mutex := true } = 0 := h.size_eq.trans (by rw [hl]; rfl)
    rw [Call.get_bind, if_pos hsize]
    rfl
  rw [hbody, free_eq h.free]

/-- **`Pop` of a cache that is not empty never returns**: it calls `Get` with the mutex held. -/
theorem pop_deadlock (h : lru.Holds capacity l) (hl : l.entries ≠ []) :
    lru.pop = (.error .deadlock, { lru with mutex := true }) := by
  have hsize : LRU.size { lru with mutex := true } ≠ 0 := by
    intro hzero
    exact hl (List.length_eq_zero_iff.1 (h.size_eq.symm.trans hzero))
  obtain ⟨e, rest, hl⟩ := List.exists_cons_of_ne_nil hl
  have hheld : Represents { lru with mutex := true } l :=
    ⟨h.represents.contents, h.represents.ids, h.represents.fresh, h.represents.lookup⟩
  refine locked_deadlock h.free ?_
  obtain ⟨x, hfront, -⟩ := hheld.front hl
  rw [Call.get_bind, if_neg hsize, Call.bind_of_ok hfront, Call.bind_of_error]
  exact locked_held rfl

end Holds

end LRU
end Timbre.Storage
