/-
  Keys with their values in the order of their last use, each key once.
-/
import Mathlib.Algebra.Order.Ring.Int
import Mathlib.Data.Finset.Card
import Mathlib.Data.List.Nodup

/-- Pairs of a key and a value, the key that was used last at the back. -/
@[ext]
structure Recency (κ ν : Type) where
  entries : List (κ × ν)
  nodup : (entries.map Prod.fst).Nodup
deriving DecidableEq

namespace Recency

variable {κ ν : Type}

def empty : Recency κ ν := ⟨[], List.nodup_nil⟩

def keys (l : Recency κ ν) : List κ := l.entries.map Prod.fst

def dropFirst (l : Recency κ ν) : Recency κ ν where
  entries := l.entries.tail
  nodup := by
    rw [List.map_tail]
    exact l.nodup.tail

@[simp]
theorem entries_dropFirst {l : Recency κ ν} : l.dropFirst.entries = l.entries.tail := rfl

variable [DecidableEq κ]

def find (k : κ) (l : Recency κ ν) : Option ν := (l.entries.find? (·.1 = k)).map Prod.snd

def erase (k : κ) (l : Recency κ ν) : Recency κ ν where
  entries := l.entries.filter (·.1 ≠ k)
  nodup := l.nodup.sublist (List.filter_sublist.map _)

/-- The key goes to the back, with this value. -/
def touch (k : κ) (v : ν) (l : Recency κ ν) : Recency κ ν where
  entries := (l.erase k).entries ++ [(k, v)]
  nodup := by
    rw [List.map_append, List.nodup_append]
    refine ⟨(l.erase k).nodup, List.nodup_singleton _, ?_⟩
    intro a ha b hb hab
    obtain rfl : b = k := by simpa using hb
    obtain ⟨e, he, rfl⟩ := List.mem_map.1 ha
    exact absurd hab (by simpa using (List.mem_filter.1 he).2)

/-- The key goes to the back; if there are more than `capacity` keys then, the first is dropped. -/
def add (capacity : ℤ) (k : κ) (v : ν) (l : Recency κ ν) : Recency κ ν :=
  if (l.touch k v).entries.length > capacity then (l.touch k v).dropFirst else l.touch k v

/-- The value of the key, which goes to the back if it is there. -/
def use (k : κ) (l : Recency κ ν) : Option ν × Recency κ ν :=
  match l.find k with
  | none => (none, l)
  | some v => (some v, l.touch k v)

variable {l : Recency κ ν} {k : κ} {v : ν}

@[simp]
theorem entries_erase : (l.erase k).entries = l.entries.filter (·.1 ≠ k) := rfl

@[simp]
theorem entries_touch : (l.touch k v).entries = (l.erase k).entries ++ [(k, v)] := rfl

theorem erase_of_find_none (h : l.find k = none) : l.erase k = l := by
  ext1
  rw [entries_erase, List.filter_eq_self]
  intro e he
  rw [find, Option.map_eq_none_iff, List.find?_eq_none] at h
  simpa using h e he

theorem find_eq_none_iff : l.find k = none ↔ k ∉ l.keys := by
  rw [find, Option.map_eq_none_iff, List.find?_eq_none, keys, List.mem_map]
  constructor
  · rintro h ⟨e, he, rfl⟩
    exact h e he (by simp)
  · intro h e he hk
    exact h ⟨e, he, by simpa using hk⟩

@[simp]
theorem erase_erase : (l.erase k).erase k = l.erase k := by
  ext1
  rw [entries_erase, entries_erase, List.filter_filter]
  simp only [Bool.and_self]

@[simp]
theorem find_erase : (l.erase k).find k = none := by
  rw [find_eq_none_iff, keys, List.mem_map]
  rintro ⟨e, he, rfl⟩
  exact absurd (List.mem_filter.1 he).2 (by simp)

@[simp]
theorem touch_erase : (l.erase k).touch k v = l.touch k v := by
  ext1
  rw [entries_touch, erase_erase, entries_touch]

theorem find_erase_ne {k' : κ} (hk : k' ≠ k) : (l.erase k).find k' = l.find k' := by
  have hsame : (fun e : κ × ν => decide (decide (e.1 ≠ k) = true ∧ decide (e.1 = k') = true)) =
      fun e => decide (e.1 = k') := by
    funext e
    by_cases hek : e.1 = k'
    · simp [hek, hk]
    · simp [hek]
  rw [find, entries_erase, List.find?_filter, hsame, find]

theorem find_touch {k' : κ} : (l.touch k v).find k' = if k' = k then some v else l.find k' := by
  rw [find, entries_touch, List.find?_append]
  by_cases hk : k' = k
  · rw [if_pos hk, hk]
    have hnone : (l.erase k).entries.find? (·.1 = k) = none := Option.map_eq_none_iff.1 find_erase
    rw [hnone]
    simp
  · rw [if_neg hk, ← find_erase_ne hk, find]
    simp [Ne.symm hk]

/-- Using a key changes no value. -/
@[simp]
theorem find_use {k' : κ} : (l.use k).2.find k' = l.find k' := by
  unfold use
  cases hfind : l.find k with
  | none => rfl
  | some v =>
    show (l.touch k v).find k' = l.find k'
    rw [find_touch]
    split_ifs with hk
    · rw [hk, hfind]
    · rfl

theorem length_erase_le : (l.erase k).entries.length ≤ l.entries.length := List.length_filter_le _ _

/-- A key that is not the first is erased behind the first. -/
theorem erase_first {e : κ × ν} {rest : List (κ × ν)} (h : l.entries = e :: rest) :
    l.erase e.1 = l.dropFirst := by
  have hnodup := l.nodup
  rw [h, List.map_cons, List.nodup_cons] at hnodup
  ext1
  rw [entries_erase, entries_dropFirst, h, List.tail_cons]
  rw [List.filter_cons_of_neg (by simp), List.filter_eq_self]
  intro e' he'
  simp only [ne_eq, decide_eq_true_eq]
  intro heq
  exact hnodup.1 (heq ▸ List.mem_map_of_mem he')

theorem length_touch_le : (l.touch k v).entries.length ≤ l.entries.length + 1 := by
  rw [entries_touch, List.length_append]
  exact Nat.add_le_add_right length_erase_le 1

/-- A key that is used was there before. -/
theorem length_use_le (l : Recency κ ν) (k : κ) : (l.use k).2.entries.length ≤ l.entries.length := by
  unfold use
  cases h : l.find k with
  | none => exact le_rfl
  | some v =>
    obtain ⟨e, he, -⟩ := Option.map_eq_some_iff.1 h
    have hmem := List.mem_of_find?_eq_some he
    have hk := List.find?_some he
    have hlt : (l.erase k).entries.length < l.entries.length :=
      List.length_filter_lt_length_iff_exists.2 ⟨e, hmem, by simpa using hk⟩
    rw [entries_touch, List.length_append, List.length_singleton]
    omega

theorem length_add_le {capacity : ℤ} (h : l.entries.length ≤ capacity) :
    ((l.add capacity k v).entries.length : ℤ) ≤ capacity := by
  unfold add
  split_ifs with hfull
  · have := length_touch_le (l := l) (k := k) (v := v)
    rw [entries_dropFirst, List.length_tail]
    omega
  · exact not_lt.1 hfull

/-! ## The keys used last -/

/-- The keys of `K` are the ones used last: they stand behind all others. -/
def Recent (K : Finset κ) (l : Recency κ ν) : Prop :=
  ∃ pre suf, l.entries = pre ++ suf ∧ (suf.map Prod.fst).toFinset = K

variable {K : Finset κ}

theorem recent_empty (l : Recency κ ν) : l.Recent ∅ := ⟨l.entries, [], by simp, rfl⟩

theorem Recent.find_isSome (h : l.Recent K) (hk : k ∈ K) : (l.find k).isSome := by
  obtain ⟨pre, suf, hl, hsuf⟩ := h
  rw [Option.isSome_iff_ne_none, ne_eq, find_eq_none_iff, not_not, keys, hl, List.map_append, List.mem_append]
  rw [← hsuf, List.mem_toFinset] at hk
  exact .inr hk

theorem Recent.touch (h : l.Recent K) (k : κ) (v : ν) : (l.touch k v).Recent (insert k K) := by
  obtain ⟨pre, suf, hl, rfl⟩ := h
  refine ⟨pre.filter (·.1 ≠ k), suf.filter (·.1 ≠ k) ++ [(k, v)], ?_, ?_⟩
  · rw [entries_touch, entries_erase, hl, List.filter_append, List.append_assoc]
  · ext a
    simp only [List.map_append, List.toFinset_append, List.map_singleton, List.toFinset_cons, List.toFinset_nil,
      Finset.mem_union, List.mem_toFinset, List.mem_map, List.mem_filter, Finset.mem_insert, Finset.notMem_empty, or_false]
    constructor
    · rintro (⟨e, ⟨he, -⟩, rfl⟩ | rfl)
      · exact .inr ⟨e, he, rfl⟩
      · exact .inl rfl
    · rintro (rfl | ⟨e, he, rfl⟩)
      · exact .inr rfl
      · by_cases hek : e.1 = k
        · exact .inr hek
        · exact .inl ⟨e, ⟨he, by simpa using hek⟩, rfl⟩

/-- An added key drops none of the others, if there is room for all of them. -/
theorem Recent.add {capacity : ℤ} (h : l.Recent K) (k : κ) (v : ν) (hroom : (insert k K).card ≤ capacity) :
    (l.add capacity k v).Recent (insert k K) := by
  have htouch := h.touch k v
  unfold Recency.add
  split_ifs with hfull
  · obtain ⟨pre, suf, hl, hsuf⟩ := htouch
    have hnodup : (suf.map Prod.fst).Nodup := by
      have hall := (l.touch k v).nodup
      rw [hl, List.map_append] at hall
      exact (List.nodup_append.1 hall).2.1
    have hlength : (suf.length : ℤ) ≤ capacity := by
      rw [← hsuf, List.toFinset_card_of_nodup hnodup, List.length_map] at hroom
      exact hroom
    cases pre with
    | nil =>
      rw [hl, List.nil_append] at hfull
      exact absurd hlength (not_le.2 hfull)
    | cons e pre => exact ⟨pre, suf, by rw [entries_dropFirst, hl]; rfl, hsuf⟩
  · exact htouch

end Recency
