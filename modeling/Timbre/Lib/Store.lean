/-
  Finite maps whose absent keys read as a fixed value.
-/
import Mathlib.Data.Finset.Basic
import Mathlib.Logic.Function.Basic

/-- A finite map: the keys it holds, and the value of every key, which is `d` for the keys
    that it does not hold. -/
@[ext]
structure Store (α : Type) {β : Type} (d : β) where
  keys : Finset α
  get : α → β
  get_absent : ∀ a ∉ keys, get a = d

namespace Store

variable {α β : Type} [DecidableEq α] {d : β} (m : Store α d) (a b : α) (v : β)

/-- The map that holds no key. -/
def empty : Store α d := ⟨∅, fun _ => d, fun _ _ => rfl⟩

instance : Inhabited (Store α d) := ⟨empty⟩

/-- Adds the key with the default value, if it is not there. -/
def touch : Store α d where
  keys := insert a m.keys
  get := m.get
  get_absent b hb := m.get_absent b fun h => hb (Finset.mem_insert_of_mem h)

/-- `m[a] = v`. -/
def set : Store α d where
  keys := insert a m.keys
  get := Function.update m.get a v
  get_absent b hb := by
    rw [Finset.mem_insert, not_or] at hb
    rw [Function.update_of_ne hb.1, m.get_absent b hb.2]

/-- `m[a] = v`, unless the map holds `a`. -/
def setNew : Store α d := if a ∈ m.keys then m else m.set a v

/-- `m[a] = f(m[a])`. -/
def modify (f : β → β) : Store α d := m.set a (f (m.get a))

/-- `delete(m, a)`. -/
def erase : Store α d where
  keys := m.keys.erase a
  get := Function.update m.get a d
  get_absent b hb := by
    by_cases hba : b = a
    · rw [hba, Function.update_self]
    · rw [Function.update_of_ne hba, m.get_absent b fun h => hb (Finset.mem_erase.2 ⟨hba, h⟩)]

/-- Changes the value of every key in the map. -/
def mapVals (f : α → β → β) : Store α d where
  keys := m.keys
  get b := if b ∈ m.keys then f b (m.get b) else d
  get_absent _ hb := if_neg hb

/-- Deletes the keys for which `p` does not hold. -/
def filter (p : α → Bool) : Store α d where
  keys := m.keys.filter fun b => p b
  get b := if p b then m.get b else d
  get_absent b hb := by
    split_ifs with hp
    · exact m.get_absent b fun h => hb (Finset.mem_filter.2 ⟨h, hp⟩)
    · rfl

variable {m a b v}

@[simp] theorem keys_touch : (m.touch a).keys = insert a m.keys := rfl
@[simp] theorem get_touch : (m.touch a).get = m.get := rfl
@[simp] theorem keys_set : (m.set a v).keys = insert a m.keys := rfl
@[simp] theorem get_set : (m.set a v).get = Function.update m.get a v := rfl
@[simp] theorem keys_erase : (m.erase a).keys = m.keys.erase a := rfl
@[simp] theorem get_erase : (m.erase a).get = Function.update m.get a d := rfl

@[simp]
theorem keys_modify {f : β → β} : (m.modify a f).keys = insert a m.keys := rfl

@[simp]
theorem get_modify {f : β → β} : (m.modify a f).get = Function.update m.get a (f (m.get a)) := rfl

@[simp]
theorem keys_mapVals {f : α → β → β} : (m.mapVals f).keys = m.keys := rfl

omit [DecidableEq α] in
@[simp]
theorem keys_filter {p : α → Bool} : (m.filter p).keys = m.keys.filter fun b => p b := rfl

theorem get_mapVals {f : α → β → β} :
    (m.mapVals f).get b = if b ∈ m.keys then f b (m.get b) else d := rfl

omit [DecidableEq α] in
theorem get_filter {p : α → Bool} : (m.filter p).get b = if p b then m.get b else d := rfl

omit [DecidableEq α] in
theorem mem_keys_of_get_ne (h : m.get b ≠ d) : b ∈ m.keys :=
  by_contra fun hb => h (m.get_absent b hb)

/-- A map that is filled one key after the other. -/
theorem foldl_set (f : α → β) : ∀ (l : List α) (m : Store α d),
    (l.foldl (fun m a => m.set a (f a)) m).keys = m.keys ∪ l.toFinset ∧
      ∀ b, (l.foldl (fun m a => m.set a (f a)) m).get b = if b ∈ l then f b else m.get b
  | [], m => by simp
  | a :: l, m => by
    obtain ⟨hkeys, hget⟩ := foldl_set f l (m.set a (f a))
    refine ⟨?_, fun b => ?_⟩
    · rw [List.foldl_cons, hkeys]
      ext b
      simp only [keys_set, Finset.mem_union, Finset.mem_insert, List.toFinset_cons, List.mem_toFinset]
      rw [or_assoc, or_left_comm]
    · rw [List.foldl_cons, hget]
      by_cases hb : b = a
      · subst hb
        simp
      · simp [hb]

/-- A map that is filled with the values of another one, in any order of its keys, is that map. -/
theorem foldl_set_self {l : List α} {f : α → β} (hl : ∀ a, a ∈ l ↔ a ∈ m.keys) (hf : ∀ a ∈ m.keys, f a = m.get a) :
    l.foldl (fun m a => m.set a (f a)) (empty : Store α d) = m := by
  obtain ⟨hkeys, hget⟩ := foldl_set f l (empty : Store α d)
  refine Store.ext ?_ (funext fun a => ?_)
  · rw [hkeys]
    ext a
    simpa [empty] using hl a
  · rw [hget]
    by_cases ha : a ∈ m.keys
    · rw [if_pos ((hl a).2 ha), hf a ha]
    · rw [if_neg (mt (hl a).1 ha), m.get_absent a ha]
      rfl

end Store
