/-
  Run-length encoding: a list of runs, the list it stands for, and what happens to
  that list when the last run is lengthened, shortened or dropped.
-/
import Mathlib.Data.List.Basic
import Mathlib.Algebra.BigOperators.Group.List.Basic
import Mathlib.Data.List.Induction
import Mathlib.Tactic.Ring

namespace RunLength

universe u
variable {α : Type u}

/-- The list that the runs `rs` stand for. -/
def expand (rs : List (α × ℕ)) : List α :=
  rs.flatMap fun r => List.replicate r.2 r.1

/-- The number of elements of `expand rs`. -/
def count (rs : List (α × ℕ)) : ℕ := (rs.map Prod.snd).sum

/-- The weight of `expand rs`, for a weight `w` of the elements. -/
def weight (w : α → ℤ) (rs : List (α × ℕ)) : ℤ := (rs.map fun r => r.2 * w r.1).sum

@[simp] theorem expand_nil : expand ([] : List (α × ℕ)) = [] := rfl

@[simp] theorem expand_snoc (rs : List (α × ℕ)) (a : α) (n : ℕ) :
    expand (rs ++ [(a, n)]) = expand rs ++ List.replicate n a := by
  simp [expand, List.flatMap_append]

@[simp] theorem expand_cons (r : α × ℕ) (rs : List (α × ℕ)) :
    expand (r :: rs) = List.replicate r.2 r.1 ++ expand rs := rfl

@[simp] theorem count_nil : count ([] : List (α × ℕ)) = 0 := rfl

@[simp] theorem count_cons (r : α × ℕ) (rs : List (α × ℕ)) :
    count (r :: rs) = r.2 + count rs := by simp [count]

@[simp] theorem count_snoc (rs : List (α × ℕ)) (a : α) (n : ℕ) :
    count (rs ++ [(a, n)]) = count rs + n := by simp [count]

@[simp] theorem weight_nil (w : α → ℤ) : weight w ([] : List (α × ℕ)) = 0 := rfl

@[simp] theorem weight_cons (w : α → ℤ) (r : α × ℕ) (rs : List (α × ℕ)) :
    weight w (r :: rs) = r.2 * w r.1 + weight w rs := by simp [weight]

@[simp] theorem weight_snoc (w : α → ℤ) (rs : List (α × ℕ)) (a : α) (n : ℕ) :
    weight w (rs ++ [(a, n)]) = weight w rs + n * w a := by simp [weight]

@[simp] theorem length_expand (rs : List (α × ℕ)) : (expand rs).length = count rs := by
  induction rs using List.reverseRecOn with
  | nil => rfl
  | append_singleton rs r ih => obtain ⟨a, n⟩ := r; simp [ih]

/-- A prefix that ends inside the last run shortens that run. -/
theorem take_expand_snoc (rs : List (α × ℕ)) (a : α) {n k : ℕ} (hk : k ≤ n) :
    (expand (rs ++ [(a, n)])).take (count rs + k) = expand (rs ++ [(a, k)]) := by
  rw [expand_snoc, expand_snoc, ← length_expand rs, List.take_length_add_append,
    List.take_replicate, min_eq_left hk]

/-- A prefix that ends before the last run does not see that run. -/
theorem take_expand_of_le (rs : List (α × ℕ)) (a : α) (n : ℕ) {k : ℕ} (hk : k ≤ count rs) :
    (expand (rs ++ [(a, n)])).take k = (expand rs).take k := by
  rw [expand_snoc, List.take_append_of_le_length (by simpa using hk)]

theorem getElem?_expand_snoc (rs : List (α × ℕ)) (a : α) {n k : ℕ} (h₁ : count rs ≤ k)
    (h₂ : k < count rs + n) : (expand (rs ++ [(a, n)]))[k]? = some a := by
  rw [expand_snoc, List.getElem?_append_right (by simpa using h₁), List.getElem?_replicate,
    if_pos (by simp; omega)]

theorem getElem?_expand_of_lt (rs : List (α × ℕ)) (a : α) (n : ℕ) {k : ℕ} (h : k < count rs) :
    (expand (rs ++ [(a, n)]))[k]? = (expand rs)[k]? := by
  rw [expand_snoc, List.getElem?_append_left (by simpa using h)]

/-- The weight of the runs is the sum of the weights of the elements. -/
theorem sum_expand (w : α → ℤ) (rs : List (α × ℕ)) : ((expand rs).map w).sum = weight w rs := by
  induction rs using List.reverseRecOn with
  | nil => rfl
  | append_singleton rs r ih => obtain ⟨a, n⟩ := r; simp [ih]

/-- Lengthening the last run appends its element. -/
theorem expand_bump (rs : List (α × ℕ)) (a : α) (n : ℕ) :
    expand (rs ++ [(a, n + 1)]) = expand (rs ++ [(a, n)]) ++ [a] := by
  simp [List.replicate_succ']

theorem modify_snoc {β : Type u} (l : List β) (b : β) (f : β → β) :
    (l ++ [b]).modify l.length f = l ++ [f b] := by
  induction l with
  | nil => rfl
  | cons a l ih => simp [ih]

end RunLength
