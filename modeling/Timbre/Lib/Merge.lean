/-
  Two queues that are merged by the keys of their first elements.

  The queues need not be sorted.  **When an element of the second queue is taken, just those of
  the first have been taken that come before one with a higher key than all of the second
  queue up to it** (`Merged.takeWhile_eq`).
-/
import Mathlib.Data.List.MinMax

variable {α β κ : Type} [LinearOrder κ] {f : α → κ} {g : β → κ} {xs xs' : List α} {ys ys' zs : List β} {x : α} {y : β}

/-- The element comes before one of `zs`, or at a tie with one. -/
def upTo (f : α → κ) (g : β → κ) (zs : List β) (x : α) : Bool := zs.any fun z => f x ≤ g z

theorem upTo_iff : upTo f g zs x = true ↔ ∃ z ∈ zs, f x ≤ g z := by
  simp [upTo]

/-- `xs` and `ys` have been taken from the queues, and `xs'` and `ys'` are left; the first queue
    goes first at a tie. -/
structure Merged (f : α → κ) (g : β → κ) (xs xs' : List α) (ys ys' : List β) : Prop where
  ahead : ∀ y ∈ ys'.head?, ∀ x ∈ xs, ∃ z ∈ ys ++ [y], f x ≤ g z
  behind : ∀ x ∈ xs'.head?, ∀ y ∈ ys, ∃ z ∈ xs ++ [x], g y < f z

namespace Merged

theorem start (xs' : List α) (ys' : List β) : Merged f g [] xs' [] ys' := ⟨by simp, by simp⟩

/-- The first element of the first queue is taken. -/
theorem left (h : Merged f g xs (x :: xs') ys ys') (hx : ∀ y ∈ ys'.head?, f x ≤ g y) :
    Merged f g (xs ++ [x]) xs' ys ys' where
  ahead y hy x' hx' := by
    rcases List.mem_append.1 hx' with hx' | hx'
    · exact h.ahead y hy x' hx'
    · rw [List.mem_singleton.1 hx']
      exact ⟨y, by simp, hx y hy⟩
  behind x' hx' y hy := by
    obtain ⟨z, hz, hlt⟩ := h.behind x rfl y hy
    exact ⟨z, List.mem_append_left _ hz, hlt⟩

/-- The first element of the second queue is taken. -/
theorem right (h : Merged f g xs xs' ys (y :: ys')) (hy : ∀ x ∈ xs'.head?, g y < f x) :
    Merged f g xs xs' (ys ++ [y]) ys' where
  ahead y' hy' x hx := by
    obtain ⟨z, hz, hle⟩ := h.ahead y rfl x hx
    exact ⟨z, List.mem_append_left _ hz, hle⟩
  behind x hx y' hy' := by
    rcases List.mem_append.1 hy' with hy' | hy'
    · exact h.behind x hx y' hy'
    · rw [List.mem_singleton.1 hy']
      exact ⟨x, by simp, hy x hx⟩

/-- What has been taken from the first queue comes before the second queue up to `zs`. -/
theorem prefix_takeWhile (h : Merged f g xs xs' ys (y :: ys')) (hz : ys ++ [y] ⊆ zs) :
    xs <+: (xs ++ xs').takeWhile (upTo f g zs) := by
  rw [List.takeWhile_append_of_pos]
  · exact List.prefix_append _ _
  · intro x hx
    obtain ⟨z, hz', hle⟩ := h.ahead y rfl x hx
    exact upTo_iff.2 ⟨z, hz hz', hle⟩

/-- The next element of the first queue is later than all of the second one up to its next. -/
theorem not_upTo (h : Merged f g xs (x :: xs') ys (y :: ys')) (hy : g y < f x) :
    upTo f g (ys ++ [y]) x = false := by
  rw [← Bool.not_eq_true, upTo_iff]
  rintro ⟨z, hz, hle⟩
  have hhigher : ∀ z' ∈ ys ++ [y], f x ≤ g z' → ∃ z'' ∈ ys ++ [y], g z' < g z'' := by
    intro z' hz' hle'
    rcases List.mem_append.1 hz' with hmem | hmem
    · obtain ⟨x', hx', hlt⟩ := h.behind x rfl z' hmem
      rcases List.mem_append.1 hx' with hx' | hx'
      · obtain ⟨z'', hz'', hle''⟩ := h.ahead y rfl x' hx'
        exact ⟨z'', hz'', hlt.trans_le hle''⟩
      · rw [List.mem_singleton.1 hx'] at hlt
        exact absurd (hlt.trans_le hle') (lt_irrefl _)
    · rw [List.mem_singleton.1 hmem] at hle'
      exact absurd (hy.trans_le hle') (lt_irrefl _)
  -- one of the highest keys is that of some `m`
  obtain ⟨m, hm⟩ : ∃ m, m ∈ (ys ++ [y]).argmax g := by
    refine Option.ne_none_iff_exists'.1 fun hnone => ?_
    simp [List.argmax_eq_none] at hnone
  obtain ⟨z', hz', hlt⟩ := hhigher m (List.argmax_mem hm) (hle.trans (List.le_of_mem_argmax hz hm))
  exact absurd hlt (List.le_of_mem_argmax hz' hm).not_gt

/-- **What has been taken from the first queue when `y` is taken.** -/
theorem takeWhile_eq (h : Merged f g xs xs' ys (y :: ys')) (hy : ∀ x ∈ xs'.head?, g y < f x) :
    (xs ++ xs').takeWhile (upTo f g (ys ++ [y])) = xs := by
  rw [List.takeWhile_append_of_pos]
  · cases xs' with
    | nil => simp
    | cons x xs' => rw [List.takeWhile_cons_of_neg (by simp [h.not_upTo (hy x rfl)]), List.append_nil]
  · intro x hx
    obtain ⟨z, hz, hle⟩ := h.ahead y rfl x hx
    exact upTo_iff.2 ⟨z, hz, hle⟩

end Merged
