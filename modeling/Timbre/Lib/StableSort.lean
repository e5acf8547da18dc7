/-
  Stable sorting by one key and then by another: the result is sorted by the second key,
  ties being broken by the first.
-/
import Mathlib.Data.List.Sort

namespace StableSort

universe u
variable {α : Type u} (r s : α → α → Prop)

/-- `a` comes before `b` by `r`, or ties with it and comes before it by `s`. -/
def Lex (a b : α) : Prop := r a b ∧ (r b a → s a b)

instance [DecidableRel r] [DecidableRel s] : DecidableRel (Lex r s) := fun a b =>
  inferInstanceAs (Decidable (r a b ∧ (r b a → s a b)))

instance [IsTrans α r] [IsTrans α s] : IsTrans α (Lex r s) where
  trans _ _ _ hab hbc :=
    ⟨trans_of r hab.1 hbc.1, fun hca =>
      trans_of s (hab.2 (trans_of r hbc.1 hca)) (hbc.2 (trans_of r hca hab.1))⟩

instance [Std.Total r] [Std.Total s] : Std.Total (Lex r s) where
  total a b := by
    by_cases hab : r a b <;> by_cases hba : r b a
    · exact (total_of s a b).imp (fun h => ⟨hab, fun _ => h⟩) fun h => ⟨hba, fun _ => h⟩
    · exact .inl ⟨hab, fun h => absurd h hba⟩
    · exact .inr ⟨hba, fun h => absurd h hab⟩
    · exact absurd (total_of r a b) (by simp [hab, hba])

/-- **A sort is stable**: elements that are in order already stay as they are. -/
theorem filter_sort {r : α → α → Prop} [DecidableRel r] {p : α → Bool} {l : List α}
    (h : (l.filter p).Pairwise r) :
    (l.insertionSort r).filter p = l.filter p := by
  have hsub : (l.filter p).Sublist ((l.insertionSort r).filter p) := by
    have := (List.sublist_insertionSort h List.filter_sublist).filter p
    rwa [List.filter_filter, show (fun a => p a && p a) = p from funext fun a => Bool.and_self _] at this
  exact (hsub.eq_of_length ((List.perm_insertionSort r l).filter p).length_eq.symm).symm

variable {r s} [DecidableRel r] [DecidableRel s] [Std.Total r] [Std.Total s] [IsTrans α r]
  [IsTrans α s]

/-- **Sorting by `s` and then, stably, by `r`** orders a list by `r` first and `s` second. -/
theorem pairwise_sort_sort (l : List α) :
    ((l.insertionSort s).insertionSort r).Pairwise (Lex r s) := by
  set l₁ := l.insertionSort s with hl₁
  refine List.pairwise_iff_forall_sublist.2 fun {a b} hab => ?_
  have hr : r a b := List.pairwise_iff_forall_sublist.1 (List.pairwise_insertionSort r l₁) hab
  refine ⟨hr, fun hba => ?_⟩
  -- the elements that tie with `a` have stayed as the first sort has put them
  let p : α → Bool := fun x => decide (r a x) && decide (r x a)
  have hties : ∀ x ∈ l₁.filter p, r a x ∧ r x a := by
    intro x hx
    simpa [p] using (List.mem_filter.1 hx).2
  have hclass : (l₁.filter p).Pairwise r := by
    refine List.pairwise_of_forall_mem_list fun x hx y hy => ?_
    exact trans_of r (hties x hx).2 (hties y hy).1
  have hab' : [a, b].Sublist (l₁.filter p) := by
    have hfilter := hab.filter p
    rw [filter_sort hclass] at hfilter
    have haa : r a a := (total_of r a a).elim id id
    rwa [List.filter_cons_of_pos (by simp [p, haa]), List.filter_cons_of_pos (by simp [p, hr, hba]),
      List.filter_nil] at hfilter
  exact List.pairwise_iff_forall_sublist.1 (List.pairwise_insertionSort s l)
    (hab'.trans List.filter_sublist)

/-- The two sorts do what one sort by `Lex r s` does. -/
theorem sort_sort {l : List α} (hanti : ∀ a ∈ l, ∀ b ∈ l, Lex r s a b → Lex r s b a → a = b) :
    (l.insertionSort s).insertionSort r = l.insertionSort (Lex r s) := by
  refine @List.Perm.eq_of_pairwise _ (Lex r s) _ _ (fun a b ha hb => ?_) (pairwise_sort_sort l)
    (List.pairwise_insertionSort _ _) ?_
  · simp only [List.mem_insertionSort] at ha hb
    exact hanti a ha b hb
  · exact ((List.perm_insertionSort _ _).trans (List.perm_insertionSort _ _)).trans
      (List.perm_insertionSort _ _).symm

/-- A sort does not depend on the order the elements come in. -/
theorem sort_perm {l l' : List α} (h : l.Perm l')
    (hanti : ∀ a ∈ l, ∀ b ∈ l, r a b → r b a → a = b) :
    l.insertionSort r = l'.insertionSort r := by
  refine @List.Perm.eq_of_pairwise _ r _ _ (fun a b ha hb => ?_)
    (List.pairwise_insertionSort _ _) (List.pairwise_insertionSort _ _) ?_
  · simp only [List.mem_insertionSort] at ha hb
    exact hanti a ha b (h.mem_iff.2 hb)
  · exact ((List.perm_insertionSort _ _).trans h).trans (List.perm_insertionSort _ _).symm

end StableSort
