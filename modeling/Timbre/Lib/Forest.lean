/-
  Finite forests given by their parent links, in which the parents of the roots are missing:
  the line from a node up to a root, and the leaves below a node.
-/
import Mathlib.Algebra.Order.BigOperators.Group.List
import Mathlib.Algebra.Order.Ring.Nat
import Mathlib.Data.List.Nodup
import Mathlib.Data.List.Perm.Subperm
import Mathlib.Tactic.Push

/-- The nodes of a list with their parent links.  A node has at most one parent, and the links
    lead nowhere in a circle. -/
structure Forest (α : Type) where
  nodes : List α
  Parent : α → α → Prop
  rank : α → ℕ
  parent_unique : ∀ c p q, p ∈ nodes → q ∈ nodes → Parent c p → Parent c q → p = q
  rank_lt : ∀ c p, c ∈ nodes → p ∈ nodes → Parent c p → rank p < rank c

namespace Forest

variable {α : Type} {F : Forest α} {c p t : α} {as : List α}

/-- The node has no child. -/
def Leaf (F : Forest α) (t : α) : Prop := ∀ c ∈ F.nodes, ¬ F.Parent c t

/-- The ancestors of a node, its parent first, up to the one of which the parent is missing. -/
inductive Line (F : Forest α) : α → List α → Prop
  | root {c : α} : (∀ p ∈ F.nodes, ¬ F.Parent c p) → Line F c []
  | grow {c p : α} {as : List α} : p ∈ F.nodes → F.Parent c p → Line F p as → Line F c (p :: as)

namespace Line

theorem mem_nodes (h : F.Line c as) : ∀ a ∈ as, a ∈ F.nodes := by
  induction h with
  | root _ => simp
  | grow hp _ _ ih =>
    intro a ha
    rcases List.mem_cons.1 ha with rfl | ha
    · exact hp
    · exact ih a ha

theorem rank_lt (h : F.Line c as) (hc : c ∈ F.nodes) : ∀ a ∈ as, F.rank a < F.rank c := by
  induction h with
  | root _ => simp
  | grow hp hlink _ ih =>
    have hlt := F.rank_lt _ _ hc hp hlink
    intro a ha
    rcases List.mem_cons.1 ha with rfl | ha
    · exact hlt
    · exact (ih hp a ha).trans hlt

theorem nodup (h : F.Line c as) (hc : c ∈ F.nodes) : (c :: as).Nodup := by
  induction h with
  | root _ => exact List.nodup_singleton _
  | @grow c p as hp hlink hline ih =>
    refine List.nodup_cons.2 ⟨fun hmem => ?_, ih hp⟩
    exact lt_irrefl _ ((Line.grow hp hlink hline).rank_lt hc c hmem)

/-- There are fewer ancestors than nodes. -/
theorem length_lt (h : F.Line c as) (hc : c ∈ F.nodes) : as.length < F.nodes.length := by
  have hsub : c :: as ⊆ F.nodes := by
    intro a ha
    rcases List.mem_cons.1 ha with rfl | ha
    · exact hc
    · exact h.mem_nodes a ha
  exact ((h.nodup hc).subperm hsub).length_le

/-- With a node, its parent is on the line. -/
theorem mem_parent (h : F.Line t as) (hc : c ∈ t :: as) (hp : p ∈ F.nodes) (hlink : F.Parent c p) : p ∈ as := by
  induction h with
  | root hroot =>
    obtain rfl := List.mem_singleton.1 hc
    exact absurd hlink (hroot p hp)
  | @grow t q as hq hlink' _ ih =>
    rcases List.mem_cons.1 hc with rfl | hc
    · rw [F.parent_unique _ _ _ hp hq hlink hlink']
      exact List.mem_cons_self
    · exact List.mem_cons_of_mem _ (ih hc)

end Line

/-- Every node has a line. -/
theorem exists_line (F : Forest α) (c : α) (hc : c ∈ F.nodes) : ∃ as, F.Line c as := by
  by_cases hroot : ∀ p ∈ F.nodes, ¬ F.Parent c p
  · exact ⟨[], .root hroot⟩
  · push Not at hroot
    obtain ⟨p, hp, hlink⟩ := hroot
    have hlt := F.rank_lt c p hc hp hlink
    obtain ⟨as, has⟩ := F.exists_line p hp
    exact ⟨p :: as, .grow hp hlink has⟩
termination_by F.rank c

theorem exists_rank_le (F : Forest α) : ∃ N, ∀ x ∈ F.nodes, F.rank x ≤ N := by
  refine ⟨(F.nodes.map F.rank).sum, fun x hx => ?_⟩
  exact List.le_sum_of_mem (List.mem_map_of_mem hx)

/-- **Every node is on the line of a leaf.** -/
theorem exists_leaf (F : Forest α) {c : α} (hc : c ∈ F.nodes) :
    ∃ t ∈ F.nodes, F.Leaf t ∧ ∃ as, F.Line t as ∧ c ∈ t :: as := by
  obtain ⟨N, hN⟩ := F.exists_rank_le
  induction hn : N - F.rank c using Nat.strong_induction_on generalizing c with
  | _ n ih =>
    by_cases hleaf : F.Leaf c
    · obtain ⟨as, has⟩ := F.exists_line c hc
      exact ⟨c, hc, hleaf, as, has, List.mem_cons_self⟩
    · unfold Leaf at hleaf
      push Not at hleaf
      obtain ⟨d, hd, hlink⟩ := hleaf
      have hlt := F.rank_lt d c hd hc hlink
      have hle := hN d hd
      obtain ⟨t, ht, hleaf, as, has, hmem⟩ := ih (N - F.rank d) (by omega) hd rfl
      exact ⟨t, ht, hleaf, as, has, List.mem_cons_of_mem _ (has.mem_parent hmem hc hlink)⟩

end Forest
