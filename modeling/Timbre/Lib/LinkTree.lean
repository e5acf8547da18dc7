/-
  Trees given by their parent links: the branch from a node down to the root, and the
  point where two branches part.
-/
import Mathlib.Data.List.Basic
import Mathlib.Order.Basic
import Mathlib.Algebra.Order.Ring.Int

universe u

/-- Nodes with parent links that lead, level by level, to one root. -/
structure LinkTree (α : Type u) where
  Root : α → Prop
  Parent : α → α → Prop
  level : α → ℤ
  root_unique : ∀ {a b}, Root a → Root b → a = b
  root_level : ∀ {a}, Root a → level a = 0
  parent_unique : ∀ {a p q}, Parent a p → Parent a q → p = q
  parent_level : ∀ {a p}, Parent a p → level a = level p + 1

namespace LinkTree

variable {α : Type u} (T : LinkTree α)

/-- The list is a branch: a node, its parent, and so on to the root. -/
inductive Branch : List α → Prop
  | root {a} : T.Root a → Branch [a]
  | grow {a p l} : T.Parent a p → Branch (p :: l) → Branch (a :: p :: l)

variable {T}

namespace Branch

theorem ne_nil {l : List α} (h : T.Branch l) : l ≠ [] := by
  cases h <;> exact List.cons_ne_nil _ _

/-- The part of a branch from one of its nodes on is the branch of that node. -/
theorem suffix {x : α} {s : List α} {p : List α} (h : T.Branch (p ++ x :: s)) :
    T.Branch (x :: s) := by
  induction p with
  | nil => exact h
  | cons a p ih =>
    cases p with
    | nil =>
      cases h with
      | grow _ h => exact h
    | cons b p =>
      cases h with
      | grow _ h => exact ih h

theorem level_nonneg {a : α} {l : List α} (h : T.Branch (a :: l)) : 0 ≤ T.level a := by
  induction l generalizing a with
  | nil =>
    cases h with
    | root hr => exact (T.root_level hr).ge
  | cons p l ih =>
    cases h with
    | grow hp h =>
      have h₀ := ih h
      have h₁ := T.parent_level hp
      omega

/-- A node has one branch. -/
theorem unique : ∀ {l l' : List α} {a : α}, T.Branch (a :: l) → T.Branch (a :: l') → l = l'
  | [], [], _, _, _ => rfl
  | [], _ :: _, _, .root hr, .grow hp h => by
    have h₀ := T.root_level hr
    have h₁ := T.parent_level hp
    have h₂ := level_nonneg h
    omega
  | _ :: _, [], _, .grow hp h, .root hr => by
    have h₀ := T.root_level hr
    have h₁ := T.parent_level hp
    have h₂ := level_nonneg h
    omega
  | _ :: _, _ :: _, _, .grow hp h, .grow hp' h' => by
    obtain rfl := T.parent_unique hp hp'
    rw [unique h h']

/-- Levels fall along a branch. -/
theorem level_lt {a : α} : ∀ {l : List α}, T.Branch (a :: l) → ∀ x ∈ l, T.level x < T.level a
  | [], _, x, hx => absurd hx List.not_mem_nil
  | p :: l, .grow hp h, x, hx => by
    have h₁ := T.parent_level hp
    rcases List.mem_cons.1 hx with rfl | hx
    · omega
    · have h₂ := level_lt h x hx
      omega

theorem level_le {a : α} {l : List α} (h : T.Branch (a :: l)) {x : α} (hx : x ∈ a :: l) :
    T.level x ≤ T.level a := by
  rcases List.mem_cons.1 hx with rfl | hx
  · exact le_rfl
  · exact (level_lt h x hx).le

theorem level_nonneg_of_mem {l : List α} (h : T.Branch l) {x : α} (hx : x ∈ l) :
    0 ≤ T.level x := by
  obtain ⟨p, s, rfl⟩ := List.append_of_mem hx
  exact h.suffix.level_nonneg

/-- Of the nodes before `x` on a branch, each is on a higher level than `x`. -/
theorem level_lt_of_append {x : α} {s : List α} : ∀ {p : List α}, T.Branch (p ++ x :: s) →
    ∀ y ∈ p, T.level x < T.level y
  | a :: p, h, y, hy => by
    rcases List.mem_cons.1 hy with rfl | hy
    · exact level_lt h x (by simp)
    · cases p with
      | nil => exact absurd hy List.not_mem_nil
      | cons b p =>
        cases h with
        | grow _ h => exact level_lt_of_append h y hy

/-- A branch has one node on each level. -/
theorem level_inj {l : List α} (h : T.Branch l) {x y : α} (hx : x ∈ l) (hy : y ∈ l)
    (hxy : T.level x = T.level y) : x = y := by
  obtain ⟨p, s, rfl⟩ := List.append_of_mem hx
  rcases List.mem_append.1 hy with hy | hy
  · exact absurd (h.level_lt_of_append y hy) (by omega)
  · rcases List.mem_cons.1 hy with rfl | hy
    · rfl
    · exact absurd (level_lt h.suffix y hy) (by omega)

/-- A branch reaches every level below its head. -/
theorem exists_level {a : α} : ∀ {l : List α}, T.Branch (a :: l) → ∀ {k : ℤ}, 0 ≤ k →
    k ≤ T.level a → ∃ x ∈ a :: l, T.level x = k
  | [], .root hr, k, h₀, h₁ => by
    refine ⟨a, by simp, ?_⟩
    have := T.root_level hr
    omega
  | p :: l, .grow hp h, k, h₀, h₁ => by
    have hlev := T.parent_level hp
    by_cases hk : k = T.level a
    · exact ⟨a, by simp, hk.symm⟩
    · obtain ⟨x, hx, hxk⟩ := exists_level h h₀ (show k ≤ T.level p by omega)
      exact ⟨x, List.mem_cons_of_mem _ hx, hxk⟩

/-- A branch has as many nodes below its head as the level of the head says. -/
theorem length_eq {a : α} : ∀ {l : List α}, T.Branch (a :: l) → (l.length : ℤ) = T.level a
  | [], .root hr => (T.root_level hr).symm
  | _ :: _, .grow hp h => by
    rw [List.length_cons, T.parent_level hp, ← length_eq h]
    rfl

/-- Below the first element each one has a child on the branch. -/
theorem exists_child {x : α} : ∀ {l : List α} {a : α}, T.Branch (a :: l) → x ∈ l → ∃ y ∈ a :: l, T.Parent y x
  | _, a, .grow (p := p) hp h, hx => by
    rcases List.mem_cons.1 hx with rfl | hx
    · exact ⟨a, by simp, hp⟩
    · obtain ⟨y, hy, hyx⟩ := exists_child h hx
      exact ⟨y, List.mem_cons_of_mem _ hy, hyx⟩

/-- All branches end in the root. -/
theorem root_mem {r : α} (hr : T.Root r) {l : List α} (h : T.Branch l) : r ∈ l := by
  induction h with
  | root h => exact List.mem_singleton.2 (T.root_unique hr h)
  | grow _ _ ih => exact List.mem_cons_of_mem _ ih

theorem exists_root {l : List α} (h : T.Branch l) : ∃ r, T.Root r := by
  induction h with
  | root h => exact ⟨_, h⟩
  | grow _ _ ih => exact ih

/-- Two branches with a common node agree from there on. -/
theorem suffix_eq {x : α} {p p' s s' : List α} (h : T.Branch (p ++ x :: s))
    (h' : T.Branch (p' ++ x :: s')) : s = s' :=
  unique h.suffix h'.suffix

end Branch

/-- A larger tree has more branches. -/
theorem Branch.mono {T' : LinkTree α} (hroot : ∀ {a}, T.Root a → T'.Root a)
    (hparent : ∀ {a p}, T.Parent a p → T'.Parent a p) {l : List α} (h : T.Branch l) :
    T'.Branch l := by
  induction h with
  | root h => exact .root (hroot h)
  | grow hp _ ih => exact .grow (hparent hp) ih

end LinkTree
