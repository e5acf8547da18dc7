/-
  Pseudo-random numbers, shuffles, and draws that are repeated until they are fresh.
-/
import Mathlib.Data.List.Basic
import Mathlib.Logic.Function.Iterate

/-- A generator with states `σ`: a number below a positive bound, and the state after it. -/
structure Generator (σ : Type) where
  below : ℕ → σ → ℕ × σ
  below_lt : ∀ {n}, 0 < n → ∀ s, (below n s).1 < n

namespace Generator

variable {σ α : Type} (G : Generator σ)

/-! ## Shuffles -/

/-- Swaps the entries from number `i` down with one at or below them. -/
def shuffleFrom : ℕ → Array α → σ → Array α × σ
  | 0, xs, s => (xs, s)
  | i + 1, xs, s =>
    let j := G.below (i + 2) s
    shuffleFrom i (xs.swapIfInBounds (i + 1) j.1) j.2

def shuffle (xs : Array α) (s : σ) : Array α × σ := G.shuffleFrom (xs.size - 1) xs s

theorem swapIfInBounds_perm (xs : Array α) (i j : ℕ) : (xs.swapIfInBounds i j).Perm xs := by
  rw [Array.swapIfInBounds_def]
  split_ifs
  · exact Array.swap_perm _ _
  · exact .refl _
  · exact .refl _

/-- **A shuffle moves the entries, and no more.** -/
theorem shuffleFrom_perm : ∀ (i : ℕ) (xs : Array α) (s : σ), (G.shuffleFrom i xs s).1.Perm xs
  | 0, xs, _ => .refl xs
  | i + 1, xs, _ => (shuffleFrom_perm i _ _).trans (swapIfInBounds_perm xs _ _)

theorem shuffle_perm (xs : Array α) (s : σ) : (G.shuffle xs s).1.Perm xs := G.shuffleFrom_perm _ xs s

/-! ## Fresh draws -/

variable [DecidableEq α]

/-- Draws an entry of `xs` until one has not been `issued`. -/
def draw (xs issued : List α) : (fuel : ℕ) → σ → Option (α × σ)
  | 0, _ => none
  | fuel + 1, s =>
    let r := G.below xs.length s
    match xs[r.1]? with
    | none => none
    | some x => if x ∈ issued then draw xs issued fuel r.2 else some (x, r.2)

variable {G} {xs issued : List α} {x : α} {s s' : σ} {fuel : ℕ}

theorem draw_spec : ∀ {fuel : ℕ} {s : σ}, G.draw xs issued fuel s = some (x, s') → x ∈ xs ∧ x ∉ issued
  | fuel + 1, s, h => by
    rw [draw] at h
    cases hget : xs[(G.below xs.length s).1]? with
    | none =>
      rw [hget] at h
      cases h
    | some y =>
      rw [hget] at h
      dsimp only at h
      split_ifs at h with hy
      · exact draw_spec h
      · obtain ⟨rfl, -⟩ := Prod.mk.inj (Option.some.inj h)
        exact ⟨List.mem_of_getElem? hget, hy⟩

/-- More fuel changes nothing. -/
theorem draw_mono {more : ℕ} (hle : fuel ≤ more) (h : G.draw xs issued fuel s = some (x, s')) :
    G.draw xs issued more s = some (x, s') := by
  induction fuel generalizing more s with
  | zero => cases h
  | succ fuel ih =>
    obtain ⟨more, rfl⟩ := Nat.exists_eq_add_of_le' (Nat.one_le_of_lt hle)
    rw [draw] at h ⊢
    cases hget : xs[(G.below xs.length s).1]? with
    | none =>
      rw [hget] at h
      cases h
    | some y =>
      rw [hget] at h
      dsimp only at h ⊢
      split_ifs at h ⊢ with hy
      · exact ih (Nat.le_of_succ_le_succ hle) h
      · exact h

/-- Every number below a bound comes up, sooner or later, from every state. -/
def Fair (G : Generator σ) : Prop :=
  ∀ n s i, i < n → ∃ m, (G.below n ((fun s => (G.below n s).2)^[m] s)).1 = i

/-- **A fair generator comes to an entry that has not been issued.** -/
theorem Fair.exists_draw (hfair : G.Fair) (hx : x ∈ xs) (hfresh : x ∉ issued) (s : σ) :
    ∃ fuel y s', G.draw xs issued fuel s = some (y, s') := by
  obtain ⟨i, hi, rfl⟩ := List.getElem_of_mem hx
  obtain ⟨m, hm⟩ := hfair xs.length s i hi
  suffices hdraw : ∀ (m : ℕ) (s : σ), (G.below xs.length ((fun s => (G.below xs.length s).2)^[m] s)).1 = i →
      ∃ y s', G.draw xs issued (m + 1) s = some (y, s') from ⟨m + 1, hdraw m s hm⟩
  clear hm
  intro m
  induction m with
  | zero =>
    intro s hs
    rw [Function.iterate_zero, id] at hs
    refine ⟨xs[i], (G.below xs.length s).2, ?_⟩
    rw [draw, hs, List.getElem?_eq_getElem hi]
    exact if_neg hfresh
  | succ m ih =>
    intro s hs
    rw [Function.iterate_succ_apply] at hs
    have hlt := G.below_lt (Nat.lt_of_le_of_lt (Nat.zero_le i) hi) s
    by_cases hissued : xs[(G.below xs.length s).1] ∈ issued
    · obtain ⟨y, s', hrest⟩ := ih _ hs
      refine ⟨y, s', ?_⟩
      rw [draw, List.getElem?_eq_getElem hlt]
      exact (if_pos hissued).trans hrest
    · refine ⟨xs[(G.below xs.length s).1], (G.below xs.length s).2, ?_⟩
      rw [draw, List.getElem?_eq_getElem hlt]
      exact if_neg hissued

/-! ## Counting -/

/-- The generator that counts. -/
def counter : Generator ℕ where
  below n s := (s % n, s + 1)
  below_lt hn s := Nat.mod_lt s hn

theorem fair_counter : counter.Fair := by
  intro n s i hi
  have hiter : ∀ m, (fun s => (counter.below n s).2)^[m] s = s + m := fun m => by
    induction m with
    | zero => rfl
    | succ m ih =>
      rw [Function.iterate_succ_apply', ih]
      rfl
  refine ⟨n * (s + 1) - s + i, ?_⟩
  rw [hiter]
  have hle : s ≤ n * (s + 1) := Nat.le_trans (Nat.le_succ s) (Nat.le_mul_of_pos_left _ (Nat.zero_lt_of_lt hi))
  have hsum : s + (n * (s + 1) - s + i) = i + n * (s + 1) := by omega
  show (s + (n * (s + 1) - s + i)) % n = i
  rw [hsum, Nat.add_mul_mod_self_left, Nat.mod_eq_of_lt hi]

end Generator
