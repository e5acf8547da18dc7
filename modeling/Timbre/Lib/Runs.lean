/-
  Runs of a machine whose steps may fail, and what holds at every step of a run.
-/
import Mathlib.Logic.Basic

namespace Runs

variable {σ α ε : Type} {run : α → σ → Except ε σ} {P Q : α → σ → Except ε σ → Prop} {I : σ → Prop}

/-- Every step of the run `xs` from `s` meets `P`, which sees the step, the state before it and how
    it ends. -/
def Always (run : α → σ → Except ε σ) (P : α → σ → Except ε σ → Prop) : List α → σ → Prop
  | [], _ => True
  | x :: xs, s => P x s (run x s) ∧ ∀ s', run x s = .ok s' → Always run P xs s'

/-- **Two conditions on the steps are the same on runs** if they are on every step from a state with
    the invariant `I`, and a step that meets the first one keeps `I`. -/
theorem always_iff (hstep : ∀ x s, I s → (P x s (run x s) ↔ Q x s (run x s)))
    (hkeep : ∀ x s s', I s → run x s = .ok s' → P x s (.ok s') → I s') (xs : List α) {s : σ} (hs : I s) :
    Always run P xs s ↔ Always run Q xs s := by
  induction xs generalizing s with
  | nil => exact Iff.rfl
  | cons x xs ih =>
    constructor
    · rintro ⟨hx, hxs⟩
      refine ⟨(hstep x s hs).1 hx, fun s' hs' => ?_⟩
      rw [hs'] at hx
      exact (ih (hkeep x s s' hs hs' hx)).1 (hxs s' hs')
    · rintro ⟨hx, hxs⟩
      have hP := (hstep x s hs).2 hx
      refine ⟨hP, fun s' hs' => ?_⟩
      rw [hs'] at hP
      exact (ih (hkeep x s s' hs hs' hP)).2 (hxs s' hs')

/-- Two conditions that every step of a run meets. -/
theorem always_and (xs : List α) (s : σ) :
    Always run (fun x s res => P x s res ∧ Q x s res) xs s ↔ Always run P xs s ∧ Always run Q xs s := by
  induction xs generalizing s with
  | nil => simp [Always]
  | cons x xs ih =>
    simp only [Always, ih]
    constructor
    · rintro ⟨⟨hP, hQ⟩, hrest⟩
      exact ⟨⟨hP, fun s' hs' => (hrest s' hs').1⟩, hQ, fun s' hs' => (hrest s' hs').2⟩
    · rintro ⟨⟨hP, hrestP⟩, hQ, hrestQ⟩
      exact ⟨⟨hP, hQ⟩, fun s' hs' => ⟨hrestP s' hs', hrestQ s' hs'⟩⟩

end Runs
