/-
  Calls on related states.

  Two calls match along a relation of their states if, made in related states, they end with the
  same value or the same error and leave related states.
-/
import Timbre.Lib.Call

namespace Call

variable {σ τ ε ε' α β : Type} {T : σ → τ → Prop} {c : Call σ ε α} {c' : Call τ ε α}
  {f : α → Call σ ε β} {f' : α → Call τ ε β}

/-- Made in related states, the calls end alike and leave related states. -/
def Matches (T : σ → τ → Prop) (c : Call σ ε α) (c' : Call τ ε α) : Prop :=
  ∀ s t, T s t → (c' t).1 = (c s).1 ∧ T (c s).2 (c' t).2

theorem matches_pure (a : α) : Matches T (pure a : Call σ ε α) (pure a) := fun _ _ ht => ⟨rfl, ht⟩

theorem matches_throw (e : ε) : Matches T (throw e : Call σ ε α) (throw e) := fun _ _ ht => ⟨rfl, ht⟩

theorem matches_modify {g : σ → σ} {g' : τ → τ} (h : ∀ s t, T s t → T (g s) (g' t)) :
    Matches T (modify g : Call σ ε Unit) (modify g') := fun s t ht => ⟨rfl, h s t ht⟩

theorem Matches.bind (h : Matches T c c') (hf : ∀ a, Matches T (f a) (f' a)) :
    Matches T (c >>= f) (c' >>= f') := by
  intro s t ht
  obtain ⟨hval, hstate⟩ := h s t ht
  rcases hc : c s with ⟨e | a, s₁⟩ <;> rcases hc' : c' t with ⟨e' | a', t₁⟩ <;>
    rw [hc, hc'] at hval hstate <;> cases hval
  · rw [bind_of_error hc, bind_of_error hc']
    exact ⟨rfl, hstate⟩
  · rw [bind_of_ok hc, bind_of_ok hc']
    exact hf a s₁ t₁ hstate

/-- What follows a look at the state may depend on it. -/
theorem matches_get {f : σ → Call σ ε β} {f' : τ → Call τ ε β}
    (h : ∀ s t, T s t → Matches T (f s) (f' t)) : Matches T (get >>= f) (get >>= f') :=
  fun s t ht => h s t ht s t ht

theorem Matches.ite {p : Prop} [Decidable p] {d : Call σ ε α} {d' : Call τ ε α} (h : Matches T c c')
    (h' : Matches T d d') : Matches T (if p then c else d) (if p then c' else d') := by
  split_ifs
  · exact h
  · exact h'

/-- A condition that is checked before the rest of a call. -/
theorem Matches.guard {p : Prop} [Decidable p] {k : Unit → Call σ ε α} {k' : Unit → Call τ ε α} (e : ε)
    (h : ∀ x, Matches T (k x) (k' x)) :
    Matches T (if p then throw e >>= k else k ()) (if p then throw e >>= k' else k' ()) :=
  .ite ((matches_throw e).bind h) (h ())

theorem Matches.tryCatch {h : ε → Call σ ε α} {h' : ε → Call τ ε α} (hc : Matches T c c')
    (hh : ∀ e, Matches T (h e) (h' e)) : Matches T (tryCatch c h) (tryCatch c' h') := by
  intro s t ht
  obtain ⟨hval, hstate⟩ := hc s t ht
  rcases hs : c s with ⟨e | a, s₁⟩ <;> rcases hs' : c' t with ⟨e' | a', t₁⟩ <;>
    rw [hs, hs'] at hval hstate <;> cases hval
  · rw [tryCatch_of_error hs, tryCatch_of_error hs']
    exact hh e s₁ t₁ hstate
  · rw [tryCatch_of_ok hs, tryCatch_of_ok hs']
    exact ⟨rfl, hstate⟩

theorem Matches.mapErr (g : ε → ε') (h : Matches T c c') : Matches T (Call.mapErr g c) (Call.mapErr g c') := by
  intro s t ht
  obtain ⟨hval, hstate⟩ := h s t ht
  unfold Call.mapErr
  rcases hs : c s with ⟨e | a, s₁⟩ <;> rcases hs' : c' t with ⟨e' | a', t₁⟩ <;>
    rw [hs, hs'] at hval hstate <;> cases hval <;> exact ⟨rfl, hstate⟩

section
variable {g : β → Call σ ε Unit} {g' : β → Call τ ε Unit}

theorem Matches.forEachFrom (h : ∀ x, Matches T (g x) (g' x)) :
    ∀ (xs : List β) (i : ℕ), Matches T (Call.forEachFrom g i xs) (Call.forEachFrom g' i xs)
  | [], _ => matches_pure ()
  | x :: xs, i => ((h x).mapErr _).bind fun _ => Matches.forEachFrom h xs (i + 1)

theorem Matches.forEach (h : ∀ x, Matches T (g x) (g' x)) (xs : List β) :
    Matches T (Call.forEach g xs) (Call.forEach g' xs) := Matches.forEachFrom h xs 0

theorem Matches.each (h : ∀ x, Matches T (g x) (g' x)) (xs : List β) :
    Matches T (Call.each g xs) (Call.each g' xs) := (Matches.forEach h xs).mapErr _

end

end Call
