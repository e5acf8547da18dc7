/-
  Calls that keep the state they have reached when they go wrong, and their rules.

  A call runs on a state, and returns a value or an error; the changes made before an error
  are not taken back.  `Spec c s Q R` says of the call `c` made in state `s` that `Q` holds
  if it returns and `R` if it goes wrong; the lemmas tagged `simp` compute it along a
  `do` block.
-/
import Mathlib.Data.List.Basic
import Mathlib.Data.List.TakeWhile
import Mathlib.Order.Defs.Unbundled

/-- A call on states `σ` with errors `ε`. -/
def Call (σ ε α : Type) : Type := σ → Except ε α × σ

namespace Call

variable {σ ε ε' α β : Type}

instance : Monad (Call σ ε) where
  pure a := fun s => (.ok a, s)
  bind c f := fun s =>
    match c s with
    | (.ok a, s') => f a s'
    | (.error e, s') => (.error e, s')

instance : MonadStateOf σ (Call σ ε) where
  get := fun s => (.ok s, s)
  set s' := fun _ => (.ok (), s')
  modifyGet f := fun s => (.ok (f s).1, (f s).2)

instance : MonadExceptOf ε (Call σ ε) where
  throw e := fun s => (.error e, s)
  tryCatch c h := fun s =>
    match c s with
    | (.ok a, s') => (.ok a, s')
    | (.error e, s') => h e s'

/-- Renames the errors of a call. -/
def mapErr (g : ε → ε') (c : Call σ ε α) : Call σ ε' α := fun s =>
  match c s with
  | (.ok a, s') => (.ok a, s')
  | (.error e, s') => (.error (g e), s')

/-- Runs `f` on the elements of a list one after the other, up to the first error; `i` is
    the position of the first element, and the error comes with the position at which it
    occurred. -/
def forEachFrom (f : α → Call σ ε Unit) : ℕ → List α → Call σ (ℕ × ε) Unit
  | _, [] => pure ()
  | i, x :: xs => do
    mapErr (fun e => (i, e)) (f x)
    forEachFrom f (i + 1) xs

/-- `for i, x := range xs { … return i, err … }`. -/
def forEach (f : α → Call σ ε Unit) (xs : List α) : Call σ (ℕ × ε) Unit := forEachFrom f 0 xs

/-- `for _, x := range xs { … return err … }`. -/
def each (f : α → Call σ ε Unit) (xs : List α) : Call σ ε Unit := mapErr Prod.snd (forEach f xs)

/-! ## Specifications -/

/-- The call `c`, made in state `s`, satisfies `Q` if it returns and `R` if it goes wrong. -/
def Spec (c : Call σ ε α) (s : σ) (Q : α → σ → Prop) (R : ε → σ → Prop) : Prop :=
  match c s with
  | (.ok a, s') => Q a s'
  | (.error e, s') => R e s'

variable {c : Call σ ε α} {f : α → Call σ ε β} {s s' : σ} {Q Q' : α → σ → Prop}
  {R R' : ε → σ → Prop} {a : α} {e : ε}

theorem Spec.ok (h : Spec c s Q R) (hc : c s = (.ok a, s')) : Q a s' := by
  simpa only [Spec, hc] using h

theorem Spec.error (h : Spec c s Q R) (hc : c s = (.error e, s')) : R e s' := by
  simpa only [Spec, hc] using h

theorem Spec.intro (hok : ∀ a s', c s = (.ok a, s') → Q a s')
    (herr : ∀ e s', c s = (.error e, s') → R e s') : Spec c s Q R := by
  unfold Spec
  split
  · exact hok _ _ ‹_›
  · exact herr _ _ ‹_›

theorem Spec.mono (h : Spec c s Q R) (hQ : ∀ a s', Q a s' → Q' a s')
    (hR : ∀ e s', R e s' → R' e s') : Spec c s Q' R' :=
  .intro (fun a s' hc => hQ a s' (h.ok hc)) fun e s' hc => hR e s' (h.error hc)

theorem Spec.and (h : Spec c s Q R) (h' : Spec c s Q' R') :
    Spec c s (fun a s' => Q a s' ∧ Q' a s') (fun e s' => R e s' ∧ R' e s') :=
  .intro (fun _ _ hc => ⟨h.ok hc, h'.ok hc⟩) fun _ _ hc => ⟨h.error hc, h'.error hc⟩

/-- The sequencing rule, with the specification of the first call given. -/
theorem Spec.bind {Q : β → σ → Prop} (h : Spec c s Q' R')
    (hok : ∀ a s', Q' a s' → Spec (f a) s' Q R) (herr : ∀ e s', R' e s' → R e s') :
    Spec (c >>= f) s Q R := by
  unfold Spec at h ⊢
  change match (match c s with | (.ok a, s') => f a s' | (.error e, s') => (.error e, s')) with
    | (.ok a, s') => Q a s' | (.error e, s') => R e s'
  split at h
  · exact hok _ _ h
  · exact herr _ _ h

@[simp]
theorem spec_pure : Spec (pure a : Call σ ε α) s Q R ↔ Q a s := Iff.rfl

@[simp]
theorem spec_throw : Spec (throw e : Call σ ε α) s Q R ↔ R e s := Iff.rfl

@[simp]
theorem spec_bind {Q : β → σ → Prop} :
    Spec (c >>= f) s Q R ↔ Spec c s (fun a s' => Spec (f a) s' Q R) R := by
  change (match (match c s with | (.ok a, s') => f a s' | (.error e, s') => (.error e, s')) with
    | (.ok a, s') => Q a s' | (.error e, s') => R e s') ↔ _
  unfold Spec
  cases c s with
  | mk r s' => cases r <;> rfl

@[simp]
theorem spec_get {Q : σ → σ → Prop} : Spec (get : Call σ ε σ) s Q R ↔ Q s s := Iff.rfl

@[simp]
theorem spec_modify {g : σ → σ} {Q : PUnit → σ → Prop} :
    Spec (modify g : Call σ ε PUnit) s Q R ↔ Q ⟨⟩ (g s) := Iff.rfl

@[simp]
theorem spec_ite {p : Prop} [Decidable p] {c d : Call σ ε α} :
    Spec (if p then c else d) s Q R ↔ if p then Spec c s Q R else Spec d s Q R := by
  split <;> rfl

@[simp]
theorem spec_mapErr {g : ε → ε'} {R : ε' → σ → Prop} :
    Spec (mapErr g c) s Q R ↔ Spec c s Q fun e => R (g e) := by
  unfold Spec mapErr
  cases c s with
  | mk r s' => cases r <;> rfl

@[simp]
theorem spec_tryCatch {h : ε → Call σ ε α} :
    Spec (tryCatch c h) s Q R ↔ Spec c s Q fun e s' => Spec (h e) s' Q R := by
  change (match (match c s with
    | (.ok a, s') => ((.ok a, s') : Except ε α × σ) | (.error e, s') => h e s') with
    | (.ok a, s') => Q a s' | (.error e, s') => R e s') ↔ _
  unfold Spec
  cases c s with
  | mk r s' => cases r <;> rfl

theorem ite_intro {p P P' : Prop} [Decidable p] (h : p → P) (h' : ¬ p → P') : if p then P else P' := by
  split
  · exact h ‹_›
  · exact h' ‹_›

theorem bind_ok {b : β} (h : (c >>= f) s = (.ok b, s')) :
    ∃ a s₁, c s = (.ok a, s₁) ∧ f a s₁ = (.ok b, s') := by
  change (match c s with | (.ok a, s') => f a s' | (.error e, s') => (.error e, s')) = _ at h
  split at h
  · exact ⟨_, _, ‹_›, h⟩
  · cases h

/-- A call of which the result is known. -/
theorem ok_of_fst {a : α} (h : (c s).1 = .ok a) : c s = (.ok a, (c s).2) := Prod.ext h rfl

theorem Spec.self (c : Call σ ε α) (s : σ) :
    Spec c s (fun a s' => c s = (.ok a, s')) fun e s' => c s = (.error e, s') :=
  .intro (fun _ _ h => h) fun _ _ h => h

/-! ## Loops -/

/-- The states that a loop passes through when each element does what `Step` says. -/
inductive Steps (Step : α → σ → σ → Prop) : List α → σ → σ → Prop
  | nil (s : σ) : Steps Step [] s s
  | cons {x : α} {xs : List α} {s s₁ s' : σ} :
      Step x s s₁ → Steps Step xs s₁ s' → Steps Step (x :: xs) s s'

variable {Step Step' : α → σ → σ → Prop} {Fail : α → ε → σ → σ → Prop} {g : α → Call σ ε Unit}
  {xs ys : List α} {x : α}

theorem Steps.append {s₁ : σ} (h : Steps Step xs s s₁) (h' : Steps Step ys s₁ s') :
    Steps Step (xs ++ ys) s s' := by
  induction h with
  | nil => exact h'
  | cons hx _ ih => exact .cons hx (ih h')

theorem Steps.single (h : Step x s s') : Steps Step [x] s s' := .cons h (.nil _)

theorem Steps.append_inv (h : Steps Step (xs ++ ys) s s') :
    ∃ s₁, Steps Step xs s s₁ ∧ Steps Step ys s₁ s' := by
  induction xs generalizing s with
  | nil => exact ⟨s, .nil s, h⟩
  | cons x xs ih =>
    cases h with
    | cons hx h =>
      obtain ⟨s₁, h₁, h₂⟩ := ih h
      exact ⟨s₁, .cons hx h₁, h₂⟩

theorem Steps.mono (h : Steps Step xs s s') (hstep : ∀ x ∈ xs, ∀ s s', Step x s s' → Step' x s s') :
    Steps Step' xs s s' := by
  induction h with
  | nil => exact .nil _
  | cons hx _ ih =>
    refine .cons (hstep _ (by simp) _ _ hx) (ih fun y hy => hstep y (by simp [hy]))

/-- Under an invariant, every element may do more than `Step` says. -/
theorem Steps.strengthen {I : σ → Prop} (h : Steps Step xs s s') (hs : I s)
    (hstep : ∀ x ∈ xs, ∀ s s', I s → Step x s s' → I s' ∧ Step' x s s') : Steps Step' xs s s' := by
  induction h with
  | nil => exact .nil _
  | cons hx _ ih =>
    obtain ⟨hI, hx'⟩ := hstep _ (by simp) _ _ hs hx
    exact .cons hx' (ih hI fun y hy => hstep y (by simp [hy]))

/-- What a loop does to a part of the state. -/
theorem Steps.image {τ : Type} {F : σ → τ} {StepF : α → τ → τ → Prop}
    (h : Steps (fun x s s' => StepF x (F s) (F s')) xs s s') : Steps StepF xs (F s) (F s') := by
  induction h with
  | nil => exact .nil _
  | cons hx _ ih => exact .cons hx ih

/-- A loop whose rounds are loops. -/
theorem Steps.flatMap {F : β → List α} {ys : List β} (h : Steps (fun y => Steps Step (F y)) ys s s') :
    Steps Step (ys.flatMap F) s s' := by
  induction h with
  | nil => exact .nil _
  | cons hy _ ih =>
    rw [List.flatMap_cons]
    exact hy.append ih

theorem Steps.map {F : β → α} {ys : List β} (h : Steps (fun y => Step (F y)) ys s s') :
    Steps Step (ys.map F) s s' := by
  induction h with
  | nil => exact .nil _
  | cons hy _ ih => exact .cons hy ih

/-- What every element says, whatever the state, holds of all elements. -/
theorem Steps.forall {P : α → Prop} (h : Steps (fun x _ _ => P x) xs s s') : ∀ x ∈ xs, P x := by
  induction h with
  | nil => simp
  | cons hx _ ih => simpa using ⟨hx, ih⟩

/-- What every element preserves, the loop preserves. -/
theorem Steps.invariant {I : σ → Prop} (h : Steps Step xs s s') (hs : I s)
    (hstep : ∀ x ∈ xs, ∀ s s', I s → Step x s s' → I s') : I s' := by
  induction h with
  | nil => exact hs
  | cons hx _ ih =>
    exact ih (hstep _ (by simp) _ _ hs hx) fun y hy => hstep y (by simp [hy])

theorem forEachFrom_ok : ∀ (xs : List α) (i : ℕ) (s : σ), forEachFrom g i xs s = (.ok (), s') →
    Steps (fun x s s' => g x s = (.ok (), s')) xs s s'
  | [], _, _, h => by
    cases h
    exact .nil _
  | x :: xs, i, s, h => by
    obtain ⟨_, s₁, hx, hxs⟩ := bind_ok h
    unfold mapErr at hx
    split at hx
    · cases hx
      exact .cons ‹_› (forEachFrom_ok xs _ _ hxs)
    · cases hx

/-- The rounds of a loop that returns. -/
theorem forEach_ok (h : forEach g xs s = (.ok (), s')) :
    Steps (fun x s s' => g x s = (.ok (), s')) xs s s' := forEachFrom_ok xs 0 s h

theorem each_ok (h : each g xs s = (.ok (), s')) :
    Steps (fun x s s' => g x s = (.ok (), s')) xs s s' := by
  unfold each mapErr at h
  split at h
  · cases h
    exact forEach_ok ‹_›
  · cases h

variable {I : σ → Prop}

theorem forEachFrom_spec :
    ∀ (xs : List α) (_ : ∀ x ∈ xs, ∀ s, I s →
        Spec (g x) s (fun _ s' => I s' ∧ Step x s s') fun e s' => Fail x e s s') (i : ℕ) (s : σ),
      I s → Spec (forEachFrom g i xs) s (fun _ s' => I s' ∧ Steps Step xs s s')
        fun ie s' => ∃ pre x post s₁, xs = pre ++ x :: post ∧ ie.1 = i + pre.length ∧
          Steps Step pre s s₁ ∧ I s₁ ∧ Fail x ie.2 s₁ s'
  | [], _, _, s, hs => ⟨hs, .nil s⟩
  | x :: xs, hg, i, s, hs => by
    rw [forEachFrom, spec_bind, spec_mapErr]
    refine (hg x (by simp) s hs).mono (fun _ s₁ hx => ?_)
      fun e s' he => ⟨[], x, xs, s, rfl, rfl, .nil s, hs, he⟩
    refine (forEachFrom_spec xs (fun y hy => hg y (by simp [hy])) (i + 1) s₁ hx.1).mono
      (fun _ _ h => ⟨h.1, .cons hx.2 h.2⟩) ?_
    rintro ie s' ⟨pre, y, post, s₂, rfl, hi, hpre, hs₂, hy⟩
    refine ⟨x :: pre, y, post, s₂, rfl, ?_, .cons hx.2 hpre, hs₂, hy⟩
    rw [hi, List.length_cons]
    omega

/-- A loop whose rounds keep the invariant `I` either goes through all elements, or stops at
    one after having gone through those before it. -/
theorem forEach_spec (hg : ∀ x ∈ xs, ∀ s, I s →
      Spec (g x) s (fun _ s' => I s' ∧ Step x s s') fun e s' => Fail x e s s')
    (hs : I s) : Spec (forEach g xs) s (fun _ s' => I s' ∧ Steps Step xs s s')
      fun ie s' => ∃ pre x post s₁, xs = pre ++ x :: post ∧ ie.1 = pre.length ∧
        Steps Step pre s s₁ ∧ I s₁ ∧ Fail x ie.2 s₁ s' := by
  refine (forEachFrom_spec xs hg 0 s hs).mono (fun _ _ h => h) ?_
  rintro ie s' ⟨pre, x, post, s₁, hxs, hi, h⟩
  exact ⟨pre, x, post, s₁, hxs, by rw [hi, Nat.zero_add], h⟩

theorem each_spec (hg : ∀ x ∈ xs, ∀ s, I s →
      Spec (g x) s (fun _ s' => I s' ∧ Step x s s') fun e s' => Fail x e s s')
    (hs : I s) : Spec (each g xs) s (fun _ s' => I s' ∧ Steps Step xs s s')
      fun e s' => ∃ pre x post s₁, xs = pre ++ x :: post ∧ Steps Step pre s s₁ ∧ I s₁ ∧
        Fail x e s₁ s' := by
  rw [each, spec_mapErr]
  refine (forEach_spec hg hs).mono (fun _ _ h => h) ?_
  rintro ie s' ⟨pre, x, post, s₁, hxs, -, h⟩
  exact ⟨pre, x, post, s₁, hxs, h⟩

theorem spec_forEachFrom_index {R : ε → σ → Prop} {Q : Unit → σ → Prop} :
    ∀ (xs : List α) (i j : ℕ) (s : σ), Spec (forEachFrom g i xs) s Q (fun ie => R ie.2) ↔
      Spec (forEachFrom g j xs) s Q fun ie => R ie.2
  | [], _, _, _ => Iff.rfl
  | x :: xs, i, j, s => by
    simp only [forEachFrom, spec_bind, spec_mapErr]
    constructor
    · intro h
      exact h.mono (fun _ s₁ h => (spec_forEachFrom_index xs (i + 1) (j + 1) s₁).1 h) fun _ _ h => h
    · intro h
      exact h.mono (fun _ s₁ h => (spec_forEachFrom_index xs (i + 1) (j + 1) s₁).2 h) fun _ _ h => h

@[simp]
theorem spec_each_nil {Q : Unit → σ → Prop} : Spec (each g []) s Q R ↔ Q () s := Iff.rfl

@[simp]
theorem spec_each_cons {Q : Unit → σ → Prop} :
    Spec (each g (x :: xs)) s Q R ↔ Spec (g x) s (fun _ s' => Spec (each g xs) s' Q R) R := by
  simp only [each, forEach, spec_mapErr, forEachFrom, spec_bind]
  constructor
  · intro h
    exact h.mono (fun _ s₁ h => (spec_forEachFrom_index xs 1 0 s₁).1 h) fun _ _ h => h
  · intro h
    exact h.mono (fun _ s₁ h => (spec_forEachFrom_index xs 1 0 s₁).2 h) fun _ _ h => h

theorem spec_each_append {Q : Unit → σ → Prop} : ∀ (xs ys : List α) (s : σ),
    Spec (each g (xs ++ ys)) s Q R ↔ Spec (each g xs) s (fun _ s' => Spec (each g ys) s' Q R) R
  | [], _, _ => Iff.rfl
  | x :: xs, ys, s => by
    rw [List.cons_append, spec_each_cons, spec_each_cons]
    constructor <;> intro h
    · exact h.mono (fun _ s₁ h => (spec_each_append xs ys s₁).1 h) fun _ _ h => h
    · exact h.mono (fun _ s₁ h => (spec_each_append xs ys s₁).2 h) fun _ _ h => h

/-! ## Loops that stop at an element -/

section
variable {I : σ → Prop} {p : α → Prop} [DecidablePred p] {F : ε → Prop} {d : Call σ ε Unit}

/-- Under the invariant `I`, the call does `Step` for the elements of a list up to the first one
    without `p`, where it goes wrong with an error in `F`. -/
def Performs (I : σ → Prop) (Step : α → σ → σ → Prop) (p : α → Prop) [DecidablePred p] (F : ε → Prop)
    (xs : List α) (c : Call σ ε Unit) : Prop :=
  ∀ s, I s → Spec c s (fun _ s' => I s' ∧ (∀ x ∈ xs, p x) ∧ Steps Step xs s s')
    fun e s' => F e ∧ I s' ∧ (¬ ∀ x ∈ xs, p x) ∧ Steps Step (xs.takeWhile (p ·)) s s'

theorem Performs.single {c : Call σ ε Unit} (h : ∀ s, I s → Spec c s
    (fun _ s' => I s' ∧ p x ∧ Step x s s') fun e s' => F e ∧ s' = s ∧ ¬ p x) :
    Performs I Step p F [x] c := by
  intro s hs
  refine (h s hs).mono (fun _ s' h => ⟨h.1, by simpa using h.2.1, .single h.2.2⟩) ?_
  rintro e _ ⟨he, rfl, hx⟩
  refine ⟨he, hs, by simpa using hx, ?_⟩
  rw [List.takeWhile_cons_of_neg (by simpa using hx)]
  exact .nil _

theorem Performs.bind {c : Call σ ε Unit} (h : Performs I Step p F xs c) (h' : Performs I Step p F ys d) :
    Performs I Step p F (xs ++ ys) (c >>= fun _ => d) := by
  intro s hs
  refine (h s hs).bind ?_ ?_
  · rintro _ s₁ ⟨hs₁, hxs, hsteps⟩
    have hall : (∀ x ∈ xs ++ ys, p x) ↔ ∀ y ∈ ys, p y := by
      simp only [List.mem_append, or_imp, forall_and]
      exact and_iff_right hxs
    refine (h' s₁ hs₁).mono (fun _ s' h => ⟨h.1, hall.2 h.2.1, hsteps.append h.2.2⟩) ?_
    rintro e s' ⟨he, hs', hys, hsteps'⟩
    refine ⟨he, hs', fun h => hys (hall.1 h), ?_⟩
    rw [List.takeWhile_append_of_pos (by simpa using hxs)]
    exact hsteps.append hsteps'
  · rintro e s' ⟨he, hs', hxs, hsteps⟩
    refine ⟨he, hs', fun h => hxs fun x hx => h x (List.mem_append_left _ hx), ?_⟩
    rwa [List.takeWhile_append, if_neg]
    intro hlen
    refine hxs fun x hx => ?_
    have htake : xs.takeWhile (p ·) = xs :=
      (List.takeWhile_prefix (p ·)).eq_of_length hlen
    simpa using List.takeWhile_eq_self_iff.1 htake x hx

theorem Performs.each {F' : β → List α} {g : β → Call σ ε Unit} : ∀ {ys : List β},
    (∀ y ∈ ys, Performs I Step p F (F' y) (g y)) → Performs I Step p F (ys.flatMap F') (each g ys)
  | [], _ => fun s hs => ⟨hs, by simp, .nil s⟩
  | y :: ys, h => by
    intro s hs
    rw [spec_each_cons, List.flatMap_cons]
    exact spec_bind.1 ((h y (by simp)).bind (Performs.each fun z hz => h z (by simp [hz])) s hs)

end

/-! ## Checks -/

/-- The call returns exactly if `P` holds, and leaves the state as it is. -/
def Decides (c : Call σ ε Unit) (P : σ → Prop) : Prop :=
  ∀ s, Spec c s (fun _ s' => s' = s ∧ P s) fun _ s' => s' = s ∧ ¬ P s

variable {d : Call σ ε Unit} {P P' : σ → Prop}

theorem decides_pure : Decides (pure () : Call σ ε Unit) fun _ => True := fun _ => ⟨rfl, trivial⟩

theorem decides_throw (e : ε) : Decides (throw e : Call σ ε Unit) fun _ => False :=
  fun _ => ⟨rfl, id⟩

theorem Decides.congr (h : Decides d P) (hP : ∀ s, P s ↔ P' s) : Decides d P' := fun s =>
  (h s).mono (fun _ _ h => ⟨h.1, (hP s).1 h.2⟩) fun _ _ h => ⟨h.1, fun h' => h.2 ((hP s).2 h')⟩

/-- `if p { return e }` before a check. -/
theorem Decides.guard (h : Decides d P) (p : Prop) [Decidable p] (e : ε) :
    Decides (if p then throw e else d) fun s => ¬ p ∧ P s := by
  split
  · exact (decides_throw e).congr fun s => by simp [*]
  · exact h.congr fun s => by simp [*]

theorem Decides.require (h : Decides d P) (p : Prop) [Decidable p] (e : ε) :
    Decides (if p then d else throw e) fun s => p ∧ P s := by
  split
  · exact h.congr fun s => by simp [*]
  · exact (decides_throw e).congr fun s => by simp [*]

theorem Decides.bind {d' : Call σ ε Unit} (h : Decides d P) (h' : Decides d' P') :
    Decides (d >>= fun _ => d') fun s => P s ∧ P' s := by
  intro s
  refine (h s).bind ?_ fun _ _ h => ⟨h.1, fun h' => h.2 h'.1⟩
  rintro _ _ ⟨rfl, hP⟩
  exact (h' _).mono (fun _ _ h => ⟨h.1, hP, h.2⟩) fun _ _ h => ⟨h.1, fun h' => h.2 h'.2⟩

/-- A check that reads the state. -/
theorem Decides.get {F : σ → Call σ ε Unit} {P : σ → σ → Prop} (h : ∀ s, Decides (F s) (P s)) :
    Decides (get >>= F) fun s => P s s := by
  intro s
  rw [spec_bind, spec_get]
  exact h s s

theorem Decides.each {P : α → σ → Prop} (h : ∀ x, Decides (g x) (P x)) :
    ∀ xs : List α, Decides (each g xs) fun s => ∀ x ∈ xs, P x s
  | [], s => ⟨rfl, by simp⟩
  | x :: xs, s => by
    rw [spec_each_cons]
    refine (h x s).mono ?_ fun _ _ h => ⟨h.1, fun h' => h.2 (h' x (by simp))⟩
    rintro _ _ ⟨rfl, hx⟩
    refine (Decides.each h xs _).mono (fun _ _ h => ⟨h.1, ?_⟩) fun _ _ h => ⟨h.1, fun h' => h.2 ?_⟩
    · simpa [hx] using h.2
    · exact fun y hy => h' y (by simp [hy])

/-! ## Calls that return -/

/-- The call returns. -/
def Returns (c : Call σ ε α) (s : σ) : Prop := ∃ a s', c s = (.ok a, s')

theorem Spec.returns (h : Spec c s Q fun _ _ => False) : Returns c s := by
  rcases hc : c s with ⟨e | a, s'⟩
  · exact (h.error hc).elim
  · exact ⟨a, s', hc⟩

theorem Spec.returns_of (h : Spec c s Q R) (hR : ∀ e s', ¬ R e s') : Returns c s :=
  (h.mono (fun _ _ hq => hq) hR).returns

theorem bind_of_ok {s₁ : σ} (h : c s = (.ok a, s₁)) : (c >>= f) s = f a s₁ := by
  change (match c s with | (.ok a, s') => f a s' | (.error e, s') => (.error e, s')) = _
  rw [h]

theorem bind_of_error {s₁ : σ} (h : c s = (.error e, s₁)) : (c >>= f) s = (.error e, s₁) := by
  change (match c s with | (.ok a, s') => f a s' | (.error e, s') => (.error e, s')) = _
  rw [h]

theorem get_bind (F : σ → Call σ ε β) (s : σ) : (get >>= F) s = F s s := rfl

theorem bind_bind {γ : Type} (c : Call σ ε α) (f : α → Call σ ε β) (g : β → Call σ ε γ) :
    c >>= f >>= g = c >>= fun a => f a >>= g := by
  funext s
  rcases hc : c s with ⟨e | a, s₁⟩
  · rw [bind_of_error hc, bind_of_error (bind_of_error hc)]
  · rw [bind_of_ok hc]
    show (match (c >>= f) s with | (.ok b, s') => g b s' | (.error e, s') => (.error e, s')) = _
    rw [bind_of_ok hc]
    rfl

theorem tryCatch_of_ok {h : ε → Call σ ε α} {s₁ : σ} (hc : c s = (.ok a, s₁)) : (tryCatch c h) s = (.ok a, s₁) := by
  change (match c s with | (.ok a, s') => (.ok a, s') | (.error e, s') => h e s' : Except ε α × σ) = _
  rw [hc]

theorem tryCatch_of_error {h : ε → Call σ ε α} {s₁ : σ} (hc : c s = (.error e, s₁)) : (tryCatch c h) s = h e s₁ := by
  change (match c s with | (.ok a, s') => (.ok a, s') | (.error e, s') => h e s' : Except ε α × σ) = _
  rw [hc]

/-- A call that goes wrong does so in its first part or in its second. -/
theorem bind_error_iff : (c >>= f) s = (.error e, s') ↔
    c s = (.error e, s') ∨ ∃ a s₁, c s = (.ok a, s₁) ∧ f a s₁ = (.error e, s') := by
  rcases hc : c s with ⟨e' | a, s₁⟩
  · rw [bind_of_error hc]
    simp
  · rw [bind_of_ok hc]
    simp

theorem returns_bind : Returns (c >>= f) s ↔ ∃ a s₁, c s = (.ok a, s₁) ∧ Returns (f a) s₁ := by
  constructor
  · rintro ⟨b, s', h⟩
    obtain ⟨a, s₁, hc, hf⟩ := bind_ok h
    exact ⟨a, s₁, hc, b, s', hf⟩
  · rintro ⟨a, s₁, hc, b, s', hf⟩
    exact ⟨b, s', (bind_of_ok hc).trans hf⟩

/-- A handler that never returns leaves the calls that return as they are. -/
theorem tryCatch_ok_iff {h : ε → Call σ ε α} {a : α} {s' : σ} (hh : ∀ e s, ¬ Returns (h e) s) :
    (tryCatch c h : Call σ ε α) s = (.ok a, s') ↔ c s = (.ok a, s') := by
  change (match c s with
    | (.ok a, s') => (.ok a, s')
    | (.error e, s') => h e s' : Except ε α × σ) = _ ↔ _
  rcases c s with ⟨e | a', s₁⟩
  · exact ⟨fun h' => absurd ⟨a, s', h'⟩ (hh e s₁), fun h' => by cases h'⟩
  · exact Iff.rfl

theorem returns_forEachFrom (i j : ℕ) (xs : List α) (s : σ) :
    Returns (forEachFrom g i xs) s → Returns (forEachFrom g j xs) s := by
  rintro ⟨_, s', h⟩
  have hspec : Spec (forEachFrom g i xs) s (fun _ _ => True) fun _ => (fun _ _ => False) () :=
    .intro (fun _ _ _ => trivial) fun _ _ h' => by rw [h] at h'; cases h'
  exact ((spec_forEachFrom_index (R := fun _ _ => False) xs i j s).1 hspec).returns

theorem returns_forEach_cons :
    Returns (forEach g (x :: xs)) s ↔ ∃ s₁, g x s = (.ok (), s₁) ∧ Returns (forEach g xs) s₁ := by
  constructor
  · rintro ⟨_, s', h⟩
    obtain ⟨_, s₁, hx, hxs⟩ := bind_ok h
    unfold mapErr at hx
    split at hx
    · cases hx
      exact ⟨_, ‹_›, returns_forEachFrom _ _ _ _ ⟨_, s', hxs⟩⟩
    · cases hx
  · rintro ⟨s₁, hx, hxs⟩
    obtain ⟨_, s', hxs⟩ := returns_forEachFrom 0 1 _ _ hxs
    have hx' : mapErr (fun e => (0, e)) (g x) s = (.ok (), s₁) := by
      unfold mapErr
      rw [hx]
    exact ⟨(), s', (bind_of_ok hx').trans hxs⟩

/-- A loop returns if every round does, after the rounds before it. -/
theorem returns_forEach : ∀ (xs : List α) (s : σ),
    (∀ pre x post, xs = pre ++ x :: post → ∀ s₁,
      Steps (fun x s s' => g x s = (.ok (), s')) pre s s₁ → Returns (g x) s₁) →
    Returns (forEach g xs) s
  | [], s, _ => ⟨(), s, rfl⟩
  | x :: xs, s, h => by
    obtain ⟨_, s₁, hx⟩ := h [] x xs rfl s (.nil s)
    refine returns_forEach_cons.2 ⟨s₁, hx, returns_forEach xs s₁ ?_⟩
    rintro pre y post rfl s₂ hpre
    exact h (x :: pre) y post rfl s₂ (.cons hx hpre)

/-- A loop that goes wrong does so in the round after those that return. -/
theorem forEachFrom_error_iff : ∀ (xs : List α) (n : ℕ) (s : σ) {j : ℕ},
    forEachFrom g n xs s = (.error (j, e), s') ↔ ∃ i x t, j = n + i ∧ xs[i]? = some x ∧
      forEachFrom g n (xs.take i) s = (.ok (), t) ∧ g x t = (.error e, s')
  | [], n, s, j => by
    constructor
    · intro h
      cases h
    · rintro ⟨i, x, t, -, h, -⟩
      cases h
  | x :: xs, n, s, j => by
    rcases hx : g x s with ⟨e' | _, s₁⟩
    · have hx' : mapErr (fun e => (n, e)) (g x) s = (.error (n, e'), s₁) := by
        unfold mapErr
        rw [hx]
      rw [forEachFrom, bind_of_error hx']
      constructor
      · intro h
        cases h
        exact ⟨0, x, s, rfl, rfl, rfl, hx⟩
      · rintro ⟨_ | i, y, t, rfl, hget, hpre, hy⟩
        · cases hget
          cases hpre
          rw [hx] at hy
          cases hy
          rfl
        · exact nomatch (bind_of_error hx').symm.trans hpre
    · have hx' : mapErr (fun e => (n, e)) (g x) s = (.ok (), s₁) := by
        unfold mapErr
        rw [hx]
      rw [forEachFrom, bind_of_ok hx', forEachFrom_error_iff xs (n + 1) s₁]
      constructor
      · rintro ⟨i, y, t, rfl, hget, hpre, hy⟩
        exact ⟨i + 1, y, t, by omega, hget, (bind_of_ok hx').trans hpre, hy⟩
      · rintro ⟨_ | i, y, t, rfl, hget, hpre, hy⟩
        · cases hget
          cases hpre
          rw [hx] at hy
          cases hy
        · exact ⟨i, y, t, by omega, hget, (bind_of_ok hx').symm.trans hpre, hy⟩

theorem forEach_error_iff {i : ℕ} : forEach g xs s = (.error (i, e), s') ↔
    ∃ x t, xs[i]? = some x ∧ forEach g (xs.take i) s = (.ok (), t) ∧ g x t = (.error e, s') := by
  rw [forEach, forEachFrom_error_iff]
  simp only [Nat.zero_add]
  exact ⟨fun ⟨_, x, t, hi, h⟩ => ⟨x, t, hi ▸ h⟩, fun ⟨x, t, h⟩ => ⟨i, x, t, rfl, h⟩⟩

/-! ## Loops that follow another loop -/

theorem each_of_steps (h : Steps (fun x s s' => g x s = (.ok (), s')) xs s s') : each g xs s = (.ok (), s') := by
  have hspec : Spec (each g xs) s (fun _ t => t = s') fun _ _ => False := by
    induction h with
    | nil => rfl
    | cons hx _ ih =>
      rw [spec_each_cons, Spec, hx]
      exact ih
  obtain ⟨_, t, ht⟩ := hspec.returns
  rw [ht, hspec.ok ht]

section
variable {τ : Type} {T : σ → τ → Prop} {k : α → Call τ ε Unit} {t t' : τ}

/-- A loop whose rounds simulate those of another one. -/
theorem Steps.simulate (h : Steps (fun x s s' => g x s = (.ok (), s')) xs s s') (ht : T s t)
    (hsim : ∀ x ∈ xs, ∀ s s' t, T s t → g x s = (.ok (), s') → ∃ t', k x t = (.ok (), t') ∧ T s' t') :
    ∃ t', each k xs t = (.ok (), t') ∧ T s' t' := by
  suffices hsteps : ∃ t', Steps (fun x t t' => k x t = (.ok (), t')) xs t t' ∧ T s' t' by
    obtain ⟨t', hsteps, ht'⟩ := hsteps
    exact ⟨t', each_of_steps hsteps, ht'⟩
  induction h generalizing t with
  | nil => exact ⟨t, .nil t, ht⟩
  | @cons x xs s s₁ s' hx _ ih =>
    obtain ⟨t₁, hk, ht₁⟩ := hsim x (by simp) s s₁ t ht hx
    obtain ⟨t', hsteps, ht'⟩ := ih ht₁ fun y hy => hsim y (by simp [hy])
    exact ⟨t', .cons hk hsteps, ht'⟩

/-- A loop whose rounds, run backwards, undo those of another one. -/
theorem Steps.undo (h : Steps (fun x s s' => g x s = (.ok (), s')) xs s s') (ht : T s' t')
    (hundo : ∀ x ∈ xs, ∀ s s' t', g x s = (.ok (), s') → T s' t' → ∃ t, k x t' = (.ok (), t) ∧ T s t) :
    ∃ t, each k xs.reverse t' = (.ok (), t) ∧ T s t := by
  suffices hsteps : ∃ t, Steps (fun x t t' => k x t = (.ok (), t')) xs.reverse t' t ∧ T s t by
    obtain ⟨t, hsteps, ht⟩ := hsteps
    exact ⟨t, each_of_steps hsteps, ht⟩
  induction h with
  | nil => exact ⟨t', .nil t', ht⟩
  | @cons x xs s s₁ s' hx _ ih =>
    obtain ⟨t₁, hsteps, ht₁⟩ := ih ht fun y hy => hundo y (by simp [hy])
    obtain ⟨t, hk, ht⟩ := hundo x (by simp) s s₁ t₁ hx ht₁
    rw [List.reverse_cons]
    exact ⟨t, hsteps.append (.single hk), ht⟩

end

/-! ## What a call does to the state, however it ends -/

/-- The state that the call leaves is related to the one it was made in. -/
def Moves (R : σ → σ → Prop) (c : Call σ ε α) : Prop := ∀ s, R s (c s).2

section
variable {T : σ → σ → Prop}

theorem moves_pure [Std.Refl T] (a : α) : Moves T (pure a : Call σ ε α) := fun s => Std.Refl.refl s

theorem moves_throw [Std.Refl T] (e : ε) : Moves T (throw e : Call σ ε α) := fun s => Std.Refl.refl s

theorem moves_get [Std.Refl T] : Moves T (get : Call σ ε σ) := fun s => Std.Refl.refl s

theorem Moves.bind [IsTrans σ T] (hc : Moves T c) (hf : ∀ a, Moves T (f a)) : Moves T (c >>= f) := by
  intro s
  have hs := hc s
  rcases h : c s with ⟨e | a, s₁⟩
  · rw [bind_of_error h]
    rwa [h] at hs
  · rw [bind_of_ok h]
    rw [h] at hs
    exact IsTrans.trans _ _ _ hs (hf a s₁)

theorem Moves.tryCatch [IsTrans σ T] {h : ε → Call σ ε α} (hc : Moves T c) (hh : ∀ e, Moves T (h e)) :
    Moves T (tryCatch c h) := by
  intro s
  have hs := hc s
  show T s (match c s with | (.ok a, s') => ((.ok a, s') : Except ε α × σ) | (.error e, s') => h e s').2
  rcases hcs : c s with ⟨e | a, s₁⟩
  · rw [hcs] at hs
    exact IsTrans.trans _ _ _ hs (hh e s₁)
  · rwa [hcs] at hs

theorem Moves.mapErr {g : ε → ε'} (hc : Moves T c) : Moves T (Call.mapErr g c) := by
  intro s
  have hs := hc s
  unfold Call.mapErr
  rcases hcs : c s with ⟨e | a, s₁⟩ <;> rwa [hcs] at hs

theorem Moves.forEachFrom [Std.Refl T] [IsTrans σ T] (hg : ∀ x, Moves T (g x)) :
    ∀ (xs : List α) (i : ℕ), Moves T (Call.forEachFrom g i xs)
  | [], _ => moves_pure ()
  | x :: xs, i => (hg x).mapErr.bind fun _ => Moves.forEachFrom hg xs (i + 1)

theorem Moves.each [Std.Refl T] [IsTrans σ T] (hg : ∀ x, Moves T (g x)) (xs : List α) :
    Moves T (Call.each g xs) :=
  (Moves.forEachFrom hg xs 0).mapErr

end

end Call
