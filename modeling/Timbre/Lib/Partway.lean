/-
  Calls that do what another call does, up to a fault.

  A call goes partway with another one if it does the same, or meets a fault where the other would go on.
  `Partway F need c d` says that `c` does what `d` does if `need` does not hold; and if it holds and `d`
  returns, that `c` ends with an error that is a fault.  The rules follow a `do` block: **a block needs what
  one of its parts needs** (`Partway.bind`, `Partway.forEach`).
-/
import Timbre.Lib.Call

namespace Call

variable {σ ε ε' α β : Type} {F : ε → Prop} {need need' : Prop} {c d : Call σ ε α} {f g : α → Call σ ε β}

/-- The call ends with a fault. -/
def Faults (F : ε → Prop) (c : Call σ ε α) (s : σ) : Prop := ∃ e, (c s).1 = .error e ∧ F e

/-- The call fails as the other one does. -/
def FailsAlike (c d : Call σ ε α) (s : σ) : Prop := c s = d s ∧ ∀ a, (d s).1 ≠ .ok a

/-- The call `c` does what `d` does, unless it needs what is missing. -/
structure Partway (F : ε → Prop) (need : Prop) (c d : Call σ ε α) : Prop where
  same : ¬ need → c = d
  fault : need → ∀ s, Faults F c s ∨ FailsAlike c d s

/-- The call does what `d` does, or meets a fault. -/
def UpTo (F : ε → Prop) (c d : Call σ ε α) : Prop := ∀ s, Faults F c s ∨ c s = d s

theorem Partway.upTo (h : Partway F need c d) : UpTo F c d := fun s => by
  by_cases hn : need
  · exact (h.fault hn s).imp_right And.left
  · exact .inr (congrFun (h.same hn) s)

/-- Errors may be caught, but not faults. -/
theorem UpTo.tryCatch {h : ε → Call σ ε α} (hcd : UpTo F c d) (hh : ∀ e, F e → ∀ s, Faults F (h e) s) :
    UpTo F (tryCatch c h) (tryCatch d h) := fun s => by
  rcases hcd s with ⟨e, hc, he⟩ | hsame
  · obtain ⟨e', he', hfault⟩ := hh e he (c s).2
    exact .inl ⟨e', by rw [tryCatch_of_error (Prod.ext hc rfl), he'], hfault⟩
  · refine .inr ?_
    rcases hd : d s with ⟨e | a, s₁⟩
    · rw [hd] at hsame
      rw [tryCatch_of_error hsame, tryCatch_of_error hd]
    · rw [hd] at hsame
      rw [tryCatch_of_ok hsame, tryCatch_of_ok hd]

/-- A call after which an error is raised all the same. -/
theorem UpTo.raise (h : UpTo F c d) (e : ε) (s : σ) :
    Faults F (c >>= fun _ => (throw e : Call σ ε β)) s ∨
      FailsAlike (c >>= fun _ => (throw e : Call σ ε β)) (d >>= fun _ => throw e) s := by
  rcases h s with ⟨e', hc, he'⟩ | hsame
  · exact .inl ⟨e', by rw [bind_of_error (Prod.ext hc rfl)], he'⟩
  · rcases hd : d s with ⟨e' | a, s₁⟩
    · rw [hd] at hsame
      exact .inr ⟨by rw [bind_of_error hsame, bind_of_error hd], fun b hb => by
        rw [bind_of_error hd] at hb
        cases hb⟩
    · rw [hd] at hsame
      exact .inr ⟨by rw [bind_of_ok hsame, bind_of_ok hd], fun b hb => by
        rw [bind_of_ok hd] at hb
        cases hb⟩

theorem Partway.refl (c : Call σ ε α) : Partway F False c c := ⟨fun _ => rfl, False.elim⟩

theorem Partway.congr (h : Partway F need c d) (hneed : need ↔ need') : Partway F need' c d :=
  ⟨fun hn => h.same (mt hneed.1 hn), fun hn => h.fault (hneed.2 hn)⟩

/-- What is needed may be needed after a call that is the same up to a fault. -/
theorem Partway.afterUpTo (h : UpTo F c d) (hsame : ¬ need → c = d) (hf : ∀ a, Partway F need (f a) (g a)) :
    Partway F need (c >>= f) (d >>= g) where
  same hn := by
    have hfg : f = g := funext fun a => (hf a).same hn
    rw [hsame hn, hfg]
  fault hn s := by
    rcases h s with ⟨e, hc, he⟩ | hcd
    · exact .inl ⟨e, by rw [bind_of_error (Prod.ext hc rfl)], he⟩
    · rcases hd : d s with ⟨e | a, s₁⟩
      · rw [hd] at hcd
        refine .inr ⟨by rw [bind_of_error hcd, bind_of_error hd], fun b hb => ?_⟩
        rw [bind_of_error hd] at hb
        cases hb
      · rw [hd] at hcd
        rcases (hf a).fault hn s₁ with ⟨e, hfault, he⟩ | ⟨halike, hfails⟩
        · exact .inl ⟨e, by rw [bind_of_ok hcd, hfault], he⟩
        · exact .inr ⟨by rw [bind_of_ok hcd, bind_of_ok hd, halike], fun b => by
            rw [bind_of_ok hd]
            exact hfails b⟩

/-- After what is the same. -/
theorem Partway.after (h : ∀ a, Partway F need (f a) (g a)) : Partway F need (d >>= f) (d >>= g) :=
  .afterUpTo (fun _ => .inr rfl) (fun _ => rfl) h

theorem Partway.branch {p : Prop} [Decidable p] {c' d' : Call σ ε α} (h : Partway F need c d)
    (h' : Partway F need c' d') : Partway F need (if p then c else c') (if p then d else d') := by
  split_ifs
  · exact h
  · exact h'

/-- After a condition that is checked. -/
theorem Partway.guard {p : Prop} [Decidable p] {k l : Unit → Call σ ε α} (e : ε) (h : ∀ x, Partway F need (k x) (l x)) :
    Partway F need (if p then throw e >>= k else k ()) (if p then throw e >>= l else l ()) := by
  refine .branch ⟨fun _ => rfl, fun _ s => .inr ⟨rfl, fun a ha => ?_⟩⟩ (h ())
  cases ha

/-- Before anything else, if something is needed. -/
theorem Partway.before (hn : need) (h : Partway F need c d) : Partway F need (c >>= f) (d >>= g) := by
  refine ⟨fun hnot => absurd hn hnot, fun _ s => ?_⟩
  rcases h.fault hn s with ⟨e, hfault, he⟩ | ⟨hsame, hfails⟩
  · exact .inl ⟨e, by rw [bind_of_error (Prod.ext hfault rfl)], he⟩
  · rcases hd : d s with ⟨e | a, s₁⟩
    · rw [hd] at hsame
      refine .inr ⟨by rw [bind_of_error hsame, bind_of_error hd], fun b hb => ?_⟩
      rw [bind_of_error hd] at hb
      cases hb
    · exact absurd (congrArg Prod.fst hd) (hfails a)

/-- One call after the other. -/
theorem Partway.bind (h : Partway F need c d) (h' : ∀ a, Partway F need' (f a) (g a)) :
    Partway F (need ∨ need') (c >>= f) (d >>= g) := by
  by_cases hn : need
  · exact (Partway.before hn h).congr ⟨.inl, fun _ => hn⟩
  · rw [h.same hn]
    exact (Partway.after h').congr ⟨.inr, fun hor => hor.resolve_left hn⟩

theorem Partway.mapErr {F' : ε' → Prop} {r : ε → ε'} (hF : ∀ e, F e → F' (r e)) (h : Partway F need c d) :
    Partway F' need (Call.mapErr r c) (Call.mapErr r d) where
  same hn := by rw [h.same hn]
  fault hn s := by
    rcases h.fault hn s with ⟨e, hfault, he⟩ | ⟨hsame, hfails⟩
    · have hc : c s = (.error e, (c s).2) := Prod.ext hfault rfl
      exact .inl ⟨r e, by rw [Call.mapErr, hc], hF e he⟩
    · rcases hd : d s with ⟨e | a, s₁⟩
      · rw [hd] at hsame
        refine .inr ⟨by rw [Call.mapErr, Call.mapErr, hsame, hd], fun b hb => ?_⟩
        rw [Call.mapErr, hd] at hb
        cases hb
      · exact absurd (congrArg Prod.fst hd) (hfails a)

section
variable {x : β} {xs : List β} {needs : β → Prop} {k l : β → Call σ ε Unit}

theorem Partway.forEachFrom (h : ∀ x, Partway F (needs x) (k x) (l x)) : ∀ (xs : List β) (i : ℕ),
    Partway (fun e => F e.2) (∃ x ∈ xs, needs x) (Call.forEachFrom k i xs) (Call.forEachFrom l i xs)
  | [], _ => (Partway.refl _).congr (by simp)
  | x :: xs, i => by
    have hx : Partway (fun e : ℕ × ε => F e.2) (needs x) (Call.mapErr (fun e => (i, e)) (k x))
        (Call.mapErr (fun e => (i, e)) (l x)) := (h x).mapErr fun _ he => he
    exact (hx.bind fun _ => Partway.forEachFrom h xs (i + 1)).congr (by simp)

/-- **A loop needs what one of its rounds needs.** -/
theorem Partway.forEach (h : ∀ x, Partway F (needs x) (k x) (l x)) (xs : List β) :
    Partway (fun e => F e.2) (∃ x ∈ xs, needs x) (Call.forEach k xs) (Call.forEach l xs) :=
  Partway.forEachFrom h xs 0

theorem Partway.each (h : ∀ x, Partway F (needs x) (k x) (l x)) (xs : List β) :
    Partway F (∃ x ∈ xs, needs x) (Call.each k xs) (Call.each l xs) :=
  (Partway.forEach h xs).mapErr fun _ he => he

end

/-- **Where the other call returns, the call returns the same exactly if it needs nothing, and meets a fault
    otherwise.** -/
theorem Partway.of_ok {s s' : σ} {a : α} (h : Partway F need c d) (hd : d s = (.ok a, s')) :
    (c s = (.ok a, s') ↔ ¬ need) ∧ (Faults F c s ↔ need) := by
  by_cases hn : need
  · rcases h.fault hn s with ⟨e, hc, he⟩ | ⟨-, hfails⟩
    · refine ⟨iff_of_false (fun hok => ?_) (not_not_intro hn), iff_of_true ⟨e, hc, he⟩ hn⟩
      rw [hok] at hc
      cases hc
    · exact absurd (congrArg Prod.fst hd) (hfails a)
  · rw [h.same hn]
    refine ⟨iff_of_true hd hn, iff_of_false (fun ⟨e, he, _⟩ => ?_) hn⟩
    rw [hd] at he
    cases he

end Call
