/-
  A loop over an array of which the body takes elements out in place.

  What stands after an element that is taken out moves up, so the loop does not see the next one;
  the last one stays behind the slice as well, where the loop sees it in the end.
  **The loop leaves no old element only if, and where it takes out what it sees if, no two old
  elements are neighbours, the last two apart** (`spread_of_clean`, `clean_of_spread`).
-/
import Mathlib.Data.List.Nodup

variable {σ α : Type}

/-- The slice that is ranged over, what the array holds behind it, and the body. -/
structure Sweep (σ α : Type) where
  slice : σ → List α
  behind : σ → List α
  visit : σ → α → σ

/-- Of two neighbours with the property, the second is the last element. -/
def Spread (old : α → Prop) (l : List α) : Prop :=
  ∀ xs x y ys, l = xs ++ x :: y :: ys → old x → old y → ys = []

theorem spread_singleton (old : α → Prop) (x : α) : Spread old [x] := by
  intro xs y z ys h
  have hlen := congrArg List.length h
  simp only [List.length_append, List.length_cons, List.length_nil] at hlen
  omega

theorem Spread.tail {old : α → Prop} {x : α} {l : List α} (h : Spread old (x :: l)) : Spread old l :=
  fun xs y z ys hl => h (x :: xs) y z ys (by rw [hl]; rfl)

theorem spread_cons_cons {old : α → Prop} {x y : α} {l : List α} (hxy : old x → old y → l = [])
    (h : Spread old (y :: l)) : Spread old (x :: y :: l) := by
  intro xs u v ys hl hu hv
  cases xs with
  | nil =>
    simp only [List.nil_append, List.cons.injEq] at hl
    obtain ⟨rfl, rfl, rfl⟩ := hl
    exact hxy hu hv
  | cons z xs => exact h xs u v ys (List.cons.inj hl).2 hu hv

/-- The last element stands at the end only. -/
theorem eq_nil_of_getLast? {xs ys : List α} {x : α} (hn : (xs ++ x :: ys).Nodup)
    (h : (xs ++ x :: ys).getLast? = some x) : ys = [] := by
  rcases List.eq_nil_or_concat ys with rfl | ⟨zs, y, rfl⟩
  · rfl
  · simp only [List.concat_eq_append, ← List.cons_append, ← List.append_assoc, List.getLast?_concat] at h
    obtain rfl := Option.some.inj h
    simp [List.nodup_append] at hn

namespace Sweep

variable (w : Sweep σ α)

/-- The loop, from an index on. -/
def run : (i remaining : ℕ) → σ → σ
  | _, 0, s => s
  | i, remaining + 1, s =>
    match (w.slice s ++ w.behind s)[i]? with
    | none => s
    | some x => run (i + 1) remaining (w.visit s x)

/-- The body has left the array as it was. -/
def Keeps (s s' : σ) : Prop := w.slice s' = w.slice s ∧ w.behind s' = w.behind s

/-- The body has taken `x` out. -/
def Takes (s s' : σ) (x : α) : Prop :=
  ∃ xs ys b, w.slice s = xs ++ x :: ys ∧ w.slice s' = xs ++ ys ∧ w.behind s' = b :: w.behind s ∧
    (ys.getLast? = some b ∨ ys = [] ∧ b ∉ xs)

/-- What the body does where the invariant holds. -/
structure Body (I : σ → Prop) : Prop where
  nodup : ∀ s, I s → (w.slice s).Nodup
  visit : ∀ s x, I s → x ∈ w.slice s ++ w.behind s →
    I (w.visit s x) ∧ (w.Keeps s (w.visit s x) ∨ w.Takes s (w.visit s x) x)

/-- Of the elements of the slice, at most the last one stands behind it too. -/
def Trailing (s : σ) : Prop := ∀ x ∈ w.behind s, x ∈ w.slice s → (w.slice s).getLast? = some x

variable {w} {I : σ → Prop} {old : α → Prop} {s s' : σ} {x : α}

theorem Takes.subset (h : w.Takes s s' x) : w.slice s' ⊆ w.slice s := by
  obtain ⟨xs, ys, b, hs, hs', -⟩ := h
  rw [hs, hs']
  intro y hy
  rcases List.mem_append.1 hy with hy | hy
  · exact List.mem_append_left _ hy
  · exact List.mem_append_right _ (List.mem_cons_of_mem _ hy)

/-- What the array holds in all does not change in number. -/
theorem Takes.length (h : w.Takes s s' x) :
    (w.slice s').length + (w.behind s').length = (w.slice s).length + (w.behind s).length := by
  obtain ⟨xs, ys, b, hs, hs', hbehind, -⟩ := h
  rw [hs, hs', hbehind, List.length_append, List.length_append, List.length_cons, List.length_cons]
  omega

theorem Keeps.length (h : w.Keeps s s') :
    (w.slice s').length + (w.behind s').length = (w.slice s).length + (w.behind s).length := by
  rw [h.1, h.2]

theorem Takes.not_mem (h : w.Takes s s' x) (hn : (w.slice s).Nodup) : x ∉ w.slice s' := by
  obtain ⟨xs, ys, b, hs, hs', -⟩ := h
  rw [hs, List.nodup_middle, List.nodup_cons] at hn
  rw [hs']
  exact hn.1

/-- The slice with `x` is where `x` was. -/
theorem Takes.split (h : w.Takes s s' x) (hn : (w.slice s).Nodup) {xs ys : List α} (hs : w.slice s = xs ++ x :: ys) :
    w.slice s' = xs ++ ys ∧ ∃ b, w.behind s' = b :: w.behind s ∧ (ys.getLast? = some b ∨ ys = [] ∧ b ∉ xs) := by
  obtain ⟨xs', ys', b, hsplit, hs', hbehind, hb⟩ := h
  have hnot := hn
  rw [hs, List.nodup_middle, List.nodup_cons, List.mem_append] at hnot
  obtain ⟨rfl, rfl⟩ : xs = xs' ∧ ys = ys' := by
    rcases List.append_eq_append_iff.1 (hs.symm.trans hsplit) with ⟨zs, h₁, h₂⟩ | ⟨zs, h₁, h₂⟩
    · cases zs with
      | nil => exact ⟨by simpa using h₁.symm, (List.cons.inj h₂).2⟩
      | cons z zs =>
        obtain ⟨rfl, rfl⟩ := List.cons.inj h₂
        exact absurd (.inr (by simp)) hnot.1
    · cases zs with
      | nil => exact ⟨by simpa using h₁, (List.cons.inj h₂).2.symm⟩
      | cons z zs =>
        obtain ⟨rfl, rfl⟩ := List.cons.inj h₂
        exact absurd (.inl (by rw [h₁]; simp)) hnot.1
  exact ⟨hs', b, hbehind, hb⟩

theorem Trailing.keeps (h : w.Trailing s) (hk : w.Keeps s s') : w.Trailing s' := by
  unfold Trailing
  rw [hk.1, hk.2]
  exact h

theorem Trailing.takes (h : w.Trailing s) (hn : (w.slice s).Nodup) (ht : w.Takes s s' x) : w.Trailing s' := by
  have hnot := ht.not_mem hn
  obtain ⟨xs, ys, b, hs, hs', hbehind, hb⟩ := ht
  intro y hy hmem
  rw [hbehind] at hy
  rcases List.mem_cons.1 hy with rfl | hy
  · rcases hb with hb | ⟨rfl, hb⟩
    · rw [hs', List.getLast?_append, hb]
      rfl
    · rw [hs', List.append_nil] at hmem
      exact absurd hmem hb
  · -- it was the last one, and `x` stood before it
    have hyx : y ≠ x := fun hyx => hnot (hyx ▸ hmem)
    have hlast := h y hy (Takes.subset ⟨xs, ys, b, hs, hs', hbehind, hb⟩ hmem)
    rw [hs, List.getLast?_append] at hlast
    rw [hs', List.getLast?_append]
    cases ys with
    | nil => exact absurd (by simpa using hlast) (Ne.symm hyx)
    | cons z zs => simpa [List.getLast?_cons_cons] using hlast

/-! ## The loop -/

theorem run_inv (hb : w.Body I) : ∀ {remaining i : ℕ} {s : σ}, I s →
    I (w.run i remaining s) ∧ w.slice (w.run i remaining s) ⊆ w.slice s
  | 0, _, s, h => ⟨h, List.Subset.refl _⟩
  | remaining + 1, i, s, h => by
    rw [run]
    cases hx : (w.slice s ++ w.behind s)[i]? with
    | none => exact ⟨h, List.Subset.refl _⟩
    | some x =>
      obtain ⟨h', hstep⟩ := hb.visit s x h (List.mem_of_getElem? hx)
      obtain ⟨hrun, hsub⟩ := @run_inv hb remaining (i + 1) _ h'
      refine ⟨hrun, List.Subset.trans hsub ?_⟩
      rcases hstep with hk | ht
      · rw [hk.1]
        exact List.Subset.refl _
      · exact ht.subset

/-- Behind the slice the loop sees no other element of it than the last one. -/
theorem mem_run_of_done (hb : w.Body I) : ∀ {remaining i : ℕ} {s : σ}, I s → w.Trailing s →
    (w.slice s).length ≤ i → x ∈ w.slice s → x ∉ w.behind s → x ∈ w.slice (w.run i remaining s)
  | 0, _, _, _, _, _, hx, _ => hx
  | remaining + 1, i, s, h, htrail, hlen, hx, hnot => by
    rw [run]
    cases hy : (w.slice s ++ w.behind s)[i]? with
    | none => exact hx
    | some y =>
      have hybehind : y ∈ w.behind s := by
        rw [List.getElem?_append_right hlen] at hy
        exact List.mem_of_getElem? hy
      have hxy : x ≠ y := fun hxy => hnot (hxy ▸ hybehind)
      have hn := hb.nodup s h
      obtain ⟨h', hk | ht⟩ := hb.visit s y h (List.mem_append_right _ hybehind)
      · refine mem_run_of_done hb h' (htrail.keeps hk) ?_ ?_ ?_
        · rw [hk.1]
          omega
        · rwa [hk.1]
        · rwa [hk.2]
      · have htrail' := htrail.takes hn ht
        obtain ⟨xs, ys, b, hs, hs', hbehind, hlast⟩ := ht
        have hymem : y ∈ w.slice s := by
          rw [hs]
          simp
        have hyslast := htrail y hybehind hymem
        rw [hs] at hyslast hn
        obtain rfl : ys = [] := eq_nil_of_getLast? hn hyslast
        have hbxs : b ∉ xs := (hlast.resolve_left (by simp)).2
        rw [List.append_nil] at hs'
        have hxxs : x ∈ xs := by
          rw [hs] at hx
          simpa [hxy] using hx
        refine mem_run_of_done hb h' htrail' ?_ (hs' ▸ hxxs) ?_
        · rw [hs, List.length_append, List.length_singleton] at hlen
          rw [hs']
          omega
        · rw [hbehind, List.mem_cons, not_or]
          exact ⟨fun hxb => hbxs (hxb ▸ hxxs), hnot⟩

theorem run_cons {xs ys : List α} {remaining : ℕ} (hs : w.slice s = xs ++ x :: ys) :
    w.run xs.length (remaining + 1) s = w.run (xs ++ [x]).length remaining (w.visit s x) := by
  rw [run, hs, List.append_assoc, List.getElem?_append_right (Nat.le_refl _), Nat.sub_self, List.length_append]
  rfl

theorem run_behind {ys : List α} {remaining : ℕ} (hs : w.behind s = x :: ys) :
    w.run (w.slice s).length (remaining + 1) s = w.run ((w.slice s).length + 1) remaining (w.visit s x) := by
  rw [run, List.getElem?_append_right (Nat.le_refl _), Nat.sub_self, hs]
  rfl

theorem length_step (pre : List α) (x : α) {remaining : ℕ} :
    (pre ++ [x]).length + remaining = pre.length + (remaining + 1) := by
  rw [List.length_append, List.length_singleton]
  omega

theorem length_concat (pre : List α) (x y : α) : (pre ++ [x]).length = (pre ++ [y]).length := by
  rw [List.length_append, List.length_append]
  rfl

/-- **A loop that leaves no old element**: from where it stands on, the old elements are spread. -/
theorem spread_of_clean (hb : w.Body I) : ∀ {remaining : ℕ} {s : σ} {pre rest : List α}, I s → w.Trailing s →
    w.slice s = pre ++ rest → pre.length + remaining = (w.slice s).length + (w.behind s).length →
      (∀ x ∈ w.slice (w.run pre.length remaining s), ¬ old x) →
        (∀ x ∈ pre, old x → (w.slice s).getLast? = some x) ∧ Spread old rest
  | remaining, s, pre, [], h, htrail, hs, _, hclean => by
    refine ⟨fun x hx hold => ?_, fun xs x y ys hnil => absurd hnil (by simp)⟩
    have hmem : x ∈ w.slice s := by
      rw [hs]
      simpa using hx
    by_contra hlast
    have hnot : x ∉ w.behind s := fun hx' => hlast (htrail x hx' hmem)
    have hslice : w.slice s = pre := hs.trans (List.append_nil pre)
    have hlen : (w.slice s).length ≤ pre.length := Nat.le_of_eq (congrArg List.length hslice)
    exact hclean x (mem_run_of_done hb h htrail hlen hmem hnot) hold
  | 0, s, pre, t :: rest, _, _, hs, hlen, _ => by
    rw [hs, List.length_append, List.length_cons] at hlen
    omega
  | remaining + 1, s, pre, t :: rest, h, htrail, hs, hlen, hclean => by
    have hn := hb.nodup s h
    have htmem : t ∈ w.slice s := by
      rw [hs]
      simp
    rw [run_cons hs] at hclean
    obtain ⟨h', hk | ht⟩ := hb.visit s t h (List.mem_append_left _ htmem)
    · have hs' : w.slice (w.visit s t) = (pre ++ [t]) ++ rest := by rw [hk.1, hs, List.append_assoc]; rfl
      have hlen' := (length_step pre t).trans (hlen.trans hk.length.symm)
      obtain ⟨hpre, hrest⟩ := spread_of_clean hb h' (htrail.keeps hk) hs' hlen' hclean
      rw [hk.1] at hpre
      refine ⟨fun x hx => hpre x (List.mem_append_left _ hx), ?_⟩
      cases rest with
      | nil => exact spread_singleton old t
      | cons u rest =>
        refine spread_cons_cons (fun hold _ => ?_) hrest
        have hlast := hpre t (by simp) hold
        rw [hs] at hlast hn
        exact absurd (eq_nil_of_getLast? hn hlast) (by simp)
    · have htrail' := htrail.takes hn ht
      have hn' := hb.nodup _ h'
      obtain ⟨hs', b, hbehind, hlast⟩ := ht.split hn hs
      cases rest with
      | nil =>
        refine ⟨fun x hx hold => ?_, spread_singleton old t⟩
        -- what stands before `t` is not seen any more
        have hbpre : b ∉ pre := (hlast.resolve_left (by simp)).2
        rw [List.append_nil] at hs'
        have hx' : x ∈ w.slice (w.visit s t) := hs' ▸ hx
        have hnot : x ∉ w.behind (w.visit s t) := by
          rw [hbehind, List.mem_cons, not_or]
          refine ⟨fun hxb => hbpre (hxb ▸ hx), fun hxs => ?_⟩
          have hlast := htrail x hxs (ht.subset hx')
          rw [hs, List.getLast?_concat, Option.some.injEq] at hlast
          exact ht.not_mem hn (hlast ▸ hx')
        have hdone : (w.slice (w.visit s t)).length ≤ (pre ++ [t]).length := by
          rw [hs', List.length_append]
          omega
        exact absurd hold (hclean x (mem_run_of_done hb h' htrail' hdone hx' hnot))
      | cons u rest =>
        have hs'' : w.slice (w.visit s t) = (pre ++ [u]) ++ rest := by rw [hs', List.append_assoc]; rfl
        have hlen' := (length_step pre u).trans (hlen.trans ht.length.symm)
        rw [length_concat pre t u] at hclean
        obtain ⟨hpre, hrest⟩ := spread_of_clean hb h' htrail' hs'' hlen' hclean
        rw [hs'] at hpre hn'
        have hu : old u → rest = [] := fun hold => eq_nil_of_getLast? hn' (hpre u (by simp) hold)
        refine ⟨fun x hx hold => ?_, spread_cons_cons (fun _ => hu) ?_⟩
        · obtain ⟨p, q, rfl⟩ := List.append_of_mem hx
          have hlast := hpre x (by simp) hold
          rw [List.append_assoc] at hlast hn'
          exact absurd (eq_nil_of_getLast? hn' hlast) (by simp)
        · cases rest with
          | nil => exact spread_singleton old u
          | cons v rest => exact spread_cons_cons (fun hold => absurd (hu hold) (by simp)) hrest

/-- **A loop that takes out the old elements it sees**, and no others, leaves none of them if
    they are spread. -/
theorem clean_of_spread (hb : w.Body I)
    (hold : ∀ s x, I s → x ∈ w.slice s → old x → w.Takes s (w.visit s x) x)
    (hnew : ∀ s x, I s → x ∈ w.slice s → ¬ old x → w.Keeps s (w.visit s x)) :
    ∀ {remaining : ℕ} {s : σ} {pre rest : List α}, I s → w.slice s = pre ++ rest →
      pre.length + remaining = (w.slice s).length + (w.behind s).length → (∀ x ∈ pre, ¬ old x) → Spread old rest →
        ∀ x ∈ w.slice (w.run pre.length remaining s), ¬ old x
  | remaining, s, pre, [], h, hs, _, hpre, _, x, hx => by
    have hx' := (run_inv hb h).2 hx
    rw [hs, List.append_nil] at hx'
    exact hpre x hx'
  | 0, s, pre, t :: rest, _, hs, hlen, _, _, _, _ => by
    rw [hs, List.length_append, List.length_cons] at hlen
    omega
  | remaining + 1, s, pre, t :: rest, h, hs, hlen, hpre, hspread, x, hx => by
    have htmem : t ∈ w.slice s := by
      rw [hs]
      simp
    rw [run_cons hs] at hx
    have h' := (hb.visit s t h (List.mem_append_left _ htmem)).1
    by_cases hold' : old t
    · have ht := hold s t h htmem hold'
      obtain ⟨hs', b, hbehind, hlast⟩ := ht.split (hb.nodup s h) hs
      cases rest with
      | nil =>
        have hx' := (run_inv hb h').2 hx
        rw [hs', List.append_nil] at hx'
        exact hpre x hx'
      | cons u rest =>
        have hs'' : w.slice (w.visit s t) = (pre ++ [u]) ++ rest := by rw [hs', List.append_assoc]; rfl
        have hlen' := (length_step pre u).trans (hlen.trans ht.length.symm)
        rw [length_concat pre t u] at hx
        by_cases hu : old u
        · -- `u` is the last one, and is seen behind the slice
          obtain rfl : rest = [] := hspread [] t u rest rfl hold' hu
          obtain rfl : u = b := by simpa using hlast
          rw [List.append_nil] at hs''
          cases remaining with
          | zero =>
            rw [hs'', hbehind, List.length_cons] at hlen'
            omega
          | succ remaining =>
            have humem : u ∈ w.slice (w.visit s t) := by
              rw [hs'']
              simp
            have htakes := hold _ u h' humem hu
            obtain ⟨hs₂, -⟩ := htakes.split (hb.nodup _ h') hs''
            have h₂ := (hb.visit _ u h' (List.mem_append_left _ humem)).1
            rw [← hs'', run_behind hbehind] at hx
            have hx' := (run_inv hb h₂).2 hx
            rw [hs₂, List.append_nil] at hx'
            exact hpre x hx'
        · refine clean_of_spread hb hold hnew h' hs'' hlen' (fun y hy => ?_) hspread.tail.tail x hx
          rcases List.mem_append.1 hy with hy | hy
          · exact hpre y hy
          · exact List.mem_singleton.1 hy ▸ hu
    · have hk := hnew s t h htmem hold'
      have hs' : w.slice (w.visit s t) = (pre ++ [t]) ++ rest := by rw [hk.1, hs, List.append_assoc]; rfl
      have hlen' := (length_step pre t).trans (hlen.trans hk.length.symm)
      refine clean_of_spread hb hold hnew h' hs' hlen' (fun y hy => ?_) hspread.tail x hx
      rcases List.mem_append.1 hy with hy | hy
      · exact hpre y hy
      · exact List.mem_singleton.1 hy ▸ hold'

namespace Body

variable (hb : w.Body I) (s : σ) (h : I s) (hbehind : w.behind s = [])
include hb h hbehind

/-- **The whole loop** leaves no old element only if they are spread. -/
theorem spread (hclean : ∀ x ∈ w.slice (w.run 0 (w.slice s).length s), ¬ old x) : Spread old (w.slice s) := by
  have htrail : w.Trailing s := by
    intro x hx
    rw [hbehind] at hx
    exact absurd hx (by simp)
  have hlen : ([] : List α).length + (w.slice s).length = (w.slice s).length + (w.behind s).length := by
    rw [hbehind, List.length_nil, Nat.zero_add, Nat.add_zero]
  have hsplit : w.slice s = [] ++ w.slice s := (List.nil_append _).symm
  exact (spread_of_clean hb h htrail hsplit hlen hclean).2

/-- It leaves none if they are spread, and it takes out those that it sees. -/
theorem clean (hold : ∀ s x, I s → x ∈ w.slice s → old x → w.Takes s (w.visit s x) x)
    (hnew : ∀ s x, I s → x ∈ w.slice s → ¬ old x → w.Keeps s (w.visit s x)) (hspread : Spread old (w.slice s)) :
    ∀ x ∈ w.slice (w.run 0 (w.slice s).length s), ¬ old x := by
  have hlen : ([] : List α).length + (w.slice s).length = (w.slice s).length + (w.behind s).length := by
    rw [hbehind, List.length_nil, Nat.zero_add, Nat.add_zero]
  have hsplit : w.slice s = [] ++ w.slice s := (List.nil_append _).symm
  exact clean_of_spread hb hold hnew h hsplit hlen (by simp) hspread

end Body

end Sweep
