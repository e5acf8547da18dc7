/-
  Binary search over a range of integers with a probe that may fail.

  A probe finds what is looked for, or says on which side to go on; nothing is assumed of its
  answers.  **The search finds something exactly if the range can be halved down to an interval
  whose middle is found, with a probe on the way that points to the interval in each larger one**
  (`search_found_iff`).
-/
import Mathlib.Data.Int.Order.Basic
import Mathlib.Tactic.Cases

namespace Bisect

variable {ε β : Type} {probe : ℤ → Except ε (Option β × Bool)} {below above : ℤ → Prop}
  {lo hi l h : ℤ} {fuel : ℕ}

/-- The middle of an interval, rounded down. -/
def middle (lo hi : ℤ) : ℤ := lo + (hi - lo) / 2

/-- Binary search.  A probe answers what it finds, and if it finds nothing whether to go on below
    (`true`) or above. -/
def search (probe : ℤ → Except ε (Option β × Bool)) : ℕ → ℤ → ℤ → Except ε (Option β)
  | 0, _, _ => .ok none
  | fuel + 1, lo, hi =>
    if lo ≤ hi then
      match probe (middle lo hi) with
      | .error e => .error e
      | .ok (some r, _) => .ok (some r)
      | .ok (none, true) => search probe fuel lo (middle lo hi - 1)
      | .ok (none, false) => search probe fuel (middle lo hi + 1) hi
    else .ok none

/-! ## Halving -/

theorem middle_mem (hle : lo ≤ hi) : lo ≤ middle lo hi ∧ middle lo hi ≤ hi := by
  unfold middle
  omega

/-- Halving the range `lo..hi`, without the middles, leads to `l..h`. -/
inductive Halves : ℤ → ℤ → ℤ → ℤ → Prop
  | whole (lo hi : ℤ) : Halves lo hi lo hi
  | lower {lo hi l h : ℤ} : lo ≤ hi → Halves lo (middle lo hi - 1) l h → Halves lo hi l h
  | upper {lo hi l h : ℤ} : lo ≤ hi → Halves (middle lo hi + 1) hi l h → Halves lo hi l h

theorem Halves.bounds (H : Halves lo hi l h) (hle : l ≤ h) : lo ≤ l ∧ h ≤ hi := by
  induction H with
  | whole lo hi => exact ⟨le_rfl, le_rfl⟩
  | lower hlohi _ ih =>
    have := middle_mem hlohi
    have := ih hle
    omega
  | upper hlohi _ ih =>
    have := middle_mem hlohi
    have := ih hle
    omega

/-- In every larger interval that halving leads to, the middle points to `l..h`. -/
structure LeadsTo (below above : ℤ → Prop) (lo hi l h : ℤ) : Prop where
  halves : Halves lo hi l h
  nonempty : l ≤ h
  steered : ∀ l' h', Halves lo hi l' h' → l' ≤ l → h ≤ h' →
    (middle l' h' < l → below (middle l' h')) ∧ (h < middle l' h' → above (middle l' h'))

namespace LeadsTo

theorem whole (hle : lo ≤ hi) : LeadsTo below above lo hi lo hi := by
  refine ⟨.whole lo hi, hle, fun l' h' H hl hh => ?_⟩
  have hbounds := H.bounds (by omega)
  have hmiddle : lo ≤ middle l' h' ∧ middle l' h' ≤ hi := by
    have := middle_mem (show l' ≤ h' by omega)
    omega
  exact ⟨fun h => absurd h (by omega), fun h => absurd h (by omega)⟩

theorem lower (hle : lo ≤ hi) (ha : above (middle lo hi))
    (h' : LeadsTo below above lo (middle lo hi - 1) l h) : LeadsTo below above lo hi l h := by
  have hbounds := h'.halves.bounds h'.nonempty
  have hnonempty := h'.nonempty
  refine ⟨.lower hle h'.halves, h'.nonempty, fun l₁ h₁ H hl hh => ?_⟩
  cases H with
  | whole => exact ⟨fun hlt => absurd hlt (by omega), fun _ => ha⟩
  | lower _ H => exact h'.steered l₁ h₁ H hl hh
  | upper _ H =>
    have := H.bounds (by omega)
    omega

theorem upper (hle : lo ≤ hi) (hb : below (middle lo hi))
    (h' : LeadsTo below above (middle lo hi + 1) hi l h) : LeadsTo below above lo hi l h := by
  have hbounds := h'.halves.bounds h'.nonempty
  have hnonempty := h'.nonempty
  refine ⟨.upper hle h'.halves, h'.nonempty, fun l₁ h₁ H hl hh => ?_⟩
  cases H with
  | whole => exact ⟨fun _ => hb, fun hlt => absurd hlt (by omega)⟩
  | upper _ H => exact h'.steered l₁ h₁ H hl hh
  | lower _ H =>
    have := H.bounds (by omega)
    omega

/-- What leads to an interval is the first middle and then what leads on in its half. -/
theorem cases_on (h' : LeadsTo below above lo hi l h) :
    (l = lo ∧ h = hi) ∨ (above (middle lo hi) ∧ LeadsTo below above lo (middle lo hi - 1) l h) ∨
      (below (middle lo hi) ∧ LeadsTo below above (middle lo hi + 1) hi l h) := by
  obtain ⟨H, hnonempty, hsteered⟩ := h'
  have hbounds := H.bounds hnonempty
  have hfirst := hsteered lo hi (.whole lo hi) hbounds.1 hbounds.2
  cases H with
  | whole => exact .inl ⟨rfl, rfl⟩
  | lower hle H =>
    have := H.bounds hnonempty
    refine .inr (.inl ⟨hfirst.2 (by omega), H, hnonempty, fun l₁ h₁ H₁ => ?_⟩)
    exact hsteered l₁ h₁ (.lower hle H₁)
  | upper hle H =>
    have := H.bounds hnonempty
    refine .inr (.inr ⟨hfirst.1 (by omega), H, hnonempty, fun l₁ h₁ H₁ => ?_⟩)
    exact hsteered l₁ h₁ (.upper hle H₁)

end LeadsTo

/-! ## The search -/

/-- What the search returns has been found by a probe. -/
theorem probe_of_search {r : β} (hr : search probe fuel lo hi = .ok (some r)) :
    ∃ k b, probe k = .ok (some r, b) := by
  induction fuel generalizing lo hi with
  | zero => cases hr
  | succ fuel ih =>
    rw [search] at hr
    split_ifs at hr
    · rcases hprobe : probe (middle lo hi) with e | ⟨_ | r', b⟩
      · rw [hprobe] at hr
        cases hr
      · rw [hprobe] at hr
        cases b with
        | false => exact ih hr
        | true => exact ih hr
      · rw [hprobe] at hr
        cases hr
        exact ⟨_, _, hprobe⟩
    · cases hr

/-- The search goes wrong with the error of a probe. -/
theorem probe_of_search_error {e : ε} (he : search probe fuel lo hi = .error e) : ∃ k, probe k = .error e := by
  induction fuel generalizing lo hi with
  | zero => cases he
  | succ fuel ih =>
    rw [search] at he
    split_ifs at he
    rcases hprobe : probe (middle lo hi) with e' | ⟨_ | r, b⟩
    · rw [hprobe] at he
      cases he
      exact ⟨_, hprobe⟩
    · rw [hprobe] at he
      cases b with
      | false => exact ih he
      | true => exact ih he
    · rw [hprobe] at he
      cases he

/-- **The search ends as a middle that the probes lead to**, if it is asked whether it ends in one of
    the ways `G`, to which all finds belong.  Also a probe that finds something says on which side it
    would go on. -/
theorem search_iff {G : Except ε (Option β) → Prop} (hnone : ¬ G (.ok none))
    (hfound : ∀ k r b, probe k = .ok (some r, b) → G (.ok (some r))) (hfuel : (hi - lo + 1).toNat ≤ fuel) :
    G (search probe fuel lo hi) ↔
      ∃ l h, LeadsTo (fun k => ∃ x, probe k = .ok (x, false)) (fun k => ∃ x, probe k = .ok (x, true)) lo hi l h ∧
        G ((probe (middle l h)).map Prod.fst) := by
  induction fuel generalizing lo hi with
  | zero =>
    refine iff_of_false hnone ?_
    rintro ⟨l, h, hlead, -⟩
    have := hlead.halves.bounds hlead.nonempty
    have := hlead.nonempty
    omega
  | succ fuel ih =>
    rw [search]
    split_ifs with hle
    · have hmiddle := middle_mem hle
      have ihbelow := @ih lo (middle lo hi - 1) (by omega)
      have ihabove := @ih (middle lo hi + 1) hi (by omega)
      rcases hprobe : probe (middle lo hi) with e | ⟨_ | r, b⟩
      · constructor
        · intro he
          exact ⟨lo, hi, .whole hle, by rwa [hprobe]⟩
        · rintro ⟨l, h, hlead, hr⟩
          rcases hlead.cases_on with ⟨rfl, rfl⟩ | ⟨⟨x, hx⟩, -⟩ | ⟨⟨x, hx⟩, -⟩
          · rwa [hprobe] at hr
          · exact absurd (hprobe.symm.trans hx) (by simp)
          · exact absurd (hprobe.symm.trans hx) (by simp)
      · cases b with
        | true =>
          refine ihbelow.trans ⟨?_, ?_⟩
          · rintro ⟨l, h, hlead, hr⟩
            exact ⟨l, h, hlead.lower hle ⟨none, hprobe⟩, hr⟩
          · rintro ⟨l, h, hlead, hr⟩
            rcases hlead.cases_on with ⟨rfl, rfl⟩ | ⟨-, hlead⟩ | ⟨⟨x, hx⟩, -⟩
            · rw [hprobe] at hr
              exact absurd hr hnone
            · exact ⟨l, h, hlead, hr⟩
            · exact absurd (hprobe.symm.trans hx) (by simp)
        | false =>
          refine ihabove.trans ⟨?_, ?_⟩
          · rintro ⟨l, h, hlead, hr⟩
            exact ⟨l, h, hlead.upper hle ⟨none, hprobe⟩, hr⟩
          · rintro ⟨l, h, hlead, hr⟩
            rcases hlead.cases_on with ⟨rfl, rfl⟩ | ⟨⟨x, hx⟩, -⟩ | ⟨-, hlead⟩
            · rw [hprobe] at hr
              exact absurd hr hnone
            · exact absurd (hprobe.symm.trans hx) (by simp)
            · exact ⟨l, h, hlead, hr⟩
      · exact iff_of_true (hfound _ _ _ hprobe) ⟨lo, hi, .whole hle, by rw [hprobe]; exact hfound _ _ _ hprobe⟩
    · refine iff_of_false hnone ?_
      rintro ⟨l, h, hlead, -⟩
      have := hlead.halves.bounds hlead.nonempty
      have := hlead.nonempty
      omega

/-- **The search finds something exactly if some middle that the probes lead to is found.** -/
theorem search_found_iff (hfuel : (hi - lo + 1).toNat ≤ fuel) :
    (∃ r, search probe fuel lo hi = .ok (some r)) ↔
      ∃ l h, LeadsTo (fun k => ∃ x, probe k = .ok (x, false)) (fun k => ∃ x, probe k = .ok (x, true)) lo hi l h ∧
        ∃ r b, probe (middle l h) = .ok (some r, b) := by
  have houtcome : ∀ k, (∃ r, (probe k).map Prod.fst = .ok (some r)) ↔ ∃ r b, probe k = .ok (some r, b) := by
    intro k
    rcases probe k with e | ⟨x, b⟩
    · simp [Except.map]
    · simp [Except.map]
  have hiff : (∃ r, search probe fuel lo hi = .ok (some r)) ↔ _ :=
    search_iff (G := fun result => ∃ r, result = .ok (some r)) (by simp) (fun _ r _ _ => ⟨r, rfl⟩) hfuel
  simpa only [houtcome] using hiff

/-- **The search goes wrong exactly if it does so at some middle that the probes lead to**, where none
    finds something. -/
theorem search_error_iff (hnone : ∀ k r b, probe k ≠ .ok (some r, b)) (hfuel : (hi - lo + 1).toNat ≤ fuel) :
    (∃ e, search probe fuel lo hi = .error e) ↔
      ∃ l h, LeadsTo (fun k => ∃ x, probe k = .ok (x, false)) (fun k => ∃ x, probe k = .ok (x, true)) lo hi l h ∧
        ∃ e, probe (middle l h) = .error e := by
  have houtcome : ∀ k, (∃ e, (probe k).map Prod.fst = .error e) ↔ ∃ e, probe k = .error e := by
    intro k
    rcases probe k with e | ⟨x, b⟩
    · simp [Except.map]
    · simp [Except.map]
  have hiff : (∃ e, search probe fuel lo hi = .error e) ↔ _ :=
    search_iff (G := fun result => ∃ e, result = .error e) (by simp) (fun k r b h => absurd h (hnone k r b)) hfuel
  simpa only [houtcome] using hiff

/-- Without a probe that finds something or goes wrong, the search finds nothing. -/
theorem search_nothing (hprobe : ∀ j, lo ≤ j → j ≤ hi → ∃ side, probe j = .ok (none, side)) :
    search probe fuel lo hi = .ok none := by
  induction fuel generalizing lo hi with
  | zero => rfl
  | succ fuel ih =>
    rw [search]
    split_ifs with hle
    · have hmiddle := middle_mem hle
      obtain ⟨side, hside⟩ := hprobe (middle lo hi) hmiddle.1 hmiddle.2
      rw [hside]
      cases side with
      | true => exact ih fun j hj hj' => hprobe j hj (by omega)
      | false => exact ih fun j hj hj' => hprobe j (by omega) hj'
    · rfl

/-- What stands at the start of the range is not missed if nothing points up. -/
theorem search_start {r : β} {b : Bool} (hfuel : (hi - lo + 1).toNat ≤ fuel) (hle : lo ≤ hi)
    (hstart : probe lo = .ok (some r, b)) (hprobe : ∀ j, lo ≤ j → j ≤ hi → probe j ≠ .ok (none, false)) :
    search probe fuel lo hi ≠ .ok none := by
  induction fuel generalizing hi with
  | zero => omega
  | succ fuel ih =>
    have hmiddle := middle_mem hle
    rw [search, if_pos hle]
    rcases hm : probe (middle lo hi) with e | ⟨_ | r', side⟩
    · simp
    · cases side with
      | true =>
        have hne : middle lo hi ≠ lo := by
          intro heq
          rw [heq, hstart] at hm
          cases hm
        exact ih (by omega) (by omega) fun j hj hj' => hprobe j hj (by omega)
      | false => exact absurd hm (hprobe _ hmiddle.1 hmiddle.2)
    · simp

/-- The end of the range is not probed if what is before it points down. -/
theorem search_inside (hlt : lo < hi) (hprobe : ∀ j, lo ≤ j → j < hi → ∃ side, probe j = .ok (none, side))
    (hlast : probe (hi - 1) = .ok (none, true)) : search probe fuel lo hi = .ok none := by
  induction fuel generalizing lo with
  | zero => rfl
  | succ fuel ih =>
    have hmiddle : lo ≤ middle lo hi ∧ middle lo hi < hi := by
      unfold middle
      omega
    obtain ⟨side, hside⟩ := hprobe (middle lo hi) hmiddle.1 hmiddle.2
    rw [search, if_pos (le_of_lt hlt), hside]
    cases side with
    | true => exact search_nothing fun j hj hj' => hprobe j hj (by omega)
    | false =>
      have hne : middle lo hi ≠ hi - 1 := by
        intro heq
        rw [heq, hlast] at hside
        cases hside
      exact ih (by omega) fun j hj => hprobe j (by omega)

/-- A point with all that is below before it and all that is above behind it is the middle of an
    interval that is led to.  The end of the range is no middle before the range is that point. -/
theorem leadsTo_first {k : ℤ} (hlo : lo ≤ k) (hhi : k ≤ hi) (hbelow : ∀ j, lo ≤ j → j < k → below j)
    (habove : ∀ j, k < j → j < hi → above j) :
    ∃ l h, LeadsTo below above lo hi l h ∧ middle l h = k := by
  obtain ⟨n, hn⟩ : ∃ n, n = (hi - lo).toNat := ⟨_, rfl⟩
  induction n using Nat.strongRecOn generalizing lo hi with
  | _ n ih =>
    have hle : lo ≤ hi := le_trans hlo hhi
    have hmiddle := middle_mem hle
    rcases lt_trichotomy k (middle lo hi) with hlt | heq | hgt
    · obtain ⟨l, h, hlead, hk⟩ := ih _ (by omega) hlo (show k ≤ middle lo hi - 1 by omega) hbelow
        (fun j hj hj' => habove j hj (by omega)) rfl
      have hend : middle lo hi < hi := by
        unfold middle at hlt ⊢
        omega
      exact ⟨l, h, hlead.lower hle (habove _ hlt hend), hk⟩
    · exact ⟨lo, hi, .whole hle, heq.symm⟩
    · obtain ⟨l, h, hlead, hk⟩ := ih _ (by omega) (show middle lo hi + 1 ≤ k by omega) hhi
        (fun j hj => hbelow j (by omega)) habove rfl
      exact ⟨l, h, hlead.upper hle (hbelow _ hmiddle.1 hgt), hk⟩

end Bisect
