/-
  The transactions on which `IsExecutable` panics.

  A vote with an entry that starts with a bar stops the parser, and a PoDF without one of its
  headers is read all the same.  **`IsExecutable` accepts exactly the admitted transactions, and
  panics exactly on these two kinds** (`isExecutable_returns_iff`, `isExecutable_panics_iff`).
-/
import Timbre.Wallet.Readiness
import Timbre.Wallet.VoteTexts

namespace Timbre
namespace WalletManager

open Call

variable {E : Env} {bRound : Int64} {wm wm' wm₁ : WalletManager} {tx : Transaction} {w : Wallet} {s : String}
  {entries : List String}

/-- The error is a panic. -/
def IsPanic (e : Err) : Prop := ∃ m, e = .panic m

@[simp]
theorem isPanic_error (m : String) : ¬ IsPanic (.error m) := by
  rintro ⟨_, ⟨⟩⟩

@[simp]
theorem isPanic_panic (m : String) : IsPanic (.panic m) := ⟨m, rfl⟩

/-- The transaction is signed, has the right nonce and can pay its fee. -/
structure Chargeable (E : Env) (bRound : Int64) (tx : Transaction) (wm : WalletManager) : Prop where
  sign : E.hasValidSign tx = none
  nonce : tx.nonce = (wm.wallet tx.senderId).nonce + 1
  fee : txFee E tx bRound ≤ (wm.wallet tx.senderId).balance

/-- An entry starts with a bar, and those before it are valid. -/
def BarEntry (w : Wallet) (entries : List String) : Prop :=
  ∃ pre s post, entries = pre ++ s :: post ∧ (∀ t ∈ pre, EntryValid w t) ∧ s.toList.head? = some '|'

/-- The transaction has a payload on which its validator panics. -/
inductive Broken (E : Env) (tx : Transaction) (w : Wallet) : Prop
  | vote {entries : List String} : tx.type = .vote → E.votePayload tx.payload = .ok entries →
      BarEntry w entries → Broken E tx w
  | podf {h1 h2 : Option Header} : tx.type = .podf → E.podfPayload tx.payload = .ok (h1, h2) →
      h1 = none ∨ h2 = none → Broken E tx w

/-- `IsExecutable` panics on the transaction. -/
structure Panics (E : Env) (bRound : Int64) (tx : Transaction) (wm : WalletManager) : Prop where
  chargeable : Chargeable E bRound tx wm
  broken : Broken E tx (wm.wallet tx.senderId)

theorem Admitted.chargeable (h : Admitted E bRound tx wm) : Chargeable E bRound tx wm := by
  cases h with
  | plain _ h => exact ⟨h.sign, h.nonce, h.fee⟩
  | vote _ _ h => exact ⟨h.sign, h.nonce, h.fee⟩
  | podf _ _ _ h => exact ⟨h.sign, h.nonce, h.fee⟩

/-! ## Wallets that have been added do not matter -/

theorem panics_grow (hg : Grow wm wm₁) : Panics E bRound tx wm₁ ↔ Panics E bRound tx wm := by
  constructor
  · rintro ⟨hc, hb⟩
    exact ⟨⟨hc.sign, hg.wallet ▸ hc.nonce, hg.wallet ▸ hc.fee⟩, hg.wallet ▸ hb⟩
  · rintro ⟨hc, hb⟩
    exact ⟨⟨hc.sign, hg.wallet ▸ hc.nonce, hg.wallet ▸ hc.fee⟩, hg.wallet ▸ hb⟩

theorem admitted_grow (hg : Grow wm wm₁) : Admitted E bRound tx wm₁ ↔ Admitted E bRound tx wm := by
  refine ⟨.of_grow hg, fun h => ?_⟩
  cases h with
  | plain hp h => exact .plain hp (h.congr hg.wallet hg.executor)
  | vote ht hf h => exact .vote ht hf ⟨h.sign, hg.wallet ▸ h.nonce, hg.wallet ▸ h.fee, hg.wallet ▸ h.entries⟩
  | podf h' ht hf h =>
    exact .podf h' ht hf ⟨h.sign, h.header, hg.keys h.wallet, hg.wallet ▸ h.candidate, hg.wallet ▸ h.nonce,
      hg.wallet ▸ h.fee, hg.wallet ▸ h.notBanned, hg.wallet ▸ h.notReported⟩

/-! ## Votes -/

theorem not_entryValid_bar (h : s.toList.head? = some '|') : ¬ EntryValid w s := by
  obtain ⟨m, hm⟩ := parseVote_panic_iff.2 h
  rintro (⟨hp, -⟩ | ⟨hp, -, -⟩)
  · rw [hm] at hp
    cases hp
  · rw [hm] at hp
    cases hp

theorem not_barEntry (h : ∀ t ∈ entries, EntryValid w t) : ¬ BarEntry w entries := by
  rintro ⟨pre, s, post, rfl, -, hbar⟩
  exact not_entryValid_bar hbar (h s (by simp))

/-- The first entry that is not valid decides. -/
theorem barEntry_iff {pre post : List String} (hpre : ∀ t ∈ pre, EntryValid w t) (hs : ¬ EntryValid w s) :
    BarEntry w (pre ++ s :: post) ↔ s.toList.head? = some '|' := by
  refine ⟨?_, fun h => ⟨pre, s, post, rfl, hpre, h⟩⟩
  rintro ⟨pre', s', post', hsplit, hpre', hbar⟩
  have hs' := not_entryValid_bar (w := w) hbar
  rcases List.append_eq_append_iff.1 hsplit with ⟨as, hl, hr⟩ | ⟨as, hl, hr⟩
  · cases as with
    | nil =>
      obtain ⟨rfl, -⟩ := List.cons.inj hr
      exact hbar
    | cons a as =>
      obtain ⟨rfl, -⟩ := List.cons.inj hr
      exact absurd (hpre' s (by simp [hl])) hs
  · cases as with
    | nil =>
      obtain ⟨rfl, -⟩ := List.cons.inj hr
      exact hbar
    | cons a as =>
      obtain ⟨rfl, -⟩ := List.cons.inj hr
      exact absurd (hpre s' (by simp [hl])) hs'

/-- The check of an entry panics exactly when the parser does. -/
theorem checkEntry_panics (w : Wallet) (s : String) (wm : WalletManager) :
    Spec (checkEntry w s) wm (fun _ _ => EntryValid w s)
      fun e _ => ¬ EntryValid w s ∧ (IsPanic e ↔ s.toList.head? = some '|') := by
  have hpanic : Spec (checkEntry w s) wm (fun _ _ => True) fun e _ => IsPanic e ↔ s.toList.head? = some '|' := by
    unfold checkEntry
    rcases hparse : parseVote s with e | ⟨action, percent, candID⟩
    · cases e with
      | panic m => exact iff_of_true (isPanic_panic m) (parseVote_panic_iff.1 ⟨m, hparse⟩)
      | error m =>
        refine iff_of_false (isPanic_error m) fun hbar => ?_
        obtain ⟨m', hm'⟩ := parseVote_panic_iff.2 hbar
        cases hparse.symm.trans hm'
    · have hbar : s.toList.head? ≠ some '|' := by
        intro hbar
        obtain ⟨m', hm'⟩ := parseVote_panic_iff.2 hbar
        cases hparse.symm.trans hm'
      cases action with
      | vote => exact spec_check.2 ⟨fun _ => trivial, fun e _ => iff_of_false (isPanic_error e) hbar⟩
      | unvote => exact spec_check.2 ⟨fun _ => trivial, fun e _ => iff_of_false (isPanic_error e) hbar⟩
  exact ((checkEntry_spec w s wm).and hpanic).mono (fun _ _ h => h.1.2) fun _ _ h => ⟨h.1.2, h.2⟩

theorem checkEntries_panics (w : Wallet) (entries : List String) (wm : WalletManager) :
    Spec (each (checkEntry w) entries) wm (fun _ _ => ¬ BarEntry w entries)
      fun e _ => IsPanic e ↔ BarEntry w entries := by
  have hcheck : ∀ s ∈ entries, ∀ wm₁, True → Spec (checkEntry w s) wm₁ (fun _ _ => True ∧ EntryValid w s)
      fun e _ => ¬ EntryValid w s ∧ (IsPanic e ↔ s.toList.head? = some '|') := fun s _ wm₁ _ =>
    (checkEntry_panics w s wm₁).mono (fun _ _ h => ⟨trivial, h⟩) fun _ _ h => h
  refine (each_spec hcheck trivial).mono (fun _ _ h => ?_) ?_
  · exact not_barEntry h.2.forall
  · rintro e wm' ⟨pre, s, post, wm₁, rfl, hpre, -, hs, hpanic⟩
    rw [hpanic, barEntry_iff hpre.forall hs]

/-- `ValidateVote` of a vote that can be paid. -/
theorem validateVote_panics (hc : Chargeable E bRound tx wm) :
    Spec (validateVote E tx bRound) wm
      (fun _ _ => ∀ entries, E.votePayload tx.payload = .ok entries → ¬ BarEntry (wm.wallet tx.senderId) entries)
      fun e _ => IsPanic e ↔ ∃ entries, E.votePayload tx.payload = .ok entries ∧
        BarEntry (wm.wallet tx.senderId) entries := by
  have hself : tx.senderId ∈ (wm.put tx.senderId).keys := Finset.mem_insert_self _ _
  simp only [validateVote, spec_bind, spec_check, spec_checkAndPut, spec_getWallet, spec_ite, spec_throw]
  refine ⟨fun _ => ?_, fun e he => absurd (hc.sign.symm.trans he) (by simp)⟩
  rw [if_pos hself]
  refine ite_intro (fun h => (Wallet.check_of_nonce hc.nonce h).elim) fun _ => ?_
  refine ite_intro (fun h => (Int64.not_lt.2 hc.fee h).elim) fun _ => ?_
  split
  · rename_i e he
    simp [he]
  · rename_i entries hentries
    refine (checkEntries_panics (wm.wallet tx.senderId) entries _).mono ?_ ?_
    · intro _ _ h entries' h'
      cases hentries.symm.trans h'
      exact h
    · intro e _ h
      rw [h]
      simp [hentries]

/-! ## PoDFs -/

/-- `ValidatePodf` of a signed PoDF. -/
theorem validatePodf_panics (hc : Chargeable E bRound tx wm) :
    Spec (validatePodf E tx bRound) wm
      (fun _ _ => ∀ h1 h2, E.podfPayload tx.payload = .ok (h1, h2) → ¬ (h1 = none ∨ h2 = none))
      fun e _ => IsPanic e ↔ ∃ h1 h2, E.podfPayload tx.payload = .ok (h1, h2) ∧ (h1 = none ∨ h2 = none) := by
  have hself : tx.senderId ∈ (wm.put tx.senderId).keys := Finset.mem_insert_self _ _
  simp only [validatePodf, spec_bind, spec_check]
  refine ⟨fun _ => ?_, fun e he => absurd (hc.sign.symm.trans he) (by simp)⟩
  split
  · rename_i e he
    simp [he]
  · rename_i h1 h2 hp
    simp only [spec_bind, spec_ite, spec_throw, spec_pure, spec_check, spec_getWallet, spec_checkAndPut,
      if_pos hself, hp, Except.ok.injEq, Prod.mk.injEq, isPanic_error, false_iff]
    have hboth : ¬ ∃ h1' h2', (some h1 = h1' ∧ some h2 = h2') ∧ (h1' = none ∨ h2' = none) := by
      rintro ⟨_, _, ⟨rfl, rfl⟩, h | h⟩ <;> cases h
    have hnone : ∀ h1' h2', some h1 = h1' ∧ some h2 = h2' → ¬ (h1' = none ∨ h2' = none) :=
      fun h1' h2' h h' => hboth ⟨h1', h2', h, h'⟩
    refine ite_intro (fun _ => hboth) fun _ => ite_intro (fun _ => hboth) fun _ => ?_
    refine ⟨fun _ => ⟨fun _ => ?_, fun _ _ => hboth⟩, fun _ _ => hboth⟩
    refine ite_intro (fun _ => ite_intro (fun _ => hboth) fun _ => ?_) fun _ => hboth
    refine ite_intro (fun _ => hboth) fun _ => ite_intro (fun _ => hboth) fun _ => ?_
    exact ite_intro (fun _ => hboth) fun _ => ite_intro (fun _ => hboth) fun _ => hnone
  · rename_i hne hp
    rename_i h
    obtain ⟨h1, h2⟩ := h
    refine iff_of_true (isPanic_panic _) ⟨h1, h2, hp, ?_⟩
    cases h1 with
    | none => exact .inl rfl
    | some h1 =>
      cases h2 with
      | none => exact .inr rfl
      | some h2 => exact (hne h1 h2 rfl).elim

/-! ## Transactions -/

theorem broken_vote_iff (htype : tx.type = .vote) :
    Broken E tx w ↔ ∃ entries, E.votePayload tx.payload = .ok entries ∧ BarEntry w entries := by
  constructor
  · rintro (⟨-, hp, h⟩ | ⟨ht, -, -⟩)
    · exact ⟨_, hp, h⟩
    · cases htype.symm.trans ht
  · rintro ⟨entries, hp, h⟩
    exact .vote htype hp h

theorem broken_podf_iff (htype : tx.type = .podf) :
    Broken E tx w ↔ ∃ h1 h2, E.podfPayload tx.payload = .ok (h1, h2) ∧ (h1 = none ∨ h2 = none) := by
  constructor
  · rintro (⟨ht, -, -⟩ | ⟨-, hp, h⟩)
    · cases htype.symm.trans ht
    · exact ⟨_, _, hp, h⟩
  · rintro ⟨h1, h2, hp, h⟩
    exact .podf htype hp h

theorem not_broken (hvote : tx.type ≠ .vote) (hpodf : tx.type ≠ .podf) : ¬ Broken E tx w := by
  rintro (⟨ht, -, -⟩ | ⟨ht, -, -⟩)
  · exact hvote ht
  · exact hpodf ht

/-- What is known after a check of the transaction. -/
abbrev Judged (E : Env) (bRound : Int64) (tx : Transaction) (wm : WalletManager) (c : WM Unit) (s : WalletManager) :
    Prop :=
  Spec c s (fun _ _ => ¬ Panics E bRound tx wm)
    fun e _ => ¬ Admitted E bRound tx wm ∧ (IsPanic e ↔ Panics E bRound tx wm)

/-- A transaction that is not charged is rejected. -/
theorem judged_uncharged {m : String} (h : ¬ Chargeable E bRound tx wm) :
    ¬ Admitted E bRound tx wm ∧ (IsPanic (.error m) ↔ Panics E bRound tx wm) :=
  ⟨fun ha => h ha.chargeable, iff_of_false (isPanic_error m) fun hb => h hb.chargeable⟩

/-- A check that only transactions fail which are not admitted. -/
theorem judged_guard {p : Prop} [Decidable p] {m : String} (hnot : ¬ Panics E bRound tx wm)
    (h : p → ¬ Admitted E bRound tx wm) :
    Judged E bRound tx wm (if p then throw (.error m) else pure ()) wm₁ := by
  rw [Judged, spec_ite, spec_throw, spec_pure]
  exact ite_intro (fun hp => ⟨h hp, iff_of_false (isPanic_error m) hnot⟩) fun _ => hnot

theorem payerChecks_judged (hsign : E.hasValidSign tx = none) (hg : Grow wm wm₁)
    (hkey : tx.senderId ∉ wm₁.keys → tx.nonce ≠ 1) :
    Judged E bRound tx wm (payerChecks E tx bRound wm.executor) wm₁ := by
  simp only [Judged, payerChecks, spec_bind, spec_getWallet, spec_ite, spec_throw]
  refine ite_intro (fun hmem => ?_) fun hmem => judged_uncharged fun hc => ?_
  swap
  · have hnonce := hc.nonce
    rw [← hg.wallet, wallet_absent hmem] at hnonce
    exact hkey hmem hnonce
  rw [hg.wallet]
  refine ite_intro (fun h => judged_uncharged fun hc => Wallet.check_of_nonce hc.nonce h) fun hnonce => ?_
  refine ite_intro (fun h => judged_uncharged fun hc => Int64.not_lt.2 hc.fee h) fun hfee => ?_
  have hc : Chargeable E bRound tx wm := ⟨hsign, Wallet.nonce_of_check hnonce, Int64.not_lt.1 hfee⟩
  have hc₁ : Chargeable E bRound tx wm₁ := ⟨hsign, hg.wallet ▸ hc.nonce, hg.wallet ▸ hc.fee⟩
  have hpanics : Panics E bRound tx wm ↔ Broken E tx (wm₁.wallet tx.senderId) := by
    rw [hg.wallet]
    exact ⟨fun h => h.broken, fun h => ⟨hc, h⟩⟩
  have hsound : tx.type ≠ .vote → tx.type ≠ .podf → ¬ Panics E bRound tx wm := fun hvote hpodf h =>
    not_broken hvote hpodf h.broken
  have hplain : Admitted E bRound tx wm → tx.type ≠ .vote → tx.type ≠ .podf → Executable E bRound tx wm := by
    rintro (⟨-, h⟩ | ⟨ht, -, -⟩ | ⟨_, ht, -, -⟩) hvote hpodf
    · exact h
    · exact absurd ht hvote
    · exact absurd ht hpodf
  split
  all_goals rename_i htype
  · refine judged_guard (hsound (by simp [htype]) (by simp [htype])) fun h ha => ?_
    refine (hplain ha (by simp [htype]) (by simp [htype])).becomeCandidate htype ?_
    simpa [State.checkCandByAdd] using h
  · refine judged_guard (hsound (by simp [htype]) (by simp [htype])) fun h ha => ?_
    have hcand := (hplain ha (by simp [htype]) (by simp [htype])).quitCandidate htype
    exact absurd hcand (by simpa [State.checkCandByAdd] using h)
  · refine judged_guard (hsound (by simp [htype]) (by simp [htype])) fun h ha => ?_
    exact Int64.not_lt.2 ((hplain ha (by simp [htype]) (by simp [htype])).transfer htype) h
  · rw [hpanics]
    refine ((validatePodf_panics hc₁).and (validatePodf_decides E bRound tx wm₁)).mono ?_ ?_
    · rintro _ _ ⟨h, -⟩
      rw [broken_podf_iff htype]
      rintro ⟨h1, h2, hp, hmissing⟩
      exact h h1 h2 hp hmissing
    · rintro e _ ⟨hpanic, hnot⟩
      refine ⟨fun ha => hnot ?_, hpanic.trans (broken_podf_iff htype).symm⟩
      rcases (admitted_grow hg).2 ha with ⟨ht, -⟩ | ⟨ht, -, -⟩ | ⟨h, -, hf, hr⟩
      · simp [Plain, htype] at ht
      · cases htype.symm.trans ht
      · exact ⟨hf, h, hr⟩
  · rw [hpanics]
    refine ((validateVote_panics hc₁).and (validateVote_decides E bRound tx wm₁)).mono ?_ ?_
    · rintro _ _ ⟨h, -⟩
      rw [broken_vote_iff htype]
      rintro ⟨entries, hp, hbar⟩
      exact h entries hp hbar
    · rintro e _ ⟨hpanic, hnot⟩
      refine ⟨fun ha => hnot ?_, hpanic.trans (broken_vote_iff htype).symm⟩
      rcases (admitted_grow hg).2 ha with ⟨ht, -⟩ | ⟨-, hf, hv⟩ | ⟨_, ht, -, -⟩
      · simp [Plain, htype] at ht
      · exact ⟨hf, hv⟩
      · cases htype.symm.trans ht
  · refine ⟨?_, iff_of_false (isPanic_error _) (hsound (by simp [htype]) (by simp [htype]))⟩
    rintro (⟨ht, -⟩ | ⟨ht, -, -⟩ | ⟨_, ht, -, -⟩)
    · simp [Plain, htype] at ht
    · cases htype.symm.trans ht
    · cases htype.symm.trans ht

/-- **`IsExecutable` fails on what is not admitted, and panics on what breaks.** -/
theorem isExecutable_judged (E : Env) (bRound : Int64) (tx : Transaction) (wm : WalletManager) :
    Judged E bRound tx wm (isExecutable E tx bRound) wm := by
  rw [Judged, isExecutable_eq, spec_bind, spec_check]
  refine ⟨fun hsign => ?_, fun e he => judged_uncharged fun hc => ?_⟩
  · rw [spec_bind, spec_get]
    refine spec_ite.2 (ite_intro (fun _ => spec_bind.2 ?_) fun hentry => ?_)
    · exact payerChecks_judged hsign (grow_put _ _) fun h => absurd (Finset.mem_insert_self _ _) h
    · refine payerChecks_judged hsign (.refl _) fun hmem hnonce => hentry ⟨?_, hnonce⟩
      simpa [checkEntryByAddress] using hmem
  · cases hc.sign.symm.trans he

theorem isExecutable_returns_iff :
    Returns (isExecutable E tx bRound) wm ↔ Admitted E bRound tx wm := by
  constructor
  · rintro ⟨_, _, h⟩
    exact ((isExecutable_admits E bRound tx wm).ok h).2
  · intro h
    exact (isExecutable_judged E bRound tx wm).returns_of fun _ _ h' => h'.1 h

theorem isExecutable_panics_iff :
    (∃ e s, isExecutable E tx bRound wm = (.error e, s) ∧ IsPanic e) ↔ Panics E bRound tx wm := by
  have hjudged := isExecutable_judged E bRound tx wm
  constructor
  · rintro ⟨e, s, h, hpanic⟩
    exact (hjudged.error h).2.1 hpanic
  · intro h
    rcases hcall : isExecutable E tx bRound wm with ⟨e | _, s⟩
    · exact ⟨e, s, rfl, (hjudged.error hcall).2.2 h⟩
    · exact absurd h (hjudged.ok hcall)

end WalletManager
end Timbre
