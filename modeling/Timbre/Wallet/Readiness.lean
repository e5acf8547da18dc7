/-
  When the items of a block can be applied.

  A transaction is ready if its payload is well formed and the wallets allow it
  (`returns_applyTransaction`); deals need the balances of their posters, and challenge-proof
  pairs a deal that is stored.  Of the wallets, a transaction reads the votes of its sender
  and the candidate flag of a reported miner; no other transaction than a vote or a candidate
  transaction changes them (`Framed`).
-/
import Timbre.Wallet.Journal

namespace Timbre

open Call

/-! ## Votes -/

namespace Wallet

/-- The wallet of a voter after an entry of a vote transaction. -/
def afterEntry (w : Wallet) (votedCand : String) : Wallet :=
  match parseVote votedCand with
  | .ok (.vote, percent, candID) => (w.executeVote percent candID).subVoteLeft percent
  | .ok (.unvote, percent, candID) => (w.executeUnvote percent candID).addVoteLeft percent
  | .error _ => w

/-- The wallets agree on the votes. -/
def SameVotes (w w' : Wallet) : Prop := w.voted = w'.voted ∧ w.voteLeft = w'.voteLeft

theorem SameVotes.symm {w w' : Wallet} (h : w.SameVotes w') : w'.SameVotes w := ⟨h.1.symm, h.2.symm⟩

@[simp]
theorem SameVotes.refl (w : Wallet) : w.SameVotes w := ⟨rfl, rfl⟩

theorem SameVotes.trans {w w₁ w' : Wallet} (h : w.SameVotes w₁) (h' : w₁.SameVotes w') :
    w.SameVotes w' := ⟨h.1.trans h'.1, h.2.trans h'.2⟩

theorem SameVotes.afterEntry {w w' : Wallet} (h : w.SameVotes w') (s : String) :
    (w.afterEntry s).SameVotes (w'.afterEntry s) := by
  obtain ⟨hv, hl⟩ := h
  unfold Wallet.afterEntry
  split
  · unfold executeVote subVoteLeft
    rw [hv]
    split_ifs <;> exact ⟨rfl, congrArg (· - _) hl⟩
  · unfold executeUnvote addVoteLeft
    rw [hv]
    dsimp only
    split_ifs <;> exact ⟨by simp [hv], congrArg (· + _) hl⟩
  · exact ⟨hv, hl⟩

theorem check_of_nonce {txNonce : UInt64} {w : Wallet} (h : txNonce = w.nonce + 1) :
    ¬ w.checkNonce txNonce = false := by
  simp [checkNonce, h]

end Wallet

namespace WalletManager

variable {E : Env} {bRound : Int64} {wm wm' wm₁ : WalletManager} {a c miner : Address} {tx : Transaction}
  {f : Wallet → Wallet}

/-- The entries of a vote transaction are valid one after the other. -/
def EntriesValid : Wallet → List String → Prop
  | _, [] => True
  | w, s :: cands => EntryValid w s ∧ EntriesValid (w.afterEntry s) cands

theorem entryValid_congr {w w' : Wallet} (h : w.SameVotes w') {s : String} (hs : EntryValid w s) :
    EntryValid w' s := by
  rcases hs with ⟨hp, hle⟩ | ⟨hp, hmem, hle⟩
  · exact .vote hp (h.2 ▸ hle)
  · exact .unvote hp (h.1 ▸ hmem) (h.1 ▸ hle)

theorem entriesValid_congr : ∀ {cands : List String} {w w' : Wallet}, w.SameVotes w' →
    EntriesValid w cands → EntriesValid w' cands
  | [], _, _, _, _ => trivial
  | s :: _, _, _, h, hs => ⟨entryValid_congr h hs.1, entriesValid_congr (h.afterEntry s) hs.2⟩

theorem sameVotes_addVotePower (wm : WalletManager) (voter : Wallet) (p : ℤ) (c a : Address) :
    ((wm.addVotePower E c p voter).wallet a).SameVotes (wm.wallet a) := by
  rw [wallet_addVotePower]
  split_ifs <;> exact ⟨rfl, rfl⟩

/-- An entry that is valid changes the votes of the voter. -/
theorem applyEntry_votes (voter : Address) (s : String) (wm : WalletManager) :
    Spec (applyEntry E voter s) wm
      (fun _ wm' => EntryValid (wm.wallet voter) s ∧
        (wm'.wallet voter).SameVotes ((wm.wallet voter).afterEntry s))
      fun _ _ => ¬ EntryValid (wm.wallet voter) s := by
  unfold applyEntry Wallet.afterEntry
  rw [spec_bind, spec_get, spec_bind]
  refine (checkEntry_spec (wm.wallet voter) s wm).mono ?_ fun _ _ h => h.2
  rintro _ wm ⟨rfl, hvalid⟩
  have hvalid' := hvalid
  rcases hvalid with ⟨h, -⟩ | ⟨h, -, -⟩
  · simp only [h, spec_modify, castVote]
    exact ⟨hvalid', (sameVotes_addVotePower _ _ _ _ voter).trans (by simp)⟩
  · simp only [h, spec_modify, castUnvote, subVotePower_eq_addVotePower]
    exact ⟨hvalid', (sameVotes_addVotePower _ _ _ _ voter).trans (by simp)⟩

/-- The entries of a vote transaction are applied exactly if they are valid one after the
    other. -/
theorem applyEntries_votes (voter : Address) : ∀ (cands : List String) (wm : WalletManager),
    Spec (each (applyEntry E voter) cands) wm (fun _ _ => EntriesValid (wm.wallet voter) cands)
      fun _ _ => ¬ EntriesValid (wm.wallet voter) cands
  | [], _ => trivial
  | s :: cands, wm => by
    rw [spec_each_cons]
    refine (applyEntry_votes voter s wm).mono ?_ fun _ _ h h' => h h'.1
    rintro _ wm₁ ⟨hs, hsame⟩
    refine (applyEntries_votes voter cands wm₁).mono (fun _ _ h => ⟨hs, ?_⟩) fun _ _ h h' => h ?_
    · exact entriesValid_congr hsame h
    · exact entriesValid_congr hsame.symm h'.2

/-! ## What a transaction leaves as it is -/

/-- The votes change in the wallets of `voters` only, and the candidate flags in those of
    `cands`. -/
structure Frame (voters cands : Set Address) (wm wm' : WalletManager) : Prop where
  votes : ∀ a ∉ voters, (wm'.wallet a).SameVotes (wm.wallet a)
  flag : ∀ a ∉ cands, (wm'.wallet a).isCandidate = (wm.wallet a).isCandidate

variable {voters cands : Set Address}

theorem Frame.refl (wm : WalletManager) : Frame voters cands wm wm := ⟨fun _ _ => .refl _, fun _ _ => rfl⟩

theorem Frame.trans (h : Frame voters cands wm wm₁) (h' : Frame voters cands wm₁ wm') :
    Frame voters cands wm wm' :=
  ⟨fun a ha => (h'.votes a ha).trans (h.votes a ha), fun a ha => (h'.flag a ha).trans (h.flag a ha)⟩

theorem Frame.mono {voters' cands' : Set Address} (h : Frame voters cands wm wm') (hv : voters ⊆ voters')
    (hc : cands ⊆ cands') : Frame voters' cands' wm wm' :=
  ⟨fun a ha => h.votes a fun h' => ha (hv h'), fun a ha => h.flag a fun h' => ha (hc h')⟩

theorem Frame.of_wallet (h : wm'.wallet = wm.wallet) : Frame voters cands wm wm' :=
  ⟨fun a _ => h ▸ .refl (wm'.wallet a), fun _ _ => by rw [h]⟩

theorem Frame.of_put (h : Frame voters cands (wm.put a) wm') : Frame voters cands wm wm' :=
  ⟨h.votes, h.flag⟩

theorem Frame.put (h : Frame voters cands wm wm') (a : Address) : Frame voters cands wm (wm'.put a) :=
  ⟨h.votes, h.flag⟩

theorem frame_modifyWallet (hv : a ∉ voters → (f (wm.wallet a)).SameVotes (wm.wallet a))
    (hc : a ∉ cands → (f (wm.wallet a)).isCandidate = (wm.wallet a).isCandidate) :
    Frame voters cands wm (wm.modifyWallet a f) := by
  refine ⟨fun b hb => ?_, fun b hb => ?_⟩ <;> by_cases hba : b = a
  · subst hba
    rw [wallet_modifyWallet_self]
    exact hv hb
  · rw [wallet_modifyWallet_of_ne hba]
    exact .refl _
  · subst hba
    rw [wallet_modifyWallet_self, hc hb]
  · rw [wallet_modifyWallet_of_ne hba]

theorem frame_reAssign (wm : WalletManager) (voter : Wallet) (d : Int64) :
    Frame voters cands wm (wm.reAssign E voter d) := by
  refine ⟨fun b _ => ?_, fun b _ => ?_⟩ <;> rw [wallet_reAssign] <;> split_ifs <;>
    first | rfl | exact ⟨rfl, rfl⟩

theorem frame_addVotePower (wm : WalletManager) (voter : Wallet) (p : ℤ) (c : Address) :
    Frame voters cands wm (wm.addVotePower E c p voter) := by
  refine ⟨fun b _ => sameVotes_addVotePower wm voter p c b, fun b _ => ?_⟩
  rw [wallet_addVotePower]
  split_ifs <;> rfl

theorem frame_credit (wm : WalletManager) (a : Address) (d : Int64) :
    Frame voters cands wm (wm.credit a E d) :=
  (frame_modifyWallet (fun _ => ⟨rfl, rfl⟩) fun _ => rfl).trans (frame_reAssign _ _ _)

theorem frame_debit (wm : WalletManager) (a : Address) (d : Int64) :
    Frame voters cands wm (wm.debit a E d) := debit_eq_credit wm a E d ▸ frame_credit wm a (-d)

theorem frame_castVote (wm : WalletManager) {voter : Address} (hv : voter ∈ voters) (c : Address) (p : ℤ) :
    Frame voters cands wm (wm.castVote voter E c p) := by
  refine (frame_modifyWallet (fun h => absurd hv h) fun _ => ?_).trans (frame_addVotePower _ _ _ _)
  unfold Wallet.executeVote
  split_ifs <;> rfl

theorem frame_castUnvote (wm : WalletManager) {voter : Address} (hv : voter ∈ voters) (c : Address)
    (p : ℤ) : Frame voters cands wm (wm.castUnvote voter E c p) := by
  rw [castUnvote, subVotePower_eq_addVotePower]
  refine (frame_modifyWallet (fun h => absurd hv h) fun _ => ?_).trans (frame_addVotePower _ _ _ _)
  unfold Wallet.executeUnvote
  dsimp only
  split_ifs <;> rfl

theorem frame_nonce (wm : WalletManager) (a : Address) (g : UInt64 → UInt64) :
    Frame voters cands wm (wm.modifyWallet a fun w => { w with nonce := g w.nonce }) :=
  frame_modifyWallet (fun _ => ⟨rfl, rfl⟩) fun _ => rfl

/-- An entry of a vote transaction changes the votes of the voter; one that fails changes nothing. -/
theorem applyEntry_frame {voter : Address} (hv : voter ∈ voters) (s : String) (wm : WalletManager) :
    Spec (applyEntry E voter s) wm (fun _ wm' => Frame voters cands wm wm') fun _ wm' => wm' = wm := by
  unfold applyEntry
  rw [spec_bind, spec_get, spec_bind]
  refine (checkEntry_spec (wm.wallet voter) s wm).mono ?_ fun _ _ h => h.1
  rintro _ wm ⟨rfl, h⟩
  rcases h with ⟨h, -⟩ | ⟨h, -, -⟩
  · simp only [h, spec_modify]
    exact frame_castVote wm hv _ _
  · simp only [h, spec_modify]
    exact frame_castUnvote wm hv _ _

/-- The entries of a vote transaction change the votes of the voter. -/
theorem applyEntries_frame {voter : Address} (hv : voter ∈ voters) :
    ∀ (entries : List String) (wm : WalletManager), Spec (each (applyEntry E voter) entries) wm
      (fun _ wm' => Frame voters cands wm wm') fun _ _ => True
  | [], wm => .refl wm
  | s :: entries, wm => by
    rw [spec_each_cons]
    have hentry : Spec (applyEntry E voter s) wm (fun _ wm₁ => Frame voters cands wm wm₁) _ :=
      applyEntry_frame hv s wm
    refine hentry.mono (fun _ wm₁ h₁ => ?_) fun _ _ _ => trivial
    exact (applyEntries_frame hv entries wm₁).mono (fun _ _ h => h₁.trans h) fun _ _ h => h

/-! ## When a transaction is executable -/

/-- The transaction is a vote whose payload can be decoded. -/
def VoteFormed (E : Env) (tx : Transaction) : Prop := ∃ entries, E.votePayload tx.payload = .ok entries

/-- The transaction carries two signed headers of one height. -/
def PodfFormed (E : Env) (tx : Transaction) : Prop :=
  ∃ h1 h2, E.podfPayload tx.payload = .ok (some h1, some h2) ∧ h1.height = h2.height ∧
    h1.hash ≠ h2.hash ∧ E.validateHeaderSign h1 = none ∧ E.validateHeaderSign h2 = none

theorem isExecutable_decides (hsender : tx.senderId ∈ wm.keys) (htype : Plain tx) :
    Spec (isExecutable E tx bRound) wm (fun _ wm' => wm' = wm ∧ Executable E bRound tx wm)
      fun _ wm' => wm' = wm ∧ ¬ Executable E bRound tx wm := by
  refine ((isExecutable_spec hsender htype).and (?_ : Spec _ _ (fun _ _ => True)
    fun _ _ => ¬ Executable E bRound tx wm)).mono (fun _ _ h => h.1) fun _ _ h => ⟨h.1.1, h.2⟩
  have hentry : wm.checkEntryByAddress tx.senderId = true := by simpa [checkEntryByAddress]
  rcases htype with h | h | h <;>
    simp only [isExecutable, spec_bind, spec_check, spec_get, hentry, Bool.true_eq_false, false_and,
      if_false, spec_pure, spec_getWallet, if_pos hsender, spec_ite, spec_throw, h] <;>
    refine ⟨fun hsign => ?_, fun e he hx => by simp [hx.sign] at he⟩ <;>
    split_ifs with hnonce hfee hlast <;> try trivial
  all_goals try exact fun hx => Wallet.check_of_nonce hx.nonce hnonce
  all_goals try exact fun hx => Int64.not_lt.2 hx.fee hfee
  · exact fun hx => Int64.not_lt.2 (hx.transfer h) hlast
  · exact fun hx => hx.becomeCandidate h (by simpa [State.checkCandByAdd] using hlast)
  · exact fun hx => absurd (hx.quitCandidate h) (by simpa [State.checkCandByAdd] using hlast)

theorem validateVote_decides (E : Env) (bRound : Int64) (tx : Transaction) (wm : WalletManager) :
    Spec (validateVote E tx bRound) wm (fun _ _ => VoteFormed E tx)
      fun _ _ => ¬ (VoteFormed E tx ∧ Votable E bRound tx wm) := by
  have hself : tx.senderId ∈ (wm.put tx.senderId).keys := Finset.mem_insert_self _ _
  simp only [validateVote, spec_bind, spec_check, spec_checkAndPut, spec_getWallet, spec_ite,
    spec_throw]
  refine ⟨fun hsign => ?_, fun e he h => by simp [h.2.sign] at he⟩
  rw [if_pos hself]
  split_ifs with hnonce hfee
  · exact fun h => Wallet.check_of_nonce h.2.nonce hnonce
  · exact fun h => Int64.not_lt.2 h.2.fee hfee
  split
  · rename_i e he
    rintro ⟨⟨entries, hentries⟩, -⟩
    simp [he] at hentries
  · rename_i entries hentries
    have hcheck : ∀ s ∈ entries, ∀ wm₁, True → Spec (checkEntry (wm.wallet tx.senderId) s) wm₁
        (fun _ _ => True ∧ True) fun _ _ => ¬ EntryValid (wm.wallet tx.senderId) s := fun s _ wm₁ _ =>
      (checkEntry_spec _ _ _).mono (fun _ _ _ => ⟨trivial, trivial⟩) fun _ _ h => h.2
    refine (each_spec hcheck trivial).mono (fun _ _ _ => ⟨entries, hentries⟩) ?_
    rintro e wm' ⟨pre, s, post, wm₁, rfl, -, -, hs⟩ h
    refine hs (h.2.entries s ?_)
    simp [votedCands, hentries]

theorem validatePodf_decides (E : Env) (bRound : Int64) (tx : Transaction) (wm : WalletManager) :
    Spec (validatePodf E tx bRound) wm (fun _ _ => PodfFormed E tx)
      fun _ _ => ¬ (PodfFormed E tx ∧ ∃ h, Reportable E bRound tx wm h) := by
  have hself : tx.senderId ∈ (wm.put tx.senderId).keys := Finset.mem_insert_self _ _
  simp only [validatePodf, spec_bind, spec_check]
  refine ⟨fun hsign => ?_, fun e he => ?_⟩
  · split
    · rename_i e he
      rintro ⟨⟨h1, h2, hp, -⟩, -⟩
      simp [he] at hp
    · rename_i h1 h2 hp
      have hrep : ∀ h, Reportable E bRound tx wm h → h = h1 := fun h hx => by
        have := hx.header
        simpa [reportedHeader, hp, eq_comm] using this
      have hform : PodfFormed E tx → h1.height = h2.height ∧ h1.hash ≠ h2.hash ∧
          E.validateHeaderSign h1 = none ∧ E.validateHeaderSign h2 = none := by
        rintro ⟨h1', h2', hp', hx⟩
        rw [hp] at hp'
        cases hp'
        exact hx
      simp only [spec_bind, spec_ite, spec_throw, spec_pure, spec_check, spec_getWallet,
        spec_checkAndPut, if_pos hself, wallet_put]
      refine ite_intro (fun hheight h => hheight (hform h.1).1) fun hheight => ?_
      refine ite_intro (fun hhash h => (hform h.1).2.1 hhash) fun hhash => ?_
      refine ⟨fun hs1 => ⟨fun hs2 => ?_, fun e he h => ?_⟩, fun e he h => ?_⟩
      · refine ite_intro (fun hkey => ?_) fun hkey => ?_
        · refine ite_intro (fun hcand => ?_) fun _ => ?_
          · rintro ⟨-, h, hx⟩
            obtain rfl := hrep h hx
            simp [hx.candidate] at hcand
          refine ite_intro (fun hnonce => ?_) fun _ => ?_
          · rintro ⟨-, _, hx⟩
            exact Wallet.check_of_nonce hx.nonce hnonce
          refine ite_intro (fun hfee => ?_) fun _ => ?_
          · rintro ⟨-, _, hx⟩
            exact Int64.not_lt.2 hx.fee hfee
          refine ite_intro (fun hban => ?_) fun _ => ?_
          · rintro ⟨-, h, hx⟩
            obtain rfl := hrep h hx
            exact Int64.not_le.2 hx.notBanned hban
          refine ite_intro (fun hreported => ?_) fun _ => ?_
          · rintro ⟨-, h, hx⟩
            obtain rfl := hrep h hx
            simp [hx.notReported] at hreported
          · exact ⟨h1, h2, hp, not_not.1 hheight, hhash, hs1, hs2⟩
        · rintro ⟨-, h, hx⟩
          obtain rfl := hrep h hx
          exact hkey hx.wallet
      · exact absurd ((hform h.1).2.2.2.symm.trans he) (by simp)
      · exact absurd ((hform h.1).2.2.1.symm.trans he) (by simp)
    · rename_i hne hp'
      rintro ⟨⟨h1, h2, hp, -⟩, -⟩
      rw [hp] at hp'
      cases hp'
      exact hne h1 h2 rfl
  · rintro ⟨-, h, hx⟩
    simp [hx.sign] at he

theorem Votable.of_grow (hg : Grow wm wm₁) (h : Votable E bRound tx wm₁) : Votable E bRound tx wm :=
  ⟨h.sign, hg.wallet ▸ h.nonce, hg.wallet ▸ h.fee, hg.wallet ▸ h.entries⟩

theorem Reportable.of_grow {h : Header} (hg : Grow wm wm₁) (hr : Reportable E bRound tx wm₁ h) :
    Reportable E bRound tx wm h where
  sign := hr.sign
  header := hr.header
  wallet := by
    by_contra hmem
    have hcand := hr.candidate
    rw [hg.wallet, wallet_absent hmem] at hcand
    cases hcand
  candidate := hg.wallet ▸ hr.candidate
  nonce := hg.wallet ▸ hr.nonce
  fee := hg.wallet ▸ hr.fee
  notBanned := hg.wallet ▸ hr.notBanned
  notReported := hg.wallet ▸ hr.notReported

/-- What `IsExecutable` has checked when it accepts a transaction. -/
inductive Admitted (E : Env) (bRound : Int64) (tx : Transaction) (wm : WalletManager) : Prop
  | plain : Plain tx → Executable E bRound tx wm → Admitted E bRound tx wm
  | vote : tx.type = .vote → VoteFormed E tx → Votable E bRound tx wm → Admitted E bRound tx wm
  | podf (h : Header) : tx.type = .podf → PodfFormed E tx → Reportable E bRound tx wm h →
      Admitted E bRound tx wm

/-- **`IsExecutable` adds wallets at most.** -/
theorem isExecutable_admits (E : Env) (bRound : Int64) (tx : Transaction) (wm : WalletManager) :
    Spec (isExecutable E tx bRound) wm (fun _ wm' => Grow wm wm' ∧ Admitted E bRound tx wm)
      fun _ wm' => Grow wm wm' := by
  have hrest : ∀ wm₁, Grow wm wm₁ → Spec (payerChecks E tx bRound wm.executor) wm₁
      (fun _ wm' => Grow wm wm' ∧ (E.hasValidSign tx = none → Admitted E bRound tx wm))
      fun _ wm' => Grow wm wm' := by
    intro wm₁ hg
    simp only [payerChecks, spec_bind, spec_getWallet, spec_ite, spec_throw]
    refine ite_intro (fun hmem => ?_) fun _ => hg
    refine ite_intro (fun _ => hg) fun hnonce => ite_intro (fun _ => hg) fun hfee => ?_
    rw [hg.wallet] at hnonce hfee ⊢
    have hn := Wallet.nonce_of_check hnonce
    have hf := Int64.not_lt.1 hfee
    split
    all_goals rename_i htype
    · rw [spec_ite, spec_throw, spec_pure]
      refine ite_intro (fun _ => hg) fun hcand => ⟨hg, fun hsign => .plain (.inr (.inl htype)) ?_⟩
      exact ⟨hsign, hn, hf, by simp [htype], fun _ => by simpa [State.checkCandByAdd] using hcand,
        by simp [htype]⟩
    · rw [spec_ite, spec_throw, spec_pure]
      refine ite_intro (fun _ => hg) fun hcand => ⟨hg, fun hsign => .plain (.inr (.inr htype)) ?_⟩
      exact ⟨hsign, hn, hf, by simp [htype], by simp [htype],
        fun _ => by simpa [State.checkCandByAdd] using hcand⟩
    · rw [spec_ite, spec_throw, spec_pure]
      refine ite_intro (fun _ => hg) fun hprice => ⟨hg, fun hsign => .plain (.inl htype) ?_⟩
      exact ⟨hsign, hn, hf, fun _ => Int64.not_lt.1 hprice, by simp [htype], by simp [htype]⟩
    · refine ((validatePodf_spec E bRound tx wm₁).and (validatePodf_decides E bRound tx wm₁)).mono ?_
        fun _ _ h => hg.trans h.1
      rintro _ _ ⟨⟨rfl, h, hvalid⟩, hformed⟩
      exact ⟨hg.put _, fun _ => .podf h htype hformed (hvalid.of_grow hg)⟩
    · refine ((validateVote_spec E bRound tx wm₁).and (validateVote_decides E bRound tx wm₁)).mono ?_
        fun _ _ h => hg.trans h.1
      rintro _ _ ⟨⟨rfl, hvalid⟩, hformed⟩
      exact ⟨hg.put _, fun _ => .vote htype hformed (hvalid.of_grow hg)⟩
    · exact hg
  rw [isExecutable_eq, spec_bind, spec_check]
  refine ⟨fun hsign => ?_, fun _ _ => .refl _⟩
  have hadmits : ∀ wm₁, Grow wm wm₁ → _ := fun wm₁ hg =>
    (hrest wm₁ hg).mono (fun _ _ h => (⟨h.1, h.2 hsign⟩ : Grow wm _ ∧ Admitted E bRound tx wm))
      fun _ _ h => h
  rw [spec_bind, spec_get]
  refine spec_ite.2 (ite_intro (fun _ => spec_bind.2 ?_) fun _ => hadmits _ (.refl _))
  exact hadmits _ (grow_put _ _)

theorem Executable.congr (h : Executable E bRound tx wm) (hw : wm'.wallet = wm.wallet)
    (he : wm'.executor = wm.executor) : Executable E bRound tx wm' where
  sign := h.sign
  nonce := hw ▸ h.nonce
  fee := hw ▸ h.fee
  transfer := hw ▸ h.transfer
  becomeCandidate := he ▸ h.becomeCandidate
  quitCandidate := he ▸ h.quitCandidate

theorem Admitted.of_grow (hg : Grow wm wm₁) (h : Admitted E bRound tx wm₁) : Admitted E bRound tx wm := by
  cases h with
  | plain hp h => exact .plain hp (h.congr hg.wallet.symm hg.executor.symm)
  | vote ht hf h => exact .vote ht hf (h.of_grow hg)
  | podf h' ht hf h => exact .podf h' ht hf (h.of_grow hg)

/-! ## When a transaction is applied -/

/-- The transaction can be applied. -/
inductive Ready (E : Env) (bRound : Int64) (tx : Transaction) (wm : WalletManager) : Prop
  | plain : Plain tx → Executable E bRound tx wm → Ready E bRound tx wm
  | vote : tx.type = .vote → VoteFormed E tx → Votable E bRound tx wm →
      EntriesValid (wm.wallet tx.senderId) (votedCands E tx) → Ready E bRound tx wm
  | podf (h : Header) : tx.type = .podf → PodfFormed E tx → Reportable E bRound tx wm h →
      Ready E bRound tx wm

theorem Ready.executable (h : Ready E bRound tx wm) (htype : Plain tx) : Executable E bRound tx wm := by
  unfold Plain at htype
  cases h with
  | plain _ h => exact h
  | vote ht _ _ _ => simp [ht] at htype
  | podf _ ht _ _ => simp [ht] at htype

/-- What a transaction does to the votes and the candidate flags. -/
structure Framed (tx : Transaction) (wm wm' : WalletManager) : Prop where
  frame : Frame {a | tx.type = .vote ∧ a = tx.senderId} {a | tx.isCandidateTx ∧ a = tx.senderId} wm wm'
  flag : tx.isCandidateTx → (wm'.wallet tx.senderId).isCandidate = decide (tx.type = .becomeCandidate)

theorem applyTransferTx_ready (htype : tx.type = .transfer) :
    Spec (applyTransferTx E tx (txFee E tx bRound) bRound) wm
      (fun _ wm' => Frame ∅ ∅ wm wm' ∧ Ready E bRound tx wm) fun _ _ => ¬ Ready E bRound tx wm := by
  have hs : tx.senderId ∈ ((wm.put tx.senderId).put tx.recipientId).keys := by simp
  have hr : tx.recipientId ∈ ((wm.put tx.senderId).put tx.recipientId).keys := by simp
  simp only [applyTransferTx, spec_bind, spec_checkAndPut, spec_getWallet]
  refine (isExecutable_decides hs (.inl htype)).mono ?_ fun _ _ h hready => ?_
  · rintro _ _ ⟨rfl, hexec⟩
    rw [if_pos hs, spec_subBalance, spec_setNonce]
    have h₁ := move_debit (E := E) hs (tx.price E bRound)
    have h₂ := h₁.trans (move_incNonce (h₁.mem hs))
    rw [if_pos (h₂.mem hr), spec_addBalance]
    have f₁ : Frame ∅ ∅ ((wm.put tx.senderId).put tx.recipientId) _ :=
      frame_debit (E := E) _ tx.senderId (tx.price E bRound)
    have f₂ := f₁.trans (frame_nonce _ tx.senderId (· + 1))
    have f₃ := f₂.trans (frame_credit (E := E) _ tx.recipientId tx.decibels)
    exact ⟨f₃.of_put.of_put, .plain (.inl htype) (hexec.congr rfl rfl)⟩
  · exact h.2 ((hready.executable (.inl htype)).congr rfl rfl)

/-- The execution of a candidate transaction on the DPOS changes no votes. -/
def ExecutesQuietly (execute : Address → WM Unit) : Prop := ∀ (a : Address) (wm : WalletManager),
  Spec (execute a) wm (fun _ wm' => Frame ∅ {a} wm wm') fun _ _ => True

theorem quietly_register : ExecutesQuietly executeRegisterCandidate := by
  intro a wm
  simp only [executeRegisterCandidate, spec_bind, spec_get]
  split
  · exact .of_wallet rfl
  · trivial

theorem quietly_quit : ExecutesQuietly executeQuitCandidate := by
  intro a wm
  simp only [executeQuitCandidate, spec_bind, spec_get]
  split
  · rename_i s _
    simp only [spec_modify]
    split_ifs
    · have hquit : Frame ∅ {a} { wm with executor := s }
          (({ wm with executor := s } : WalletManager).modifyWallet a fun w =>
            { w with isCandidate := false }) :=
        frame_modifyWallet (fun _ => ⟨rfl, rfl⟩) fun h => absurd rfl h
      exact ⟨hquit.votes, hquit.flag⟩
    · exact .of_wallet rfl
  · trivial

theorem applyCandidateTx_ready {execute : Address → WM Unit} {flag : Bool}
    (hexec : Executes E execute flag) (hquiet : ExecutesQuietly execute)
    (htype : tx.type = if flag then .becomeCandidate else .quitCandidate) :
    Spec (applyCandidateTx E execute flag tx (txFee E tx bRound) bRound) wm
      (fun _ wm' => (Frame ∅ {tx.senderId} wm wm' ∧ (wm'.wallet tx.senderId).isCandidate = flag) ∧
        Ready E bRound tx wm) fun _ _ => ¬ Ready E bRound tx wm := by
  have hplain : Plain tx := by
    unfold Plain
    cases flag <;> simp [htype]
  have hs : tx.senderId ∈ (wm.put tx.senderId).keys := by simp
  simp only [applyCandidateTx, spec_bind, spec_checkAndPut, spec_getWallet]
  refine (isExecutable_decides hs hplain).mono ?_ fun _ _ h hready => ?_
  · rintro _ _ ⟨rfl, hvalid⟩
    rw [if_pos hs]
    refine ((hexec _ _ hs).and (hquiet _ _)).mono ?_ ?_
    · rintro _ wm₁ ⟨-, hframe⟩
      rw [spec_setCandidate, spec_subBalance, spec_setNonce]
      have hset : Frame ∅ {tx.senderId} wm₁
          (wm₁.modifyWallet tx.senderId fun w => { w with isCandidate := flag }) :=
        frame_modifyWallet (fun _ => ⟨rfl, rfl⟩) fun h => absurd rfl h
      have hpaid : Frame ∅ ∅ (wm₁.modifyWallet tx.senderId fun w => { w with isCandidate := flag }) _ :=
        (frame_debit (E := E) _ tx.senderId (tx.price E bRound)).trans
          (frame_nonce _ tx.senderId (· + 1))
      refine ⟨⟨hframe.of_put.trans (hset.trans ?_), ?_⟩, .plain hplain (hvalid.congr rfl rfl)⟩
      · exact ⟨fun a _ => hpaid.votes a (by simp), fun a _ => hpaid.flag a (by simp)⟩
      · rw [hpaid.flag _ (by simp), wallet_modifyWallet_self]
    · rintro _ _ ⟨⟨rfl, hcand, -⟩, -⟩ -
      cases flag
      · exact absurd (hvalid.quitCandidate htype) (by simpa using hcand)
      · exact hvalid.becomeCandidate htype (hcand.2 rfl)
  · exact h.2 ((hready.executable hplain).congr rfl rfl)

theorem applyVote_ready (htype : tx.type = .vote) :
    Spec (applyVote E tx (txFee E tx bRound) bRound) wm
      (fun _ wm' => Frame {tx.senderId} ∅ wm wm' ∧ Ready E bRound tx wm)
      fun _ _ => ¬ Ready E bRound tx wm := by
  have hs : tx.senderId ∈ (wm.put tx.senderId).keys := by simp
  simp only [applyVote, spec_bind]
  refine ((validateVote_spec E bRound tx wm).and (validateVote_decides E bRound tx wm)).mono ?_ ?_
  · rintro _ _ ⟨⟨rfl, hvalid⟩, hformed⟩
    rw [spec_checkAndPut, spec_setNonce, spec_subBalance, put_of_mem hs]
    have hbefore : Frame {tx.senderId} ∅ wm (((wm.put tx.senderId).modifyWallet tx.senderId fun w =>
        { w with nonce := w.nonce + 1 }).debit tx.senderId E (txFee E tx bRound)) :=
      ((frame_nonce (wm.put tx.senderId) tx.senderId (· + 1)).trans (frame_debit _ _ _)).of_put
    have hsame : (wm.wallet tx.senderId).SameVotes ((((wm.put tx.senderId).modifyWallet tx.senderId fun w =>
        { w with nonce := w.nonce + 1 }).debit tx.senderId E (txFee E tx bRound)).wallet tx.senderId) := by
      rw [debit_eq_credit, credit, wallet_reAssign]
      split_ifs <;> simp [Wallet.SameVotes, Wallet.addVotePower]
    have hentries : ∀ wm₁, Spec (each (applyEntry E tx.senderId) (votedCands E tx)) wm₁
        (fun _ wm' => Frame {tx.senderId} ∅ wm₁ wm') fun _ _ => True :=
      applyEntries_frame (Set.mem_singleton tx.senderId) (votedCands E tx)
    refine ((hentries _).and (applyEntries_votes tx.senderId _ _)).mono ?_ ?_
    · rintro _ wm' ⟨hframe, hentries⟩
      exact ⟨hbefore.trans hframe, .vote htype hformed hvalid (entriesValid_congr hsame.symm hentries)⟩
    · rintro _ _ ⟨-, hentries⟩ hready
      cases hready with
      | plain hp _ => simp [Plain, htype] at hp
      | vote _ _ _ h => exact hentries (entriesValid_congr hsame h)
      | podf _ ht _ _ => simp [htype] at ht
  · rintro _ _ ⟨-, hnot⟩ hready
    cases hready with
    | plain hp _ => simp [Plain, htype] at hp
    | vote _ hformed hvalid _ => exact hnot ⟨hformed, hvalid⟩
    | podf _ ht _ _ => simp [htype] at ht

theorem applyPodf_ready (htype : tx.type = .podf) :
    Spec (applyPodf E tx (txFee E tx bRound) bRound) wm
      (fun _ wm' => Frame ∅ ∅ wm wm' ∧ Ready E bRound tx wm) fun _ _ => ¬ Ready E bRound tx wm := by
  simp only [applyPodf, spec_bind]
  refine ((validatePodf_spec E bRound tx wm).and (validatePodf_decides E bRound tx wm)).mono ?_ ?_
  · rintro _ _ ⟨⟨rfl, h, hvalid⟩, hformed⟩
    have hrep : reportedMiner E tx = h.minerPublicKey := hvalid.miner_eq
    have hr : reportedMiner E tx ∈ (wm.put tx.senderId).keys := by
      rw [hrep]
      exact Finset.mem_insert_of_mem hvalid.wallet
    simp only [hvalid.header, spec_bind, spec_getWallet, spec_modify, spec_subBalance, spec_checkAndPut,
      spec_addBalance]
    rw [if_pos hr]
    refine ⟨?_, .podf h htype hformed hvalid⟩
    refine Frame.trans (Frame.put ?_ tx.senderId) (frame_credit _ _ _)
    refine Frame.trans ?_ (frame_modifyWallet (fun _ => ⟨rfl, rfl⟩) fun _ => rfl)
    refine Frame.trans ?_ (frame_debit _ _ _)
    exact (frame_modifyWallet (fun _ => ⟨rfl, rfl⟩) fun _ => rfl).of_put
  · rintro _ _ ⟨-, hnot⟩ hready
    cases hready with
    | plain hp _ => simp [Plain, htype] at hp
    | vote ht _ _ _ => simp [htype] at ht
    | podf h _ hformed hvalid => exact hnot ⟨hformed, h, hvalid⟩

/-- The credit of the fee to the miner. -/
theorem frame_fee (wm : WalletManager) (miner : Address) (fee : Int64) :
    Frame voters cands wm ((wm.credit miner E fee).modifyWallet miner fun w =>
      { w with transactionFee := w.transactionFee + fee }) :=
  (frame_credit wm miner fee).trans (frame_modifyWallet (fun _ => ⟨rfl, rfl⟩) fun _ => rfl)

theorem Framed.fee (h : Framed tx wm wm') (miner : Address) (fee : Int64) :
    Framed tx wm ((wm'.credit miner E fee).modifyWallet miner fun w =>
      { w with transactionFee := w.transactionFee + fee }) :=
  ⟨h.frame.trans (frame_fee wm' miner fee), fun hc => by
    have hfee : Frame ∅ ∅ wm' _ := frame_fee (E := E) wm' miner fee
    rw [hfee.flag _ (by simp), h.flag hc]⟩

theorem framed_of_frame (htype : tx.isCandidateTx = false) (h : Frame ∅ ∅ wm wm') : Framed tx wm wm' :=
  ⟨h.mono (Set.empty_subset _) (Set.empty_subset _), fun hc => by simp [htype] at hc⟩

/-- **A transaction is applied exactly if it is ready.** -/
theorem applyTransaction_ready (E : Env) (bRound : Int64) (miner : Address) (tx : Transaction)
    (wm : WalletManager) : Spec (applyTransaction E miner bRound tx) wm
      (fun _ wm' => Framed tx wm wm' ∧ Ready E bRound tx wm) fun _ _ => ¬ Ready E bRound tx wm := by
  cases htype : tx.type with
  | transfer =>
    simp only [applyTransaction, htype, spec_bind, spec_addBalance, spec_modify]
    refine (applyTransferTx_ready htype).mono (fun _ wm' h => ⟨?_, h.2⟩) fun _ _ h => h
    exact (framed_of_frame (by simp [Transaction.isCandidateTx, htype]) h.1).fee miner _
  | becomeCandidate =>
    simp only [applyTransaction, htype, spec_bind, spec_addBalance, spec_modify]
    refine (applyCandidateTx_ready (executes_register E) quietly_register htype).mono
      (fun _ wm' h => ⟨Framed.fee ⟨h.1.1.mono ?_ ?_, fun _ => ?_⟩ miner _, h.2⟩) fun _ _ h => h
    · exact Set.empty_subset _
    · simp [Transaction.isCandidateTx, htype]
    · simp [h.1.2, htype]
  | quitCandidate =>
    simp only [applyTransaction, htype, spec_bind, spec_addBalance, spec_modify]
    refine (applyCandidateTx_ready (executes_quit E) quietly_quit htype).mono
      (fun _ wm' h => ⟨Framed.fee ⟨h.1.1.mono ?_ ?_, fun _ => ?_⟩ miner _, h.2⟩) fun _ _ h => h
    · exact Set.empty_subset _
    · simp [Transaction.isCandidateTx, htype]
    · simp [h.1.2, htype]
  | vote =>
    simp only [applyTransaction, htype, spec_bind, spec_addBalance, spec_modify]
    refine (applyVote_ready htype).mono
      (fun _ wm' h => ⟨Framed.fee ⟨h.1.mono ?_ ?_, fun hc => ?_⟩ miner _, h.2⟩) fun _ _ h => h
    · simp [htype]
    · exact Set.empty_subset _
    · simp [Transaction.isCandidateTx, htype] at hc
  | podf =>
    simp only [applyTransaction, htype, spec_bind, spec_addBalance, spec_modify]
    refine (applyPodf_ready htype).mono (fun _ wm' h => ⟨?_, h.2⟩) fun _ _ h => h
    exact (framed_of_frame (by simp [Transaction.isCandidateTx, htype]) h.1).fee miner _
  | other =>
    simp only [applyTransaction, htype, spec_bind, spec_throw]
    rintro (⟨hp, -⟩ | ⟨ht, -⟩ | ⟨-, ht, -⟩)
    · simp [Plain, htype] at hp
    · simp [htype] at ht
    · simp [htype] at ht

/-! ## Deals -/

/-- The authors can pay for the posts one after the other, the accounts being `b`. -/
def AuthorsPay (E : Env) (bRound : Int64) : Book → List Post → Prop
  | _, [] => True
  | b, post :: posts => postPrice E post bRound ≤ (b post.authorAddress).balance ∧
      AuthorsPay E bRound (b + Book.pay post.authorAddress (-postPrice E post bRound)) posts

/-- The posters named by `pid` have the price of every post, and the authors can pay. -/
def DealReady (E : Env) (bRound : Int64) (b : Book) (deal : Deal) : Prop :=
  (∀ post ∈ deal.list, postPrice E post bRound ≤ (b post.pid).balance) ∧
    AuthorsPay E bRound b deal.list

theorem chargePosts_ready : ∀ (posts : List Post) (wm : WalletManager),
    Spec (each (chargePost E bRound) posts) wm (fun _ _ => AuthorsPay E bRound wm.book posts)
      fun _ _ => ¬ AuthorsPay E bRound wm.book posts
  | [], _ => trivial
  | post :: posts, wm => by
    have hself : post.authorAddress ∈ (wm.put post.authorAddress).keys := Finset.mem_insert_self _ _
    rw [spec_each_cons]
    simp only [chargePost, spec_bind, spec_checkAndPut, spec_getWallet, if_pos hself, spec_ite,
      spec_throw, spec_modify, spec_reAssignVotePower]
    refine ite_intro (fun hlt h => Int64.not_lt.2 h.1 hlt) fun hle => ?_
    have hbook : (afterCharge E bRound post wm).book = _ := book_afterCharge post
    have hposts := chargePosts_ready posts (afterCharge E bRound post wm)
    rw [hbook] at hposts
    exact hposts.mono (fun _ _ h => ⟨Int64.not_lt.1 hle, h⟩) fun _ _ h h' => h h'.2

theorem applyDeal_ready (miner : Address) (deal : Deal) (wm : WalletManager) :
    Spec (applyDeal E miner bRound deal) wm (fun _ _ => DealReady E bRound wm.book deal)
      fun _ _ => ¬ DealReady E bRound wm.book deal := by
  simp only [applyDeal, validateDeal, spec_bind, spec_get, spec_ite, spec_throw, spec_pure,
    spec_checkAndPut, spec_addBalance, spec_modify]
  refine ite_intro (fun hpoor h => ?_) fun hrich => ?_
  · simp only [List.any_eq_true, decide_eq_true_eq] at hpoor
    obtain ⟨post, hpost, hlt⟩ := hpoor
    exact Int64.not_lt.2 (h.1 post hpost) hlt
  · have hpids : ∀ post ∈ deal.list, postPrice E post bRound ≤ (wm.book post.pid).balance := by
      intro post hpost
      simp only [List.any_eq_true, decide_eq_true_eq, not_exists, not_and] at hrich
      exact Int64.not_lt.1 (hrich post hpost)
    exact (chargePosts_ready deal.list (wm.put deal.spid)).mono (fun _ _ h => ⟨hpids, h⟩)
      fun _ _ h h' => h h'.2

/-- The deals can be charged one after the other, the accounts being `b`. -/
def DealsReady (E : Env) (bRound : Int64) (miner : Address) : Book → List Deal → Prop
  | _, [] => True
  | b, deal :: deals => DealReady E bRound b deal ∧
      DealsReady E bRound miner (b + Entry.effects E bRound miner (dealEntries E bRound miner deal)) deals

theorem returns_applyDeals : ∀ (deals : List Deal) (wm : WalletManager), miner ∈ wm.keys →
    (Returns (applyDeals E deals miner bRound) wm ↔ DealsReady E bRound miner wm.book deals)
  | [], wm, _ => iff_of_true ⟨(), wm, rfl⟩ trivial
  | deal :: deals, wm, hm => by
    have hdeal : Spec (applyDeal E miner bRound deal) wm _ _ := applyDeal_ready miner deal wm
    have hmade : Spec (applyDeal E miner bRound deal) wm _ _ := applyDeal_spec hm deal
    have hnext : ∀ wm₁, applyDeal E miner bRound deal wm = (.ok (), wm₁) →
        (Returns (applyDeals E deals miner bRound) wm₁ ↔ DealsReady E bRound miner
          (wm.book + Entry.effects E bRound miner (dealEntries E bRound miner deal)) deals) := by
      intro wm₁ h₁
      rw [← (hmade.ok h₁).made.book]
      exact returns_applyDeals deals wm₁ ((hmade.ok h₁).mem hm)
    rw [applyDeals, returns_forEach_cons]
    constructor
    · rintro ⟨wm₁, h₁, hrest⟩
      exact ⟨hdeal.ok h₁, (hnext wm₁ h₁).1 hrest⟩
    · rintro ⟨hready, hrest⟩
      rcases h₁ : applyDeal E miner bRound deal wm with ⟨_ | _, wm₁⟩
      · exact absurd hready (hdeal.error h₁)
      · exact ⟨wm₁, rfl, (hnext wm₁ h₁).2 hrest⟩

/-! ## Verifications -/

/-- The deal of every pair is stored, and a pair that verifies finds a last time. -/
def PairsReady (E : Env) : Times → List ChPrPair → Prop
  | _, [] => True
  | t, cProof :: pairs => ∃ deal, t.2.deals cProof.dealhash = some deal ∧
      (checkChPrPair E deal cProof = true → t.lastTs deal cProof.dealhash ≠ []) ∧
      PairsReady E (t.record deal cProof) pairs

theorem applyPair_ready (cProof : ChPrPair) (wm : WalletManager) :
    Spec (applyPair E cProof) wm
      (fun _ wm' => ∃ deal, wm.node.deals cProof.dealhash = some deal ∧
        (checkChPrPair E deal cProof = true → wm.times.lastTs deal cProof.dealhash ≠ []) ∧
        wm'.times = wm.times.record deal cProof)
      fun _ _ => ∀ deal, wm.node.deals cProof.dealhash = some deal →
        checkChPrPair E deal cProof = true ∧ wm.times.lastTs deal cProof.dealhash = [] := by
  refine ((applyPair_spec 0 "" cProof wm).and (?_ : Spec _ _
    (fun _ _ => ∀ deal, wm.node.deals cProof.dealhash = some deal →
      checkChPrPair E deal cProof = true → wm.times.lastTs deal cProof.dealhash ≠ [])
    fun _ _ => ∀ deal, wm.node.deals cProof.dealhash = some deal →
      checkChPrPair E deal cProof = true ∧ wm.times.lastTs deal cProof.dealhash = [])).mono ?_
    fun _ _ h => h.2
  · simp only [applyPair, getDealbyHash, spec_bind, spec_get]
    split
    · rename_i deal hdeal
      have hsame : ∀ deal', wm.node.deals cProof.dealhash = some deal' → deal' = deal := by
        intro deal' h
        rw [hdeal] at h
        exact (Option.some_inj.1 h).symm
      simp only [spec_pure, spec_modify, spec_ite]
      refine ite_intro (fun hcheck => ?_) fun hcheck deal' h h' => absurd (hsame deal' h ▸ h') hcheck
      split
      · rename_i last hlast
        refine (verificationPayment_spec 0 "" deal _ last _).mono (fun _ _ _ deal' h _ hnil => ?_)
          fun _ _ h => h.elim
        rw [hsame deal' h] at hnil
        simp [hnil] at hlast
      · rename_i hnone
        intro deal' h
        rw [hsame deal' h]
        exact ⟨hcheck, List.getLast?_eq_none_iff.1 hnone⟩
    · rename_i hnone
      intro deal h
      rw [hnone] at h
      cases h
  · rintro _ wm' ⟨⟨deal, h⟩, hlast⟩
    exact ⟨deal, h.stored, hlast deal h.stored, congrArg (fun r => r.2.1) h.rest⟩

theorem returns_applyChPrPair : ∀ (pairs : List ChPrPair) (wm : WalletManager),
    (Returns (applyChPrPair E pairs) wm ↔ PairsReady E wm.times pairs)
  | [], wm => iff_of_true ⟨(), wm, rfl⟩ trivial
  | cProof :: pairs, wm => by
    have hpair := applyPair_ready (E := E) cProof wm
    rw [applyChPrPair, returns_forEach_cons]
    constructor
    · rintro ⟨wm₁, h₁, hrest⟩
      obtain ⟨deal, hdeal, hlast, htimes⟩ := hpair.ok h₁
      exact ⟨deal, hdeal, hlast, htimes ▸ (returns_applyChPrPair pairs wm₁).1 hrest⟩
    · rintro ⟨deal, hdeal, hlast, hrest⟩
      rcases h₁ : applyPair E cProof wm with ⟨_ | _, wm₁⟩
      · obtain ⟨hcheck, hnil⟩ := hpair.error h₁ deal hdeal
        exact absurd hnil (hlast hcheck)
      · obtain ⟨deal', hdeal', -, htimes⟩ := hpair.ok h₁
        obtain rfl : deal = deal' := Option.some_inj.1 (hdeal.symm.trans hdeal')
        exact ⟨wm₁, rfl, (returns_applyChPrPair pairs wm₁).2 (htimes ▸ hrest)⟩

end WalletManager
end Timbre
