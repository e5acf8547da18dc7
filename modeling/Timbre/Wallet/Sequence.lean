/-
  Transactions that are admitted one by one, applied one after the other.

  A transaction that the wallets admit may no longer be ready after others: its nonce may
  have been used, the balance of its sender spent, the miner it reports gone.  **`Fits` says
  what it needs, in terms of the wallets before all transactions** (`returns_applyTransactions`).
-/
import Timbre.Wallet.Readiness
import Timbre.Wallet.Undo

namespace Timbre

open Call

namespace Transaction

variable {E : Env} {bRound : Int64} {miner : Address} {tx : Transaction} {txs : List Transaction}
  {a : Address}

instance : DecidablePred Ordinary := fun tx => inferInstanceAs (Decidable
  (tx.type = .transfer ∨ tx.type = .vote ∨ tx.type = .becomeCandidate ∨ tx.type = .quitCandidate))

/-- The number of transactions that cost an address a nonce. -/
def counted (a : Address) (txs : List Transaction) : ℕ :=
  txs.countP fun tx => tx.Ordinary ∧ tx.senderId = a

theorem nonce_effect_of_not (h : ¬ tx.Ordinary) (a : Address) :
    (tx.effect E bRound miner a).nonce = 0 := by
  unfold Ordinary at h
  unfold effect ownEffect
  split <;> simp_all [nonce_pay]

theorem counted_cons (a : Address) (tx : Transaction) (txs : List Transaction) :
    counted a (tx :: txs) = counted a txs + if tx.Ordinary ∧ tx.senderId = a then 1 else 0 := by
  simp [counted, List.countP_cons]

theorem counted_append (a : Address) (xs ys : List Transaction) :
    counted a (xs ++ ys) = counted a xs + counted a ys := List.countP_append

theorem nonce_effects_counted (txs : List Transaction) (a : Address) :
    (effects E bRound miner txs a).nonce = UInt64.ofNat (counted a txs) := by
  induction txs with
  | nil => rfl
  | cons tx txs ih =>
    rw [effects_cons, Pi.add_apply, Account.nonce_add, ih, counted_cons, UInt64.ofNat_add, add_comm]
    congr 1
    by_cases h : tx.Ordinary
    · rw [nonce_effect h]
      by_cases ha : tx.senderId = a <;> simp [h, ha]
    · rw [nonce_effect_of_not h]
      simp [h]

end Transaction

namespace WalletManager

open Transaction

variable {E : Env} {bRound : Int64} {wm wm' s t : WalletManager} {a miner : Address} {tx : Transaction}
  {pre post txs : List Transaction}

/-- The balance of the sender covers the fee, and the price of a transfer. -/
def Affordable (E : Env) (bRound : Int64) (b : Book) (tx : Transaction) : Prop :=
  txFee E tx bRound ≤ (b tx.senderId).balance ∧
    (tx.type = .transfer → tx.price E bRound ≤ (b tx.senderId).balance)

/-- The PoDF records and the rest, after some transactions. -/
def restAfterAll (E : Env) (txs : List Transaction) (r : Rest) : Rest :=
  txs.foldl (fun r tx => restAfter E tx r) r

/-- What a transaction needs that comes after `pre`, the wallets being `wm` before `pre`, and
    the accounts `b`. -/
structure Fits (E : Env) (bRound : Int64) (miner : Address) (wm : WalletManager) (b : Book)
    (pre : List Transaction) (tx : Transaction) : Prop where
  once : ∀ x ∈ pre, x.Ordinary → x.senderId ≠ tx.senderId
  funds : Affordable E bRound (b + effects E bRound miner pre) tx
  ballot : tx.type = .vote → EntriesValid (wm.wallet tx.senderId) (votedCands E tx)
  /-- the reported miner is still a candidate -/
  candidate : tx.type = .podf → ∀ x ∈ pre, x.type = .quitCandidate → x.senderId ≠ reportedMiner E tx
  /-- the reported miner has neither been banned nor been reported for the same height -/
  record : ∀ h, tx.type = .podf → reportedHeader E tx = some h →
    ((restAfterAll E pre wm.rest).1 h.minerPublicKey).2 < h.height ∧
      reportedAt h.height ((restAfterAll E pre wm.rest).1 h.minerPublicKey).1.reverse = false

/-- The transactions are applied, and leave the votes and the flags of others as they are. -/
def Performed (E : Env) (bRound : Int64) (miner : Address) : List Transaction →
    WalletManager → WalletManager → Prop :=
  Steps fun tx s s' => Applied E bRound miner tx s s' ∧ Framed tx s s'

theorem performed_of_steps (hm : miner ∈ s.keys)
    (h : Steps (fun tx s s' => applyTransaction E miner bRound tx s = (.ok (), s')) txs s t) :
    Performed E bRound miner txs s t :=
  Steps.strengthen (I := fun s => miner ∈ s.keys) h hm fun tx _ s _ hs hx =>
    have happlied := (applyTransaction_spec hs).ok hx
    ⟨happlied.toPosted.mem hs, happlied, ((applyTransaction_ready E bRound miner tx s).ok hx).1⟩

theorem Performed.allApplied (h : Performed E bRound miner pre s t) : AllApplied E bRound miner pre s t :=
  h.mono fun _ _ _ _ hx => hx.1

theorem AllApplied.restAfterAll (h : AllApplied E bRound miner pre s t) :
    t.rest = restAfterAll E pre s.rest := by
  induction h with
  | nil => rfl
  | cons hx _ ih =>
    rw [ih, hx.rest]
    rfl

/-- What an address has not changed itself is as it was. -/
theorem Performed.untouched (h : Performed E bRound miner pre s t)
    (hpre : ∀ x ∈ pre, x.Ordinary → x.senderId ≠ a) :
    (t.wallet a).SameVotes (s.wallet a) ∧
      (a ∈ t.executor.candidateState ↔ a ∈ s.executor.candidateState) := by
  refine Steps.invariant (I := fun t => (t.wallet a).SameVotes (s.wallet a) ∧
    (a ∈ t.executor.candidateState ↔ a ∈ s.executor.candidateState)) h ⟨.refl _, Iff.rfl⟩ ?_
  rintro x hx s₁ s₂ ⟨hvotes, hcand⟩ ⟨happlied, hframed⟩
  have hne : x.Ordinary → a ≠ x.senderId := fun ho => (hpre x hx ho).symm
  refine ⟨(hframed.frame.votes a ?_).trans hvotes, (happlied.candidates a).trans ?_⟩
  · rintro ⟨hv, ha⟩
    exact hne (.inr (.inl hv)) ha
  · rw [candidatesAfter, if_neg, hcand]
    rintro ⟨hc, ha⟩
    simp only [isCandidateTx, decide_eq_true_eq] at hc
    exact hne (.inr (.inr hc)) ha

theorem Performed.nonce (h : Performed E bRound miner pre s t) (a : Address) :
    (t.wallet a).nonce = (s.wallet a).nonce + UInt64.ofNat (counted a pre) := by
  have hbook := congrArg Account.nonce (congrFun (AllApplied.book h.allApplied) a)
  rw [Pi.add_apply, Account.nonce_add, nonce_effects_counted] at hbook
  exact hbook

/-- As long as it has not quit, a candidate keeps its flag. -/
theorem Performed.keeps_flag (h : Performed E bRound miner pre s t)
    (hflag : (s.wallet a).isCandidate = true)
    (hpre : ∀ x ∈ pre, x.type = .quitCandidate → x.senderId ≠ a) : (t.wallet a).isCandidate = true := by
  refine Steps.invariant (I := fun t => (t.wallet a).isCandidate = true) h hflag ?_
  rintro x hx s₁ s₂ hs ⟨-, hframed⟩
  by_cases hc : x.isCandidateTx ∧ a = x.senderId
  · obtain ⟨hc, rfl⟩ := hc
    rw [hframed.flag hc, decide_eq_true_eq]
    simp only [isCandidateTx, decide_eq_true_eq] at hc
    exact hc.resolve_right fun hquit => hpre x hx hquit rfl
  · rw [hframed.frame.flag a hc, hs]

/-- A candidate that has quit has lost its flag. -/
theorem Performed.loses_flag {x : Transaction}
    (h : Performed E bRound miner (pre ++ x :: post) s t) (hx : x.type = .quitCandidate)
    (hpost : ∀ y ∈ post, y.Ordinary → y.senderId ≠ x.senderId) :
    (t.wallet x.senderId).isCandidate = false := by
  obtain ⟨s₁, -, h₁⟩ := Steps.append_inv h
  cases h₁ with
  | @cons _ _ _ s₂ _ hx₁ h₂ =>
    have hflag : (s₂.wallet x.senderId).isCandidate = false := by
      rw [hx₁.2.flag (by simp [isCandidateTx, hx])]
      simp [hx]
    refine Steps.invariant (I := fun t => (t.wallet x.senderId).isCandidate = false) h₂ hflag ?_
    rintro y hy s₃ s₄ hs ⟨-, hframed⟩
    rw [hframed.frame.flag x.senderId, hs]
    rintro ⟨hc, hxy⟩
    simp only [isCandidateTx, decide_eq_true_eq] at hc
    exact hpost y hy (.inr (.inr hc)) hxy.symm

/-- What has been checked of the nonce of a transaction. -/
theorem Admitted.nonce (h : Admitted E bRound tx wm) : tx.nonce = (wm.wallet tx.senderId).nonce + 1 := by
  cases h with
  | plain _ h | vote _ _ h | podf _ _ _ h => exact h.nonce

theorem Ready.nonce (h : Ready E bRound tx wm) : tx.nonce = (wm.wallet tx.senderId).nonce + 1 := by
  cases h with
  | plain _ h | vote _ _ h _ | podf _ _ _ h => exact h.nonce

theorem Ready.affordable (h : Ready E bRound tx wm) : Affordable E bRound wm.book tx := by
  cases h with
  | plain _ h => exact ⟨h.fee, h.transfer⟩
  | vote ht _ h _ => exact ⟨h.fee, by simp [ht]⟩
  | podf _ ht _ h => exact ⟨h.fee, by simp [ht]⟩

theorem counted_eq_zero (h : counted a pre = 0) : ∀ x ∈ pre, x.Ordinary → x.senderId ≠ a := by
  intro x hx ho ha
  have := List.countP_eq_zero.1 h x hx
  simp [ho, ha] at this

/-- A transaction that is still ready shares its sender with no counted transaction before
    it. -/
theorem Performed.once (h : Performed E bRound miner pre s t) (hlen : pre.length < 2 ^ 64)
    (hnonce : tx.nonce = (s.wallet tx.senderId).nonce + 1) (hready : Ready E bRound tx t) :
    ∀ x ∈ pre, x.Ordinary → x.senderId ≠ tx.senderId := by
  refine counted_eq_zero ?_
  have hcount : counted tx.senderId pre ≤ pre.length := List.countP_le_length
  have heq := hready.nonce
  rw [hnonce, h.nonce, add_left_inj, left_eq_add] at heq
  have h0 := congrArg UInt64.toNat heq
  rwa [UInt64.toNat_ofNat', Nat.mod_eq_of_lt (by omega), UInt64.toNat_zero] at h0

/-- **When a transaction is still ready**, if no counted transactions before it share a
    sender. -/
theorem Performed.ready_iff (h : Performed E bRound miner pre s t) (hs : Admitted E bRound tx wm)
    (hframe : Frame ∅ ∅ wm s) (hkeys : wm.keys ⊆ s.keys) (hrest : s.rest = wm.rest)
    (hexec : s.executor = wm.executor) (hnonce : tx.nonce = (s.wallet tx.senderId).nonce + 1)
    (hlen : pre.length < 2 ^ 64)
    (honce : ∀ p x q, pre = p ++ x :: q → ∀ y ∈ p, y.Ordinary → y.senderId ≠ x.senderId) :
    Ready E bRound tx t ↔ Fits E bRound miner wm s.book pre tx := by
  have hbook : t.book = s.book + effects E bRound miner pre := AllApplied.book h.allApplied
  have hrecord : ∀ a, ((t.wallet a).podfHeights, (t.wallet a).bannedTill) =
      (restAfterAll E pre wm.rest).1 a := by
    intro a
    rw [← hrest, ← AllApplied.restAfterAll h.allApplied]
    rfl
  have hvotes : (∀ x ∈ pre, x.Ordinary → x.senderId ≠ tx.senderId) →
      (t.wallet tx.senderId).SameVotes (wm.wallet tx.senderId) := fun hpre =>
    (h.untouched hpre).1.trans (hframe.votes _ (by simp))
  constructor
  · intro hready
    have hpre := h.once hlen hnonce hready
    refine ⟨hpre, hbook ▸ hready.affordable, fun htype => ?_, fun htype => ?_, fun h' htype hh' => ?_⟩
    · cases hready with
      | plain hp _ => simp [Plain, htype] at hp
      | vote _ _ _ hentries => exact entriesValid_congr (hvotes hpre) hentries
      | podf _ ht _ _ => simp [htype] at ht
    · intro x hx hquit hsame
      obtain ⟨p, q, rfl⟩ := List.append_of_mem hx
      have hlost := h.loses_flag hquit fun y hy ho => by
        obtain ⟨q₁, q₂, rfl⟩ := List.append_of_mem hy
        have := honce (p ++ x :: q₁) y q₂ (by simp) x (by simp) (.inr (.inr (.inr hquit)))
        exact this.symm
      cases hready with
      | plain hp _ => simp [Plain, htype] at hp
      | vote ht _ _ _ => simp [htype] at ht
      | podf h₁ _ _ hrep =>
        have hminer : reportedMiner E tx = h₁.minerPublicKey := hrep.miner_eq
        rw [hsame, hminer, hrep.candidate] at hlost
        cases hlost
    · cases hready with
      | plain hp _ => simp [Plain, htype] at hp
      | vote ht _ _ _ => simp [htype] at ht
      | podf h₁ _ _ hrep =>
        obtain rfl : h₁ = h' := Option.some_inj.1 (hrep.header.symm.trans hh')
        rw [← hrecord]
        exact ⟨hrep.notBanned, hrep.notReported⟩
  · intro hfits
    have hnonce' : tx.nonce = (t.wallet tx.senderId).nonce + 1 := by
      have hzero : counted tx.senderId pre = 0 := by
        refine List.countP_eq_zero.2 fun x hx => ?_
        simpa using hfits.once x hx
      rw [h.nonce, hzero, hnonce]
      simp
    have hfee := hfits.funds.1
    have hprice := hfits.funds.2
    rw [← hbook] at hfee hprice
    obtain ⟨-, hcand⟩ := h.untouched hfits.once
    rw [hexec] at hcand
    cases hs with
    | plain hp hx => exact .plain hp ⟨hx.sign, hnonce', hfee, hprice,
        fun ht => hcand.not.2 (hx.becomeCandidate ht), fun ht => hcand.2 (hx.quitCandidate ht)⟩
    | vote ht hformed hx =>
      have hsame := (hvotes hfits.once).symm
      exact .vote ht hformed
        ⟨hx.sign, hnonce', hfee, fun e he => entryValid_congr hsame (hx.entries e he)⟩
        (entriesValid_congr hsame (hfits.ballot ht))
    | podf h₁ ht hformed hx =>
      have hminer : reportedMiner E tx = h₁.minerPublicKey := hx.miner_eq
      have hrec := hfits.record h₁ ht hx.header
      rw [← hrecord] at hrec
      have hkey : h₁.minerPublicKey ∈ t.keys := by
        rw [AllApplied.keys h.allApplied]
        exact Finset.mem_union_left _ (hkeys hx.wallet)
      refine .podf h₁ ht hformed ⟨hx.sign, hx.header, hkey, ?_, hnonce', hfee, hrec.1, hrec.2⟩
      refine h.keeps_flag ?_ fun x hx' hquit => hminer ▸ hfits.candidate ht x hx' hquit
      rw [hframe.flag _ (by simp), hx.candidate]

/-- **Admitted transactions are applied one after the other exactly if each of them fits
    behind those before it.** -/
theorem returns_applyTransactions (hm : miner ∈ s.keys) (hadmitted : ∀ tx ∈ txs, Admitted E bRound tx wm)
    (hlen : txs.length < 2 ^ 64) (hframe : Frame ∅ ∅ wm s) (hkeys : wm.keys ⊆ s.keys)
    (hrest : s.rest = wm.rest) (hexec : s.executor = wm.executor)
    (hnonce : ∀ a, (s.wallet a).nonce = (wm.wallet a).nonce) :
    Returns (applyTransactions E txs miner bRound) s ↔
      ∀ pre tx post, txs = pre ++ tx :: post → Fits E bRound miner wm s.book pre tx := by
  have hdue : ∀ tx ∈ txs, tx.nonce = (s.wallet tx.senderId).nonce + 1 := fun tx htx => by
    rw [hnonce, (hadmitted tx htx).nonce]
  constructor
  · rintro ⟨_, t, hrun⟩
    have hsplit : ∀ pre tx post, txs = pre ++ tx :: post → ∃ t₁, Performed E bRound miner pre s t₁ ∧
        Ready E bRound tx t₁ := by
      rintro pre tx post rfl
      obtain ⟨t₁, hpre, hpost⟩ := Steps.append_inv (forEach_ok hrun)
      cases hpost with
      | cons hx _ =>
        exact ⟨t₁, performed_of_steps hm hpre, ((applyTransaction_ready E bRound miner tx t₁).ok hx).2⟩
    have honce : ∀ pre tx post, txs = pre ++ tx :: post →
        ∀ x ∈ pre, x.Ordinary → x.senderId ≠ tx.senderId := by
      intro pre tx post htxs
      obtain ⟨t₁, hpre, hready⟩ := hsplit pre tx post htxs
      refine hpre.once (lt_of_le_of_lt ?_ hlen) (hdue tx (by simp [htxs])) hready
      simp [htxs]
    intro pre tx post htxs
    obtain ⟨t₁, hpre, hready⟩ := hsplit pre tx post htxs
    have htx : tx ∈ txs := by simp [htxs]
    refine (hpre.ready_iff (hadmitted tx htx) hframe hkeys hrest hexec (hdue tx htx)
      (lt_of_le_of_lt (by simp [htxs]) hlen) ?_).1 hready
    rintro p x q rfl
    exact honce p x (q ++ tx :: post) (by simp [htxs])
  · intro hfits
    refine returns_forEach txs s fun pre tx post htxs t₁ hpre => ?_
    have htx : tx ∈ txs := by simp [htxs]
    have hready : Ready E bRound tx t₁ := by
      refine ((performed_of_steps hm hpre).ready_iff (hadmitted tx htx) hframe hkeys hrest hexec
        (hdue tx htx) (lt_of_le_of_lt (by simp [htxs]) hlen) ?_).2 (hfits pre tx post htxs)
      rintro p x q rfl
      exact (hfits p x (q ++ tx :: post) (by simp [htxs])).once
    rcases hx : applyTransaction E miner bRound tx t₁ with ⟨_ | _, t₂⟩
    · exact absurd hready ((applyTransaction_ready E bRound miner tx t₁).error hx)
    · exact ⟨_, t₂, hx⟩

end WalletManager
end Timbre
