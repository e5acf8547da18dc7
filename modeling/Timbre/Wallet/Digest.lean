/-
  Digest blocks: the wallets are compared with the block, cleaned up, and their balances are
  rolled back.

  The clean-up deletes the wallets that are not used.  Their owners have the balance of a new
  wallet and have not voted, so that **no candidate loses a share by it** (`CleanedUp.stake`).
-/
import Timbre.Wallet.Journal

namespace Timbre
namespace WalletManager

open Call

variable {E : Env} {wm wm' wm₁ : WalletManager} {a c miner : Address} {block : PbBlock}
  {order : MapOrder}

/-! ## The comparison with the block -/

/-- The wallet has the vote of an entry of a digest block. -/
def VoteMatches (wal : Wallet) (vote : String) : Prop :=
  ∃ action c, parseVote vote = .ok (action, wal.voted.get c, c) ∧ c ∈ wal.voted.keys

/-- The wallet is what an entry of a digest block says it is. -/
structure EntryMatches (wm : WalletManager) (entry : AccState) : Prop where
  mem : entry.pk ∈ wm.keys
  balance : (wm.wallet entry.pk).balance = entry.balance
  nonce : (wm.wallet entry.pk).nonce = entry.nonce
  isCandidate : (wm.wallet entry.pk).isCandidate = entry.isCandidate
  podfHeights : (wm.wallet entry.pk).podfHeights = entry.podfHeights
  votes : ∀ vote ∈ entry.votes, VoteMatches (wm.wallet entry.pk) vote

theorem decides_checkDigestVote (wal : Wallet) (vote : String) :
    Decides (checkDigestVote wal vote) fun _ => VoteMatches wal vote := by
  unfold checkDigestVote VoteMatches
  split
  · rename_i e he
    exact (decides_throw e).congr fun _ => by simp [he]
  · rename_i action p c h
    split_ifs with hc hp
    · refine (decides_throw _).congr fun _ => ?_
      simp only [h, Except.ok.injEq, Prod.mk.injEq, false_iff]
      rintro ⟨_, _, ⟨-, rfl, rfl⟩, -⟩
      exact hp rfl
    · refine decides_pure.congr fun _ => ?_
      simp only [h, Except.ok.injEq, Prod.mk.injEq, true_iff]
      exact ⟨action, c, ⟨rfl, (not_ne_iff.1 hp).symm, rfl⟩, hc⟩
    · refine (decides_throw _).congr fun _ => ?_
      simp only [h, Except.ok.injEq, Prod.mk.injEq, false_iff]
      rintro ⟨_, _, ⟨-, -, rfl⟩, hc'⟩
      exact hc hc'

theorem decides_checkDigestEntry (entry : AccState) :
    Decides (checkDigestEntry entry) fun wm => EntryMatches wm entry := by
  have hget : Decides (checkDigestEntry entry) _ := Decides.get fun wm =>
    Decides.require (Decides.guard (Decides.guard (Decides.guard (Decides.guard (Decides.guard
      (Decides.each (decides_checkDigestVote (wm.wallet entry.pk)) entry.votes) _ _) _ _) _ _) _ _)
        _ _) _ _
  refine hget.congr fun wm => ?_
  simp only [checkEntryByAddress, decide_eq_true_eq, ne_eq, not_not]
  constructor
  · rintro ⟨hmem, hb, hn, hc, -, hp, hv⟩
    exact ⟨hmem, hb, hn, hc, hp, hv⟩
  · rintro ⟨hmem, hb, hn, hc, hp, hv⟩
    exact ⟨hmem, hb, hn, hc, congrArg List.length hp, hp, hv⟩

theorem decides_checkDigestEntries : ∀ (seen : List Address) (entries : List AccState),
    Decides (checkDigestEntries seen entries) fun wm =>
      (∀ entry ∈ entries, EntryMatches wm entry) ∧ (entries.map AccState.pk).Nodup ∧
        ∀ entry ∈ entries, entry.pk ∉ seen
  | _, [] => decides_pure.congr fun _ => by simp
  | seen, entry :: entries => by
    have h : Decides (checkDigestEntries seen (entry :: entries)) _ :=
      Decides.guard ((decides_checkDigestEntry entry).bind
        (decides_checkDigestEntries (entry.pk :: seen) entries)) _ _
    refine h.congr fun wm => ?_
    simp only [List.mem_cons, forall_eq_or_imp, List.map_cons, List.nodup_cons, List.mem_map, not_or,
      not_exists, not_and]
    constructor
    · rintro ⟨hnew, hentry, hall, hnodup, hseen⟩
      exact ⟨⟨hentry, hall⟩, ⟨fun x hx => (hseen x hx).1, hnodup⟩, hnew, fun x hx => (hseen x hx).2⟩
    · rintro ⟨⟨hentry, hall⟩, ⟨hne, hnodup⟩, hnew, hseen⟩
      exact ⟨hnew, hentry, hall, hnodup, fun x hx => ⟨hne x hx, hseen x hx⟩⟩

/-! ## The clean-up -/

/-- The wallets after a digest block has been compared with them: those that are not used
    have been deleted, and that of the node has been put back. -/
def tidied (wm : WalletManager) : WalletManager :=
  { wm with
    walletByAddress := (cleanUp wm).walletByAddress.set wm.myAddress (wm.wallet wm.myAddress) }

/-- The addresses whose wallets are used. -/
def usedKeys (wm : WalletManager) : Finset Address :=
  wm.keys.filter fun a => (wm.wallet a).unusedWallet = false

/-- The entries of the digest block are those of the wallets that are used. -/
structure DigestMatches (wm : WalletManager) (digest : PbBlock) : Prop where
  length : digest.accountStates.length = wm.usedKeys.card
  entries : ∀ entry ∈ digest.accountStates, EntryMatches wm entry ∧ entry.pk ∈ wm.usedKeys
  nodup : (digest.accountStates.map AccState.pk).Nodup

theorem keys_cleanUp (wm : WalletManager) : (cleanUp wm).keys = wm.usedKeys := by
  ext a
  change a ∈ (wm.walletByAddress.filter _).keys ↔ _
  simp [usedKeys]

theorem wallet_cleanUp (ha : a ∈ wm.usedKeys) : (cleanUp wm).wallet a = wm.wallet a := by
  have hused := (Finset.mem_filter.1 ha).2
  change (wm.walletByAddress.filter _).get a = _
  rw [Store.get_filter, hused]
  rfl

theorem entryMatches_cleanUp (entry : AccState) :
    EntryMatches (cleanUp wm) entry ↔ EntryMatches wm entry ∧ entry.pk ∈ wm.usedKeys := by
  constructor
  · intro h
    have hused : entry.pk ∈ wm.usedKeys := keys_cleanUp wm ▸ h.mem
    have hw := wallet_cleanUp hused
    refine ⟨⟨Finset.mem_of_mem_filter _ hused, ?_, ?_, ?_, ?_, ?_⟩, hused⟩ <;> rw [← hw]
    · exact h.balance
    · exact h.nonce
    · exact h.isCandidate
    · exact h.podfHeights
    · exact h.votes
  · rintro ⟨h, hused⟩
    have hw := wallet_cleanUp hused
    refine ⟨keys_cleanUp wm ▸ hused, ?_, ?_, ?_, ?_, ?_⟩ <;> rw [hw]
    · exact h.balance
    · exact h.nonce
    · exact h.isCandidate
    · exact h.podfHeights
    · exact h.votes

/-- **`ValidateDigestBlock` accepts exactly the digest blocks that match the wallets**, which
    are cleaned up in any case. -/
theorem validateDigestBlock_spec (digest : PbBlock) (wm : WalletManager) :
    Spec (validateDigestBlock digest) wm (fun _ wm' => wm' = wm.tidied ∧ DigestMatches wm digest)
      fun _ wm' => wm' = wm.tidied ∧ ¬ DigestMatches wm digest := by
  have hcheck : Decides (do
      if digest.accountStates.length ≠ (← get).walletByAddress.keys.card then
        throw (.error "No of entries doesn't match")
      checkDigestEntries [] digest.accountStates : WM Unit) _ := Decides.get fun wm =>
    Decides.guard (decides_checkDigestEntries [] digest.accountStates) _ _
  have hmatch : (¬ digest.accountStates.length ≠ (cleanUp wm).walletByAddress.keys.card ∧
      (∀ entry ∈ digest.accountStates, EntryMatches (cleanUp wm) entry) ∧
        (digest.accountStates.map AccState.pk).Nodup ∧
          ∀ entry ∈ digest.accountStates, entry.pk ∉ []) ↔ DigestMatches wm digest := by
    have hkeys : (cleanUp wm).walletByAddress.keys = wm.usedKeys := keys_cleanUp wm
    simp only [hkeys, ne_eq, not_not, entryMatches_cleanUp, List.not_mem_nil, not_false_eq_true,
      implies_true, and_true]
    exact ⟨fun h => ⟨h.1, h.2.1, h.2.2⟩, fun h => ⟨h.length, h.entries, h.nodup⟩⟩
  simp only [validateDigestBlock, spec_bind, spec_get, spec_modify, spec_tryCatch, spec_throw]
  refine (hcheck (cleanUp wm)).mono ?_ ?_
  · rintro _ _ ⟨rfl, h⟩
    exact ⟨rfl, hmatch.1 h⟩
  · rintro _ _ ⟨rfl, h⟩
    exact ⟨rfl, fun h' => h (hmatch.2 h')⟩

theorem keys_tidied (wm : WalletManager) : wm.tidied.keys = insert wm.myAddress wm.usedKeys := by
  rw [← keys_cleanUp]
  rfl

theorem keys_tidied_subset (hme : wm.myAddress ∈ wm.keys) : wm.tidied.keys ⊆ wm.keys := by
  rw [keys_tidied]
  exact Finset.insert_subset hme (Finset.filter_subset _ _)

theorem wallet_tidied (ha : a ∈ wm.tidied.keys) : wm.tidied.wallet a = wm.wallet a := by
  rw [keys_tidied, Finset.mem_insert] at ha
  change Function.update (cleanUp wm).wallet wm.myAddress (wm.wallet wm.myAddress) a = _
  by_cases hme : a = wm.myAddress
  · subst hme
    rw [Function.update_self]
  · rw [Function.update_of_ne hme, wallet_cleanUp (ha.resolve_left hme)]

/-- The wallets that are deleted. -/
theorem notMem_tidied_iff (ha : a ∈ wm.keys) :
    a ∉ wm.tidied.keys ↔ a ≠ wm.myAddress ∧ (wm.wallet a).unusedWallet = true := by
  rw [keys_tidied, Finset.mem_insert, usedKeys, Finset.mem_filter, not_or, not_and, Bool.not_eq_false]
  exact and_congr_right fun _ => ⟨fun h => h ha, fun h _ => h⟩

/-- A wallet that has been deleted was not used. -/
theorem unused_of_not_mem_tidied (ha : a ∈ wm.keys) (ha' : a ∉ wm.tidied.keys) :
    (wm.wallet a).unusedWallet = true := ((notMem_tidied_iff ha).1 ha').2

theorem sound_newWallet : newWallet.account.Sound := ⟨fun _ => le_rfl, ∅, fun _ _ => rfl, rfl⟩

/-- All accounts are sound. -/
def Sound (wm : WalletManager) : Prop := ∀ a, (wm.book a).Sound

theorem votes_of_unused (hs : (wm.book a).Sound) (h : (wm.wallet a).unusedWallet = true) :
    (wm.book a).votes = 0 := by
  simp only [Wallet.unusedWallet, decide_eq_true_eq] at h
  exact hs.votes_eq_zero h.2.1

/-- An address whose wallet is not there after the clean-up has not voted before. -/
theorem votes_of_not_mem_tidied (hs : wm.Sound) (ha : a ∉ wm.tidied.keys) :
    (wm.book a).votes = 0 := by
  by_cases hmem : a ∈ wm.keys
  · exact votes_of_unused (hs a) (unused_of_not_mem_tidied hmem ha)
  · funext c
    rw [book, wallet_absent hmem]
    rfl

theorem book_tidied_absent (ha : a ∉ wm.tidied.keys) : wm.tidied.book a = newWallet.account := by
  rw [book, wallet_absent ha]

/-- No votes are lost with the wallets that are deleted. -/
def LosesNoVotes (wm : WalletManager) : Prop := ∀ a ∉ wm.tidied.keys, (wm.book a).votes = 0

theorem Sound.losesNoVotes (hs : wm.Sound) : wm.LosesNoVotes := fun _ ha => votes_of_not_mem_tidied hs ha

/-- **The clean-up takes no share from anybody.** -/
theorem stake_tidied (hv : wm.LosesNoVotes) (c : Address) :
    wm.tidied.book.stake E c = wm.book.stake E c := by
  refine Poll.tally_congr fun v => ?_
  by_cases hmem : v ∈ wm.tidied.keys
  · rw [book, wallet_tidied hmem, book]
  · rw [hv v hmem, book_tidied_absent hmem]
    exact (E.share_zero _).trans (E.share_zero _).symm

theorem drift_tidied (hv : wm.LosesNoVotes) (hc : c ∈ wm.tidied.keys) :
    wm.tidied.drift E c = wm.drift E c := by
  rw [drift, drift, stake_tidied hv, wallet_tidied hc]

theorem sound_tidied (hs : wm.Sound) : wm.tidied.Sound := by
  intro a
  by_cases ha : a ∈ wm.tidied.keys
  · rw [book, wallet_tidied ha]
    exact hs a
  · rw [book_tidied_absent ha]
    exact sound_newWallet

/-! ## The reward -/

theorem move_reAssign_of_no_votes {voter : Wallet} {d : Int64} (h : voter.voted.get = 0) :
    Move E wm (wm.reAssign E voter d) 0 := by
  have hwallet : (wm.reAssign E voter d).wallet = wm.wallet := by
    funext c
    rw [wallet_reAssign, h, Pi.zero_apply, E.share_zero, E.share_zero, sub_self,
      Wallet.addVotePower_zero, ite_self]
  refine ⟨⟨rfl, by rw [book_reAssign, add_zero], fun c _ => ?_⟩, rest_reAssign, rfl⟩
  rw [drift, drift, hwallet, book_reAssign]

/-! ## What the wallets count -/

/-- Rewards, fees, and the amount that the last digest block has left. -/
abbrev Counts : Type := Int64 × Int64 × Int64

/-- What a wallet has counted. -/
def counters (wm : WalletManager) (a : Address) : Counts :=
  ((wm.wallet a).blockReward, (wm.wallet a).transactionFee, (wm.wallet a).rollBackAmount)

@[simp]
theorem counters_reAssign {voter : Wallet} {d : Int64} : (wm.reAssign E voter d).counters = wm.counters := by
  funext c
  simp only [counters, wallet_reAssign]
  split_ifs <;> rfl

theorem counters_modifyWallet {f : Wallet → Wallet} : (wm.modifyWallet a f).counters =
    Function.update wm.counters a
      ((f (wm.wallet a)).blockReward, (f (wm.wallet a)).transactionFee,
        (f (wm.wallet a)).rollBackAmount) := by
  funext b
  by_cases hb : b = a
  · subst hb
    simp [counters]
  · simp [counters, wallet_modifyWallet_of_ne hb, Function.update_of_ne hb]

/-! ## The reset -/

/-- The balances of some addresses have become `f` of what they were, and what their wallets
    count `g` of what they counted. -/
structure Rescaled (E : Env) (f : Int64 → Int64) (g : Int64 → Counts → Counts) (l : List Address)
    (wm wm' : WalletManager) : Prop where
  keys : wm'.keys = wm.keys
  book : ∀ a, wm'.book a = { wm.book a with
    balance := if a ∈ l then f (wm.book a).balance else (wm.book a).balance }
  counters : ∀ a, wm'.counters a =
    if a ∈ l then g (wm.book a).balance (wm.counters a) else wm.counters a
  drift : ∀ c ∈ wm.keys, wm'.drift E c = wm.drift E c
  rest : wm'.rest = wm.rest
  executor : wm'.executor = wm.executor

/-- The balances of some addresses have been rolled back. -/
structure RolledBack (E : Env) (l : List Address) (wm wm' : WalletManager) : Prop where
  keys : wm'.keys = wm.keys
  book : ∀ a, wm'.book a = { wm.book a with
    balance := if a ∈ l then E.rollBack (wm.book a).balance else (wm.book a).balance }
  drift : ∀ c ∈ wm.keys, wm'.drift E c = wm.drift E c
  rest : wm'.rest = wm.rest
  executor : wm'.executor = wm.executor

theorem Rescaled.rolledBack {g : Int64 → Counts → Counts} {l : List Address}
    (h : Rescaled E E.rollBack g l wm wm') : RolledBack E l wm wm' :=
  ⟨h.keys, h.book, h.drift, h.rest, h.executor⟩

/-- A wallet gets a new balance, and the candidates it has voted for are told. -/
theorem rescaled_reAssign {f : Int64 → Int64} {g : Int64 → Counts → Counts} {h : Wallet → Wallet}
    (ha : a ∈ wm.keys) (hvoted : (h (wm.wallet a)).voted = (wm.wallet a).voted)
    (hpower : (h (wm.wallet a)).votePower = (wm.wallet a).votePower)
    (haccount : (h (wm.wallet a)).account =
      { (wm.wallet a).account with balance := f (wm.wallet a).balance })
    (hcounts : ((h (wm.wallet a)).blockReward, (h (wm.wallet a)).transactionFee,
      (h (wm.wallet a)).rollBackAmount) = g (wm.wallet a).balance (wm.counters a))
    (h₁ : (h (wm.wallet a)).podfHeights = (wm.wallet a).podfHeights)
    (h₂ : (h (wm.wallet a)).bannedTill = (wm.wallet a).bannedTill) :
    Rescaled E f g [a] wm ((wm.modifyWallet a h).reAssign E ((wm.modifyWallet a h).wallet a)
      (f (wm.wallet a).balance - (wm.wallet a).balance)) where
  keys := Finset.insert_eq_of_mem ha
  book b := by
    rw [book_reAssign, book_modifyWallet]
    by_cases hb : b = a
    · subst hb
      rw [Function.update_self, haccount, if_pos (List.mem_singleton_self _)]
      rfl
    · rw [Function.update_of_ne hb, if_neg (by simpa using hb)]
  counters b := by
    rw [counters_reAssign, counters_modifyWallet]
    by_cases hb : b = a
    · subst hb
      rw [Function.update_self, hcounts, if_pos (List.mem_singleton_self _)]
      rfl
    · rw [Function.update_of_ne hb, if_neg (by simpa using hb)]
  drift c hc := by
    have hbalance : (h (wm.wallet a)).balance = f (wm.wallet a).balance :=
      congrArg Account.balance haccount
    rw [drift_told hvoted hpower (Finset.mem_insert_of_mem hc), hbalance, sub_sub_cancel, sub_self,
      add_zero]
  rest := by
    rw [rest_reAssign]
    exact rest_modifyWallet h₁ h₂
  executor := rfl

theorem resetWallet_spec (ha : a ∈ wm.keys) :
    Spec (resetWallet E a) wm
      (fun _ wm' => Rescaled E E.rollBack (fun b _ => (0, 0, E.rollBack b)) [a] wm wm')
      fun _ _ => False := by
  simp only [resetWallet, spec_bind, spec_get, spec_modify, spec_reAssignVotePower]
  let r := E.rollBack (wm.wallet a).balance
  let w₁ := wm.modifyWallet a fun w => { w with rollBackAmount := r, balance := r }
  let w₂ := w₁.reAssign E (w₁.wallet a) (r - (wm.wallet a).balance)
  have hfirst : Rescaled E E.rollBack (fun b x => (x.1, x.2.1, E.rollBack b)) [a] wm w₂ :=
    rescaled_reAssign ha rfl rfl rfl rfl rfl rfl
  have hlast : Move E w₂ _ 0 := move_modify
    (f := fun w => { w with blockReward := 0, transactionFee := 0, proofReward := 0 })
    (hfirst.keys ▸ ha) rfl rfl rfl rfl
  exact {
    keys := hlast.keys.trans hfirst.keys
    book := fun b => by rw [← hfirst.book b, hlast.book, add_zero]
    counters := fun b => by
      have hb₂ := hfirst.counters b
      rw [counters_modifyWallet]
      by_cases hb : b = a
      · subst hb
        rw [if_pos (List.mem_singleton_self _)] at hb₂ ⊢
        rw [Function.update_self]
        exact congrArg (fun x : Counts => ((0, 0, x.2.2) : Counts)) hb₂
      · rw [Function.update_of_ne hb, hb₂, if_neg (by simpa using hb), if_neg (by simpa using hb)]
    drift := fun c hc => (hlast.drift c (hfirst.keys ▸ hc)).trans (hfirst.drift c hc)
    rest := hlast.rest.trans hfirst.rest
    executor := hlast.executor }

theorem undoResetWallet_spec (ha : a ∈ wm.keys) :
    Spec (undoResetWallet E a) wm
      (fun _ wm' => Rescaled E E.undoRollBack (fun _ x => (x.1, x.2.1, 0)) [a] wm wm')
      fun _ _ => False := by
  simp only [undoResetWallet, spec_bind, spec_get, spec_modify, spec_reAssignVotePower]
  exact rescaled_reAssign ha rfl rfl rfl rfl rfl rfl

/-- The loop over the wallets, each of which is visited once. -/
theorem each_rescaled {body : Address → WM Unit} {f : Int64 → Int64} {g : Int64 → Counts → Counts}
    (hbody : ∀ a wm, a ∈ wm.keys →
      Spec (body a) wm (fun _ wm' => Rescaled E f g [a] wm wm') fun _ _ => False) :
    ∀ (l : List Address) (wm : WalletManager), l.Nodup → (∀ a ∈ l, a ∈ wm.keys) →
      Spec (each body l) wm (fun _ wm' => Rescaled E f g l wm wm') fun _ _ => False
  | [], wm, _, _ => ⟨rfl, fun _ => rfl, fun _ => rfl, fun _ _ => rfl, rfl, rfl⟩
  | a :: l, wm, hnodup, hmem => by
    rw [spec_each_cons]
    rw [List.nodup_cons] at hnodup
    refine (hbody a wm (hmem a (by simp))).mono (fun _ wm₁ h₁ => ?_) fun _ _ h => h
    refine (each_rescaled hbody l wm₁ hnodup.2 fun b hb => h₁.keys ▸ hmem b (by simp [hb])).mono
      (fun _ wm' h => ?_) fun _ _ h => h
    refine ⟨h.keys.trans h₁.keys, fun b => ?_, fun b => ?_, fun c hc => ?_, h.rest.trans h₁.rest,
      h.executor.trans h₁.executor⟩
    · rw [h.book, h₁.book]
      by_cases hb : b = a
      · subst hb
        simp [hnodup.1]
      · simp [hb]
    · rw [h.counters, h₁.counters, h₁.book]
      by_cases hb : b = a
      · subst hb
        simp [hnodup.1]
      · simp [hb]
    · rw [h.drift c (h₁.keys ▸ hc), h₁.drift c hc]

theorem resetWallets_spec (order : MapOrder) (wm : WalletManager) :
    Spec (resetWalletManagerState E order) wm
      (fun _ wm' => Rescaled E E.rollBack (fun b _ => (0, 0, E.rollBack b)) (order.list wm.keys) wm wm')
      fun _ _ => False := by
  rw [resetWalletManagerState, spec_bind, spec_get]
  exact each_rescaled (fun _ _ => resetWallet_spec) _ wm (order.nodup _)
    fun a ha => (order.mem _ a).1 ha

theorem undoDigestReset_spec (order : MapOrder) (wm : WalletManager) :
    Spec (undoDigestReset E order) wm
      (fun _ wm' => Rescaled E E.undoRollBack (fun _ x => (x.1, x.2.1, 0)) (order.list wm.keys) wm wm')
      fun _ _ => False := by
  rw [undoDigestReset, spec_bind, spec_get]
  exact each_rescaled (fun _ _ => undoResetWallet_spec) _ wm (order.nodup _)
    fun a ha => (order.mem _ a).1 ha

theorem resetWalletManagerState_spec (order : MapOrder) (wm : WalletManager) :
    Spec (resetWalletManagerState E order) wm
      (fun _ wm' => RolledBack E (order.list wm.keys) wm wm') fun _ _ => False :=
  (resetWallets_spec order wm).mono (fun _ _ h => h.rolledBack) fun _ _ h => h

/-! ## Digest blocks -/

/-- What the miner of a digest block gets: nothing if the wallet is deleted as unused. -/
def digestReward (E : Env) (miner : Address) (block : PbBlock) (wm : WalletManager) : Book :=
  if miner ∈ wm.tidied.keys then Book.pay miner (blockReward E block) else 0

/-- A digest block has been applied. -/
structure DigestApplied (E : Env) (miner : Address) (order : MapOrder) (block : PbBlock)
    (wm w wm' : WalletManager) : Prop where
  entries : DigestMatches wm block
  rewarded : Move E wm.tidied w (digestReward E miner block wm)
  reset : RolledBack E (order.list w.keys) w wm'

theorem applyDigestBlock_spec (hm : miner ∈ wm.keys) (hv : wm.LosesNoVotes) (block : PbBlock)
    (order : MapOrder) : Spec (applyDigestBlock E block miner order) wm
      (fun _ wm' => ∃ w, DigestApplied E miner order block wm w wm') fun _ _ => True := by
  rw [applyDigestBlock, spec_bind, spec_getWallet, if_pos hm]
  refine (validateDigestBlock_spec block wm).bind ?_ fun _ _ _ => trivial
  rintro _ _ ⟨rfl, hentries⟩
  simp only [spec_bind, spec_get, spec_ite, spec_modify]
  have hreset : ∀ w, Move E wm.tidied w (digestReward E miner block wm) →
      Spec (resetWalletManagerState E order) w
        (fun _ wm' => ∃ w, DigestApplied E miner order block wm w wm') fun _ _ => True :=
    fun w hw => (resetWalletManagerState_spec order w).mono
      (fun _ _ h => ⟨w, hentries, hw, h⟩) fun _ _ h => h.elim
  by_cases hmt : miner ∈ wm.tidied.keys
  · rw [if_pos (by simpa [checkEntryByAddress] using hmt)]
    refine (giveBlockReward_spec hmt block).mono (fun _ w h => hreset w ?_) fun _ _ h => h.elim
    rwa [digestReward, if_pos hmt]
  · rw [if_neg (by simpa [checkEntryByAddress] using hmt)]
    refine hreset _ ?_
    rw [digestReward, if_neg hmt]
    exact move_reAssign_of_no_votes (hv miner hmt)

/-- **What an accepted digest block does.** -/
theorem accepted_digest (hg : block.isGenesis = false) (hd : block.isDigestBlock = true)
    (hv : (wm.put miner).LosesNoVotes)
    (h : checkAndUpdateWalletStates E block miner order wm = (.ok (), wm')) :
    ∃ w, DigestApplied E miner order block (wm.put miner) w wm' := by
  have hm : miner ∈ (wm.put miner).keys := Finset.mem_insert_self _ _
  unfold checkAndUpdateWalletStates at h
  simp only [hg, hd, Bool.false_eq_true, if_false, if_true] at h
  have hspec : Spec (do checkAndPutWalletByAddress miner; applyDigestBlock E block miner order) wm _ _ :=
    spec_bind.2 (spec_checkAndPut.2 (applyDigestBlock_spec hm hv block order))
  exact hspec.ok h

end WalletManager
end Timbre
