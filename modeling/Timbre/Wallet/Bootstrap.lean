/-
  A node that starts from a digest block.

  The wallets are rebuilt from the entries of the block, and the vote power from the votes.
  The votes that the validation lets pass may be incomplete or repeated, and when a miner is
  banned is computed anew.  **`rebuilt_iff` says when the rebuilt wallets are those of the
  nodes that accepted the block.**
-/
import Timbre.Wallet.VotePower

namespace Timbre

open Call

/-! ## The source -/

/-- The height till which a miner is banned, computed from the reports alone. -/
def bannedTillOf (podfHeights : List Int64) : Int64 :=
  match podfHeights.getLast? with
  | some h => if podfHeights.length % blockThresholdToBan = 0 then h + banDuration else -1
  | none => -1

/-- One vote of an entry of a digest block, added to the wallet. -/
def Wallet.loadVote (w : Wallet) (vote : String) : Except Err Wallet :=
  match parseVote vote with
  | .error e => .error e
  | .ok (.unvote, _, _) => .error (.error "Wrong vote action in digest block")
  | .ok (.vote, percent, candID) =>
    match w.checkVoteValidity percent with
    | some e => .error (.error e)
    | none => .ok (Wallet.subVoteLeft { w with voted := w.voted.set candID percent } percent)

/-- The wallet of an entry, before its votes. -/
def AccState.wallet (entry : AccState) : Wallet :=
  { newWallet with
    isCandidate := entry.isCandidate
    podfHeights := entry.podfHeights
    bannedTill := bannedTillOf entry.podfHeights
    nonce := entry.nonce
    balance := entry.balance }

/-- `NewWalletFromDigestEntry`. -/
def newWalletFromDigestEntry (entry : AccState) : Except Err Wallet :=
  entry.votes.foldlM Wallet.loadVote entry.wallet

namespace WalletManager

variable (E : Env)

/-- The share of one candidate of a voter. -/
def addShare (w : Wallet) (cand : Address) : WM Unit := do
  let wm ← get
  if wm.checkEntryByAddress cand then
    modify fun wm => wm.modifyWallet cand fun c =>
      c.addVotePower (E.share (w.voted.get cand) w.balance)
  else throw (.error "Voted cand doesn't exists")

/-- The shares of all candidates of the voter `a`. -/
def addShares (order : MapOrder) (a : Address) : WM Unit := do
  let wm ← get
  Call.each (addShare E (wm.wallet a)) (order.list (wm.wallet a).voted.keys)

/-- `UpdateVotePowerOfAll`. -/
def updateVotePowerOfAll (order : MapOrder) : WM Unit := do
  let wm ← get
  Call.each (addShares E order) (order.list wm.keys)

/-- The wallets, with that of one more entry. -/
def loadEntry (ws : Store Address newWallet) (entry : AccState) :
    Except Err (Store Address newWallet) := do
  let w ← newWalletFromDigestEntry entry
  return ws.set entry.pk w

/-- The wallets of the entries, and one for the node. -/
def loaded (ws : Store Address newWallet) (userAddress : Address) : WalletManager :=
  { newWalletManager userAddress with walletByAddress := ws.touch userAddress }

/-- `NewWmFromDigestBlock`, on a node that knows no deals and no candidates. -/
def newWmFromDigestBlock (order : MapOrder) (digest : PbBlock) (userAddress : Address) :
    Except Err WalletManager := do
  let ws ← digest.accountStates.foldlM loadEntry .empty
  match updateVotePowerOfAll E order (loaded ws userAddress) with
  | (.ok _, wm) => return wm
  | (.error e, _) => throw e

/-! ## The wallet of an entry -/

/-- The candidate of a vote. -/
def candOf (vote : String) : Address :=
  match parseVote vote with
  | .ok (_, _, c) => c
  | .error _ => ""

variable {E} {wm wm' W R : WalletManager} {a c : Address} {w w' wal : Wallet} {entry : AccState}
  {order : MapOrder} {digest : PbBlock} {user : Address} {votes : List String}

/-- The wallets agree on everything but the votes. -/
def SameBut (w w' : Wallet) : Prop := { w' with voted := w.voted, voteLeft := w.voteLeft } = w

theorem loadVote_ok {vote : String} (h : w.loadVote vote = .ok w') (hm : VoteMatches wal vote) :
    w'.voted = w.voted.set (candOf vote) (wal.voted.get (candOf vote)) ∧
      w'.voteLeft = w.voteLeft - wal.voted.get (candOf vote) ∧ SameBut w w' := by
  obtain ⟨action, c, hparse, -⟩ := hm
  have hcand : candOf vote = c := by simp [candOf, hparse]
  unfold Wallet.loadVote at h
  rw [hparse] at h
  cases action with
  | unvote => cases h
  | vote =>
    dsimp only at h
    split at h
    · cases h
    · cases h
      rw [hcand]
      exact ⟨rfl, rfl, rfl⟩

/-- The votes of an entry, as they are loaded. -/
theorem loadVotes_ok : ∀ {votes : List String} {w w' : Wallet},
    votes.foldlM Wallet.loadVote w = .ok w' → (∀ vote ∈ votes, VoteMatches wal vote) →
    (∀ c, w'.voted.get c = if c ∈ votes.map candOf then wal.voted.get c else w.voted.get c) ∧
      w'.voteLeft = w.voteLeft - ((votes.map candOf).map wal.voted.get).sum ∧ SameBut w w'
  | [], w, w', h, _ => by
    cases h
    exact ⟨fun c => by simp, by simp, rfl⟩
  | vote :: votes, w, w', h, hm => by
    rw [List.foldlM_cons] at h
    rcases hw : w.loadVote vote with e | w₁
    · rw [hw] at h
      cases h
    · rw [hw] at h
      obtain ⟨hv, hl, hs⟩ := loadVote_ok hw (hm vote (by simp))
      obtain ⟨hv', hl', hs'⟩ := loadVotes_ok h fun v hv => hm v (by simp [hv])
      refine ⟨fun c => ?_, ?_, ?_⟩
      · rw [hv', hv, Store.get_set]
        by_cases hc : c = candOf vote
        · subst hc
          simp
        · simp [hc]
      · rw [hl', hl, List.map_cons, List.map_cons, List.sum_cons]
        omega
      · unfold SameBut at hs hs' ⊢
        exact (congrArg (fun x : Wallet => { x with voted := w.voted, voteLeft := w.voteLeft }) hs').trans hs

/-- The wallets agree on what a digest block carries; the vote power is left out. -/
structure SameWallet (w w' : Wallet) : Prop where
  balance : w.balance = w'.balance
  nonce : w.nonce = w'.nonce
  votes : w.voted.get = w'.voted.get
  voteLeft : w.voteLeft = w'.voteLeft
  isCandidate : w.isCandidate = w'.isCandidate
  podfHeights : w.podfHeights = w'.podfHeights
  bannedTill : w.bannedTill = w'.bannedTill

/-- The votes name every candidate that the wallet gives something to, and name it once. -/
def ListsVotes (votes : List String) (w : Wallet) : Prop :=
  ∀ c, w.voted.get c ≠ 0 → (votes.map candOf).count c = 1

/-- When the wallet of an entry is the one that the entry has been compared with. -/
theorem sameWallet_entry_iff (h : newWalletFromDigestEntry entry = .ok w) (hm : EntryMatches W entry)
    (hs : (W.book entry.pk).Sound) :
    SameWallet w (W.wallet entry.pk) ↔ ListsVotes entry.votes (W.wallet entry.pk) ∧
      (W.wallet entry.pk).bannedTill = bannedTillOf entry.podfHeights := by
  obtain ⟨hvotes, hleft, hsame⟩ := loadVotes_ok h hm.votes
  have hb : w.balance = entry.balance := congrArg Wallet.balance hsame
  have hn : w.nonce = entry.nonce := congrArg Wallet.nonce hsame
  have hc : w.isCandidate = entry.isCandidate := congrArg Wallet.isCandidate hsame
  have hp : w.podfHeights = entry.podfHeights := congrArg Wallet.podfHeights hsame
  have ht : w.bannedTill = bannedTillOf entry.podfHeights := congrArg Wallet.bannedTill hsame
  have hleft' : w.voteLeft = 100 - ((entry.votes.map candOf).map (W.wallet entry.pk).voted.get).sum := hleft
  obtain ⟨S, hS, htotal⟩ := hs.total
  have htotal' : ∑ c ∈ S, (W.wallet entry.pk).voted.get c + (W.wallet entry.pk).voteLeft = 100 := htotal
  have hget : w.voted.get = (W.wallet entry.pk).voted.get ↔
      ∀ c, (W.wallet entry.pk).voted.get c ≠ 0 → c ∈ entry.votes.map candOf := by
    constructor
    · intro heq c hne
      by_contra hmem
      rw [← heq, hvotes, if_neg hmem] at hne
      exact hne rfl
    · intro hmem
      funext c
      rw [hvotes]
      split_ifs with hc
      · rfl
      · by_contra hne
        exact hc (hmem c (Ne.symm hne))
  have hlist : (∀ c, (W.wallet entry.pk).voted.get c ≠ 0 → c ∈ entry.votes.map candOf) →
      (((entry.votes.map candOf).map (W.wallet entry.pk).voted.get).sum =
        ∑ c ∈ S, (W.wallet entry.pk).voted.get c ↔ ListsVotes entry.votes (W.wallet entry.pk)) :=
    Poll.sum_listed_iff hs.nonneg hS
  constructor
  · rintro hw
    have hmem := hget.1 hw.votes
    refine ⟨(hlist hmem).1 ?_, hw.bannedTill.symm.trans ht⟩
    have := hw.voteLeft
    omega
  · rintro ⟨hlists, hban⟩
    have hmem : ∀ c, (W.wallet entry.pk).voted.get c ≠ 0 → c ∈ entry.votes.map candOf :=
      fun c hne => List.count_pos_iff.1 (by rw [hlists c hne]; exact Nat.one_pos)
    have hsum := (hlist hmem).2 hlists
    refine ⟨hb.trans hm.balance.symm, hn.trans hm.nonce.symm, hget.2 hmem, ?_,
      hc.trans hm.isCandidate.symm, hp.trans hm.podfHeights.symm, ht.trans hban.symm⟩
    omega

/-! ## The wallets of the entries -/

/-- The wallets that are loaded. -/
theorem loadEntries_ok : ∀ {entries : List AccState} {ws ws' : Store Address newWallet},
    entries.foldlM loadEntry ws = .ok ws' → (entries.map AccState.pk).Nodup →
    ws'.keys = ws.keys ∪ (entries.map AccState.pk).toFinset ∧
      (∀ entry ∈ entries, newWalletFromDigestEntry entry = .ok (ws'.get entry.pk)) ∧
      ∀ a ∉ entries.map AccState.pk, ws'.get a = ws.get a
  | [], ws, ws', h, _ => by
    cases h
    simp
  | entry :: entries, ws, ws', h, hnodup => by
    rw [List.foldlM_cons] at h
    rw [List.map_cons, List.nodup_cons] at hnodup
    unfold loadEntry at h
    rcases hw : newWalletFromDigestEntry entry with e | w
    · rw [hw] at h
      cases h
    · rw [hw] at h
      have h' : entries.foldlM loadEntry (ws.set entry.pk w) = .ok ws' := h
      obtain ⟨hkeys, hload, hrest⟩ := loadEntries_ok h' hnodup.2
      refine ⟨?_, ?_, fun a ha => ?_⟩
      · rw [hkeys, Store.keys_set, List.map_cons, List.toFinset_cons, Finset.insert_union,
          Finset.union_insert]
      · simp only [List.mem_cons, forall_eq_or_imp]
        refine ⟨?_, hload⟩
        rw [hrest entry.pk hnodup.1, Store.get_set, Function.update_self, hw]
      · rw [List.map_cons, List.mem_cons, not_or] at ha
        rw [hrest a ha.2, Store.get_set, Function.update_of_ne ha.1]

/-! ## The vote power -/

/-- The vote power of every wallet has grown by `p`. -/
structure Powered (p : Address → UInt64) (wm wm' : WalletManager) : Prop where
  keys : wm'.keys = wm.keys
  wallet : ∀ c, wm'.wallet c = (wm.wallet c).addVotePower (p c)
  me : wm'.myAddress = wm.myAddress

theorem Powered.zero (wm : WalletManager) : Powered 0 wm wm :=
  ⟨rfl, fun _ => (Wallet.addVotePower_zero _).symm, rfl⟩

theorem Powered.trans {wm₁ : WalletManager} {p q : Address → UInt64} (h : Powered p wm wm₁)
    (h' : Powered q wm₁ wm') : Powered (p + q) wm wm' where
  keys := h'.keys.trans h.keys
  wallet c := by
    rw [h'.wallet, h.wallet, Wallet.addVotePower, Wallet.addVotePower, Wallet.addVotePower, Pi.add_apply]
    simp only [UInt64.add_assoc]
  me := h'.me.trans h.me

theorem Powered.book {p : Address → UInt64} (h : Powered p wm wm') : wm'.book = wm.book := by
  funext a
  rw [WalletManager.book, h.wallet]
  rfl

theorem addShare_spec (w : Wallet) (cand : Address) (wm : WalletManager) : Spec (addShare E w cand) wm
    (fun _ wm' => cand ∈ wm.keys ∧
      Powered (fun c => if c = cand then E.share (w.voted.get c) w.balance else 0) wm wm')
    fun _ _ => cand ∉ wm.keys := by
  simp only [addShare, spec_bind, spec_get, spec_ite, spec_modify, spec_throw, checkEntryByAddress,
    decide_eq_true_eq]
  refine ite_intro (fun hc => ⟨hc, Finset.insert_eq_of_mem hc, fun c => ?_, rfl⟩) fun hc => hc
  by_cases h : c = cand
  · subst h
    rw [wallet_modifyWallet_self, if_pos rfl]
  · rw [wallet_modifyWallet_of_ne h, if_neg h, Wallet.addVotePower_zero]

/-- The candidates of a voter get their shares, if they all have wallets. -/
theorem addShare_each (w : Wallet) : ∀ (l : List Address) (wm : WalletManager), l.Nodup →
    Spec (each (addShare E w) l) wm
      (fun _ wm' => (∀ c ∈ l, c ∈ wm.keys) ∧
        Powered (fun c => if c ∈ l then E.share (w.voted.get c) w.balance else 0) wm wm')
      fun _ _ => ∃ c ∈ l, c ∉ wm.keys
  | [], wm, _ => ⟨by simp, .zero wm⟩
  | cand :: l, wm, hnodup => by
    rw [List.nodup_cons] at hnodup
    rw [spec_each_cons]
    refine (addShare_spec w cand wm).mono (fun _ wm₁ h₁ => ?_) fun _ _ h => ⟨cand, by simp, h⟩
    refine (addShare_each w l wm₁ hnodup.2).mono (fun _ wm' h => ⟨?_, ?_⟩) fun _ _ h => ?_
    · simp only [List.mem_cons, forall_eq_or_imp]
      exact ⟨h₁.1, fun c hc => h₁.2.keys ▸ h.1 c hc⟩
    · convert h₁.2.trans h.2 using 1
      funext c
      by_cases hc : c = cand
      · subst hc
        simp [hnodup.1]
      · simp [hc]
    · obtain ⟨c, hc, hmem⟩ := h
      exact ⟨c, by simp [hc], h₁.2.keys ▸ hmem⟩

theorem addShares_spec (order : MapOrder) (a : Address) (wm : WalletManager) :
    Spec (addShares E order a) wm
      (fun _ wm' => (wm.wallet a).voted.keys ⊆ wm.keys ∧
        Powered (fun c => E.share ((wm.wallet a).voted.get c) (wm.wallet a).balance) wm wm')
      fun _ _ => ¬ (wm.wallet a).voted.keys ⊆ wm.keys := by
  rw [addShares, spec_bind, spec_get]
  refine (addShare_each _ _ wm (order.nodup _)).mono (fun _ wm' h => ⟨fun c hc => ?_, ?_⟩) ?_
  · exact h.1 c ((order.mem _ c).2 hc)
  · convert h.2 using 1
    funext c
    split_ifs with hc
    · rfl
    · rw [(wm.wallet a).voted.get_absent c fun h => hc ((order.mem _ c).2 h), E.share_zero]
  · rintro _ _ ⟨c, hc, hmem⟩ hsub
    exact hmem (hsub ((order.mem _ c).1 hc))

theorem addShares_each (order : MapOrder) : ∀ (l : List Address) (wm : WalletManager),
    Spec (each (addShares E order) l) wm
      (fun _ wm' => (∀ a ∈ l, (wm.wallet a).voted.keys ⊆ wm.keys) ∧ Powered (fun c =>
        (l.map fun a => E.share ((wm.wallet a).voted.get c) (wm.wallet a).balance).sum) wm wm')
      fun _ _ => ∃ a ∈ l, ¬ (wm.wallet a).voted.keys ⊆ wm.keys
  | [], wm => ⟨by simp, .zero wm⟩
  | a :: l, wm => by
    rw [spec_each_cons]
    refine (addShares_spec order a wm).mono (fun _ wm₁ h₁ => ?_) fun _ _ h => ⟨a, by simp, h⟩
    have hwallet : ∀ b, (wm₁.wallet b).voted = (wm.wallet b).voted ∧
        (wm₁.wallet b).balance = (wm.wallet b).balance := fun b => by
      rw [h₁.2.wallet]
      exact ⟨rfl, rfl⟩
    refine (addShares_each order l wm₁).mono (fun _ wm' h => ⟨?_, ?_⟩) fun _ _ h => ?_
    · simp only [List.mem_cons, forall_eq_or_imp]
      refine ⟨h₁.1, fun b hb => ?_⟩
      rw [← (hwallet b).1, ← h₁.2.keys]
      exact h.1 b hb
    · convert h₁.2.trans h.2 using 1
      funext c
      simp only [List.map_cons, List.sum_cons, Pi.add_apply, hwallet]
    · obtain ⟨b, hb, hsub⟩ := h
      rw [(hwallet b).1, h₁.2.keys] at hsub
      exact ⟨b, by simp [hb], hsub⟩

/-- Everybody who has been voted for has a wallet. -/
def VotedHaveWallets (wm : WalletManager) : Prop := ∀ a ∈ wm.keys, (wm.wallet a).voted.keys ⊆ wm.keys

instance (wm : WalletManager) : Decidable (VotedHaveWallets wm) :=
  inferInstanceAs (Decidable (∀ a ∈ wm.keys, (wm.wallet a).voted.keys ⊆ wm.keys))

/-- **Every wallet gets the shares of its voters.** -/
theorem updateVotePowerOfAll_spec (order : MapOrder) (wm : WalletManager) :
    Spec (updateVotePowerOfAll E order) wm
      (fun _ wm' => VotedHaveWallets wm ∧ Powered (wm.book.stake E) wm wm')
      fun _ _ => ¬ VotedHaveWallets wm := by
  rw [updateVotePowerOfAll, spec_bind, spec_get]
  refine (addShares_each order (order.list wm.keys) wm).mono (fun _ wm' h => ⟨fun a ha => ?_, ?_⟩) ?_
  · exact h.1 a ((order.mem _ a).2 ha)
  · convert h.2 using 1
    funext c
    have hkeys : (order.list wm.keys).toFinset = wm.keys := by
      ext a
      rw [List.mem_toFinset, order.mem]
    rw [stake_eq_sum subset_rfl, ← List.sum_toFinset _ (order.nodup _), hkeys]
  · rintro _ _ ⟨a, ha, hsub⟩ h
    exact hsub (h a ((order.mem _ a).1 ha))

/-! ## The rebuilt wallets -/

/-- The wallets have been rebuilt from the entries of a digest block, with a wallet for the
    node. -/
structure Rebuilt (E : Env) (digest : PbBlock) (user : Address) (R : WalletManager) : Prop where
  me : R.myAddress = user
  keys : R.keys = insert user (digest.accountStates.map AccState.pk).toFinset
  voted : VotedHaveWallets R
  entries : ∀ entry ∈ digest.accountStates, ∃ w, newWalletFromDigestEntry entry = .ok w ∧
    R.wallet entry.pk = w.addVotePower (R.book.stake E entry.pk)
  absent : ∀ a ∉ digest.accountStates.map AccState.pk,
    R.wallet a = newWallet.addVotePower (R.book.stake E a)

/-- The wallets can be rebuilt if the entries are well formed and everybody who has been voted
    for has a wallet. -/
theorem exists_newWmFromDigestBlock {ws : Store Address newWallet}
    (hws : digest.accountStates.foldlM loadEntry .empty = .ok ws) (hvoted : VotedHaveWallets (loaded ws user)) :
    ∃ R, newWmFromDigestBlock E order digest user = .ok R := by
  have hspec := updateVotePowerOfAll_spec (E := E) order (loaded ws user)
  unfold newWmFromDigestBlock
  rw [hws]
  change ∃ R, (match updateVotePowerOfAll E order (loaded ws user) with
    | (.ok _, wm) => pure wm | (.error e, _) => throw e : Except Err WalletManager) = _
  rcases hupdate : updateVotePowerOfAll E order (loaded ws user) with ⟨_ | _, wm⟩
  · exact absurd hvoted (hspec.error hupdate)
  · exact ⟨wm, rfl⟩

theorem newWmFromDigestBlock_ok (hnodup : (digest.accountStates.map AccState.pk).Nodup)
    (h : newWmFromDigestBlock E order digest user = .ok R) : Rebuilt E digest user R := by
  unfold newWmFromDigestBlock at h
  rcases hws : digest.accountStates.foldlM loadEntry .empty with e | ws
  · rw [hws] at h
    cases h
  rw [hws] at h
  obtain ⟨hkeys, hload, habsent⟩ := loadEntries_ok hws hnodup
  have hspec := updateVotePowerOfAll_spec (E := E) order (loaded ws user)
  rcases hupdate : updateVotePowerOfAll E order (loaded ws user) with ⟨e | _, wm⟩
  · change (match updateVotePowerOfAll E order (loaded ws user) with
      | (.ok _, wm) => pure wm | (.error e, _) => throw e : Except Err WalletManager) = _ at h
    rw [hupdate] at h
    cases h
  · change (match updateVotePowerOfAll E order (loaded ws user) with
      | (.ok _, wm) => pure wm | (.error e, _) => throw e : Except Err WalletManager) = _ at h
    rw [hupdate] at h
    cases h
    obtain ⟨hvoted, hpower⟩ := hspec.ok hupdate
    have hwallet : ∀ a, R.wallet a = (ws.get a).addVotePower (R.book.stake E a) := fun a => by
      rw [hpower.book, hpower.wallet]
      rfl
    refine ⟨hpower.me, ?_, fun a ha => ?_, fun entry he => ⟨_, hload entry he, hwallet _⟩, fun a ha => ?_⟩
    · rw [hpower.keys]
      change insert user ws.keys = _
      rw [hkeys]
      exact congrArg (insert user) (Finset.empty_union _)
    · rw [hpower.keys] at ha ⊢
      have := hvoted a ha
      rwa [hpower.wallet]
    · rw [hwallet, habsent a ha]
      rfl

theorem SameWallet.power_iff {n : UInt64} : SameWallet (w.addVotePower n) w' ↔ SameWallet w w' :=
  ⟨fun h => ⟨h.1, h.2, h.3, h.4, h.5, h.6, h.7⟩, fun h => ⟨h.1, h.2, h.3, h.4, h.5, h.6, h.7⟩⟩

/-- The wallets that are used are those of the entries. -/
theorem DigestMatches.mem_pks (h : DigestMatches W digest) :
    a ∈ digest.accountStates.map AccState.pk ↔ a ∈ W.usedKeys := by
  have hsub : (digest.accountStates.map AccState.pk).toFinset ⊆ W.usedKeys := by
    intro b hb
    rw [List.mem_toFinset, List.mem_map] at hb
    obtain ⟨entry, he, rfl⟩ := hb
    exact (h.entries entry he).2
  have hcard : (digest.accountStates.map AccState.pk).toFinset.card = W.usedKeys.card := by
    rw [List.toFinset_card_of_nodup h.nodup, List.length_map, h.length]
  rw [← Finset.eq_of_subset_of_card_le hsub hcard.ge, List.mem_toFinset]

/-- The condition on the wallets and the digest block: every entry lists the votes of its
    wallet, no miner is banned otherwise than its reports say, and nobody whose wallet is not
    used has a nonce or a PoDF record. -/
structure Bootstraps (W : WalletManager) (digest : PbBlock) : Prop where
  votes : ∀ entry ∈ digest.accountStates, ListsVotes entry.votes (W.wallet entry.pk)
  banned : ∀ a ∈ W.usedKeys, (W.wallet a).bannedTill = bannedTillOf (W.wallet a).podfHeights
  unused : ∀ a, (W.wallet a).unusedWallet = true →
    (W.wallet a).nonce = 0 ∧ (W.wallet a).podfHeights = [] ∧ (W.wallet a).bannedTill = -1

theorem sameWallet_unused (hs : (W.book a).Sound) (hu : (W.wallet a).unusedWallet = true) :
    SameWallet newWallet (W.wallet a) ↔ (W.wallet a).nonce = 0 ∧ (W.wallet a).podfHeights = [] ∧
      (W.wallet a).bannedTill = -1 := by
  have hvotes : (W.wallet a).voted.get = 0 := votes_of_unused hs hu
  simp only [Wallet.unusedWallet, decide_eq_true_eq] at hu
  constructor
  · exact fun h => ⟨h.nonce.symm, h.podfHeights.symm, h.bannedTill.symm⟩
  · rintro ⟨hn, hp, hb⟩
    exact ⟨hu.1.symm, hn.symm, hvotes.symm, hu.2.1.symm, hu.2.2.2.2.symm, hp.symm, hb.symm⟩

theorem rebuilt_sameWallet_iff (hs : W.Sound) (hm : DigestMatches W digest) (hR : Rebuilt E digest user R) :
    (∀ a, SameWallet (R.wallet a) (W.wallet a)) ↔ Bootstraps W digest := by
  have hentry : ∀ entry ∈ digest.accountStates, (SameWallet (R.wallet entry.pk) (W.wallet entry.pk) ↔
      ListsVotes entry.votes (W.wallet entry.pk) ∧
        (W.wallet entry.pk).bannedTill = bannedTillOf (W.wallet entry.pk).podfHeights) := by
    intro entry he
    obtain ⟨w, hw, hwallet⟩ := hR.entries entry he
    have hmatch := (hm.entries entry he).1
    rw [hwallet, SameWallet.power_iff, sameWallet_entry_iff hw hmatch (hs _), hmatch.podfHeights]
  have hunused : ∀ a ∉ W.usedKeys, (W.wallet a).unusedWallet = true := by
    intro a ha
    by_cases hmem : a ∈ W.keys
    · by_contra h
      exact ha (Finset.mem_filter.2 ⟨hmem, by simpa using h⟩)
    · rw [wallet_absent hmem]
      rfl
  have habsent : ∀ a ∉ W.usedKeys, (SameWallet (R.wallet a) (W.wallet a) ↔ (W.wallet a).nonce = 0 ∧
      (W.wallet a).podfHeights = [] ∧ (W.wallet a).bannedTill = -1) := by
    intro a ha
    rw [hR.absent a (mt hm.mem_pks.1 ha), SameWallet.power_iff, sameWallet_unused (hs a) (hunused a ha)]
  constructor
  · intro h
    refine ⟨fun entry he => ((hentry entry he).1 (h _)).1, fun a ha => ?_, fun a hu => ?_⟩
    · obtain ⟨entry, he, rfl⟩ := List.mem_map.1 (hm.mem_pks.2 ha)
      exact ((hentry entry he).1 (h _)).2
    · refine (habsent a fun hmem => ?_).1 (h a)
      have := (Finset.mem_filter.1 hmem).2
      rw [hu] at this
      cases this
  · intro h a
    by_cases ha : a ∈ W.usedKeys
    · obtain ⟨entry, he, rfl⟩ := List.mem_map.1 (hm.mem_pks.2 ha)
      exact (hentry entry he).2 ⟨h.votes entry he, h.banned _ ha⟩
    · exact (habsent a ha).2 (h.unused a (hunused a ha))

/-- **A node that starts from an accepted digest block has the wallets of the nodes that
    accepted it exactly if the block lists all votes and the wallets hold nothing that the
    block leaves out.** -/
theorem rebuilt_iff (E : Env) (order : MapOrder) (digest : PbBlock) (user : Address) (es : List Event)
    (wm₀ W W' R : WalletManager) (hfresh : Fresh wm₀) (hrun : Run E es wm₀ W)
    (haccepted : validateDigestBlock digest W = (.ok (), W'))
    (hrebuilt : newWmFromDigestBlock E order digest user = .ok R) :
    (∀ a, SameWallet (R.wallet a) (W.wallet a)) ↔ Bootstraps W digest := by
  have hm := ((validateDigestBlock_spec digest W).ok haccepted).2
  exact rebuilt_sameWallet_iff (hrun.good hfresh.good).sound hm (newWmFromDigestBlock_ok hm.nodup hrebuilt)

/-! ## An entry with its vote, and without -/

/-- A digest block after `"a"` has voted for the miner, with some votes in the entry of `"a"`. -/
def digestWith (votes : List String) : PbBlock :=
  { PbBlock.simple [] [] [] with
    accountStates := [⟨"m", 10000011, [], false, [], 0⟩, ⟨"a", 9999999, votes, false, [], 1⟩] }

/-- The wallets that are rebuilt from it. -/
def rebuiltWith (votes : List String) : WalletManager :=
  match newWmFromDigestBlock Env.simple .sorted (digestWith votes) "n" with
  | .ok R => R
  | .error _ => newWalletManager "n"

theorem rebuilt_rebuiltWith {ws : Store Address newWallet}
    (hws : (digestWith votes).accountStates.foldlM loadEntry .empty = .ok ws)
    (hvoted : VotedHaveWallets (loaded ws "n")) :
    newWmFromDigestBlock Env.simple .sorted (digestWith votes) "n" = .ok (rebuiltWith votes) := by
  have hexists : ∃ R, newWmFromDigestBlock Env.simple .sorted (digestWith votes) "n" = .ok R :=
    exists_newWmFromDigestBlock hws hvoted
  obtain ⟨R, hR⟩ := hexists
  rw [rebuiltWith, hR]

theorem rebuilt_iff_voteForMiner :
    (∀ a, SameWallet ((rebuiltWith ["+50|m"]).wallet a) ((afterBlock voteForMiner).wallet a)) ↔
      Bootstraps (afterBlock voteForMiner) (digestWith ["+50|m"]) :=
  rebuilt_iff Env.simple .sorted (digestWith ["+50|m"]) "n" [.block voteForMiner "m"] (newWalletManager "m")
    (afterBlock voteForMiner) _ (rebuiltWith ["+50|m"]) (fresh_newWalletManager "m")
    (.single happens_voteForMiner) (ok_of_fst (by decide +kernel)) (rebuilt_rebuiltWith rfl (by decide +kernel))

/-- A digest block without the vote of `"a"` is accepted, and rebuilt with no vote of `"a"`. -/
theorem not_rebuilt : ¬ ∀ (E : Env) (order : MapOrder) (digest : PbBlock) (user : Address)
    (es : List Event) (wm₀ W W' R : WalletManager), Fresh wm₀ → Run E es wm₀ W →
    validateDigestBlock digest W = (.ok (), W') → newWmFromDigestBlock E order digest user = .ok R →
    ∀ a, SameWallet (R.wallet a) (W.wallet a) := by
  intro h
  have hR : newWmFromDigestBlock Env.simple .sorted (digestWith []) "n" = .ok (rebuiltWith []) :=
    rebuilt_rebuiltWith rfl (by decide +kernel)
  have hsame := h Env.simple .sorted (digestWith []) "n" _ _ _ _ _ (fresh_newWalletManager "m")
    (.single happens_voteForMiner) (ok_of_fst (by decide +kernel)) hR "a"
  have hfull : ((rebuiltWith []).wallet "a").voteLeft = 100 := by
    obtain ⟨w, hw, hwallet⟩ := (newWmFromDigestBlock_ok (by decide) hR).entries
      ⟨"a", 9999999, [], false, [], 1⟩ (by decide)
    cases hw
    exact congrArg Wallet.voteLeft hwallet
  have hhalf : ((afterBlock voteForMiner).wallet "a").voteLeft = 50 := by decide +kernel
  have := hsame.voteLeft
  omega

end WalletManager
end Timbre
