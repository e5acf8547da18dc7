/-
  The digest block that a miner builds from its wallets.

  The list of entries is sized by the number of wallets, and filled after the wallets that are
  not used have been deleted.  **`generated_iff` says when such a block can be accepted and
  gives every node back the wallets that it was built from.**
-/
import Timbre.Wallet.Bootstrap
import Timbre.Wallet.Votes

namespace Timbre

open Call

/-! ## The source -/

/-- `GetVoteArray`. -/
def Wallet.getVoteArray (order : MapOrder) (w : Wallet) : List String :=
  (order.list w.voted.keys).map fun k => voteText (w.voted.get k) k

/-- The block of `CreateEmptyBlock`, with the entries that it gets. -/
def createEmptyBlock (height : Int64) (minerPublicKey : Address) (roundNum : Int64)
    (accountStates : List AccState) : PbBlock where
  height
  minerPublicKey
  roundNum
  transactions := []
  deals := []
  chPrPair := []
  votes := []
  accountStates

namespace WalletManager

/-- The entry for the wallet of `id`. -/
def accState (votesOrder : Address → MapOrder) (wm : WalletManager) (id : Address) : AccState where
  pk := id
  balance := (wm.wallet id).balance
  votes := (wm.wallet id).getVoteArray (votesOrder id)
  isCandidate := (wm.wallet id).isCandidate
  podfHeights := (wm.wallet id).podfHeights
  nonce := (wm.wallet id).nonce

/-- The loop that puts the entries into the slots of the block. -/
def fillStates : (count : ℕ) → List AccState → List (Option AccState) → WM (List (Option AccState))
  | _, [], slots => pure slots
  | count, entry :: entries, slots => do
    if slots.length ≤ count then throw (.panic "index out of range")
    fillStates (count + 1) entries (slots.set count (some entry))

/-- `CleanAndAddBlockState`. -/
def cleanAndAddBlockState (order : MapOrder) (votesOrder : Address → MapOrder)
    (slots : List (Option AccState)) : WM (List (Option AccState)) := do
  let myWallet := (← get).wallet (← get).myAddress
  modify cleanUp
  let wm ← get
  let slots ← fillStates 0 ((order.list wm.keys).map (accState votesOrder wm)) slots
  modify fun wm => { wm with walletByAddress := wm.walletByAddress.set wm.myAddress myWallet }
  return slots

/-- The account states of the block in `GenerateDigestBlock`: `TotalWallets` slots are made,
    and then filled. -/
def generateAccountStates (order : MapOrder) (votesOrder : Address → MapOrder) :
    WM (List (Option AccState)) := do
  let accEntries := (← get).keys.card
  cleanAndAddBlockState order votesOrder (List.replicate accEntries none)

variable {E : Env} {wm wm' W R : WalletManager} {a c user miner : Address} {order : MapOrder}
  {votesOrder : Address → MapOrder} {w w' : Wallet}

/-! ## The entries -/

theorem fillStates_spec : ∀ (entries : List AccState) (filled free : List (Option AccState)) (wm : WalletManager),
    entries.length ≤ free.length → Spec (fillStates filled.length entries (filled ++ free)) wm
      (fun slots wm' => wm' = wm ∧ slots = filled ++ entries.map some ++ free.drop entries.length)
      fun _ _ => False
  | [], filled, free, wm, _ => by simp [fillStates]
  | entry :: entries, filled, slot :: free, wm, hlen => by
    have hslots : (filled ++ slot :: free).set filled.length (some entry) =
        (filled ++ [some entry]) ++ free := by simp
    have hnext := fillStates_spec entries (filled ++ [some entry]) free wm (by simpa using hlen)
    simp only [fillStates, spec_ite, spec_bind, spec_throw, hslots]
    rw [if_neg (by simp)]
    simpa using hnext

/-- The entries of the wallets that are used. -/
def usedEntries (order : MapOrder) (votesOrder : Address → MapOrder) (wm : WalletManager) : List AccState :=
  (order.list wm.usedKeys).map (accState votesOrder wm)

theorem MapOrder.length_list (order : MapOrder) (s : Finset Address) : (order.list s).length = s.card := by
  rw [← List.toFinset_card_of_nodup (order.nodup s)]
  congr 1
  ext a
  rw [List.mem_toFinset, order.mem]

theorem card_usedKeys_le (wm : WalletManager) : wm.usedKeys.card ≤ wm.keys.card :=
  Finset.card_le_card (Finset.filter_subset _ _)

/-- What a miner generates: the slots of the wallets that are deleted stay empty. -/
theorem generateAccountStates_spec (order : MapOrder) (votesOrder : Address → MapOrder) (wm : WalletManager) :
    Spec (generateAccountStates order votesOrder) wm
      (fun slots wm' => wm' = wm.tidied ∧ slots = (usedEntries order votesOrder wm).map some ++
        List.replicate (wm.keys.card - wm.usedKeys.card) none) fun _ _ => False := by
  have hentries : (order.list (cleanUp wm).keys).map (accState votesOrder (cleanUp wm)) =
      usedEntries order votesOrder wm := by
    rw [usedEntries, keys_cleanUp]
    refine List.map_congr_left fun a ha => ?_
    rw [accState, accState, wallet_cleanUp ((order.mem _ a).1 ha)]
  have hlen : (usedEntries order votesOrder wm).length = wm.usedKeys.card := by
    rw [usedEntries, List.length_map, MapOrder.length_list]
  have hfill := fillStates_spec (usedEntries order votesOrder wm) [] (List.replicate wm.keys.card none)
    (cleanUp wm) (by rw [hlen, List.length_replicate]; exact card_usedKeys_le wm)
  simp only [generateAccountStates, cleanAndAddBlockState, spec_bind, spec_get, spec_modify, spec_pure,
    hentries]
  refine hfill.mono ?_ fun _ _ h => h
  rintro slots _ ⟨rfl, rfl⟩
  refine ⟨rfl, ?_⟩
  rw [List.nil_append, hlen, List.drop_replicate]

/-- The block has an entry in every slot exactly if all wallets are used. -/
theorem filled_iff {entries : List AccState} (h : generateAccountStates order votesOrder W = (.ok (entries.map some), wm')) :
    entries = usedEntries order votesOrder W ∧ wm' = W.tidied ∧ ∀ a ∈ W.keys, (W.wallet a).unusedWallet = false := by
  obtain ⟨rfl, hslots⟩ := (generateAccountStates_spec order votesOrder W).ok h
  have hnone : W.keys.card - W.usedKeys.card = 0 := by
    by_contra hpos
    have hmem : none ∈ entries.map some := by
      rw [hslots]
      exact List.mem_append_right _ (List.mem_replicate.2 ⟨hpos, rfl⟩)
    simp at hmem
  rw [hnone, List.replicate_zero, List.append_nil] at hslots
  have hkeys : W.usedKeys = W.keys :=
    Finset.eq_of_subset_of_card_le (Finset.filter_subset _ _) (by omega)
  refine ⟨List.map_injective_iff.2 (Option.some_injective _) hslots, rfl, fun a ha => ?_⟩
  rw [← hkeys] at ha
  exact (Finset.mem_filter.1 ha).2

/-! ## The votes of an entry -/

/-- No more is given than there is, and every candidate can be named in a vote. -/
structure WellFormed (w : Wallet) : Prop where
  left : 0 ≤ w.voteLeft
  named : ∀ c ∈ w.voted.keys, NamesCandidate c

theorem voteInvariant_wellFormed : VoteInvariant WellFormed where
  new := ⟨by decide, fun c hc => absurd hc (Finset.notMem_empty c)⟩
  same h hw := ⟨h.2 ▸ hw.left, h.1 ▸ hw.named⟩
  entry := by
    rintro w s hvalid hw
    rcases hvalid with @⟨p, d, hparse, hle⟩ | @⟨p, d, hparse, hmem, -⟩
    · obtain ⟨-, -, hname⟩ := parseVote_ok hparse
      simp only [Wallet.afterEntry, hparse]
      refine ⟨?_, fun c hc => ?_⟩
      · simp only [Wallet.subVoteLeft, Wallet.executeVote]
        split_ifs <;> dsimp only <;> omega
      · simp only [Wallet.subVoteLeft, Wallet.voted_executeVote, Store.keys_set, Finset.mem_insert] at hc
        rcases hc with rfl | hc
        · exact hname
        · exact hw.named c hc
    · obtain ⟨hp, -, hname⟩ := parseVote_ok hparse
      have hleft := hw.left
      simp only [Wallet.afterEntry, hparse]
      refine ⟨?_, fun c hc => ?_⟩
      · simp only [Wallet.addVoteLeft, Wallet.executeUnvote]
        split_ifs <;> dsimp only <;> omega
      · by_cases hc' : c = d
        · exact hc' ▸ hname
        · refine hw.named c ?_
          simp only [Wallet.addVoteLeft, Wallet.executeUnvote, if_pos hmem] at hc
          split_ifs at hc
          · simpa [hc'] using hc
          · simpa [hc'] using hc

theorem voted_le (hs : w.account.Sound) (hw : WellFormed w) (c : Address) : w.voted.get c ≤ 100 := by
  obtain ⟨S, hS, htotal⟩ := hs.total
  have htotal' : ∑ c ∈ S, w.voted.get c + w.voteLeft = 100 := htotal
  have hleft := hw.left
  by_cases hc : c ∈ S
  · have := Finset.single_le_sum (f := w.voted.get) (fun c _ => hs.nonneg c) hc
    omega
  · have : w.voted.get c = 0 := hS c hc
    omega

theorem sum_voted (hs : w.account.Sound) (order : MapOrder) :
    ((order.list w.voted.keys).map w.voted.get).sum = 100 - w.voteLeft := by
  obtain ⟨S, hS, htotal⟩ := hs.total
  have htotal' : ∑ c ∈ S, w.voted.get c + w.voteLeft = 100 := htotal
  have hmem : ∀ c, w.voted.get c ≠ 0 → c ∈ order.list w.voted.keys := fun c hc =>
    (order.mem _ c).2 (w.voted.mem_keys_of_get_ne hc)
  rw [(Poll.sum_listed_iff (f := w.voted.get) hs.nonneg hS hmem).2 fun c hc =>
    List.count_eq_one_of_mem (order.nodup _) (hmem c hc)]
  omega

theorem parseVote_vote (hs : w.account.Sound) (hw : WellFormed w) (hc : c ∈ w.voted.keys) :
    parseVote (voteText (w.voted.get c) c) = .ok (.vote, w.voted.get c, c) :=
  parseVote_voteText (hs.nonneg c) (voted_le hs hw c) (hw.named c hc)

/-- The votes of an entry that has been generated name the candidates of the wallet. -/
theorem candOf_getVoteArray (hs : w.account.Sound) (hw : WellFormed w) (order : MapOrder) :
    (w.getVoteArray order).map candOf = order.list w.voted.keys := by
  rw [Wallet.getVoteArray, List.map_map]
  refine (List.map_congr_left fun c hc => ?_).trans (List.map_id _)
  simp [candOf, parseVote_vote hs hw ((order.mem _ c).1 hc)]

/-- Votes that leave something of the hundred percent can be loaded. -/
theorem loadVotes_returns {g : Address → ℤ} : ∀ (l : List Address) (w : Wallet),
    (∀ c ∈ l, 0 ≤ g c ∧ parseVote (voteText (g c) c) = .ok (.vote, g c, c)) → (l.map g).sum ≤ w.voteLeft →
    ∃ w', (l.map fun c => voteText (g c) c).foldlM Wallet.loadVote w = .ok w' ∧
      w'.voted.keys = w.voted.keys ∪ l.toFinset
  | [], w, _, _ => ⟨w, rfl, by simp⟩
  | c :: l, w, hl, hsum => by
    simp only [List.mem_cons, forall_eq_or_imp] at hl
    rw [List.map_cons, List.sum_cons] at hsum
    have hrest : 0 ≤ (l.map g).sum := List.sum_nonneg (by
      simp only [List.mem_map, forall_exists_index, and_imp, forall_apply_eq_imp_iff₂]
      exact fun c hc => (hl.2 c hc).1)
    have hload : w.loadVote (voteText (g c) c) =
        .ok (Wallet.subVoteLeft { w with voted := w.voted.set c (g c) } (g c)) := by
      rw [Wallet.loadVote, hl.1.2]
      dsimp only
      rw [Wallet.checkVoteValidity, if_neg (by omega)]
    obtain ⟨w', hw', hkeys⟩ := loadVotes_returns l
      (Wallet.subVoteLeft { w with voted := w.voted.set c (g c) } (g c)) hl.2
      (by simp only [Wallet.subVoteLeft]; omega)
    refine ⟨w', ?_, ?_⟩
    · rw [List.map_cons, List.foldlM_cons, hload]
      exact hw'
    · rw [hkeys]
      ext d
      simp [Wallet.subVoteLeft]

/-- What holds in every state of a run. -/
structure Generable (wm : WalletManager) : Prop where
  sound : wm.Sound
  wellFormed : ∀ a, WellFormed (wm.wallet a)
  mine : wm.myAddress ∈ wm.keys

/-- The entry of a wallet can be loaded, with the candidates of the wallet. -/
theorem exists_newWalletFromDigestEntry (h : Generable W) (votesOrder : Address → MapOrder) (a : Address) :
    ∃ w, newWalletFromDigestEntry (accState votesOrder W a) = .ok w ∧
      w.voted.keys = (W.wallet a).voted.keys := by
  have hleft := (h.wellFormed a).left
  have hvotes : ∀ c ∈ (votesOrder a).list (W.wallet a).voted.keys, 0 ≤ (W.wallet a).voted.get c ∧
      parseVote (voteText ((W.wallet a).voted.get c) c) = .ok (.vote, (W.wallet a).voted.get c, c) :=
    fun c hc => ⟨(h.sound a).nonneg c,
      parseVote_vote (h.sound a) (h.wellFormed a) (((votesOrder a).mem _ c).1 hc)⟩
  obtain ⟨w, hw, hkeys⟩ := loadVotes_returns _ (accState votesOrder W a).wallet hvotes (by
    rw [sum_voted (h.sound a)]
    exact sub_le_self 100 hleft)
  refine ⟨w, hw, ?_⟩
  rw [hkeys]
  ext c
  simp [AccState.wallet, newWallet, Store.empty, (votesOrder a).mem]

theorem loadEntries_returns : ∀ (entries : List AccState) (ws : Store Address newWallet),
    (∀ entry ∈ entries, ∃ w, newWalletFromDigestEntry entry = .ok w) →
    ∃ ws', entries.foldlM loadEntry ws = .ok ws'
  | [], ws, _ => ⟨ws, rfl⟩
  | entry :: entries, ws, h => by
    simp only [List.mem_cons, forall_eq_or_imp] at h
    obtain ⟨⟨w, hw⟩, hentries⟩ := h
    obtain ⟨ws', hws'⟩ := loadEntries_returns entries (ws.set entry.pk w) hentries
    refine ⟨ws', ?_⟩
    rw [List.foldlM_cons, loadEntry, hw]
    exact hws'

theorem map_pk_usedEntries (order : MapOrder) (votesOrder : Address → MapOrder) (wm : WalletManager) :
    (usedEntries order votesOrder wm).map AccState.pk = order.list wm.usedKeys := by
  rw [usedEntries, List.map_map]
  exact List.map_id _

/-! ## The round trip -/

variable {height roundNum : Int64} {minerPublicKey : Address}

/-- **The entries that have been generated match the wallets.** -/
theorem digestMatches_usedEntries (h : Generable W) (order : MapOrder) (votesOrder : Address → MapOrder) :
    DigestMatches W (createEmptyBlock height minerPublicKey roundNum (usedEntries order votesOrder W)) where
  length := by
    change (usedEntries order votesOrder W).length = _
    rw [usedEntries, List.length_map, MapOrder.length_list]
  entries := by
    intro entry hentry
    obtain ⟨a, ha, rfl⟩ := List.mem_map.1 hentry
    rw [order.mem] at ha
    refine ⟨⟨Finset.mem_of_mem_filter a ha, rfl, rfl, rfl, rfl, fun vote hvote => ?_⟩, ha⟩
    obtain ⟨c, hc, rfl⟩ := List.mem_map.1 hvote
    rw [(votesOrder a).mem] at hc
    exact ⟨.vote, c, parseVote_vote (h.sound a) (h.wellFormed a) hc, hc⟩
  nodup := by
    change ((usedEntries order votesOrder W).map AccState.pk).Nodup
    rw [map_pk_usedEntries]
    exact order.nodup _

/-- The condition on the wallets: all are used, everybody who has been voted for has one,
    miners are banned as their reports say, and the vote power is the sum of the shares. -/
structure RoundTrips (E : Env) (user : Address) (W : WalletManager) : Prop where
  used : ∀ a ∈ W.keys, (W.wallet a).unusedWallet = false
  voted : ∀ a ∈ W.keys, (W.wallet a).voted.keys ⊆ insert user W.keys
  banned : ∀ a ∈ W.keys, (W.wallet a).bannedTill = bannedTillOf (W.wallet a).podfHeights
  power : ∀ a, (W.wallet a).votePower = W.book.stake E a

theorem SameWallet.account (h : SameWallet w w') : w.account = w'.account := by
  rw [Wallet.account, Wallet.account, h.balance, h.nonce, h.votes, h.voteLeft]

/-- The vote power of a wallet that has been rebuilt is the sum of the shares. -/
theorem Rebuilt.votePower {digest : PbBlock} (hm : DigestMatches W digest) (hR : Rebuilt E digest user R)
    (a : Address) : (R.wallet a).votePower = R.book.stake E a := by
  by_cases ha : a ∈ digest.accountStates.map AccState.pk
  · obtain ⟨entry, he, rfl⟩ := List.mem_map.1 ha
    obtain ⟨w, hw, hwallet⟩ := hR.entries entry he
    obtain ⟨-, -, hsame⟩ := loadVotes_ok hw (hm.entries entry he).1.votes
    have hzero : w.votePower = 0 := congrArg Wallet.votePower hsame
    rw [hwallet, Wallet.addVotePower, hzero, UInt64.zero_add]
  · rw [hR.absent a ha]
    exact UInt64.zero_add _

theorem usedKeys_eq (h : ∀ a ∈ W.keys, (W.wallet a).unusedWallet = false) : W.usedKeys = W.keys :=
  Finset.filter_true_of_mem h

theorem wallet_tidied_of_used (hme : W.myAddress ∈ W.keys)
    (h : ∀ a ∈ W.keys, (W.wallet a).unusedWallet = false) : W.tidied.wallet = W.wallet := by
  have hkeys : W.tidied.keys = W.keys := by
    rw [keys_tidied, usedKeys_eq h, Finset.insert_eq_of_mem hme]
  funext a
  by_cases ha : a ∈ W.tidied.keys
  · exact wallet_tidied ha
  · rw [wallet_absent ha, wallet_absent (hkeys ▸ ha)]

/-- The generated entries list all votes, and name nobody who is not used. -/
theorem bootstraps_iff (h : Generable W) (hused : ∀ a ∈ W.keys, (W.wallet a).unusedWallet = false) :
    Bootstraps W (createEmptyBlock height minerPublicKey roundNum (usedEntries order votesOrder W)) ↔
      ∀ a ∈ W.keys, (W.wallet a).bannedTill = bannedTillOf (W.wallet a).podfHeights := by
  constructor
  · intro hb a ha
    exact hb.banned a (usedKeys_eq hused ▸ ha)
  · intro hban
    refine ⟨fun entry hentry c hc => ?_, fun a ha => hban a (Finset.mem_of_mem_filter a ha), fun a hu => ?_⟩
    · obtain ⟨a, ha, rfl⟩ := List.mem_map.1 hentry
      change (((W.wallet a).getVoteArray (votesOrder a)).map candOf).count c = 1
      rw [candOf_getVoteArray (h.sound a) (h.wellFormed a)]
      exact List.count_eq_one_of_mem ((votesOrder a).nodup _)
        (((votesOrder a).mem _ c).2 ((W.wallet a).voted.mem_keys_of_get_ne hc))
    · have ha : a ∉ W.keys := fun ha => by simp [hused a ha] at hu
      rw [wallet_absent ha]
      exact ⟨rfl, rfl, rfl⟩

/-- The wallets can be rebuilt from the generated entries exactly if everybody who has been
    voted for has a wallet. -/
theorem exists_rebuilt_iff (h : Generable W) (hused : ∀ a ∈ W.keys, (W.wallet a).unusedWallet = false)
    (loadOrder : MapOrder) :
    (∃ R, newWmFromDigestBlock E loadOrder
      (createEmptyBlock height minerPublicKey roundNum (usedEntries order votesOrder W)) user = .ok R) ↔
      ∀ a ∈ W.keys, (W.wallet a).voted.keys ⊆ insert user W.keys := by
  have hpks : ((usedEntries order votesOrder W).map AccState.pk).toFinset = W.keys := by
    ext a
    rw [map_pk_usedEntries, List.mem_toFinset, order.mem, usedKeys_eq hused]
  have hmem : ∀ a ∈ W.keys, accState votesOrder W a ∈ usedEntries order votesOrder W := fun a ha =>
    List.mem_map_of_mem ((order.mem _ a).2 (usedKeys_eq hused ▸ ha))
  have hnodup : ((usedEntries order votesOrder W).map AccState.pk).Nodup := by
    rw [map_pk_usedEntries]
    exact order.nodup _
  constructor
  · rintro ⟨R, hR⟩ a ha
    have hrebuilt := newWmFromDigestBlock_ok hnodup hR
    obtain ⟨w, hw, hkeys⟩ := exists_newWalletFromDigestEntry h votesOrder a
    obtain ⟨w', hw', hwallet⟩ := hrebuilt.entries (accState votesOrder W a) (hmem a ha)
    rw [hw] at hw'
    cases hw'
    have hvoted : (R.wallet a).voted.keys ⊆ R.keys := hrebuilt.voted a (by
      rw [hrebuilt.keys]
      exact Finset.mem_insert_of_mem (hpks ▸ ha))
    have hwallet' : R.wallet a = _ := hwallet
    have hR' : R.keys = insert user W.keys := hpks ▸ hrebuilt.keys
    rw [← hkeys, ← hR']
    rwa [hwallet'] at hvoted
  · intro hvoted
    have hloads : ∀ entry ∈ usedEntries order votesOrder W, ∃ w, newWalletFromDigestEntry entry = .ok w := by
      intro entry hentry
      obtain ⟨a, -, rfl⟩ := List.mem_map.1 hentry
      obtain ⟨w, hw, -⟩ := exists_newWalletFromDigestEntry h votesOrder a
      exact ⟨w, hw⟩
    obtain ⟨ws, hws⟩ := loadEntries_returns _ .empty hloads
    obtain ⟨hkeys, hload, habsent⟩ := loadEntries_ok hws hnodup
    rw [hpks] at hkeys
    have hkeys' : (loaded ws user).keys = insert user W.keys := by
      change insert user ws.keys = _
      rw [hkeys]
      exact congrArg (insert user) (Finset.empty_union _)
    refine exists_newWmFromDigestBlock hws fun a ha => ?_
    rw [hkeys']
    change (ws.get a).voted.keys ⊆ _
    by_cases ha' : a ∈ W.keys
    · obtain ⟨w, hw, hwkeys⟩ := exists_newWalletFromDigestEntry h votesOrder a
      have hget : w = ws.get a := Except.ok.inj (hw.symm.trans (hload _ (hmem a ha')))
      rw [← hget, hwkeys]
      exact hvoted a ha'
    · rw [habsent a fun hmem' => ha' (hpks ▸ List.mem_toFinset.2 hmem')]
      exact Finset.empty_subset _

/-- **A miner's digest block is complete, is accepted, and gives every node back the wallets
    that it was built from, exactly if the wallets meet the condition.** -/
theorem generated_iff (E : Env) (order loadOrder : MapOrder) (votesOrder : Address → MapOrder)
    (height : Int64) (minerPublicKey : Address) (roundNum : Int64) (user : Address) (es : List Event)
    (wm₀ W : WalletManager) (hfresh : Fresh wm₀) (hrun : Run E es wm₀ W) :
    (∃ entries W' W₁ R, generateAccountStates order votesOrder W = (.ok (entries.map some), W') ∧
      validateDigestBlock (createEmptyBlock height minerPublicKey roundNum entries) W = (.ok (), W₁) ∧
      newWmFromDigestBlock E loadOrder (createEmptyBlock height minerPublicKey roundNum entries) user = .ok R ∧
      ∀ a, SameWallet (R.wallet a) (W'.wallet a) ∧ (R.wallet a).votePower = (W'.wallet a).votePower) ↔
    RoundTrips E user W := by
  have hgood := hrun.good hfresh.good
  have h : Generable W := ⟨hgood.sound, hrun.votes_invariant voteInvariant_wellFormed fun a =>
    hfresh.wallet a ▸ voteInvariant_wellFormed.new, hgood.mine⟩
  have hmatch : DigestMatches W (createEmptyBlock height minerPublicKey roundNum
    (usedEntries order votesOrder W)) := digestMatches_usedEntries h order votesOrder
  constructor
  · rintro ⟨entries, W', W₁, R, hgen, -, hR, hsame⟩
    obtain ⟨rfl, rfl, hused⟩ := filled_iff hgen
    rw [wallet_tidied_of_used hgood.mine hused] at hsame
    have hrebuilt := newWmFromDigestBlock_ok hmatch.nodup hR
    have hbook : R.book = W.book := funext fun a => (hsame a).1.account
    refine ⟨hused, (exists_rebuilt_iff h hused loadOrder).1 ⟨R, hR⟩, ?_, fun a => ?_⟩
    · exact (bootstraps_iff h hused).1 ((rebuilt_sameWallet_iff h.sound hmatch hrebuilt).1 fun a => (hsame a).1)
    · rw [← (hsame a).2, hrebuilt.votePower hmatch, hbook]
  · intro hround
    obtain ⟨R, hR⟩ := (exists_rebuilt_iff (E := E) h hround.used loadOrder).2 hround.voted
    have hrebuilt := newWmFromDigestBlock_ok hmatch.nodup hR
    have hsame := (rebuilt_sameWallet_iff h.sound hmatch hrebuilt).2
      ((bootstraps_iff h hround.used).2 hround.banned)
    have hbook : R.book = W.book := funext fun a => (hsame a).account
    have hspec := generateAccountStates_spec order votesOrder W
    have hvalid := validateDigestBlock_spec (createEmptyBlock height minerPublicKey roundNum
      (usedEntries order votesOrder W)) W
    obtain ⟨_, W', hgen⟩ := hspec.returns
    obtain ⟨rfl, hslots⟩ := hspec.ok hgen
    rcases haccept : validateDigestBlock (createEmptyBlock height minerPublicKey roundNum
      (usedEntries order votesOrder W)) W with ⟨_ | _, W₁⟩
    · exact absurd hmatch (hvalid.error haccept).2
    refine ⟨usedEntries order votesOrder W, W.tidied, W₁, R, ?_, haccept, hR, fun a => ?_⟩
    · rw [hgen, hslots, usedKeys_eq hround.used, Nat.sub_self, List.replicate_zero, List.append_nil]
    · rw [wallet_tidied_of_used hgood.mine hround.used]
      exact ⟨hsame a, by rw [hrebuilt.votePower hmatch, hbook, hround.power]⟩

theorem generated_iff_voteForMiner :
    (∃ entries W' W₁ R,
      generateAccountStates .sorted (fun _ => .sorted) (afterBlock voteForMiner) = (.ok (entries.map some), W') ∧
      validateDigestBlock (createEmptyBlock 2 "m" 3 entries) (afterBlock voteForMiner) = (.ok (), W₁) ∧
      newWmFromDigestBlock Env.simple .sorted (createEmptyBlock 2 "m" 3 entries) "n" = .ok R ∧
      ∀ a, SameWallet (R.wallet a) (W'.wallet a) ∧ (R.wallet a).votePower = (W'.wallet a).votePower) ↔
    RoundTrips Env.simple "n" (afterBlock voteForMiner) :=
  generated_iff Env.simple .sorted .sorted (fun _ => .sorted) 2 "m" 3 "n" [.block voteForMiner "m"]
    (newWalletManager "m") (afterBlock voteForMiner) (fresh_newWalletManager "m") (.single happens_voteForMiner)

/-- The wallet of `"b"`, who has been sent nothing, is deleted, and its slot stays empty. -/
theorem not_generated : ¬ ∀ (E : Env) (order : MapOrder) (votesOrder : Address → MapOrder) (es : List Event)
    (wm₀ W : WalletManager), Fresh wm₀ → Run E es wm₀ W →
    ∃ (entries : List AccState) (W' : WalletManager),
      generateAccountStates order votesOrder W = (.ok (entries.map some), W') := by
  intro h
  obtain ⟨entries, W', hgen⟩ := h Env.simple .sorted (fun _ => .sorted) _ _ _ (fresh_newWalletManager "m")
    (.single happens_voteForStranger)
  obtain ⟨-, -, hused⟩ := filled_iff hgen
  have hb := hused "b" (by decide +kernel)
  revert hb
  decide +kernel

end WalletManager
end Timbre
