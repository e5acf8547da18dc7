/-
  What is lost with the wallets that are deleted as unused.

  `UnusedWallet` looks at the balance, the votes that are left, the counters of what has been earned,
  and the candidacy.  It does not look at the nonce, the reports, the entries of votes that have been
  withdrawn, or the vote power: a wallet that is back at its first balance is deleted with all of them.
  **In a run of accepted and reverted blocks every deleted wallet is as good as new exactly while nobody
  whose wallet is taken for unused has a transaction or a report on the chain, has ever voted, or is owed
  vote power** (`cleanUp_invisible_iff`).
-/
import Timbre.Wallet.Generation
import Timbre.Wallet.Marks
import Timbre.Wallet.Unwinding
import Timbre.Wallet.VotePower
import Timbre.Lib.Runs

namespace Timbre

open Call WalletManager

/-- The wallet agrees with `NewWallet` in everything but its counters. -/
structure Wallet.AsNew (w : Wallet) : Prop where
  balance : w.balance = newWallet.balance
  nonce : w.nonce = newWallet.nonce
  voted : w.voted = newWallet.voted
  voteLeft : w.voteLeft = newWallet.voteLeft
  votePower : w.votePower = newWallet.votePower
  isCandidate : w.isCandidate = newWallet.isCandidate
  podfHeights : w.podfHeights = newWallet.podfHeights
  bannedTill : w.bannedTill = newWallet.bannedTill

namespace WalletManager

variable {E : Env} {α : Type} {wm wm' : WalletManager} {a miner : Address} {block : PbBlock} {order : MapOrder}

/-- The call deletes the wallet of an address. -/
def Deletes (c : WM α) (wm : WalletManager) (a : Address) : Prop := a ∈ wm.keys ∧ a ∉ (c wm).2.keys

/-- Every wallet that is deleted when a digest block is validated or generated is as good as new. -/
def CleanUpInvisible (wm : WalletManager) : Prop :=
  ∀ a, (∃ digest, Deletes (validateDigestBlock digest) wm a) ∨
    (∃ order votesOrder, Deletes (generateAccountStates order votesOrder) wm a) → (wm.wallet a).AsNew

/-! ## The clean-up -/

theorem state_validateDigestBlock (digest : PbBlock) (wm : WalletManager) :
    (validateDigestBlock digest wm).2 = wm.tidied := by
  have hspec := validateDigestBlock_spec digest wm
  rcases hcall : validateDigestBlock digest wm with ⟨e | _, wm'⟩
  · exact (hspec.error hcall).1
  · exact (hspec.ok hcall).1

theorem state_generateAccountStates (order : MapOrder) (votesOrder : Address → MapOrder) (wm : WalletManager) :
    (generateAccountStates order votesOrder wm).2 = wm.tidied := by
  have hspec := generateAccountStates_spec order votesOrder wm
  rcases hcall : generateAccountStates order votesOrder wm with ⟨e | _, wm'⟩
  · exact (hspec.error hcall).elim
  · exact (hspec.ok hcall).1

theorem cleanUpInvisible_iff : CleanUpInvisible wm ↔
    ∀ a ∈ wm.keys, a ≠ wm.myAddress → (wm.wallet a).unusedWallet = true → (wm.wallet a).AsNew := by
  constructor
  · intro h a ha hne hunused
    refine h a (.inl ⟨.simple [] [] [], ha, ?_⟩)
    rw [state_validateDigestBlock]
    exact (notMem_tidied_iff ha).2 ⟨hne, hunused⟩
  · rintro h a (⟨digest, ha, hgone⟩ | ⟨order, votesOrder, ha, hgone⟩)
    · rw [state_validateDigestBlock] at hgone
      obtain ⟨hne, hunused⟩ := (notMem_tidied_iff ha).1 hgone
      exact h a ha hne hunused
    · rw [state_generateAccountStates] at hgone
      obtain ⟨hne, hunused⟩ := (notMem_tidied_iff ha).1 hgone
      exact h a ha hne hunused

end WalletManager

theorem Wallet.AsNew.marks {w : Wallet} (h : w.AsNew) : w.marks = newWallet.marks :=
  Marks.ext h.nonce (Prod.ext h.podfHeights h.bannedTill) (by rw [Wallet.marks, h.voted]; rfl)

namespace WalletManager

open Transaction

variable {E : Env} {wm wm' : WalletManager} {a miner : Address} {block : PbBlock} {order : MapOrder}

/-- Nothing is lost when the miner of the block gets a wallet before the clean-up. -/
theorem CleanUpInvisible.put (h : CleanUpInvisible wm) (a : Address) : CleanUpInvisible (wm.put a) := by
  rw [cleanUpInvisible_iff] at h ⊢
  intro b hb hne hunused
  by_cases hold : b ∈ wm.keys
  · exact h b hold hne hunused
  · have hnew : wm.wallet b = newWallet := wallet_absent hold
    rw [wallet_put, hnew]
    exact ⟨rfl, rfl, rfl, rfl, rfl, rfl, rfl, rfl⟩

theorem CleanUpInvisible.marks_tidied (h : CleanUpInvisible wm) : wm.tidied.marks = wm.marks := by
  funext a
  by_cases hkept : a ∈ wm.tidied.keys
  · exact congrArg Wallet.marks (wallet_tidied hkept)
  · have hnew : wm.tidied.marks a = newWallet.marks := congrArg Wallet.marks (wallet_absent hkept)
    rw [hnew]
    by_cases ha : a ∈ wm.keys
    · obtain ⟨hne, hunused⟩ := (notMem_tidied_iff ha).1 hkept
      exact (cleanUpInvisible_iff.1 h a ha hne hunused).marks.symm
    · exact (congrArg Wallet.marks (wallet_absent ha)).symm

/-- No votes are lost with wallets that are as good as new. -/
theorem CleanUpInvisible.losesNoVotes (h : CleanUpInvisible wm) : wm.LosesNoVotes := by
  intro a ha
  by_cases hmem : a ∈ wm.keys
  · obtain ⟨hne, hunused⟩ := (notMem_tidied_iff hmem).1 ha
    exact congrArg Store.get (cleanUpInvisible_iff.1 h a hmem hne hunused).voted
  · exact congrArg (fun w => w.account.votes) (wallet_absent hmem)

/-! ## Runs with reversals -/

/-- What a call has booked, with the wallets and the accounts before it. -/
structure Posting where
  keys : Finset Address
  book : Book
  items : List Item

/-- What the vote power of an address has been told amiss since it got its wallet; the last posting is
    the first one. -/
noncomputable def amiss (E : Env) (a : Address) : List Posting → UInt64
  | [] => 0
  | p :: older => (if a ∈ p.keys then amiss E a older else -p.book.stake E a) + Item.gaps E a p.keys p.book p.items

/-- The wallets of a node, with the blocks on its chain, the last one first, all the blocks that it has
    ever accepted, and all that has been booked. -/
structure Trail where
  wm : WalletManager
  chain : List PbBlock
  accepted : List PbBlock
  posted : List Posting

/-- The postings, if items are booked next. -/
def Trail.post (t : Trail) (items : List Item) : List Posting := ⟨t.wm.keys, t.wm.book, items⟩ :: t.posted

/-- What the application of a block books; a digest block takes care of the vote powers. -/
def blockItems (E : Env) (block : PbBlock) (minerAdd : Address) (t : Times) : List Item :=
  if block.isGenesis = false ∧ block.isDigestBlock = true then []
  else (journal E block minerAdd t).map (Entry.item E block.roundNum minerAdd)

/-- What happens to the wallets of a node. -/
inductive TrailCall where
  /-- a block is accepted -/
  | accept (block : PbBlock) (minerAdd : Address) (order : MapOrder)
  /-- the last block of the chain is reverted -/
  | revert (minerAdd : Address) (order : MapOrder)
  /-- a digest block is compared with the wallets -/
  | validate (digest : PbBlock)
  /-- the entries of a digest block are made -/
  | generate (order : MapOrder) (votesOrder : Address → MapOrder)
  /-- the DPOS, or the deals that the node has stored, change -/
  | outside (executor : State) (node : Node)

/-- A call; one that fails ends the run.  The genesis block is the root of every chain and is not
    reverted. -/
def TrailCall.run (E : Env) : TrailCall → Trail → Except Err Trail
  | .accept block minerAdd order, t =>
    match checkAndUpdateWalletStates E block minerAdd order t.wm with
    | (.ok _, wm) =>
      .ok ⟨wm, block :: t.chain, block :: t.accepted, t.post (blockItems E block minerAdd t.wm.times)⟩
    | (.error e, _) => .error e
  | .revert minerAdd order, t =>
    match t.chain with
    | [] => .error (.error "no block to revert")
    | block :: chain =>
      if block.isGenesis then .error (.error "the genesis block is not reverted")
      else
        match revertWalletStates E block minerAdd order t.wm with
        | (.ok _, wm) =>
          .ok ⟨wm, chain, t.accepted, t.post (unwinding E block minerAdd t.wm.keys t.wm.book t.wm.times)⟩
        | (.error e, _) => .error e
  | .validate digest, t => .ok { t with wm := (validateDigestBlock digest t.wm).2, posted := t.post [] }
  | .generate order votesOrder, t =>
    .ok { t with wm := (generateAccountStates order votesOrder t.wm).2, posted := t.post [] }
  | .outside executor node, t => .ok { t with wm := { t.wm with executor, node } }

/-- The transactions of a list of blocks that are applied. -/
def allTaken (blocks : List PbBlock) : List Transaction := blocks.flatMap PbBlock.taken

/-- The vote power that an address is owed: the shares that are given to it, and what has been told
    amiss. -/
noncomputable def Trail.owed (E : Env) (t : Trail) (a : Address) : UInt64 :=
  t.wm.book.stake E a + amiss E a t.posted

/-- The address has used up a nonce on the chain, is reported on it, has voted in a block that was
    accepted, even if it was reverted, or is owed vote power. -/
def Trail.Active (E : Env) (t : Trail) (a : Address) : Prop :=
  ¬ 2 ^ 64 ∣ counted a (allTaken t.chain) ∨ reportsIn E a (allTaken t.chain) ≠ [] ∨
    (∃ tx ∈ allTaken t.accepted, tx.Votes E a) ∨ t.owed E a ≠ 0

/-- Nobody is active whose wallet is taken for unused, the node itself apart. -/
def Trail.Quiet (E : Env) (t : Trail) : Prop :=
  ∀ a ∈ t.wm.keys, a ≠ t.wm.myAddress → (t.wm.wallet a).unusedWallet = true → ¬ t.Active E a

/-! ## Records of reports -/

/-- A miner with fewer reports than make a ban is not banned. -/
def NotBanned (r : List Int64 × Int64) : Prop := r.1.length < blockThresholdToBan → r.2 = -1

theorem NotBanned.report {r : List Int64 × Int64} (h : NotBanned r) (x : Int64) : NotBanned (report x r) := by
  intro hlen
  rw [report_fst, List.length_append, List.length_singleton] at hlen
  have hno : ¬ (r.1 ++ [x]).length % blockThresholdToBan = 0 := by
    rw [List.length_append, List.length_singleton, Nat.mod_eq_of_lt hlen]
    exact Nat.succ_ne_zero _
  exact (if_neg hno).trans (h (by omega))

theorem NotBanned.unreport {r : List Int64 × Int64} (h : NotBanned r) : NotBanned (unreport r) := by
  intro hlen
  have hlast : r.1.length - 1 < blockThresholdToBan := by simpa [WalletManager.unreport] using hlen
  unfold WalletManager.unreport
  split_ifs with hban
  · rfl
  · refine h ?_
    unfold blockThresholdToBan at hban hlast ⊢
    omega

theorem NotBanned.reportAll {r : List Int64 × Int64} (h : NotBanned r) (hs : List Int64) :
    NotBanned (reportAll r hs) := by
  induction hs generalizing r with
  | nil => exact h
  | cons x hs ih => exact ih (h.report x)

theorem NotBanned.unreportN {r : List Int64 × Int64} (h : NotBanned r) (n : ℕ) : NotBanned (unreportN r n) := by
  induction n generalizing r with
  | zero => exact h
  | succ n ih => exact ih h.unreport

/-! ## What the wallets say of the chain -/

/-- The marks of the wallets are those of the blocks, and the vote powers what is owed. -/
structure Trail.Recorded (E : Env) (t : Trail) : Prop where
  nonce : ∀ a, (t.wm.marks a).nonce = UInt64.ofNat (counted a (allTaken t.chain))
  reports : ∀ a, (t.wm.marks a).record.1.length = (reportsIn E a (allTaken t.chain)).length
  notBanned : ∀ a, NotBanned (t.wm.marks a).record
  voted : ∀ a, (t.wm.marks a).voted ↔ ∃ tx ∈ allTaken t.accepted, tx.Votes E a
  chain : ∀ block ∈ t.chain, block ∈ t.accepted
  taken : ∀ block ∈ t.chain, ∀ tx ∈ block.taken, Taken E tx
  told : ∀ a ∈ t.wm.keys, t.wm.drift E a = amiss E a t.posted

variable {t t' : Trail}

theorem voted_eq_new_iff {w : Wallet} : w.voted = newWallet.voted ↔ ¬ w.marks.voted := by
  change _ ↔ ¬ w.voted.keys.Nonempty
  rw [Finset.not_nonempty_iff_eq_empty]
  constructor
  · intro h
    rw [h]
    rfl
  · intro h
    refine Store.ext h (funext fun c => ?_)
    exact w.voted.get_absent c (h ▸ Finset.notMem_empty c)

theorem ofNat_eq_zero_iff (n : ℕ) : UInt64.ofNat n = 0 ↔ 2 ^ 64 ∣ n := by
  rw [← UInt64.toNat_inj, UInt64.toNat_ofNat', UInt64.toNat_zero, Nat.dvd_iff_mod_eq_zero]

/-- The vote power of a wallet is what its address is owed. -/
theorem Trail.Recorded.votePower (h : t.Recorded E) (ha : a ∈ t.wm.keys) :
    (t.wm.wallet a).votePower = t.owed E a := by
  rw [owed, ← h.told a ha, drift, add_sub_cancel]

/-- **A wallet that is taken for unused is as good as new exactly if its address is not active.** -/
theorem Trail.Recorded.asNew_iff (h : t.Recorded E) (ha : a ∈ t.wm.keys)
    (hunused : (t.wm.wallet a).unusedWallet = true) : (t.wm.wallet a).AsNew ↔ ¬ t.Active E a := by
  simp only [Wallet.unusedWallet, decide_eq_true_eq] at hunused
  obtain ⟨hbalance, hleft, -, -, hcandidate⟩ := hunused
  have hnonce : (t.wm.wallet a).nonce = 0 ↔ 2 ^ 64 ∣ counted a (allTaken t.chain) := by
    rw [← ofNat_eq_zero_iff, ← h.nonce]
    rfl
  have hreports : (t.wm.wallet a).podfHeights = [] ↔ reportsIn E a (allTaken t.chain) = [] := by
    rw [← List.length_eq_zero_iff, ← List.length_eq_zero_iff, ← h.reports]
    rfl
  have hvoted : (t.wm.wallet a).voted = newWallet.voted ↔ ¬ ∃ tx ∈ allTaken t.accepted, tx.Votes E a := by
    rw [voted_eq_new_iff, ← h.voted]
    rfl
  unfold Trail.Active
  rw [not_or, not_or, not_or, not_not, not_not, not_not, ← hnonce, ← hreports, ← hvoted, ← h.votePower ha]
  constructor
  · intro hnew
    exact ⟨hnew.nonce, hnew.podfHeights, hnew.voted, hnew.votePower⟩
  · rintro ⟨hn, hp, hv, hw⟩
    refine ⟨hbalance, hn, hv, hleft, hw, hcandidate, hp, h.notBanned a ?_⟩
    have hnone : (t.wm.marks a).record.1 = [] := hp
    rw [hnone]
    exact Nat.zero_lt_succ 2

theorem Trail.Recorded.invisible_iff (h : t.Recorded E) : CleanUpInvisible t.wm ↔ t.Quiet E := by
  rw [cleanUpInvisible_iff]
  constructor
  · intro hnew a ha hne hunused
    exact (h.asNew_iff ha hunused).1 (hnew a ha hne hunused)
  · intro hquiet a ha hne hunused
    exact (h.asNew_iff ha hunused).2 (hquiet a ha hne hunused)

/-! ## The calls -/

/-- What the vote powers of the wallets are told amiss, if items have been booked. -/
theorem Trail.Recorded.post (h : t.Recorded E) {items : List Item}
    (hdrift : ∀ c ∈ wm.keys, wm.drift E c = t.wm.drift E c + Item.gaps E c t.wm.keys t.wm.book items) :
    ∀ c ∈ wm.keys, wm.drift E c = amiss E c (t.post items) := by
  intro c hc
  rw [hdrift c hc, Trail.post, amiss]
  split_ifs with hold
  · rw [h.told c hold]
  · rw [drift_absent hold]

theorem Trail.Recorded.post_nil (h : t.Recorded E) (hdrift : ∀ c ∈ wm.keys, wm.drift E c = t.wm.drift E c) :
    ∀ c ∈ wm.keys, wm.drift E c = amiss E c (t.post []) :=
  h.post fun c hc => (hdrift c hc).trans (add_zero _).symm

/-- The clean-up. -/
theorem Trail.Recorded.tidied (h : t.Recorded E) (hclean : CleanUpInvisible t.wm) :
    Trail.Recorded E { t with wm := t.wm.tidied, posted := t.post [] } where
  nonce a := by
    rw [hclean.marks_tidied]
    exact h.nonce a
  reports a := by
    rw [hclean.marks_tidied]
    exact h.reports a
  notBanned a := by
    rw [hclean.marks_tidied]
    exact h.notBanned a
  voted a := by
    rw [hclean.marks_tidied]
    exact h.voted a
  chain := h.chain
  taken := h.taken
  told := h.post_nil fun _ hc => drift_tidied hclean.losesNoVotes hc

theorem allTaken_cons (block : PbBlock) (blocks : List PbBlock) :
    allTaken (block :: blocks) = block.taken ++ allTaken blocks := List.flatMap_cons

/-- The transactions of an accepted block have been applied. -/
theorem taken_of_accepted (h : checkAndUpdateWalletStates E block miner order wm = (.ok (), wm')) :
    ∀ tx ∈ block.taken, Taken E tx := by
  intro tx htx
  unfold checkAndUpdateWalletStates at h
  by_cases hg : block.isGenesis = true
  · rw [PbBlock.taken, if_pos hg] at htx
    have htype : tx.type = .becomeCandidate := by simpa using (List.mem_filter.1 htx).2
    exact ⟨by simp [htype], by simp [htype]⟩
  · rw [if_neg hg] at h
    rw [Bool.not_eq_true] at hg
    obtain ⟨_, s₀, hput, h⟩ := bind_ok h
    obtain rfl : wm.put miner = s₀ := congrArg Prod.snd hput
    by_cases hd : block.isDigestBlock = true
    · rw [PbBlock.taken_of_digest hg hd] at htx
      exact absurd htx List.not_mem_nil
    · rw [if_neg hd] at h
      rw [PbBlock.taken_of_ordinary hg (Bool.not_eq_true _ ▸ hd)] at htx
      obtain ⟨t₀, t₁, t₂, hparts⟩ := applyBlock_parts h
      have hm : miner ∈ (wm.put miner).keys := Finset.mem_insert_self _ _
      have hm₀ : miner ∈ t₀.keys := ((giveBlockReward_spec hm block).ok hparts.reward).mem hm
      obtain ⟨-, happlied⟩ := (applyTransactions_spec hm₀ block.transactions).ok hparts.transactions
      obtain ⟨s, s', hx, -⟩ := happlied.exists_applied htx
      exact hx.taken

/-- What the vote powers are told by an accepted block. -/
theorem drift_accept (hclean : CleanUpInvisible wm)
    (h : checkAndUpdateWalletStates E block miner order wm = (.ok (), wm')) :
    ∀ c ∈ wm'.keys, wm'.drift E c =
      wm.drift E c + Item.gaps E c wm.keys wm.book (blockItems E block miner wm.times) := by
  intro c hc
  unfold blockItems
  split_ifs with hdigest
  · obtain ⟨w, hw⟩ := accepted_digest hdigest.1 hdigest.2 (hclean.put miner).losesNoVotes h
    have hc₁ : c ∈ (wm.put miner).tidied.keys := hw.keys ▸ hc
    have hc₂ : c ∈ w.keys := hw.rewarded.keys ▸ hc₁
    rw [hw.reset.drift c hc₂, hw.rewarded.drift c hc₁, drift_tidied (hclean.put miner).losesNoVotes hc₁]
    exact (add_zero _).symm
  · have hblock : block.isGenesis = true ∨ block.isDigestBlock = false := by
      rwa [not_and_or, Bool.not_eq_false, Bool.not_eq_true] at hdigest
    exact entered_drift (AllMade.entered (accepted_made hblock h).1) c

/-- A block is accepted. -/
theorem Trail.Recorded.accept (h : t.Recorded E) (hclean : CleanUpInvisible t.wm)
    (hcall : checkAndUpdateWalletStates E block miner order t.wm = (.ok (), wm)) : Trail.Recorded E
      ⟨wm, block :: t.chain, block :: t.accepted, t.post (blockItems E block miner t.wm.times)⟩ := by
  have hm : wm.marks = markAll E block.taken t.wm.marks := marks_accept hcall (hclean.put miner).marks_tidied
  refine ⟨fun a => ?_, fun a => ?_, fun a => ?_, fun a => ?_, fun b hb => ?_, fun b hb => ?_,
    h.post (drift_accept hclean hcall)⟩
  · rw [hm, nonce_markAll, h.nonce, allTaken_cons, counted_append, UInt64.ofNat_add, add_comm]
  · rw [hm, record_markAll, reportAll_fst, List.length_append, h.reports, allTaken_cons, reportsIn_append,
      List.length_append, add_comm]
  · rw [hm, record_markAll]
    exact (h.notBanned a).reportAll _
  · rw [hm, voted_markAll, h.voted, allTaken_cons, or_comm]
    simp only [List.mem_append, or_and_right, exists_or]
  · rcases List.mem_cons.1 hb with rfl | hb
    · exact List.mem_cons_self
    · exact List.mem_cons_of_mem _ (h.chain b hb)
  · rcases List.mem_cons.1 hb with rfl | hb
    · exact taken_of_accepted hcall
    · exact h.taken b hb

/-- The votes of a block on the chain have left their entries. -/
theorem Trail.Recorded.voted_of_mem (h : t.Recorded E) (hb : block ∈ t.chain) {tx : Transaction}
    (htx : tx ∈ block.taken) (hvote : tx.Votes E a) : (t.wm.marks a).voted :=
  (h.voted a).2 ⟨tx, List.mem_flatMap.2 ⟨block, h.chain block hb, htx⟩, hvote⟩

/-- The last block of the chain is reverted. -/
theorem Trail.Recorded.revert {chain : List PbBlock} (h : t.Recorded E) (hc : t.chain = block :: chain)
    (hg : block.isGenesis = false) (hcall : revertWalletStates E block miner order t.wm = (.ok (), wm)) :
    Trail.Recorded E
      ⟨wm, chain, t.accepted, t.post (unwinding E block miner t.wm.keys t.wm.book t.wm.times)⟩ := by
  have hmem : block ∈ t.chain := hc ▸ List.mem_cons_self
  have hm : wm.marks = unmarkAll E block.taken t.wm.marks :=
    marks_revert hg hcall fun tx htx a hvote => h.voted_of_mem hmem htx hvote
  have hentered := unwound_of_reverted (fun hd tx htx =>
    h.taken block hmem tx ((PbBlock.taken_of_ordinary hg hd).symm ▸ htx)) hcall
  refine ⟨fun a => ?_, fun a => ?_, fun a => ?_, fun a => ?_, fun b hb => ?_, fun b hb => ?_,
    h.post fun c _ => entered_drift hentered c⟩
  · have hbefore := h.nonce a
    rw [nonce_unmarkAll (E := E) block.taken, hc, allTaken_cons, counted_append, UInt64.ofNat_add,
      add_comm] at hbefore
    rw [hm]
    exact add_left_cancel hbefore
  · rw [hm, record_unmarkAll, length_unreportN, h.reports, hc, allTaken_cons, reportsIn_append,
      List.length_append, Nat.add_sub_cancel_left]
  · rw [hm, record_unmarkAll]
    exact (h.notBanned a).unreportN _
  · rw [hm, voted_unmarkAll]
    exact h.voted a
  · exact h.chain b (hc ▸ List.mem_cons_of_mem _ hb)
  · exact h.taken b (hc ▸ List.mem_cons_of_mem _ hb)

/-- Every call from wallets that lose nothing by the clean-up keeps the record. -/
theorem Trail.Recorded.run (h : t.Recorded E) (hclean : CleanUpInvisible t.wm) (call : TrailCall)
    (hrun : call.run E t = .ok t') : t'.Recorded E := by
  cases call with
  | accept block miner order =>
    simp only [TrailCall.run] at hrun
    split at hrun
    · rename_i wm' hcall
      cases hrun
      exact h.accept hclean hcall
    · cases hrun
  | revert miner order =>
    simp only [TrailCall.run] at hrun
    split at hrun
    · cases hrun
    · rename_i block chain hchain
      split_ifs at hrun with hg
      split at hrun
      · rename_i wm' hcall
        cases hrun
        exact h.revert hchain (Bool.not_eq_true _ ▸ hg) hcall
      · cases hrun
  | validate digest =>
    cases hrun
    rw [state_validateDigestBlock]
    exact h.tidied hclean
  | generate order votesOrder =>
    cases hrun
    rw [state_generateAccountStates]
    exact h.tidied hclean
  | outside executor node =>
    cases hrun
    exact ⟨h.nonce, h.reports, h.notBanned, h.voted, h.chain, h.taken, h.told⟩

theorem recorded_of_fresh (h : Fresh wm) : Trail.Recorded E ⟨wm, [], [], []⟩ := by
  have hnew : ∀ a, wm.marks a = newWallet.marks := fun a => congrArg Wallet.marks (h.wallet a)
  refine ⟨fun a => ?_, fun a => ?_, fun a => ?_, fun a => ?_, fun _ hb => hb,
    fun _ hb => absurd hb List.not_mem_nil, h.tracked⟩
  · rw [hnew]
    rfl
  · rw [hnew]
    rfl
  · rw [hnew]
    exact fun _ => rfl
  · rw [hnew]
    simp [allTaken, Wallet.marks, newWallet, Store.empty]

theorem invisible_of_fresh (h : Fresh wm) : CleanUpInvisible wm := cleanUpInvisible_iff.2 fun a _ _ _ => by
  rw [h.wallet]
  exact ⟨rfl, rfl, rfl, rfl, rfl, rfl, rfl, rfl⟩

/-- **No clean-up deletes more than new wallets**, in any state that a run of accepted and reverted blocks
    reaches, exactly if in every such state nobody is active whose wallet is taken for unused. -/
theorem cleanUp_invisible_iff (E : Env) (wm : WalletManager) (h₀ : Fresh wm) (calls : List TrailCall) :
    Runs.Always (TrailCall.run E) (fun _ _ res => ∀ t', res = .ok t' → CleanUpInvisible t'.wm) calls
        ⟨wm, [], [], []⟩ ↔
      Runs.Always (TrailCall.run E) (fun _ _ res => ∀ t', res = .ok t' → t'.Quiet E) calls ⟨wm, [], [], []⟩ := by
  refine Runs.always_iff (I := fun t => t.Recorded E ∧ CleanUpInvisible t.wm) ?_ ?_ calls
    ⟨recorded_of_fresh h₀, invisible_of_fresh h₀⟩
  · rintro call t ⟨hrec, hclean⟩
    exact forall₂_congr fun t' hrun => (hrec.run hclean call hrun).invisible_iff
  · rintro call t t' ⟨hrec, hclean⟩ hrun hinvisible
    exact ⟨hrec.run hclean call hrun, hinvisible t' rfl⟩

/-! ## A wallet that is back at its first balance -/

/-- A transfer, and one that pays it back with the fee. -/
def thereAndBack : PbBlock :=
  .simple [.simple .transfer "a" 1 5 "b" "", .simple .transfer "b" 1 6 "a" ""] [] []

theorem accept_thereAndBack :
    checkAndUpdateWalletStates Env.simple thereAndBack "m" .sorted (newWalletManager "m") =
      (.ok (), afterBlock thereAndBack) := Prod.ext (by decide +kernel) rfl

theorem cleanUp_invisible_iff_thereAndBack :
    Runs.Always (TrailCall.run Env.simple) (fun _ _ res => ∀ t', res = .ok t' → CleanUpInvisible t'.wm)
        [.accept thereAndBack "m" .sorted] ⟨newWalletManager "m", [], [], []⟩ ↔
      Runs.Always (TrailCall.run Env.simple) (fun _ _ res => ∀ t', res = .ok t' → t'.Quiet Env.simple)
        [.accept thereAndBack "m" .sorted] ⟨newWalletManager "m", [], [], []⟩ :=
  cleanUp_invisible_iff Env.simple _ (fresh_newWalletManager "m") _

/-- The nonce of the first sender is lost, and its transfer can be made again. -/
theorem not_cleanUp_invisible : ¬ ∀ (E : Env) (wm : WalletManager), Fresh wm → ∀ calls : List TrailCall,
    Runs.Always (TrailCall.run E) (fun _ _ res => ∀ t', res = .ok t' → CleanUpInvisible t'.wm) calls
      ⟨wm, [], [], []⟩ := by
  intro h
  obtain ⟨hinvisible, -⟩ := h Env.simple _ (fresh_newWalletManager "m") [.accept thereAndBack "m" .sorted]
  have hrun : TrailCall.run Env.simple (.accept thereAndBack "m" .sorted) ⟨newWalletManager "m", [], [], []⟩ =
      .ok ⟨afterBlock thereAndBack, [thereAndBack], [thereAndBack], Trail.post ⟨newWalletManager "m", [], [], []⟩
        (blockItems Env.simple thereAndBack "m" (newWalletManager "m").times)⟩ := by
    simp only [TrailCall.run, accept_thereAndBack]
  have hnew : ((afterBlock thereAndBack).wallet "a").AsNew :=
    cleanUpInvisible_iff.1 (hinvisible _ hrun) "a" (by decide +kernel) (by decide +kernel) (by decide +kernel)
  have hnonce := hnew.nonce
  revert hnonce
  decide +kernel

end WalletManager
end Timbre
