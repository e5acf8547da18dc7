/-
  The reversal of block rewards and of digest blocks.

  A reward is taken back with the sign of a reward: the candidates for whom the miner has
  voted are told that its balance has grown.  **Their vote power comes back exactly if the
  share of the miner is the same with the reward added and with the reward taken away**
  (`giveBlockReward_undone_iff`).
-/
import Timbre.Wallet.Digest

namespace Timbre

/-! ## Percentages -/

namespace Env

/-- The functions with balances that are rolled back to `p` percent, in exact arithmetic. -/
def atPercentage (E : Env) (p : ℤ) : Env :=
  { E with
    rollBack := fun b => Int64.ofInt ((p * b.toInt).tdiv 100)
    undoRollBack := fun b => Int64.ofInt ((100 * b.toInt).tdiv p) }

/-- A quotient that lies between nothing and a 64-bit integer is one. -/
theorem inRange_tdiv {n q x : ℤ} (hq : 0 < q) (hx : Postings.InRange x)
    (hpos : 0 ≤ x → 0 ≤ n ∧ n ≤ q * x) (hneg : x ≤ 0 → q * x ≤ n ∧ n ≤ 0) :
    Postings.InRange (n.tdiv q) := by
  obtain ⟨hlow, hhigh⟩ := hx
  rcases le_total 0 x with h | h
  · obtain ⟨h₀, h₁⟩ := hpos h
    rw [Int.tdiv_eq_ediv_of_nonneg h₀]
    have hle : n / q ≤ x := Int.ediv_le_of_le_mul hq (by rwa [mul_comm])
    have hnonneg : 0 ≤ n / q := Int.ediv_nonneg h₀ hq.le
    constructor <;> omega
  · obtain ⟨h₁, h₀⟩ := hneg h
    have hle : -n / q ≤ -x := Int.ediv_le_of_le_mul hq (by linarith [mul_comm q x])
    have hnonneg : 0 ≤ -n / q := Int.ediv_nonneg (by omega) hq.le
    have hn : n.tdiv q = -(-n / q) := by
      rw [← Int.tdiv_eq_ediv_of_nonneg (by omega), Int.neg_tdiv, neg_neg]
    rw [hn]
    constructor <;> omega

variable {E : Env} {p : ℤ} {b : Int64}

theorem toInt_rollBack (hp : 0 ≤ p) (hp' : p ≤ 100) :
    ((E.atPercentage p).rollBack b).toInt = (p * b.toInt).tdiv 100 := by
  have h : Postings.InRange ((p * b.toInt).tdiv 100) := by
    refine inRange_tdiv (by norm_num) (Postings.inRange_toInt b) (fun h => ?_) fun h => ?_
    · exact ⟨mul_nonneg hp h, mul_le_mul_of_nonneg_right hp' h⟩
    · exact ⟨mul_le_mul_of_nonpos_right hp' h, mul_nonpos_of_nonneg_of_nonpos hp h⟩
  rw [atPercentage, Int64.toInt_ofInt]
  exact Postings.bmod_of_inRange h

/-- **A balance that is rolled back and scaled up again** is what it was exactly if nothing was
    lost in the rounding. -/
theorem undoRollBack_rollBack_iff (hp : 1 ≤ p) (hp' : p ≤ 100) :
    (E.atPercentage p).undoRollBack ((E.atPercentage p).rollBack b) = b ↔ 100 ∣ p * b.toInt := by
  have hpos : 0 < p := by omega
  set n := p * b.toInt with hn
  have hsign : (0 ≤ b.toInt → 0 ≤ n) ∧ (b.toInt ≤ 0 → n ≤ 0) :=
    ⟨mul_nonneg hpos.le, mul_nonpos_of_nonneg_of_nonpos hpos.le⟩
  have hquot : 0 ≤ n ∧ n.tdiv 100 = n / 100 ∨ n ≤ 0 ∧ n.tdiv 100 = -(-n / 100) := by
    rcases le_total 0 n with h | h
    · exact .inl ⟨h, Int.tdiv_eq_ediv_of_nonneg h⟩
    · refine .inr ⟨h, ?_⟩
      rw [← Int.tdiv_eq_ediv_of_nonneg (by omega), Int.neg_tdiv, neg_neg]
  have hrange : Postings.InRange ((100 * n.tdiv 100).tdiv p) := by
    refine inRange_tdiv hpos (Postings.inRange_toInt b) (fun h => ?_) fun h => ?_
    · have h₀ := hsign.1 h
      omega
    · have h₀ := hsign.2 h
      omega
  have hback : ((E.atPercentage p).undoRollBack ((E.atPercentage p).rollBack b)).toInt =
      (100 * n.tdiv 100).tdiv p := by
    have h : (E.atPercentage p).undoRollBack ((E.atPercentage p).rollBack b) =
        Int64.ofInt ((100 * ((E.atPercentage p).rollBack b).toInt).tdiv p) := rfl
    rw [h, Int64.toInt_ofInt, toInt_rollBack hpos.le hp', ← hn]
    exact Postings.bmod_of_inRange hrange
  rw [← Int64.toInt_inj, hback]
  constructor
  · intro h
    have hdiv : (100 * n.tdiv 100).natAbs / p.natAbs = b.toInt.natAbs :=
      (Int.natAbs_tdiv _ _).symm.trans (congrArg Int.natAbs h)
    have hle : n.natAbs ≤ (100 * n.tdiv 100).natAbs := by
      rw [show n.natAbs = p.natAbs * b.toInt.natAbs from Int.natAbs_mul _ _, ← hdiv]
      exact Nat.mul_div_le _ _
    omega
  · intro h
    rw [Int.mul_tdiv_cancel' h, hn, Int.mul_tdiv_cancel_left _ hpos.ne']

end Env

namespace WalletManager

open Call

variable {E : Env} {wm wm' wm₁ wm₂ : WalletManager} {a c miner : Address} {block : PbBlock}
  {order : MapOrder}

/-! ## The reward -/

/-- The votes of an address for a candidate. -/
abbrev votesOf (wm : WalletManager) (a c : Address) : ℤ := (wm.wallet a).voted.get c

/-- The wallets after a reward is taken back. -/
def afterUnreward (E : Env) (miner : Address) (reward : Int64) (wm : WalletManager) :
    WalletManager :=
  let wm := wm.modifyWallet miner fun w =>
    { w with balance := w.balance - reward, blockReward := w.blockReward - reward }
  wm.reAssign E (wm.wallet miner) reward

theorem book_afterUnreward (reward : Int64) :
    (afterUnreward E miner reward wm).book = wm.book + Book.pay miner (-reward) := by
  rw [afterUnreward, book_reAssign]
  exact book_modifyWallet_add (by simp [Wallet.account, sub_eq_add_neg])

/-- The candidates keep twice the share of the reward. -/
theorem drift_afterUnreward (reward : Int64) (hc : c ∈ insert miner wm.keys) :
    (afterUnreward E miner reward wm).drift E c = wm.drift E c +
      (E.share (wm.votesOf miner c) (wm.wallet miner).balance -
        E.share (wm.votesOf miner c) ((wm.wallet miner).balance - reward - reward)) :=
  drift_told rfl rfl hc

/-- One wallet counts something more. -/
theorem counters_count {f : Wallet → Wallet} {x : Counts}
    (h : ((f (wm.wallet a)).blockReward, (f (wm.wallet a)).transactionFee,
      (f (wm.wallet a)).rollBackAmount) = wm.counters a + x) :
    (wm.modifyWallet a f).counters = wm.counters + Pi.single a x := by
  rw [counters_modifyWallet, h]
  funext b
  by_cases hb : b = a
  · subst hb
    simp
  · simp [hb]

theorem modifyWallet_put {f : Wallet → Wallet} : (wm.put a).modifyWallet a f = wm.modifyWallet a f := by
  have h : (wm.walletByAddress.touch a).modify a f = wm.walletByAddress.modify a f :=
    Store.ext (Finset.insert_idem a wm.keys) rfl
  rw [modifyWallet, put, h]
  rfl

/-- The wallets after a reward. -/
def afterReward (E : Env) (miner : Address) (reward : Int64) (wm : WalletManager) : WalletManager :=
  (wm.modifyWallet miner fun w => { w with blockReward := w.blockReward + reward }).credit miner E
    reward

theorem afterReward_put (reward : Int64) :
    afterReward E miner reward (wm.put miner) = afterReward E miner reward wm := by
  rw [afterReward, modifyWallet_put, afterReward]

theorem counters_afterReward (reward : Int64) : (afterReward E miner reward wm).counters =
    wm.counters + Pi.single miner (reward, 0, 0) := by
  rw [afterReward, credit, counters_reAssign, counters_count (x := 0) (by simp [counters]),
    counters_count (x := (reward, 0, 0)) (by simp [counters]), Pi.single_zero, add_zero]

theorem counters_afterUnreward (reward : Int64) : (afterUnreward E miner reward wm).counters =
    wm.counters + Pi.single miner (-reward, 0, 0) := by
  rw [afterUnreward, counters_reAssign]
  exact counters_count (by simp [counters, sub_eq_add_neg])

/-- The balance and the reward of the miner and the vote power of every address are what they
    were. -/
structure RewardUndone (miner : Address) (wm wm' : WalletManager) : Prop where
  balance : (wm'.wallet miner).balance = (wm.wallet miner).balance
  blockReward : (wm'.wallet miner).blockReward = (wm.wallet miner).blockReward
  votePower : ∀ c, (wm'.wallet c).votePower = (wm.wallet c).votePower

/-- A vote power is its drift and the shares. -/
theorem votePower_eq (wm : WalletManager) (c : Address) :
    (wm.wallet c).votePower = wm.drift E c + wm.book.stake E c := (sub_add_cancel _ _).symm

/-- **A reward that is given and taken back** leaves the vote power of every candidate as it
    was exactly if the share of the miner is the same with the reward added and with the reward
    taken away. -/
theorem giveBlockReward_undone_iff (E : Env) (wm : WalletManager) (block : PbBlock)
    (miner : Address) : ∃ wm₁ wm₂, giveBlockReward E block miner wm = (.ok (), wm₁) ∧
      revertBlockReward E block miner wm₁ = (.ok (), wm₂) ∧
      (RewardUndone miner wm wm₂ ↔ ∀ c ∈ wm.keys,
        E.share (wm.votesOf miner c) ((wm.wallet miner).balance + blockReward E block) =
          E.share (wm.votesOf miner c) ((wm.wallet miner).balance - blockReward E block)) := by
  set r := blockReward E block with hr
  refine ⟨afterReward E miner r wm, afterUnreward E miner r (afterReward E miner r wm), rfl, rfl, ?_⟩
  have hmove : Move E (wm.put miner) (afterReward E miner r wm) (Book.pay miner r) := by
    have hput : afterReward E miner r (wm.put miner) = afterReward E miner r wm := afterReward_put r
    rw [← hput]
    exact move_reward (Finset.mem_insert_self _ _) r
  set wm₁ := afterReward E miner r wm
  have hbook : (afterUnreward E miner r wm₁).book = wm.book := by
    rw [book_afterUnreward, hmove.book, book_put, Book.pay_neg, add_neg_cancel_right]
  have hbalance : (wm₁.wallet miner).balance = (wm.wallet miner).balance + r := by
    have h := congrArg Account.balance (congrFun hmove.book miner)
    simpa [Book.pay, book, Wallet.account] using h
  have hvotes : ∀ c, wm₁.votesOf miner c = wm.votesOf miner c := by
    intro c
    have h := congrFun (congrArg Account.votes (congrFun hmove.book miner)) c
    simpa [Book.pay, book, Wallet.account] using h
  have hpower : ∀ c ∈ insert miner wm.keys, ((afterUnreward E miner r wm₁).wallet c).votePower =
      (wm.wallet c).votePower + (E.share (wm.votesOf miner c) ((wm.wallet miner).balance + r) -
        E.share (wm.votesOf miner c) ((wm.wallet miner).balance - r)) := by
    intro c hc
    rw [votePower_eq (E := E), drift_afterUnreward r (Finset.mem_insert_of_mem (hmove.keys ▸ hc)),
      hbook, hmove.drift c hc, drift_put, hbalance, hvotes, add_sub_cancel_right,
      votePower_eq (E := E) wm c]
    abel
  have habsent : ∀ c ∉ insert miner wm.keys,
      ((afterUnreward E miner r wm₁).wallet c).votePower = (wm.wallet c).votePower := by
    intro c hc
    have hc₁ : c ∉ (afterUnreward E miner r wm₁).keys := by
      intro h
      have h' : c ∈ insert miner (insert miner (insert miner wm.keys)) := h
      simp only [Finset.mem_insert, or_self_left] at h' hc
      exact hc h'
    rw [wallet_absent hc₁, wallet_absent fun h => hc (Finset.mem_insert_of_mem h)]
  constructor
  · intro h c hc
    have hc' := hpower c (Finset.mem_insert_of_mem hc)
    rw [h.votePower c, left_eq_add, sub_eq_zero] at hc'
    exact hc'
  · intro h
    refine ⟨congrArg Account.balance (congrFun hbook miner), ?_, fun c => ?_⟩
    · have hcount : (afterUnreward E miner r wm₁).counters = wm.counters := by
        rw [counters_afterUnreward, counters_afterReward, add_assoc, ← Pi.single_add]
        simp
      exact congrArg Prod.fst (congrFun hcount miner)
    · by_cases hc : c ∈ insert miner wm.keys
      · rw [hpower c hc]
        by_cases hmem : c ∈ wm.keys
        · rw [h c hmem, sub_self, add_zero]
        · have hm : miner ∉ wm.keys := (Finset.mem_insert.1 hc).resolve_right hmem ▸ hmem
          have hnone : wm.votesOf miner c = 0 := by
            rw [votesOf, wallet_absent hm]
            rfl
          rw [hnone, E.share_zero, E.share_zero, sub_self, add_zero]
      · exact habsent c hc

/-- A miner who has given half of its votes to itself. -/
def selfVoter : WalletManager := (newWalletManager "m").castVote "m" Env.simple "m" 50

/-- A miner who has voted for itself keeps some of the vote power of the reward. -/
theorem not_rewardUndone : ¬ ∀ (E : Env) (wm wm₁ wm₂ : WalletManager) (block : PbBlock)
    (miner : Address), miner ∈ wm.keys → giveBlockReward E block miner wm = (.ok (), wm₁) →
    revertBlockReward E block miner wm₁ = (.ok (), wm₂) → RewardUndone miner wm wm₂ := by
  intro h
  have hundone := h Env.simple selfVoter _ _ (.simple [] [] []) "m" (by decide +kernel) rfl rfl
  have hpower := hundone.votePower "m"
  revert hpower
  decide +kernel

/-! ## Digest blocks -/

/-- The wallets after the clean-up of a digest block, before the reset. -/
structure DigestReset (E : Env) (miner : Address) (block : PbBlock) (wm w : WalletManager) : Prop where
  keys : w.keys = wm.tidied.keys
  rewarded : miner ∈ wm.tidied.keys → w = afterReward E miner (blockReward E block) wm.tidied

theorem applyDigestBlock_reset (hm : miner ∈ wm.keys) : Spec (applyDigestBlock E block miner order) wm
    (fun _ wm' => ∃ w, DigestReset E miner block wm w ∧
      Rescaled E E.rollBack (fun b _ => (0, 0, E.rollBack b)) (order.list w.keys) w wm')
    fun _ _ => True := by
  rw [applyDigestBlock, spec_bind, spec_getWallet, if_pos hm]
  refine (validateDigestBlock_spec block wm).bind ?_ fun _ _ _ => trivial
  rintro _ _ ⟨rfl, -⟩
  simp only [spec_bind, spec_get, spec_ite, spec_modify]
  have hreset : ∀ w, DigestReset E miner block wm w → Spec (resetWalletManagerState E order) w
      (fun _ wm' => ∃ w, DigestReset E miner block wm w ∧
        Rescaled E E.rollBack (fun b _ => (0, 0, E.rollBack b)) (order.list w.keys) w wm')
      fun _ _ => True :=
    fun w hw => (resetWallets_spec order w).mono (fun _ _ h => ⟨w, hw, h⟩) fun _ _ h => h.elim
  by_cases hmt : miner ∈ wm.tidied.keys
  · rw [if_pos (by simpa [checkEntryByAddress] using hmt)]
    have hkeys : (afterReward E miner (blockReward E block) wm.tidied).keys = wm.tidied.keys := by
      change insert miner (insert miner wm.tidied.keys) = _
      rw [Finset.insert_idem, Finset.insert_eq_of_mem hmt]
    exact hreset _ ⟨hkeys, fun _ => rfl⟩
  · rw [if_neg (by simpa [checkEntryByAddress] using hmt)]
    exact hreset _ ⟨rfl, fun h => absurd h hmt⟩

theorem revertDigest_spec (hd : block.isDigestBlock = true) (hm : miner ∈ wm.keys) :
    Spec (revertWalletStates E block miner order) wm
      (fun _ wm' => ∃ w, Rescaled E E.undoRollBack (fun _ x => (x.1, x.2.1, 0))
        (order.list wm.keys) wm w ∧ wm' = afterUnreward E miner (blockReward E block) w)
      fun _ _ => False := by
  rw [revertWalletStates, spec_bind, spec_getWallet, if_pos hm, if_pos hd, spec_bind]
  exact (undoDigestReset_spec order wm).mono (fun _ w h => ⟨w, h, rfl⟩) fun _ _ h => h

/-- What the miner gets for the block; nobody else gets anything. -/
def rewardOf (E : Env) (block : PbBlock) (miner a : Address) : Int64 :=
  if a = miner then blockReward E block else 0

theorem mem_of_revertWalletStates
    (h : revertWalletStates E block miner order wm = (.ok (), wm')) : miner ∈ wm.keys := by
  obtain ⟨_, _, hget, -⟩ := bind_ok h
  have hspec : Spec (getWalletByAddress miner) wm (fun _ _ => miner ∈ wm.keys) fun _ _ => True := by
    rw [spec_getWallet]
    split_ifs with hm
    exact hm
  exact hspec.ok hget

/-- The wallets are what they were before a digest block. -/
structure DigestUndone (wm wm' : WalletManager) : Prop where
  balance : ∀ a, (wm'.wallet a).balance = (wm.wallet a).balance
  /-- the rewards, the fees and the amounts of the last digest block -/
  counters : ∀ a, wm'.counters a = wm.counters a
  votePower : ∀ a, (wm'.wallet a).votePower = (wm.wallet a).votePower

/-- The wallets stand a digest block that rolls the balances back to `p` percent. -/
structure DigestUndoable (E : Env) (p : ℤ) (block : PbBlock) (miner : Address) (wm : WalletManager) :
    Prop where
  /-- the wallet of the miner is not deleted -/
  kept : miner ∈ wm.tidied.keys
  /-- nothing is lost in the rounding -/
  exact : ∀ a ∈ wm.tidied.keys,
    100 ∣ p * ((wm.wallet a).balance + rewardOf E block miner a).toInt
  /-- nothing has been counted, but for a reward that the miner owes -/
  fresh : ∀ a ∈ wm.tidied.keys, wm.counters a = (-rewardOf E block miner a, 0, 0)
  /-- the wallets that are deleted have nothing that a new one has not -/
  deleted : ∀ a ∉ wm.tidied.keys, (wm.wallet a).rollBackAmount = 0 ∧ (wm.wallet a).votePower = 0
  share : ∀ c ∈ wm.tidied.keys,
    E.share (wm.votesOf miner c) ((wm.wallet miner).balance + blockReward E block) =
      E.share (wm.votesOf miner c) ((wm.wallet miner).balance - blockReward E block)

/-- A digest block has been applied and reverted. -/
structure DigestReverted (E : Env) (block : PbBlock) (miner : Address) (wm wm' : WalletManager) :
    Prop where
  keys : wm'.keys = wm.tidied.keys
  book : ∀ a ∈ wm.tidied.keys, wm'.book a = { wm.book a with
    balance := E.undoRollBack (E.rollBack ((wm.book a).balance + rewardOf E block miner a)) -
      rewardOf E block miner a }
  counters : ∀ a ∈ wm.tidied.keys, wm'.counters a = (-rewardOf E block miner a, 0, 0)
  drift : ∀ c ∈ wm.tidied.keys, wm'.drift E c = wm.tidied.drift E c +
    (E.share (wm.votesOf miner c)
        (E.undoRollBack (E.rollBack ((wm.wallet miner).balance + blockReward E block))) -
      E.share (wm.votesOf miner c)
        (E.undoRollBack (E.rollBack ((wm.wallet miner).balance + blockReward E block)) -
          blockReward E block - blockReward E block))

theorem digestReverted {w wm₃ : WalletManager} {order' : MapOrder}
    (hm : miner ∈ wm.tidied.keys) (hw : DigestReset E miner block wm w)
    (h₁ : Rescaled E E.rollBack (fun b _ => (0, 0, E.rollBack b)) (order.list w.keys) w wm₁)
    (h₂ : Rescaled E E.undoRollBack (fun _ x => (x.1, x.2.1, 0)) (order'.list wm₁.keys) wm₁ wm₂)
    (h₃ : wm₃ = afterUnreward E miner (blockReward E block) wm₂) :
    DigestReverted E block miner wm wm₃ := by
  obtain rfl := h₃
  obtain rfl := hw.rewarded hm
  set r := blockReward E block with hr
  have hmove : Move E wm.tidied (afterReward E miner r wm.tidied) (Book.pay miner r) := move_reward hm r
  have hkeys₁ : wm₁.keys = wm.tidied.keys := h₁.keys.trans hmove.keys
  have hkeys₂ : wm₂.keys = wm.tidied.keys := h₂.keys.trans hkeys₁
  have hbook₂ : ∀ a ∈ wm.tidied.keys, wm₂.book a = { wm.book a with
      balance := E.undoRollBack (E.rollBack ((wm.book a).balance + rewardOf E block miner a)) } := by
    intro a ha
    have hlist₁ : a ∈ order.list (afterReward E miner r wm.tidied).keys :=
      (order.mem _ a).2 (hmove.keys ▸ ha)
    have hlist₂ : a ∈ order'.list wm₁.keys := (order'.mem _ a).2 (hkeys₁ ▸ ha)
    have hbook : wm.tidied.book a = wm.book a := congrArg Wallet.account (wallet_tidied ha)
    rw [h₂.book, if_pos hlist₂, h₁.book, if_pos hlist₁, hmove.book, Pi.add_apply, hbook, rewardOf]
    by_cases hma : a = miner
    · subst hma
      simp [Book.pay, hr]
    · simp [Book.pay, hma]
  refine ⟨?_, fun a ha => ?_, fun a ha => ?_, fun c hc => ?_⟩
  · change insert miner wm₂.keys = _
    rw [hkeys₂, Finset.insert_eq_of_mem hm]
  · rw [book_afterUnreward, Pi.add_apply, hbook₂ a ha, rewardOf]
    by_cases hma : a = miner
    · subst hma
      simp [Book.pay, hr, sub_eq_add_neg]
    · simp [Book.pay, hma]
  · have hlist₁ : a ∈ order.list (afterReward E miner r wm.tidied).keys :=
      (order.mem _ a).2 (hmove.keys ▸ ha)
    have hlist₂ : a ∈ order'.list wm₁.keys := (order'.mem _ a).2 (hkeys₁ ▸ ha)
    rw [counters_afterUnreward, Pi.add_apply, h₂.counters, if_pos hlist₂, h₁.counters, if_pos hlist₁,
      rewardOf]
    by_cases hma : a = miner
    · subst hma
      simp [hr]
    · simp [hma]
  · have hminer := hbook₂ miner hm
    have hvotes : wm₂.votesOf miner c = wm.votesOf miner c :=
      congrFun (congrArg Account.votes hminer) c
    have hbalance : (wm₂.wallet miner).balance = _ := congrArg Account.balance hminer
    rw [drift_afterUnreward r (Finset.mem_insert_of_mem (hkeys₂ ▸ hc)), h₂.drift c (hkeys₁ ▸ hc),
      h₁.drift c (hmove.keys ▸ hc), hmove.drift c hc, hvotes, hbalance]
    simp [rewardOf, book, Wallet.account, hr]

theorem rewardOf_self : rewardOf E block miner miner = blockReward E block := if_pos rfl

/-- A wallet that the clean-up deletes reads as a new wallet, up to what it has counted in the
    last digest block and its vote power. -/
theorem deleted_balance (ha : a ∉ wm.tidied.keys) : (wm.wallet a).balance = baseBalance ∧
    (wm.wallet a).blockReward = 0 ∧ (wm.wallet a).transactionFee = 0 := by
  by_cases hmem : a ∈ wm.keys
  · have h := unused_of_not_mem_tidied hmem ha
    simp only [Wallet.unusedWallet, decide_eq_true_eq] at h
    exact ⟨h.1, h.2.2.1, h.2.2.2.1⟩
  · rw [wallet_absent hmem]
    exact ⟨rfl, rfl, rfl⟩

/-- With the balances restored, the vote powers are restored exactly if the share of the miner
    is the same with the reward added and with the reward taken away. -/
theorem DigestReverted.votePower_iff (h : DigestReverted E block miner wm wm')
    (hm : miner ∈ wm.tidied.keys)
    (hscale : ∀ a ∈ wm.tidied.keys,
      E.undoRollBack (E.rollBack ((wm.wallet a).balance + rewardOf E block miner a)) =
        (wm.wallet a).balance + rewardOf E block miner a) (hc : c ∈ wm.tidied.keys) :
    (wm'.wallet c).votePower = (wm.wallet c).votePower ↔
      E.share (wm.votesOf miner c) ((wm.wallet miner).balance + blockReward E block) =
        E.share (wm.votesOf miner c) ((wm.wallet miner).balance - blockReward E block) := by
  have hbook : wm'.book = wm.tidied.book := by
    funext a
    by_cases ha : a ∈ wm.tidied.keys
    · have hs : E.undoRollBack (E.rollBack ((wm.book a).balance + rewardOf E block miner a)) = _ :=
        hscale a ha
      rw [h.book a ha, hs, add_sub_cancel_right]
      exact (congrArg Wallet.account (wallet_tidied ha)).symm
    · rw [book_tidied_absent ha, WalletManager.book, wallet_absent (h.keys ▸ ha)]
  have hreward := hscale miner hm
  rw [rewardOf_self] at hreward
  rw [votePower_eq (E := E), h.drift c hc, hbook, hreward, add_sub_cancel_right, ← wallet_tidied hc,
    votePower_eq (E := E) wm.tidied, add_right_comm, add_eq_left, sub_eq_zero]

theorem DigestReverted.undone_iff {p : ℤ} (hp : 1 ≤ p) (hp' : p ≤ 100) (hm : miner ∈ wm.tidied.keys)
    (h : DigestReverted (E.atPercentage p) block miner wm wm') :
    DigestUndone wm wm' ↔ DigestUndoable E p block miner wm := by
  have hbalance : ∀ a ∈ wm.tidied.keys, (wm'.wallet a).balance = _ := fun a ha =>
    congrArg Account.balance (h.book a ha)
  have hback : ∀ a, (E.atPercentage p).undoRollBack ((E.atPercentage p).rollBack
      ((wm.wallet a).balance + rewardOf (E.atPercentage p) block miner a)) =
        (wm.wallet a).balance + rewardOf (E.atPercentage p) block miner a ↔
      100 ∣ p * ((wm.wallet a).balance + rewardOf E block miner a).toInt := fun a =>
    Env.undoRollBack_rollBack_iff hp hp'
  have habsent : ∀ a ∉ wm.tidied.keys, wm'.wallet a = newWallet := fun a ha =>
    wallet_absent (h.keys ▸ ha)
  constructor
  · intro hundone
    have hscale : ∀ a ∈ wm.tidied.keys, (E.atPercentage p).undoRollBack ((E.atPercentage p).rollBack
        ((wm.wallet a).balance + rewardOf (E.atPercentage p) block miner a)) =
          (wm.wallet a).balance + rewardOf (E.atPercentage p) block miner a := by
      intro a ha
      have hb := hbalance a ha
      rw [hundone.balance a] at hb
      exact (sub_eq_iff_eq_add.1 hb.symm)
    refine ⟨hm, fun a ha => (hback a).1 (hscale a ha), fun a ha => ?_, fun a ha => ?_, fun c hc => ?_⟩
    · exact (hundone.counters a).symm.trans (h.counters a ha)
    · have hcounts := hundone.counters a
      have hpower := hundone.votePower a
      rw [WalletManager.counters, habsent a ha] at hcounts
      rw [habsent a ha] at hpower
      exact ⟨(congrArg (fun x : Counts => x.2.2) hcounts).symm, hpower.symm⟩
    · exact (h.votePower_iff hm hscale hc).1 (hundone.votePower c)
  · intro hable
    have hscale : ∀ a ∈ wm.tidied.keys, _ := fun a ha => (hback a).2 (hable.exact a ha)
    refine ⟨fun a => ?_, fun a => ?_, fun a => ?_⟩ <;> by_cases ha : a ∈ wm.tidied.keys
    · have hs : (E.atPercentage p).undoRollBack ((E.atPercentage p).rollBack
        ((wm.book a).balance + rewardOf (E.atPercentage p) block miner a)) = _ := hscale a ha
      rw [hbalance a ha, hs]
      exact add_sub_cancel_right _ _
    · rw [habsent a ha, (deleted_balance ha).1]
      rfl
    · exact (h.counters a ha).trans (hable.fresh a ha).symm
    · obtain ⟨-, hreward, hfee⟩ := deleted_balance ha
      rw [WalletManager.counters, WalletManager.counters, habsent a ha, hreward, hfee, (hable.deleted a ha).1]
      rfl
    · exact (h.votePower_iff hm hscale ha).2 (hable.share a ha)
    · rw [habsent a ha, (hable.deleted a ha).2]
      rfl

/-- **A digest block that is reverted** leaves the wallets as they were exactly if nothing is
    lost: by rounding, in the counters and in the wallets that are deleted. -/
theorem digest_undone_iff (E : Env) (p : ℤ) (wm wm₁ wm₂ : WalletManager) (block : PbBlock)
    (miner : Address) (order order' : MapOrder) (result : Except Err Unit) (hp : 1 ≤ p)
    (hp' : p ≤ 100) (hg : block.isGenesis = false) (hd : block.isDigestBlock = true)
    (happly : checkAndUpdateWalletStates (E.atPercentage p) block miner order wm = (.ok (), wm₁))
    (hrevert : revertWalletStates (E.atPercentage p) block miner order' wm₁ = (result, wm₂)) :
    result = .ok () ∧ DigestUndone wm wm₂ ↔ DigestUndoable E p block miner (wm.put miner) := by
  have hm : miner ∈ (wm.put miner).keys := Finset.mem_insert_self _ _
  unfold checkAndUpdateWalletStates at happly
  simp only [hg, hd, Bool.false_eq_true, if_false, if_true] at happly
  have hreset : Spec (applyDigestBlock (E.atPercentage p) block miner order) (wm.put miner) _ _ :=
    applyDigestBlock_reset hm
  have hspec : Spec (do checkAndPutWalletByAddress miner
                        applyDigestBlock (E.atPercentage p) block miner order) wm _ _ :=
    spec_bind.2 (spec_checkAndPut.2 hreset)
  obtain ⟨w, hw, h₁⟩ := hspec.ok happly
  have hkeys : wm₁.keys = (wm.put miner).tidied.keys := h₁.keys.trans hw.keys
  by_cases hkept : miner ∈ (wm.put miner).tidied.keys
  · have hspec' : Spec (revertWalletStates (E.atPercentage p) block miner order') wm₁ _ _ :=
      revertDigest_spec hd (hkeys ▸ hkept)
    obtain ⟨u, s, hok⟩ := hspec'.returns
    obtain ⟨rfl, rfl⟩ := Prod.mk.inj (hok.symm.trans hrevert)
    obtain ⟨w₂, h₂, h₃⟩ := hspec'.ok hok
    rw [← DigestReverted.undone_iff hp hp' hkept (digestReverted hkept hw h₁ h₂ h₃)]
    exact ⟨fun h => ⟨h.2.balance, h.2.counters, h.2.votePower⟩,
      fun h => ⟨rfl, h.balance, h.counters, h.votePower⟩⟩
  · constructor
    · rintro ⟨rfl, -⟩
      exact absurd (hkeys ▸ mem_of_revertWalletStates hrevert) hkept
    · exact fun h => absurd h.kept hkept

/-- The wallets of a node that is a candidate. -/
def candidateNode : WalletManager :=
  (newWalletManager "m").modifyWallet "m" fun w => { w with isCandidate := true }

/-- The digest block of these wallets. -/
def candidateDigest : PbBlock :=
  { PbBlock.simple [] [] [] with accountStates := [⟨"m", baseBalance, [], true, [], 0⟩] }

/-- The wallets after the digest block, with everything rolled back to `p` percent. -/
def afterDigest (p : ℤ) : WalletManager :=
  (checkAndUpdateWalletStates (Env.simple.atPercentage p) candidateDigest "m" .sorted candidateNode).2

/-- The wallets after the digest block has been reverted. -/
def afterDigestUndo (p : ℤ) : WalletManager :=
  (revertWalletStates (Env.simple.atPercentage p) candidateDigest "m" .sorted (afterDigest p)).2

theorem digest_undone_iff_all : .ok () = (.ok () : Except Err Unit) ∧
    DigestUndone candidateNode (afterDigestUndo 100) ↔
      DigestUndoable Env.simple 100 candidateDigest "m" (candidateNode.put "m") :=
  digest_undone_iff Env.simple 100 candidateNode (afterDigest 100) _ candidateDigest "m" .sorted .sorted
    (.ok ()) (by decide) (by decide) (by decide) (by decide) (Prod.ext (by decide +kernel) rfl)
    (Prod.ext (by decide +kernel) rfl)

/-- The reward is taken back from a counter that the digest block has reset. -/
theorem not_digest_undone : ¬ ∀ (E : Env) (p : ℤ) (wm wm₁ wm₂ : WalletManager) (block : PbBlock)
    (miner : Address) (order order' : MapOrder) (result : Except Err Unit), 1 ≤ p → p ≤ 100 →
    block.isGenesis = false → block.isDigestBlock = true →
    checkAndUpdateWalletStates (E.atPercentage p) block miner order wm = (.ok (), wm₁) →
    revertWalletStates (E.atPercentage p) block miner order' wm₁ = (result, wm₂) →
    DigestUndone wm wm₂ := by
  intro h
  have hundone := h Env.simple 100 candidateNode (afterDigest 100) (afterDigestUndo 100)
    candidateDigest "m" .sorted .sorted (.ok ()) (by decide) (by decide) (by decide) (by decide)
    (Prod.ext (by decide +kernel) rfl) (Prod.ext (by decide +kernel) rfl)
  have hcounters := hundone.counters "m"
  revert hcounters
  decide +kernel

end WalletManager
end Timbre
