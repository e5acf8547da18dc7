/-
  The block that a miner assembles from its pools.

  `FillBlock` checks every item against the wallets as they are, and the block is applied
  item after item.  **The block is accepted exactly if its items are compatible**
  (`fillBlock_accepted_iff`).
-/
import Timbre.Wallet.Sequence

namespace Timbre

open Call WalletManager

/-! ## The source -/

/-- What `FillBlock` chooses from. -/
inductive BlockObject where
  | dealTy | proofTy | txTy
deriving DecidableEq, Repr

/-- The pools of a miner.  The length of a slice is an `int`. -/
structure Pools where
  deals : List Deal
  chPrPair : List ChPrPair
  transactions : List Transaction
  bounded : transactions.length < 2 ^ 63

/-- `XXX_Size`, generated for each message. -/
structure Sizes where
  deal : Deal → ℕ
  chPrPair : ChPrPair → ℕ
  transaction : Transaction → ℕ

/-- What `FillBlock` has put into the block. -/
structure Filled where
  deals : List Deal
  proofs : List ChPrPair
  transactions : List Transaction
  curSize : ℕ
deriving DecidableEq

namespace Pools

def allEmptyCaches (p : Pools) : Bool :=
  p.transactions.length = 0 ∧ p.deals.length = 0 ∧ p.chPrPair.length = 0

/-- The number of items in the pools. -/
def size (p : Pools) : ℕ := p.deals.length + p.chPrPair.length + p.transactions.length

def dropDeal (p : Pools) : Pools := { p with deals := p.deals.tail }

def dropProof (p : Pools) : Pools := { p with chPrPair := p.chPrPair.tail }

def pop (p : Pools) : Pools where
  deals := p.deals
  chPrPair := p.chPrPair
  transactions := p.transactions.tail
  bounded := by
    have := p.bounded
    rw [List.length_tail]
    omega

/-- One comparison of timestamps: `object` is chosen if its first item is older. -/
def older (lowest : Int64 × BlockObject) (firstTs : Option Int64) (object : BlockObject) :
    Int64 × BlockObject :=
  match firstTs with
  | some ts => if lowest.1 > ts then (ts, object) else lowest
  | none => lowest

/-- The pool whose first item has the lowest timestamp; deals, if no timestamp is lower than
    the highest one. -/
def toChoose (p : Pools) : BlockObject :=
  let afterDeals := older (Int64.maxValue, .dealTy) (p.deals.head?.map Deal.timestamp) .dealTy
  let afterProofs := older afterDeals (p.chPrPair.head?.map ChPrPair.timestamp) .proofTy
  (older afterProofs (p.transactions.head?.map Transaction.timeStamp) .txTy).2

end Pools

def maxBlockSize : ℕ := 60000

/-- Whether a check returns no error. -/
def isValid (c : WM Unit) : WM Bool :=
  tryCatch (do c; return true) fun
    | .error _ => return false
    | e => throw e

variable (E : Env) (sizes : Sizes) (bRound : Int64)

/-- One round of the loop of `FillBlock`: an item is taken from its pool, and put into the
    block if it is valid. -/
def fillRound (p : Pools) (b : Filled) : WM (Pools × Filled) := do
  match p.toChoose with
  | .dealTy =>
    match p.deals.head? with
    | none => throw (.panic "index out of range")
    | some deal =>
      if ← isValid (validateDeal E deal bRound) then
        return (p.dropDeal, { b with
          deals := b.deals ++ [deal], curSize := b.curSize + sizes.deal deal })
      else return (p.dropDeal, b)
  | .proofTy =>
    match p.chPrPair.head? with
    | none => throw (.panic "index out of range")
    | some proof => return (p.dropProof, { b with
        proofs := b.proofs ++ [proof], curSize := b.curSize + sizes.chPrPair proof })
  | .txTy =>
    match p.transactions.head? with
    | none => throw (.panic "interface conversion: interface is nil")
    | some tx =>
      if ← isValid (isExecutable E tx bRound) then
        return (p.pop, { b with
          transactions := b.transactions ++ [tx], curSize := b.curSize + sizes.transaction tx })
      else return (p.pop, b)

/-- The loop of `FillBlock`; every round takes an item, so `fuel` is the number of items. -/
def fillLoop : (fuel : ℕ) → Pools → Filled → WM Filled
  | 0, _, b => return b
  | fuel + 1, p, b =>
    if b.curSize ≥ maxBlockSize ∨ p.allEmptyCaches = true then return b
    else do
      let (p, b) ← fillRound E sizes bRound p b
      fillLoop fuel p b

/-- `FillBlock`. -/
def fillBlock (p : Pools) : WM Filled := fillLoop E sizes bRound p.size p ⟨[], [], [], 0⟩

/-- The block that is generated from what `FillBlock` returns. -/
def Filled.block (b : Filled) (height roundNum : Int64) (minerAdd : Address) : PbBlock where
  height := height
  minerPublicKey := minerAdd
  roundNum := roundNum
  transactions := b.transactions
  deals := b.deals
  chPrPair := b.proofs
  votes := []
  accountStates := []

/-! ## What is put into the block -/

variable {E sizes bRound}
variable {wm wm' s : WalletManager} {miner : Address} {p : Pools} {b c : Filled} {order : MapOrder}

theorem isValid_spec {c : WM Unit} {P : WalletManager → Prop} (h : Spec c wm
    (fun _ wm' => P wm' ∧ Grow wm wm') fun _ wm' => Grow wm wm') :
    Spec (isValid c) wm (fun r wm' => (r = true → P wm') ∧ Grow wm wm') fun _ _ => True := by
  rw [isValid, spec_tryCatch]
  refine h.bind (fun _ wm₁ h₁ => ⟨fun _ => h₁.1, h₁.2⟩) fun e wm₁ h₁ => ?_
  cases e with
  | error m => exact ⟨fun h => (by cases h), h₁⟩
  | panic m => trivial

theorem validateDeal_grow (deal : Deal) (wm : WalletManager) : Spec (validateDeal E deal bRound) wm
    (fun _ wm' => True ∧ Grow wm wm') fun _ wm' => Grow wm wm' := by
  simp only [validateDeal, spec_bind, spec_get, spec_ite, spec_throw, spec_pure]
  exact ite_intro (fun _ => .refl wm) fun _ => ⟨trivial, .refl wm⟩

/-- A round takes an item out of its pool; a transaction that it puts into the block has been
    admitted. -/
structure Taken (E : Env) (bRound : Int64) (wm : WalletManager) (p : Pools) (b : Filled)
    (p' : Pools) (b' : Filled) : Prop where
  size : p'.size + 1 = p.size
  transactions : b'.transactions = b.transactions ∨ ∃ tx, b'.transactions = b.transactions ++ [tx] ∧
    Admitted E bRound tx wm
  length : b'.transactions.length + p'.transactions.length ≤
    b.transactions.length + p.transactions.length

theorem fillRound_spec (sizes : Sizes) (p : Pools) (b : Filled) (wm : WalletManager) :
    Spec (fillRound E sizes bRound p b) wm
      (fun r wm' => Grow wm wm' ∧ Taken E bRound wm p b r.1 r.2) fun _ _ => True := by
  unfold fillRound
  split
  · split
    · trivial
    · rename_i deal hdeal
      obtain ⟨deals, hdeals⟩ := List.head?_eq_some_iff.1 hdeal
      have hsize : p.dropDeal.size + 1 = p.size := by
        simp only [Pools.size, Pools.dropDeal, hdeals, List.tail_cons, List.length_cons]
        omega
      refine (isValid_spec (validateDeal_grow deal wm)).bind (fun r wm₁ h => ?_) fun _ _ h => h
      rw [spec_ite]
      refine ite_intro (fun _ => ⟨h.2, hsize, .inl rfl, le_refl _⟩) fun _ => ⟨h.2, hsize, .inl rfl, le_refl _⟩
  · split
    · trivial
    · rename_i proof hproof
      obtain ⟨proofs, hproofs⟩ := List.head?_eq_some_iff.1 hproof
      refine ⟨.refl wm, ?_, .inl rfl, le_refl _⟩
      simp only [Pools.size, Pools.dropProof, hproofs, List.tail_cons, List.length_cons]
      omega
  · split
    · trivial
    · rename_i tx htx
      obtain ⟨txs, htxs⟩ := List.head?_eq_some_iff.1 htx
      have hsize : p.pop.size + 1 = p.size := by
        simp only [Pools.size, Pools.pop, htxs, List.tail_cons, List.length_cons]
        omega
      have hlen : p.pop.transactions.length + 1 = p.transactions.length := by
        simp [Pools.pop, htxs]
      refine (isValid_spec (P := fun _ => Admitted E bRound tx wm) ((isExecutable_admits E bRound tx wm).mono
        (fun _ _ h => h.symm) fun _ _ h => h)).bind (fun r wm₁ h => ?_) fun _ _ h => h
      rw [spec_ite]
      refine ite_intro (fun hr => ⟨h.2, hsize, .inr ⟨tx, rfl, h.1 hr⟩, ?_⟩)
        fun _ => ⟨h.2, hsize, .inl rfl, ?_⟩
      · dsimp only
        rw [List.length_append, List.length_singleton]
        omega
      · dsimp only
        omega

/-- Every transaction that is put into the block has been admitted. -/
theorem fillLoop_spec (sizes : Sizes) : ∀ (fuel : ℕ) (p : Pools) (b : Filled) (s : WalletManager),
    Grow wm s → (∀ tx ∈ b.transactions, Admitted E bRound tx wm) →
    Spec (fillLoop E sizes bRound fuel p b) s
      (fun c wm' => Grow wm wm' ∧ (∀ tx ∈ c.transactions, Admitted E bRound tx wm) ∧
        c.transactions.length ≤ b.transactions.length + p.transactions.length) fun _ _ => True
  | 0, p, b, s, hg, hb => ⟨hg, hb, Nat.le_add_right _ _⟩
  | fuel + 1, p, b, s, hg, hb => by
    rw [fillLoop, spec_ite]
    refine ite_intro (fun _ => ⟨hg, hb, Nat.le_add_right _ _⟩) fun _ => ?_
    refine (fillRound_spec sizes p b s).bind ?_ fun _ _ h => h
    rintro ⟨p', b'⟩ s₁ ⟨hg₁, htaken⟩
    have hb' : ∀ tx ∈ b'.transactions, Admitted E bRound tx wm := by
      rcases htaken.transactions with h | ⟨tx, h, hadmitted⟩
      · exact h ▸ hb
      · intro tx' htx'
        rw [h, List.mem_append, List.mem_singleton] at htx'
        rcases htx' with htx' | rfl
        · exact hb tx' htx'
        · exact hadmitted.of_grow hg
    exact (fillLoop_spec sizes fuel p' b' s₁ (hg.trans hg₁) hb').mono
      (fun c _ h => ⟨h.1, h.2.1, h.2.2.trans htaken.length⟩) fun _ _ h => h

/-- The fuel does not run out. -/
theorem fillLoop_fuel (E : Env) (sizes : Sizes) (bRound : Int64) : ∀ (fuel : ℕ) (p : Pools) (b : Filled)
    (wm : WalletManager), p.size ≤ fuel →
    fillLoop E sizes bRound fuel p b wm = fillLoop E sizes bRound p.size p b wm := by
  intro fuel
  induction fuel with
  | zero =>
    intro p b wm hle
    rw [Nat.le_zero.1 hle]
  | succ fuel ih =>
    intro p b wm hle
    cases hsize : p.size with
    | zero =>
      have hempty : p.allEmptyCaches = true := by
        simp only [Pools.size] at hsize
        simp only [Pools.allEmptyCaches, decide_eq_true_eq]
        omega
      rw [fillLoop, fillLoop, if_pos (.inr hempty)]
    | succ k =>
      rw [fillLoop, fillLoop]
      split_ifs
      · rfl
      · have hround : Spec (fillRound E sizes bRound p b) wm _ _ := fillRound_spec sizes p b wm
        rcases hr : fillRound E sizes bRound p b wm with ⟨e | ⟨p', b'⟩, wm₁⟩
        · rw [bind_of_error hr, bind_of_error hr]
        · have hp' : p'.size = k := by
            have := (hround.ok hr).2.size
            dsimp only at this
            omega
          rw [bind_of_ok hr, bind_of_ok hr, ← hp']
          exact ih p' b' wm₁ (by omega)

/-! ## When the block is accepted -/

/-- The items of the block are compatible, if the miner is paid `reward` first and the wallets
    are `wm`. -/
structure Compatible (E : Env) (bRound : Int64) (miner : Address) (reward : Int64) (wm : WalletManager)
    (c : Filled) : Prop where
  transactions : ∀ pre tx post, c.transactions = pre ++ tx :: post →
    Fits E bRound miner wm (wm.book + Book.pay miner reward) pre tx
  deals : DealsReady E bRound miner
    (wm.book + Book.pay miner reward + Transaction.effects E bRound miner c.transactions) c.deals
  pairs : PairsReady E wm.times c.proofs

/-- The wallets after the reward of the miner. -/
def rewarded (miner : Address) (reward : Int64) (s : WalletManager) : WalletManager :=
  ((s.put miner).modifyWallet miner fun w => { w with blockReward := w.blockReward + reward }).credit
    miner E reward

theorem orRevert_of_ok {part : Call WalletManager (ℕ × Err) Unit} {revert : ℕ → WM Unit}
    (h : part wm = (.ok (), wm')) : orRevert part revert wm = (.ok (), wm') := by
  unfold orRevert
  rw [h]

theorem returns_orRevert_bind {part : Call WalletManager (ℕ × Err) Unit} {revert : ℕ → WM Unit}
    {rest : Unit → WM Unit} : Returns (orRevert part revert >>= rest) s ↔
      ∃ t, part s = (.ok (), t) ∧ Returns (rest ()) t := by
  rw [returns_bind]
  constructor
  · rintro ⟨_, t, h, hrest⟩
    exact ⟨t, orRevert_eq_ok h, hrest⟩
  · rintro ⟨t, h, hrest⟩
    exact ⟨(), t, orRevert_of_ok h, hrest⟩

theorem returns_orRevert {part : Call WalletManager (ℕ × Err) Unit} {revert : ℕ → WM Unit} :
    Returns (orRevert part revert) s ↔ Returns part s :=
  ⟨fun ⟨_, t, h⟩ => ⟨(), t, orRevert_eq_ok h⟩, fun ⟨_, t, h⟩ => ⟨(), t, orRevert_of_ok h⟩⟩

/-- An ordinary block is accepted exactly if its parts are applied. -/
theorem returns_ordinary {block : PbBlock} (hg : block.isGenesis = false) (hd : block.isDigestBlock = false) :
    Returns (checkAndUpdateWalletStates E block miner order) s ↔
      ∃ t₁, applyTransactions E block.transactions miner block.roundNum
          (rewarded (E := E) miner (blockReward E block) s) = (.ok (), t₁) ∧
        ∃ t₂, applyDeals E block.deals miner block.roundNum t₁ = (.ok (), t₂) ∧
          Returns (applyChPrPair E block.chPrPair) t₂ := by
  have hreward : giveBlockReward E block miner (s.put miner) =
      (.ok (), rewarded (E := E) miner (blockReward E block) s) := rfl
  have hput : checkAndPutWalletByAddress miner s = (.ok (), s.put miner) := rfl
  have hblock : checkAndUpdateWalletStates E block miner order = (do
      checkAndPutWalletByAddress miner
      applyBlock E block miner order) := by
    unfold checkAndUpdateWalletStates
    simp only [hg, hd, Bool.false_eq_true, if_false]
  rw [hblock]
  unfold Returns
  rw [bind_of_ok hput, applyBlock, bind_of_ok hreward]
  change Returns (orRevert _ _ >>= _) _ ↔ _
  rw [returns_orRevert_bind]
  refine exists_congr fun t₁ => and_congr_right fun _ => ?_
  rw [returns_orRevert_bind]
  exact exists_congr fun t₂ => and_congr_right fun _ => returns_orRevert

/-- The block is accepted, by the miner and by others, exactly if its items are compatible. -/
theorem accepted_iff {height : Int64} (hheight : height ≠ 0) (hg : Grow wm s)
    (hadmitted : ∀ tx ∈ c.transactions, Admitted E bRound tx wm) (hlen : c.transactions.length < 2 ^ 64) :
    Returns (checkAndUpdateWalletStates E (c.block height bRound miner) miner order) s ↔
      Compatible E bRound miner (blockReward E (c.block height bRound miner)) wm c := by
  have hgen : (c.block height bRound miner).isGenesis = false :=
    decide_eq_false hheight
  have hm : miner ∈ (s.put miner).keys := Finset.mem_insert_self _ _
  have hmove : Move E (s.put miner) (rewarded (E := E) miner (blockReward E (c.block height bRound miner)) s)
      (Book.pay miner (blockReward E (c.block height bRound miner))) := move_reward hm _
  have hframe : Frame ∅ ∅ wm (rewarded (E := E) miner (blockReward E (c.block height bRound miner)) s) := by
    refine (Frame.of_wallet hg.wallet).trans (Frame.of_put (a := miner) ?_)
    exact (frame_modifyWallet (fun _ => ⟨rfl, rfl⟩) fun _ => rfl).trans (frame_credit _ _ _)
  rw [returns_ordinary hgen rfl]
  generalize rewarded (E := E) miner (blockReward E (c.block height bRound miner)) s = t₀ at hmove hframe
  generalize blockReward E (c.block height bRound miner) = reward at hmove
  have hbook : t₀.book = wm.book + Book.pay miner reward := hg.book ▸ hmove.book
  have hrest : t₀.rest = wm.rest := hmove.rest.trans hg.rest
  have hkeys : wm.keys ⊆ t₀.keys := by
    rw [hmove.keys]
    exact hg.keys.trans (Finset.subset_insert _ _)
  have hm₀ : miner ∈ t₀.keys := hmove.mem hm
  have hnonce : ∀ a, (t₀.wallet a).nonce = (wm.wallet a).nonce := by
    intro a
    have := congrArg Account.nonce (congrFun hbook a)
    rwa [Pi.add_apply, Account.nonce_add, Transaction.nonce_pay, add_zero] at this
  have htxs := returns_applyTransactions hm₀ hadmitted hlen hframe hkeys hrest
    (hmove.executor.trans hg.executor) hnonce
  rw [hbook] at htxs
  have hparts : ∀ t₁, applyTransactions E c.transactions miner bRound t₀ = (.ok (), t₁) →
      (Returns (applyDeals E c.deals miner bRound) t₁ ↔ DealsReady E bRound miner
        (wm.book + Book.pay miner reward + Transaction.effects E bRound miner c.transactions) c.deals) ∧
      ∀ t₂, applyDeals E c.deals miner bRound t₁ = (.ok (), t₂) →
        (Returns (applyChPrPair E c.proofs) t₂ ↔ PairsReady E wm.times c.proofs) := by
    intro t₁ h₁
    obtain ⟨hm₁, happlied⟩ := (applyTransactions_spec hm₀ c.transactions).ok h₁
    refine ⟨?_, fun t₂ h₂ => ?_⟩
    · rw [← hbook, ← AllApplied.book happlied]
      exact returns_applyDeals c.deals t₁ hm₁
    · have hrest₂ : t₂.rest.2 = wm.rest.2 := by
        rw [((applyDeals_spec hm₁ c.deals).ok h₂).rest, AllApplied.rest_snd happlied, hrest]
      have htimes : t₂.times = wm.times := congrArg Prod.fst hrest₂
      rw [← htimes]
      exact returns_applyChPrPair c.proofs t₂
  constructor
  · rintro ⟨t₁, h₁, t₂, h₂, h₃⟩
    obtain ⟨hdeals, hpairs⟩ := hparts t₁ h₁
    exact ⟨htxs.1 ⟨(), t₁, h₁⟩, hdeals.1 ⟨(), t₂, h₂⟩, (hpairs t₂ h₂).1 h₃⟩
  · rintro ⟨h₁, h₂, h₃⟩
    obtain ⟨_, t₁, h₁⟩ := htxs.2 h₁
    obtain ⟨hdeals, hpairs⟩ := hparts t₁ h₁
    obtain ⟨_, t₂, h₂⟩ := hdeals.2 h₂
    exact ⟨t₁, h₁, t₂, h₂, (hpairs t₂ h₂).2 h₃⟩

/-- **The block that a miner assembles is accepted exactly if its items are compatible**, by
    nodes with the wallets of the miner before `FillBlock` and by the miner itself. -/
theorem fillBlock_accepted_iff (E : Env) (sizes : Sizes) (bRound height : Int64) (miner : Address)
    (order : MapOrder) (p : Pools) (c : Filled) (wm wm' : WalletManager) (hheight : height ≠ 0)
    (hfill : fillBlock E sizes bRound p wm = (.ok c, wm')) :
    (Returns (checkAndUpdateWalletStates E (c.block height bRound miner) miner order) wm ↔
      Compatible E bRound miner (blockReward E (c.block height bRound miner)) wm c) ∧
    (Returns (checkAndUpdateWalletStates E (c.block height bRound miner) miner order) wm' ↔
      Compatible E bRound miner (blockReward E (c.block height bRound miner)) wm c) := by
  have hspec : Spec (fillBlock E sizes bRound p) wm _ _ :=
    fillLoop_spec sizes p.size p ⟨[], [], [], 0⟩ wm (.refl wm) (by simp)
  obtain ⟨hg, hadmitted, hlen⟩ := hspec.ok hfill
  have hlen' : c.transactions.length < 2 ^ 64 := by
    have := p.bounded
    simp only [List.length_nil, Nat.zero_add] at hlen
    omega
  exact ⟨accepted_iff hheight (.refl wm) hadmitted hlen', accepted_iff hheight hg hadmitted hlen'⟩

/-! ## Two transactions -/

/-- A transfer of one decibel with the first nonce. -/
def firstTransfer (sender recipient : Address) : Transaction := .simple .transfer sender 1 1 recipient ""

/-- Two transfers of one sender. -/
def ofOneSender : List Transaction := [firstTransfer "a" "b", firstTransfer "a" "c"]

/-- Two transfers back and forth. -/
def backAndForth : List Transaction := [firstTransfer "a" "b", firstTransfer "b" "a"]

/-- The pools of a miner who has received some transactions only. -/
def poolsOf (txs : List Transaction) (h : txs.length < 2 ^ 63) : Pools := ⟨[], [], txs, h⟩

def unitSizes : Sizes := ⟨fun _ => 1, fun _ => 1, fun _ => 1⟩

/-- What is filled into the block from these pools. -/
def filledFrom (txs : List Transaction) : Filled where
  deals := []
  proofs := []
  transactions := txs
  curSize := txs.length

/-- The wallets after `FillBlock`. -/
def afterFilling (txs : List Transaction) (h : txs.length < 2 ^ 63) : WalletManager :=
  (fillBlock Env.simple unitSizes 2 (poolsOf txs h) (newWalletManager "m")).2

theorem fillBlock_poolsOf {txs : List Transaction} (h : txs.length < 2 ^ 63)
    (hfill : (fillBlock Env.simple unitSizes 2 (poolsOf txs h) (newWalletManager "m")).1 = .ok (filledFrom txs)) :
    fillBlock Env.simple unitSizes 2 (poolsOf txs h) (newWalletManager "m") =
      (.ok (filledFrom txs), afterFilling txs h) :=
  Prod.ext hfill rfl

/-- The transfers of one sender are not compatible, those back and forth are. -/
theorem fillBlock_accepted_iff_transfer :
    ¬ Compatible Env.simple 2 "m" (blockReward Env.simple ((filledFrom ofOneSender).block 1 2 "m"))
        (newWalletManager "m") (filledFrom ofOneSender) ∧
      Compatible Env.simple 2 "m" (blockReward Env.simple ((filledFrom backAndForth).block 1 2 "m"))
        (newWalletManager "m") (filledFrom backAndForth) := by
  have hone := fillBlock_accepted_iff Env.simple unitSizes 2 1 "m" .sorted (poolsOf ofOneSender (by decide))
    (filledFrom ofOneSender) (newWalletManager "m") (afterFilling ofOneSender (by decide)) (by decide)
    (fillBlock_poolsOf _ (by decide))
  have hboth := fillBlock_accepted_iff Env.simple unitSizes 2 1 "m" .sorted (poolsOf backAndForth (by decide))
    (filledFrom backAndForth) (newWalletManager "m") (afterFilling backAndForth (by decide)) (by decide)
    (fillBlock_poolsOf _ (by decide))
  refine ⟨fun hcompatible => ?_, hboth.1.1 ⟨(), _, Prod.ext (by decide) rfl⟩⟩
  obtain ⟨_, _, hok⟩ := hone.2.2 hcompatible
  have herror : (checkAndUpdateWalletStates Env.simple ((filledFrom ofOneSender).block 1 2 "m") "m" .sorted
      (afterFilling ofOneSender (by decide))).1 = .error (.error "out of order nonce") := by decide
  rw [hok] at herror
  cases herror

/-- Of two transactions of one sender, each admitted on its own, the second is refused. -/
theorem not_accepted : ¬ ∀ (E : Env) (sizes : Sizes) (bRound height : Int64) (miner : Address)
    (order : MapOrder) (p : Pools) (c : Filled) (wm wm' : WalletManager), height ≠ 0 →
    fillBlock E sizes bRound p wm = (.ok c, wm') →
    Returns (checkAndUpdateWalletStates E (c.block height bRound miner) miner order) wm := by
  intro h
  obtain ⟨_, _, hok⟩ := h Env.simple unitSizes 2 1 "m" .sorted (poolsOf ofOneSender (by decide)) _
    (newWalletManager "m") _ (by decide) (fillBlock_poolsOf _ (by decide))
  have herror : (checkAndUpdateWalletStates Env.simple ((filledFrom ofOneSender).block 1 2 "m") "m" .sorted
      (newWalletManager "m")).1 = .error (.error "out of order nonce") := by decide
  rw [hok] at herror
  cases herror

end Timbre
