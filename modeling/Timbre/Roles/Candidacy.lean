/-
  Who is a candidate: the candidates of the DPOS and the flags of the wallets.

  Both registers are written by announcements, by `UpdateDpos`, by the genesis block and by the
  candidate transactions.  **They agree in every state of a run exactly if every step is harmless**
  (`consistent_iff`): an announced candidate has its address as id, `UpdateDpos` registers nobody
  whose wallet is not flagged, and the miner of the genesis block is registered too.
-/
import Timbre.Wallet.Votes

namespace Timbre

open Call WalletManager

/-! ## The source -/

/-- The candidates and the wallets of a node.  Of the candidates only the ids are kept under which
    they are stored: nothing below reads what is stored there. -/
structure Registers where
  candidateState : Finset Address
  wm : WalletManager

namespace Registers

/-- The ids of the candidates. -/
def ids (s : State) : Finset Address := s.candidateState.keys.toFinset

/-- A state of the DPOS with these ids. -/
def ofIds (candidateState : Finset Address) : State where
  candidateState := ⟨(MapOrder.sorted.list candidateState).map fun id => ⟨id, ⟨id, 0, -1⟩⟩, by
    rw [List.NodupKeys, List.keys, List.map_map]
    exact (MapOrder.sorted.nodup candidateState).map fun _ _ h => h⟩
  totalVoteStaked := 0
  childCommitteeSize := State.defaultCommitteeSize
  keyed e he := by
    obtain ⟨id, -, rfl⟩ := List.mem_map.1 he
    rfl

/-- The wallets, with an executor that knows the candidates. -/
def wallets (s : Registers) : WalletManager := { s.wm with executor := ofIds s.candidateState }

/-- A call on the wallets; their executor writes to the candidates. -/
def onWallets (c : WM Unit) : Call Registers Err Unit := fun s =>
  ((c s.wallets).1, ⟨ids (c s.wallets).2.executor, (c s.wallets).2⟩)

/-- `PutCandidate`. -/
def putCandidate (id : Address) : Call Registers Err Unit := do
  if id ∈ (← get).candidateState then throw (.error "Candidate with id already exists")
  modify fun s => { s with candidateState := insert id s.candidateState }

/-- `AddGenesisRoundCand`, the error ignored. -/
def addGenesisRoundCand (address : Address) : Call Registers Err Unit :=
  tryCatch (putCandidate address) fun _ => pure ()

/-- What an announcement says of a candidate. -/
structure Announced where
  id : Address
  address : Address
deriving DecidableEq, Repr

/-- `HandleRegisterCandidate`.  An announcement that cannot be decoded leaves a nil pointer. -/
def handleRegisterCandidate (bcIsEmpty : Bool) (msg : Option Announced) : Call Registers Err Unit := do
  if bcIsEmpty then
    match msg with
    | none => throw (.panic "invalid memory address or nil pointer dereference")
    | some newCand =>
      putCandidate newCand.id
      onWallets (do
        checkAndPutWalletByAddress newCand.address
        let _ ← getWalletByAddress newCand.address
        setCandidate newCand.address true)

/-- `UpdateDpos`, up to the rounds and the committees: the miner of the previous block is that of
    the parent, and the parent has to be stored unless the block is the genesis block. -/
def updateDpos (parent : Option PbBlock) (block : PbBlock) : Call Registers Err Unit := do
  let prevMiner ← if block.isGenesis then pure "" else match parent with
    | some pBlock => pure pBlock.minerPublicKey
    | none => throw (.error "Can't fetch parent")
  if block.roundNum = 1 ∧ block.minerPublicKey ≠ prevMiner then addGenesisRoundCand block.minerPublicKey

end Registers

/-- What writes to the two registers. -/
inductive Enrolment where
  | announcement (bcIsEmpty : Bool) (msg : Option Registers.Announced)
  | updateDpos (parent : Option PbBlock) (block : PbBlock)
  | genesis (block : PbBlock)
  | become (tx : Transaction) (transactionFee bRound : Int64)
  | quit (tx : Transaction) (transactionFee bRound : Int64)
  | revertBecome (tx : Transaction) (transactionFee : Int64)
  | revertQuit (tx : Transaction) (transactionFee : Int64)

open Registers in
/-- What is done. -/
def Enrolment.run (E : Env) : Enrolment → Call Registers Err Unit
  | announcement bcIsEmpty msg => handleRegisterCandidate bcIsEmpty msg
  | updateDpos parent block => Registers.updateDpos parent block
  | genesis block => onWallets (applyGenesis E block)
  | become tx transactionFee bRound => onWallets (applyDelegateRegistrationTx E tx transactionFee bRound)
  | quit tx transactionFee bRound => onWallets (applyQuitDelegateTx E tx transactionFee bRound)
  | revertBecome tx transactionFee => onWallets (revertDelegateRegistrationTx E tx transactionFee)
  | revertQuit tx transactionFee => onWallets (revertQuitDelegateTx E tx transactionFee)

/-! ## What the calls on the wallets do -/

namespace WalletManager

variable {E : Env} {wm wm₁ wm' : WalletManager} {x : Address} {flag : Bool} {tx : Transaction}
  {fee bRound : Int64}

/-- Neither register changes. -/
structure SameCandidates (wm wm' : WalletManager) : Prop where
  stored : ∀ a, a ∈ wm'.executor.candidateState ↔ a ∈ wm.executor.candidateState
  flagged : ∀ a, (wm'.wallet a).isCandidate = (wm.wallet a).isCandidate

/-- Both registers take in an address, or leave it out. -/
structure Enrols (x : Address) (flag : Bool) (wm wm' : WalletManager) : Prop where
  stored : ∀ a, a ∈ wm'.executor.candidateState ↔ if a = x then flag = true else a ∈ wm.executor.candidateState
  flagged : ∀ a, (wm'.wallet a).isCandidate = if a = x then flag else (wm.wallet a).isCandidate

theorem Grow.sameCandidates (h : Grow wm wm') : SameCandidates wm wm' :=
  ⟨fun a => by rw [h.executor], fun a => by rw [h.wallet]⟩

theorem Enrols.of_grow (hg : Grow wm wm₁) (h : Enrols x flag wm₁ wm') : Enrols x flag wm wm' :=
  ⟨fun a => by rw [h.stored, hg.executor], fun a => by rw [h.flagged, hg.wallet]⟩

/-- The flag is set after the candidates have changed, and nothing of it changes later. -/
theorem enrols_of_frame (hstored : ∀ a, a ∈ wm₁.executor.candidateState ↔
      if a = x then flag = true else a ∈ wm.executor.candidateState)
    (hframe : Frame ∅ {x} wm wm₁) (hexec : wm'.executor = wm₁.executor)
    (hlater : Frame ∅ ∅ (wm₁.modifyWallet x fun w => { w with isCandidate := flag }) wm') :
    Enrols x flag wm wm' := by
  refine ⟨fun a => by rw [hexec, hstored], fun a => ?_⟩
  rw [hlater.flag a (Set.notMem_empty a)]
  split_ifs with ha
  · rw [ha, wallet_modifyWallet_self]
  · rw [wallet_modifyWallet_of_ne ha, hframe.flag a ha]

theorem applyCandidateTx_enrols {execute : Address → WM Unit} (hexec : Executes E execute flag)
    (hquiet : ExecutesQuietly execute) (tx : Transaction) (fee bRound : Int64) (wm : WalletManager) :
    Spec (applyCandidateTx E execute flag tx fee bRound) wm
      (fun _ wm' => Enrols tx.senderId flag wm wm') fun _ wm' => SameCandidates wm wm' := by
  simp only [applyCandidateTx, spec_bind, spec_checkAndPut, spec_getWallet]
  refine (isExecutable_admits E bRound tx (wm.put tx.senderId)).mono ?_ ?_
  · rintro _ wm₁ ⟨hg, -⟩
    have hgrow : Grow wm wm₁ := (grow_put wm _).trans hg
    have hs : tx.senderId ∈ wm₁.keys := hg.keys (by simp)
    rw [if_pos hs]
    refine ((hexec _ _ hs).and (hquiet _ _)).mono ?_ ?_
    · rintro _ wm₂ ⟨hcand, hframe⟩
      rw [spec_setCandidate, spec_subBalance, spec_setNonce]
      refine Enrols.of_grow hgrow (enrols_of_frame hcand.after hframe rfl ?_)
      exact (frame_debit _ _ _).trans (frame_nonce _ _ (· + 1))
    · rintro _ _ ⟨⟨rfl, -⟩, -⟩
      exact hgrow.sameCandidates
  · intro _ wm₁ hg
    exact ((grow_put wm _).trans hg).sameCandidates

theorem revertCandidateTx_enrols {execute : Address → WM Unit} (hexec : Executes E execute flag)
    (hquiet : ExecutesQuietly execute) (tx : Transaction) (fee : Int64) (wm : WalletManager) :
    Spec (revertCandidateTx E execute flag tx fee) wm
      (fun _ wm' => Enrols tx.senderId flag wm wm') fun _ wm' => SameCandidates wm wm' := by
  simp only [revertCandidateTx, spec_bind, spec_getWallet]
  refine ite_intro (fun hs => ?_) fun _ => (Grow.refl wm).sameCandidates
  refine ((hexec _ _ hs).and (hquiet _ _)).mono ?_ ?_
  · rintro _ wm₂ ⟨hcand, hframe⟩
    rw [spec_setCandidate, spec_addBalance, spec_setNonce]
    refine enrols_of_frame hcand.after hframe rfl ?_
    exact (frame_credit _ _ _).trans (frame_nonce _ _ (· - 1))
  · rintro _ _ ⟨⟨rfl, -⟩, -⟩
    exact (Grow.refl _).sameCandidates

/-- A registration in the genesis block goes through, whatever is wrong with it. -/
theorem applyDelRegTxForGenesis_enrols (tx : Transaction) (bRound : Int64) (wm : WalletManager) :
    Spec (applyDelRegTxForGenesis E tx bRound) wm (fun _ wm' => Enrols tx.senderId true wm wm')
      fun e _ => ∃ m, e = .panic m := by
  simp only [applyDelRegTxForGenesis]
  rw [spec_bind, spec_checkAndPut, spec_bind]
  refine Spec.mono (Q := fun _ wm₁ => Grow (wm.put tx.senderId) wm₁) (R := fun e _ => ∃ m, e = .panic m)
    ?_ (fun _ wm₁ hg => ?_) fun _ _ h => h
  · rw [spec_tryCatch]
    refine (isExecutable_admits E bRound tx _).mono (fun _ _ h => h.1) fun e wm' h => ?_
    cases e with
    | error m => exact h
    | panic m => exact ⟨m, rfl⟩
  have hs : tx.senderId ∈ wm₁.keys := hg.keys (by simp)
  rw [spec_bind, spec_getWallet, if_pos hs]
  -- a sender that is a candidate already stays one
  have hregister : Spec (tryCatch (executeRegisterCandidate tx.senderId) fun _ => pure ()) wm₁
      (fun _ wm' => (∀ a, a ∈ wm'.executor.candidateState ↔
        if a = tx.senderId then true = true else a ∈ wm₁.executor.candidateState) ∧ Frame ∅ {tx.senderId} wm₁ wm')
      fun _ _ => False := by
    rw [spec_tryCatch]
    refine ((executes_register E _ _ hs).and (quietly_register _ _)).mono (fun _ _ h => ⟨h.1.after, h.2⟩) ?_
    rintro _ _ ⟨⟨rfl, hmem, -⟩, -⟩
    refine ⟨fun a => ?_, .refl _⟩
    split_ifs with ha
    · rw [ha]
      exact hmem
    · exact Iff.rfl
  rw [spec_bind]
  refine hregister.mono (fun _ wm₂ h => ?_) fun _ _ h => h.elim
  rw [spec_bind, spec_setCandidate, spec_setNonce]
  refine Enrols.of_grow ((grow_put wm _).trans hg) (enrols_of_frame h.1 h.2 rfl ?_)
  exact frame_nonce _ _ (· + 1)

theorem applyDelRegTxsForGenesis_enrols (bRound : Int64) : ∀ (txs : List Transaction) (wm : WalletManager),
    Spec (each (fun tx => applyDelRegTxForGenesis E tx bRound) txs) wm
      (fun _ wm' => (∀ a, a ∈ wm'.executor.candidateState ↔
          (∃ tx ∈ txs, tx.senderId = a) ∨ a ∈ wm.executor.candidateState) ∧
        ∀ a, (wm'.wallet a).isCandidate = true ↔
          (∃ tx ∈ txs, tx.senderId = a) ∨ (wm.wallet a).isCandidate = true)
      fun e _ => ∃ m, e = .panic m
  | [], wm => by simp
  | tx :: txs, wm => by
    rw [spec_each_cons]
    refine (applyDelRegTxForGenesis_enrols tx bRound wm).mono (fun _ wm₁ h₁ => ?_) fun _ _ h => h
    refine (applyDelRegTxsForGenesis_enrols bRound txs wm₁).mono (fun _ wm' h => ?_) fun _ _ h => h
    have hcons : ∀ a, (∃ t ∈ tx :: txs, t.senderId = a) ↔ a = tx.senderId ∨ ∃ t ∈ txs, t.senderId = a := by
      intro a
      rw [List.exists_mem_cons_iff, eq_comm]
    refine ⟨fun a => ?_, fun a => ?_⟩
    · rw [h.1, h₁.stored, hcons]
      split_ifs with ha <;> simp [ha]
    · rw [h.2, h₁.flagged, hcons]
      split_ifs with ha <;> simp [ha]

/-- The senders that register in a block. -/
def Registering (block : PbBlock) (a : Address) : Prop :=
  ∃ tx ∈ block.transactions, tx.type = .becomeCandidate ∧ tx.senderId = a

/-- **The genesis block flags its miner, and registers and flags the senders.** -/
theorem applyGenesis_enrols (block : PbBlock) (wm : WalletManager) : Spec (applyGenesis E block) wm
    (fun _ wm' => (∀ a, a ∈ wm'.executor.candidateState ↔
        Registering block a ∨ a ∈ wm.executor.candidateState) ∧
      ∀ a, (wm'.wallet a).isCandidate = true ↔
        Registering block a ∨ a = block.minerPublicKey ∨ (wm.wallet a).isCandidate = true)
    fun e _ => ∃ m, e = .panic m := by
  have hsenders : ∀ a, (∃ tx ∈ block.transactions.filter fun tx => tx.type = .becomeCandidate, tx.senderId = a) ↔
      Registering block a := by
    intro a
    simp [Registering, and_assoc]
  simp only [applyGenesis]
  rw [spec_bind, spec_checkAndPut, spec_bind, spec_setCandidate, spec_bind]
  refine (applyDelRegTxsForGenesis_enrols block.roundNum _ _).mono (fun _ wm₁ h => ?_) fun _ _ h => h
  simp only [hsenders] at h
  simp only [giveBlockReward, spec_bind, spec_modify, spec_addBalance]
  have hreward : Frame ∅ ∅ wm₁ ((wm₁.modifyWallet block.minerPublicKey fun w =>
      { w with blockReward := w.blockReward + blockReward E block }).credit block.minerPublicKey E
        (blockReward E block)) :=
    (frame_modifyWallet (fun _ => ⟨rfl, rfl⟩) fun _ => rfl).trans (frame_credit _ _ _)
  refine ⟨h.1, fun a => ?_⟩
  rw [hreward.flag a (Set.notMem_empty a), h.2, wallet_modifyWallet, wallet_put]
  by_cases ha : a = block.minerPublicKey <;> simp [ha]

end WalletManager

/-! ## Runs -/

/-- An address is a candidate exactly if its wallet is flagged. -/
def Registers.Consistent (s : Registers) : Prop :=
  ∀ a, a ∈ s.candidateState ↔ (s.wm.wallet a).isCandidate = true

/-- A node before the first block. -/
def Registers.init (userAddress : Address) : Registers := ⟨∅, newWalletManager userAddress⟩

/-- One step; an error leaves the registers as they are then, and a panic ends the run. -/
def Enrolment.Happens (E : Env) (e : Enrolment) (s s' : Registers) : Prop :=
  ∃ r, e.run E s = (r, s') ∧ ∀ m, r ≠ .error (.panic m)

/-- The condition on a step: an announced candidate has its address as id, unless it is refused;
    `UpdateDpos` registers a candidate that is registered already; and the miner of the genesis
    block is a candidate, or becomes one. -/
def Enrolment.Harmless (s : Registers) : Enrolment → Prop
  | announcement bcIsEmpty msg => bcIsEmpty → ∀ c, msg = some c → c.id ∉ s.candidateState → c.id = c.address
  | updateDpos parent block =>
    (block.isGenesis ∨ parent.isSome) → block.roundNum = 1 →
      block.minerPublicKey ≠ (if block.isGenesis then "" else (parent.map PbBlock.minerPublicKey).getD "") →
        block.minerPublicKey ∈ s.candidateState
  | genesis block => Registering block block.minerPublicKey ∨ block.minerPublicKey ∈ s.candidateState
  | _ => True

/-- Runs whose steps all satisfy `P`. -/
abbrev Enrolment.RunWith (E : Env) (P : Enrolment → Registers → Registers → Prop) :
    List Enrolment → Registers → Registers → Prop :=
  Steps fun e s s' => e.Happens E s s' ∧ P e s s'

namespace Registers

variable {E : Env} {s s' : Registers} {c : WM Unit} {x : Address} {flag : Bool}

theorem mem_ids {s : State} {a : Address} : a ∈ ids s ↔ a ∈ s.candidateState := by
  rw [ids, List.mem_toFinset, AList.mem_keys]

theorem keys_ofIds (candidateState : Finset Address) :
    (ofIds candidateState).candidateState.keys = MapOrder.sorted.list candidateState := by
  refine Eq.trans (List.map_map ..) ?_
  exact List.map_id _

theorem mem_ofIds {candidateState : Finset Address} {a : Address} :
    a ∈ (ofIds candidateState).candidateState ↔ a ∈ candidateState := by
  rw [← MapOrder.sorted.mem, ← keys_ofIds]
  exact AList.mem_keys.symm

theorem spec_putCandidate {id : Address} {Q : Unit → Registers → Prop} {R : Err → Registers → Prop} :
    Spec (putCandidate id) s Q R ↔ if id ∈ s.candidateState then R (.error "Candidate with id already exists") s
      else Q () { s with candidateState := insert id s.candidateState } := by
  simp only [putCandidate, spec_bind, spec_get]
  by_cases hid : id ∈ s.candidateState
  · rw [if_pos hid, if_pos hid]
    rfl
  · rw [if_neg hid, if_neg hid]
    rfl

/-- What a call does to the wallets and their executor, it does to the registers. -/
theorem spec_onWallets {Q : Unit → Registers → Prop} {R : Err → Registers → Prop} :
    Spec (onWallets c) s Q R ↔ Spec c s.wallets (fun x wm' => Q x ⟨ids wm'.executor, wm'⟩)
      fun e wm' => R e ⟨ids wm'.executor, wm'⟩ := by
  unfold Spec onWallets
  rcases c s.wallets with ⟨e | x, wm'⟩ <;> exact Iff.rfl

theorem consistent_of_same {wm' : WalletManager} (hs : s.Consistent) (h : SameCandidates s.wallets wm') :
    (⟨ids wm'.executor, wm'⟩ : Registers).Consistent := by
  intro a
  change a ∈ ids wm'.executor ↔ (wm'.wallet a).isCandidate = true
  rw [mem_ids, h.stored, h.flagged]
  exact mem_ofIds.trans (hs a)

theorem consistent_of_enrols {wm' : WalletManager} (hs : s.Consistent) (h : Enrols x flag s.wallets wm') :
    (⟨ids wm'.executor, wm'⟩ : Registers).Consistent := by
  intro a
  change a ∈ ids wm'.executor ↔ (wm'.wallet a).isCandidate = true
  rw [mem_ids, h.stored, h.flagged]
  split_ifs
  · rfl
  · exact mem_ofIds.trans (hs a)

/-- A candidate transaction changes both registers, or none. -/
theorem onWallets_consistent (hs : s.Consistent)
    (h : Spec c s.wallets (fun _ wm' => Enrols x flag s.wallets wm') fun _ wm' => SameCandidates s.wallets wm') :
    Spec (onWallets c) s (fun _ s' => s'.Consistent) fun _ s' => s'.Consistent := by
  rw [spec_onWallets]
  exact h.mono (fun _ _ h' => consistent_of_enrols hs h') fun _ _ h' => consistent_of_same hs h'

/-- One more candidate keeps the registers consistent exactly if it is a candidate already. -/
theorem consistent_insert (hs : s.Consistent) :
    ({ s with candidateState := insert x s.candidateState } : Registers).Consistent ↔ x ∈ s.candidateState := by
  constructor
  · intro h
    exact (hs x).2 ((h x).1 (Finset.mem_insert_self ..))
  · intro h
    rw [Finset.insert_eq_of_mem h]
    exact hs

/-- A new candidate and a flagged wallet keep them consistent exactly if they are the same. -/
theorem consistent_announced {id address : Address} {s' : Registers} (hs : s.Consistent)
    (hid : id ∉ s.candidateState) (hstored : ∀ a, a ∈ s'.candidateState ↔ a = id ∨ a ∈ s.candidateState)
    (hflagged : ∀ a, (s'.wm.wallet a).isCandidate = true ↔ a = address ∨ (s.wm.wallet a).isCandidate = true) :
    s'.Consistent ↔ id = address := by
  constructor
  · intro h
    refine ((hflagged id).1 ((h id).1 ((hstored id).2 (.inl rfl)))).resolve_right fun hflag => ?_
    exact hid ((hs id).2 hflag)
  · rintro rfl a
    rw [hstored, hflagged, hs]

/-- The flag of the miner agrees exactly if the miner is registered. -/
theorem consistent_genesis {F : Address → Prop} {miner : Address} {s' : Registers} (hs : s.Consistent)
    (hstored : ∀ a, a ∈ s'.candidateState ↔ F a ∨ a ∈ s.candidateState)
    (hflagged : ∀ a, (s'.wm.wallet a).isCandidate = true ↔
      F a ∨ a = miner ∨ (s.wm.wallet a).isCandidate = true) :
    s'.Consistent ↔ F miner ∨ miner ∈ s.candidateState := by
  constructor
  · intro h
    exact (hstored miner).1 ((h miner).2 ((hflagged miner).2 (.inr (.inl rfl))))
  · intro h a
    rw [hstored, hflagged, ← hs]
    refine ⟨fun ha => ha.imp_right .inr, ?_⟩
    rintro (ha | rfl | ha)
    exacts [.inl ha, h, .inr ha]

variable (E s) in
/-- The step keeps consistent registers consistent exactly if it is harmless. -/
def Judged (e : Enrolment) : Prop :=
  Spec (e.run E) s (fun _ s' => s'.Consistent ↔ e.Harmless s)
    fun err s' => (∀ m, err ≠ .panic m) → (s'.Consistent ↔ e.Harmless s)

theorem judged_of_consistent {e : Enrolment} (h : e.Harmless s)
    (hspec : Spec (e.run E) s (fun _ s' => s'.Consistent) fun _ s' => s'.Consistent) : Judged E s e :=
  hspec.mono (fun _ _ hs' => iff_of_true hs' h) fun _ _ hs' _ => iff_of_true hs' h

/-- What an announcement does to the wallets. -/
def Flags (address : Address) (wm wm' : WalletManager) : Prop :=
  wm'.executor = wm.executor ∧
    ∀ a, (wm'.wallet a).isCandidate = true ↔ a = address ∨ (wm.wallet a).isCandidate = true

theorem announce_flags (address : Address) (wm : WalletManager) :
    Spec (do
        checkAndPutWalletByAddress address
        let _ ← getWalletByAddress address
        setCandidate address true) wm
      (fun _ wm' => Flags address wm wm') fun _ _ => False := by
  rw [spec_bind, spec_checkAndPut, spec_bind, spec_getWallet, if_pos (by simp), spec_setCandidate]
  refine ⟨rfl, fun a => ?_⟩
  rw [wallet_modifyWallet, wallet_put]
  by_cases ha : a = address <;> simp [ha]

theorem judged_announcement (hs : s.Consistent) (bcIsEmpty : Bool) (msg : Option Announced) :
    Judged E s (.announcement bcIsEmpty msg) := by
  cases bcIsEmpty with
  | false => exact iff_of_true hs nofun
  | true =>
    cases msg with
    | none => exact fun h => absurd rfl (h _)
    | some newCand =>
      have hharmless : (Enrolment.announcement true (some newCand)).Harmless s ↔
          (newCand.id ∉ s.candidateState → newCand.id = newCand.address) := by
        simp [Enrolment.Harmless]
      unfold Judged
      simp only [hharmless, Enrolment.run, handleRegisterCandidate, if_true, spec_bind, spec_putCandidate]
      refine ite_intro (fun hid _ => iff_of_true hs fun h => absurd hid h) fun hid => ?_
      rw [imp_iff_right hid]
      rw [spec_onWallets]
      refine (announce_flags newCand.address _).mono ?_ fun _ _ h => h.elim
      rintro _ wm' ⟨hexec, hflagged⟩
      refine consistent_announced hs hid (fun a => ?_) hflagged
      rw [mem_ids, hexec]
      exact mem_ofIds.trans Finset.mem_insert

theorem judged_updateDpos (hs : s.Consistent) (parent : Option PbBlock) (block : PbBlock) :
    Judged E s (.updateDpos parent block) := by
  have hadd (miner : Address) : Spec (addGenesisRoundCand miner) s
      (fun _ s' => s' = { s with candidateState := insert miner s.candidateState }) fun _ _ => False := by
    rw [addGenesisRoundCand, spec_tryCatch, spec_putCandidate]
    refine ite_intro (fun h => ?_) fun _ => rfl
    rw [spec_pure, Finset.insert_eq_of_mem h]
  have hdone (prevMiner : Address) (P : Prop) (hP : P ↔ (block.roundNum = 1 → block.minerPublicKey ≠ prevMiner →
      block.minerPublicKey ∈ s.candidateState)) :
      Spec (if block.roundNum = 1 ∧ block.minerPublicKey ≠ prevMiner then
        addGenesisRoundCand block.minerPublicKey else pure ()) s (fun _ s' => s'.Consistent ↔ P)
        fun err s' => (∀ m, err ≠ .panic m) → (s'.Consistent ↔ P) := by
    rw [spec_ite, hP]
    refine ite_intro (fun h => ?_) fun h => iff_of_true hs fun h₁ h₂ => absurd ⟨h₁, h₂⟩ h
    refine (hadd block.minerPublicKey).mono (fun _ s' hs' => ?_) fun _ _ h => h.elim
    rw [hs', consistent_insert hs]
    exact ⟨fun hmem _ _ => hmem, fun hmem => hmem h.1 h.2⟩
  unfold Judged
  simp only [Enrolment.run, Registers.updateDpos]
  by_cases hgen : block.isGenesis
  · rw [if_pos hgen, spec_bind, spec_pure]
    refine hdone "" _ ?_
    simp [Enrolment.Harmless, hgen]
  · rw [if_neg hgen]
    cases parent with
    | none => exact fun _ => iff_of_true hs fun h => by simp [hgen] at h
    | some pBlock =>
      refine hdone pBlock.minerPublicKey _ ?_
      simp [Enrolment.Harmless, hgen]

theorem judged_genesis (hs : s.Consistent) (block : PbBlock) : Judged E s (.genesis block) := by
  unfold Judged
  simp only [Enrolment.run]
  rw [spec_onWallets]
  refine (applyGenesis_enrols block s.wallets).mono ?_ ?_
  · rintro _ wm' ⟨hstored, hflagged⟩
    refine consistent_genesis hs (fun a => ?_) hflagged
    rw [mem_ids, hstored]
    exact or_congr_right mem_ofIds
  · rintro _ wm' ⟨m, rfl⟩ h
    exact absurd rfl (h m)

theorem judged (hs : s.Consistent) (e : Enrolment) : Judged E s e := by
  cases e with
  | announcement bcIsEmpty msg => exact judged_announcement hs bcIsEmpty msg
  | updateDpos parent block => exact judged_updateDpos hs parent block
  | genesis block => exact judged_genesis hs block
  | become tx transactionFee bRound =>
    exact judged_of_consistent trivial (onWallets_consistent hs
      (applyCandidateTx_enrols (executes_register E) quietly_register tx transactionFee bRound _))
  | quit tx transactionFee bRound =>
    exact judged_of_consistent trivial (onWallets_consistent hs
      (applyCandidateTx_enrols (executes_quit E) quietly_quit tx transactionFee bRound _))
  | revertBecome tx transactionFee =>
    exact judged_of_consistent trivial (onWallets_consistent hs
      (revertCandidateTx_enrols (executes_quit E) quietly_quit tx transactionFee _))
  | revertQuit tx transactionFee =>
    exact judged_of_consistent trivial (onWallets_consistent hs
      (revertCandidateTx_enrols (executes_register E) quietly_register tx transactionFee _))

theorem happens_consistent {e : Enrolment} (hs : s.Consistent) (h : e.Happens E s s') :
    s'.Consistent ↔ e.Harmless s := by
  obtain ⟨r, hrun, hr⟩ := h
  have hj := judged (E := E) hs e
  cases r with
  | ok x => exact hj.ok hrun
  | error err => exact hj.error hrun fun m hm => hr m (congrArg _ hm)

theorem consistent_init (userAddress : Address) : (init userAddress).Consistent := by
  intro a
  exact iff_of_false (Finset.notMem_empty a) Bool.false_ne_true

/-- **Every state of a run is consistent exactly if every step is harmless.** -/
theorem consistent_iff (E : Env) (es : List Enrolment) (userAddress : Address) (s' : Registers) :
    Enrolment.RunWith E (fun _ _ s' => s'.Consistent) es (init userAddress) s' ↔
      Enrolment.RunWith E (fun e s _ => e.Harmless s) es (init userAddress) s' := by
  constructor
  · intro h
    refine h.strengthen (I := Consistent) (consistent_init userAddress) fun e _ s s' hs hstep => ?_
    exact ⟨hstep.2, hstep.1, (happens_consistent hs hstep.1).1 hstep.2⟩
  · intro h
    refine h.strengthen (I := Consistent) (consistent_init userAddress) fun e _ s s' hs hstep => ?_
    have hs' := (happens_consistent hs hstep.1).2 hstep.2
    exact ⟨hs', hstep.1, hs'⟩

/-- The genesis block of `"m"`. -/
def genesisBlock : PbBlock := { PbBlock.simple [] [] [] with height := 0, roundNum := 1 }

/-- The next block, of `"n"`, that never registered. -/
def secondBlock : PbBlock := { PbBlock.simple [] [] [] with minerPublicKey := "n", roundNum := 1 }

/-- Both blocks arrive. -/
def arrivals : List Enrolment :=
  [.updateDpos none genesisBlock, .genesis genesisBlock, .updateDpos (some genesisBlock) secondBlock]

/-- The registers after some of them. -/
def after (es : List Enrolment) : Registers := es.foldl (fun s e => (e.run Env.simple s).2) (init "u")

/-- **A run that leaves a candidate whose wallet is not flagged.** -/
theorem not_consistent : ¬ ∀ (E : Env) (es : List Enrolment) (userAddress : Address) (s' : Registers),
    Enrolment.RunWith E (fun _ _ _ => True) es (init userAddress) s' → s'.Consistent := by
  intro h
  have happens (e : Enrolment) (s : Registers) (hok : (e.run Env.simple s).1 = .ok ()) :
      e.Happens Env.simple s (e.run Env.simple s).2 :=
    ⟨.ok (), ok_of_fst hok, nofun⟩
  have hrun : Enrolment.RunWith Env.simple (fun _ _ _ => True) arrivals (init "u") (after arrivals) :=
    .cons ⟨happens _ _ (by decide +kernel), trivial⟩ (.cons ⟨happens _ _ (by decide +kernel), trivial⟩
      (.cons ⟨happens _ _ (by decide +kernel), trivial⟩ (.nil _)))
  have hn : "n" ∈ (after arrivals).candidateState := by decide +kernel
  have hflag : ((after arrivals).wm.wallet "n").isCandidate = false := by decide +kernel
  exact absurd ((h _ _ _ _ hrun "n").1 hn) (by simp [hflag])

end Registers
end Timbre
