/-
  The three paths on which a block comes into the chain: a block and a digest block that the
  node generates, and a block that its syncer receives.

  Each path changes the wallets, the deals and the chain one after the other, and most errors
  on the way are logged only.  **Chain and wallets stay in lockstep exactly if no step fails
  after the first change** (`lockstep_iff`).
-/
import Timbre.Roles.StateStore
import Timbre.Roles.SwitchFork

namespace Timbre

open Call Blockchain Syncer

/-! ## The source -/

/-- What the paths ask a block for. -/
structure Sealing where
  isValid : Block → Bool
  toBytes : Block → Except Err Unit
  hasValidSigWithParentID : Block → Except Err Bool

/-- `Validate`: the error and its number, if the block may not be appended. -/
def Blockchain.validate (V : Sealing) (bc : Blockchain) (block : Block) : Option (Err × ℕ) :=
  if V.isValid block = false then some (.error "error - is invalid", 2)
  else if block.isGenesis ∧ bc.isEmpty then none
  else if block.isGenesis ∧ block.parentHash ≠ none then
    match bc.getBlockByHash block.parentHash with
    | .error e => some (e, 0)
    | .ok parentBlock =>
      match V.hasValidSigWithParentID parentBlock with
      | .error e => some (e, 0)
      | .ok false => some (.error "Wrong genesis block", 0)
      | .ok true => none
  else if (bc.getBlockByHash (some block.hash)).isOk then some (.error "error - already exists", 3)
  else
    match bc.getBlockByHash block.parentHash with
    | .error e => if bc.canBootstrapFromEpoch block then none else some (e, 0)
    | .ok parentBlock =>
      if ¬ parentBlock.isValidParentOf block then
        some (.error "error - failed to get valid parent block of incoming head", 1)
      else none

/-- What has become of a block: whether `Append` has returned nil, and whether the call that
    applies it to the wallets has. -/
structure Outcome where
  appended : Bool
  applied : Bool
deriving DecidableEq, Repr

/-- The path has given the block up before it changed the wallets. -/
def Outcome.none : Outcome := ⟨false, false⟩

/-- Whether a call returns nil. -/
def returnsNil {τ : Type} (c : Call τ Err Unit) : Call τ Err Bool :=
  tryCatch (do c; return true) fun
    | .error _ => return false
    | e => throw e

namespace NodeState

variable {σ : Type}

/-- `Append`; whether it returns nil. -/
def append (b : Block) : Call (NodeState σ) Err Bool := fun n =>
  match n.bc.append b with
  | (Option.none, bc) => (.ok true, { n with bc := bc })
  | (some (.error _), bc) => (.ok false, { n with bc := bc })
  | (some (.panic e), bc) => (.error (.panic e), { n with bc := bc })

/-- `UpdateMainTailIndex`; an error is only logged. -/
def updateMainTailIndex : Call (NodeState σ) Err Switch := fun n =>
  match n.bc.updateMainTailIndex with
  | (.ok sw, bc) => (.ok sw, { n with bc := bc })
  | (.error (.error _), bc) => (.ok noSwitch, { n with bc := bc })
  | (.error (.panic e), bc) => (.error (.panic e), { n with bc := bc })

section
variable (C : Components σ) (B : Bodies) (V : Sealing)

/-- What `GenerateBlock` does to the deals and the irreversible blocks, whether or not the
    wallets have accepted the block. -/
def bookkeep (deals : List DealEntry) (b : Block) (n : NodeState σ) : NodeState σ :=
  let n := n.addDeals deals true
  let n := n.removeExpiredDeals (B.timestamp b) (B.chPrPair b)
  let size := C.getComitteeSize n.state
  { n with bc := n.bc.updateIrreversibleBlockNumber b.minerPublicKey size C.numberOfToMineBlockPerSlot }

/-- `GenerateBlock`, from the block that has been put together. -/
def generateBlock (deals : List DealEntry) (b : Block) : Call (NodeState σ) Err Outcome := do
  if V.isValid b = false then return .none
  let applied ← returnsNil (onState (C.checkAndUpdateWalletStates b))
  modify (bookkeep C B deals b)
  if applied = false then return .none
  match V.toBytes b with
  | .error _ => return ⟨false, true⟩
  | .ok _ => do
    let appended ← append b
    let _ ← updateMainTailIndex
    return ⟨appended, true⟩

/-- How a digest block is put together: the clean-up of the wallets, and the block with their
    entries. -/
structure DigestCalls (σ : Type) where
  createEmptyBlock : NodeState σ → Except Err Unit
  cleanAndAddBlockState : Call σ Err Unit
  hashAndSign : NodeState σ → Except Err Block

variable (D : DigestCalls σ)

/-- The digest block that is ready to be appended, if there is one. -/
def sealDigestBlock (n : NodeState σ) : Option Block :=
  match D.hashAndSign n with
  | .error _ => Option.none
  | .ok b => if V.isValid b = false then Option.none else if (V.toBytes b).isOk then some b else Option.none

/-- `GenerateDigestBlock`. -/
def generateDigestBlock : Call (NodeState σ) Err Outcome := do
  let n ← get
  if n.bc.isEmpty then return .none
  match D.createEmptyBlock n with
  | .error _ => return .none
  | .ok _ => do
    onState D.cleanAndAddBlockState
    match sealDigestBlock V D (← get) with
    | Option.none => return .none
    | some b => do
      let appended ← append b
      let _ ← updateMainTailIndex
      let applied ← returnsNil (onState (C.checkAndUpdateWalletStates b))
      return ⟨appended, applied⟩

end

end NodeState

/-! ### The syncer -/

/-- What the syncer knows: whether it is syncing, and the pool of invalid blocks. -/
structure SyncerView where
  isSyncing : Bool
  invalidBlockpool : Option Hash → Bool

/-- What the validation of a block ends with: whether the block may be appended, on which path,
    and the component of a side fork before and after. -/
structure Admission (γ : Type) where
  admitted : Bool
  inMainTail : Bool
  before : Option γ
  after : Option γ

namespace StoreNode

variable {σ γ ρ : Type} (S : StateCalls σ γ ρ) (B : Bodies) (V : Sealing) (getEpochNum : Block → Int32)
  (view : SyncerView)

/-- A call on the node that leaves its store as it is. -/
def onNode {α : Type} (c : Call (NodeState σ) Err α) : Call (StoreNode σ γ ρ) Err α := fun n =>
  ((c n.toNodeState).1, { n with toNodeState := (c n.toNodeState).2 })

/-- The reversal of the DPOS when a block has been refused while the node downloads old ones. -/
def revertDpos (bc : Blockchain) : Call σ Err Unit := do
  if view.isSyncing = true ∧ S.hasStarted (← get) = false then
    match bc.getMainTail with
    | none => throw (.panic "invalid memory address or nil pointer dereference")
    | some tail => S.revertDposTill tail

/-- The validation of a block at the main tail. -/
def validateMain (bc : Blockchain) (b : Block) : Call σ Err Bool := do
  let admitted ← returnsNil (validateForMainTail (S.toComponents.services bc) getEpochNum view.isSyncing bc b)
  if admitted = false then revertDpos S view bc
  return admitted

/-- The validation of a block of a side fork; its deals go to the database. -/
def validateSide (b : Block) : Call (StoreNode σ γ ρ) Err (Admission γ) := do
  let bc := (← get).bc
  match bc.getBlockByHash b.parentHash with
  | .error _ => return ⟨false, false, none, none⟩
  | .ok parent => do
    match ← tryCatch (do return some (← getStateForBlockValidation S parent)) fun
      | .error _ => return none
      | e => throw e with
    | none => return ⟨false, false, none, none⟩
    | some i => do
      let before := ((← get).store.cachedComp[i]?).map StateComponents.state
      let admitted ← returnsNil (onComponent S i (validateForNonMainTail (S.cached.services bc) getEpochNum bc b))
      let after := ((← get).store.cachedComp[i]?).map StateComponents.state
      if admitted = true then
        modify (updateStateComp i b.hash b.height)
        modify fun n => { n with toNodeState := n.toNodeState.addDeals (B.deals b) false }
      return ⟨admitted, false, before, after⟩

/-- `IterateCheckAndAddChain` up to `Append`. -/
def validateBlock (b : Block) : Call (StoreNode σ γ ρ) Err (Admission γ) := do
  let bc := (← get).bc
  if (bc.validate V b).isSome then return ⟨false, false, none, none⟩
  if view.invalidBlockpool b.parentHash = true then return ⟨false, false, none, none⟩
  if b.isGenesis ∨ bc.canBootstrapFromEpoch b then
    return ⟨← onNode (NodeState.onState (validateMain S getEpochNum view bc b)), true, none, none⟩
  match bc.getMainTail with
  | none => throw (.panic "invalid memory address or nil pointer dereference")
  | some tail =>
    if b.parentHash = some tail.hash then
      return ⟨← onNode (NodeState.onState (validateMain S getEpochNum view bc b)), true, none, none⟩
    else validateSide S B getEpochNum b

/-- `IterateCheckAndAddChain` from `Append` on.  A block of the main tail has been applied when
    it is validated, unless the main tail moves to another branch. -/
def join (checkDposRounds : Block → Call σ Err Unit) (b : Block) (inMainTail : Bool) :
    Call (StoreNode σ γ ρ) Err Outcome := do
  let appended ← onNode (NodeState.append b)
  if appended = false then
    onNode (NodeState.onState (revertDpos S view (← get).bc))
    return ⟨false, true⟩
  let sw ← onNode NodeState.updateMainTailIndex
  if inMainTail = true ∧ sw.blocksToProcess = [] then onNode (NodeState.onState (checkDposRounds b))
  if sw.blocksToProcess ≠ [] then
    return ⟨true, ← returnsNil (onNode (switch S.toComponents B getEpochNum sw))⟩
  if (← get).bc.isInMainFork b then
    modify fun n => { n with toNodeState := NodeState.updateStates S.toComponents B b n.toNodeState }
  return ⟨true, true⟩

/-- The body of the loop of `IterateCheckAndAddChain`. -/
def checkAndAdd (checkDposRounds : Block → Call σ Err Unit) (b : Block) :
    Call (StoreNode σ γ ρ) Err (Outcome × Admission γ) := do
  let a ← validateBlock S B V getEpochNum view b
  if a.admitted = false then return (.none, a)
  return (← join S B getEpochNum view checkDposRounds b a.inMainTail, a)

end StoreNode

/-! ## Lockstep -/

/-- A block is appended exactly if it is applied; if it is not appended, then the chain with its
    irreversible blocks, the active deals and the wallets are as they were. -/
structure Lockstep {σ W : Type} (o : Outcome) (n n' : NodeState σ) (before after : W) : Prop where
  appended_iff : o.appended = true ↔ o.applied = true
  chain : o.appended = false → n'.bc = n.bc
  activedeals : o.appended = false → n'.activedeals = n.activedeals
  wallets : o.appended = false → after = before

namespace NodeState

variable {σ W : Type}

section
variable (C : Components σ) (B : Bodies) (V : Sealing) (D : DigestCalls σ) (wallets : σ → W)

/-- The block is found invalid at once; or the wallets, the serialisation and `Append` take it;
    or the wallets refuse it, and neither they nor the bookkeeping have changed anything. -/
def BlockSound (deals : List DealEntry) (b : Block) (n : NodeState σ) : Prop :=
  V.isValid b = false ∨
  (Returns (C.checkAndUpdateWalletStates b) n.state ∧ (V.toBytes b).isOk ∧ (n.bc.append b).1 = none) ∨
  ∃ e s, C.checkAndUpdateWalletStates b n.state = (.error (.error e), s) ∧ wallets s = wallets n.state ∧
    (bookkeep C B deals b { n with state := s }).bc = n.bc ∧
    (bookkeep C B deals b { n with state := s }).activedeals = n.activedeals

/-- There is no chain or no empty block; or no block is ready and the clean-up has changed
    nothing; or `Append` and the wallets take the block; or neither takes it, and nothing of
    all this has changed anything. -/
def DigestSound (n : NodeState σ) : Prop :=
  n.bc.isEmpty = true ∨ (D.createEmptyBlock n).isOk = false ∨
  ∃ s, D.cleanAndAddBlockState n.state = (.ok (), s) ∧
    ((sealDigestBlock V D { n with state := s } = none ∧ wallets s = wallets n.state) ∨
    ∃ b, sealDigestBlock V D { n with state := s } = some b ∧
      (((n.bc.append b).1 = none ∧ Returns (C.checkAndUpdateWalletStates b) s) ∨
      ((n.bc.append b).1 ≠ none ∧ (n.bc.append b).2.updateMainTailIndex.2 = n.bc ∧
        ∃ e s', C.checkAndUpdateWalletStates b s = (.error (.error e), s') ∧ wallets s' = wallets n.state)))

end

end NodeState

namespace StoreNode

variable {σ γ ρ W : Type} (S : StateCalls σ γ ρ) (B : Bodies) (V : Sealing) (wallets : γ → W)
  (getEpochNum : Block → Int32) (view : SyncerView)

/-- `Append` takes the block, and a switch that it brings about goes well. -/
def Joins (b : Block) (n : StoreNode σ γ ρ) : Prop :=
  (n.bc.append b).1 = none ∧ ∀ sw m,
    NodeState.updateMainTailIndex { n.toNodeState with bc := (n.bc.append b).2 } = (.ok sw, m) →
    sw.blocksToProcess ≠ [] → Returns (switch S.toComponents B getEpochNum sw) m

/-- A validation that refuses the block leaves the wallets as they are, those of the node and
    those of the side fork; and a block that is admitted joins the chain. -/
def AddSound (b : Block) (n : StoreNode σ γ ρ) : Prop :=
  ∀ a n₁, validateBlock S B V getEpochNum view b n = (.ok a, n₁) →
    (a.admitted = false → wallets (S.comp n₁.state) = wallets (S.comp n.state) ∧
      a.after.map wallets = a.before.map wallets) ∧
    (a.admitted = true → Joins S B getEpochNum b n₁)

end StoreNode

/-! ## The steps -/

section
variable {τ : Type} {c : Call τ Err Unit} {t t' : τ}

theorem returnsNil_eq {r : Bool} (h : returnsNil c t = (.ok r, t')) :
    (r = true ∧ c t = (.ok (), t')) ∨ (r = false ∧ ∃ e, c t = (.error (.error e), t')) := by
  unfold returnsNil at h
  rcases hc : c t with ⟨e | _, t₁⟩
  · rw [tryCatch_of_error (bind_of_error hc)] at h
    cases e with
    | error e =>
      cases h
      exact .inr ⟨rfl, e, rfl⟩
    | panic e => cases h
  · have hok : (do c; return true : Call τ Err Bool) t = (.ok true, t₁) := bind_of_ok hc
    rw [tryCatch_of_ok hok] at h
    cases h
    exact .inl ⟨rfl, rfl⟩

end

namespace NodeState

variable {σ : Type} {n n' : NodeState σ} {b : Block}

theorem append_ok {r : Bool} (h : append b n = (.ok r, n')) :
    (r = true ↔ (n.bc.append b).1 = none) ∧ n' = { n with bc := (n.bc.append b).2 } := by
  unfold append at h
  rcases happ : n.bc.append b with ⟨_ | e, bc⟩
  · rw [happ] at h
    cases h
    simp
  · rw [happ] at h
    cases e with
    | error e =>
      cases h
      simp
    | panic e => cases h

theorem updateMainTailIndex_ok {sw : Switch} (h : updateMainTailIndex n = (.ok sw, n')) :
    n' = { n with bc := n.bc.updateMainTailIndex.2 } := by
  unfold updateMainTailIndex at h
  rcases hup : n.bc.updateMainTailIndex with ⟨e | sw', bc⟩
  · rw [hup] at h
    cases e with
    | error e =>
      cases h
      rfl
    | panic e => cases h
  · rw [hup] at h
    cases h
    rfl

theorem onState_eq {α : Type} {c : Call σ Err α} {r : Except Err α} (h : onState c n = (r, n')) :
    c n.state = (r, n'.state) ∧ n' = { n with state := n'.state } := by
  obtain ⟨h₁, h₂⟩ := Prod.mk.inj h
  rw [← h₂]
  exact ⟨Prod.ext h₁ rfl, rfl⟩

end NodeState

/-- The error of `Append`, without the chain it leaves. -/
theorem Blockchain.append_fst (bc : Blockchain) (b : Block) : (bc.append b).1 =
    let put := if (bc.db b.hash).isSome then some (Err.error "put error - key already exists") else none
    if b.isGenesis ∧ (b.parentHash = none ∨ bc.isEmpty) then put
    else match bc.getBlockByHash b.parentHash, bc.canBootstrapFromEpoch b with
      | .error e, false => some e
      | _, _ => put := by
  unfold append putBlock
  dsimp only
  by_cases hgenesis : b.isGenesis ∧ (b.parentHash = none ∨ bc.isEmpty)
  · rw [if_pos hgenesis, if_pos hgenesis]
    by_cases hdb : (bc.db b.hash).isSome
    · rw [if_pos hdb, if_pos hdb]
    · rw [if_neg hdb, if_neg hdb]
  · rw [if_neg hgenesis, if_neg hgenesis]
    by_cases hdb : (bc.db b.hash).isSome
    · rw [if_pos hdb, if_pos hdb]
      cases bc.getBlockByHash b.parentHash <;> cases bc.canBootstrapFromEpoch b <;> rfl
    · rw [if_neg hdb, if_neg hdb]
      cases bc.getBlockByHash b.parentHash <;> cases bc.canBootstrapFromEpoch b <;> dsimp only <;> split_ifs <;> rfl

/-- Whether `Append` takes a block does not depend on the irreversible blocks. -/
theorem Blockchain.SameBlocks.append_fst {bc bc' : Blockchain} (h : bc.SameBlocks bc') (b : Block) :
    (bc'.append b).1 = (bc.append b).1 := by
  rw [Blockchain.append_fst, Blockchain.append_fst, h]
  rfl

namespace NodeState

variable {σ W : Type} {n n' : NodeState σ} {C : Components σ} {B : Bodies} {V : Sealing} {D : DigestCalls σ}
  {wallets : σ → W} {o : Outcome}

theorem sameBlocks_bookkeep (deals : List DealEntry) (b : Block) (n : NodeState σ) :
    n.bc.SameBlocks (bookkeep C B deals b n).bc := sameBlocks_addDeals deals _ _ _ n

theorem state_addDeals (deals : List DealEntry) (addToCache : Bool) (n : NodeState σ) :
    (n.addDeals deals addToCache).state = n.state := by
  obtain ⟨bucket, active, -, h⟩ := addDeals_eq deals addToCache n
  rw [h]

theorem state_bookkeep (deals : List DealEntry) (b : Block) (n : NodeState σ) :
    (bookkeep C B deals b n).state = n.state := state_addDeals deals true n

/-! ## Generated blocks -/

/-- **A generated block** keeps chain and wallets in lockstep exactly if nothing fails after
    the check of its validity, or only the wallets fail and nothing has changed. -/
theorem generateBlock_lockstep {deals : List DealEntry} {b : Block} (h : generateBlock C B V deals b n = (.ok o, n')) :
    Lockstep o n n' (wallets n.state) (wallets n'.state) ↔ BlockSound C B V wallets deals b n := by
  rw [generateBlock] at h
  by_cases hvalid : V.isValid b = false
  · rw [if_pos hvalid] at h
    cases h
    exact iff_of_true ⟨Iff.rfl, fun _ => rfl, fun _ => rfl, fun _ => rfl⟩ (.inl hvalid)
  rw [if_neg hvalid] at h
  obtain ⟨applied, n₁, hwallets, h⟩ := bind_ok h
  have hmod : (modify (bookkeep C B deals b) : Call (NodeState σ) Err PUnit) n₁ = (.ok (), bookkeep C B deals b n₁) := rfl
  rw [bind_of_ok hmod] at h
  rcases returnsNil_eq hwallets with ⟨rfl, hcall⟩ | ⟨rfl, e, hcall⟩
  · -- the wallets have accepted the block
    obtain ⟨hs, hn₁⟩ := onState_eq hcall
    rw [if_neg (by simp)] at h
    have happend : ((bookkeep C B deals b n₁).bc.append b).1 = (n.bc.append b).1 := by
      rw [(sameBlocks_bookkeep deals b n₁).append_fst, hn₁]
    have hreturns : Returns (C.checkAndUpdateWalletStates b) n.state := ⟨_, _, hs⟩
    cases hbytes : V.toBytes b with
    | error e =>
      rw [hbytes] at h
      cases h
      refine iff_of_false (fun hlock => absurd (hlock.appended_iff.2 rfl) (by simp)) ?_
      rintro (hinvalid | ⟨-, hok, -⟩ | ⟨e, s, hfail, -⟩)
      · exact hvalid hinvalid
      · rw [hbytes] at hok
        cases hok
      · rw [hs] at hfail
        cases hfail
    | ok u =>
      rw [hbytes] at h
      obtain ⟨appended, n₂, happ, h⟩ := bind_ok h
      obtain ⟨sw, n₃, hup, h⟩ := bind_ok h
      cases h
      have hiff : appended = true ↔ (n.bc.append b).1 = none := by
        rw [← happend]
        exact (append_ok happ).1
      constructor
      · intro hlock
        exact .inr (.inl ⟨hreturns, by rw [hbytes]; rfl, hiff.1 (hlock.appended_iff.2 rfl)⟩)
      · rintro (hinvalid | ⟨-, -, hnone⟩ | ⟨e, s, hfail, -⟩)
        · exact absurd hinvalid hvalid
        · obtain rfl := hiff.2 hnone
          exact ⟨Iff.rfl, fun h => (by cases h), fun h => (by cases h), fun h => (by cases h)⟩
        · rw [hs] at hfail
          cases hfail
  · -- the wallets have refused it
    obtain ⟨hs, hn₁⟩ := onState_eq hcall
    rw [if_pos rfl] at h
    cases h
    rw [hn₁]
    constructor
    · intro hlock
      refine .inr (.inr ⟨e, n₁.state, hs, ?_, hlock.chain rfl, hlock.activedeals rfl⟩)
      have hw := hlock.wallets rfl
      rwa [state_bookkeep] at hw
    · rintro (hinvalid | ⟨⟨u, s, hok⟩, -⟩ | ⟨e', s, hfail, hw, hchain, hdeals⟩)
      · exact absurd hinvalid hvalid
      · rw [hs] at hok
        cases hok
      · obtain rfl : n₁.state = s := congrArg Prod.snd (hs.symm.trans hfail)
        exact ⟨Iff.rfl, fun _ => hchain, fun _ => hdeals, fun _ => by rw [state_bookkeep]; exact hw⟩

/-- Once the wallets are cleaned up, the states before and after decide. -/
theorem digestSound_iff {s : σ} (hempty : n.bc.isEmpty ≠ true) (hcreated : (D.createEmptyBlock n).isOk ≠ false)
    (hs : D.cleanAndAddBlockState n.state = (.ok (), s)) : DigestSound C V D wallets n ↔
      (sealDigestBlock V D { n with state := s } = none ∧ wallets s = wallets n.state) ∨
      ∃ b, sealDigestBlock V D { n with state := s } = some b ∧
        (((n.bc.append b).1 = none ∧ Returns (C.checkAndUpdateWalletStates b) s) ∨
        ((n.bc.append b).1 ≠ none ∧ (n.bc.append b).2.updateMainTailIndex.2 = n.bc ∧
          ∃ e s', C.checkAndUpdateWalletStates b s = (.error (.error e), s') ∧ wallets s' = wallets n.state)) := by
  constructor
  · rintro (h | h | ⟨s', hs', h⟩)
    · exact absurd h hempty
    · exact absurd h hcreated
    · obtain rfl : s = s' := congrArg Prod.snd (hs.symm.trans hs')
      exact h
  · exact fun h => .inr (.inr ⟨s, hs, h⟩)

/-- **A generated digest block** is appended before the wallets have seen it, and the wallets
    are cleaned up before anything else. -/
theorem generateDigestBlock_lockstep (h : generateDigestBlock C V D n = (.ok o, n')) :
    Lockstep o n n' (wallets n.state) (wallets n'.state) ↔ DigestSound C V D wallets n := by
  have hget : (get : Call (NodeState σ) Err _) n = (.ok n, n) := rfl
  have hnothing : Lockstep .none n n (wallets n.state) (wallets n.state) :=
    ⟨Iff.rfl, fun _ => rfl, fun _ => rfl, fun _ => rfl⟩
  rw [generateDigestBlock, bind_of_ok hget] at h
  by_cases hempty : n.bc.isEmpty = true
  · rw [if_pos hempty] at h
    cases h
    exact iff_of_true hnothing (.inl hempty)
  rw [if_neg hempty] at h
  cases hcreate : D.createEmptyBlock n with
  | error e =>
    rw [hcreate] at h
    cases h
    exact iff_of_true hnothing (.inr (.inl (by rw [hcreate]; rfl)))
  | ok u =>
    have hcreated : (D.createEmptyBlock n).isOk ≠ false := by
      rw [hcreate]
      simp [Except.isOk, Except.toBool]
    rw [hcreate] at h
    obtain ⟨_, n₁, hclean, h⟩ := bind_ok h
    obtain ⟨hs, hn₁⟩ := onState_eq hclean
    have hget₁ : (get : Call (NodeState σ) Err _) n₁ = (.ok n₁, n₁) := rfl
    rw [bind_of_ok hget₁] at h
    rw [digestSound_iff hempty hcreated hs, ← hn₁]
    cases hseal : sealDigestBlock V D n₁ with
    | none =>
      rw [hseal] at h
      cases h
      constructor
      · exact fun hlock => .inl ⟨rfl, hlock.wallets rfl⟩
      · rintro (⟨-, hw⟩ | ⟨b, hb, -⟩)
        · exact ⟨Iff.rfl, fun _ => by rw [hn₁], fun _ => by rw [hn₁], fun _ => hw⟩
        · cases hb
    | some b =>
      rw [hseal] at h
      obtain ⟨appended, n₂, happ, h⟩ := bind_ok h
      obtain ⟨sw, n₃, hup, h⟩ := bind_ok h
      obtain ⟨applied, n₄, hwallets, h⟩ := bind_ok h
      cases h
      obtain ⟨hiff, rfl⟩ := append_ok happ
      obtain rfl := updateMainTailIndex_ok hup
      have hbc : n₁.bc = n.bc := by rw [hn₁]
      rw [hbc] at hiff
      rcases returnsNil_eq hwallets with ⟨rfl, hcall⟩ | ⟨rfl, e, hcall⟩
      · -- the wallets have accepted the block
        obtain ⟨hs', -⟩ := onState_eq hcall
        constructor
        · intro hlock
          exact .inr ⟨b, rfl, .inl ⟨hiff.1 (hlock.appended_iff.2 rfl), ⟨_, _, hs'⟩⟩⟩
        · rintro (⟨hnone, -⟩ | ⟨b', hb, ⟨hnone, -⟩ | ⟨-, -, e, s', hfail, -⟩⟩)
          · cases hnone
          · obtain rfl := Option.some.inj hb
            obtain rfl := hiff.2 hnone
            exact ⟨Iff.rfl, fun h => (by cases h), fun h => (by cases h), fun h => (by cases h)⟩
          · obtain rfl := Option.some.inj hb
            exact absurd (congrArg Prod.fst (hs'.symm.trans hfail)) (by simp)
      · -- the wallets have refused it
        obtain ⟨hs', hn'⟩ := onState_eq hcall
        constructor
        · intro hlock
          have happended : appended = false := by
            rw [← Bool.not_eq_true]
            exact fun h => absurd (hlock.appended_iff.1 h) (by simp)
          refine .inr ⟨b, rfl, .inr ⟨fun h => ?_, ?_, e, _, hs', hlock.wallets happended⟩⟩
          · rw [hiff.2 h] at happended
            cases happended
          · have hchain := hlock.chain happended
            rw [hn'] at hchain
            rw [← hbc]
            exact hchain.trans hbc.symm
        · rintro (⟨hnone, -⟩ | ⟨b', hb, ⟨-, u, s, hok⟩ | ⟨hnot, hchain, e', s', hfail, hw⟩⟩)
          · cases hnone
          · obtain rfl := Option.some.inj hb
            exact absurd (congrArg Prod.fst (hs'.symm.trans hok)) (by simp)
          · obtain rfl := Option.some.inj hb
            have happended : ¬ appended = true := fun h => hnot (hiff.1 h)
            obtain rfl : n'.state = s' := congrArg Prod.snd (hs'.symm.trans hfail)
            refine ⟨iff_of_false happended (by simp), fun _ => ?_, fun _ => ?_, fun _ => hw⟩
            · rw [hn']
              exact (congrArg (fun bc => (Blockchain.append bc b).2.updateMainTailIndex.2) hbc).trans hchain
            · rw [hn', hn₁]

end NodeState

/-! ## Received blocks -/

namespace StoreNode

variable {σ γ ρ W : Type} {S : StateCalls σ γ ρ} {B : Bodies} {V : Sealing} {getEpochNum : Block → Int32}
  {view : SyncerView} {wallets : γ → W} {n n' : StoreNode σ γ ρ}

/-- The chain and the active deals stay as they are. -/
def KeepsDeals (n n' : StoreNode σ γ ρ) : Prop := n'.bc = n.bc ∧ n'.activedeals = n.activedeals

instance : Std.Refl (KeepsDeals (σ := σ) (γ := γ) (ρ := ρ)) := ⟨fun _ => ⟨rfl, rfl⟩⟩

instance : IsTrans (StoreNode σ γ ρ) KeepsDeals := ⟨fun _ _ _ h h' => ⟨h'.1.trans h.1, h'.2.trans h.2⟩⟩

theorem keepsDeals_onState {α : Type} (c : Call σ Err α) :
    Call.Moves KeepsDeals (onNode (NodeState.onState c) : Call (StoreNode σ γ ρ) Err α) := fun _ => ⟨rfl, rfl⟩

theorem keepsDeals_returnsNil {c : Call (StoreNode σ γ ρ) Err Unit} (hc : Call.Moves KeepsDeals c) :
    Call.Moves KeepsDeals (returnsNil c) := by
  refine (hc.bind fun _ => moves_pure true).tryCatch fun e => ?_
  cases e with
  | error e => exact moves_pure false
  | panic e => exact moves_throw _

theorem keepsDeals_onComponent (i : ℕ) (c : Call σ Err Unit) : Call.Moves KeepsDeals (onComponent (ρ := ρ) S i c) := by
  intro n
  unfold onComponent
  cases n.store.cachedComp[i]? <;> exact ⟨rfl, rfl⟩

theorem keepsDeals_putBlockState (S : StateCalls σ γ ρ) : Call.Moves KeepsDeals (putBlockState S) := by
  intro n
  unfold putBlockState
  cases n.bc.getMainTail with
  | none => exact ⟨rfl, rfl⟩
  | some tail =>
    dsimp only
    cases n.bc.getBlockByHash (some tail.hash) with
    | error e => exact ⟨rfl, rfl⟩
    | ok b =>
      dsimp only
      cases n.store.persistBlockState tail.hash tail.height (S.snapshot (S.comp n.state)) <;> exact ⟨rfl, rfl⟩

theorem keepsDeals_generateStateSnapshot (S : StateCalls σ γ ρ) (bHash : Hash) :
    Call.Moves KeepsDeals (generateStateSnapshot S bHash) := by
  intro n
  unfold generateStateSnapshot
  cases n.snapshotPlan S bHash with
  | error e => exact ⟨rfl, rfl⟩
  | ok plan =>
    dsimp only [onOther]
    generalize (revertBlocks S n.bc plan.toRevert >>= fun _ => Call.each (S.cached.replay n.bc) plan.toApply)
      (S.withComp n.state plan.state.state) = r
    rcases r with ⟨_ | _, s⟩ <;> exact ⟨rfl, rfl⟩

theorem keepsDeals_getStateForBlockValidation (S : StateCalls σ γ ρ) (p : Block) :
    Call.Moves KeepsDeals (getStateForBlockValidation S p) := by
  refine moves_get.bind fun n => ?_
  split
  · exact moves_pure _
  · refine (keepsDeals_putBlockState S).bind fun _ => ?_
    refine Moves.bind ((keepsDeals_generateStateSnapshot S p.hash).tryCatch fun e => ?_) fun _ => moves_get.bind fun n => ?_
    · cases e with
      | error e => exact moves_pure _
      | panic e => exact moves_throw _
    · split
      · exact moves_throw _
      · exact moves_pure _

theorem activedeals_addDeals (deals : List DealEntry) (n : NodeState σ) :
    (n.addDeals deals false).activedeals = n.activedeals := by
  obtain ⟨bucket, active, hactive, h⟩ := NodeState.addDeals_eq deals false n
  rw [h]
  exact hactive rfl

theorem keepsDeals_validateSide (S : StateCalls σ γ ρ) (B : Bodies) (getEpochNum : Block → Int32) (b : Block) :
    Call.Moves KeepsDeals (validateSide S B getEpochNum b) := by
  have hlabel : ∀ i, Call.Moves KeepsDeals (modify (updateStateComp i b.hash b.height) : Call (StoreNode σ γ ρ) Err PUnit) :=
    fun i n => ⟨rfl, rfl⟩
  have hdeals : Call.Moves KeepsDeals (modify fun n : StoreNode σ γ ρ =>
      { n with toNodeState := n.toNodeState.addDeals (B.deals b) false } : Call (StoreNode σ γ ρ) Err PUnit) :=
    fun n => ⟨NodeState.bc_addDeals _ _ _, activedeals_addDeals _ _⟩
  refine moves_get.bind fun n => ?_
  dsimp only
  split
  · exact moves_pure _
  · refine Moves.bind (((keepsDeals_getStateForBlockValidation S _).bind fun _ => moves_pure _).tryCatch fun e => ?_) fun i => ?_
    · cases e with
      | error e => exact moves_pure _
      | panic e => exact moves_throw _
    · split
      · exact moves_pure _
      · refine moves_get.bind fun m => (keepsDeals_returnsNil (keepsDeals_onComponent _ _)).bind fun admitted => ?_
        refine moves_get.bind fun m' => ?_
        split
        · exact (hlabel _).bind fun _ => hdeals.bind fun _ => moves_pure _
        · exact moves_pure _

/-- **Up to `Append`** a received block changes neither the chain nor the active deals. -/
theorem keepsDeals_validateBlock (S : StateCalls σ γ ρ) (B : Bodies) (V : Sealing) (getEpochNum : Block → Int32)
    (view : SyncerView) (b : Block) : Call.Moves KeepsDeals (validateBlock S B V getEpochNum view b) := by
  refine moves_get.bind fun n => ?_
  dsimp only
  split
  · exact moves_pure _
  · split
    · exact moves_pure _
    · split
      · exact (keepsDeals_onState _).bind fun _ => moves_pure _
      · split
        · exact moves_throw _
        · split
          · exact (keepsDeals_onState _).bind fun _ => moves_pure _
          · exact keepsDeals_validateSide S B getEpochNum b

theorem onNode_eq {α : Type} {c : Call (NodeState σ) Err α} {r : Except Err α} (h : onNode c n = (r, n')) :
    c n.toNodeState = (r, n'.toNodeState) ∧ n' = { n with toNodeState := n'.toNodeState } := by
  obtain ⟨h₁, h₂⟩ := Prod.mk.inj h
  rw [← h₂]
  exact ⟨Prod.ext h₁ rfl, rfl⟩

/-- From `Append` on, the block is appended and applied exactly if it joins the chain. -/
theorem join_lockstep {checkDposRounds : Block → Call σ Err Unit} {b : Block} {inMainTail : Bool} {o : Outcome}
    (h : join S B getEpochNum view checkDposRounds b inMainTail n = (.ok o, n')) :
    (o.appended = true ∧ o.applied = true ↔ Joins S B getEpochNum b n) ∧ (o.appended = false → o.applied = true) := by
  obtain ⟨appended, n₁, happ, h⟩ := bind_ok h
  obtain ⟨happ, hn₁⟩ := onNode_eq happ
  obtain ⟨hiff, hbc₁⟩ := NodeState.append_ok happ
  cases appended with
  | false =>
    rw [if_pos rfl] at h
    obtain ⟨m, n₂, hget, h⟩ := bind_ok h
    obtain ⟨_, n₃, hrevert, h⟩ := bind_ok h
    cases h
    refine ⟨iff_of_false (fun h => absurd h.1 (by simp)) fun hjoins => ?_, fun _ => rfl⟩
    exact absurd (hiff.2 hjoins.1) (by simp)
  | true =>
    rw [if_neg (by simp)] at h
    obtain ⟨sw, n₂, hup, h⟩ := bind_ok h
    obtain ⟨hup, hn₂⟩ := onNode_eq hup
    rw [hbc₁] at hup
    have hsw : Joins S B getEpochNum b n ↔
        (sw.blocksToProcess ≠ [] → Returns (switch S.toComponents B getEpochNum sw) n₂.toNodeState) := by
      refine ⟨fun hjoins hne => hjoins.2 sw _ hup hne, fun hswitch => ⟨hiff.1 rfl, fun sw' m hup' hne => ?_⟩⟩
      obtain ⟨hsw, rfl⟩ := Prod.mk.inj (hup.symm.trans hup')
      obtain rfl := Except.ok.inj hsw
      exact hswitch hne
    rw [hsw]
    by_cases hnil : sw.blocksToProcess = []
    · have hrest : ∀ m, (do
          if (← get).bc.isInMainFork b then
            modify fun n => { n with toNodeState := NodeState.updateStates S.toComponents B b n.toNodeState }
          return ⟨true, true⟩ : Call (StoreNode σ γ ρ) Err Outcome) m = (.ok o, n') → o = ⟨true, true⟩ := by
        intro m hm
        have hget : (get : Call (StoreNode σ γ ρ) Err _) m = (.ok m, m) := rfl
        rw [bind_of_ok hget] at hm
        by_cases hin : m.bc.isInMainFork b = true
        · rw [if_pos hin] at hm
          cases hm
          rfl
        · rw [if_neg hin] at hm
          cases hm
          rfl
      have ho : o = ⟨true, true⟩ := by
        by_cases hmain : inMainTail = true ∧ sw.blocksToProcess = []
        · rw [if_pos hmain, if_neg (not_not.2 hnil)] at h
          obtain ⟨_, m, -, h⟩ := bind_ok h
          exact hrest m h
        · rw [if_neg hmain, if_neg (not_not.2 hnil)] at h
          exact hrest _ h
      rw [ho]
      exact ⟨iff_of_true ⟨rfl, rfl⟩ fun hne => absurd hnil hne, fun h => (by cases h)⟩
    · rw [if_neg fun h => hnil h.2, if_pos hnil] at h
      obtain ⟨switched, n₃, hswitch, h⟩ := bind_ok h
      cases h
      refine ⟨?_, fun h => (by cases h)⟩
      rcases returnsNil_eq hswitch with ⟨rfl, hcall⟩ | ⟨rfl, e, hcall⟩
      · exact iff_of_true ⟨rfl, rfl⟩ fun _ => ⟨_, _, (onNode_eq hcall).1⟩
      · refine iff_of_false (fun h => absurd h.2 (by simp)) fun h => ?_
        obtain ⟨_, m, hreturns⟩ := h hnil
        exact absurd (congrArg Prod.fst ((onNode_eq hcall).1.symm.trans hreturns)) (by simp)

/-- **A received block** keeps chain and wallets in lockstep exactly if its refusal leaves the
    wallets as they are, and its admission is followed by an append without an error. -/
theorem checkAndAdd_lockstep {checkDposRounds : Block → Call σ Err Unit} {b : Block} {o : Outcome} {a : Admission γ}
    (h : checkAndAdd S B V getEpochNum view checkDposRounds b n = (.ok (o, a), n')) :
    Lockstep o n.toNodeState n'.toNodeState (wallets (S.comp n.state), a.before.map wallets)
        (wallets (S.comp n'.state), a.after.map wallets) ↔
      AddSound S B V wallets getEpochNum view b n := by
  obtain ⟨a', n₁, hvalidated, h⟩ := bind_ok h
  have hkeeps := keepsDeals_validateBlock S B V getEpochNum view b n
  rw [hvalidated] at hkeeps
  have hsound : AddSound S B V wallets getEpochNum view b n ↔
      (a'.admitted = false → wallets (S.comp n₁.state) = wallets (S.comp n.state) ∧
        a'.after.map wallets = a'.before.map wallets) ∧
      (a'.admitted = true → Joins S B getEpochNum b n₁) := by
    refine ⟨fun h => h a' n₁ hvalidated, fun h a'' n₁' hvalidated' => ?_⟩
    obtain ⟨ha, rfl⟩ := Prod.mk.inj (hvalidated.symm.trans hvalidated')
    obtain rfl := Except.ok.inj ha
    exact h
  rw [hsound]
  by_cases hadmitted : a'.admitted = false
  · rw [if_pos hadmitted] at h
    cases h
    constructor
    · intro hlock
      obtain ⟨h₁, h₂⟩ := Prod.mk.inj (hlock.wallets rfl)
      exact ⟨fun _ => ⟨h₁, h₂⟩, fun h => absurd h (by rw [hadmitted]; simp)⟩
    · rintro ⟨hrefused, -⟩
      obtain ⟨h₁, h₂⟩ := hrefused hadmitted
      exact ⟨Iff.rfl, fun _ => hkeeps.1, fun _ => hkeeps.2, fun _ => Prod.ext h₁ h₂⟩
  · rw [if_neg hadmitted] at h
    obtain ⟨o', n₂, hjoin, h⟩ := bind_ok h
    cases h
    obtain ⟨hjoins, hfail⟩ := join_lockstep hjoin
    constructor
    · intro hlock
      refine ⟨fun h => absurd h hadmitted, fun _ => hjoins.1 ?_⟩
      cases happended : o.appended with
      | true => exact ⟨rfl, hlock.appended_iff.1 happended⟩
      | false => exact absurd (hlock.appended_iff.2 (hfail happended)) (by rw [happended]; simp)
    · rintro ⟨-, hj⟩
      obtain ⟨h₁, h₂⟩ := hjoins.2 (hj (by simpa using hadmitted))
      exact ⟨iff_of_true h₁ h₂, fun h => absurd (h₁.symm.trans h) (by simp), fun h => absurd (h₁.symm.trans h) (by simp),
        fun h => absurd (h₁.symm.trans h) (by simp)⟩

/-- **Chain and wallets stay in lockstep** on each path exactly if no step fails after the first
    change, or the failure finds nothing changed. -/
theorem lockstep_iff (S : StateCalls σ γ ρ) (B : Bodies) (V : Sealing) (D : NodeState.DigestCalls σ) (wallets : γ → W)
    (getEpochNum : Block → Int32) (view : SyncerView) (checkDposRounds : Block → Call σ Err Unit) (n : StoreNode σ γ ρ) :
    (∀ deals b o n', NodeState.generateBlock S.toComponents B V deals b n.toNodeState = (.ok o, n') →
      (Lockstep o n.toNodeState n' (wallets (S.comp n.state)) (wallets (S.comp n'.state)) ↔
        NodeState.BlockSound S.toComponents B V (wallets ∘ S.comp) deals b n.toNodeState)) ∧
    (∀ o n', NodeState.generateDigestBlock S.toComponents V D n.toNodeState = (.ok o, n') →
      (Lockstep o n.toNodeState n' (wallets (S.comp n.state)) (wallets (S.comp n'.state)) ↔
        NodeState.DigestSound S.toComponents V D (wallets ∘ S.comp) n.toNodeState)) ∧
    ∀ b o a n', checkAndAdd S B V getEpochNum view checkDposRounds b n = (.ok (o, a), n') →
      (Lockstep o n.toNodeState n'.toNodeState (wallets (S.comp n.state), a.before.map wallets)
          (wallets (S.comp n'.state), a.after.map wallets) ↔
        AddSound S B V wallets getEpochNum view b n) := by
  refine ⟨fun deals b o n' h => ?_, fun o n' h => ?_, fun _ _ _ _ h => checkAndAdd_lockstep h⟩
  · show Lockstep o n.toNodeState n' ((wallets ∘ S.comp) n.state) ((wallets ∘ S.comp) n'.state) ↔ _
    exact NodeState.generateBlock_lockstep h
  · show Lockstep o n.toNodeState n' ((wallets ∘ S.comp) n.state) ((wallets ∘ S.comp) n'.state) ↔ _
    exact NodeState.generateDigestBlock_lockstep h

/-! ## A block on the main fork of two blocks -/

/-- All blocks are valid. -/
def plainSealing : Sealing := ⟨fun _ => true, fun _ => .ok (), fun _ => .ok true⟩

/-- The block `b` on `a`, generated with a deal. -/
def generated (t : Hash → List Transaction) : Except Err Outcome × NodeState WalletManager :=
  NodeState.generateBlock (plainCalls t).toComponents Bodies.empty plainSealing [⟨"d", 100⟩] (forkBlock "b" "a" 2)
    (plainNode (plainState t))

/-- The wallets refuse the block, and its deal is active. -/
theorem not_lockstep : ¬ ∀ (C : Components WalletManager) (B : Bodies) (V : Sealing) (deals : List DealEntry) (b : Block)
    (o : Outcome) (n n' : NodeState WalletManager), NodeState.generateBlock C B V deals b n = (.ok o, n') →
    Lockstep o n n' (accounts n.state) (accounts n'.state) := by
  intro h
  have hok : (generated wrongTransactions).1 = .ok ⟨false, false⟩ := by decide
  have hlock := h (plainCalls wrongTransactions).toComponents Bodies.empty plainSealing [⟨"d", 100⟩] (forkBlock "b" "a" 2)
    ⟨false, false⟩ (plainNode (plainState wrongTransactions)) (generated wrongTransactions).2 (ok_of_fst hok)
  have hactive : "d" ∈ (generated wrongTransactions).2.activedeals := by decide
  rw [hlock.activedeals rfl] at hactive
  exact absurd hactive (Finset.notMem_empty "d")

end StoreNode

end Timbre
