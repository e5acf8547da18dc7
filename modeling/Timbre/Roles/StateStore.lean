/-
  The cache of states for the validation of blocks on side forks.

  A component of the cache is labelled with the hash of a block.  It is built from the nearest
  stored snapshot, by reverting blocks of the main fork and applying those of the side fork,
  and a validation changes it in place.  **As long as a validation that fails changes nothing,
  one that succeeds advances the DPOS, and the snapshots and the reversals are faithful, every
  component is the state that its block replays to** (`coherent_of_sound`).
-/
import Timbre.Core.Removal
import Timbre.Roles.Node
import Timbre.Wallet.Detached
import Timbre.Wallet.Restored

namespace Timbre

open Call Blockchain Syncer

/-! ## The source -/

/-- A cached state with the hash and the height of its block. -/
structure StateComponents (γ : Type) where
  blockHash : Hash
  blockHeight : ℤ
  state : γ

/-- The snapshots are of type `ρ`; `stored` lists the heights of those in the bucket `db`. -/
structure StateStore (γ ρ : Type) where
  stored : List (Hash × ℤ)
  db : Hash → Option ρ
  cachedComp : List (StateComponents γ)

/-- The calls on a component of type `γ`, which a state of type `σ` holds next to what all
    components share, and the snapshots of components.  A component of the cache has other calls
    than that of the node: its wallets have no executor of candidate transactions. -/
structure StateCalls (σ γ ρ : Type) extends Components σ where
  cached : Components σ
  comp : σ → γ
  withComp : σ → γ → σ
  comp_withComp : ∀ s g, comp (withComp s g) = g
  snapshot : γ → ρ
  restore : ρ → Except Err γ
  revertDposTill : Block → Call σ Err Unit

/-- A node with its store of states. -/
structure StoreNode (σ γ ρ : Type) extends NodeState σ where
  store : StateStore γ ρ

/-- What a component offers the syncer for a validation. -/
def Components.services {σ : Type} (C : Components σ) (bc : Blockchain) : Syncer.Services σ where
  toWalletCalls := C.toWalletCalls
  hasStarted := C.hasStarted
  stopDpos := C.stopDpos
  startDpos := C.startDpos bc
  updateDpos := C.updateDpos bc
  bootstrapFromEpochBlock := C.bootstrapFromEpochBlock
  validateDigestMiners := C.validateDigestMiners
  validateMinerSlot := C.validateMinerSlot bc
  updateStates _ := pure ()
  revertState _ := pure ()
  restoreMiners _ := pure ()

/-- The replay of one block on a component: the DPOS advances, then the wallets change. -/
def Components.replay {σ : Type} (C : Components σ) (bc : Blockchain) (b : Block) : Call σ Err Unit := do
  C.updateDpos bc b
  C.checkAndUpdateWalletStates b

namespace StateStore

variable {σ γ ρ : Type}

def empty : StateStore γ ρ := ⟨[], fun _ => none, []⟩

/-- The position of the first component with the hash. -/
def find (ss : StateStore γ ρ) (hash : Hash) : Option ℕ := ss.cachedComp.findIdx? (·.blockHash = hash)

/-- `PersistBlockState`: a snapshot that is there already is an error. -/
def persistBlockState (ss : StateStore γ ρ) (hash : Hash) (height : ℤ) (snapshot : ρ) : Except Err (StateStore γ ρ) :=
  if (ss.db hash).isSome then .error (.error "put error - key already exists")
  else .ok { ss with
    db := Function.update ss.db hash (some snapshot)
    stored := (hash, height) :: ss.stored }

/-- `CacheStateComp`. -/
def cacheStateComp (ss : StateStore γ ρ) (comp : StateComponents γ) : StateStore γ ρ :=
  { ss with cachedComp := (if ss.cachedComp.length > 10 then ss.cachedComp.drop 1 else ss.cachedComp) ++ [comp] }

/-- The loop of `GetClosestState`: the highest stored state of a block of the main fork. -/
def closest (bc : Blockchain) : List (Hash × ℤ) → Option (Hash × ℤ) → Except Err (Option (Hash × ℤ))
  | [], best => .ok best
  | (hash, height) :: t, best => do
    let b ← bc.getBlockByHeight height
    closest bc t (if b.hash = hash ∧ height > best.elim (-1) Prod.snd then some (hash, height) else best)

/-- `GetClosestState`. -/
def getClosestState (S : StateCalls σ γ ρ) (ss : StateStore γ ρ) (bc : Blockchain) :
    Except Err (StateComponents γ) := do
  match ← closest bc ss.stored none with
  | none => .error (.error "No closest state found")
  | some (hash, height) =>
    match ss.db hash with
    | none => .error (.error "Block state doesn't exist in the Db")
    | some snapshot => return ⟨hash, height, ← S.restore snapshot⟩

end StateStore

/-- What `GenerateStateSnapshot` looks up before it changes a state. -/
structure SnapshotPlan (γ : Type) where
  block : Block
  state : StateComponents γ
  stateBlock : Block
  parent : Block
  toApply : List Block
  toRevert : List Block

namespace StoreNode

variable {σ γ ρ : Type} (S : StateCalls σ γ ρ)

/-- The blocks from the main fork up to a block, and the last one on the main fork. -/
def blocksToApply (bc : Blockchain) : ℕ → Block → List Block → Except Err (List Block × Block)
  | 0, _, _ => .error (.panic "out of fuel")
  | fuel + 1, parent, toApply =>
    if bc.isInMainFork parent then .ok (toApply, parent)
    else do blocksToApply bc fuel (← bc.getBlockByHash parent.parentHash) (parent :: toApply)

/-- The blocks of the main fork above a height, the highest first. -/
def blocksToRevert (bc : Blockchain) (height : ℤ) : ℕ → Except Err (List Block)
  | 0 => .ok []
  | k + 1 => do
    let b ← bc.getBlockByHeight (height + (k + 1 : ℕ))
    return b :: (← blocksToRevert bc height k)

def snapshotPlan (n : StoreNode σ γ ρ) (bHash : Hash) : Except Err (SnapshotPlan γ) := do
  let block ← n.bc.getBlockByHash (some bHash)
  let state ← n.store.getClosestState S n.bc
  let stateBlock ← n.bc.getBlockByHash (some state.blockHash)
  let (toApply, parent) ← blocksToApply n.bc (block.height.toNat + 1) block []
  let toRevert ← blocksToRevert n.bc parent.height (stateBlock.height - parent.height).toNat
  return ⟨block, state, stateBlock, parent, toApply, toRevert⟩

/-- The reversal of blocks of the main fork, in the wallets and then in the DPOS. -/
def revertBlocks (bc : Blockchain) (toRevert : List Block) : Call σ Err Unit := do
  Call.each S.cached.revertWalletStates toRevert
  match toRevert.getLast? with
  | none => pure ()
  | some last =>
    match bc.getBlockByHash last.parentHash with
    | .error e => throw e
    | .ok revertParent => S.revertDposTill revertParent

/-- A call on a component other than that of the node, which stays as it is. -/
def onOther (c : Call σ Err Unit) (g : γ) (n : StoreNode σ γ ρ) : Except Err Unit × γ × StoreNode σ γ ρ :=
  let (result, s) := c (S.withComp n.state g)
  (result, S.comp s, { n with state := S.withComp s (S.comp n.state) })

/-- `GenerateStateSnapshot`. -/
def generateStateSnapshot (bHash : Hash) : Call (StoreNode σ γ ρ) Err Unit := fun n =>
  match n.snapshotPlan S bHash with
  | .error e => (.error e, n)
  | .ok plan =>
    let change : Call σ Err Unit := do
      revertBlocks S n.bc plan.toRevert
      Call.each (S.cached.replay n.bc) plan.toApply
    match onOther S change plan.state.state n with
    | (.error e, _, n) => (.error e, n)
    | (.ok _, g, n) => (.ok (), { n with store := n.store.cacheStateComp ⟨bHash, plan.block.height, g⟩ })

/-- `PutBlockState`: the snapshot of the state at the main tail. -/
def putBlockState : Call (StoreNode σ γ ρ) Err Unit := fun n =>
  match n.bc.getMainTail with
  | none => (.error (.panic "invalid memory address or nil pointer dereference"), n)
  | some tail =>
    match n.bc.getBlockByHash (some tail.hash) with
    | .error _ => (.error (.panic "get error"), n)
    | .ok _ =>
      match n.store.persistBlockState tail.hash tail.height (S.snapshot (S.comp n.state)) with
      | .error e => (.error e, n)
      | .ok store => (.ok (), { n with store := store })

/-- `GetStateForBlockValidation`; returns the position of the component in the cache. -/
def getStateForBlockValidation (b : Block) : Call (StoreNode σ γ ρ) Err ℕ := do
  match (← get).store.find b.hash with
  | some i => return i
  | none => do
    putBlockState S
    ignoreError (generateStateSnapshot S b.hash)
    match (← get).store.find b.hash with
    | none => throw (.error "Failed to generate state")
    | some i => return i

/-- A call on a cached component, which is changed in place. -/
def onComponent (i : ℕ) (c : Call σ Err Unit) : Call (StoreNode σ γ ρ) Err Unit := fun n =>
  match n.store.cachedComp[i]? with
  | none => (.error (.panic "index out of range"), n)
  | some comp =>
    let (result, g, n) := onOther S c comp.state n
    (result, { n with store := { n.store with
      cachedComp := n.store.cachedComp.set i { comp with state := g } } })

/-- `UpdateStateComp`. -/
def updateStateComp (i : ℕ) (hash : Hash) (height : ℤ) (n : StoreNode σ γ ρ) : StoreNode σ γ ρ :=
  { n with store := { n.store with
      cachedComp := n.store.cachedComp.modify i fun comp => { comp with blockHash := hash, blockHeight := height } } }

/-- The validation of a block of a side fork in `IterateCheckAndAddChain`. -/
def validateSideBlock (getEpochNum : Block → Int32) (b : Block) : Call (StoreNode σ γ ρ) Err Unit := do
  let bc := (← get).bc
  match bc.getBlockByHash b.parentHash with
  | .error e => throw e
  | .ok parent => do
    let i ← getStateForBlockValidation S parent
    onComponent S i (validateForNonMainTail (S.cached.services bc) getEpochNum bc b)
    modify (updateStateComp i b.hash b.height)

end StoreNode

/-! ## What the cache should hold -/

namespace StoreNode

variable {σ γ ρ : Type}

section
variable (C : Components σ) (init : σ)

/-- The state is that of a replay of the chain, the newest block first, from the state `init`
    before the genesis block, at a node that has the chain. -/
inductive Replayed : List Block → σ → Prop
  | genesis {g : Block} {bc : Blockchain} {s : σ} :
      g.height = 0 → C.replay bc g init = (.ok (), s) → Replayed [g] s
  | grow {b p : Block} {l : List Block} {bc : Blockchain} {s s' : σ} : Replayed (p :: l) s →
      p.isValidParentOf b → bc.IsChain (p :: l) → C.replay bc b s = (.ok (), s') → Replayed (b :: p :: l) s'

end

section
variable (S : StateCalls σ γ ρ) (init : σ) (U : Set Block)

/-- The component is that of the block with the hash, the blocks being from `U`. -/
def StateOf (hash : Hash) (g : γ) : Prop :=
  ∃ x l s, x.hash = hash ∧ (∀ y ∈ x :: l, y ∈ U) ∧ Replayed S.toComponents init (x :: l) s ∧ S.comp s = g

/-- **Every cached component has the state of its block.** -/
def Coherent (n : StoreNode σ γ ρ) : Prop :=
  ∀ comp ∈ n.store.cachedComp, StateOf S init U comp.blockHash comp.state

/-- So do the components that are restored from the stored snapshots. -/
def Faithful (n : StoreNode σ γ ρ) : Prop :=
  ∀ hash height, (hash, height) ∈ n.store.stored → ∀ snapshot, n.store.db hash = some snapshot →
    ∀ g, S.restore snapshot = .ok g → StateOf S init U hash g

end

/-- The chain of the node stands, and its blocks are from `U`. -/
def OnMain (U : Set Block) (bc : Blockchain) : Prop :=
  (∃ m ml mapped, bc.Standing m ml mapped) ∧ ∀ b, bc.Stored b → b ∈ U

/-! ## When it does -/

section
variable (S : StateCalls σ γ ρ) (init : σ) (U : Set Block) (getEpochNum : Block → Int32)

/-- The two calls end in the same way, the one from the state `s` and the other from `t`. -/
def EndsAlike (c d : Call σ Err Unit) (s t : σ) : Prop := (c s).1 = (d t).1 ∧ S.comp (c s).2 = S.comp (d t).2

/-- The node is in the state of its main tail, and its snapshot gives this state back. -/
structure PersistSound (n : StoreNode σ γ ρ) : Prop where
  state : ∀ tail, n.bc.getMainTail = some tail → StateOf S init U tail.hash (S.comp n.state)
  restore : ∀ g, S.restore (S.snapshot (S.comp n.state)) = .ok g → g = S.comp n.state

/-- The stored state is not below the fork, the blocks above the fork are undone, and those of
    the side fork do to the component what they do to the state of the chain. -/
structure GenerationSound (n : StoreNode σ γ ρ) (plan : SnapshotPlan γ) : Prop where
  above : plan.parent.height ≤ plan.stateBlock.height
  undone : ∀ l s s', plan.toRevert ≠ [] → Replayed S.toComponents init (plan.toRevert ++ plan.parent :: l) s →
    S.comp s = plan.state.state → revertBlocks S n.bc plan.toRevert (S.withComp n.state plan.state.state) = (.ok (), s') →
      ∃ t, Replayed S.toComponents init (plan.parent :: l) t ∧ S.comp t = S.comp s'
  alike : ∀ l s t, revertBlocks S n.bc plan.toRevert (S.withComp n.state plan.state.state) = (.ok (), s) →
    Replayed S.toComponents init (plan.parent :: l) t → S.comp t = S.comp s →
      EndsAlike S (Call.each (S.cached.replay n.bc) plan.toApply) (Call.each (S.replay n.bc) plan.toApply) s t

/-- The DPOS of the component advances without an error; the component is as before if a check or
    the wallets fail, the checks make no difference to the wallets, and the block does to the
    component what it does to the state of the chain. -/
structure ValidationSound (bc : Blockchain) (b p : Block) (s : σ) : Prop where
  notStarted : S.cached.hasStarted s = false
  updateDpos : ∃ s₁, S.cached.updateDpos bc b s = (.ok (), s₁)
  failedCheck : ∀ s₁ s₂ e, S.cached.updateDpos bc b s = (.ok (), s₁) →
    (do let _ ← checkDigest (S.cached.services bc) getEpochNum b (pure false) false p.height
        S.cached.validateMinerSlot bc b : Call σ Err Unit) s₁ = (.error e, s₂) → S.comp s₂ = S.comp s
  passedCheck : ∀ s₁ s₂, S.cached.updateDpos bc b s = (.ok (), s₁) →
    (do let _ ← checkDigest (S.cached.services bc) getEpochNum b (pure false) false p.height
        S.cached.validateMinerSlot bc b : Call σ Err Unit) s₁ = (.ok (), s₂) →
      S.cached.checkAndUpdateWalletStates b s₂ = S.cached.checkAndUpdateWalletStates b s₁
  failedWallets : ∀ s₁ s₂ e, S.cached.updateDpos bc b s = (.ok (), s₁) →
    S.cached.checkAndUpdateWalletStates b s₁ = (.error e, s₂) → S.comp s₂ = S.comp s
  alike : ∀ l t, Replayed S.toComponents init (p :: l) t → S.comp t = S.comp s →
    EndsAlike S (S.cached.replay bc b) (S.replay bc b) s t

/-- The condition of a generation: on the states that it looks up. -/
def GenerateSound (n : StoreNode σ γ ρ) (bHash : Hash) : Prop :=
  ∀ plan, n.snapshotPlan S bHash = .ok plan → GenerationSound S init n plan

/-- The condition of a validation: on the snapshots taken for it, if the state of the parent is
    not cached, and on the component that it is given. -/
structure SideSound (n : StoreNode σ γ ρ) (b p : Block) : Prop where
  persist : n.store.find p.hash = none → PersistSound S init U n
  generation : n.store.find p.hash = none → ∀ n₁, putBlockState S n = (.ok (), n₁) → GenerateSound S init n₁ p.hash
  validation : ∀ i n₁ comp, getStateForBlockValidation S p n = (.ok i, n₁) →
    n₁.store.cachedComp[i]? = some comp →
      ValidationSound S init getEpochNum n.bc b p (S.withComp n₁.state comp.state)

/-- The nodes reached by side-fork validations and snapshot generations under the conditions
    `V` and `G`, while the chain and the state of the node change in any way. -/
inductive CacheRun (V : StoreNode σ γ ρ → Block → Block → Prop) (G : StoreNode σ γ ρ → Hash → Prop) :
    StoreNode σ γ ρ → Prop
  | start (n : NodeState σ) : OnMain U n.bc → CacheRun V G { n with store := .empty }
  | node {n : StoreNode σ γ ρ} (m : NodeState σ) : CacheRun V G n → OnMain U m.bc →
      CacheRun V G { m with store := n.store }
  | validate {n : StoreNode σ γ ρ} {b p : Block} : CacheRun V G n → b ∈ U → n.bc.Appendable b p → V n b p →
      CacheRun V G (validateSideBlock S getEpochNum b n).2
  | generate {n : StoreNode σ γ ρ} (bHash : Hash) : CacheRun V G n → G n bHash →
      CacheRun V G (generateStateSnapshot S bHash n).2

end

/-! ## Replays -/

variable {C : Components σ} {S : StateCalls σ γ ρ} {init : σ} {U : Set Block} {bc : Blockchain} {n : StoreNode σ γ ρ}
  {x p : Block} {l l' P r : List Block} {s s' : σ}

theorem Replayed.height_nonneg (h : Replayed C init l s) : ∀ x ∈ l, 0 ≤ x.height := by
  induction h with
  | genesis hg _ => simp [hg]
  | grow _ hparent _ _ ih =>
    intro x hx
    rcases List.mem_cons.1 hx with rfl | hx
    · have := ih _ List.mem_cons_self
      have := hparent.2
      omega
    · exact ih x hx

/-- The chain of a replay is the one of the store. -/
theorem Replayed.chain_unique (hU : Set.InjOn Block.hash U) : ∀ {l l' : List Block} {x : Block} {s : σ},
    Replayed C init (x :: l) s → (∀ y ∈ x :: l, y ∈ U) → bc.IsChain (x :: l') → (∀ y ∈ x :: l', y ∈ U) → l = l'
  | [], [], _, _, _, _, _, _ => rfl
  | [], q' :: _, x, s, .genesis hg _, _, .grow hp hl, _ => by
    have h₀ : 0 ≤ q'.height := hl.level_nonneg
    have h₁ := hp.2.2.2
    omega
  | _ :: _, [], x, s, .grow h hparent _ _, _, .root hr, _ => by
    have h₀ := h.height_nonneg _ List.mem_cons_self
    have h₁ := hr.2.2
    have h₂ := hparent.2
    omega
  | q :: l, q' :: l', x, s, .grow h hparent _ _, hmem, .grow hp hl, hmem' => by
    have hhash : q.hash = q'.hash := Option.some.inj (hparent.1.symm.trans hp.2.2.1)
    obtain rfl : q = q' := hU (hmem q (by simp)) (hmem' q' (by simp)) hhash
    rw [Replayed.chain_unique hU h (fun y hy => hmem y (by simp [hy])) hl fun y hy => hmem' y (by simp [hy])]

/-- The blocks of a side fork are replayed one after the other. -/
theorem Replayed.apply (h : Replayed C init (p :: l) s) : ∀ {P : List Block} {s' : σ}, bc.IsChain (P ++ p :: l) →
    Steps (fun b s s' => C.replay bc b s = (.ok (), s')) P.reverse s s' → Replayed C init (P ++ p :: l) s'
  | [], s', _, hsteps => by
    cases hsteps
    exact h
  | x :: P, s', hchain, hsteps => by
    rw [List.reverse_cons] at hsteps
    obtain ⟨s₁, hP, hx⟩ := hsteps.append_inv
    cases hx with
    | cons hx hnil =>
      cases hnil
      obtain ⟨q, t, hq⟩ := List.exists_cons_of_ne_nil (show P ++ p :: l ≠ [] by simp)
      rw [List.cons_append, hq] at hchain ⊢
      cases hchain with
      | grow hp hl =>
        have hrest := Replayed.apply h (P := P) (hq ▸ hl) hP
        rw [hq] at hrest
        exact .grow hrest hp.2.2 hl hx

/-! ## The plan of a snapshot -/

variable {m : Block} {ml : List Block}

theorem blocksToApply_spec (hp : bc.isInMainFork p) : ∀ {P : List Block} {x : Block} {fuel : ℕ} {done : List Block},
    bc.IsChain (P ++ p :: l) → (P ++ p :: l).head? = some x → (∀ y ∈ P, ¬ bc.isInMainFork y) →
      x.height.toNat < fuel → blocksToApply bc fuel x done = .ok (P.reverse ++ done, p)
  | [], x, fuel + 1, done, _, hx, _, _ => by
    obtain rfl := Option.some.inj hx
    rw [blocksToApply, if_pos hp]
    rfl
  | y :: P, x, fuel + 1, done, hchain, hx, hP, hfuel => by
    obtain rfl := Option.some.inj hx
    obtain ⟨q, t, hq⟩ := List.exists_cons_of_ne_nil (show P ++ p :: l ≠ [] by simp)
    have hcons : bc.IsChain (y :: q :: t) := by
      rw [← hq]
      exact hchain
    cases hcons with
    | grow hparent hl =>
      have hlt : q.height.toNat < fuel := by
        have h₀ : 0 ≤ q.height := LinkTree.Branch.level_nonneg hl
        have h₁ := hparent.2.2.2
        omega
      have hrest : blocksToApply bc fuel q (y :: done) = .ok (P.reverse ++ y :: done, p) :=
        blocksToApply_spec hp (hq ▸ hl) (by rw [hq]; rfl) (fun z hz => hP z (by simp [hz])) hlt
      rw [blocksToApply, if_neg (hP y (by simp)), getBlockByHash_parent hparent hl]
      refine hrest.trans ?_
      simp

theorem height_append : ∀ {r : List Block}, bc.IsChain (r ++ p :: l) → ∀ x, (r ++ p :: l).head? = some x →
    x.height = p.height + r.length
  | [], _, x, hx => by
    obtain rfl := Option.some.inj hx
    simp
  | y :: r, hchain, x, hx => by
    obtain rfl := Option.some.inj hx
    obtain ⟨q, t, hq⟩ := List.exists_cons_of_ne_nil (show r ++ p :: l ≠ [] by simp)
    have hcons : bc.IsChain (y :: q :: t) := by
      rw [← hq]
      exact hchain
    cases hcons with
    | grow hparent hl =>
      have hrest := height_append (r := r) (hq ▸ hl) q (by rw [hq]; rfl)
      have h₁ := hparent.2.2.2
      rw [List.length_cons]
      push_cast
      omega

theorem blocksToRevert_spec (hne : bc.isEmpty = false) : ∀ {r : List Block}, bc.IsChain (r ++ p :: l) →
    (∀ x ∈ r, bc.mainForkMap x.height = some x.hash) → blocksToRevert bc p.height r.length = .ok r
  | [], _, _ => rfl
  | y :: r, hchain, hmap => by
    have hheight := height_append hchain y rfl
    rw [List.length_cons] at hheight ⊢
    have hget : bc.getBlockByHeight (p.height + (r.length + 1 : ℕ)) = .ok y := by
      rw [← hheight, getBlockByHeight, hmap y (by simp)]
      exact getBlockByHash_stored hne (hchain.stored y (by simp))
    have hrest : bc.IsChain (r ++ p :: l) := by
      cases hr : r ++ p :: l with
      | nil => simp at hr
      | cons q t =>
        rw [List.cons_append, hr] at hchain
        cases hchain with
        | grow _ hl => exact hl
    rw [blocksToRevert, hget]
    simp [bind, Except.bind, blocksToRevert_spec hne hrest fun x hx => hmap x (by simp [hx]), pure, Except.pure]

theorem closest_spec : ∀ {stored : List (Hash × ℤ)} {best : Option (Hash × ℤ)} {hash : Hash} {height : ℤ},
    StateStore.closest bc stored best = .ok (some (hash, height)) → best = some (hash, height) ∨
      ((hash, height) ∈ stored ∧ ∃ b, bc.getBlockByHeight height = .ok b ∧ b.hash = hash)
  | [], best, hash, height, h => .inl (Except.ok.inj h)
  | (k, j) :: stored, best, hash, height, h => by
    rw [StateStore.closest] at h
    cases hget : bc.getBlockByHeight j with
    | error e =>
      rw [hget] at h
      cases h
    | ok b =>
      rw [hget] at h
      rcases closest_spec h with hbest | ⟨hmem, hb⟩
      · split_ifs at hbest with hif
        · obtain ⟨rfl, rfl⟩ := Prod.mk.inj (Option.some.inj hbest)
          exact .inr ⟨by simp, b, hget, hif.1⟩
        · exact .inl hbest
      · exact .inr ⟨by simp [hmem], hb⟩

/-- What has been looked up: the two branches from the last common block on, and a state of
    the block at the end of the one on the main fork. -/
structure Planned (S : StateCalls σ γ ρ) (init : σ) (U : Set Block) (bc : Blockchain) (bHash : Hash)
    (plan : SnapshotPlan γ) : Prop where
  hash : plan.block.hash = bHash
  apply : ∃ l, bc.IsChain (plan.toApply.reverse ++ plan.parent :: l) ∧
    (plan.toApply.reverse ++ plan.parent :: l).head? = some plan.block
  revert : plan.parent.height ≤ plan.stateBlock.height → ∃ l, bc.IsChain (plan.toRevert ++ plan.parent :: l) ∧
    (plan.toRevert ++ plan.parent :: l).head? = some plan.stateBlock
  state : StateOf S init U plan.stateBlock.hash plan.state.state

/-- **What `GetClosestState` returns** is restored from the snapshot of a block of the main fork. -/
theorem getClosestState_ok {ss : StateStore γ ρ} {comp : StateComponents γ}
    (hkeyed : ∀ k x, bc.db k = some x → x.hash = k) (h : ss.getClosestState S bc = .ok comp) :
    ∃ b, bc.getBlockByHash (some comp.blockHash) = .ok b ∧ bc.mainForkMap comp.blockHeight = some b.hash ∧
      b.hash = comp.blockHash ∧ (comp.blockHash, comp.blockHeight) ∈ ss.stored ∧
      ∃ snapshot, ss.db comp.blockHash = some snapshot ∧ S.restore snapshot = .ok comp.state := by
  obtain ⟨best, hclosest, hrest⟩ := except_bind_ok h
  cases best with
  | none => cases hrest
  | some best =>
    obtain ⟨hash, height⟩ := best
    dsimp only at hrest
    cases hdb : ss.db hash with
    | none =>
      rw [hdb] at hrest
      cases hrest
    | some snapshot =>
      rw [hdb] at hrest
      obtain ⟨s, hrestore, hcomp⟩ := except_bind_ok hrest
      obtain rfl := Except.ok.inj hcomp
      obtain ⟨hmem, b, hget, hb⟩ := (closest_spec hclosest).resolve_left (by simp)
      rw [getBlockByHeight] at hget
      cases hmap : bc.mainForkMap height with
      | none =>
        rw [hmap] at hget
        cases hget
      | some k =>
        rw [hmap] at hget
        obtain ⟨-, k', hk, hdbk⟩ := getBlockByHash_ok.1 hget
        obtain rfl : k = b.hash := by rw [Option.some.inj hk, hkeyed k' b hdbk]
        exact ⟨b, hb ▸ hget, rfl, hb, hmem, snapshot, hdb, hrestore⟩

theorem snapshotPlan_spec (hbc : OnMain U n.bc) (hfaithful : Faithful S init U n) {bHash : Hash} {plan : SnapshotPlan γ}
    (h : n.snapshotPlan S bHash = .ok plan) : Planned S init U n.bc bHash plan := by
  obtain ⟨⟨m, ml, mapped, hstanding⟩, -⟩ := hbc
  have hkeyed : ∀ k x, n.bc.db k = some x → x.hash = k := hstanding.sound.keyed
  obtain ⟨block, hblock, h⟩ := except_bind_ok h
  obtain ⟨state, hstate, h⟩ := except_bind_ok h
  obtain ⟨stateBlock, hstateBlock, h⟩ := except_bind_ok h
  obtain ⟨⟨toApply, parent⟩, happly, h⟩ := except_bind_ok h
  obtain ⟨toRevert, hrevert, h⟩ := except_bind_ok h
  obtain rfl := Except.ok.inj h
  obtain ⟨-, k, hk, hdb⟩ := getBlockByHash_ok.1 hblock
  have hhash : block.hash = bHash := (hkeyed k block hdb).trans (Option.some.inj hk).symm
  have hstored : n.bc.Stored block := by rw [Stored, hkeyed k block hdb, hdb]
  -- the chain of the block meets the main fork
  obtain ⟨lb, hlb⟩ := hstanding.sound.rooted block hstored
  obtain ⟨P, s, hsplit, hP, hs⟩ := hstanding.split_chain hlb
  obtain ⟨b, hb, hmapb, hbhash, hmem, snapshot, hsnapshot, hrestore⟩ := getClosestState_ok hkeyed hstate
  obtain rfl : b = stateBlock := Except.ok.inj (hb.symm.trans hstateBlock)
  obtain ⟨-, k', -, hdb'⟩ := getBlockByHash_ok.1 hb
  have hstoredb : n.bc.Stored b := by rw [Stored, hkeyed k' b hdb', hdb']
  obtain ⟨x, hx, hxheight⟩ := hstanding.map.2 _ _ hmapb
  have hmapped : n.bc.IsChain mapped := hstanding.mapChain.resolve_left (List.ne_nil_of_mem hx)
  have hbmem : b ∈ mapped := by
    have hxhash := hstanding.map.1 x hx
    rw [hxheight, hmapb] at hxhash
    exact hstoredb.eq_of_hash (hmapped.stored x hx) (Option.some.inj hxhash) ▸ hx
  obtain ⟨r₀, hr₀⟩ := LinkTree.Branch.exists_root hmapped
  have hs₀ : s ≠ [] := by
    rintro rfl
    have hroot : r₀ ∈ P := by
      rw [List.append_nil] at hsplit
      exact hsplit ▸ LinkTree.Branch.root_mem hr₀ hlb
    exact hP r₀ hroot ((hstanding.isInMainFork_iff hr₀.2.1).2 (LinkTree.Branch.root_mem hr₀ hmapped))
  obtain ⟨p, s, rfl⟩ := List.exists_cons_of_ne_nil hs₀
  have hp : n.bc.isInMainFork p = true := hs p (by simp)
  have hchain : n.bc.IsChain (P ++ p :: s) := hsplit ▸ hlb
  have hhead : (P ++ p :: s).head? = some block := by rw [← hsplit]; rfl
  rw [blocksToApply_spec hp hchain hhead hP (by omega)] at happly
  obtain ⟨rfl, rfl⟩ := Prod.mk.inj (Except.ok.inj happly)
  refine ⟨hhash, ⟨s, by simpa using hchain, by simpa using hhead⟩, fun hle => ?_, ?_⟩
  · have hle : p.height ≤ b.height := hle
    have hpmem : p ∈ mapped := (hstanding.isInMainFork_iff (hchain.stored p (by simp))).1 hp
    obtain ⟨r₁, t, hr₁⟩ := List.append_of_mem hbmem
    have hsuffix : n.bc.IsChain (b :: t) := (hr₁ ▸ hmapped).suffix
    have hpt : p ∈ b :: t := by
      rw [hr₁] at hpmem
      refine (List.mem_append.1 hpmem).resolve_left fun hpr => ?_
      have hlt : b.height < p.height := LinkTree.Branch.level_lt_of_append (hr₁ ▸ hmapped) p hpr
      omega
    obtain ⟨r, s', hr⟩ := List.append_of_mem hpt
    have hchainb : n.bc.IsChain (r ++ p :: s') := hr ▸ hsuffix
    have hheight := height_append hchainb b (by rw [← hr]; rfl)
    have hmap : ∀ y ∈ r, n.bc.mainForkMap y.height = some y.hash := by
      intro y hy
      refine hstanding.map.1 y ?_
      rw [hr₁, hr]
      simp [hy]
    have hlength : (b.height - p.height).toNat = r.length := by omega
    rw [hlength, blocksToRevert_spec hstanding.nonempty hchainb hmap] at hrevert
    obtain rfl := Except.ok.inj hrevert
    exact ⟨s', hchainb, by rw [← hr]; rfl⟩
  · rw [hbhash]
    exact hfaithful _ _ hmem _ hsnapshot _ hrestore

/-! ## One generation -/

theorem StateOf.of_hash (hU : Set.InjOn Block.hash U) {g : γ} (hx : x ∈ U) (h : StateOf S init U x.hash g) :
    ∃ l s, (∀ y ∈ x :: l, y ∈ U) ∧ Replayed S.toComponents init (x :: l) s ∧ S.comp s = g := by
  obtain ⟨x', l, s, hhash, hmem, hs, hg⟩ := h
  obtain rfl : x' = x := hU (hmem x' (by simp)) hx hhash
  exact ⟨l, s, hmem, hs, hg⟩

/-- **A generation that goes well gives the state of its block.** -/
theorem GenerationSound.stateOf (hU : Set.InjOn Block.hash U) (hbc : OnMain U n.bc) {bHash : Hash} {plan : SnapshotPlan γ}
    (hplan : Planned S init U n.bc bHash plan) (hsound : GenerationSound S init n plan)
    (h : (do revertBlocks S n.bc plan.toRevert
             Call.each (S.cached.replay n.bc) plan.toApply : Call σ Err Unit) (S.withComp n.state plan.state.state) = (.ok (), s')) :
    StateOf S init U bHash (S.comp s') := by
  obtain ⟨_, s, hrevert, happly⟩ := bind_ok h
  obtain ⟨lr, hchain, hhead⟩ := hplan.revert hsound.above
  obtain ⟨la, hchain', hhead'⟩ := hplan.apply
  have hstored : plan.stateBlock ∈ U :=
    hbc.2 _ (hchain.stored _ (List.mem_of_mem_head? hhead))
  -- the stored state is that of the chain of its block
  obtain ⟨l, t, hmem, ht, htcomp⟩ := StateOf.of_hash hU hstored hplan.state
  obtain ⟨q, lq, hq⟩ := List.exists_cons_of_ne_nil (show plan.toRevert ++ plan.parent :: lr ≠ [] by simp)
  obtain rfl : q = plan.stateBlock := by
    rw [hq] at hhead
    exact Option.some.inj hhead
  obtain rfl := ht.chain_unique hU hmem (hq ▸ hchain) fun y hy => hbc.2 _ (hchain.stored y (hq ▸ hy))
  rw [← hq] at ht
  -- the blocks above the fork are undone
  have hparent : ∃ t, Replayed S.toComponents init (plan.parent :: lr) t ∧ S.comp t = S.comp s := by
    by_cases hnil : plan.toRevert = []
    · rw [hnil] at hrevert ht
      obtain rfl := congrArg Prod.snd hrevert
      exact ⟨t, ht, htcomp.trans (S.comp_withComp _ _).symm⟩
    · exact hsound.undone lr t s hnil ht htcomp hrevert
  obtain ⟨t₁, ht₁, hcomp₁⟩ := hparent
  obtain ⟨hresult, hcomp⟩ := hsound.alike lr s t₁ hrevert ht₁ hcomp₁
  rw [happly] at hresult hcomp
  rcases heach : Call.each (S.replay n.bc) plan.toApply t₁ with ⟨e | u, t'⟩
  · rw [heach] at hresult
    cases hresult
  · rw [heach] at hcomp
    have hla : n.bc.IsChain (plan.parent :: la) := LinkTree.Branch.suffix hchain'
    have hlr : n.bc.IsChain (plan.parent :: lr) := LinkTree.Branch.suffix hchain
    obtain rfl := LinkTree.Branch.unique hla hlr
    have hsteps := each_ok heach
    rw [← List.reverse_reverse plan.toApply] at hsteps
    have ht' := ht₁.apply hchain' hsteps
    obtain ⟨c, lc, hc⟩ := List.exists_cons_of_ne_nil (show plan.toApply.reverse ++ plan.parent :: la ≠ [] by simp)
    obtain rfl : c = plan.block := by
      rw [hc] at hhead'
      exact Option.some.inj hhead'
    rw [hc] at ht'
    exact ⟨plan.block, lc, t', hplan.hash, fun y hy => hbc.2 _ (hchain'.stored y (hc ▸ hy)), ht', hcomp.symm⟩

theorem mem_cacheStateComp {ss : StateStore γ ρ} {new comp : StateComponents γ}
    (h : comp ∈ (ss.cacheStateComp new).cachedComp) : comp ∈ ss.cachedComp ∨ comp = new := by
  rcases List.mem_append.1 h with h | h
  · split_ifs at h
    · exact .inl (List.mem_of_mem_drop h)
    · exact .inl h
  · exact .inr (List.mem_singleton.1 h)

/-- What a call that touches the cache keeps. -/
structure Kept (S : StateCalls σ γ ρ) (init : σ) (U : Set Block) (n n' : StoreNode σ γ ρ) : Prop where
  bc : n'.bc = n.bc
  faithful : Faithful S init U n'
  coherent : Coherent S init U n'

theorem generateStateSnapshot_kept (hU : Set.InjOn Block.hash U) (hbc : OnMain U n.bc) (hfaithful : Faithful S init U n)
    (hcoherent : Coherent S init U n) {bHash : Hash} (hsound : GenerateSound S init n bHash) :
    Kept S init U n (generateStateSnapshot S bHash n).2 := by
  unfold generateStateSnapshot
  cases hplan : n.snapshotPlan S bHash with
  | error e => exact ⟨rfl, hfaithful, hcoherent⟩
  | ok plan =>
    dsimp only [onOther]
    rcases hchange : (do revertBlocks S n.bc plan.toRevert
                         Call.each (S.cached.replay n.bc) plan.toApply : Call σ Err Unit)
        (S.withComp n.state plan.state.state) with ⟨e | u, s'⟩
    · exact ⟨rfl, hfaithful, hcoherent⟩
    · refine ⟨rfl, hfaithful, fun comp hcomp => ?_⟩
      rcases mem_cacheStateComp hcomp with hcomp | rfl
      · exact hcoherent comp hcomp
      · exact (hsound plan hplan).stateOf hU hbc (snapshotPlan_spec hbc hfaithful hplan) hchange

/-! ## One validation -/

theorem putBlockState_kept (hfaithful : Faithful S init U n) (hcoherent : Coherent S init U n)
    (hsound : PersistSound S init U n) : Kept S init U n (putBlockState S n).2 := by
  unfold putBlockState
  cases htail : n.bc.getMainTail with
  | none => exact ⟨rfl, hfaithful, hcoherent⟩
  | some tail =>
    dsimp only
    cases n.bc.getBlockByHash (some tail.hash) with
    | error e => exact ⟨rfl, hfaithful, hcoherent⟩
    | ok b =>
      dsimp only [StateStore.persistBlockState]
      split_ifs with hdb
      · exact ⟨rfl, hfaithful, hcoherent⟩
      · refine ⟨rfl, fun hash height hmem snapshot hsnapshot g hg => ?_, hcoherent⟩
        have hsnapshot : Function.update n.store.db tail.hash (some (S.snapshot (S.comp n.state))) hash = some snapshot :=
          hsnapshot
        by_cases hhash : hash = tail.hash
        · subst hhash
          rw [Function.update_self] at hsnapshot
          obtain rfl := Option.some.inj hsnapshot
          rw [hsound.restore g hg]
          exact hsound.state tail htail
        · rw [Function.update_of_ne hhash] at hsnapshot
          refine hfaithful hash height ((List.mem_cons.1 hmem).resolve_left fun h => ?_) snapshot hsnapshot g hg
          exact hhash (congrArg Prod.fst h)

theorem ignoreError_snd {τ : Type} (c : Call τ Err Unit) (t : τ) : (ignoreError c t).2 = (c t).2 := by
  unfold ignoreError
  rcases hc : c t with ⟨e | _, t'⟩
  · rw [tryCatch_of_error hc]
    cases e <;> rfl
  · rw [tryCatch_of_ok hc]

theorem find_spec {ss : StateStore γ ρ} {hash : Hash} {i : ℕ} (h : ss.find hash = some i) :
    ∃ comp, ss.cachedComp[i]? = some comp ∧ comp.blockHash = hash := by
  obtain ⟨hi, hhash, -⟩ := List.findIdx?_eq_some_iff_getElem.1 h
  exact ⟨_, List.getElem?_eq_getElem hi, of_decide_eq_true hhash⟩

/-- **The component returned** is labelled with the block. -/
theorem getStateForBlockValidation_kept (hU : Set.InjOn Block.hash U) (hbc : OnMain U n.bc) (hfaithful : Faithful S init U n)
    (hcoherent : Coherent S init U n) (hpersist : n.store.find p.hash = none → PersistSound S init U n)
    (hgenerate : n.store.find p.hash = none → ∀ n₁, putBlockState S n = (.ok (), n₁) → GenerateSound S init n₁ p.hash)
    {res : Except Err ℕ} {n' : StoreNode σ γ ρ} (h : getStateForBlockValidation S p n = (res, n')) :
    Kept S init U n n' ∧ ∀ i, res = .ok i → ∃ comp, n'.store.cachedComp[i]? = some comp ∧ comp.blockHash = p.hash := by
  have hget : (get : Call (StoreNode σ γ ρ) Err _) n = (.ok n, n) := rfl
  rw [getStateForBlockValidation, bind_of_ok hget] at h
  cases hfind : n.store.find p.hash with
  | some i =>
    rw [hfind] at h
    cases h
    refine ⟨⟨rfl, hfaithful, hcoherent⟩, fun j hj => ?_⟩
    obtain rfl := Except.ok.inj hj
    exact find_spec hfind
  | none =>
    rw [hfind] at h
    dsimp only at h
    have hput := putBlockState_kept hfaithful hcoherent (hpersist hfind)
    rcases hputs : putBlockState S n with ⟨e | _, n₁⟩
    · rw [bind_of_error hputs] at h
      cases h
      rw [hputs] at hput
      exact ⟨hput, fun i hi => by cases hi⟩
    · rw [bind_of_ok hputs] at h
      rw [hputs] at hput
      obtain ⟨hbc₁, hfaithful₁, hcoherent₁⟩ := hput
      dsimp only at hbc₁ hfaithful₁ hcoherent₁
      have hgen := generateStateSnapshot_kept hU (hbc₁ ▸ hbc) hfaithful₁ hcoherent₁ (hgenerate hfind n₁ hputs)
      rw [← ignoreError_snd] at hgen
      rcases hgens : ignoreError (generateStateSnapshot S p.hash) n₁ with ⟨e | _, n₂⟩
      · rw [bind_of_error hgens] at h
        cases h
        rw [hgens] at hgen
        exact ⟨⟨hgen.bc.trans hbc₁, hgen.faithful, hgen.coherent⟩, fun i hi => by cases hi⟩
      · rw [bind_of_ok hgens] at h
        rw [hgens] at hgen
        have hget₂ : (get : Call (StoreNode σ γ ρ) Err _) n₂ = (.ok n₂, n₂) := rfl
        rw [bind_of_ok hget₂] at h
        have hkept : Kept S init U n n₂ := ⟨hgen.bc.trans hbc₁, hgen.faithful, hgen.coherent⟩
        cases hfind₂ : n₂.store.find p.hash with
        | none =>
          rw [hfind₂] at h
          cases h
          exact ⟨hkept, fun i hi => by cases hi⟩
        | some i =>
          rw [hfind₂] at h
          cases h
          refine ⟨hkept, fun j hj => ?_⟩
          obtain rfl := Except.ok.inj hj
          exact find_spec hfind₂

/-- **A validation either leaves the component of the parent as it is, or makes it that of
    the block.** -/
theorem ValidationSound.spec {getEpochNum : Block → Int32} {b : Block}
    (hsound : ValidationSound S init getEpochNum bc b p s) (hparent : bc.getBlockByHash b.parentHash = .ok p)
    {res : Except Err Unit} (h : validateForNonMainTail (S.cached.services bc) getEpochNum bc b s = (res, s')) :
    match res with
    | .error _ => S.comp s' = S.comp s
    | .ok _ => S.cached.replay bc b s = (.ok (), s') := by
  obtain ⟨s₁, hupdate⟩ := hsound.updateDpos
  have hget : (get : Call σ Err _) s = (.ok s, s) := rfl
  have htry : (S.cached.services bc).updateDpos b s = (.ok (), s₁) := hupdate
  have hstarted : (S.cached.services bc).hasStarted s = false := hsound.notStarted
  rw [validateForNonMainTail, bind_of_ok hget] at h
  dsimp only at h
  rw [if_pos hstarted, bind_of_ok (tryCatch_of_ok htry), hparent] at h
  dsimp only at h
  set check : Call σ Err Unit := (do
    let _ ← checkDigest (S.cached.services bc) getEpochNum b (pure false) false p.height
    S.cached.validateMinerSlot bc b) with hcheck
  have hassoc : (do
      let _ ← checkDigest (S.cached.services bc) getEpochNum b (pure false) false p.height
      S.cached.validateMinerSlot bc b
      S.cached.checkAndUpdateWalletStates b : Call σ Err Unit) s₁ = (check >>= fun _ => S.cached.checkAndUpdateWalletStates b) s₁ := by
    rw [hcheck, bind_bind]
  replace h := hassoc.symm.trans h
  rcases hc : check s₁ with ⟨e | _, s₂⟩
  · rw [bind_of_error hc] at h
    cases h
    exact hsound.failedCheck s₁ s' e hupdate hc
  · rw [bind_of_ok hc] at h
    rw [hsound.passedCheck s₁ s₂ hupdate hc] at h
    rcases hw : S.cached.checkAndUpdateWalletStates b s₁ with ⟨e | _, s₃⟩
    · rw [hw] at h
      cases h
      exact hsound.failedWallets s₁ s' e hupdate hw
    · rw [hw] at h
      cases h
      exact (bind_of_ok hupdate).trans hw

theorem onComponent_eq {c : Call σ Err Unit} {i : ℕ} {comp : StateComponents γ} {res : Except Err Unit}
    (hi : n.store.cachedComp[i]? = some comp) (hc : c (S.withComp n.state comp.state) = (res, s')) :
    onComponent S i c n = (res, { n with
      state := S.withComp s' (S.comp n.state)
      store := { n.store with cachedComp := n.store.cachedComp.set i { comp with state := S.comp s' } } }) := by
  unfold onComponent
  rw [hi]
  dsimp only [onOther]
  rw [hc]

theorem modify_set {α : Type} (f : α → α) (a : α) : ∀ (l : List α) (i : ℕ), (l.set i a).modify i f = l.set i (f a)
  | [], i => by cases i <;> rfl
  | _ :: _, 0 => rfl
  | x :: l, i + 1 => congrArg (x :: ·) (modify_set f a l i)

theorem validateSideBlock_eq {getEpochNum : Block → Int32} {b : Block} (hparent : n.bc.getBlockByHash b.parentHash = .ok p) :
    validateSideBlock S getEpochNum b n = (do
      let i ← getStateForBlockValidation S p
      onComponent S i (validateForNonMainTail (S.cached.services n.bc) getEpochNum n.bc b)
      modify (updateStateComp i b.hash b.height) : Call (StoreNode σ γ ρ) Err Unit) n := by
  have hget : (get : Call (StoreNode σ γ ρ) Err _) n = (.ok n, n) := rfl
  rw [validateSideBlock, bind_of_ok hget]
  simp only [hparent]

/-- **A validation keeps the cache coherent.** -/
theorem validateSideBlock_kept {getEpochNum : Block → Int32} {b : Block} (hU : Set.InjOn Block.hash U) (hbc : OnMain U n.bc)
    (hfaithful : Faithful S init U n) (hcoherent : Coherent S init U n) (hb : b ∈ U) (happend : n.bc.Appendable b p)
    (hsound : SideSound S init U getEpochNum n b p) : Kept S init U n (validateSideBlock S getEpochNum b n).2 := by
  obtain ⟨⟨m, ml, mapped, hstanding⟩, hmemU⟩ := hbc
  have hparent : n.bc.getBlockByHash b.parentHash = .ok p := by
    rw [happend.child.1, getBlockByHash_stored hstanding.nonempty happend.parent]
  obtain ⟨lp, hlp⟩ := hstanding.sound.rooted p happend.parent
  rw [validateSideBlock_eq hparent]
  rcases hgets : getStateForBlockValidation S p n with ⟨e | i, n₁⟩
  · rw [bind_of_error hgets]
    exact (getStateForBlockValidation_kept hU ⟨⟨m, ml, mapped, hstanding⟩, hmemU⟩ hfaithful hcoherent hsound.persist
      hsound.generation hgets).1
  · rw [bind_of_ok hgets]
    obtain ⟨hkept, hcomp⟩ := getStateForBlockValidation_kept hU ⟨⟨m, ml, mapped, hstanding⟩, hmemU⟩ hfaithful hcoherent
      hsound.persist hsound.generation hgets
    obtain ⟨comp, hi, hhash⟩ := hcomp i rfl
    have hvalidation := hsound.validation i n₁ comp hgets hi
    have hstate : StateOf S init U p.hash comp.state := hhash ▸ hkept.coherent comp (List.mem_of_getElem? hi)
    rcases hvalid : validateForNonMainTail (S.cached.services n.bc) getEpochNum n.bc b (S.withComp n₁.state comp.state)
      with ⟨e | _, s'⟩
    · have hsame : S.comp s' = comp.state := (hvalidation.spec hparent hvalid).trans (S.comp_withComp _ _)
      rw [bind_of_error (onComponent_eq hi hvalid)]
      refine ⟨hkept.bc, hkept.faithful, fun other hother => ?_⟩
      rcases List.mem_or_eq_of_mem_set hother with hother | rfl
      · exact hkept.coherent other hother
      · rw [hsame]
        exact hkept.coherent comp (List.mem_of_getElem? hi)
    · have hreplay : S.cached.replay n.bc b (S.withComp n₁.state comp.state) = (.ok (), s') := hvalidation.spec hparent hvalid
      obtain ⟨l, t, hmem, ht, htcomp⟩ := StateOf.of_hash hU (hmemU p happend.parent) hstate
      obtain rfl := ht.chain_unique hU hmem hlp fun y hy => hmemU y (hlp.stored y hy)
      obtain ⟨hresult, hcomps⟩ := hvalidation.alike l t ht (htcomp.trans (S.comp_withComp _ _).symm)
      rw [hreplay] at hresult hcomps
      rw [bind_of_ok (onComponent_eq hi hvalid)]
      refine ⟨hkept.bc, hkept.faithful, fun other hother => ?_⟩
      have hother : other ∈ (n₁.store.cachedComp.set i { comp with state := S.comp s' }).modify i
        fun comp => { comp with blockHash := b.hash, blockHeight := b.height } := hother
      rw [modify_set] at hother
      rcases List.mem_or_eq_of_mem_set hother with hother | rfl
      · exact hkept.coherent other hother
      · rcases hreplayt : S.replay n.bc b t with ⟨e | _, t'⟩
        · rw [hreplayt] at hresult
          cases hresult
        · rw [hreplayt] at hcomps
          refine ⟨b, p :: l, t', rfl, fun y hy => ?_, .grow ht happend.child hlp hreplayt, hcomps.symm⟩
          rcases List.mem_cons.1 hy with rfl | hy
          · exact hb
          · exact hmem y hy

/-! ## Runs -/

/-- **The cached components stay coherent** in a run whose generations and validations meet
    their conditions. -/
theorem coherent_of_sound {getEpochNum : Block → Int32} (hU : Set.InjOn Block.hash U)
    (h : CacheRun S U getEpochNum (SideSound S init U getEpochNum) (GenerateSound S init) n) : Coherent S init U n := by
  suffices hall : OnMain U n.bc ∧ Faithful S init U n ∧ Coherent S init U n from hall.2.2
  induction h with
  | start n hbc => exact ⟨hbc, fun _ _ hmem => absurd hmem List.not_mem_nil, fun _ hmem => absurd hmem List.not_mem_nil⟩
  | node m _ hbc ih => exact ⟨hbc, ih.2.1, ih.2.2⟩
  | validate _ hb happend hsound ih =>
    have hkept := validateSideBlock_kept hU ih.1 ih.2.1 ih.2.2 hb happend hsound
    exact ⟨hkept.bc ▸ ih.1, hkept.faithful, hkept.coherent⟩
  | generate bHash _ hsound ih =>
    have hkept := generateStateSnapshot_kept hU ih.1 ih.2.1 ih.2.2 hsound
    exact ⟨hkept.bc ▸ ih.1, hkept.faithful, hkept.coherent⟩

/-! ## A main fork of two blocks -/

/-- What a snapshot has of the wallets. -/
structure Contents where
  walletByAddress : Store Address newWallet
  lastChVerificationTime : Store Hash ([] : List Int64)

def contents (wm : WalletManager) : Contents := ⟨wm.walletByAddress, wm.lastChVerificationTime⟩

/-- The manager with other wallets. -/
def withContents (wm : WalletManager) (g : Contents) : WalletManager :=
  { wm with walletByAddress := g.walletByAddress, lastChVerificationTime := g.lastChVerificationTime }

/-- The calls on wallets that have been restored. -/
def restoredComponents (transactions : Hash → List Transaction) : Components WalletManager :=
  { NodeState.walletComponents Env.simple (NodeState.bareBody transactions) MapOrder.sorted with
    applyGenesis b := Detached.applyGenesis restoredRefs Env.simple (NodeState.bareBody transactions b)
    applyBlock b := Detached.applyBlock restoredRefs Env.simple (NodeState.bareBody transactions b) b.minerPublicKey .sorted
    revertWalletStates b :=
      Detached.revertWalletStates restoredRefs Env.simple (NodeState.bareBody transactions b) b.minerPublicKey .sorted }

/-- The wallets and their snapshots, with a DPOS that has nothing against any block. -/
def plainCalls (transactions : Hash → List Transaction) : StateCalls WalletManager Contents WalletStates :=
  { NodeState.walletComponents Env.simple (NodeState.bareBody transactions) MapOrder.sorted with
    cached := restoredComponents transactions
    comp := contents
    withComp := withContents
    comp_withComp := fun _ _ => rfl
    snapshot g := (withContents (newWalletManager "m") g).snapShotWalletsUsingPb .sorted .sorted
    restore snapshot := .ok (contents (WalletManager.newWalletManagerFromPb snapshot "m"))
    revertDposTill := fun _ => pure () }

/-- The block `a` on the genesis block. -/
def plainChain : Blockchain := (Blockchain.init.append forkGenesis).2.grow (forkBlock "a" "g" 1)

/-- The wallets after the genesis block, and after `a`. -/
def plainGenesis (transactions : Hash → List Transaction) : WalletManager :=
  ((plainCalls transactions).replay plainChain forkGenesis (newWalletManager "m")).2

def plainState (transactions : Hash → List Transaction) : WalletManager :=
  ((plainCalls transactions).replay plainChain (forkBlock "a" "g" 1) (plainGenesis transactions)).2

def plainNode (w : WalletManager) : NodeState WalletManager := ⟨plainChain, w, fun _ => none, ∅⟩

/-- The blocks of the chain, and another one. -/
def blocksWith (b : Block) : Set Block := insert b {x | plainChain.Stored x}

theorem isChain_plainChain : plainChain.IsChain [forkBlock "a" "g" 1, forkGenesis] :=
  .grow (by decide) (.root (by decide))

theorem onMain_plainChain (b : Block) : OnMain (blocksWith b) plainChain := by
  have hreached : Reached plainChain := .grow (p := forkGenesis) (.genesis forkGenesis rfl) (by decide) (by decide)
  exact ⟨hreached.standing, fun x hx => Set.mem_insert_of_mem b hx⟩

theorem injOn_blocksWith {b : Block} (hb : plainChain.db b.hash = none) : Set.InjOn Block.hash (blocksWith b) := by
  have hnew : ∀ x, plainChain.Stored x → x.hash ≠ b.hash := by
    intro x hx hhash
    rw [Stored, hhash, hb] at hx
    cases hx
  intro x hx y hy hhash
  rcases hx with rfl | hx <;> rcases hy with rfl | hy
  · rfl
  · exact absurd hhash.symm (hnew y hy)
  · exact absurd hhash (hnew x hx)
  · exact hx.eq_of_hash hy hhash

/-- A replay is a step of a run of the wallets. -/
theorem happens_replay {t : Hash → List Transaction} {bc : Blockchain} {b : Block} {wm wm' : WalletManager}
    (hgenesis : (NodeState.bareBody t b).isGenesis = b.isGenesis)
    (hdigest : (NodeState.bareBody t b).isDigestBlock = b.isDigest)
    (h : (plainCalls t).replay bc b wm = (.ok (), wm')) :
    WalletManager.Happens Env.simple (.block (NodeState.bareBody t b) b.minerPublicKey) wm wm' := by
  have hcalls : (NodeState.walletCalls Env.simple (NodeState.bareBody t) .sorted).checkAndUpdateWalletStates b = _ :=
    NodeState.checkAndUpdateWalletStates_eq hgenesis hdigest
  exact .block .sorted (hcalls ▸ h)

theorem run_plainState {t : Hash → List Transaction}
    (hg : (plainCalls t).replay plainChain forkGenesis (newWalletManager "m") = (.ok (), plainGenesis t))
    (ha : (plainCalls t).replay plainChain (forkBlock "a" "g" 1) (plainGenesis t) = (.ok (), plainState t)) :
    WalletManager.Run Env.simple [.block (NodeState.bareBody t forkGenesis) "m",
      .block (NodeState.bareBody t (forkBlock "a" "g" 1)) "m"] (newWalletManager "m") (plainState t) :=
  .cons (happens_replay rfl rfl hg) (.single (happens_replay rfl rfl ha))

/-- The snapshot of the main tail is exact. -/
theorem restored_plainState {t : Hash → List Transaction} (hme : (plainState t).myAddress = "m")
    (hg : (plainCalls t).replay plainChain forkGenesis (newWalletManager "m") = (.ok (), plainGenesis t))
    (ha : (plainCalls t).replay plainChain (forkBlock "a" "g" 1) (plainGenesis t) = (.ok (), plainState t)) :
    (plainCalls t).restore ((plainCalls t).snapshot (contents (plainState t))) = .ok (contents (plainState t)) := by
  obtain ⟨hwallets, htimes⟩ :=
    (run_plainState hg ha).restores (WalletManager.fresh_newWalletManager "m") .sorted .sorted
  rw [hme] at hwallets htimes
  exact congrArg Except.ok (congrArg₂ Contents.mk hwallets htimes)

/-- The node has the state of its main tail. -/
theorem persistSound_plainNode {t : Hash → List Transaction} (b : Block) (hme : (plainState t).myAddress = "m")
    (hg : (plainCalls t).replay plainChain forkGenesis (newWalletManager "m") = (.ok (), plainGenesis t))
    (ha : (plainCalls t).replay plainChain (forkBlock "a" "g" 1) (plainGenesis t) = (.ok (), plainState t)) :
    PersistSound (plainCalls t) (newWalletManager "m") (blocksWith b)
      { plainNode (plainState t) with store := .empty } := by
  refine ⟨fun tail htail => ?_, fun g hrestored => ?_⟩
  · obtain rfl : forkBlock "a" "g" 1 = tail := Option.some.inj htail
    exact ⟨forkBlock "a" "g" 1, [forkGenesis], plainState t, rfl,
      fun y hy => Set.mem_insert_of_mem _ (isChain_plainChain.stored y hy),
      .grow (.genesis rfl hg) (by decide) (.root (by decide)) ha, rfl⟩
  · exact Except.ok.inj (hrestored.symm.trans (restored_plainState hme hg ha))

/-- The genesis block replays to one state only. -/
theorem replayed_genesis {t : Hash → List Transaction} {l : List Block} {s : WalletManager}
    (h : Replayed (plainCalls t).toComponents (newWalletManager "m") (forkGenesis :: l) s) : s = plainGenesis t := by
  cases h with
  | genesis _ hreplay => exact (congrArg Prod.snd hreplay).symm
  | grow hp hparent _ _ =>
    have h₀ := hp.height_nonneg _ List.mem_cons_self
    have h₁ := hparent.2
    have h₂ : forkGenesis.height = 0 := rfl
    omega

/-! ## A block that is validated on the genesis block -/

/-- Blocks without transactions. -/
def noTransactions : Hash → List Transaction := fun _ => []

theorem replay_genesis : (plainCalls noTransactions).replay plainChain forkGenesis (newWalletManager "m") =
    (.ok (), plainGenesis noTransactions) := ok_of_fst (by decide)

theorem replay_block : (plainCalls noTransactions).replay plainChain (forkBlock "a" "g" 1) (plainGenesis noTransactions) =
    (.ok (), plainState noTransactions) := ok_of_fst (by decide)

theorem restored_noTransactions : (plainCalls noTransactions).restore
    ((plainCalls noTransactions).snapshot (contents (plainState noTransactions))) =
      .ok (contents (plainState noTransactions)) :=
  restored_plainState (by decide) replay_genesis replay_block

/-- The store with the snapshot of the main tail. -/
def persisted : StateStore Contents WalletStates where
  stored := [("a", 1)]
  db := Function.update (fun _ => none) "a" (some ((plainCalls noTransactions).snapshot (contents (plainState noTransactions))))
  cachedComp := []

def persistedNode : StoreNode WalletManager Contents WalletStates :=
  { plainNode (plainState noTransactions) with store := persisted }

theorem snapshotPlan_persistedNode : snapshotPlan (plainCalls noTransactions) persistedNode "g" =
    .ok ⟨forkGenesis, ⟨"a", 1, contents (plainState noTransactions)⟩, forkBlock "a" "g" 1, forkGenesis, [],
      [forkBlock "a" "g" 1]⟩ := by
  have hplan : snapshotPlan (plainCalls noTransactions) persistedNode "g" =
      ((plainCalls noTransactions).restore ((plainCalls noTransactions).snapshot (contents (plainState noTransactions)))).map
        fun g => ⟨forkGenesis, ⟨"a", 1, g⟩, forkBlock "a" "g" 1, forkGenesis, [], [forkBlock "a" "g" 1]⟩ := rfl
  rw [hplan, restored_noTransactions]
  rfl

/-- The wallets of the genesis block after the reversal of `a`. -/
def reverted : WalletManager :=
  (Detached.revertWalletStates restoredRefs Env.simple (NodeState.bareBody noTransactions (forkBlock "a" "g" 1)) "m" .sorted
    (plainState noTransactions)).2

theorem contents_reverted : contents reverted = contents (plainGenesis noTransactions) := by
  have hkeys : reverted.keys = {"m"} ∧ (plainGenesis noTransactions).keys = {"m"} := by decide
  refine congrArg₂ Contents.mk (Store.ext (hkeys.1.trans hkeys.2.symm) (funext fun a => ?_)) rfl
  by_cases ha : a = "m"
  · subst ha
    rfl
  · have habsent : ∀ wm : WalletManager, wm.keys = {"m"} → wm.walletByAddress.get a = newWallet := fun wm h =>
      wm.walletByAddress.get_absent a fun hmem => ha (Finset.mem_singleton.1 (h ▸ hmem))
    rw [habsent _ hkeys.1, habsent _ hkeys.2]

theorem generateSound_persistedNode :
    GenerateSound (plainCalls noTransactions) (newWalletManager "m") persistedNode "g" := by
  intro plan hplan
  rw [snapshotPlan_persistedNode] at hplan
  obtain rfl := Except.ok.inj hplan
  refine ⟨by decide, fun l s s' _ hs _ hrevert => ?_, fun l s t _ _ hcomp => ⟨rfl, hcomp.symm⟩⟩
  obtain rfl : reverted = s' := congrArg Prod.snd hrevert
  cases hs with
  | grow hgenesis _ _ _ =>
    refine ⟨_, hgenesis, ?_⟩
    rw [replayed_genesis hgenesis]
    exact contents_reverted.symm

/-- The node after the state of the genesis block has been generated. -/
def generatedNode : StoreNode WalletManager Contents WalletStates :=
  { plainNode (plainState noTransactions) with store := { persisted with cachedComp := [⟨"g", 0, contents reverted⟩] } }

theorem getState_plainNode : getStateForBlockValidation (plainCalls noTransactions) forkGenesis
    { plainNode (plainState noTransactions) with store := .empty } = (.ok 0, generatedNode) := by
  have hget : getStateForBlockValidation (plainCalls noTransactions) forkGenesis
      { plainNode (plainState noTransactions) with store := .empty } = (do
        ignoreError (generateStateSnapshot (plainCalls noTransactions) "g")
        match (← get).store.find "g" with
        | none => throw (.error "Failed to generate state")
        | some i => return i : Call (StoreNode WalletManager Contents WalletStates) Err ℕ) persistedNode := rfl
  have hgenerate : generateStateSnapshot (plainCalls noTransactions) "g" persistedNode = (.ok (), generatedNode) := by
    unfold generateStateSnapshot
    rw [snapshotPlan_persistedNode]
    rfl
  have hignored : ignoreError (generateStateSnapshot (plainCalls noTransactions) "g") persistedNode =
      (.ok (), generatedNode) := tryCatch_of_ok hgenerate
  exact hget.trans (bind_of_ok hignored)

/-- The cached component of the genesis block, on the node. -/
theorem withContents_reverted : withContents (plainState noTransactions) (contents reverted) = plainGenesis noTransactions := by
  rw [contents_reverted]
  rfl

theorem validationSound_plainNode : ValidationSound (plainCalls noTransactions) (newWalletManager "m") (fun _ => 0)
    plainChain (forkBlock "b" "g" 1) forkGenesis (plainGenesis noTransactions) := by
  have hwallets : ((plainCalls noTransactions).cached.checkAndUpdateWalletStates (forkBlock "b" "g" 1)
      (plainGenesis noTransactions)).1 = .ok () := by decide
  refine ⟨rfl, ⟨_, rfl⟩, fun s₁ s₂ e _ hcheck => ?_, fun s₁ s₂ _ hcheck => ?_, fun s₁ s₂ e hupdate hfail => ?_,
    fun l t ht _ => ?_⟩
  · cases hcheck
  · cases hcheck
    rfl
  · obtain rfl : plainGenesis noTransactions = s₁ := congrArg Prod.snd hupdate
    rw [hfail] at hwallets
    cases hwallets
  · rw [replayed_genesis ht]
    exact ⟨rfl, rfl⟩

theorem sideSound_plainNode : SideSound (plainCalls noTransactions) (newWalletManager "m") (blocksWith (forkBlock "b" "g" 1))
    (fun _ => 0) { plainNode (plainState noTransactions) with store := .empty } (forkBlock "b" "g" 1) forkGenesis := by
  refine ⟨fun _ => persistSound_plainNode _ (by decide) replay_genesis replay_block, fun _ n₁ hput => ?_,
    fun i n₁ comp hgets hi => ?_⟩
  · obtain rfl : persistedNode = n₁ := congrArg Prod.snd hput
    exact generateSound_persistedNode
  · rw [getState_plainNode] at hgets
    cases hgets
    obtain rfl := Option.some.inj hi
    have hsound := validationSound_plainNode
    rw [← withContents_reverted] at hsound
    exact hsound

/-- The block `b` is validated on the genesis block, from which `a` has been taken back. -/
theorem coherent_of_sound_fork : Coherent (plainCalls noTransactions) (newWalletManager "m")
    (blocksWith (forkBlock "b" "g" 1)) (validateSideBlock (plainCalls noTransactions) (fun _ => 0) (forkBlock "b" "g" 1)
      { plainNode (plainState noTransactions) with store := .empty }).2 :=
  coherent_of_sound (injOn_blocksWith (by decide))
    (.validate (.start (plainNode _) (onMain_plainChain _)) (Set.mem_insert _ _) (by decide) sideSound_plainNode)

/-! ## A validation that fails -/

/-- The block `b` on the genesis block has a transfer with a nonce that is too high. -/
def wrongTransactions : Hash → List Transaction
  | "b" => [.simple .transfer "a" 2 7 "c" ""]
  | _ => []

/-- The node after the validation of `b`. -/
def wrongNode : StoreNode WalletManager Contents WalletStates :=
  (validateSideBlock (plainCalls wrongTransactions) (fun _ => 0) (forkBlock "b" "g" 1)
    { plainNode (plainState wrongTransactions) with store := .empty }).2

/-- The failed validation of `b` has changed the component of the genesis block. -/
theorem not_coherent : ¬ ∀ (S : StateCalls WalletManager Contents WalletStates) (init : WalletManager)
    (U : Set Block) (getEpochNum : Block → Int32) (n : StoreNode WalletManager Contents WalletStates),
    Set.InjOn Block.hash U →
    CacheRun S U getEpochNum (fun n _ p => n.bc.getMainTail ≠ some p ∧ PersistSound S init U n) (fun _ _ => True) n →
    Coherent S init U n := by
  intro h
  have hpersist := persistSound_plainNode (t := wrongTransactions) (forkBlock "b" "g" 1) (by decide)
    (ok_of_fst (by decide)) (ok_of_fst (by decide))
  have hcoherent := h (plainCalls wrongTransactions) (newWalletManager "m") (blocksWith (forkBlock "b" "g" 1))
    (fun _ => 0) wrongNode (injOn_blocksWith (by decide))
    (.validate (p := forkGenesis) (.start (plainNode _) (onMain_plainChain _)) (Set.mem_insert _ _) (by decide)
      ⟨by decide, hpersist⟩)
  have hcached : wrongNode.store.cachedComp.map (fun comp => (comp.blockHash, (comp.state.walletByAddress.get "m").balance)) =
      [("g", 10000010)] := by decide +kernel
  obtain ⟨comp, hcomp, hlabel⟩ := List.mem_map.1 (hcached ▸ List.mem_singleton_self _)
  obtain ⟨hhash, hbalance⟩ := Prod.mk.inj hlabel
  obtain ⟨l, s, -, hs, hsame⟩ := StateOf.of_hash (x := forkGenesis) (injOn_blocksWith (by decide))
    (Set.mem_insert_of_mem _ (by decide)) (hhash ▸ hcoherent comp hcomp)
  have hgenesis : ((plainGenesis wrongTransactions).wallet "m").balance = 10000005 := by decide
  have hwallets : s.walletByAddress = comp.state.walletByAddress := congrArg Contents.walletByAddress hsame
  rw [← replayed_genesis hs, WalletManager.wallet, hwallets, hbalance] at hgenesis
  revert hgenesis
  decide

end StoreNode

end Timbre
