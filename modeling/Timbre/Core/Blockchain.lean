/-
  The blockchain: the stored blocks, the tails of the forks, the choice of the main tail,
  and the irreversible block number.

  The database bucket and the main-fork map are partial functions.  A walk along parent
  links has as much fuel as the height it starts from allows; `ForkChoice` and `Finality`
  prove that this is enough on the blocks that the syncer accepts.
-/
import Mathlib.Logic.Function.Basic
import Mathlib.Data.List.Basic
import Mathlib.Data.List.Dedup
import Timbre.Core.Types

namespace Timbre

/-- A block hash. -/
abbrev Hash := String

/-- The header of a block, as far as the choice of the fork looks at it.  `isDigest` says
    whether account states are appended to the block. -/
structure Block where
  hash : Hash
  parentHash : Option Hash
  height : ℤ
  minerPublicKey : Address
  isDigest : Bool
deriving DecidableEq, Repr, Inhabited

namespace Block

def isGenesis (b : Block) : Bool := b.height = 0

/-- `IsValidParentOf`. -/
def isValidParentOf (b child : Block) : Prop :=
  child.parentHash = some b.hash ∧ b.height = child.height - 1

end Block

structure Blockchain where
  db : Hash → Option Block
  genesis : Option Block
  mainTailIndex : ℤ
  tails : List Block
  forkLengths : List ℤ
  mainForkMap : ℤ → Option Hash
  irreversibleBlock : ℤ
  last2by3MinedCommitteeMembers : List Address

namespace Blockchain

/-- `InitBlockchain`. -/
def init : Blockchain where
  db := fun _ => none
  genesis := none
  mainTailIndex := -1
  tails := []
  forkLengths := [0]
  mainForkMap := fun _ => none
  irreversibleBlock := 0
  last2by3MinedCommitteeMembers := []

/-! ## Lookups -/

def isEmpty (bc : Blockchain) : Bool := bc.genesis.isNone

def getBlockByHash (bc : Blockchain) (hash : Option Hash) : Except Err Block :=
  if bc.isEmpty then .error (.error "BlockChain Not Initilized")
  else match hash.bind bc.db with
    | none => .error (.error "get error - key does not exist")
    | some b => .ok b

def getBlockByHeight (bc : Blockchain) (height : ℤ) : Except Err Block :=
  match bc.mainForkMap height with
  | none => .error (.error "Block for height does not exist in main fork map")
  | some hash => bc.getBlockByHash (some hash)

/-- `tails[i]`, for an index that may be -1. -/
def tailAt (bc : Blockchain) (i : ℤ) : Option Block := if i < 0 then none else bc.tails[i.toNat]?

/-- `GetMainTail`: nil before the genesis block. -/
def getMainTail (bc : Blockchain) : Option Block := bc.tailAt bc.mainTailIndex

def length (bc : Blockchain) : ℤ :=
  if bc.isEmpty then 0 else bc.forkLengths.getD bc.mainTailIndex.toNat 0

def isInMainFork (bc : Blockchain) (b : Block) : Bool := bc.mainForkMap b.height = some b.hash

/-- `indexInTails`: the first tail with the block's hash. -/
def indexInTails (bc : Blockchain) (b : Block) : Option ℕ := bc.tails.findIdx? (·.hash = b.hash)

def canBootstrapFromEpoch (bc : Blockchain) (b : Block) : Bool :=
  b.isDigest && !(bc.getBlockByHash b.parentHash).isOk && !(bc.getBlockByHeight (b.height - 1)).isOk

/-! ## Appending a block -/

/-- `putBlock`: a stored block is not overwritten. -/
def putBlock (bc : Blockchain) (b : Block) : Except Err Blockchain :=
  if (bc.db b.hash).isSome then .error (.error "put error - key already exists")
  else .ok { bc with db := Function.update bc.db b.hash (some b) }

/-- `Append`: the error, if any, and the chain it leaves. -/
def append (bc : Blockchain) (block : Block) : Option Err × Blockchain :=
  if block.isGenesis ∧ (block.parentHash = none ∨ bc.isEmpty) then
    let bc := { bc with
      genesis := some block
      tails := bc.tails ++ [block]
      mainTailIndex := 0 }
    match bc.putBlock block with
    | .error e => (some e, bc)
    | .ok bc => (none, bc)
  else
    let parent := bc.getBlockByHash block.parentHash
    match parent, bc.canBootstrapFromEpoch block with
    | .error e, false => (some e, bc)
    | _, _ =>
      match bc.putBlock block with
      | .error e => (some e, bc)
      | .ok bc =>
        let parentTailIndex : ℤ := match parent with
          | .error _ => -1
          | .ok p => (bc.indexInTails p).elim (-1) fun i => i
        let parentTailIndex :=
          if parentTailIndex = -1 ∧ bc.canBootstrapFromEpoch block then bc.mainTailIndex
          else parentTailIndex
        let newForkLength := block.height
        let bc :=
          if parentTailIndex = -1 then
            { bc with
              tails := bc.tails ++ [block]
              forkLengths := bc.forkLengths ++ [newForkLength] }
          else
            { bc with
              tails := bc.tails.set parentTailIndex.toNat block
              forkLengths := bc.forkLengths.set parentTailIndex.toNat newForkLength }
        if block.isGenesis ∧ block.parentHash ≠ none then
          (none, { bc with forkLengths := bc.forkLengths.map fun _ => 0 })
        else (none, bc)

/-! ## The choice of the main tail -/

def enterMainFork (bc : Blockchain) (b : Block) : Blockchain :=
  { bc with mainForkMap := Function.update bc.mainForkMap b.height (some b.hash) }

/-- The walk of `updateMainForkMap`. -/
def updateMainForkMapFrom (bc : Blockchain) : ℕ → Block → Blockchain
  | 0, _ => bc
  | fuel + 1, walk =>
    if bc.isInMainFork walk then bc
    else
      let bc := bc.enterMainFork walk
      if walk.parentHash = none then bc
      else match bc.getBlockByHash walk.parentHash with
        | .error _ => bc
        | .ok parent => updateMainForkMapFrom bc fuel parent

/-- `updateMainForkMap`, whose error is not looked at. -/
def updateMainForkMap (bc : Blockchain) (tail : Option Block) : Blockchain :=
  match tail with
  | none => bc
  | some tail => bc.updateMainForkMapFrom (tail.height.toNat + 1) tail

/-- The first loop of `findCommonAncestor`: down to the height of the main tail. -/
def levelWith (bc : Blockchain) (mainTail : Block) : ℕ → Block → Except Err Block
  | 0, _ => .error (.panic "out of fuel")
  | fuel + 1, block =>
    if block.height > mainTail.height then do
      levelWith bc mainTail fuel (← bc.getBlockByHash block.parentHash)
    else .ok block

/-- The second loop of `findCommonAncestor`: down to a block of the main fork. -/
def descend (bc : Blockchain) : ℕ → Block → Except Err Block
  | 0, _ => .error (.panic "out of fuel")
  | fuel + 1, block => do
    let mainChainBlock ← bc.getBlockByHeight block.height
    if mainChainBlock.hash = block.hash then .ok block
    else descend bc fuel (← bc.getBlockByHash block.parentHash)

def findCommonAncestor (bc : Blockchain) (block : Block) : Except Err Block :=
  match bc.getMainTail with
  | none => .error (.panic "invalid memory address or nil pointer dereference")
  | some mainTail => do
    let block ← bc.levelWith mainTail (block.height.toNat + 1) block
    bc.descend (block.height.toNat + 1) block

/-- The loop of `loadBlocksFromTo`. -/
def loadFrom (bc : Blockchain) (target : Block) : ℕ → Block → Except Err (List Block)
  | 0, _ => .error (.panic "out of fuel")
  | fuel + 1, block =>
    if block.hash = target.hash then .ok []
    else do
      let parent ← bc.getBlockByHash block.parentHash
      return block :: (← loadFrom bc target fuel parent)

def loadBlocksFromTo (bc : Blockchain) (block target : Block) : Except Err (List Block) :=
  bc.loadFrom target (block.height.toNat + 1) block

/-- What a switch to another fork asks the node to do: the blocks to roll back and those to
    process, both newest first. -/
structure Switch where
  blocksToRollBack : List Block
  blocksToProcess : List Block
  forkOccured : Bool
deriving DecidableEq, Repr

def noSwitch : Switch := ⟨[], [], false⟩

/-- `Forked`: the switch, and the chain with the new main tail. -/
def forked (bc : Blockchain) (newTail : Block) (newTailIndex : ℕ) :
    Except Err (Switch × Blockchain) := do
  match bc.getMainTail with
  | none => .error (.panic "invalid memory address or nil pointer dereference")
  | some mainTail =>
    let commonParent ← bc.findCommonAncestor newTail
    let blocksToRollBack ← bc.loadBlocksFromTo mainTail commonParent
    let blocksToProcess ← bc.loadBlocksFromTo newTail commonParent
    return (⟨blocksToRollBack, blocksToProcess, true⟩, { bc with mainTailIndex := newTailIndex })

/-- The first loop of `UpdateMainTailIndex`, over the tails from index `i` on. -/
def longestFork (bc : Blockchain) (mainForkLength : ℤ) (res : Switch) :
    ℕ → List Block → Except Err Switch × Blockchain
  | _, [] => (.ok res, bc)
  | i, tail :: t =>
    match bc.forkLengths[i]? with
    | none => (.error (.panic "index out of range"), bc)
    | some forkLength =>
      if forkLength > mainForkLength then
        match bc.forked tail i with
        | .error e => (.error e, bc)
        | .ok (res, bc) => longestFork bc forkLength res (i + 1) t
      else longestFork bc mainForkLength res (i + 1) t

/-! ## Pruning -/

/-- The index of the first of the highest tails, as `RemoveBlock` looks for it. -/
def highestTail (m mi : ℤ) : ℕ → List Block → ℤ
  | _, [] => mi
  | i, e :: t =>
    if i = 0 ∨ e.height > m then highestTail e.height i (i + 1) t else highestTail m mi (i + 1) t

/-- `RemoveBlock`, whose error `DeleteFork` does not look at.  Removing a tail moves the
    later ones up in their array; `behind` is what the array holds behind the slice. -/
def removeBlock (bc : Blockchain) (behind : List Block) (block : Block) : Blockchain × List Block :=
  if bc.isInMainFork block then (bc, behind)
  else match bc.getBlockByHash block.parentHash, bc.indexInTails block with
    | .ok parentBlock, some tIndex =>
      let removed := { bc with db := Function.update bc.db block.hash none }
      if bc.isInMainFork parentBlock then
        let tails := bc.tails.eraseIdx tIndex
        ({ removed with
            tails := tails
            forkLengths := bc.forkLengths.eraseIdx tIndex
            mainTailIndex := highestTail 0 0 0 tails },
          bc.tails.getLast?.toList ++ behind)
      else
        ({ removed with
            tails := bc.tails.set tIndex parentBlock
            forkLengths := bc.forkLengths.set tIndex parentBlock.height }, behind)
    | _, _ => (bc, behind)

/-- The loop of `DeleteFork`. -/
def deleteFrom (bc : Blockchain) (behind : List Block) : ℕ → Block → Blockchain × List Block
  | 0, _ => (bc, behind)
  | fuel + 1, walk =>
    if bc.isInMainFork walk then (bc, behind)
    else
      let (bc, behind) := bc.removeBlock behind walk
      match bc.getBlockByHash walk.parentHash with
      | .error _ => (bc, behind)
      | .ok parent => deleteFrom bc behind fuel parent

/-- `DeleteFork`. -/
def deleteFork (bc : Blockchain) (behind : List Block) (tail : Block) : Blockchain × List Block :=
  match bc.findCommonAncestor tail with
  | .error _ => (bc, behind)
  | .ok _ => bc.deleteFrom behind (tail.height.toNat + 1) tail

/-- The second loop of `UpdateMainTailIndex`.  It ranges over the slice that `DeleteFork`
    shortens, so it reads the array behind it as well. -/
def pruneFrom (bc : Blockchain) (behind : List Block) : (i remaining : ℕ) → Blockchain
  | _, 0 => bc
  | i, remaining + 1 =>
    match (bc.tails ++ behind)[i]? with
    | none => bc
    | some tail =>
      if tail.height < bc.irreversibleBlock then
        let (bc, behind) := bc.deleteFork behind tail
        pruneFrom bc behind (i + 1) remaining
      else pruneFrom bc behind (i + 1) remaining

def pruneTails (bc : Blockchain) : Blockchain := bc.pruneFrom [] 0 bc.tails.length

/-- `UpdateMainTailIndex`. -/
def updateMainTailIndex (bc : Blockchain) : Except Err Switch × Blockchain :=
  match bc.longestFork bc.length noSwitch 0 bc.tails with
  | (.error e, bc) => (.error e, bc)
  | (.ok res, bc) => (.ok res, (bc.updateMainForkMap bc.getMainTail).pruneTails)

/-! ## The irreversible block number -/

/-- Two thirds of the committee, in the arithmetic of `uint32`. -/
def size2by3 (comitteeSize : UInt32) : ℕ := (2 * comitteeSize / 3).toNat

/-- `UpdateIrreversibleBlockNumber`, without the clean-up of deals it starts. -/
def updateIrreversibleBlockNumber (bc : Blockchain) (minerAdd : Address) (comitteeSize : UInt32)
    (numberOfToMineBlockPerSlot : ℕ) : Blockchain :=
  let members := bc.last2by3MinedCommitteeMembers
  let size2by3 := size2by3 comitteeSize
  if members.length = 0 ∨ members.length < size2by3 * numberOfToMineBlockPerSlot then
    { bc with last2by3MinedCommitteeMembers := members ++ [minerAdd] }
  else
    let members := members.tail ++ [minerAdd]
    { bc with
      last2by3MinedCommitteeMembers := members
      irreversibleBlock :=
        if members.dedup.length ≥ size2by3 then bc.irreversibleBlock + 1 else bc.irreversibleBlock }

/-- `UpdateIrreversibleBlockNumberWhileReverting`. -/
def updateIrreversibleBlockNumberWhileReverting (bc : Blockchain) : Blockchain :=
  match bc.last2by3MinedCommitteeMembers with
  | [] => { bc with irreversibleBlock := bc.irreversibleBlock - 1 }
  | members => { bc with last2by3MinedCommitteeMembers := members.dropLast }

/-- `AddMinerToIrreversibleBlockNumberCacheWhileReverting`. -/
def addMinerToIrreversibleBlockNumberCacheWhileReverting (bc : Blockchain) (minerAdd : Address)
    (comitteeSize : UInt32) (numberOfToMineBlockPerSlot : ℕ) : Blockchain :=
  let members := bc.last2by3MinedCommitteeMembers
  let size2by3 := size2by3 comitteeSize
  let members :=
    if members.length = 0 ∨ members.length < size2by3 * numberOfToMineBlockPerSlot then members
    else members.dropLast
  let members := minerAdd :: members
  { bc with
    last2by3MinedCommitteeMembers := members
    irreversibleBlock :=
      if members.dedup.length ≥ size2by3 then bc.irreversibleBlock - 1 else bc.irreversibleBlock }

/-! ## Lookups and appends of stored blocks -/

variable {bc : Blockchain}

theorem getBlockByHash_ok {hash : Option Hash} {p : Block} :
    bc.getBlockByHash hash = .ok p ↔ bc.isEmpty = false ∧ ∃ h, hash = some h ∧ bc.db h = some p := by
  unfold getBlockByHash
  cases bc.isEmpty with
  | true => simp
  | false =>
    cases hash with
    | none => simp
    | some h => cases hdb : bc.db h <;> simp [hdb]

/-- **`Append`** of a new child of a stored block: the block takes the place of its parent
    among the tails, or it becomes another tail. -/
theorem append_child (hne : bc.isEmpty = false) {b p : Block} (hfresh : bc.db b.hash = none)
    (hp : bc.db p.hash = some p) (hparent : b.parentHash = some p.hash) (hgen : b.isGenesis = false) :
    bc.append b = (none, { bc with
      db := Function.update bc.db b.hash (some b)
      tails := (bc.indexInTails p).elim (bc.tails ++ [b]) fun i => bc.tails.set i b
      forkLengths := (bc.indexInTails p).elim (bc.forkLengths ++ [b.height]) fun i =>
        bc.forkLengths.set i b.height }) := by
  have hget : bc.getBlockByHash b.parentHash = .ok p :=
    getBlockByHash_ok.2 ⟨hne, p.hash, hparent, hp⟩
  have hput : bc.putBlock b = .ok { bc with db := Function.update bc.db b.hash (some b) } := by
    rw [putBlock, hfresh]
    rfl
  set bc₁ : Blockchain := { bc with db := Function.update bc.db b.hash (some b) } with hbc₁
  have hpb : p.hash ≠ b.hash := by
    intro h
    rw [h, hfresh] at hp
    exact absurd hp (by simp)
  -- the parent is still there, so the block is not taken for an epoch block without one
  have hboot : bc₁.canBootstrapFromEpoch b = false := by
    have hget₁ : bc₁.getBlockByHash b.parentHash = .ok p :=
      getBlockByHash_ok.2 ⟨hne, p.hash, hparent, (Function.update_of_ne hpb _ _).trans hp⟩
    rw [canBootstrapFromEpoch, hget₁]
    simp [Except.isOk, Except.toBool]
  have hindex : bc₁.indexInTails p = bc.indexInTails p := rfl
  cases hidx : bc.indexInTails p with
  | none =>
    simp only [append, hgen, hget, hput, hindex, hidx, hboot, Bool.false_eq_true, false_and, and_false,
      if_false, Option.elim_none, if_true]
    rfl
  | some i =>
    have hi : ¬ ((i : ℤ) = -1) := by omega
    simp only [append, hgen, hget, hput, hindex, hidx, hboot, Bool.false_eq_true, false_and, and_false,
      if_false, Option.elim_some, hi, Int.toNat_natCast]
    rfl

end Blockchain
end Timbre
