/-
  The loop in which a miner creates its blocks, and a peer that receives every block the loop
  broadcasts.

  A block is prepared two seconds before its tick, and put into the chain of the miner at once; the peer
  gets it when the tick comes.  A block that is late is given up and a new one is made on top of it, and a
  second preparation goes on top of the first one.  **Miner and peer stay in step exactly if no prepared
  block is given up, prepared over, or overtaken by a block of the same height** (`alwaysInStep_iff`).
-/
import Timbre.Dpos.Schedule
import Timbre.Lib.Runs
import Timbre.Roles.BulkSync

namespace Timbre
namespace BlockLoop

open Blockchain Syncer BulkSync

/-! ## The source -/

/-- `blockPrepTime`. -/
def blockPrepTime : Int64 := 2 * second

/-- A block and its timestamp. -/
structure TimedBlock where
  block : Block
  timestamp : Int64
deriving DecidableEq

/-- The chain of the miner, and the variables of `CreateBlockLoop`. -/
structure Miner where
  bc : Blockchain
  prepared : Bool
  block : Option TimedBlock

/-- A block that is valid: its hash, and whether the wallets accept it and it can be written down. -/
structure Made where
  hash : Hash
  accepted : Bool
deriving DecidableEq

section
variable (irreversible : Blockchain → Switch → Block → ℤ × List Address) (add : Address)

/-- The block that `GenerateBlock` or `GenerateDigestBlock` puts together: an empty chain has no main
    tail, and gets a genesis block. -/
def compose (hash : Hash) (bc : Blockchain) : Block :=
  match bc.getMainTail with
  | none => ⟨hash, none, 0, add, false⟩
  | some parent =>
    let bcHeight := getMainForkHeight bc
    ⟨hash, some parent.hash, parent.height + 1, add, decide (bcHeight % epochDuration = 0 ∧ bcHeight ≠ 0)⟩

/-- `UpdateIrreversibleBlockNumber`, which only `GenerateBlock` calls. -/
def updated (bc : Blockchain) (block : Block) : Blockchain :=
  if block.isDigest then bc else final bc (irreversible bc noSwitch block)

/-- `GenerateBlock` gives the block up; `GenerateDigestBlock` has appended it before it asks the wallets, and
    only logs what they say. -/
def Made.Fails (bc : Blockchain) (made : Made) : Prop :=
  made.accepted = false ∧ (compose add made.hash bc).isDigest = false

instance (bc : Blockchain) (made : Made) : Decidable (made.Fails add bc) := instDecidableAnd

/-- `GenerateBlock` and `GenerateDigestBlock`, as far as the chain goes.  A block that the wallets refuse has
    moved the irreversible block number all the same. -/
def generate (made : Option Made) (bc : Blockchain) : Option Block × Blockchain :=
  match made with
  | none => (none, bc)
  | some made =>
    let block := compose add made.hash bc
    let bc' := updated irreversible bc block
    if made.Fails add bc then (none, bc') else (some block, (bc'.append block).2.updateMainTailIndex.2)

namespace Miner

/-- The block that waits for its tick. -/
def held (s : Miner) : Option TimedBlock := if s.prepared then s.block else none

/-- A block that is made when the tick comes, and broadcast. -/
def createNew (made : Option Made) (s : Miner) : Option Block × Miner :=
  let r := generate irreversible add made s.bc
  (r.1, { s with bc := r.2 })

/-- The signal `createBlock` of `CreateBlockLoop`: the block that is broadcast, and the loop after it. -/
def createBlock (now : Int64) (made : Option Made) (s : Miner) : Option Block × Miner :=
  match s.held with
  | none => s.createNew irreversible add made
  | some b =>
    if b.timestamp < now - 2 * blockPrepTime then (⟨s.bc, false, none⟩ : Miner).createNew irreversible add made
    else (some b.block, ⟨s.bc, false, none⟩)

/-- `PrepareBlock`, and what the loop keeps of it. -/
def prepareNew (now : Int64) (made : Option Made) (s : Miner) : Miner :=
  let r := generate irreversible add made s.bc
  { bc := r.2
    prepared := s.prepared || r.1.isSome
    block := r.1.map fun b => ⟨b, nextTickSlot (now / second) * second⟩ }

/-- The signal `prepareBlock`; `turn` says whether the miner is the current one. -/
def prepareBlock (turn : Bool) (now : Int64) (made : Option Made) (s : Miner) : Miner :=
  if turn = false then s
  else match s.block with
  | none => s.prepareNew irreversible add now made
  | some b => if b.timestamp < now - miningTickInterval then s else s.prepareNew irreversible add now made

end Miner

/-! ### The miner and its peer -/

variable (valid : Block → Bool)

/-- A block that comes to a node that is not downloading. -/
def receive (bc : Blockchain) (b : Block) : Blockchain := (handleBlockNew valid irreversible ⟨bc, b⟩ b).bc

/-- The miner, and the chain of the peer. -/
structure Link where
  miner : Miner
  peer : Blockchain

/-- What happens at the miner: the two signals of its DPOS, and a block of another miner, which the peer
    receives as well. -/
inductive Event
  | createBlock (now : Int64) (made : Option Made)
  | prepareBlock (turn : Bool) (now : Int64) (made : Option Made)
  | received (b : Block)

/-- The peer receives what is broadcast. -/
def Link.step : Event → Link → Link
  | .createBlock now made, s =>
    let r := s.miner.createBlock irreversible add now made
    ⟨r.2, match r.1 with
      | none => s.peer
      | some b => receive irreversible valid s.peer b⟩
  | .prepareBlock turn now made, s => ⟨s.miner.prepareBlock irreversible add turn now made, s.peer⟩
  | .received b, s =>
    ⟨{ s.miner with bc := receive irreversible valid s.miner.bc b }, receive irreversible valid s.peer b⟩

end

/-! ## In step -/

/-- **The peer is in step**: it has the blocks of the miner, but not the one that waits for its tick, and
    its main tail is that of the miner, or the parent of that block. -/
structure InStep (s : Link) : Prop where
  stored : ∀ x, s.miner.bc.Stored x ↔ s.peer.Stored x ∨ ∃ w, s.miner.held = some w ∧ w.block = x
  mainTail : ∃ m, s.peer.getMainTail = some m ∧ (s.miner.held = none → s.miner.bc.getMainTail = some m) ∧
    ∀ w, s.miner.held = some w → s.miner.bc.getMainTail = some w.block ∧ m.isValidParentOf w.block

/-- A prepared block is given up, prepared over, or overtaken by a block of the same height. -/
def Loses (s : Link) : Event → Prop
  | .createBlock now _ => ∃ w, s.miner.held = some w ∧ w.timestamp < now - 2 * blockPrepTime
  | .prepareBlock turn now _ => turn = true ∧ ∃ w, s.miner.held = some w ∧ ¬ w.timestamp < now - miningTickInterval
  | .received b => ∃ w, s.miner.held = some w ∧ w.block.height ≤ b.height

/-- A block that is put together is new and valid, and leaves no tail below the irreversible block number. -/
def Made.Possible (irreversible : Blockchain → Switch → Block → ℤ × List Address) (add : Address)
    (valid : Block → Bool) (bc : Blockchain) (made : Made) : Prop :=
  bc.db made.hash = none ∧ valid (compose add made.hash bc) = true ∧
    NoneFinal (updated irreversible bc (compose add made.hash bc))

/-- What may happen: a block that is made is new and valid, and so is a block that comes, of which both
    nodes have the parent.  No tail is left below the irreversible block number. -/
def Possible (irreversible : Blockchain → Switch → Block → ℤ × List Address) (add : Address)
    (valid : Block → Bool) (s : Link) (e : Event) : Prop :=
  NoneFinal (s.step irreversible add valid e).peer ∧
    match e with
    | .createBlock _ made | .prepareBlock _ _ made => ∀ block ∈ made, block.Possible irreversible add valid s.miner.bc
    | .received b => NoneFinal (s.step irreversible add valid e).miner.bc ∧ valid b = true ∧
        s.miner.bc.irreversibleBlock ≤ b.height ∧ s.peer.irreversibleBlock ≤ b.height ∧
        ∃ p, s.miner.bc.Appendable b p ∧ s.peer.Appendable b p

/-- What the steps keep: `t` is the main tail of the miner, and `m` that of the peer. -/
structure Together (valid : Block → Bool) (s : Link) (t m : Block) : Prop where
  miner : ∃ tl, AtRest s.miner.bc t tl
  peer : ∃ ml, AtRest s.peer m ml
  stored : ∀ x, s.miner.bc.Stored x ↔ s.peer.Stored x ∨ ∃ w, s.miner.held = some w ∧ w.block = x
  free : s.miner.held = none → t = m
  held : ∀ w, s.miner.held = some w → t = w.block ∧ m.isValidParentOf w.block ∧
    s.peer.db w.block.hash = none ∧ valid w.block = true
  prepared : s.miner.prepared = false → s.miner.block = none

section
variable {irreversible : Blockchain → Switch → Block → ℤ × List Address} {add : Address} {valid : Block → Bool}
  {s : Link} {bc : Blockchain} {t m b p : Block} {tl ml : List Block} {hash : Hash} {block : Made}
  {made : Option Made} {now : Int64}

theorem Together.inStep (h : Together valid s t m) : InStep s := by
  obtain ⟨tl, hminer⟩ := h.miner
  obtain ⟨ml, hpeer⟩ := h.peer
  refine ⟨h.stored, m, hpeer.settled.mainTail, fun hnone => ?_, fun w hw => ?_⟩
  · rw [← h.free hnone]
    exact hminer.settled.mainTail
  · obtain ⟨ht, hparent, -⟩ := h.held w hw
    exact ⟨ht ▸ hminer.settled.mainTail, hparent⟩

/-- Of a hash that the miner does not know the peer has no block. -/
theorem Together.fresh (h : Together valid s t m) (hnew : s.miner.bc.db hash = none) : s.peer.db hash = none := by
  obtain ⟨ml, hpeer⟩ := h.peer
  refine db_eq_none hpeer.settled.sound fun x hx heq => ?_
  have hstored := (h.stored x).2 (.inl hx)
  rw [Stored, heq, hnew] at hstored
  cases hstored

/-- The block that is put together goes on top of the main tail. -/
theorem compose_child (add : Address) (hash : Hash) (h : bc.getMainTail = some m) :
    (compose add hash bc).hash = hash ∧ m.isValidParentOf (compose add hash bc) := by
  unfold compose
  rw [h]
  refine ⟨rfl, rfl, ?_⟩
  change m.height = m.height + 1 - 1
  omega

/-- Another irreversible block number. -/
theorem updated_rest (h : AtRest bc m ml) (hfinal : NoneFinal (updated irreversible bc b)) :
    AtRest (updated irreversible bc b) m ml ∧ (updated irreversible bc b).db = bc.db := by
  unfold updated at hfinal ⊢
  split_ifs at hfinal ⊢
  · exact ⟨h, rfl⟩
  · exact ⟨⟨settled_final h.settled _, h.highest, hfinal⟩, rfl⟩

theorem generate_fails (hfails : block.Fails add bc) :
    generate irreversible add (some block) bc = (none, updated irreversible bc (compose add block.hash bc)) :=
  if_pos hfails

/-- **A block that is made** becomes the main tail. -/
theorem generate_spec (h : AtRest bc m ml) (hpossible : block.Possible irreversible add valid bc)
    (hmade : ¬ block.Fails add bc) :
    (generate irreversible add (some block) bc).1 = some (compose add block.hash bc) ∧
      ∃ l, AtRest (generate irreversible add (some block) bc).2 (compose add block.hash bc) l ∧
        ∀ x, (generate irreversible add (some block) bc).2.Stored x ↔ x = compose add block.hash bc ∨ bc.Stored x := by
  obtain ⟨hnew, -, hfinal⟩ := hpossible
  obtain ⟨hhash, hchild⟩ := compose_child add block.hash h.settled.mainTail
  have hheight := hchild.2
  obtain ⟨hrest, hdb⟩ := updated_rest h hfinal
  have happend : Appendable (updated irreversible bc (compose add block.hash bc)) (compose add block.hash bc) m :=
    ⟨by rw [hhash, hdb]; exact hnew, hrest.settled.chain.stored m (by simp), hchild⟩
  have hle := hrest.notFinal m (getMainTail_mem hrest.settled.mainTail)
  obtain ⟨sw, bc₂, l₂, hup, hset, hstored, -, -, hnone⟩ := append_update hrest happend (by omega)
  rw [if_pos (by omega)] at hset
  have hgenerate : generate irreversible add (some block) bc = (some (compose add block.hash bc), bc₂) := by
    unfold generate
    dsimp only
    rw [if_neg hmade, hup]
  have hstored' : ∀ x, bc₂.Stored x ↔ x = compose add block.hash bc ∨ bc.Stored x := fun x => by
    rw [hstored, Stored, hdb, Stored]
  rw [hgenerate]
  refine ⟨rfl, l₂, ⟨hset, fun x hx => ?_, hnone⟩, hstored'⟩
  rcases (hstored' x).1 hx with rfl | hx
  · exact le_rfl
  · have := h.highest x hx
    omega

/-- The miner keeps what it has when it puts a block together. -/
theorem stored_generate (h : AtRest bc m ml) (hpossible : ∀ block ∈ made, block.Possible irreversible add valid bc)
    {x : Block} (hx : bc.Stored x) : (generate irreversible add made bc).2.Stored x := by
  cases made with
  | none => exact hx
  | some block =>
    have hblock := hpossible block rfl
    by_cases hfails : block.Fails add bc
    · rw [generate_fails hfails, Stored, (updated_rest h hblock.2.2).2]
      exact hx
    · obtain ⟨-, l, -, hstored⟩ := generate_spec h hblock hfails
      exact (hstored x).2 (.inr hx)

/-- **A block that comes** becomes the main tail if it is higher. -/
theorem receive_spec (h : AtRest bc m ml) (hb : bc.Appendable b p) (hvalid : valid b = true)
    (hle : bc.irreversibleBlock ≤ b.height) (hfinal : NoneFinal (receive irreversible valid bc b)) :
    ∃ l, AtRest (receive irreversible valid bc b) (if m.height < b.height then b else m) l ∧
      ∀ x, (receive irreversible valid bc b).Stored x ↔ x = b ∨ bc.Stored x := by
  obtain ⟨l, hrest, hstored, -⟩ := handleBlockNew_next (d := ⟨bc, b⟩) h hb hvalid hle hfinal
  exact ⟨l, hrest, hstored⟩

/-- A block without its parent is not appended. -/
theorem receive_orphan (h : b.parentHash = some hash) (hnone : bc.db hash = none) :
    receive irreversible valid bc b = bc := by
  obtain ⟨e, he⟩ : ∃ e, bc.getBlockByHash b.parentHash = .error e := by
    rw [h, getBlockByHash, Option.bind_some, hnone]
    split_ifs <;> exact ⟨_, rfl⟩
  unfold receive handleBlockNew
  dsimp only
  rw [he]
  split_ifs <;> rfl

/-! ### One step -/

/-- A new block of the miner that is broadcast at once. -/
theorem Together.createNew (h : Together valid s t m) (hfree : s.miner.held = none)
    (hpossible : ∀ block ∈ made, block.Possible irreversible add valid s.miner.bc) :
    let r := s.miner.createNew irreversible add made
    let peer := match r.1 with
      | none => s.peer
      | some b => receive irreversible valid s.peer b
    NoneFinal peer → ∃ t', Together valid ⟨r.2, peer⟩ t' t' := by
  intro r peer hfinal
  obtain ⟨tl, hminer⟩ := h.miner
  obtain ⟨ml, hpeer⟩ := h.peer
  obtain rfl := h.free hfree
  cases made with
  | none => exact ⟨t, h⟩
  | some block =>
    have hblock := hpossible block rfl
    by_cases hfails : block.Fails add s.miner.bc
    · -- only the irreversible block number moves
      obtain ⟨hrest, hdb⟩ := updated_rest hminer hblock.2.2
      have hr : r = (none, { s.miner with bc := updated irreversible s.miner.bc (compose add block.hash s.miner.bc) }) := by
        simp only [r, Miner.createNew, generate_fails hfails]
      have hpeerEq : peer = s.peer := by simp only [peer, hr]
      rw [hpeerEq, hr]
      refine ⟨t, ⟨tl, hrest⟩, ⟨ml, hpeer⟩, fun x => ?_, h.free, h.held, h.prepared⟩
      rw [Stored, hdb]
      exact h.stored x
    · obtain ⟨hnew, hvalid, -⟩ := hblock
      obtain ⟨hhash, hchild⟩ := compose_child add block.hash hminer.settled.mainTail
      obtain ⟨hgenerate, tl', hminer', hstored⟩ := generate_spec hminer (hpossible block rfl) hfails
      have hheight := hchild.2
      have happend : s.peer.Appendable (compose add block.hash s.miner.bc) t :=
        ⟨by rw [hhash]; exact h.fresh hnew, hpeer.settled.chain.stored t (by simp), hchild⟩
      have hle := hpeer.notFinal t (getMainTail_mem hpeer.settled.mainTail)
      have hpeerEq : peer = receive irreversible valid s.peer (compose add block.hash s.miner.bc) := by
        have hr : r.1 = some (compose add block.hash s.miner.bc) := hgenerate
        simp only [peer, hr]
      rw [hpeerEq] at hfinal ⊢
      obtain ⟨ml', hpeer', hstored'⟩ := receive_spec hpeer happend hvalid (by omega) hfinal
      rw [if_pos (by omega)] at hpeer'
      refine ⟨compose add block.hash s.miner.bc, ⟨tl', hminer'⟩, ⟨ml', hpeer'⟩, fun x => ?_, fun _ => rfl, fun w hw => ?_,
        h.prepared⟩
      · change (generate irreversible add (some block) s.miner.bc).2.Stored x ↔ _
        rw [hstored, h.stored, ← or_assoc]
        exact or_congr_left (hstored' x).symm
      · exact absurd (hw.symm.trans hfree) (by simp)

/-- The block that waited for its tick is broadcast. -/
theorem Together.broadcast (h : Together valid s t m) {w : TimedBlock} (hheld : s.miner.held = some w)
    (hfinal : NoneFinal (receive irreversible valid s.peer w.block)) :
    Together valid ⟨⟨s.miner.bc, false, none⟩, receive irreversible valid s.peer w.block⟩ w.block w.block := by
  obtain ⟨tl, hminer⟩ := h.miner
  obtain ⟨ml, hpeer⟩ := h.peer
  obtain ⟨rfl, hchild, hnew, hvalid⟩ := h.held w hheld
  have hheight := hchild.2
  have happend : s.peer.Appendable w.block m := ⟨hnew, hpeer.settled.chain.stored m (by simp), hchild⟩
  have hle := hpeer.notFinal m (getMainTail_mem hpeer.settled.mainTail)
  obtain ⟨ml', hpeer', hstored'⟩ := receive_spec hpeer happend hvalid (by omega) hfinal
  rw [if_pos (by omega)] at hpeer'
  refine ⟨⟨tl, hminer⟩, ⟨ml', hpeer'⟩, fun x => ?_, fun _ => rfl, nofun, fun _ => rfl⟩
  rw [h.stored, hstored', hheld]
  simp [eq_comm, or_comm, Miner.held]

/-- A block is prepared where none waits. -/
theorem Together.prepareNew (h : Together valid s t m) (hnone : s.miner.block = none)
    (hpossible : ∀ block ∈ made, block.Possible irreversible add valid s.miner.bc) :
    ∃ t', Together valid ⟨s.miner.prepareNew irreversible add now made, s.peer⟩ t' m := by
  have hfree : s.miner.held = none := by simp [Miner.held, hnone]
  obtain ⟨tl, hminer⟩ := h.miner
  obtain rfl := h.free hfree
  cases made with
  | none =>
    have hsame : s.miner.prepareNew irreversible add now none = s.miner := by
      simp [Miner.prepareNew, generate, ← hnone]
    rw [hsame]
    exact ⟨t, h⟩
  | some block =>
    have hblock := hpossible block rfl
    by_cases hfails : block.Fails add s.miner.bc
    · obtain ⟨hrest, hdb⟩ := updated_rest hminer hblock.2.2
      have hsame : s.miner.prepareNew irreversible add now (some block) =
          { s.miner with bc := updated irreversible s.miner.bc (compose add block.hash s.miner.bc) } := by
        simp [Miner.prepareNew, generate_fails hfails, hnone]
      rw [hsame]
      refine ⟨t, ⟨⟨tl, hrest⟩, h.peer, fun x => ?_, h.free, h.held, h.prepared⟩⟩
      rw [Stored, hdb]
      exact h.stored x
    · obtain ⟨hnew, hvalid, -⟩ := hblock
      obtain ⟨hhash, hchild⟩ := compose_child add block.hash hminer.settled.mainTail
      obtain ⟨hgenerate, tl', hminer', hstored⟩ := generate_spec hminer (hpossible block rfl) hfails
      have hheld : (s.miner.prepareNew irreversible add now (some block)).held =
          some ⟨compose add block.hash s.miner.bc, nextTickSlot (now / second) * second⟩ := by
        simp [Miner.prepareNew, Miner.held, hgenerate]
      refine ⟨compose add block.hash s.miner.bc, ⟨tl', hminer'⟩, h.peer, fun x => ?_, fun hw => ?_, fun w hw => ?_,
        fun hw => ?_⟩
      · change (generate irreversible add (some block) s.miner.bc).2.Stored x ↔ _
        rw [hstored, h.stored, hheld, hfree]
        simp [eq_comm, or_comm]
      · rw [hheld] at hw
        cases hw
      · rw [hheld] at hw
        cases hw
        have hfresh : s.peer.db (compose add block.hash s.miner.bc).hash = none := by
          rw [hhash]
          exact h.fresh hnew
        exact ⟨rfl, hchild, hfresh, hvalid⟩
      · simp [Miner.prepareNew, hgenerate] at hw

/-- A block of another miner, which does not overtake the one that waits. -/
theorem Together.received (h : Together valid s t m) (hvalid : valid b = true)
    (hminerLe : s.miner.bc.irreversibleBlock ≤ b.height) (hpeerLe : s.peer.irreversibleBlock ≤ b.height)
    (hb : s.miner.bc.Appendable b p) (hb' : s.peer.Appendable b p)
    (hfinal : NoneFinal (receive irreversible valid s.miner.bc b))
    (hfinal' : NoneFinal (receive irreversible valid s.peer b))
    (hlow : ∀ w, s.miner.held = some w → b.height < w.block.height) :
    ∃ t' m', Together valid ⟨{ s.miner with bc := receive irreversible valid s.miner.bc b },
      receive irreversible valid s.peer b⟩ t' m' := by
  obtain ⟨tl, hminer⟩ := h.miner
  obtain ⟨ml, hpeer⟩ := h.peer
  obtain ⟨tl', hminer', hstored⟩ := receive_spec hminer hb hvalid hminerLe hfinal
  obtain ⟨ml', hpeer', hstored'⟩ := receive_spec hpeer hb' hvalid hpeerLe hfinal'
  refine ⟨_, _, ⟨tl', hminer'⟩, ⟨ml', hpeer'⟩, fun x => ?_, fun hfree => ?_, fun w hw => ?_, h.prepared⟩
  · rw [hstored, hstored', h.stored, or_assoc]
    exact Iff.rfl
  · rw [h.free hfree]
  · obtain ⟨rfl, hchild, hnew, hvalidw⟩ := h.held w hw
    have hlt := hlow w hw
    have hheight := hchild.2
    rw [if_neg (not_lt.2 hlt.le), if_neg (by omega)]
    refine ⟨rfl, hchild, db_eq_none hpeer'.settled.sound fun x hx heq => ?_, hvalidw⟩
    rcases (hstored' x).1 hx with rfl | hx
    · have hstoredw := hminer.settled.chain.stored w.block (by simp)
      rw [Stored, ← heq, hb.fresh] at hstoredw
      cases hstoredw
    · rw [Stored, heq, hnew] at hx
      cases hx

/-- **A step that loses no block** keeps the two in step. -/
theorem Together.step (h : Together valid s t m) {e : Event} (hpossible : Possible irreversible add valid s e)
    (hkeeps : ¬ Loses s e) : ∃ t' m', Together valid (s.step irreversible add valid e) t' m' := by
  obtain ⟨hfinal, hpossible⟩ := hpossible
  cases e with
  | createBlock now made =>
    rw [Link.step, Miner.createBlock] at hfinal ⊢
    cases hheld : s.miner.held with
    | none =>
      rw [hheld] at hfinal
      obtain ⟨t', h'⟩ := h.createNew hheld hpossible hfinal
      exact ⟨t', t', h'⟩
    | some w =>
      have hintime : ¬ w.timestamp < now - 2 * blockPrepTime := fun hlate => hkeeps ⟨w, hheld, hlate⟩
      rw [hheld] at hfinal
      dsimp only at hfinal ⊢
      rw [if_neg hintime] at hfinal ⊢
      exact ⟨w.block, w.block, h.broadcast hheld hfinal⟩
  | prepareBlock turn now made =>
    rw [Link.step, Miner.prepareBlock]
    split_ifs with hturn
    · exact ⟨t, m, h⟩
    · cases hblock : s.miner.block with
      | none =>
        obtain ⟨t', h'⟩ := h.prepareNew hblock hpossible
        exact ⟨t', m, h'⟩
      | some w =>
        dsimp only
        split_ifs with hold
        · exact ⟨t, m, h⟩
        · have hprepared : s.miner.prepared = true := by
            by_contra hnot
            rw [h.prepared (Bool.not_eq_true _ ▸ hnot)] at hblock
            cases hblock
          refine absurd ⟨Bool.not_eq_false _ ▸ hturn, w, ?_, hold⟩ hkeeps
          rw [Miner.held, hprepared, if_pos rfl, hblock]
  | received b =>
    obtain ⟨hminerFinal, hvalid, hminerLe, hpeerLe, p, hb, hb'⟩ := hpossible
    exact h.received hvalid hminerLe hpeerLe hb hb' hminerFinal hfinal fun w hw => not_le.1 fun hle => hkeeps ⟨w, hw, hle⟩

/-! ### A block that is lost -/

/-- A block that only the miner has, and that does not wait, is not in step. -/
theorem behind_of_missing (hminer : s.miner.bc.Stored b) (hpeer : s.peer.db b.hash = none)
    (hheld : ∀ w, s.miner.held = some w → w.block ≠ b) : ¬ InStep s := by
  intro h
  rcases (h.stored b).1 hminer with hstored | ⟨w, hw, heq⟩
  · rw [Stored, hpeer] at hstored
    cases hstored
  · exact hheld w hw heq

/-- A block that is given up stays with the miner, and the peer does not take the next one. -/
theorem Together.giveUp (h : Together valid s t m) {w : TimedBlock} (hheld : s.miner.held = some w)
    (hpossible : ∀ block ∈ made, block.Possible irreversible add valid s.miner.bc) :
    let r := (⟨s.miner.bc, false, none⟩ : Miner).createNew irreversible add made
    ¬ InStep ⟨r.2, match r.1 with
      | none => s.peer
      | some b => receive irreversible valid s.peer b⟩ := by
  intro r
  obtain ⟨tl, hminer⟩ := h.miner
  obtain ⟨rfl, -, hnew, -⟩ := h.held w hheld
  have hstored : r.2.bc.Stored w.block :=
    stored_generate hminer hpossible (hminer.settled.chain.stored w.block (by simp))
  refine behind_of_missing (b := w.block) hstored ?_ nofun
  dsimp only
  cases hmade : r.1 with
  | none => exact hnew
  | some b =>
    -- the next block is a child of the one that was given up
    have hchild : b.parentHash = some w.block.hash := by
      cases made with
      | none => cases hmade
      | some block =>
        by_cases hfails : block.Fails add s.miner.bc
        · have hnone : r.1 = none := congrArg Prod.fst (generate_fails hfails)
          rw [hnone] at hmade
          cases hmade
        · have hb : r.1 = some (compose add block.hash s.miner.bc) :=
            (generate_spec hminer (hpossible block rfl) hfails).1
          rw [← Option.some.inj (hb.symm.trans hmade)]
          exact (compose_child add block.hash hminer.settled.mainTail).2.1
    have horphan : receive irreversible valid s.peer b = s.peer := receive_orphan hchild hnew
    dsimp only
    rw [horphan]
    exact hnew

/-- So does a block that is prepared over. -/
theorem Together.prepareOver (h : Together valid s t m) {w : TimedBlock} (hheld : s.miner.held = some w)
    (hpossible : ∀ block ∈ made, block.Possible irreversible add valid s.miner.bc) :
    ¬ InStep ⟨s.miner.prepareNew irreversible add now made, s.peer⟩ := by
  obtain ⟨tl, hminer⟩ := h.miner
  obtain ⟨rfl, -, hnew, -⟩ := h.held w hheld
  have hstored := hminer.settled.chain.stored w.block (by simp)
  refine behind_of_missing (b := w.block) (stored_generate hminer hpossible hstored) hnew fun w' hw' heq => ?_
  cases made with
  | none => simp [Miner.prepareNew, Miner.held, generate] at hw'
  | some block =>
    by_cases hfails : block.Fails add s.miner.bc
    · simp [Miner.prepareNew, Miner.held, generate_fails hfails] at hw'
    · have hfresh := (hpossible block rfl).1
      have hgenerate := (generate_spec hminer (hpossible block rfl) hfails).1
      have hhash := (compose_child add block.hash hminer.settled.mainTail).1
      have hblock : compose add block.hash s.miner.bc = w'.block := by
        simp only [Miner.prepareNew, Miner.held, hgenerate, Option.isSome_some, Bool.or_true, if_true, Option.map_some,
          Option.some.injEq] at hw'
        rw [← hw']
      rw [Stored, ← heq, ← hblock, hhash, hfresh] at hstored
      cases hstored

/-- A block of the height of the one that waits takes its place at the peer. -/
theorem Together.overtaken (h : Together valid s t m) (hvalid : valid b = true)
    (hpeerLe : s.peer.irreversibleBlock ≤ b.height) (hb' : s.peer.Appendable b p)
    (hfinal : NoneFinal (receive irreversible valid s.peer b)) {w : TimedBlock} (hheld : s.miner.held = some w)
    (hhigh : w.block.height ≤ b.height) :
    ¬ InStep ⟨{ s.miner with bc := receive irreversible valid s.miner.bc b }, receive irreversible valid s.peer b⟩ := by
  obtain ⟨ml, hpeer⟩ := h.peer
  obtain ⟨-, hchild, -⟩ := h.held w hheld
  obtain ⟨ml', hpeer', -⟩ := receive_spec hpeer hb' hvalid hpeerLe hfinal
  have hheight := hchild.2
  rw [if_pos (by omega)] at hpeer'
  intro hstep
  obtain ⟨m', hm', -, hwait⟩ := hstep.mainTail
  obtain rfl : b = m' := Option.some.inj (hpeer'.settled.mainTail.symm.trans hm')
  have hparent := (hwait w hheld).2.2
  omega

/-- **A step that loses a block** leaves the peer behind. -/
theorem Together.loses (h : Together valid s t m) {e : Event} (hpossible : Possible irreversible add valid s e)
    (hloses : Loses s e) : ¬ InStep (s.step irreversible add valid e) := by
  obtain ⟨hfinal, hpossible⟩ := hpossible
  cases e with
  | createBlock now made =>
    obtain ⟨w, hheld, hlate⟩ := hloses
    rw [Link.step, Miner.createBlock, hheld]
    dsimp only
    rw [if_pos hlate]
    exact h.giveUp hheld hpossible
  | prepareBlock turn now made =>
    obtain ⟨hturn, w, hheld, hold⟩ := hloses
    have hblock : s.miner.block = some w := by
      rw [Miner.held] at hheld
      split_ifs at hheld
      exact hheld
    rw [Link.step, Miner.prepareBlock, if_neg (by rw [hturn]; decide), hblock]
    dsimp only
    rw [if_neg hold]
    exact h.prepareOver hheld hpossible
  | received b =>
    obtain ⟨w, hheld, hhigh⟩ := hloses
    obtain ⟨-, hvalid, -, hpeerLe, p, -, hb'⟩ := hpossible
    exact h.overtaken hvalid hpeerLe hb' hfinal hheld hhigh

end

/-! ## Runs -/

/-- The run as a machine that never fails. -/
def Link.run (irreversible : Blockchain → Switch → Block → ℤ × List Address) (add : Address) (valid : Block → Bool)
    (e : Event) (s : Link) : Except Err Link := .ok (s.step irreversible add valid e)

/-- No block waits, and the two nodes have the same blocks and the same main tail. -/
structure Starts (s : Link) (m : Block) : Prop where
  miner : ∃ ml, AtRest s.miner.bc m ml
  peer : ∃ ml, AtRest s.peer m ml
  stored : ∀ x, s.miner.bc.Stored x ↔ s.peer.Stored x
  free : s.miner.block = none

theorem Starts.together {valid : Block → Bool} {s : Link} {m : Block} (h : Starts s m) : Together valid s m m := by
  have hfree : s.miner.held = none := by simp [Miner.held, h.free]
  refine ⟨h.miner, h.peer, fun x => ?_, fun _ => rfl, fun w hw => ?_, fun _ => h.free⟩
  · rw [h.stored, hfree]
    simp
  · rw [hfree] at hw
    cases hw

/-- **Over every run of the signals and of blocks that come, the peer is in step after each step exactly if
    no step loses a block**: none gives up a prepared block, prepares over it, or brings a block of its
    height. -/
theorem alwaysInStep_iff {irreversible : Blockchain → Switch → Block → ℤ × List Address} {add : Address}
    {valid : Block → Bool} {s : Link} {m : Block} (hstart : Starts s m) (events : List Event)
    (hpossible : Runs.Always (Link.run irreversible add valid) (fun e s _ => Possible irreversible add valid s e) events s) :
    Runs.Always (Link.run irreversible add valid) (fun _ _ res => ∀ s', res = .ok s' → InStep s') events s ↔
      Runs.Always (Link.run irreversible add valid) (fun e s _ => ¬ Loses s e) events s := by
  have hboth : Runs.Always (Link.run irreversible add valid)
        (fun e s res => Possible irreversible add valid s e ∧ ∀ s', res = .ok s' → InStep s') events s ↔
      Runs.Always (Link.run irreversible add valid) (fun e s _ => Possible irreversible add valid s e ∧ ¬ Loses s e) events s := by
    refine Runs.always_iff (I := fun s => ∃ t m, Together valid s t m) ?_ ?_ events ⟨m, m, hstart.together⟩
    · rintro e s ⟨t, m, h⟩
      refine and_congr_right fun hpossible => ⟨fun hstep hloses => ?_, fun hkeeps s' hs' => ?_⟩
      · exact h.loses hpossible hloses (hstep _ rfl)
      · obtain ⟨t', m', h'⟩ := h.step hpossible hkeeps
        cases hs'
        exact h'.inStep
    · rintro e s s' ⟨t, m, h⟩ hs' ⟨hpossible, hstep⟩
      have hkeeps : ¬ Loses s e := fun hloses => by
        cases hs'
        exact h.loses hpossible hloses (hstep _ rfl)
      cases hs'
      exact h.step hpossible hkeeps
  rw [Runs.always_and, Runs.always_and] at hboth
  exact ⟨fun h => (hboth.1 ⟨hpossible, h⟩).2, fun h => (hboth.2 ⟨hpossible, h⟩).2⟩

/-! ### A run of four steps -/

/-- Miner and peer have the blocks `g` and `a`. -/
def linked : Link := ⟨⟨Forked.common, false, none⟩, Forked.common⟩

/-- A block is prepared two seconds before its tick, and broadcast at the tick; the wallets refuse the next one;
    and a block of another miner comes. -/
def fourSteps : List Event :=
  [.prepareBlock true (113 * second) (some ⟨"b", true⟩), .createBlock (115 * second) none,
    .createBlock (120 * second) (some ⟨"c", false⟩), .received ⟨"d", some "b", 3, "n", false⟩]

theorem linked_starts : Starts linked Forked.a := by
  obtain ⟨ml, hset, hhighest⟩ :=
    settled_of_run Forked.run_common (m := Forked.a) (by decide) Forked.stored_a (by decide)
  have hrest : AtRest Forked.common Forked.a ml := ⟨hset, hhighest, by decide⟩
  exact ⟨⟨ml, hrest⟩, ⟨ml, hrest⟩, fun _ => Iff.rfl, rfl⟩

instance (irreversible : Blockchain → Switch → Block → ℤ × List Address) (add : Address) (valid : Block → Bool)
    (bc : Blockchain) (made : Made) : Decidable (made.Possible irreversible add valid bc) :=
  inferInstanceAs (Decidable (_ ∧ _ ∧ NoneFinal _))

theorem alwaysInStep_iff_four :
    Runs.Always (Link.run ofThree "m" fun _ => true) (fun _ _ res => ∀ s', res = .ok s' → InStep s') fourSteps linked := by
  refine (alwaysInStep_iff linked_starts fourSteps ?_).2 ?_
  · refine ⟨⟨by decide, by decide⟩, fun s' hs' => ?_⟩
    cases hs'
    refine ⟨⟨by decide, nofun⟩, fun s' hs' => ?_⟩
    cases hs'
    refine ⟨⟨by decide, by decide⟩, fun s' hs' => ?_⟩
    cases hs'
    refine ⟨⟨by decide, by decide, rfl, by decide, by decide,
      ⟨"b", some "a", 2, "m", false⟩, ?_, ?_⟩, fun _ _ => trivial⟩
    · exact ⟨by decide, by unfold Stored; decide, rfl, rfl⟩
    · exact ⟨by decide, by unfold Stored; decide, rfl, rfl⟩
  · refine ⟨?_, fun s' hs' => ?_⟩
    · rintro ⟨-, w, hw, -⟩
      cases hw
    · cases hs'
      refine ⟨?_, fun s' hs' => ?_⟩
      · have hintime : ¬ nextTickSlot (113 * second / second) * second < 115 * second - 2 * blockPrepTime := by decide
        rintro ⟨w, hw, hlate⟩
        cases hw
        exact hintime hlate
      · cases hs'
        refine ⟨?_, fun s' hs' => ?_⟩
        · rintro ⟨w, hw, -⟩
          cases hw
        · cases hs'
          refine ⟨?_, fun _ _ => trivial⟩
          rintro ⟨w, hw, -⟩
          cases hw

end BlockLoop
end Timbre
