/-
  Bulk synchronisation: a node that is behind asks a peer for the blocks from its current block on,
  a few at a time, until its main tail is as high as that of the peer.

  The current block moves on only when a block extends the main tail, and not when the node switches
  to another fork.  **The node ends with the main tail of the peer exactly if its current block is its own
  main tail, or one answer reaches the peer's main tail, or two blocks beyond its own; otherwise it asks for
  the same blocks for ever** (`catchesUp_iff`).  **From a block that the peer has on a side fork it may never
  start** (`sideFork_stuck`).
-/
import Mathlib.Data.List.Chain
import Timbre.Core.Standing
import Timbre.Roles.Syncer

namespace Timbre
namespace BulkSync

open Blockchain Syncer

/-! ## The peer -/

/-- The walk of `handleBlockAsk`, from a block down to the one with the hash `start`.  A walk that
    misses it ends with the genesis block. -/
def walkBack (bc : Blockchain) (start : Hash) : ℕ → Block → List Block → List Block
  | 0, _, allBlocks => allBlocks
  | fuel + 1, walk, allBlocks =>
    if walk.hash = start then walk :: allBlocks
    else match bc.getBlockByHash walk.parentHash with
      | .error _ => walk :: allBlocks
      | .ok parent => walkBack bc start fuel parent (walk :: allBlocks)

/-- The blocks that `handleBlockAsk` sends for a start block and a count. -/
def askedBlocks (bc : Blockchain) (tempb : Block) (z : ℤ) : Except Err (List Block) := do
  let targetHeight := tempb.height + z
  let targetHeight := if targetHeight > bc.length then bc.length else targetHeight
  let walk ← bc.getBlockByHeight targetHeight
  let allBlocks := walkBack bc tempb.hash (walk.height.toNat + 1) walk []
  if z > allBlocks.length then return allBlocks
  if z < 0 then throw (.panic "slice bounds out of range")
  return allBlocks.take z.toNat

/-- `handleBlockAsk`: the blocks sent.  After an error nothing is sent; from the genesis block on it
    goes on with the last epoch block. -/
def handleBlockAsk (bc : Blockchain) (blockHash : Hash) (z : ℤ) : Except Err (List Block) :=
  match bc.genesis with
  | none => .error (.error "Can't send blocks, blockchain is empty")
  | some genesis =>
    if blockHash = genesis.hash then do
      let tempb ← bc.getBlockByHeight (bc.length / epochDuration * epochDuration)
      return genesis :: (← askedBlocks bc tempb z)
    else do askedBlocks bc (← bc.getBlockByHash (some blockHash)) z

/-! ## The node that is behind -/

/-- What a download changes: the chain, and the block that it has come to. -/
structure Download where
  bc : Blockchain
  curBlock : Block

/-- The chain with another irreversible block number, and other last miners. -/
def final (bc : Blockchain) (f : ℤ × List Address) : Blockchain :=
  { bc with irreversibleBlock := f.1, last2by3MinedCommitteeMembers := f.2 }

section
variable (valid : Block → Bool) (irreversible : Blockchain → Switch → Block → ℤ × List Address)

/-- `handleBlockNew` with `IterateCheckAndAddChain`, for a block whose parent is stored or missing:
    `valid` says whether it is validated, `irreversible` gives the irreversible block number and the last
    miners after it, and after the switch that it brings about. -/
def handleBlockNew (d : Download) (b : Block) : Download :=
  if (d.bc.db b.hash).isSome then d
  else match d.bc.getBlockByHash b.parentHash with
    | .error _ => d
    | .ok _ =>
      if b.height < d.bc.irreversibleBlock then d
      else if valid b then
        let (res, bc) := (d.bc.append b).2.updateMainTailIndex
        let sw := match res with
          | .ok sw => sw
          | .error _ => noSwitch
        let bc := final bc (irreversible bc sw b)
        if sw.blocksToProcess.length > 0 then ⟨bc, d.curBlock⟩
        else if bc.isInMainFork b ∧ d.curBlock.height < b.height then ⟨bc, b⟩
        else ⟨bc, d.curBlock⟩
      else d

/-- `handleBlockSync`. -/
def handleBlockSync (d : Download) (allBlocks : List Block) : Download :=
  match allBlocks.getLast? with
  | none => d
  | some lastsentBlock =>
    if lastsentBlock.height < d.curBlock.height then d
    else allBlocks.foldl (handleBlockNew valid irreversible) d

/-- What the peer answers. -/
def answer (peer : Blockchain) (z : ℤ) (d : Download) : List Block :=
  match handleBlockAsk peer d.curBlock.hash z with
  | .error _ => []
  | .ok allBlocks => allBlocks

/-- One round of `SyncBlockchainCore` with a peer: the question and its answer. -/
def syncRound (peer : Blockchain) (z : ℤ) (d : Download) : Download :=
  handleBlockSync valid irreversible d (answer peer z d)

end

/-- The condition that ends the loop of `SyncBlockchainCore`. -/
def Synced (targetBlock : Block) (d : Download) : Prop :=
  (∃ m, d.bc.getMainTail = some m ∧ targetBlock.height ≤ m.height) ∨ d.curBlock.hash = targetBlock.hash

/-! ## The answer of the peer -/

section
variable {bc : Blockchain} {m c w : Block} {ml s : List Block}

/-- The walk from a block to one of its ancestors. -/
theorem walkBack_eq (hc : bc.IsChain (c :: s)) : ∀ {Q : List Block} {w : Block} {acc : List Block},
    bc.IsChain (w :: Q ++ c :: s) →
      walkBack bc c.hash (w.height.toNat + 1) w acc = c :: (Q.reverse ++ w :: acc)
  | [], w, acc, h => by
    cases h with
    | grow hp _ =>
      have hne : w.hash ≠ c.hash := by
        intro heq
        have hwc := hp.1.eq_of_hash hp.2.1 heq
        have hwp := hp.2.2.2
        rw [hwc] at hwp
        omega
      rw [fuel_of_parent hp.2.2 hc.level_nonneg, walkBack, if_neg hne, getBlockByHash_parent hp hc]
      simp [walkBack]
  | p :: Q, w, acc, h => by
    cases h with
    | grow hp hrest =>
      have hlevel : c.height < p.height := hrest.level_lt c (by simp)
      have hwp : w.height = p.height + 1 := bc.tree.parent_level hp
      have hne : w.hash ≠ c.hash := by
        intro heq
        have hwc := hp.1.eq_of_hash (hc.stored c (by simp)) heq
        rw [hwc] at hwp
        omega
      rw [fuel_of_parent hp.2.2 hrest.level_nonneg, walkBack, if_neg hne, getBlockByHash_parent hp hrest]
      dsimp only
      rw [walkBack_eq hc hrest]
      simp

/-- A walk that meets no block with the hash ends with the genesis block. -/
theorem walkBack_missing {start : Hash} : ∀ {l : List Block} {w : Block} {acc : List Block},
    bc.IsChain (w :: l) → (∀ x ∈ w :: l, x.hash ≠ start) → (∀ g, bc.tree.Root g → g.parentHash = none) →
      walkBack bc start (w.height.toNat + 1) w acc = l.reverse ++ w :: acc
  | [], w, acc, h, hne, hroot => by
    cases h with
    | root hr =>
      rw [walkBack, if_neg (hne w (by simp)), hroot w hr]
      simp only [getBlockByHash, Option.bind_none]
      split_ifs <;> rfl
  | p :: l, w, acc, h, hne, hroot => by
    cases h with
    | grow hp hrest =>
      rw [fuel_of_parent hp.2.2 hrest.level_nonneg, walkBack, if_neg (hne w (by simp)),
        getBlockByHash_parent hp hrest]
      dsimp only
      rw [walkBack_missing hrest (fun x hx => hne x (by simp [hx])) hroot]
      simp

/-- A part of the main chain down to `c`, from its highest block on. -/
theorem walkBack_part (hc : bc.IsChain (c :: s)) {w : Block} {up rest : List Block}
    (h : bc.IsChain (up.reverse ++ c :: s)) (hw : up.reverse ++ c :: s = w :: rest) :
    walkBack bc c.hash (w.height.toNat + 1) w [] = c :: up ∧ w.height = c.height + up.length := by
  rcases hup : up.reverse with _ | ⟨w', Q⟩
  · rw [hup] at hw
    obtain ⟨rfl, -⟩ := List.cons.inj hw
    rw [List.reverse_eq_nil_iff] at hup
    simp [hup, walkBack]
  · rw [hup] at hw h
    obtain ⟨rfl, -⟩ := List.cons.inj hw
    have hall : up = Q.reverse ++ [w'] := by rw [← List.reverse_reverse up, hup, List.reverse_cons]
    have hlength : ((Q ++ c :: s).length : ℤ) = w'.height := h.length_eq
    have hlength' : (s.length : ℤ) = c.height := hc.length_eq
    refine ⟨by rw [walkBack_eq hc h, hall], ?_⟩
    rw [hall]
    simp only [List.length_append, List.length_cons, List.length_reverse, List.length_nil] at hlength ⊢
    omega

/-- **The answer for a block of the main fork**: the block and the next ones up, as many as the count
    says, the block included. -/
theorem handleBlockAsk_eq (hset : bc.Settled m ml) {up : List Block} (hup : m :: ml = up.reverse ++ c :: s)
    (hpos : 0 < c.height) {z : ℕ} (hz : 1 ≤ z) : handleBlockAsk bc c.hash z = .ok (c :: up.take (z - 1)) := by
  have hchain : bc.IsChain (up.reverse ++ c :: s) := hup ▸ hset.chain
  have hc : bc.IsChain (c :: s) := hchain.suffix
  have hstored : bc.Stored c := hc.stored c (by simp)
  have hne : bc.isEmpty = false := hc.genesis_isSome
  have hm : m.height = c.height + up.length := by
    have hlength : (ml.length : ℤ) = m.height := hset.chain.length_eq
    have hlength' : (s.length : ℤ) = c.height := hc.length_eq
    have hboth := congrArg List.length hup
    simp only [List.length_append, List.length_cons, List.length_reverse] at hboth
    omega
  obtain ⟨g, hg⟩ := hc.exists_root
  have hcg : c.hash ≠ g.hash := by
    intro heq
    have hzero := hg.2.2
    rw [← hstored.eq_of_hash hg.2.1 heq] at hzero
    omega
  -- the walk starts at the target height
  set k := min z up.length with hk
  have hpart : up.reverse ++ c :: s = (up.drop k).reverse ++ ((up.take k).reverse ++ c :: s) := by
    rw [← List.append_assoc, ← List.reverse_append, List.take_append_drop]
  have hpartChain : bc.IsChain ((up.take k).reverse ++ c :: s) := by
    obtain ⟨w, rest, hw⟩ := List.exists_cons_of_ne_nil (l := (up.take k).reverse ++ c :: s) (by simp)
    rw [hpart, hw] at hchain
    rw [hw]
    exact hchain.suffix
  obtain ⟨w, rest, hw⟩ := List.exists_cons_of_ne_nil (l := (up.take k).reverse ++ c :: s) (by simp)
  obtain ⟨hwalk, hwheight⟩ := walkBack_part hc hpartChain hw
  rw [List.length_take_of_le (min_le_right _ _)] at hwheight
  have hwmem : w ∈ m :: ml := by
    rw [hup, hpart, hw]
    simp
  have hbyHeight : bc.getBlockByHeight w.height = .ok w := by
    rw [getBlockByHeight, hset.mapped.1 w hwmem]
    exact getBlockByHash_stored hne (hset.chain.stored w hwmem)
  have htarget : (if c.height + z > bc.length then bc.length else c.height + z) = w.height := by
    rw [length_eq hset.sound hset.mainTail]
    split_ifs <;> omega
  have hlength : (c :: up.take k).length = k + 1 := by
    rw [List.length_cons, List.length_take_of_le (min_le_right _ _)]
  have hasked : askedBlocks bc c z = .ok (c :: up.take (z - 1)) := by
    unfold askedBlocks
    dsimp only
    rw [htarget, hbyHeight]
    change (if (z : ℤ) > _ then _ else _) = _
    rw [hwalk, hlength]
    by_cases hall : (z : ℤ) > ((k + 1 : ℕ) : ℤ)
    · -- all blocks up to the main tail
      rw [if_pos hall]
      have hkup : k = up.length := by omega
      rw [hkup, List.take_length, List.take_of_length_le (by omega)]
      rfl
    · rw [if_neg hall, if_neg (by omega)]
      obtain ⟨z', rfl⟩ := Nat.exists_eq_add_of_le' hz
      simp only [Int.toNat_natCast, List.take_succ_cons, List.take_take, Nat.add_sub_cancel]
      rw [min_eq_left (by omega)]
      rfl
  rw [handleBlockAsk, hg.1]
  simp only [if_neg hcg, getBlockByHash_stored hne hstored]
  exact hasked

end

/-! ## The chain of the node -/

section
variable {bc : Blockchain} {m b p : Block} {ml : List Block}

/-- No tail is below the irreversible block number. -/
def NoneFinal (bc : Blockchain) : Prop := ∀ t ∈ bc.tails, bc.irreversibleBlock ≤ t.height

instance (bc : Blockchain) : Decidable (NoneFinal bc) :=
  inferInstanceAs (Decidable (∀ t ∈ bc.tails, bc.irreversibleBlock ≤ t.height))

/-- The chain between two blocks: the main tail is a highest block, and no tail is final. -/
structure AtRest (bc : Blockchain) (m : Block) (ml : List Block) : Prop where
  settled : bc.Settled m ml
  highest : ∀ x, bc.Stored x → x.height ≤ m.height
  notFinal : NoneFinal bc

/-- An update of the main tail that prunes nothing touches the main tail and the map only. -/
theorem updateMainTailIndex_keeps {mapped : List Block} (h : bc.Standing m ml mapped)
    (hok : bc.updateMainTailIndex.1.isOk) (hkeep : ∀ t ∈ bc.tails, bc.irreversibleBlock ≤ t.height) :
    ∃ j map, bc.updateMainTailIndex.2 = { bc with mainTailIndex := j, mainForkMap := map } := by
  obtain ⟨j, map, -, -, -, hmove, -⟩ := h.moveMainTail
  refine ⟨j, map, ?_⟩
  rw [updateMainTailIndex_snd, if_pos hok, hmove, pruneTails, pruneFrom_none]
  intro t ht
  rw [List.append_nil] at ht
  exact not_lt.2 (hkeep t ht)

/-- Nothing is processed in a switch exactly if the main tail stays. -/
theorem parts_nil_iff {sw : Switch} {m₁ m₂ : Block} {l₁ l₂ : List Block} (hparts : sw.Parts (m₁ :: l₁) (m₂ :: l₂))
    (h₁ : bc.IsChain (m₁ :: l₁)) (h₂ : bc.IsChain (m₂ :: l₂)) (hmove : m₂ = m₁ ∨ m₁.height < m₂.height) :
    sw.blocksToProcess = [] ↔ m₂ = m₁ := by
  obtain ⟨C, -, hold, hnew, hdisj⟩ := hparts
  constructor
  · intro hnil
    rw [hnil, List.nil_append] at hnew
    have hmem : m₂ ∈ m₁ :: l₁ := by
      rw [hold, ← hnew]
      simp
    have hle : m₂.height ≤ m₁.height := h₁.level_le hmem
    exact hmove.resolve_right (not_lt.2 hle)
  · rintro rfl
    obtain rfl := h₂.unique h₁
    have hsame : sw.blocksToRollBack = sw.blocksToProcess := List.append_cancel_right (hold.symm.trans hnew)
    rw [hsame] at hdisj
    rcases hnil : sw.blocksToProcess with _ | ⟨x, xs⟩
    · rfl
    · rw [hnil] at hdisj
      exact absurd List.mem_cons_self (hdisj (a := x) List.mem_cons_self)

/-- **A new block**: it becomes the main tail if it is higher, and blocks are processed if it is not a
    child of the main tail then. -/
theorem append_update (h : AtRest bc m ml) (hb : bc.Appendable b p) (hle : bc.irreversibleBlock ≤ b.height) :
    ∃ sw bc₂ l₂, (bc.append b).2.updateMainTailIndex = (.ok sw, bc₂) ∧
      bc₂.Settled (if m.height < b.height then b else m) l₂ ∧ (∀ x, bc₂.Stored x ↔ x = b ∨ bc.Stored x) ∧
      b ∈ bc₂.tails ∧ (sw.blocksToProcess = [] ↔ m = p ∨ ¬ m.height < b.height) ∧
      ∀ t ∈ bc₂.tails, bc₂.irreversibleBlock ≤ t.height := by
  obtain ⟨bc', happ, -, htails, hmain, -, -, -, hirr⟩ := append_spec h.settled.sound hb h.settled.mainTail
  have hstored := (append_stored h.settled.sound hb).2
  have hkeep : ∀ t ∈ bc'.tails, bc'.irreversibleBlock ≤ t.height := by
    intro t ht
    rw [hirr]
    rcases (htails t).1 ht with rfl | ⟨ht, -⟩
    · exact hle
    · exact h.notFinal t ht
  have hallowed : bc.Allowed (some b) := by
    refine ⟨fun x hx => ⟨p, Option.some.inj hx ▸ hb⟩, fun t ht => ?_⟩
    rw [prepare, happ] at ht
    rw [← hirr]
    exact hkeep t ht
  obtain ⟨sw, bc₂, m₁, l₁, m₂, l₂, hup, -, hm₁, hl₁, hset, -, hmove, hparts⟩ := step_spec (.inl h.settled) hallowed
  obtain ⟨mapped, hstanding⟩ := Ready.standing (.inl h.settled) h.highest
  obtain ⟨m', ml', hstanding'⟩ := hstanding.append hb
  rw [prepare, happ] at hup hm₁ hl₁
  rw [happ] at hstored hstanding' ⊢
  dsimp only at hup hm₁ hl₁ hstored hstanding' ⊢
  obtain ⟨j, map, hkeeps⟩ := updateMainTailIndex_keeps hstanding' (by rw [hup]; rfl) hkeep
  rw [hup] at hkeeps
  dsimp only at hkeeps
  subst hkeeps
  obtain rfl : m₁ = if m = p then b else m := Option.some.inj (hm₁.symm.trans hmain)
  have hprocess := parts_nil_iff hparts hl₁ hset.chain hmove
  have hpb := hb.child.2
  have hnew : b ∈ bc'.tails := (htails b).2 (.inl rfl)
  have hhigh : b.height ≤ m₂.height := hset.maximal b hnew
  have htail := getMainTail_mem hset.mainTail
  have hcases : m₂ = b ∨ m₂ ∈ bc.tails ∧ m₂ ≠ p := (htails m₂).1 htail
  have hlow : m₂ ∈ bc.tails → m₂.height ≤ m.height := h.settled.maximal m₂
  by_cases hlt : m.height < b.height
  · -- the new block is the only tail that is so high
    obtain rfl : m₂ = b := by
      rcases hcases with hcase | ⟨hcase, -⟩
      · exact hcase
      · have := hlow hcase
        omega
    refine ⟨sw, _, l₂, hup, ?_, hstored, hnew, hprocess.trans ?_, hkeep⟩
    · rw [if_pos hlt]
      exact hset
    · by_cases hmp : m = p
      · simp [hmp]
      · simp only [hmp, hlt, not_true, or_false, iff_false]
        rintro rfl
        exact lt_irrefl _ hlt
  · have hmp : m ≠ p := by
      rintro rfl
      omega
    rw [if_neg hmp] at hmove hprocess
    obtain rfl : m₂ = m := by
      rcases hmove with hmove | hmove
      · exact hmove
      · rcases hcases with rfl | ⟨hcase, -⟩
        · exact absurd hmove hlt
        · have := hlow hcase
          omega
    refine ⟨sw, _, l₂, hup, ?_, hstored, hnew, hprocess.trans ?_, hkeep⟩
    · rw [if_neg hlt]
      exact hset
    · simp [hlt]

/-- The stored blocks of a run have bounded heights. -/
theorem bounded_of_run (h : Run bc) : ∃ N, ∀ x, bc.Stored x → x.height ≤ N := by
  induction h with
  | genesis g hg =>
    obtain ⟨mapped, hstanding⟩ := standing_genesis hg
    exact hstanding.bounded
  | @step bc op hrun hop ih =>
    obtain ⟨m, ml, hready⟩ := hrun.ready
    obtain ⟨N, hN⟩ := ih
    obtain ⟨mapped, hstanding⟩ := hready.standing hN
    obtain ⟨hirr, m₁, ml₁, hprepared⟩ : (bc.prepare op).irreversibleBlock = bc.irreversibleBlock ∧
        ∃ m₁ ml₁, (bc.prepare op).Standing m₁ ml₁ mapped := by
      cases op with
      | none => exact ⟨rfl, m, ml, hstanding⟩
      | some b =>
        obtain ⟨p, hb⟩ := hop.1 b rfl
        obtain ⟨bc', happ, -, -, -, -, -, -, hirr⟩ := append_spec hready.sound hb hready.mainTail
        exact ⟨by rw [prepare, happ]; exact hirr, hstanding.append hb⟩
    obtain ⟨sw, bc₂, -, -, -, -, hup, -⟩ := step_spec hready hop
    obtain ⟨j, map, hkeeps⟩ := updateMainTailIndex_keeps hprepared (by rw [hup]; rfl) (hirr ▸ hop.2)
    rw [hkeeps]
    exact hprepared.bounded
  | irreversible k _ ih => exact ih

/-- A chain of a run with a block above the genesis block is settled, and its main tail is a highest block. -/
theorem settled_of_run (h : Run bc) (hm : bc.getMainTail = some m) {c : Block} (hc : bc.Stored c)
    (hpos : 0 < c.height) : ∃ ml, bc.Settled m ml ∧ ∀ x, bc.Stored x → x.height ≤ m.height := by
  obtain ⟨m', ml, hready⟩ := h.ready
  obtain rfl : m' = m := Option.some.inj (hready.mainTail.symm.trans hm)
  obtain ⟨N, hN⟩ := bounded_of_run h
  have hset : bc.Settled m' ml := by
    rcases hready with hset | ⟨-, -, hchain, rfl, hall, -⟩
    · exact hset
    · -- there is only the genesis block
      have hzero : m'.height = 0 := by
        cases hchain with
        | root hr => exact hr.2.2
      rw [hall c hc, hzero] at hpos
      exact absurd hpos (lt_irrefl 0)
  refine ⟨ml, hset, fun x hx => ?_⟩
  obtain ⟨t, ht, l, hl, hmem⟩ := hset.sound.exists_tail hN hx
  have hxt : x.height ≤ t.height := hl.level_le hmem
  exact hxt.trans (hset.maximal t ht)

end

/-! ## One round -/

/-- No block of the list leaves a tail below the irreversible block number. -/
def Spares (valid : Block → Bool) (irreversible : Blockchain → Switch → Block → ℤ × List Address) :
    List Block → Download → Prop
  | [], _ => True
  | b :: bs, d => NoneFinal (handleBlockNew valid irreversible d b).bc ∧
      Spares valid irreversible bs (handleBlockNew valid irreversible d b)

section
variable {valid : Block → Bool} {irreversible : Blockchain → Switch → Block → ℤ × List Address} {d : Download}
  {m b c p : Block} {ml : List Block}

theorem settled_final {bc : Blockchain} (h : bc.Settled m ml) (f : ℤ × List Address) : (final bc f).Settled m ml :=
  ⟨⟨h.sound.keyed, h.sound.rooted, h.sound.mem_tails, h.sound.nodup, h.sound.forkLengths_eq⟩, h.mainTail, h.chain,
    h.maximal, h.mapped⟩

/-- A tail is on the main fork only as the main tail. -/
theorem isInMainFork_tail {bc : Blockchain} (h : bc.Settled m ml) (hb : b ∈ bc.tails) :
    bc.isInMainFork b = true ↔ b = m := by
  have hstored := ((h.sound.mem_tails b).1 hb).1
  rw [h.mapped.isInMainFork_iff h.chain hstored]
  constructor
  · intro hmem
    rcases List.mem_cons.1 hmem with rfl | hmem
    · rfl
    · obtain ⟨y, -, hy⟩ := h.chain.exists_child hmem
      exact absurd hy.2.2 (((h.sound.mem_tails b).1 hb).2 y hy.1)
  · rintro rfl
    simp

/-- **The next block**: the current block moves to it if it extends the main tail. -/
theorem handleBlockNew_next (h : AtRest d.bc m ml) (hb : d.bc.Appendable b p) (hvalid : valid b = true)
    (hle : d.bc.irreversibleBlock ≤ b.height) (hfinal : NoneFinal (handleBlockNew valid irreversible d b).bc) :
    ∃ l₂, AtRest (handleBlockNew valid irreversible d b).bc (if m.height < b.height then b else m) l₂ ∧
      (∀ x, (handleBlockNew valid irreversible d b).bc.Stored x ↔ x = b ∨ d.bc.Stored x) ∧
      (handleBlockNew valid irreversible d b).bc.irreversibleBlock ≤ b.height ∧
      (handleBlockNew valid irreversible d b).curBlock =
        if m = p ∧ d.curBlock.height < b.height then b else d.curBlock := by
  obtain ⟨sw, bc₂, l₂, hup, hset, hstored, htail, hnil, -⟩ := append_update h hb hle
  have hset₃ := settled_final hset (irreversible bc₂ sw b)
  have hmain := isInMainFork_tail hset₃ htail
  have hstoredm : d.bc.Stored m := h.settled.chain.stored m (by simp)
  have hne : d.bc.isEmpty = false := h.settled.chain.genesis_isSome
  have hnew : handleBlockNew valid irreversible d b =
      ⟨final bc₂ (irreversible bc₂ sw b), if m = p ∧ d.curBlock.height < b.height then b else d.curBlock⟩ := by
    unfold handleBlockNew
    rw [hb.fresh, hb.child.1, getBlockByHash_stored hne hb.parent, hup]
    simp only [Option.isSome_none, Bool.false_eq_true, if_false, if_neg (not_lt.2 hle), hvalid, if_true]
    have hcases : sw.blocksToProcess.length > 0 ↔ m ≠ p ∧ m.height < b.height := by
      rw [gt_iff_lt, List.length_pos_iff, ne_eq, hnil, not_or, not_not]
    have hlt : m = p → m.height < b.height := by
      rintro rfl
      have := hb.child.2
      omega
    by_cases hpos : sw.blocksToProcess.length > 0
    · rw [if_pos hpos, if_neg fun hboth => (hcases.1 hpos).1 hboth.1]
    · have hin : (final bc₂ (irreversible bc₂ sw b)).isInMainFork b = true ↔ m = p := by
        rw [hmain]
        constructor
        · intro hbm
          by_contra hmp
          rw [if_neg fun hlt => hpos (hcases.2 ⟨hmp, hlt⟩)] at hbm
          rw [← hbm, Stored, hb.fresh] at hstoredm
          cases hstoredm
        · intro hmp
          rw [if_pos (hlt hmp)]
      rw [if_neg hpos]
      simp only [hin]
      split_ifs <;> rfl
  rw [hnew] at hfinal ⊢
  refine ⟨l₂, ⟨hset₃, fun x hx => ?_, hfinal⟩, hstored, hfinal b htail, rfl⟩
  rcases (hstored x).1 hx with rfl | hx
  · split_ifs with hlt
    · exact le_rfl
    · exact not_lt.1 hlt
  · have := h.highest x hx
    split_ifs with hlt
    · exact this.trans hlt.le
    · exact this

/-- A hash is free if no stored block has it. -/
theorem db_eq_none {bc : Blockchain} (hs : bc.Sound) {hash : Hash} (h : ∀ x, bc.Stored x → x.hash ≠ hash) :
    bc.db hash = none := by
  rw [Option.eq_none_iff_forall_ne_some]
  intro x hx
  have hhash := hs.keyed hash x hx
  refine h x ?_ hhash
  rw [Stored, hhash]
  exact hx

/-- A block that is known already changes nothing. -/
theorem handleBlockNew_known (hb : d.bc.Stored b) : handleBlockNew valid irreversible d b = d := by
  have hstored : d.bc.db b.hash = some b := hb
  rw [handleBlockNew, hstored]
  rfl

/-- Blocks that are known already change nothing. -/
theorem foldl_known : ∀ {bs : List Block} {d : Download}, (∀ b ∈ bs, d.bc.Stored b) →
    bs.foldl (handleBlockNew valid irreversible) d = d
  | [], _, _ => rfl
  | b :: bs, d, h => by
    rw [List.foldl_cons, handleBlockNew_known (h b (by simp))]
    exact foldl_known fun x hx => h x (List.mem_cons_of_mem _ hx)

/-- What is said of the blocks behind those that are known. -/
theorem spares_behind : ∀ {l bs : List Block}, (∀ b ∈ l, d.bc.Stored b) → Spares valid irreversible (l ++ bs) d →
    Spares valid irreversible bs d
  | [], _, _, h => h
  | a :: l, bs, hknown, h => by
    rw [List.cons_append, Spares, handleBlockNew_known (hknown a (by simp))] at h
    exact spares_behind (fun x hx => hknown x (List.mem_cons_of_mem _ hx)) h.2

/-- The blocks of an answer that are new: the last one becomes the main tail if it is higher, and the
    current block if one of them extends the main tail. -/
theorem foldl_next : ∀ {bs : List Block} {d : Download} {p m : Block} {ml : List Block},
    Spares valid irreversible bs d → AtRest d.bc m ml → d.bc.Stored p → List.IsChain Block.isValidParentOf (p :: bs) →
      (∀ b ∈ bs, valid b = true ∧ d.bc.db b.hash = none) → (bs.map Block.hash).Nodup →
      d.bc.irreversibleBlock ≤ p.height + 1 → d.curBlock.height ≤ p.height →
    ∃ l', AtRest (bs.foldl (handleBlockNew valid irreversible) d).bc
        (if m.height < p.height + bs.length then bs.getLastD p else m) l' ∧
      (∀ x, (bs.foldl (handleBlockNew valid irreversible) d).bc.Stored x ↔ x ∈ bs ∨ d.bc.Stored x) ∧
      (bs.foldl (handleBlockNew valid irreversible) d).bc.irreversibleBlock ≤ p.height + bs.length + 1 ∧
      (bs.foldl (handleBlockNew valid irreversible) d).curBlock =
        if m.height + (if p = m then 0 else 1) < p.height + bs.length then bs.getLastD p else d.curBlock
  | [], d, p, m, ml, _, h, hp, _, _, _, hirr, _ => by
    have hpm := h.highest p hp
    simp only [List.foldl_nil, List.length_nil, List.getLastD_nil, List.not_mem_nil, false_or, Nat.cast_zero,
      add_zero]
    rw [if_neg (not_lt.2 hpm), if_neg (by split_ifs <;> omega)]
    exact ⟨ml, h, fun _ => trivial, hirr, rfl⟩
  | b :: bs, d, p, m, ml, hspares, h, hp, hchain, hbs, hnodup, hirr, hcur => by
    obtain ⟨hpb, hchain⟩ := List.isChain_cons_cons.1 hchain
    rw [List.map_cons, List.nodup_cons] at hnodup
    obtain ⟨hvalid, hfresh⟩ := hbs b (by simp)
    have hheight : b.height = p.height + 1 := by
      have := hpb.2
      omega
    have hpm := h.highest p hp
    obtain ⟨l₂, hrest, hstored, hirr₂, hcur₂⟩ :=
      handleBlockNew_next h ⟨hfresh, hp, hpb⟩ hvalid (hirr.trans_eq hheight.symm) hspares.1
    have hbm : b ≠ m := by
      rintro rfl
      have hm := h.settled.chain.stored b (by simp)
      rw [Stored, hfresh] at hm
      cases hm
    have hspares₂ := hspares.2
    set d₂ := handleBlockNew valid irreversible d b
    have hbs₂ : ∀ x ∈ bs, valid x = true ∧ d₂.bc.db x.hash = none := by
      intro x hx
      obtain ⟨hvalidx, hfreshx⟩ := hbs x (List.mem_cons_of_mem _ hx)
      refine ⟨hvalidx, db_eq_none hrest.settled.sound fun y hy heq => ?_⟩
      rcases (hstored y).1 hy with rfl | hy
      · exact hnodup.1 (heq ▸ List.mem_map_of_mem hx)
      · rw [Stored, heq, hfreshx] at hy
        cases hy
    obtain ⟨l', hrest', hstored', hirr', hcur'⟩ := foldl_next hspares₂ hrest ((hstored b).2 (.inl rfl)) hchain
      hbs₂ hnodup.2 (by omega) (by rw [hcur₂]; split_ifs <;> omega)
    rw [List.foldl_cons, List.getLastD_cons, List.length_cons]
    have hlength : p.height + ((bs.length + 1 : ℕ) : ℤ) = b.height + bs.length := by omega
    have hlast : bs = [] → bs.getLastD b = b := by
      rintro rfl
      rfl
    have hnil : bs = [] ↔ (bs.length : ℤ) = 0 := by rw [Nat.cast_eq_zero, List.length_eq_zero_iff]
    rw [hlength]
    refine ⟨l', ?_, fun x => ?_, hirr', ?_⟩
    · by_cases hlt : m.height < b.height
      · rw [if_pos (by omega)]
        rw [if_pos hlt] at hrest'
        by_cases hlt' : b.height < b.height + bs.length
        · rwa [if_pos hlt'] at hrest'
        · rw [if_neg hlt'] at hrest'
          rwa [hlast (hnil.2 (by omega))]
      · rwa [if_neg hlt] at hrest'
    · rw [hstored', hstored, List.mem_cons, or_assoc, or_left_comm]
    · rw [hcur', hcur₂]
      by_cases hlt : m.height < b.height
      · -- now the main tail is the block
        rw [if_pos hlt, if_pos rfl, add_zero]
        by_cases hpm' : p = m
        · have hinner : (if m = p ∧ d.curBlock.height < b.height then b else d.curBlock) = b :=
            if_pos ⟨hpm'.symm, by omega⟩
          rw [hinner, if_pos hpm', add_zero, if_pos (show m.height < b.height + bs.length by omega)]
          by_cases hlt' : b.height < b.height + bs.length
          · rw [if_pos hlt']
          · rw [if_neg hlt', hlast (hnil.2 (by omega))]
        · have hinner : (if m = p ∧ d.curBlock.height < b.height then b else d.curBlock) = d.curBlock :=
            if_neg fun hboth => hpm' hboth.1.symm
          rw [hinner, if_neg hpm']
          have heq : m.height + 1 = b.height := by omega
          rw [heq]
      · have hpm' : p ≠ m := by
          rintro rfl
          omega
        have hinner : (if m = p ∧ d.curBlock.height < b.height then b else d.curBlock) = d.curBlock :=
          if_neg fun hboth => hpm' hboth.1.symm
        rw [hinner, if_neg hlt, if_neg hbm, if_neg hpm']

/-- Where a download stands: of the blocks `up` that the peer has above the current block the node
    knows the first `k`. -/
structure Knows (valid : Block → Bool) (up : List Block) (d : Download) (m : Block) (ml : List Block) (k : ℕ) :
    Prop where
  rest : AtRest d.bc m ml
  chain : List.IsChain Block.isValidParentOf (d.curBlock :: up)
  nodup : (up.map Block.hash).Nodup
  current : d.bc.Stored d.curBlock
  stored : ∀ x ∈ up.take k, d.bc.Stored x
  fresh : ∀ x ∈ up.drop k, valid x = true ∧ d.bc.db x.hash = none
  within : k ≤ up.length
  notFinal : d.bc.irreversibleBlock ≤ d.curBlock.height + k + 1

/-- The heights along a chain. -/
theorem height_getLastD : ∀ {bs : List Block} {p : Block}, List.IsChain Block.isValidParentOf (p :: bs) →
    (bs.getLastD p).height = p.height + bs.length
  | [], p, _ => by simp
  | b :: bs, p, h => by
    obtain ⟨hpb, h⟩ := List.isChain_cons_cons.1 h
    have hheight := hpb.2
    rw [List.getLastD_cons, height_getLastD h, List.length_cons]
    omega

theorem getLastD_append {α : Type} {A B : List α} {a : α} : (A ++ B).getLastD a = B.getLastD (A.getLastD a) := by
  induction A generalizing a with
  | nil => rfl
  | cons x A ih => rw [List.cons_append, List.getLastD_cons, List.getLastD_cons, ih]

theorem isChain_getLastD : ∀ {A B : List Block} {p : Block}, List.IsChain Block.isValidParentOf (p :: (A ++ B)) →
    List.IsChain Block.isValidParentOf (A.getLastD p :: B)
  | [], _, _, h => h
  | a :: A, B, p, h => by
    rw [List.getLastD_cons]
    exact isChain_getLastD (List.isChain_cons_cons.1 h).2

/-- **One round** from a current block of which the first `k` blocks above are known: the answer
    brings those up to the count. -/
theorem foldl_answer {up : List Block} {k z : ℕ} (h : Knows valid up d m ml k) (hk : k ≤ z)
    (hspares : Spares valid irreversible (up.take z) d) :
    ∃ l', AtRest ((up.take z).foldl (handleBlockNew valid irreversible) d).bc
        (if m.height < d.curBlock.height + (up.take z).length then (up.take z).getLastD d.curBlock else m) l' ∧
      (∀ x, ((up.take z).foldl (handleBlockNew valid irreversible) d).bc.Stored x ↔ x ∈ up.take z ∨ d.bc.Stored x) ∧
      ((up.take z).foldl (handleBlockNew valid irreversible) d).bc.irreversibleBlock ≤
        d.curBlock.height + (up.take z).length + 1 ∧
      ((up.take z).foldl (handleBlockNew valid irreversible) d).curBlock =
        if m.height + (if (up.take k).getLastD d.curBlock = m then 0 else 1) <
            d.curBlock.height + (up.take z).length then (up.take z).getLastD d.curBlock else d.curBlock := by
  have hsplit : up.take z = up.take k ++ (up.drop k).take (z - k) := by
    rw [← List.take_append_drop k (up.take z), List.take_take, min_eq_left hk, List.drop_take]
  have hchain : List.IsChain Block.isValidParentOf (d.curBlock :: (up.take k ++ up.drop k)) := by
    rw [List.take_append_drop]
    exact h.chain
  have hknown : List.IsChain Block.isValidParentOf (d.curBlock :: up.take k) := h.chain.take (k + 1)
  have hlength : (up.take k).length = k := List.length_take_of_le h.within
  have hheight := height_getLastD hknown
  have hp : d.bc.Stored ((up.take k).getLastD d.curBlock) := by
    rcases List.mem_cons.1 (List.getLastD_mem_cons (a := d.curBlock) (l := up.take k)) with heq | hmem
    · rw [heq]
      exact h.current
    · exact h.stored _ hmem
  have hlast : (up.take z).getLastD d.curBlock =
      ((up.drop k).take (z - k)).getLastD ((up.take k).getLastD d.curBlock) := by rw [hsplit, getLastD_append]
  have htotal : d.curBlock.height + ((up.take z).length : ℤ) =
      ((up.take k).getLastD d.curBlock).height + (((up.drop k).take (z - k)).length : ℤ) := by
    rw [hheight, hsplit, List.length_append]
    omega
  obtain ⟨l', hrest, hstored, hirr, hcur⟩ := foldl_next (spares_behind h.stored (hsplit ▸ hspares)) h.rest hp
    ((isChain_getLastD hchain).take (z - k + 1))
    (fun b hb => h.fresh b (List.mem_of_mem_take hb))
    (h.nodup.sublist (((List.take_sublist _ _).trans (List.drop_sublist _ _)).map _))
    (by rw [hheight, hlength]; exact h.notFinal) (by rw [hheight]; omega)
  have hfold : (up.take z).foldl (handleBlockNew valid irreversible) d =
      ((up.drop k).take (z - k)).foldl (handleBlockNew valid irreversible) d := by
    rw [hsplit, List.foldl_append, foldl_known h.stored]
  rw [hfold, htotal, hlast]
  refine ⟨l', hrest, fun x => ?_, hirr, hcur⟩
  rw [hstored, hsplit, List.mem_append]
  constructor
  · rintro (hx | hx)
    · exact .inl (.inr hx)
    · exact .inr hx
  · rintro ((hx | hx) | hx)
    · exact .inr (h.stored x hx)
    · exact .inl hx
    · exact .inr hx

/-- The peer's main chain from the current block on. -/
structure Above (peer : Blockchain) (t : Block) (up : List Block) (c : Block) : Prop where
  pos : 0 < c.height
  split : ∃ tl s, peer.Settled t tl ∧ t :: tl = up.reverse ++ c :: s

theorem answer_eq {peer : Blockchain} {t : Block} {up : List Block} (h : Above peer t up d.curBlock) {z : ℕ}
    (hz : 1 ≤ z) : answer peer z d = d.curBlock :: up.take (z - 1) := by
  obtain ⟨tl, s, hset, hsplit⟩ := h.split
  rw [answer, handleBlockAsk_eq hset hsplit h.pos hz]

theorem syncRound_eq {peer : Blockchain} {t : Block} {up : List Block} (h : Above peer t up d.curBlock) {z : ℕ}
    (hz : 1 ≤ z) (hcur : d.bc.Stored d.curBlock) (hchain : List.IsChain Block.isValidParentOf (d.curBlock :: up)) :
    syncRound valid irreversible peer z d = (up.take (z - 1)).foldl (handleBlockNew valid irreversible) d := by
  have hlast := height_getLastD (hchain.take (z - 1 + 1))
  rw [syncRound, answer_eq h hz, handleBlockSync, List.getLast?_cons]
  dsimp only
  rw [if_neg, List.foldl_cons, handleBlockNew_known hcur]
  rw [← List.getLastD_eq_getLast?, hlast]
  omega

section
variable {peer : Blockchain} {t : Block} {up : List Block} {k z : ℕ}

/-- The last of the blocks is the main tail of the peer. -/
theorem Above.last (h : Above peer t up c) : up.getLastD c = t := by
  obtain ⟨tl, s, -, hsplit⟩ := h.split
  rcases List.eq_nil_or_concat up with rfl | ⟨up', x, rfl⟩
  · exact (List.cons.inj hsplit).1.symm
  · rw [List.concat_eq_append, List.reverse_append] at hsplit
    rw [List.concat_eq_append, List.getLastD_concat]
    exact (List.cons.inj hsplit).1.symm

/-- The peer's main chain from a later block on. -/
theorem Above.drop (h : Above peer t up c) (hchain : List.IsChain Block.isValidParentOf (c :: up)) (n : ℕ) :
    Above peer t (up.drop n) ((up.take n).getLastD c) := by
  obtain ⟨tl, s, hset, hsplit⟩ := h.split
  have hheight := height_getLastD (hchain.take (n + 1))
  have hpos := h.pos
  refine ⟨by omega, tl, ?_⟩
  rcases List.eq_nil_or_concat (up.take n) with hnil | ⟨up', x, htake⟩
  · refine ⟨s, hset, ?_⟩
    rw [hsplit, hnil, List.getLastD_nil]
    conv_lhs => rw [← List.take_append_drop n up, hnil, List.nil_append]
  · refine ⟨up'.reverse ++ c :: s, hset, ?_⟩
    rw [List.concat_eq_append] at htake
    rw [hsplit, htake, List.getLastD_concat]
    conv_lhs => rw [← List.take_append_drop n up, htake]
    simp

/-- The current block moves to the last block of the answer. -/
theorem Knows.move (h : Knows valid up d m ml k) (hz : k ≤ z) (hspares : Spares valid irreversible (up.take z) d)
    (hmove : m.height + (if (up.take k).getLastD d.curBlock = m then 0 else 1) <
      d.curBlock.height + (up.take z).length) :
    ∃ l', ((up.take z).foldl (handleBlockNew valid irreversible) d).curBlock = (up.take z).getLastD d.curBlock ∧
      Knows valid (up.drop z) ((up.take z).foldl (handleBlockNew valid irreversible) d)
        ((up.take z).getLastD d.curBlock) l' 0 := by
  obtain ⟨l', hrest, hstored, hirr, hcur⟩ := foldl_answer h hz hspares
  rw [if_pos hmove] at hcur
  have hlt : m.height < d.curBlock.height + (up.take z).length := by
    split_ifs at hmove <;> omega
  rw [if_pos hlt] at hrest
  set d₁ := (up.take z).foldl (handleBlockNew valid irreversible) d
  have hheight := height_getLastD (h.chain.take (z + 1))
  have hsplit : List.IsChain Block.isValidParentOf (d.curBlock :: (up.take z ++ up.drop z)) := by
    rw [List.take_append_drop]
    exact h.chain
  have hnodup : ((up.take z ++ up.drop z).map Block.hash).Nodup := by
    rw [List.take_append_drop]
    exact h.nodup
  rw [List.map_append, List.nodup_append] at hnodup
  refine ⟨l', hcur, hrest, ?_, hnodup.2.1, ?_, by simp, fun x hx => ?_, Nat.zero_le _, ?_⟩
  · rw [hcur]
    exact isChain_getLastD hsplit
  · rw [hcur, hstored]
    rcases List.mem_cons.1 (List.getLastD_mem_cons (a := d.curBlock) (l := up.take z)) with heq | hmem
    · rw [heq]
      exact .inr h.current
    · exact .inl hmem
  · obtain ⟨hvalid, hfresh⟩ := h.fresh x (List.drop_subset_drop_left _ hz hx)
    refine ⟨hvalid, db_eq_none hrest.settled.sound fun y hy heq => ?_⟩
    rcases (hstored y).1 hy with hy | hy
    · exact hnodup.2.2 _ (List.mem_map_of_mem hy) _ (List.mem_map_of_mem hx) heq
    · rw [Stored, heq, hfresh] at hy
      cases hy
  · rw [hcur, hheight]
    omega

/-- The main tail is that of the peer, or below it. -/
def Reaches (t m : Block) : Prop := m = t ∨ m.height < t.height

/-- The last block of an answer, which is all that the peer has or is below its main tail. -/
theorem Above.reaches (h : Above peer t up c) (hchain : List.IsChain Block.isValidParentOf (c :: up)) (z : ℕ) :
    Reaches t ((up.take z).getLastD c) := by
  rcases le_or_gt up.length z with hle | hlt
  · rw [List.take_of_length_le hle]
    exact .inl h.last
  · right
    rw [← h.last, height_getLastD hchain, height_getLastD (hchain.take (z + 1)), List.length_take]
    omega

/-- **Whether the loop ends** is whether the main tail of the peer has been reached. -/
theorem Knows.synced (h : Knows valid up d m ml k) (habove : Above peer t up d.curBlock) (hreaches : Reaches t m) :
    Synced t d ↔ d.bc.getMainTail = some t := by
  have hmain := h.rest.settled.mainTail
  rw [Synced, hmain]
  constructor
  · rintro (⟨m', hm', hle⟩ | hcur)
    · obtain rfl := Option.some.inj hm'
      exact congrArg some (hreaches.resolve_right (not_lt.2 hle))
    · -- the current block is a block of the peer
      obtain ⟨tl, s, hset, hsplit⟩ := habove.split
      have hc : d.curBlock ∈ t :: tl := by
        rw [hsplit]
        simp
      have heq : d.curBlock = t := (hset.chain.stored _ hc).eq_of_hash (hset.chain.stored t (by simp)) hcur
      have hle := h.rest.highest _ h.current
      rw [heq] at hle
      exact congrArg some (hreaches.resolve_right (not_lt.2 hle))
  · intro hm
    exact .inl ⟨t, hm, le_rfl⟩

/-- A node whose current block is its main tail reaches the peer's, and no other one. -/
theorem follows_peer (hz : 2 ≤ z) {n : ℕ} :
    ∀ {up : List Block} {d : Download} {ml : List Block}, up.length ≤ n → Knows valid up d d.curBlock ml 0 →
      Above peer t up d.curBlock →
      (∀ k, Spares valid irreversible (answer peer z ((syncRound valid irreversible peer z)^[k] d))
        ((syncRound valid irreversible peer z)^[k] d)) →
      (∃ k, Synced t ((syncRound valid irreversible peer z)^[k] d)) ∧
        ∀ k, Synced t ((syncRound valid irreversible peer z)^[k] d) ↔
          ((syncRound valid irreversible peer z)^[k] d).bc.getMainTail = some t := by
  induction n with
  | zero =>
    intro up d ml hlength h habove hspares
    rw [Nat.le_zero, List.length_eq_zero_iff] at hlength
    subst hlength
    have hlast := habove.last
    rw [List.getLastD_nil] at hlast
    have hfix : syncRound valid irreversible peer z d = d := by
      rw [syncRound_eq habove (by omega) h.current h.chain, List.take_nil, List.foldl_nil]
    refine ⟨⟨0, .inr (congrArg Block.hash hlast)⟩, fun k => ?_⟩
    rw [Function.iterate_fixed hfix]
    exact h.synced habove (.inl hlast)
  | succ n ih =>
    intro up d ml hlength h habove hspares
    have hround : syncRound valid irreversible peer z d = _ := syncRound_eq habove (by omega) h.current h.chain
    have hreaches := habove.reaches h.chain 0
    rw [List.take_zero, List.getLastD_nil] at hreaches
    rcases Nat.eq_zero_or_pos up.length with hnil | hpos
    · exact ih (by omega) h habove hspares
    · have hmove : d.curBlock.height + (if (up.take 0).getLastD d.curBlock = d.curBlock then 0 else 1) <
          d.curBlock.height + (up.take (z - 1)).length := by
        rw [List.take_zero, List.getLastD_nil, if_pos rfl, List.length_take]
        omega
      have hspares₀ : Spares valid irreversible (answer peer z d) d := hspares 0
      rw [answer_eq habove (by omega)] at hspares₀
      obtain ⟨l', hcur, hknows⟩ := h.move (Nat.zero_le (z - 1))
        (spares_behind (l := [d.curBlock]) (by simpa using h.current) hspares₀) hmove
      rw [← hround] at hcur hknows
      rw [← hcur] at hknows
      have habove' := habove.drop h.chain (z - 1)
      rw [← hcur] at habove'
      obtain ⟨⟨k, hk⟩, hall⟩ := ih (by rw [List.length_drop]; omega) hknows habove' fun k => hspares (k + 1)
      refine ⟨⟨k + 1, hk⟩, fun k => ?_⟩
      cases k with
      | zero => exact h.synced habove hreaches
      | succ k => exact hall k

/-- A round that brings nothing new is the last one that does anything. -/
theorem iterate_syncRound (h : Above peer t up d.curBlock) (hz : 1 ≤ z) (hcur : d.bc.Stored d.curBlock)
    (hchain : List.IsChain Block.isValidParentOf (d.curBlock :: up))
    (hknown : ∀ x ∈ up.take (z - 1), d.bc.Stored x) (n : ℕ) :
    (syncRound valid irreversible peer z)^[n] d = d := by
  apply Function.iterate_fixed
  rw [syncRound_eq h hz hcur hchain, foldl_known hknown]

/-- Whether the target is reached, by the heights. -/
theorem AtRest.synced_iff {target : Block} (h : AtRest d.bc m ml) (hcur : d.curBlock.hash ≠ target.hash) :
    Synced target d ↔ target.height ≤ m.height := by
  rw [Synced, or_iff_left hcur, h.settled.mainTail]
  simp

/-- The rounds of a download: whether they end, whether they end with the peer's main tail, and what the node
    asks for if they do not. -/
structure Rounds (valid : Block → Bool) (irreversible : Blockchain → Switch → Block → ℤ × List Address)
    (peer : Blockchain) (z : ℕ) (d : Download) (t : Block) (ends : Prop) : Prop where
  ends_iff : (∃ n, Synced t ((syncRound valid irreversible peer z)^[n] d)) ↔ ends
  synced_iff : ∀ n, Synced t ((syncRound valid irreversible peer z)^[n] d) ↔
    ((syncRound valid irreversible peer z)^[n] d).bc.getMainTail = some t
  asksAgain : ¬ ends → ∀ n, ((syncRound valid irreversible peer z)^[n] d).curBlock = d.curBlock

theorem Knows.rounds (hz : 2 ≤ z) (h : Knows valid up d m ml k) (habove : Above peer t up d.curBlock)
    (hbehind : m.height < t.height) (hfirst : (up.take k).getLastD d.curBlock = m → d.curBlock = m)
    (hspares : ∀ n, Spares valid irreversible (answer peer z ((syncRound valid irreversible peer z)^[n] d))
      ((syncRound valid irreversible peer z)^[n] d)) :
    Rounds valid irreversible peer z d t
      (d.curBlock = m ∨ m.height + 2 ≤ d.curBlock.height + (z - 1) ∨ t.height ≤ d.curBlock.height + (z - 1)) := by
  have hround : syncRound valid irreversible peer z d = _ := syncRound_eq habove (by omega) h.current h.chain
  have hknown := height_getLastD (h.chain.take (k + 1))
  have hlengthk : (up.take k).length = k := List.length_take_of_le h.within
  have hp : d.bc.Stored ((up.take k).getLastD d.curBlock) := by
    rcases List.mem_cons.1 (List.getLastD_mem_cons (a := d.curBlock) (l := up.take k)) with heq | hmem
    · rw [heq]
      exact h.current
    · exact h.stored _ hmem
  have hpm := h.rest.highest _ hp
  have hcm := h.rest.highest _ h.current
  have ht : t.height = d.curBlock.height + up.length := by rw [← habove.last, height_getLastD h.chain]
  have hct : d.curBlock.hash ≠ t.hash := by
    obtain ⟨tl, s, hset, hsplit⟩ := habove.split
    intro heq
    have hc : d.curBlock ∈ t :: tl := by
      rw [hsplit]
      simp
    rw [(hset.chain.stored _ hc).eq_of_hash (hset.chain.stored t (by simp)) heq] at hcm
    omega
  have hzero : d.curBlock = m → k = 0 := by
    intro hcm'
    rw [← hcm'] at hpm
    omega
  have hstart : Synced t d ↔ d.bc.getMainTail = some t := h.synced habove (.inr hbehind)
  by_cases hkz : k ≤ z - 1
  · have hlength : (up.take (z - 1)).length = min (z - 1) up.length := List.length_take
    have hspares₀ : Spares valid irreversible (answer peer z d) d := hspares 0
    rw [answer_eq habove (by omega)] at hspares₀
    have hspares₁ := spares_behind (l := [d.curBlock]) (by simpa using h.current) hspares₀
    by_cases hmove : m.height + (if (up.take k).getLastD d.curBlock = m then 0 else 1) <
        d.curBlock.height + (up.take (z - 1)).length
    · -- the current block moves to the main tail
      obtain ⟨l', hcur, hknows⟩ := h.move hkz hspares₁ hmove
      rw [← hround] at hcur hknows
      rw [← hcur] at hknows
      have habove' := habove.drop h.chain (z - 1)
      rw [← hcur] at habove'
      obtain ⟨⟨n, hn⟩, hall⟩ := follows_peer hz le_rfl hknows habove' fun n => hspares (n + 1)
      have hends : d.curBlock = m ∨ m.height + 2 ≤ d.curBlock.height + (z - 1) ∨
          t.height ≤ d.curBlock.height + (z - 1) := by
        by_cases hpm' : (up.take k).getLastD d.curBlock = m
        · exact .inl (hfirst hpm')
        · rw [if_neg hpm'] at hmove
          right
          left
          omega
      refine ⟨iff_of_true ⟨n + 1, hn⟩ hends, fun n => ?_, fun hnot => absurd hends hnot⟩
      cases n with
      | zero => exact hstart
      | succ n => exact hall n
    · -- the current block stays
      obtain ⟨l', hrest, hstored, -, hcur⟩ := foldl_answer h hkz hspares₁
      rw [if_neg hmove] at hcur
      rw [← hround] at hrest hstored hcur
      have hlater : ∀ n, (syncRound valid irreversible peer z)^[n + 1] d = syncRound valid irreversible peer z d := by
        intro n
        rw [Function.iterate_succ_apply]
        refine iterate_syncRound (by rwa [hcur]) (by omega) ?_ (by rw [hcur]; exact h.chain) ?_ n
        · rw [hcur, hstored]
          exact .inr h.current
        · exact fun x hx => (hstored x).2 (.inl hx)
      have hexists : (∃ n, Synced t ((syncRound valid irreversible peer z)^[n] d)) ↔
          Synced t (syncRound valid irreversible peer z d) := by
        constructor
        · rintro ⟨_ | n, hn⟩
          · exact absurd ((h.rest.synced_iff hct).1 hn) (not_le.2 hbehind)
          · rwa [hlater n] at hn
        · exact fun hn => ⟨1, hn⟩
      have hlast := height_getLastD (h.chain.take (z - 1 + 1))
      have hreaches := habove.reaches h.chain (z - 1)
      have hct' : (syncRound valid irreversible peer z d).curBlock.hash ≠ t.hash := by rwa [hcur]
      have hsynced := hrest.synced_iff hct'
      refine ⟨?_, fun n => ?_, fun _ n => ?_⟩
      · have hcm' : d.curBlock ≠ m := by
          intro hcm'
          rw [hzero hcm', List.take_zero, List.getLastD_nil, if_pos hcm'] at hmove
          rw [hcm'] at hmove ht
          omega
        have hpm' : (up.take k).getLastD d.curBlock ≠ m := fun hpm' => hcm' (hfirst hpm')
        rw [if_neg hpm'] at hmove
        rw [hexists, hsynced, or_iff_right hcm']
        split_ifs with hlt <;> omega
      · cases n with
        | zero => exact hstart
        | succ n =>
          rw [hlater n, hsynced, hrest.settled.mainTail, Option.some.injEq]
          split_ifs with hlt
          · constructor
            · exact fun hle => hreaches.resolve_right (not_lt.2 hle)
            · intro heq
              rw [heq]
          · refine iff_of_false (not_le.2 hbehind) ?_
            rintro rfl
            exact lt_irrefl _ hbehind
      · cases n with
        | zero => rfl
        | succ n => rw [hlater n, hcur]
  · -- the whole answer is known
    have hstay : ∀ n, (syncRound valid irreversible peer z)^[n] d = d :=
      iterate_syncRound habove (by omega) h.current h.chain fun x hx => h.stored x
        (List.take_subset_take_left _ (by omega) hx)
    have hwithin := h.within
    refine ⟨iff_of_false ?_ ?_, fun n => by rw [hstay n]; exact hstart, fun _ n => by rw [hstay n]⟩
    · rintro ⟨n, hn⟩
      rw [hstay n] at hn
      exact absurd ((h.rest.synced_iff hct).1 hn) (not_le.2 hbehind)
    · rintro (hcm' | hnear | hnear)
      · have := hzero hcm'
        omega
      · omega
      · omega

end

end

/-! ## The start of a download -/

section
variable {bc peer : Blockchain} {c p x : Block}

theorem isChain_parent : ∀ {l : List Block}, bc.IsChain l → List.IsChain (fun a p => p.isValidParentOf a) l
  | _, .root _ => List.isChain_singleton _
  | _, .grow hp h => List.isChain_cons_cons.2 ⟨hp.2.2, isChain_parent h⟩

/-- The blocks with the same hash are the same at the two nodes. -/
def SameHashes (bc peer : Blockchain) : Prop := ∀ x y, bc.Stored x → peer.Stored y → x.hash = y.hash → x = y

/-- The start of a download: of the node's blocks on its main chain the current one is the highest that
    the peer has, and the peer has it on its main chain.  All blocks of the peer are validated, and those
    that the node has not pruned yet may grow on. -/
structure Started (valid : Block → Bool) (peer : Blockchain) (t : Block) (d : Download) (m : Block) : Prop where
  peerRun : Run peer
  run : Run d.bc
  target : peer.getMainTail = some t
  mainTail : d.bc.getMainTail = some m
  behind : m.height < t.height
  same : SameHashes d.bc peer
  valid : ∀ x, peer.Stored x → valid x = true
  current : d.bc.Stored d.curBlock
  onMain : ∃ l, peer.IsChain (t :: l) ∧ d.curBlock ∈ t :: l
  highest : peer.Stored m → m = d.curBlock
  aboveGenesis : 0 < d.curBlock.height
  irreversible : d.bc.irreversibleBlock ≤ d.curBlock.height
  notFinal : NoneFinal d.bc

/-- **A start block on a side fork** of the peer: its walk down the main fork misses the block, the
    answer begins with the genesis block, and the node refuses it. -/
theorem sideFork_stuck {valid : Block → Bool} {irreversible : Blockchain → Switch → Block → ℤ × List Address}
    {d : Download} {t : Block} {z : ℕ} (hrun : Run peer) (ht : peer.getMainTail = some t)
    (hgenesis : ∀ g, peer.genesis = some g → g.parentHash = none) (hcur : peer.Stored d.curBlock)
    (hside : ¬ peer.isInMainFork d.curBlock) (hz : 1 ≤ z) (hlow : z ≤ d.curBlock.height) (n : ℕ) :
    (syncRound valid irreversible peer z)^[n] d = d := by
  apply Function.iterate_fixed
  obtain ⟨tl, hset, hhighest⟩ := settled_of_run hrun ht hcur (by omega)
  have hnot : d.curBlock ∉ t :: tl := fun hmem => hside ((hset.mapped.isInMainFork_iff hset.chain hcur).2 hmem)
  have hne : peer.isEmpty = false := hset.chain.genesis_isSome
  obtain ⟨g, hg⟩ := hset.chain.exists_root
  have hcg : d.curBlock.hash ≠ g.hash := by
    intro heq
    have hzero := hg.2.2
    rw [← hcur.eq_of_hash hg.2.1 heq] at hzero
    omega
  -- the block at the target height, and the main chain below it
  have hhigh := hhighest _ hcur
  obtain ⟨w, hwmem, hw⟩ : ∃ w ∈ t :: tl, peer.tree.level w = min (d.curBlock.height + z) t.height :=
    hset.chain.exists_level (by omega) (min_le_right _ _)
  have hw : w.height = min (d.curBlock.height + z) t.height := hw
  obtain ⟨pre, rest, hsplit⟩ := List.append_of_mem hwmem
  have hchain : peer.IsChain (w :: rest) := (hsplit ▸ hset.chain).suffix
  have hmiss : ∀ x ∈ w :: rest, x.hash ≠ d.curBlock.hash := by
    intro x hx heq
    rw [(hchain.stored x hx).eq_of_hash hcur heq] at hx
    rw [hsplit] at hnot
    exact hnot (List.mem_append_right _ hx)
  have hbyHeight : peer.getBlockByHeight w.height = .ok w := by
    rw [getBlockByHeight, hset.mapped.1 w hwmem]
    exact getBlockByHash_stored hne (hset.chain.stored w hwmem)
  have htarget : (if d.curBlock.height + z > peer.length then peer.length else d.curBlock.height + z) = w.height := by
    rw [length_eq hset.sound hset.mainTail]
    split_ifs <;> omega
  have hlength : (rest.length : ℤ) = w.height := hchain.length_eq
  have hasked : askedBlocks peer d.curBlock z = .ok ((w :: rest).reverse.take z) := by
    unfold askedBlocks
    dsimp only
    rw [htarget, hbyHeight]
    change (if (z : ℤ) > _ then _ else _) = _
    rw [walkBack_missing hchain hmiss fun g hg => hgenesis g hg.1, if_neg, if_neg (by omega), Int.toNat_natCast,
      ← List.reverse_cons]
    · rfl
    · simp only [List.length_append, List.length_reverse, List.length_singleton]
      omega
  -- the last block of the answer
  obtain ⟨r, up, hup⟩ := List.exists_cons_of_ne_nil (l := (w :: rest).reverse) (by simp)
  have hascending : List.IsChain Block.isValidParentOf (r :: up) := by
    rw [← hup, List.isChain_reverse]
    exact isChain_parent hchain
  have hlast : up.getLastD r = w := by
    rw [← List.getLast_eq_getLastD (by simp)]
    simp [← hup]
  have hheight := height_getLastD hascending
  have hlengths := congrArg List.length hup
  simp only [List.length_reverse, List.length_cons] at hlengths
  have hheight' := height_getLastD (hascending.take (z - 1 + 1))
  have hanswer : (w :: rest).reverse.take z = r :: up.take (z - 1) := by
    rw [hup]
    conv_lhs => rw [← Nat.sub_add_cancel hz]
    rfl
  have hasks : handleBlockAsk peer d.curBlock.hash z = .ok (r :: up.take (z - 1)) := by
    rw [handleBlockAsk, hg.1]
    simp only [if_neg hcg, getBlockByHash_stored hne hcur]
    exact hasked.trans (congrArg Except.ok hanswer)
  rw [syncRound, answer, hasks]
  dsimp only
  rw [handleBlockSync, List.getLast?_cons]
  dsimp only
  rw [if_pos]
  rw [← List.getLastD_eq_getLast?, hheight', List.length_take]
  rw [hlast] at hheight
  omega

/-- The block `a` is on a side fork. -/
theorem sideFork_stuck_short :
    let g : Block := ⟨"g", none, 0, "m", false⟩
    let a : Block := ⟨"a", some "g", 1, "m", false⟩
    let b : Block := ⟨"b", some "g", 1, "n", false⟩
    let b' : Block := ⟨"b'", some "b", 2, "n", false⟩
    let one := ((init.append g).2.prepare (some a)).updateMainTailIndex.2
    let two := (one.prepare (some b)).updateMainTailIndex.2
    let peer := (two.prepare (some b')).updateMainTailIndex.2
    ∀ n, (syncRound (fun _ => true) (fun _ _ _ => (0, [])) peer 1)^[n] ⟨one, a⟩ = ⟨one, a⟩ := by
  intro g a b b' one two peer n
  have h₁ : (init.append g).2.Allowed (some a) :=
    ⟨fun _ h => ⟨g, Option.some.inj h ▸ ⟨rfl, rfl, rfl, rfl⟩⟩, by decide⟩
  have h₂ : one.Allowed (some b) :=
    ⟨fun _ h => ⟨g, Option.some.inj h ▸ ⟨by decide, by unfold Stored; decide, rfl, rfl⟩⟩, by decide⟩
  have h₃ : two.Allowed (some b') :=
    ⟨fun _ h => ⟨b, Option.some.inj h ▸ ⟨by decide, by unfold Stored; decide, rfl, rfl⟩⟩, by decide⟩
  have hrun : Run peer := .step (some b') (.step (some b) (.step (some a) (.genesis g rfl) h₁) h₂) h₃
  have hgenesis : peer.genesis = some g := by decide
  exact sideFork_stuck hrun (t := b') (by decide) (fun x hx => by rw [← Option.some.inj (hgenesis.symm.trans hx)])
    (by unfold Stored; decide) (by decide) le_rfl (by decide) n

instance decidableSpares (valid : Block → Bool) (irreversible : Blockchain → Switch → Block → ℤ × List Address) :
    ∀ (bs : List Block) (d : Download), Decidable (Spares valid irreversible bs d)
  | [], _ => .isTrue trivial
  | _ :: bs, _ => @instDecidableAnd _ _ inferInstance (decidableSpares valid irreversible bs _)

/-- Miners of a committee of three, with two blocks a slot. -/
def ofThree (bc : Blockchain) (_ : Switch) (b : Block) : ℤ × List Address :=
  let bc := bc.updateIrreversibleBlockNumber b.minerPublicKey 3 2
  (bc.irreversibleBlock, bc.last2by3MinedCommitteeMembers)

end

/-! ### A fork of one block -/

namespace Forked

def g : Block := ⟨"g", none, 0, "m", false⟩
def a : Block := ⟨"a", some "g", 1, "m", false⟩
def b : Block := ⟨"b", some "a", 2, "m", false⟩
def c : Block := ⟨"c", some "a", 2, "n", false⟩
def e : Block := ⟨"e", some "c", 3, "n", false⟩

/-- What the two have in common. -/
def common : Blockchain := ((init.append g).2.prepare (some a)).updateMainTailIndex.2

/-- The node has gone on with `b`. -/
def node : Blockchain := (common.prepare (some b)).updateMainTailIndex.2

/-- The peer has gone on with `c` and `e`. -/
def peer : Blockchain := ((common.prepare (some c)).updateMainTailIndex.2.prepare (some e)).updateMainTailIndex.2

theorem run_common : Run common :=
  .step (some a) (.genesis g rfl) ⟨fun _ h => ⟨g, Option.some.inj h ▸ ⟨rfl, rfl, rfl, rfl⟩⟩, by decide⟩

theorem stored_a : common.Stored a := by unfold Stored; decide

theorem allowed_b : common.Allowed (some b) :=
  ⟨fun _ h => ⟨a, Option.some.inj h ▸ ⟨by decide, stored_a, rfl, rfl⟩⟩, by decide⟩

theorem allowed_c : common.Allowed (some c) :=
  ⟨fun _ h => ⟨a, Option.some.inj h ▸ ⟨by decide, stored_a, rfl, rfl⟩⟩, by decide⟩

theorem run_c : Run (common.prepare (some c)).updateMainTailIndex.2 := .step (some c) run_common allowed_c

theorem allowed_e : (common.prepare (some c)).updateMainTailIndex.2.Allowed (some e) :=
  ⟨fun _ h => ⟨c, Option.some.inj h ▸ ⟨by decide, by unfold Stored; decide, rfl, rfl⟩⟩, by decide⟩

theorem stored_node (x : Block) : node.Stored x ↔ x ∈ some b ∨ common.Stored x := run_common.stored_step allowed_b x

theorem stored_peer (x : Block) : peer.Stored x ↔ x ∈ some e ∨ x ∈ some c ∨ common.Stored x :=
  (run_c.stored_step allowed_e x).trans (or_congr_right (run_common.stored_step allowed_c x))

theorem sameHashes : SameHashes node peer := by
  intro x y hx hy heq
  rcases (stored_node x).1 hx with hxb | hxcommon
  · rcases (stored_peer y).1 hy with hye | hyc | hycommon
    · cases hye
      cases hxb
      exact absurd heq (by decide)
    · cases hyc
      cases hxb
      exact absurd heq (by decide)
    · exact hx.eq_of_hash ((stored_node y).2 (.inr hycommon)) heq
  · exact ((stored_peer x).2 (.inr (.inr hxcommon))).eq_of_hash hy heq

theorem started : Started (fun _ => true) peer e ⟨node, a⟩ b where
  peerRun := .step (some e) run_c allowed_e
  run := .step (some b) run_common allowed_b
  target := by decide
  mainTail := by decide
  behind := by decide
  same := sameHashes
  valid _ _ := rfl
  current := (stored_node a).2 (.inr stored_a)
  onMain := by
    obtain ⟨m, ml, hready⟩ := (Run.step (some e) run_c allowed_e).ready
    have hstored := (stored_peer a).2 (.inr (.inr stored_a))
    obtain ⟨la, hla⟩ := hready.sound.rooted a hstored
    have hc : peer.Stored c := (stored_peer c).2 (.inr (.inl rfl))
    exact ⟨c :: a :: la, .grow ⟨(stored_peer e).2 (.inl rfl), hc, rfl, rfl⟩ (.grow ⟨hc, hstored, rfl, rfl⟩ hla), by simp⟩
  highest hb := by
    rcases (stored_peer b).1 hb with h | h | h
    · exact absurd h (by decide)
    · exact absurd h (by decide)
    · exact absurd h (by unfold Stored; decide)
  aboveGenesis := by decide
  irreversible := by decide
  notFinal := by decide

end Forked

end BulkSync
end Timbre
