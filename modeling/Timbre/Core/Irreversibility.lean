/-
  Going back and forth in the irreversible block number.

  Every block slides the window of recent miners and may raise the number; `SwitchFork` pops the
  miners of the blocks it reverts and then refills the window from the older blocks, which may
  lower the number.  **`reverses_iff` says when this takes a chain back to where it was**: the
  window always comes back, the number only if as many windows have a quorum on the way back.
-/
import Timbre.Core.Finality

namespace Timbre
namespace Blockchain

/-! ## Forth and back -/

/-- The blocks from the first one back to one whose parent is not stored. -/
inductive Lineage (bc : Blockchain) : List Block → Prop
  | root {b : Block} {e : Err} : bc.getBlockByHash b.parentHash = .error e → Lineage bc [b]
  | child {b p : Block} {l : List Block} : bc.getBlockByHash b.parentHash = .ok p →
      Lineage bc (p :: l) → Lineage bc (b :: p :: l)

section
variable (size : UInt32) (numberOfToMineBlockPerSlot : ℕ)

/-- What the syncer is given while the committee keeps its size. -/
def constantSize (b : Block) : SyncInput where
  block := b
  comitteeSize _ := size
  switchSize := size
  numberOfToMineBlockPerSlot
  validated := 0

/-- The chain after the states of the blocks have been updated, from the oldest to the newest,
    which is the first. -/
def counted (bc : Blockchain) (blocks : List Block) : Blockchain :=
  blocks.reverse.foldl (fun bc b => updateStates (constantSize size numberOfToMineBlockPerSlot b) bc b)
    { bc with irreversibleBlock := 0, last2by3MinedCommitteeMembers := [] }

/-- The chain after the first `k` of the blocks have been popped. -/
def popped (bc : Blockchain) (blocks : List Block) (k : ℕ) : Blockchain :=
  (blocks.take k).foldl (fun bc _ => bc.updateIrreversibleBlockNumberWhileReverting) bc

/-- Reverting the blocks `new` leaves the chain as it was after the blocks `old`, and the number
    is never negative on the way. -/
structure Reverses (bc : Blockchain) (b : Block) (new old : List Block) : Prop where
  restored : switchFork (constantSize size numberOfToMineBlockPerSlot b)
    (counted size numberOfToMineBlockPerSlot bc (new ++ old)) ⟨new, [], true⟩ =
      .ok (counted size numberOfToMineBlockPerSlot bc old)
  nonneg : ∀ k, 0 ≤ (popped (counted size numberOfToMineBlockPerSlot bc (new ++ old)) new k).irreversibleBlock

/-! ## What is counted -/

/-- The length of a full window. -/
def span : ℕ := max (size2by3 size * numberOfToMineBlockPerSlot) 1

/-- The miners of the last blocks that fit a window. -/
def recent (blocks : List Block) : List Address :=
  (blocks.map Block.minerPublicKey).take (span size numberOfToMineBlockPerSlot)

/-- Two thirds of the committee are among the miners. -/
def Quorum (members : List Address) : Prop := size2by3 size ≤ members.dedup.length

instance (members : List Address) : Decidable (Quorum size members) :=
  inferInstanceAs (Decidable (_ ≤ _))

/-- The number of blocks that come to a full window and leave it with a quorum. -/
def advances : List Block → ℕ
  | [] => 0
  | b :: blocks => advances blocks +
      if span size numberOfToMineBlockPerSlot ≤ blocks.length ∧
        Quorum size (recent size numberOfToMineBlockPerSlot (b :: blocks)) then 1 else 0

/-- The number of quorums met while a window of the last `filled` miners is refilled with `t`
    older ones. -/
def retreats (blocks : List Block) (filled t : ℕ) : ℕ :=
  (List.range t).countP fun i => Quorum size ((blocks.map Block.minerPublicKey).take (filled + i + 1))

end

variable {size : UInt32} {N : ℕ} {bc : Blockchain} {b : Block} {blocks new old : List Block}

/-! ## Forth -/

theorem one_le_span : 1 ≤ span size N := le_max_right _ _

theorem window_full {n : ℕ} : n = 0 ∨ n < size2by3 size * N ↔ n < span size N := by
  unfold span
  omega

theorem length_recent : (recent size N blocks).length = min (span size N) blocks.length := by
  simp [recent]

theorem quorum_reverse {members : List Address} : Quorum size members.reverse ↔ Quorum size members := by
  have hperm : members.reverse.dedup.Perm members.dedup := (List.reverse_perm members).dedup
  rw [Quorum, Quorum, hperm.length_eq]

/-- The window after one more block. -/
theorem recent_cons : recent size N (b :: blocks) = b.minerPublicKey :: (recent size N blocks).take (span size N - 1) := by
  have hspan : span size N = span size N - 1 + 1 := (Nat.sub_add_cancel one_le_span).symm
  rw [recent, List.map_cons, hspan, List.take_succ_cons, recent, List.take_take, ← hspan,
    Nat.min_eq_left (Nat.sub_le _ _)]

/-- **The window and the number after a chain of blocks.** -/
theorem counted_eq : ∀ blocks : List Block, counted size N bc blocks =
    { bc with
      irreversibleBlock := advances size N blocks
      last2by3MinedCommitteeMembers := (recent size N blocks).reverse }
  | [] => by simp [counted, advances, recent]
  | b :: blocks => by
    have hstep : counted size N bc (b :: blocks) =
        (counted size N bc blocks).updateIrreversibleBlockNumber b.minerPublicKey size N := by
      rw [counted, List.reverse_cons, List.foldl_append]
      rfl
    rw [hstep, counted_eq blocks, updateIrreversibleBlockNumber]
    simp only [window_full, List.length_reverse, length_recent]
    by_cases hfull : span size N ≤ blocks.length
    · rw [Nat.min_eq_left hfull, if_neg (lt_irrefl _)]
      have hwindow : (recent size N blocks).reverse.tail ++ [b.minerPublicKey] =
          (recent size N (b :: blocks)).reverse := by
        rw [recent_cons, List.reverse_cons, List.tail_reverse, List.dropLast_eq_take, length_recent,
          Nat.min_eq_left hfull]
      have hquorum : (recent size N (b :: blocks)).reverse.dedup.length ≥ size2by3 size ↔
          Quorum size (recent size N (b :: blocks)) := quorum_reverse
      simp only [hwindow, advances, hfull, true_and, hquorum]
      split_ifs <;> simp
    · have hshort : blocks.length < span size N := not_le.1 hfull
      rw [Nat.min_eq_right hshort.le, if_pos hshort]
      have hall : (recent size N blocks).take (span size N - 1) = recent size N blocks :=
        List.take_of_length_le (by rw [length_recent]; omega)
      simp [advances, hfull, recent_cons, hall]

/-! ## Back -/

variable (bc) in
/-- **The window and the number after some blocks have been popped.** -/
theorem pops_eq : ∀ (new : List Block) (window : List Address) (number : ℤ),
    new.foldl (fun bc _ => bc.updateIrreversibleBlockNumberWhileReverting)
        { bc with irreversibleBlock := number, last2by3MinedCommitteeMembers := window.reverse } =
      { bc with
        irreversibleBlock := number - (new.length - window.length : ℕ)
        last2by3MinedCommitteeMembers := (window.drop new.length).reverse }
  | [], window, number => by simp
  | _ :: new, [], number => by
    have ih := pops_eq new [] (number - 1)
    rw [List.foldl_cons]
    refine ih.trans ?_
    simp only [List.length_nil, List.length_cons, Nat.sub_zero, List.drop_nil]
    congr 1
    omega
  | _ :: new, m :: window, number => by
    have ih := pops_eq new window number
    rw [List.foldl_cons]
    have hpop : updateIrreversibleBlockNumberWhileReverting
        { bc with irreversibleBlock := number, last2by3MinedCommitteeMembers := (m :: window).reverse } =
        { bc with irreversibleBlock := number, last2by3MinedCommitteeMembers := window.reverse } := by
      have hlast : (window.reverse ++ [m]).dropLast = window.reverse := List.dropLast_concat
      rw [List.reverse_cons, updateIrreversibleBlockNumberWhileReverting]
      split
      · rename_i h
        simp at h
      · rw [hlast]
    rw [hpop, ih]
    simp only [List.length_cons, Nat.add_sub_add_right, List.drop_succ_cons]

theorem Lineage.tail {p : Block} {l : List Block} (h : bc.Lineage (b :: p :: l)) : bc.Lineage (p :: l) := by
  cases h with
  | child _ h => exact h

theorem Lineage.drop : ∀ {new : List Block}, bc.Lineage (new ++ b :: blocks) → bc.Lineage (b :: blocks)
  | [], h => h
  | [_], h => h.tail
  | _ :: y :: new, h => Lineage.drop (show bc.Lineage ((y :: new) ++ b :: blocks) from h.tail)

theorem Lineage.of_drop {n : ℕ} {l : List Block} {c : Block} {rest : List Block} (hl : bc.Lineage l)
    (h : l.drop n = c :: rest) : bc.Lineage (c :: rest) := by
  rw [← List.take_append_drop n l, h] at hl
  exact hl.drop

/-- The walk back along the parents. -/
theorem goBack_lineage : ∀ {n : ℕ} {b : Block} {blocks : List Block} {c : Block} {rest : List Block},
    bc.Lineage (b :: blocks) → (b :: blocks).drop n = c :: rest → bc.goBack n (some b) = some c
  | 0, b, blocks, c, rest, _, h => by
    rw [List.drop_zero] at h
    rw [goBack, (List.cons.inj h).1]
  | n + 1, b, [], c, rest, _, h => by simp at h
  | n + 1, b, p :: blocks, c, rest, hl, h => by
    cases hl with
    | child hp hl =>
      rw [goBack, hp]
      exact goBack_lineage hl h

theorem retreats_succ (blocks : List Block) (filled t : ℕ) : retreats size blocks filled (t + 1) =
    retreats size blocks (filled + 1) t +
      if Quorum size ((blocks.map Block.minerPublicKey).take (filled + 1)) then 1 else 0 := by
  have hshift : ∀ i, filled + (i + 1) + 1 = filled + 1 + i + 1 := fun i => by omega
  rw [retreats, List.range_succ_eq_map, List.countP_cons, List.countP_map]
  simp only [Function.comp_def, Nat.succ_eq_add_one, hshift, decide_eq_true_eq, Nat.add_zero]
  rfl

/-- One miner put back in front of a window that is not full. -/
theorem addMiner_eq {held : List Block} {number : ℤ} (p : Block) (h : held.length < size2by3 size * N) :
    addMinerToIrreversibleBlockNumberCacheWhileReverting { bc with
        irreversibleBlock := number
        last2by3MinedCommitteeMembers := (held.map Block.minerPublicKey).reverse } p.minerPublicKey size N =
      { bc with
        irreversibleBlock := number - if Quorum size ((held ++ [p]).map Block.minerPublicKey) then 1 else 0
        last2by3MinedCommitteeMembers := ((held ++ [p]).map Block.minerPublicKey).reverse } := by
  have hwindow : p.minerPublicKey :: (held.map Block.minerPublicKey).reverse =
      ((held ++ [p]).map Block.minerPublicKey).reverse := by simp
  have hquorum : ((held ++ [p]).map Block.minerPublicKey).reverse.dedup.length ≥ size2by3 size ↔
      Quorum size ((held ++ [p]).map Block.minerPublicKey) := quorum_reverse
  have hshort : (held.map Block.minerPublicKey).reverse.length < size2by3 size * N := by simpa using h
  rw [addMinerToIrreversibleBlockNumberCacheWhileReverting]
  simp only [hshort, or_true, if_true, hwindow, hquorum]
  split_ifs <;> simp

/-- **The window and the number after the refill**: `filled` is what the window holds, of the
    miners of a chain, when the refill starts from the block before. -/
theorem addMiners_eq {inp : SyncInput} (hsize : inp.switchSize = size) (hN : inp.numberOfToMineBlockPerSlot = N) :
    ∀ (t : ℕ) (c : Block) (held rest : List Block) (number : ℤ),
    bc.Lineage (c :: rest) → held.length + t ≤ size2by3 size * N →
    addMiners inp { bc with
        irreversibleBlock := number
        last2by3MinedCommitteeMembers := (held.map Block.minerPublicKey).reverse } t (some c) =
      .ok { bc with
        irreversibleBlock := number - retreats size (held ++ rest) held.length (min t rest.length)
        last2by3MinedCommitteeMembers := ((held ++ rest.take t).map Block.minerPublicKey).reverse }
  | 0, c, held, rest, number, _, _ => by simp [addMiners, retreats]
  | t + 1, c, held, [], number, hl, _ => by
    cases hl with
    | @root _ e he =>
      have he' : getBlockByHash { bc with
        irreversibleBlock := number
        last2by3MinedCommitteeMembers := (held.map Block.minerPublicKey).reverse } c.parentHash = .error e := he
      rw [addMiners, he']
      simp [retreats]
  | t + 1, c, held, p :: rest, number, hl, ht => by
    cases hl with
    | child hp hl =>
      have hp' : getBlockByHash { bc with
        irreversibleBlock := number
        last2by3MinedCommitteeMembers := (held.map Block.minerPublicKey).reverse } c.parentHash = .ok p := hp
      have ih := fun number' => addMiners_eq hsize hN t p (held ++ [p]) rest number' hl
        (by simp only [List.length_append, List.length_singleton]; omega)
      have hjoin : held ++ [p] ++ rest = held ++ p :: rest := List.append_assoc _ _ _
      have htake : ((held ++ p :: rest).map Block.minerPublicKey).take (held.length + 1) =
          (held ++ [p]).map Block.minerPublicKey := by
        rw [← hjoin, ← List.map_take, List.take_left' (by simp)]
      rw [addMiners, hp', hsize, hN]
      dsimp only
      rw [addMiner_eq p (by omega), ih, hjoin, List.length_append, List.length_singleton, List.length_cons,
        Nat.add_min_add_right, retreats_succ, htake, List.take_succ_cons, List.append_assoc]
      congr 2
      split_ifs <;> push_cast <;> omega

/-! ## Forth and back again -/

theorem Lineage.of_number (number : ℤ) (window : List Address) {l : List Block} (h : bc.Lineage l) :
    Lineage { bc with irreversibleBlock := number, last2by3MinedCommitteeMembers := window } l := by
  induction h with
  | root he => exact .root he
  | child hp _ ih => exact .child hp ih

/-- The number of miners that the window still holds of the blocks `old`, when `k` newer ones have
    been popped. -/
def kept (size : UInt32) (N k : ℕ) (old : List Block) : ℕ := min (span size N - k) old.length

theorem drop_recent (new old : List Block) : (recent size N (new ++ old)).drop new.length =
    (old.take (kept size N new.length old)).map Block.minerPublicKey := by
  rw [recent, List.drop_take, List.map_append, List.drop_left' (by simp), kept, ← List.map_take]
  congr 1
  exact List.take_eq_take_min

/-- **The window and the number after a reversal.** -/
theorem revert_eq (b : Block) (hnew : new ≠ []) (hold : old ≠ []) (hl : bc.Lineage (new ++ old)) :
    switchFork (constantSize size N b) (counted size N bc (new ++ old)) ⟨new, [], true⟩ = .ok { bc with
      irreversibleBlock := advances size N (new ++ old) - (new.length - span size N : ℕ) -
        retreats size old (kept size N new.length old)
          (min (size2by3 size * N) old.length - kept size N new.length old)
      last2by3MinedCommitteeMembers := ((old.take (size2by3 size * N)).map Block.minerPublicKey).reverse } := by
  have hk : 0 < new.length := List.length_pos_iff.2 hnew
  have hn : 0 < old.length := List.length_pos_iff.2 hold
  set g := kept size N new.length old with hg
  have hgn : g ≤ old.length := min_le_right _ _
  have hgK : g ≤ size2by3 size * N := by
    have hle : g ≤ span size N - new.length := min_le_left _ _
    unfold span at hle
    omega
  have hheld : (old.take g).length = g := List.length_take_of_le hgn
  have hnumber : (new.length - (recent size N (new ++ old)).length : ℕ) = new.length - span size N := by
    rw [length_recent, List.length_append]
    omega
  have hpops := pops_eq bc new (recent size N (new ++ old)) (advances size N (new ++ old))
  rw [drop_recent, ← hg, hnumber] at hpops
  rw [switchFork, counted_eq]
  dsimp only
  rw [hpops, List.getLast?_eq_some_getLast hnew]
  simp only [List.length_reverse, List.length_map, hheld, List.reverse_nil, List.take_nil, List.foldl_nil]
  set last := new.getLast hnew
  have hlast : bc.Lineage (last :: old) := by
    rw [← List.dropLast_append_getLast hnew, List.append_assoc] at hl
    exact hl.drop
  obtain ⟨c, rest, hrest⟩ : ∃ c rest, (last :: old).drop g = c :: rest :=
    List.exists_cons_of_ne_nil (by rw [Ne, List.drop_eq_nil_iff, List.length_cons]; omega)
  have hold_rest : rest = old.drop g := by
    have htail := congrArg List.tail hrest
    rw [List.tail_drop, List.drop_succ_cons] at htail
    exact htail.symm
  have hwalk := goBack_lineage (hlast.of_number (advances size N (new ++ old) - (new.length - span size N : ℕ))
    ((old.take g).map Block.minerPublicKey).reverse) hrest
  have hsize : (constantSize size N b).switchSize = size := rfl
  have hslot : (constantSize size N b).numberOfToMineBlockPerSlot = N := rfl
  have hrefill := addMiners_eq hsize hslot (size2by3 size * N - g) c (old.take g) rest
    (advances size N (new ++ old) - (new.length - span size N : ℕ))
    (hlast.of_drop hrest) (by omega)
  rw [hwalk]
  show addMiners _ _ (size2by3 size * N - g) (some c) >>= _ = _
  rw [hrefill]
  have hall : old.take g ++ old.drop g = old := List.take_append_drop g old
  have hwindow : old.take g ++ (old.drop g).take (size2by3 size * N - g) = old.take (size2by3 size * N) := by
    rw [← List.take_add, Nat.add_sub_cancel' hgK]
  rw [hold_rest, hall, hwindow, hheld, List.length_drop, Nat.sub_min_sub_right]
  rfl

/-- The number of steps back that lower the number, for `new` blocks above `old` ones: the pops
    from an empty window, and the quorums while it is refilled. -/
def lowered (size : UInt32) (N : ℕ) (new old : List Block) : ℕ :=
  new.length - span size N + retreats size old (kept size N new.length old)
    (min (size2by3 size * N) old.length - kept size N new.length old)

/-- **Reverting leaves the chain as it was** exactly if a full window holds a block at all and the
    reverted blocks have raised the number as often as the way back lowers it. -/
theorem reverses_iff (size : UInt32) (N : ℕ) (bc : Blockchain) (b : Block) (new old : List Block)
    (hl : bc.Lineage (new ++ old)) (hold : old ≠ []) :
    Reverses size N bc b new old ↔ new ≠ [] ∧ 0 < size2by3 size * N ∧
      advances size N (new ++ old) = advances size N old + lowered size N new old := by
  constructor
  · rintro ⟨hrestored, -⟩
    by_cases hnew : new = []
    · subst hnew
      cases hrestored
    rw [revert_eq b hnew hold hl, counted_eq, Except.ok.injEq, Blockchain.mk.injEq] at hrestored
    obtain ⟨-, -, -, -, -, -, hnumber, hwindow⟩ := hrestored
    refine ⟨hnew, Nat.pos_of_ne_zero fun hzero => ?_, ?_⟩
    · have hlength := congrArg List.length hwindow
      simp only [hzero, List.length_reverse, List.length_map, List.length_take, length_recent] at hlength
      have := List.length_pos_iff.2 hold
      have : 1 ≤ span size N := one_le_span
      omega
    · unfold lowered
      omega
  · rintro ⟨hnew, hpos, hcount⟩
    have hspan : span size N = size2by3 size * N := max_eq_left hpos
    refine ⟨?_, fun k => ?_⟩
    · rw [revert_eq b hnew hold hl, counted_eq, Except.ok.injEq, Blockchain.mk.injEq]
      refine ⟨rfl, rfl, rfl, rfl, rfl, rfl, ?_, ?_⟩
      · unfold lowered at hcount
        omega
      · rw [recent, hspan, List.map_take]
    · have hn := List.length_pos_iff.2 hold
      rw [popped, counted_eq, pops_eq]
      dsimp only
      rw [length_recent, List.length_append, List.length_take]
      unfold lowered at hcount
      omega

/-! ## Two miners that take turns -/

def turnBlock (hash : Hash) (parentHash : Option Hash) (height : ℤ) (minerPublicKey : Address) : Block :=
  ⟨hash, parentHash, height, minerPublicKey, false⟩

def turns : List Block := [turnBlock "3" (some "2") 3 "y", turnBlock "2" (some "1") 2 "x",
  turnBlock "1" (some "0") 1 "y", turnBlock "0" none 0 "x"]

def turnChain : Blockchain :=
  { init with genesis := turns.getLast?, db := fun hash => turns.find? fun b => b.hash = hash }

theorem lineage_turns : turnChain.Lineage turns := .child rfl (.child rfl (.child rfl (.root rfl)))

/-- A committee of three, each of whom mines one block in its slot: one block is taken back. -/
theorem reverses_iff_turn : Reverses 3 1 turnChain (turnBlock "3" (some "2") 3 "y") (turns.take 1) (turns.drop 1) ↔
    turns.take 1 ≠ [] ∧ 0 < size2by3 3 * 1 ∧
      advances 3 1 (turns.take 1 ++ turns.drop 1) = advances 3 1 (turns.drop 1) + lowered 3 1 (turns.take 1) (turns.drop 1) :=
  reverses_iff 3 1 turnChain _ (turns.take 1) (turns.drop 1) lineage_turns (by decide)

/-- Two blocks have raised the number twice; taking them back lowers it once. -/
theorem not_reverses : ¬ Reverses 3 1 turnChain (turnBlock "3" (some "2") 3 "y") (turns.take 2) (turns.drop 2) := by
  rintro ⟨hrestored, -⟩
  rw [revert_eq _ (by decide) (by decide) lineage_turns, counted_eq, Except.ok.injEq, Blockchain.mk.injEq] at hrestored
  obtain ⟨-, -, -, -, -, -, hnumber, -⟩ := hrestored
  exact absurd hnumber (by decide)

end Blockchain
end Timbre
