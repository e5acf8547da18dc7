/-
  The pool of blocks that cannot be appended yet.

  `GetTails` keeps one child for each parent, and takes the children that are no parents.  **It
  returns the blocks without pooled children in every order of the maps exactly if none of
  them has a pooled sibling** (`getTails_iff`).
-/
import Mathlib.Data.List.Chain
import Mathlib.Data.List.Induction
import Mathlib.Data.List.Perm.Basic
import Timbre.Core.Blockchain
import Timbre.Lib.Forest
import Timbre.Storage.LRU

namespace Timbre

/-! ## The source -/

open Storage

/-- `string(block.ParentHash())`. -/
def Block.parentKey (b : Block) : Hash := b.parentHash.getD ""

/-- The blocks under their hashes.  The pool has one more mutex, around every call. -/
abbrev Blockpool := LRU Hash Block

/-- `NewBlockpool`. -/
def newBlockpool (capacity : ℤ) : Except String Blockpool := newLRU Hash Block capacity

namespace Blockpool

def add (block : Block) : Call Blockpool Stop Unit := LRU.add block.hash block

def remove (blockHash : Hash) : Call Blockpool Stop Unit := LRU.remove blockHash

/-- `Peek` of a block that must be there. -/
def peekBlock (hash : Hash) : Call Blockpool Stop Block := do
  match ← LRU.peek hash with
  | none => throw (.panic "interface conversion: interface {} is nil, not *core.Block")
  | some block => return block

/-- The first loop of `GetTails`: `parentChild[string(block.ParentHash())] = block`. -/
def children : List Hash → AList (fun _ : Hash => Block) → Call Blockpool Stop (AList fun _ : Hash => Block)
  | [], parentChild => return parentChild
  | hash :: hashes, parentChild => do
    let block ← peekBlock hash
    children hashes (parentChild.insert block.parentKey block)

/-- `GetTails`.  The keys of the pool come in the order `range`, those of the map of the children
    in the order `range'`. -/
def getTails (range range' : RangeOrder Hash) : Call Blockpool Stop (List Block) := do
  let parentChild ← children (← LRU.keys range) ∅
  return ((range'.list parentChild.keys).filterMap parentChild.lookup).filter (·.hash ∉ parentChild)

/-- The loop of `GetChainByTail`. -/
def ancestors : ℕ → Hash → Call Blockpool Stop (List Block)
  | 0, _ => throw (.panic "out of fuel")
  | fuel + 1, hash => do
    if ← LRU.contains hash then
      let parent ← peekBlock hash
      return parent :: (← ancestors fuel parent.parentKey)
    else return []

/-- `GetChainByTail`. -/
def getChainByTail (tail : Block) : Call Blockpool Stop (List Block) := do
  if ← LRU.contains tail.hash then
    let size := (← MonadState.get).size
    return (tail :: (← ancestors (size + 1) tail.parentKey)).reverse
  else return []

/-! ## What the pool holds -/

/-- The pool holds these blocks, each under its hash. -/
def Pools (bp : Blockpool) (blocks : List Block) : Prop :=
  ∃ capacity l, bp.Holds capacity l ∧ l.entries = blocks.map fun b => (b.hash, b)

/-- The blocks are linked as a forest: the links from a block to its parent go up to blocks of
    which the parent is missing. -/
def Acyclic (blocks : List Block) : Prop :=
  ∃ rank : Block → ℕ, ∀ c ∈ blocks, ∀ p ∈ blocks, c.parentKey = p.hash → rank p < rank c

variable {bp : Blockpool} {blocks : List Block}

namespace Pools

theorem nodup (h : bp.Pools blocks) : (blocks.map Block.hash).Nodup := by
  obtain ⟨-, l, -, hl⟩ := h
  have hnodup := l.nodup
  rwa [hl, List.map_map] at hnodup

theorem eq_of_hash (h : bp.Pools blocks) {b b' : Block} (hb : b ∈ blocks) (hb' : b' ∈ blocks)
    (hhash : b.hash = b'.hash) : b = b' := List.inj_on_of_nodup_map h.nodup hb hb' hhash

theorem find (h : bp.Pools blocks) (hash : Hash) :
    LRU.peek hash bp = (.ok (blocks.find? (·.hash = hash)), bp) ∧
      LRU.contains hash bp = (.ok (blocks.find? (·.hash = hash)).isSome, bp) := by
  obtain ⟨capacity, l, hholds, hl⟩ := h
  have hfind : l.find hash = blocks.find? (·.hash = hash) := by
    rw [Recency.find, hl, List.find?_map, Option.map_map]
    exact Option.map_id'
  exact ⟨hfind ▸ hholds.peek hash, hfind ▸ hholds.contains hash⟩

theorem find_of_mem (h : bp.Pools blocks) {b : Block} (hb : b ∈ blocks) :
    blocks.find? (·.hash = b.hash) = some b := by
  cases hfind : blocks.find? (·.hash = b.hash) with
  | none => exact absurd (List.find?_eq_none.1 hfind b hb) (by simp)
  | some b' =>
    have hhash : b'.hash = b.hash := by simpa using List.find?_some hfind
    rw [h.eq_of_hash (List.mem_of_find?_eq_some hfind) hb hhash]

theorem peekBlock (h : bp.Pools blocks) {b : Block} (hb : b ∈ blocks) :
    Blockpool.peekBlock b.hash bp = (.ok b, bp) := by
  rw [Blockpool.peekBlock, Call.bind_of_ok (h.find b.hash).1, h.find_of_mem hb]
  rfl

theorem new {capacity : ℤ} (h : 1 ≤ capacity) : ∃ bp, newBlockpool capacity = .ok bp ∧ bp.Pools [] := by
  obtain ⟨bp, hnew, hholds⟩ : ∃ bp, newLRU Hash Block capacity = .ok bp ∧ bp.Holds capacity .empty :=
    LRU.holds_newLRU h
  exact ⟨bp, hnew, capacity, _, hholds, rfl⟩

theorem size_eq (h : bp.Pools blocks) : bp.size = blocks.length := by
  obtain ⟨capacity, l, hholds, hl⟩ := h
  rw [hholds.size_eq, hl, List.length_map]

/-- The keys of the pool are the hashes of its blocks, in some order. -/
theorem keys (h : bp.Pools blocks) (range : RangeOrder Hash) :
    ∃ hashes, LRU.keys range bp = (.ok hashes, bp) ∧ hashes.Perm (blocks.map Block.hash) ∧
      hashes = range.list bp.elements.keys := by
  obtain ⟨capacity, l, hholds, hl⟩ := h
  refine ⟨_, hholds.keys range, (range.perm _).trans ?_, rfl⟩
  have hkeys := hholds.represents.keys_perm
  rwa [hholds.represents.keys_eq, Recency.keys, hl, List.map_map] at hkeys

/-- A new block takes the place of one with its hash, and the oldest goes if there are too many. -/
theorem add (h : bp.Pools blocks) (block : Block) :
    ∃ bp' blocks', Blockpool.add block bp = (.ok (), bp') ∧ bp'.Pools blocks' ∧
      (blocks' = blocks.filter (·.hash ≠ block.hash) ++ [block] ∨
        blocks' = (blocks.filter (·.hash ≠ block.hash) ++ [block]).tail) := by
  obtain ⟨capacity, l, hholds, hl⟩ := h
  obtain ⟨bp', hcall, hbp'⟩ := hholds.add block.hash block
  have htouch : (l.touch block.hash block).entries =
      (blocks.filter (·.hash ≠ block.hash) ++ [block]).map fun b => (b.hash, b) := by
    rw [Recency.entries_touch, Recency.entries_erase, hl, List.filter_map, List.map_append]
    rfl
  unfold Recency.add at hbp'
  split_ifs at hbp'
  · refine ⟨bp', _, hcall, ⟨capacity, _, hbp', ?_⟩, .inr rfl⟩
    rw [Recency.entries_dropFirst, htouch, List.map_tail]
  · exact ⟨bp', _, hcall, ⟨capacity, _, hbp', htouch⟩, .inl rfl⟩

theorem remove (h : bp.Pools blocks) (blockHash : Hash) :
    ∃ bp', Blockpool.remove blockHash bp = (.ok (), bp') ∧
      bp'.Pools (blocks.filter (·.hash ≠ blockHash)) := by
  obtain ⟨capacity, l, hholds, hl⟩ := h
  obtain ⟨bp', hcall, hbp'⟩ := hholds.remove blockHash
  refine ⟨bp', hcall, capacity, _, hbp', ?_⟩
  rw [Recency.entries_erase, hl, List.filter_map]
  rfl

/-- The forest of the blocks. -/
def forest (h : bp.Pools blocks) (rank : Block → ℕ)
    (hrank : ∀ c ∈ blocks, ∀ p ∈ blocks, c.parentKey = p.hash → rank p < rank c) : Forest Block where
  nodes := blocks
  Parent c p := c.parentKey = p.hash
  rank := rank
  parent_unique _ _ _ hp hq hcp hcq := h.eq_of_hash hp hq (hcp.symm.trans hcq)
  rank_lt c p hc hp hlink := hrank c hc p hp hlink

end Pools

/-! ## Chains -/

section
variable {rank : Block → ℕ} {hrank : ∀ c ∈ blocks, ∀ p ∈ blocks, c.parentKey = p.hash → rank p < rank c}

/-- **The loop of `GetChainByTail`** finds the ancestors, if it may run on for long enough. -/
theorem ancestors_spec (h : bp.Pools blocks) {c : Block} {as : List Block} (hline : (h.forest rank hrank).Line c as) :
    ∀ fuel, as.length < fuel → ancestors fuel c.parentKey bp = (.ok as, bp) := by
  induction hline with
  | @root c hroot =>
    intro fuel hfuel
    obtain ⟨fuel, rfl⟩ := Nat.exists_eq_succ_of_ne_zero (Nat.ne_of_gt hfuel)
    have hnone : blocks.find? (·.hash = c.parentKey) = none := by
      rw [List.find?_eq_none]
      intro p hp hlink
      exact hroot p hp (of_decide_eq_true hlink).symm
    have hcontains := (h.find c.parentKey).2
    rw [hnone] at hcontains
    rw [ancestors, Call.bind_of_ok hcontains]
    rfl
  | @grow c p as hp hlink _ ih =>
    intro fuel hfuel
    obtain ⟨fuel, rfl⟩ := Nat.exists_eq_succ_of_ne_zero (Nat.ne_of_gt (Nat.zero_lt_of_lt hfuel))
    have hlink : c.parentKey = p.hash := hlink
    have hcontains := (h.find p.hash).2
    rw [h.find_of_mem hp] at hcontains
    rw [hlink, ancestors, Call.bind_of_ok hcontains, if_pos Option.isSome_some, Call.bind_of_ok (h.peekBlock hp),
      Call.bind_of_ok (ih fuel (by simpa using hfuel))]
    rfl

theorem getChainByTail_spec (h : bp.Pools blocks) {t : Block} (ht : t ∈ blocks) {as : List Block}
    (hline : (h.forest rank hrank).Line t as) : getChainByTail t bp = (.ok (t :: as).reverse, bp) := by
  have hcontains := (h.find t.hash).2
  rw [h.find_of_mem ht] at hcontains
  have hlen : as.length < blocks.length + 1 := Nat.lt_succ_of_lt (hline.length_lt ht)
  rw [getChainByTail, Call.bind_of_ok hcontains, if_pos Option.isSome_some, Call.get_bind, h.size_eq,
    Call.bind_of_ok (ancestors_spec h hline _ hlen)]
  rfl

end

/-- The chain leads, child after parent, from a block of which the parent is not pooled to `t`. -/
structure MaximalRun (blocks chain : List Block) (t : Block) : Prop where
  last : chain.getLast? = some t
  pooled : ∀ b ∈ chain, b ∈ blocks
  linked : chain.IsChain fun p c => c.parentKey = p.hash
  maximal : ∀ b, chain.head? = some b → ∀ p ∈ blocks, b.parentKey ≠ p.hash

theorem maximalRun_of_line {F : Forest Block} (hF : ∀ c p, F.Parent c p ↔ c.parentKey = p.hash) {t : Block}
    {as : List Block} (hline : F.Line t as) (ht : t ∈ F.nodes) : MaximalRun F.nodes (t :: as).reverse t := by
  refine ⟨by simp, ?_, ?_, ?_⟩
  · intro b hb
    rcases List.mem_cons.1 (List.mem_reverse.1 hb) with rfl | hb
    · exact ht
    · exact hline.mem_nodes b hb
  · induction hline with
    | root _ => simp
    | @grow c p as hp hlink _ ih =>
      rw [List.reverse_cons, List.isChain_append]
      refine ⟨ih hp, List.isChain_singleton _, fun x hx y hy => ?_⟩
      obtain rfl : p = x := by simpa using hx
      obtain rfl : c = y := by simpa using hy
      exact (hF _ _).1 hlink
  · induction hline with
    | root hroot =>
      rintro b hb p hp hlink
      obtain rfl := Option.some.inj hb
      exact hroot p hp ((hF _ _).2 hlink)
    | @grow c p as hp _ _ ih =>
      intro b hb
      refine ih hp b ?_
      rw [List.reverse_cons, List.head?_append_of_ne_nil _ (by simp)] at hb
      exact hb

/-! ## Tails -/

/-- The map of the children, when the blocks come in this order. -/
def childOf (order : List Block) : AList fun _ : Hash => Block :=
  order.foldl (fun parentChild block => parentChild.insert block.parentKey block) ∅

/-- Of the children of a parent the last one is kept. -/
theorem lookup_childOf (order : List Block) (hash : Hash) :
    (childOf order).lookup hash = order.reverse.find? (·.parentKey = hash) := by
  induction order using List.reverseRecOn with
  | nil => rfl
  | append_singleton order block ih =>
    rw [childOf, List.foldl_append, List.reverse_append, List.reverse_singleton, List.singleton_append,
      List.find?_cons]
    show ((childOf order).insert block.parentKey block).lookup hash = _
    by_cases hkey : block.parentKey = hash
    · rw [← hkey, AList.lookup_insert]
      simp
    · rw [AList.lookup_insert_ne (Ne.symm hkey), ih]
      simp [hkey]

theorem mem_childOf {order : List Block} {hash : Hash} :
    hash ∈ childOf order ↔ ∃ b ∈ order, b.parentKey = hash := by
  rw [← AList.lookup_isSome, lookup_childOf, List.find?_isSome]
  simp

theorem children_spec (h : bp.Pools blocks) : ∀ (order : List Block) (parentChild : AList fun _ : Hash => Block),
    (∀ b ∈ order, b ∈ blocks) → children (order.map Block.hash) parentChild bp =
      (.ok (order.foldl (fun parentChild block => parentChild.insert block.parentKey block) parentChild), bp)
  | [], _, _ => rfl
  | b :: order, parentChild, hmem => by
    rw [List.map_cons, children, Call.bind_of_ok (h.peekBlock (hmem b (by simp)))]
    exact children_spec h order _ fun c hc => hmem c (by simp [hc])

/-- The tails among the blocks, when these come in this order. -/
def tailsOf (range' : RangeOrder Hash) (order : List Block) : List Block :=
  ((range'.list (childOf order).keys).filterMap (childOf order).lookup).filter (·.hash ∉ childOf order)

theorem parentKey_of_lookup {order : List Block} {hash : Hash} {b : Block}
    (h : (childOf order).lookup hash = some b) : b.parentKey = hash := by
  rw [lookup_childOf] at h
  simpa using List.find?_some h

/-- A tail is the last of the children of its parent, and has no child. -/
theorem mem_tailsOf {range' : RangeOrder Hash} {order : List Block} {b : Block} :
    b ∈ tailsOf range' order ↔ (childOf order).lookup b.parentKey = some b ∧
      ∀ c ∈ order, c.parentKey ≠ b.hash := by
  have hno : b.hash ∉ childOf order ↔ ∀ c ∈ order, c.parentKey ≠ b.hash := by
    rw [mem_childOf]
    push Not
    rfl
  simp only [tailsOf, List.mem_filter, List.mem_filterMap, decide_eq_true_eq, hno]
  refine and_congr_left fun _ => ?_
  constructor
  · rintro ⟨hash, -, hlookup⟩
    rwa [parentKey_of_lookup hlookup]
  · intro hlookup
    refine ⟨b.parentKey, ?_, hlookup⟩
    rw [(range'.perm _).mem_iff, ← AList.mem_keys, ← AList.lookup_isSome, hlookup]
    rfl

theorem nodup_tailsOf (range' : RangeOrder Hash) (order : List Block) : (tailsOf range' order).Nodup := by
  refine List.Nodup.filter _ (List.Nodup.filterMap ?_ ?_)
  · intro hash hash' b hb hb'
    rw [← parentKey_of_lookup hb, ← parentKey_of_lookup hb']
  · exact (range'.perm _).nodup_iff.2 (childOf order).keys_nodup

/-- **`GetTails`** returns the tails among the blocks in the order in which the pool yields them. -/
theorem getTails_spec (h : bp.Pools blocks) (range range' : RangeOrder Hash) :
    ∃ order : List Block, order.Perm blocks ∧ order.map Block.hash = range.list bp.elements.keys ∧
      getTails range range' bp = (.ok (tailsOf range' order), bp) := by
  obtain ⟨hashes, hkeys, hperm, hhashes⟩ := h.keys range
  have hsame : List.Forall₂ (fun hash (b : Block) => hash = b.hash) (blocks.map Block.hash) blocks :=
    List.forall₂_map_left_iff.2 (List.forall₂_same.2 fun b _ => rfl)
  obtain ⟨order, horder, hblocks⟩ := List.perm_comp_forall₂ hperm hsame
  have hmap : hashes = order.map Block.hash := by
    have heq : List.Forall₂ (· = ·) hashes (order.map Block.hash) := List.forall₂_map_right_iff.2 horder
    rwa [List.forall₂_eq_eq_eq] at heq
  refine ⟨order, hblocks, hmap.symm.trans hhashes, ?_⟩
  rw [getTails, Call.bind_of_ok hkeys, hmap,
    Call.bind_of_ok (children_spec h order ∅ fun b hb => hblocks.mem_iff.1 hb)]
  rfl

/-! ## Forks -/

/-- The tails are the blocks without pooled children, once each; their chains hold all blocks and
    are maximal. -/
structure Complete (bp : Blockpool) (blocks tails : List Block) : Prop where
  nodup : tails.Nodup
  mem : ∀ b, b ∈ tails ↔ b ∈ blocks ∧ ∀ c ∈ blocks, c.parentKey ≠ b.hash
  covered : ∀ b ∈ blocks, ∃ t ∈ tails, ∃ chain, getChainByTail t bp = (.ok chain, bp) ∧ b ∈ chain
  chains : ∀ t ∈ tails, ∃ chain, getChainByTail t bp = (.ok chain, bp) ∧ MaximalRun blocks chain t

/-- With these tails, the chains are right. -/
theorem complete_of_mem (h : bp.Pools blocks) (hforest : Acyclic blocks) {tails : List Block} (hnodup : tails.Nodup)
    (hmem : ∀ b, b ∈ tails ↔ b ∈ blocks ∧ ∀ c ∈ blocks, c.parentKey ≠ b.hash) : Complete bp blocks tails := by
  obtain ⟨rank, hrank⟩ := hforest
  refine ⟨hnodup, hmem, fun b hb => ?_, fun t ht => ?_⟩
  · obtain ⟨t, ht, hleaf, as, has, hbas⟩ := (h.forest rank hrank).exists_leaf hb
    exact ⟨t, (hmem t).2 ⟨ht, hleaf⟩, _, getChainByTail_spec h ht has, List.mem_reverse.2 hbas⟩
  · obtain ⟨as, has⟩ := (h.forest rank hrank).exists_line t ((hmem t).1 ht).1
    exact ⟨_, getChainByTail_spec h ((hmem t).1 ht).1 has,
      maximalRun_of_line (fun _ _ => Iff.rfl) has ((hmem t).1 ht).1⟩

/-- The order that leaves a key to the end. -/
def lastOrder (hash : Hash) : RangeOrder Hash where
  list l := if hash ∈ l then l.erase hash ++ [hash] else l
  perm l := by
    split_ifs with hmem
    · exact (List.perm_append_singleton _ _).trans (List.perm_cons_erase hmem).symm
    · rfl

/-- **No pending block is missed exactly if no block without pooled children has a pooled
    sibling**, whatever the order of the maps. -/
theorem getTails_iff (h : bp.Pools blocks) (hforest : Acyclic blocks) :
    (∀ range range' : RangeOrder Hash, ∃ tails, getTails range range' bp = (.ok tails, bp) ∧ Complete bp blocks tails) ↔
      ∀ b ∈ blocks, (∀ c ∈ blocks, c.parentKey ≠ b.hash) →
        ∀ b' ∈ blocks, b'.parentKey = b.parentKey → b' = b := by
  constructor
  · intro hall b hb hleaf b' hb' hsibling
    -- the sibling comes last
    obtain ⟨tails, htails, hcomplete⟩ := hall (lastOrder b'.hash) (lastOrder b'.hash)
    obtain ⟨order, hperm, horder, hspec⟩ := getTails_spec h (lastOrder b'.hash) (lastOrder b'.hash)
    rw [hspec] at htails
    cases htails
    have hkept := (mem_tailsOf.1 ((hcomplete.mem b).2 ⟨hb, hleaf⟩)).1
    have hkey : b'.hash ∈ bp.elements.keys := by
      rw [← ((lastOrder b'.hash).perm _).mem_iff, ← horder]
      exact List.mem_map_of_mem (hperm.mem_iff.2 hb')
    have hlist : (lastOrder b'.hash).list bp.elements.keys = bp.elements.keys.erase b'.hash ++ [b'.hash] :=
      if_pos hkey
    rw [hlist, List.map_eq_append_iff] at horder
    obtain ⟨pre, last, rfl, -, hlast⟩ := horder
    obtain ⟨x, rfl, hx⟩ := List.map_eq_singleton_iff.1 hlast
    have hxb : x = b' := h.eq_of_hash (hperm.mem_iff.1 (by simp)) hb' hx
    rw [lookup_childOf, List.reverse_append, hxb, ← hsibling] at hkept
    simpa using hkept
  · intro hlone range range'
    obtain ⟨order, hperm, -, hspec⟩ := getTails_spec h range range'
    refine ⟨_, hspec, complete_of_mem h hforest (nodup_tailsOf _ _) fun b => ?_⟩
    rw [mem_tailsOf]
    constructor
    · rintro ⟨hkept, hleaf⟩
      rw [lookup_childOf] at hkept
      have hb : b ∈ order := List.mem_reverse.1 (List.mem_of_find?_eq_some hkept)
      exact ⟨hperm.mem_iff.1 hb, fun c hc => hleaf c (hperm.mem_iff.2 hc)⟩
    · rintro ⟨hb, hleaf⟩
      refine ⟨?_, fun c hc => hleaf c (hperm.mem_iff.1 hc)⟩
      cases hkept : (childOf order).lookup b.parentKey with
      | none =>
        refine absurd (mem_childOf.2 ⟨b, hperm.mem_iff.2 hb, rfl⟩) ?_
        exact AList.lookup_eq_none.1 hkept
      | some x =>
        have hx : x ∈ order := by
          rw [lookup_childOf] at hkept
          exact List.mem_reverse.1 (List.mem_of_find?_eq_some hkept)
        rw [hlone b hb hleaf x (hperm.mem_iff.1 hx) (parentKey_of_lookup hkept)]

/-- A block of a fork. -/
def pooledBlock (hash parentHash : Hash) : Block := ⟨hash, some parentHash, 1, "m", false⟩

/-- A pool with two children of one missing block. -/
theorem exists_fork : ∃ bp : Blockpool, bp.Pools [pooledBlock "a" "p", pooledBlock "b" "p"] := by
  obtain ⟨bp, -, hholds⟩ : ∃ bp, newLRU Hash Block 128 = .ok bp ∧ bp.Holds 128 .empty :=
    LRU.holds_newLRU (by decide)
  obtain ⟨bp₁, -, hholds₁⟩ := hholds.add "a" (pooledBlock "a" "p")
  obtain ⟨bp₂, -, hholds₂⟩ := hholds₁.add "b" (pooledBlock "b" "p")
  exact ⟨bp₂, 128, _, hholds₂, by decide⟩

theorem acyclic_fork : Acyclic [pooledBlock "a" "p", pooledBlock "b" "p"] :=
  ⟨fun _ => 0, by decide⟩

theorem getTails_iff_fork : ∃ bp : Blockpool,
    (∀ range range' : RangeOrder Hash, ∃ tails, getTails range range' bp = (.ok tails, bp) ∧
      Complete bp [pooledBlock "a" "p", pooledBlock "b" "p"] tails) ↔
      ∀ b ∈ [pooledBlock "a" "p", pooledBlock "b" "p"],
        (∀ c ∈ [pooledBlock "a" "p", pooledBlock "b" "p"], c.parentKey ≠ b.hash) →
          ∀ b' ∈ [pooledBlock "a" "p", pooledBlock "b" "p"], b'.parentKey = b.parentKey → b' = b := by
  obtain ⟨bp, hbp⟩ := exists_fork
  exact ⟨bp, getTails_iff hbp acyclic_fork⟩

/-- Of two siblings one is missed. -/
theorem not_getTails : ¬ ∀ (bp : Blockpool) (blocks : List Block), bp.Pools blocks → Acyclic blocks →
    ∀ range range' : RangeOrder Hash, ∃ tails, getTails range range' bp = (.ok tails, bp) ∧
      Complete bp blocks tails := by
  intro hall
  obtain ⟨bp, hbp⟩ := exists_fork
  obtain ⟨tails, htails, hcomplete⟩ := hall bp _ hbp acyclic_fork (lastOrder "b") (lastOrder "b")
  obtain ⟨order, -, -, hspec⟩ := getTails_spec hbp (lastOrder "b") (lastOrder "b")
  rw [hspec] at htails
  cases htails
  have ha := (mem_tailsOf.1 ((hcomplete.mem (pooledBlock "a" "p")).2 (by decide))).1
  have hb := (mem_tailsOf.1 ((hcomplete.mem (pooledBlock "b" "p")).2 (by decide))).1
  exact absurd (Option.some.inj (ha.symm.trans hb)) (by decide)

end Blockpool
end Timbre
