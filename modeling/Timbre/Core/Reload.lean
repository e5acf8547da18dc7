/-
  Reloading: `LoadBlockchain` on the store of a chain.

  The bucket is read as the list of its entries; the map of the children of each parent is
  ranged over in an order of its own.  **`reload_iff` says on which stores the chain that is
  loaded is the one that was built.**
-/
import Timbre.Core.Standing

namespace Timbre
namespace Blockchain

/-! ## The source -/

/-- What the pass over the bucket collects. -/
structure Collected where
  genesis : Option Block
  parentChild : List (Hash × Hash)
  childParent : Hash → Option Hash
  visited : Hash → Bool

/-- `string(block.ParentHash())`. -/
def parentHashStr (b : Block) : Hash := b.parentHash.getD ""

/-- One entry of the bucket.  A later child of a parent takes the place of an earlier one. -/
def collectBlock (isValid : Block → Bool) (c : Collected) (blockHash : Hash) (block : Block) : Except Err Collected :=
  if isValid block = false then .error (.error "error loading blockchain - invalid block")
  else if block.isGenesis then
    if c.genesis.isSome then .error (.error "error setting genesis block - duplicate genesis blocks")
    else .ok { c with genesis := some block }
  else .ok { c with
    parentChild := c.parentChild.filter (·.1 ≠ parentHashStr block) ++ [(parentHashStr block, blockHash)]
    childParent := Function.update c.childParent blockHash (some (parentHashStr block)) }

def collect (isValid : Block → Bool) : Collected → List (Hash × Block) → Except Err Collected
  | c, [] => .ok c
  | c, (blockHash, block) :: t => do
    collect isValid (← collectBlock isValid c blockHash block) t

/-- The tails: the children that are no parents, read through the chain that is being built. -/
def findTails (bc : Blockchain) (parentChild : List (Hash × Hash)) : List (Hash × Hash) → Except Err (List Block)
  | [] => .ok []
  | (_, child) :: t =>
    if (parentChild.lookup child).isSome then findTails bc parentChild t
    else do
      let block ← bc.getBlockByHash (some child)
      return block :: (← findTails bc parentChild t)

/-- The walk from a tail along `childParent`: where it ends, what it has visited, and its length. -/
def walkFork (childParent : Hash → Option Hash) :
    ℕ → Hash → (Hash → Bool) → ℤ → Except Err (Hash × (Hash → Bool) × ℤ)
  | 0, _, _, _ => .error (.panic "out of fuel")
  | fuel + 1, blockHash, visited, currentForkLength =>
    match childParent blockHash with
    | none => .ok (blockHash, visited, currentForkLength)
    | some parentHash =>
      walkFork childParent fuel parentHash (Function.update visited parentHash true) (currentForkLength + 1)

/-- The loop over the tails: the fork lengths, and the index of the first longest fork. -/
def measureForks (childParent : Hash → Option Hash) (fuel : ℕ) (genesis : Block) :
    ℕ → List Block → (Hash → Bool) → (mainTailIndex mainForkLength : ℤ) →
      Except Err (List ℤ × (Hash → Bool) × ℤ)
  | _, [], visited, mainTailIndex, _ => .ok ([], visited, mainTailIndex)
  | i, tail :: t, visited, mainTailIndex, mainForkLength => do
    let (root, visited, currentForkLength) ←
      walkFork childParent fuel tail.hash (Function.update visited tail.hash true) 0
    if root ≠ genesis.hash then
      .error (.error "error loading blockchain - tail block does not have genesis block as root")
    else
      let longer := currentForkLength > mainForkLength
      let (forkLengths, visited, mainTailIndex) ← measureForks childParent fuel genesis (i + 1) t visited
        (if longer then i else mainTailIndex) (if longer then currentForkLength else mainForkLength)
      return (currentForkLength :: forkLengths, visited, mainTailIndex)

/-- The chain that `LoadBlockchain` starts from: nothing but the store. -/
def loading (db : Hash → Option Block) : Blockchain where
  db := db
  genesis := none
  mainTailIndex := 0
  tails := []
  forkLengths := []
  mainForkMap := fun _ => none
  irreversibleBlock := 0
  last2by3MinedCommitteeMembers := []

/-- `LoadBlockchain`.  `entries` is the bucket, `order` the order in which the map of the
    children is ranged over. -/
def loadBlockchain (isValid : Block → Bool) (order : List (Hash × Hash) → List (Hash × Hash))
    (db : Hash → Option Block) (entries : List (Hash × Block)) : Except Err Blockchain := do
  let c ← collect isValid ⟨none, [], fun _ => none, fun _ => false⟩ entries
  match c.genesis with
  | none => .error (.error "error loading blockchain - no genesis block")
  | some genesis =>
    let tails ← findTails (loading db) c.parentChild (order c.parentChild)
    let tails := if tails = [] then [genesis] else tails
    let (forkLengths, visited, mainTailIndex) ←
      measureForks c.childParent (entries.length + 1) genesis 0 tails c.visited (-1) (-1)
    if entries.all fun entry => visited entry.1 then
      let bc := { loading db with
        genesis := some genesis
        tails := tails
        forkLengths := forkLengths
        mainTailIndex := mainTailIndex }
      return bc.updateMainForkMap bc.getMainTail
    else .error (.error "error loading blockchain - <nil> not in any fork")

/-! ## The round trip -/

variable {bc : Blockchain}

/-- The chains built by `Append` and `UpdateMainTailIndex`, called in any order. -/
inductive Built : Blockchain → Prop
  | genesis (g : Block) : g.height = 0 → Built (init.append g).2
  | append {bc : Blockchain} {b p : Block} : Built bc → bc.Appendable b p → Built (bc.append b).2
  | updateMainTailIndex {bc : Blockchain} : Built bc → Built bc.updateMainTailIndex.2

/-- The entries are those of the store. -/
structure Lists (bc : Blockchain) (entries : List (Hash × Block)) : Prop where
  mem : ∀ k b, (k, b) ∈ entries ↔ bc.db k = some b
  keys : (entries.map Prod.fst).Nodup

/-- The loaded chain is the one in memory: the same genesis block, the same tails with the same
    fork lengths, a main tail as high, and, if one tail is the highest, the same map. -/
structure Reloaded (bc bc' : Blockchain) : Prop where
  genesis : bc'.genesis = bc.genesis
  tails : ∀ t forkLength, (t, forkLength) ∈ bc'.tails.zip bc'.forkLengths ↔ (t, forkLength) ∈ bc.tails.zip bc.forkLengths
  mainTail : bc'.getMainTail.map Block.height = bc.getMainTail.map Block.height
  mainForkMap : (∃ t ∈ bc.tails, ∀ u ∈ bc.tails, u ≠ t → u.height < t.height) → bc'.mainForkMap = bc.mainForkMap

theorem Built.standing (h : Built bc) : bc.irreversibleBlock = 0 ∧ ∃ m ml mapped, bc.Standing m ml mapped := by
  induction h with
  | genesis g hg =>
    obtain ⟨mapped, hstanding⟩ := standing_genesis hg
    exact ⟨by rw [append_genesis hg]; rfl, g, [], mapped, hstanding⟩
  | append _ hb ih =>
    obtain ⟨hirr, m, ml, mapped, hstanding⟩ := ih
    obtain ⟨m', ml', hstanding'⟩ := hstanding.append hb
    obtain ⟨bc', happ, -, -, -, -, -, -, hirr'⟩ := append_spec hstanding.sound hb hstanding.mainTail
    exact ⟨by rw [happ]; exact hirr'.trans hirr, m', ml', mapped, hstanding'⟩
  | @updateMainTailIndex bc _ ih =>
    obtain ⟨hirr, m, ml, mapped, hstanding⟩ := ih
    obtain ⟨j, map, m', ml', mapped', hmoved, hstanding', -⟩ := hstanding.moveMainTail
    have hirr' : bc.moveMainTail.irreversibleBlock = 0 := by
      rw [hmoved]
      exact hirr
    have hprune : bc.moveMainTail.pruneTails = bc.moveMainTail := by
      refine pruneFrom_none _ _ fun t ht => ?_
      rw [List.append_nil] at ht
      obtain ⟨l, hl⟩ := hstanding'.sound.rooted t ((hstanding'.sound.mem_tails t).1 ht).1
      rw [hirr']
      exact not_lt.2 hl.level_nonneg
    rw [updateMainTailIndex_snd, hprune, ite_self]
    exact ⟨hirr', m', ml', mapped', hstanding'⟩

/-! ## What is collected -/

section
variable {isValid : Block → Bool} {c c' : Collected} {entries : List (Hash × Block)}

/-- What holds of the map of the children after the entries of a list. -/
structure Children (entries : List (Hash × Block)) (c : Collected) : Prop where
  of_mem : ∀ k v, (k, v) ∈ c.parentChild → ∃ b, (v, b) ∈ entries ∧ b.isGenesis = false ∧ parentHashStr b = k
  mem : ∀ k b, (k, b) ∈ entries → b.isGenesis = false → ∃ v, (parentHashStr b, v) ∈ c.parentChild

theorem collectBlock_children {done : List (Hash × Block)} {k : Hash} {b : Block} (h : Children done c)
    (hok : collectBlock isValid c k b = .ok c') : Children (done ++ [(k, b)]) c' := by
  unfold collectBlock at hok
  split_ifs at hok with hvalid hgen hdup
  · obtain rfl := Except.ok.inj hok
    refine ⟨fun k' v hkv => ?_, fun k' b' hb' hb => ?_⟩
    · obtain ⟨b', hb', hrest⟩ := h.of_mem k' v hkv
      exact ⟨b', List.mem_append_left _ hb', hrest⟩
    · rcases List.mem_append.1 hb' with hb' | hb'
      · exact h.mem k' b' hb' hb
      · obtain ⟨rfl, rfl⟩ := Prod.mk.inj (List.mem_singleton.1 hb')
        rw [hgen] at hb
        cases hb
  · obtain rfl := Except.ok.inj hok
    refine ⟨fun k' v hkv => ?_, fun k' b' hb' hb => ?_⟩
    · rcases List.mem_append.1 hkv with hkv | hkv
      · obtain ⟨b', hb', hrest⟩ := h.of_mem k' v (List.mem_of_mem_filter hkv)
        exact ⟨b', List.mem_append_left _ hb', hrest⟩
      · obtain ⟨rfl, rfl⟩ := Prod.mk.inj (List.mem_singleton.1 hkv)
        exact ⟨b, by simp, by simpa using hgen, rfl⟩
    · by_cases hsame : parentHashStr b' = parentHashStr b
      · exact ⟨k, by rw [hsame]; simp⟩
      · rcases List.mem_append.1 hb' with hb' | hb'
        · obtain ⟨v, hv⟩ := h.mem k' b' hb' hb
          exact ⟨v, List.mem_append_left _ (List.mem_filter.2 ⟨hv, by simpa using hsame⟩)⟩
        · obtain ⟨rfl, rfl⟩ := Prod.mk.inj (List.mem_singleton.1 hb')
          exact absurd rfl hsame

theorem collectBlock_valid {k : Hash} {b : Block} (hok : collectBlock isValid c k b = .ok c') : isValid b = true := by
  unfold collectBlock at hok
  split_ifs at hok with hvalid <;> simpa using hvalid

/-- **The pass over the bucket**, if it goes well: every block is valid, and every parent has a child in the map. -/
theorem collect_spec : ∀ {entries done : List (Hash × Block)} {c : Collected}, Children done c →
    collect isValid c entries = .ok c' → Children (done ++ entries) c' ∧ ∀ e ∈ entries, isValid e.2 = true
  | [], done, c, h, hok => by
    obtain rfl := Except.ok.inj hok
    exact ⟨by rwa [List.append_nil], by simp⟩
  | (k, b) :: t, done, c, h, hok => by
    rw [collect] at hok
    cases hone : collectBlock isValid c k b with
    | error e =>
      rw [hone] at hok
      cases hok
    | ok c₁ =>
      rw [hone] at hok
      obtain ⟨hchildren, hvalid⟩ := collect_spec (collectBlock_children h hone) hok
      rw [List.append_assoc] at hchildren
      refine ⟨hchildren, fun e he => ?_⟩
      rcases List.mem_cons.1 he with rfl | he
      · exact collectBlock_valid hone
      · exact hvalid e he

end

/-- A child that is no parent cannot be read: the chain that is being built has no genesis
    block yet. -/
theorem findTails_of_leaf {db : Hash → Option Block} {parentChild : List (Hash × Hash)} :
    ∀ {l : List (Hash × Hash)}, (∃ e ∈ l, (parentChild.lookup e.2).isSome = false) →
      ∀ tails, findTails (loading db) parentChild l ≠ .ok tails
  | (k, child) :: t, h, tails => by
    rw [findTails]
    split_ifs with hparent
    · refine findTails_of_leaf ?_ tails
      obtain ⟨e, he, hleaf⟩ := h
      rcases List.mem_cons.1 he with rfl | he
      · rw [hparent] at hleaf
        cases hleaf
      · exact ⟨e, he, hleaf⟩
    · have hget : (loading db).getBlockByHash (some child) = .error (.error "BlockChain Not Initilized") := rfl
      rw [hget]
      simp [bind, Except.bind]

/-! ## When the chain comes back -/

section
variable {isValid : Block → Bool} {order : List (Hash × Hash) → List (Hash × Hash)} {entries : List (Hash × Block)}
  {m g : Block} {ml mapped : List Block}

/-- The parent of a stored block that is no genesis block. -/
theorem Standing.parent_of_not_genesis (h : bc.Standing m ml mapped) {b : Block} (hb : bc.Stored b)
    (hgen : b.isGenesis = false) : ∃ p, bc.tree.Parent b p := by
  obtain ⟨l, hl⟩ := h.sound.rooted b hb
  cases hl with
  | grow hp _ => exact ⟨_, hp⟩
  | root hr =>
    rw [Block.isGenesis, decide_eq_false_iff_not] at hgen
    exact absurd hr.2.2 hgen

/-- Among the children that are collected there is one that is no parent. -/
theorem Standing.exists_leaf (h : bc.Standing m ml mapped) (hentries : bc.Lists entries) {c : Collected}
    (hc : Children entries c) {N : ℤ} (hN : ∀ b, bc.Stored b → b.height ≤ N) {b : Block} (hb : bc.Stored b)
    (hgen : b.isGenesis = false) : ∃ e ∈ c.parentChild, (c.parentChild.lookup e.2).isSome = false := by
  -- the child collected for the parent of `b`, and if it is a parent, a child of it in turn
  obtain ⟨v, hv⟩ := hc.mem b.hash b ((hentries.mem _ _).2 hb) hgen
  obtain ⟨y, hy, hygen, hyparent⟩ := hc.of_mem _ _ hv
  have hydb := (hentries.mem _ _).1 hy
  have hyhash : y.hash = v := h.sound.keyed v y hydb
  have hystored : bc.Stored y := by rwa [Stored, hyhash]
  have hheight : y.height = b.height := by
    obtain ⟨p, hp⟩ := h.parent_of_not_genesis hb hgen
    obtain ⟨q, hq⟩ := h.parent_of_not_genesis hystored hygen
    have hpq : q.hash = p.hash := by
      rw [parentHashStr, parentHashStr, hp.2.2.1, hq.2.2.1] at hyparent
      exact hyparent
    have heq : q = p := hq.2.1.eq_of_hash hp.2.1 hpq
    have h₁ := hp.2.2.2
    have h₂ := hq.2.2.2
    rw [heq] at h₂
    omega
  by_cases hleaf : (c.parentChild.lookup v).isSome = false
  · exact ⟨(_, v), hv, hleaf⟩
  · obtain ⟨w, hw⟩ := Option.isSome_iff_exists.1 (Bool.not_eq_false _ ▸ hleaf)
    have hvw : (v, w) ∈ c.parentChild := by
      obtain ⟨l₁, l₂, hsplit, -⟩ := List.lookup_eq_some_iff.1 hw
      rw [hsplit]
      simp
    obtain ⟨z, hz, hzgen, hzparent⟩ := hc.of_mem v w hvw
    have hzdb := (hentries.mem _ _).1 hz
    have hzstored : bc.Stored z := by rwa [Stored, h.sound.keyed w z hzdb]
    obtain ⟨q, hq⟩ := h.parent_of_not_genesis hzstored hzgen
    have hqy : q = y := by
      rw [parentHashStr, hq.2.2.1] at hzparent
      exact hq.2.1.eq_of_hash hystored (hzparent.trans hyhash.symm)
    have hlt : (N - z.height).toNat < (N - b.height).toNat := by
      have h₁ := hq.2.2.2
      have h₂ := hN z hzstored
      rw [hqy] at h₁
      omega
    exact h.exists_leaf hentries hc hN hzstored hzgen
termination_by (N - b.height).toNat

/-- **A chain with more than the genesis block is not loaded.** -/
theorem Standing.loadBlockchain_of_child (h : bc.Standing m ml mapped) (hentries : bc.Lists entries)
    (horder : ∀ l, (order l).Perm l) {b : Block} (hb : bc.Stored b) (hgen : b.isGenesis = false) (bc' : Blockchain) :
    loadBlockchain isValid order bc.db entries ≠ .ok bc' := by
  intro hload
  unfold loadBlockchain at hload
  cases hcollect : collect isValid ⟨none, [], fun _ => none, fun _ => false⟩ entries with
  | error e =>
    rw [hcollect] at hload
    cases hload
  | ok c =>
    rw [hcollect] at hload
    simp only [bind, Except.bind] at hload
    cases hgenesis : c.genesis with
    | none =>
      rw [hgenesis] at hload
      cases hload
    | some g =>
      rw [hgenesis] at hload
      have hempty : Children [] (⟨none, [], fun _ => none, fun _ => false⟩ : Collected) := ⟨by simp, by simp⟩
      obtain ⟨hchildren, -⟩ := collect_spec hempty hcollect
      obtain ⟨N, hN⟩ := h.bounded
      obtain ⟨e, he, hleaf⟩ := h.exists_leaf hentries hchildren hN hb hgen
      have hfail : ∀ tails, findTails (loading bc.db) c.parentChild (order c.parentChild) ≠ .ok tails :=
        findTails_of_leaf ⟨e, (horder _).mem_iff.2 he, hleaf⟩
      cases htails : findTails (loading bc.db) c.parentChild (order c.parentChild) with
      | error e =>
        rw [htails] at hload
        cases hload
      | ok tails => exact hfail tails htails

/-- The walk of the map from a genesis block that is not in it yet. -/
theorem updateMainForkMapFrom_genesis (hnot : ¬ bc.isInMainFork g) :
    bc.updateMainForkMapFrom (0 + 1) g = bc.enterMainFork g := by
  rw [updateMainForkMapFrom, if_neg hnot]
  dsimp only
  split_ifs
  · rfl
  · split <;> rfl

/-- The only entry. -/
theorem Lists.eq_singleton (h : bc.Lists entries) (hdb : ∀ k b, bc.db k = some b ↔ k = g.hash ∧ b = g) :
    entries = [(g.hash, g)] := by
  have hall : ∀ e ∈ entries, e = (g.hash, g) := fun e he => by
    obtain ⟨hk, hb⟩ := (hdb _ _).1 ((h.mem e.1 e.2).1 he)
    exact Prod.ext hk hb
  have hmem : (g.hash, g) ∈ entries := (h.mem _ _).2 ((hdb _ _).2 ⟨rfl, rfl⟩)
  have hkeys := h.keys
  cases entries with
  | nil => exact absurd hmem List.not_mem_nil
  | cons e t =>
    rw [hall e (by simp)] at hkeys ⊢
    cases t with
    | nil => rfl
    | cons e' t =>
      rw [hall e' (by simp), List.map_cons, List.map_cons, List.nodup_cons] at hkeys
      exact absurd (List.mem_cons_self) hkeys.1

/-- Of a chain with nothing else, the genesis block comes back. -/
theorem loadBlockchain_genesis (hg : g.height = 0) (hdb : ∀ k b, bc.db k = some b ↔ k = g.hash ∧ b = g)
    (hentries : bc.Lists entries) (horder : ∀ l, (order l).Perm l) :
    loadBlockchain isValid order bc.db entries =
      if isValid g then .ok { loading bc.db with
        genesis := some g
        tails := [g]
        forkLengths := [0]
        mainForkMap := Function.update (fun _ => none) 0 (some g.hash) }
      else .error (.error "error loading blockchain - invalid block") := by
  have hisGenesis : g.isGenesis = true := by
    rw [Block.isGenesis, decide_eq_true_iff]
    exact hg
  rw [hentries.eq_singleton hdb]
  unfold loadBlockchain
  by_cases hvalid : isValid g
  · have hcollect : collect isValid ⟨none, [], fun _ => none, fun _ => false⟩ [(g.hash, g)] =
        .ok ⟨some g, [], fun _ => none, fun _ => false⟩ := by
      simp [collect, collectBlock, hvalid, hisGenesis, bind, Except.bind]
    have horder' : order [] = [] := List.Perm.eq_nil (horder [])
    have hmeasure : measureForks (fun _ => none) 2 g 0 [g] (fun _ => false) (-1) (-1) =
        .ok ([0], Function.update (fun _ => false) g.hash true, 0) := by
      simp [measureForks, walkFork, bind, Except.bind, pure, Except.pure]
    rw [if_pos hvalid, hcollect]
    simp only [bind, Except.bind, horder', findTails, if_true, List.length_singleton]
    rw [hmeasure]
    simp only [List.all_cons, List.all_nil, Function.update_self, Bool.and_true, if_true]
    set bc₁ : Blockchain := { loading bc.db with
      genesis := some g
      tails := [g]
      forkLengths := [0]
      mainTailIndex := 0 } with hbc₁
    have hmap : bc₁.updateMainForkMap (some g) = bc₁.enterMainFork g := by
      have hfuel : g.height.toNat + 1 = 0 + 1 := by rw [hg]; rfl
      rw [updateMainForkMap, hfuel]
      exact updateMainForkMapFrom_genesis (by simp [isInMainFork, hbc₁, loading])
    have htail : bc₁.getMainTail = some g := rfl
    rw [htail, hmap, enterMainFork, hg]
    rfl
  · rw [if_neg hvalid]
    simp [collect, collectBlock, hvalid, bind, Except.bind]

/-- **The reload**: the chain that `LoadBlockchain` returns is the one that was built exactly if
    only a valid genesis block was stored, and the main tail updated. -/
theorem reload_iff (h : Built bc) (hentries : bc.Lists entries) (horder : ∀ l, (order l).Perm l) :
    (∃ bc', loadBlockchain isValid order bc.db entries = .ok bc' ∧ bc.Reloaded bc') ↔
      (∀ b, bc.Stored b → b.isGenesis = true ∧ isValid b = true) ∧ bc.mainForkMap 0 ≠ none := by
  obtain ⟨-, m, ml, mapped, hstanding⟩ := h.standing
  by_cases hchild : ∃ b, bc.Stored b ∧ b.isGenesis = false
  · obtain ⟨b, hb, hgen⟩ := hchild
    constructor
    · rintro ⟨bc', hload, -⟩
      exact absurd hload (hstanding.loadBlockchain_of_child hentries horder hb hgen bc')
    · rintro ⟨hall, -⟩
      rw [(hall b hb).1] at hgen
      cases hgen
  · -- there is only the main tail, and it is the genesis block
    have hroot : ∀ b, bc.Stored b → bc.tree.Root b := fun b hb => by
      obtain ⟨l, hl⟩ := hstanding.sound.rooted b hb
      have hgen : b.isGenesis = true := by
        by_contra hgen
        exact hchild ⟨b, hb, by simpa using hgen⟩
      rw [Block.isGenesis, decide_eq_true_iff] at hgen
      cases hl with
      | root hr => exact hr
      | grow hp hl' =>
        have h₀ := hl'.level_nonneg
        have h₁ : b.height = _ + 1 := bc.tree.parent_level hp
        omega
    have hm : bc.Stored m := hstanding.chain.stored m (by simp)
    have honly : ∀ b, bc.Stored b → b = m := fun b hb => bc.tree.root_unique (hroot b hb) (hroot m hm)
    have hheight : m.height = 0 := (hroot m hm).2.2
    have hdb : ∀ k b, bc.db k = some b ↔ k = m.hash ∧ b = m := fun k b => by
      constructor
      · intro hb
        have hk : b.hash = k := hstanding.sound.keyed k b hb
        have hbm : b = m := honly b (by rwa [Stored, hk])
        exact ⟨by rw [← hk, hbm], hbm⟩
      · rintro ⟨rfl, rfl⟩
        exact hm
    have htails : bc.tails = [m] := by
      have hall : ∀ t ∈ bc.tails, t = m := fun t ht => honly t ((hstanding.sound.mem_tails t).1 ht).1
      have hmem := hstanding.mem_tails
      have hnodup := hstanding.sound.nodup
      rw [List.eq_replicate_of_mem hall] at hmem hnodup ⊢
      have hle := List.nodup_replicate.1 hnodup
      have hpos : bc.tails.length ≠ 0 := fun h => by simp [h] at hmem
      have hlen : bc.tails.length = 1 := by omega
      rw [hlen]
      rfl
    have hlengths : bc.forkLengths = [0] := by
      rw [hstanding.sound.forkLengths_eq, htails, List.map_singleton, hheight]
    have hload : loadBlockchain isValid order bc.db entries = _ := loadBlockchain_genesis hheight hdb hentries horder
    rw [hload]
    constructor
    · rintro ⟨bc', hok, hreloaded⟩
      split_ifs at hok with hvalid
      obtain rfl := Except.ok.inj hok
      refine ⟨fun b hb => ?_, ?_⟩
      · rw [honly b hb, Block.isGenesis, decide_eq_true_iff]
        exact ⟨hheight, hvalid⟩
      · have hmap := hreloaded.mainForkMap ⟨m, by simp [htails], fun u hu hne => by simp_all⟩
        rw [← hmap]
        simp
    · rintro ⟨hall, hmap⟩
      refine ⟨_, if_pos (hall m hm).2, (hroot m hm).1.symm, ?_, ?_, fun _ => ?_⟩
      · intro t forkLength
        rw [htails, hlengths]
      · rw [hstanding.mainTail]
        rfl
      · -- the map holds the genesis block
        ext1 k
        obtain ⟨v, hv⟩ := Option.ne_none_iff_exists'.1 hmap
        obtain ⟨x, hx, -⟩ := hstanding.map.2 _ _ hv
        have hchain := hstanding.mapChain.resolve_left (List.ne_nil_of_mem hx)
        have hmem : m ∈ mapped := hchain.root_mem (hroot m hm)
        show Function.update (fun _ => none) 0 (some m.hash) k = bc.mainForkMap k
        by_cases hk : k = 0
        · have hmh := hstanding.map.1 m hmem
          rw [hheight] at hmh
          rw [hk, hmh]
          exact Function.update_self _ _ _
        · rw [Function.update_of_ne hk]
          cases hkv : bc.mainForkMap k with
          | none => rfl
          | some w =>
            obtain ⟨y, hy, hyk⟩ := hstanding.map.2 _ _ hkv
            rw [honly y (hchain.stored y hy), hheight] at hyk
            exact absurd hyk.symm hk

end

/-! ## One block and two -/

def reloadGenesis : Block := ⟨"g", none, 0, "m", false⟩

def reloadChild : Block := ⟨"a", some "g", 1, "m", false⟩

theorem lists_genesis : Lists (init.append reloadGenesis).2.updateMainTailIndex.2 [("g", reloadGenesis)] := by
  refine ⟨fun k b => ?_, by decide⟩
  have hdb : (init.append reloadGenesis).2.updateMainTailIndex.2.db =
      Function.update (fun _ => none) "g" (some reloadGenesis) := rfl
  rw [hdb]
  by_cases hk : k = "g"
  · simp [hk, eq_comm]
  · simp [hk]

theorem lists_child : Lists ((init.append reloadGenesis).2.append reloadChild).2
    [("g", reloadGenesis), ("a", reloadChild)] := by
  refine ⟨fun k b => ?_, by decide⟩
  have hdb : ((init.append reloadGenesis).2.append reloadChild).2.db =
      Function.update (Function.update (fun _ => none) "g" (some reloadGenesis)) "a" (some reloadChild) := rfl
  rw [hdb]
  by_cases hk : k = "a"
  · simp [hk, eq_comm]
  · by_cases hk' : k = "g"
    · simp [hk', eq_comm]
    · simp [hk, hk']

theorem reload_iff_genesis :
    (∃ bc', loadBlockchain (fun _ => true) id (init.append reloadGenesis).2.updateMainTailIndex.2.db
        [("g", reloadGenesis)] = .ok bc' ∧ Reloaded (init.append reloadGenesis).2.updateMainTailIndex.2 bc') ↔
      (∀ b, Stored (init.append reloadGenesis).2.updateMainTailIndex.2 b → b.isGenesis = true ∧ true = true) ∧
        (init.append reloadGenesis).2.updateMainTailIndex.2.mainForkMap 0 ≠ none :=
  reload_iff (.updateMainTailIndex (.genesis reloadGenesis rfl)) lists_genesis fun _ => .refl _

/-- A chain of two blocks is not loaded. -/
theorem not_reload :
    ¬ ∀ (isValid : Block → Bool) (order : List (Hash × Hash) → List (Hash × Hash)) (bc : Blockchain)
      (entries : List (Hash × Block)), Built bc → Lists bc entries → (∀ l, (order l).Perm l) →
        ∃ bc', loadBlockchain isValid order bc.db entries = .ok bc' ∧ Reloaded bc bc' := by
  intro hall
  have hbuilt : Built ((init.append reloadGenesis).2.append reloadChild).2 :=
    .append (p := reloadGenesis) (.genesis reloadGenesis rfl) ⟨rfl, rfl, rfl, rfl⟩
  obtain ⟨bc', hload, -⟩ := hall (fun _ => true) id _ _ hbuilt lists_child fun _ => .refl _
  obtain ⟨-, m, ml, mapped, hstanding⟩ := hbuilt.standing
  have hstored : Stored ((init.append reloadGenesis).2.append reloadChild).2 reloadChild := rfl
  exact hstanding.loadBlockchain_of_child lists_child (fun _ => .refl _) hstored rfl bc' hload

end Blockchain
end Timbre
