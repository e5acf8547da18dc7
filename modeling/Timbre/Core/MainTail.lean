/-
  Where `UpdateMainTailIndex` moves the main tail, on chains of which forks may have lost
  ancestors.

  **The main tail can be moved exactly if no tail is higher, or the first higher one is a highest
  one and the common ancestor that is found is on the main chain**
  (`longestFork_of_moves`, `moves_of_longestFork`).
-/
import Timbre.Core.Removal

namespace Timbre
namespace Blockchain

variable {bc : Blockchain} {m m' t x y a b : Block} {ml mapped : List Block}

/-- The tails are listed, and the main tail `m` has the chain `m :: ml`.  The map holds a chain,
    or nothing yet, that is not higher than the main tail. -/
structure Tracked (bc : Blockchain) (m : Block) (ml mapped : List Block) : Prop extends Listed bc where
  mainTail : bc.getMainTail = some m
  chain : bc.IsChain (m :: ml)
  map : bc.Mapped mapped
  mapChain : mapped = [] ∨ bc.IsChain mapped
  below : ∀ x ∈ mapped, x.height ≤ m.height

theorem Standing.tracked (h : bc.Standing m ml mapped) : bc.Tracked m ml mapped :=
  ⟨h.sound.listed, h.mainTail, h.chain, h.map, h.mapChain, h.below⟩

/-- **Every chain that is reached is tracked.** -/
theorem Reached.tracked (h : Reached bc) : ∃ m ml mapped, bc.Tracked m ml mapped := by
  obtain ⟨m, ml, mapped, hstanding⟩ := h.standing
  exact ⟨m, ml, mapped, hstanding.tracked⟩

/-! ## The common ancestor -/

theorem Listed.stored_of_ok (h : bc.Listed) {hash : Option Hash} (hget : bc.getBlockByHash hash = .ok x) :
    bc.Stored x ∧ hash = some x.hash := by
  obtain ⟨-, k, rfl, hdb⟩ := getBlockByHash_ok.1 hget
  have hk : x.hash = k := h.keyed k x hdb
  exact ⟨(congrArg bc.db hk).trans hdb, congrArg some hk.symm⟩

/-- The parent that is found is the parent in the tree. -/
theorem Listed.parent (h : bc.Listed) (hb : bc.Stored b) (hne : b.height ≠ 0)
    (hget : bc.getBlockByHash b.parentHash = .ok x) : bc.tree.Parent b x := by
  obtain ⟨hx, hhash⟩ := h.stored_of_ok hget
  exact ⟨hb, hx, h.linked b x hb hx hne hhash⟩

theorem Listed.isInMainFork_of_ok (h : bc.Listed) (hget : bc.getBlockByHeight b.height = .ok x)
    (hx : x.hash = b.hash) : bc.isInMainFork b := by
  unfold getBlockByHeight at hget
  split at hget
  · cases hget
  · next k hk =>
    have hhash := (h.stored_of_ok hget).2
    rw [isInMainFork, decide_eq_true_iff, hk, hhash, hx]

/-- The descent follows the chain of a block to the map. -/
theorem Listed.descend_ok (h : bc.Listed) (hmap : bc.Mapped mapped) (hmapped : mapped = [] ∨ bc.IsChain mapped) :
    ∀ (n : ℕ) {b : Block}, b.height.toNat = n → bc.Stored b → bc.descend (n + 1) b = .ok a →
      ∃ l, bc.IsChain (b :: l) ∧ a ∈ b :: l
  | n, b, hn, hb, hok => by
    rw [descend] at hok
    cases hget : bc.getBlockByHeight b.height with
    | error e =>
      rw [hget] at hok
      cases hok
    | ok y =>
      rw [hget] at hok
      simp only [bind, Except.bind] at hok
      split_ifs at hok with hsame
      · obtain rfl := Except.ok.inj hok
        have hmem := (hmap.mem_iff hmapped hb).1 (h.isInMainFork_of_ok hget hsame)
        obtain ⟨pre, l, hsplit⟩ := List.append_of_mem hmem
        have hchain : bc.IsChain mapped := hmapped.resolve_left (List.ne_nil_of_mem hmem)
        exact ⟨l, (hsplit ▸ hchain).suffix, List.mem_cons_self⟩
      · cases hparent : bc.getBlockByHash b.parentHash with
        | error e =>
          rw [hparent] at hok
          cases hok
        | ok p =>
          rw [hparent] at hok
          cases n with
          | zero => cases hok
          | succ n =>
            have hp := h.parent hb (by omega) hparent
            have hlevel := hp.2.2.2
            obtain ⟨l, hl, ha⟩ := descend_ok h hmap hmapped n (by omega) hp.2.1 hok
            exact ⟨p :: l, .grow hp hl, List.mem_cons_of_mem _ ha⟩

/-- The levelling follows the chain of a block down to the height of the main tail. -/
theorem Listed.levelWith_ok (h : bc.Listed) (h₀ : 0 ≤ m.height) :
    ∀ (n : ℕ) {b : Block}, b.height.toNat = n → bc.Stored b → bc.levelWith m (n + 1) b = .ok x →
      bc.Stored x ∧ (m.height ≤ b.height → x.height = m.height) ∧
        ∀ l, bc.IsChain (x :: l) → ∃ l', bc.IsChain (b :: l') ∧ x :: l ⊆ b :: l'
  | n, b, hn, hb, hok => by
    rw [levelWith] at hok
    split_ifs at hok with hgt
    · cases hparent : bc.getBlockByHash b.parentHash with
      | error e =>
        rw [hparent] at hok
        cases hok
      | ok p =>
        rw [hparent] at hok
        cases n with
        | zero => omega
        | succ n =>
          have hp := h.parent hb (by omega) hparent
          have hlevel := hp.2.2.2
          obtain ⟨hx, hheight, hchain⟩ := levelWith_ok h h₀ n (by omega) hp.2.1 hok
          refine ⟨hx, fun _ => hheight (by omega), fun l hl => ?_⟩
          obtain ⟨l', hl', hsub⟩ := hchain l hl
          exact ⟨p :: l', .grow hp hl', fun y hy => List.mem_cons_of_mem b (hsub hy)⟩
    · obtain rfl := Except.ok.inj hok
      exact ⟨hb, fun hle => le_antisymm (not_lt.1 hgt) hle, fun l hl => ⟨l, hl, List.Subset.refl _⟩⟩

/-- A block of which the common ancestor is found has a chain. -/
theorem Listed.findCommonAncestor_ok (h : bc.Listed) (hm : bc.getMainTail = some m) (h₀ : 0 ≤ m.height)
    (hmap : bc.Mapped mapped) (hmapped : mapped = [] ∨ bc.IsChain mapped) (hb : bc.Stored b)
    (hok : bc.findCommonAncestor b = .ok a) : ∃ l, bc.IsChain (b :: l) ∧ a ∈ b :: l := by
  rw [findCommonAncestor, hm] at hok
  cases hlevel : bc.levelWith m (b.height.toNat + 1) b with
  | error e =>
    simp only [hlevel] at hok
    cases hok
  | ok x =>
    simp only [hlevel] at hok
    obtain ⟨hx, -, hchain⟩ := h.levelWith_ok h₀ _ rfl hb hlevel
    obtain ⟨l, hl, ha⟩ := h.descend_ok hmap hmapped _ rfl hx hok
    obtain ⟨l', hl', hsub⟩ := hchain l hl
    exact ⟨l', hl', hsub ha⟩

/-! ## The main tail is moved -/

/-- Where the main tail moves to: it stays while no tail is higher; else the first higher one
    is a highest one, and the common ancestor that is found is on the main chain. -/
inductive MovesTo (bc : Blockchain) (m : Block) (ml : List Block) : Block → Prop
  | stays : (∀ t ∈ bc.tails, t.height ≤ m.height) → MovesTo bc m ml m
  | moves (pre post : List Block) (x a : Block) : bc.tails = pre ++ x :: post → (∀ t ∈ pre, t.height ≤ m.height) →
      m.height < x.height → (∀ t ∈ post, t.height ≤ x.height) → bc.findCommonAncestor x = .ok a → a ∈ m :: ml →
        MovesTo bc m ml x

theorem MovesTo.mem_tails (h : bc.MovesTo m ml m') (hm : m ∈ bc.tails) : m' ∈ bc.tails := by
  cases h with
  | stays _ => exact hm
  | moves pre post x a hsplit =>
    rw [hsplit]
    simp

theorem MovesTo.le (h : bc.MovesTo m ml m') (ht : t ∈ bc.tails) : t.height ≤ m'.height := by
  cases h with
  | stays hall => exact hall t ht
  | moves pre post x a hsplit hpre hlt hpost =>
    rw [hsplit] at ht
    rcases List.mem_append.1 ht with ht | ht
    · exact (hpre t ht).trans hlt.le
    · rcases List.mem_cons.1 ht with rfl | ht
      · exact le_rfl
      · exact hpost t ht

/-- Only a block of the chain is found by `loadBlocksFromTo`. -/
theorem mem_of_loadFrom (ha : bc.Stored a) : ∀ {l : List Block} {b : Block} {R : List Block}, bc.IsChain (b :: l) →
    bc.loadFrom a (b.height.toNat + 1) b = .ok R → a ∈ b :: l
  | l, b, R, hl, hok => by
    rw [loadFrom] at hok
    split_ifs at hok with hhash
    · have hba : b = a := (hl.stored b (by simp)).eq_of_hash ha hhash
      exact hba ▸ List.mem_cons_self
    · cases hl with
      | root hr =>
        have hzero : b.height.toNat = 0 := by rw [hr.2.2]; rfl
        rw [hzero] at hok
        cases hget : bc.getBlockByHash b.parentHash with
        | error e =>
          rw [hget] at hok
          cases hok
        | ok p =>
          rw [hget] at hok
          cases hok
      | @grow _ p l hp hl =>
        rw [getBlockByHash_parent hp hl] at hok
        simp only [bind, Except.bind] at hok
        split at hok
        · cases hok
        · next Q hQ =>
          have hfuel : b.height.toNat = p.height.toNat + 1 := by
            have := fuel_of_parent hp.2.2 hl.level_nonneg
            omega
          rw [hfuel] at hQ
          exact List.mem_cons_of_mem _ (mem_of_loadFrom ha hl hQ)

namespace Tracked

theorem mem_tails (h : bc.Tracked m ml mapped) : m ∈ bc.tails := getMainTail_mem h.mainTail

theorem height_nonneg (h : bc.Tracked m ml mapped) : 0 ≤ m.height := h.chain.level_nonneg

/-- **`Forked`** goes well on another tail if the common ancestor is on the main chain. -/
theorem forked_iff (h : bc.Tracked m ml mapped) (hx : bc.Stored x) (i : ℕ) :
    (bc.forked x i).isOk ↔ ∃ a, bc.findCommonAncestor x = .ok a ∧ a ∈ m :: ml := by
  rw [forked, h.mainTail]
  dsimp only
  cases hfind : bc.findCommonAncestor x with
  | error e => exact iff_of_false (by simp [bind, Except.bind, Except.isOk, Except.toBool]) (by simp)
  | ok a =>
    obtain ⟨l, hl, hal⟩ := h.findCommonAncestor_ok h.mainTail h.height_nonneg h.map h.mapChain hx hfind
    obtain ⟨P, s, hsplit⟩ := List.append_of_mem hal
    have hfork : bc.loadBlocksFromTo x a = .ok P := loadFrom_spec hsplit hl
    simp only [bind, Except.bind, hfork]
    cases hmain : bc.loadBlocksFromTo m a with
    | error e =>
      refine iff_of_false (by simp [Except.isOk, Except.toBool]) ?_
      rintro ⟨a', ha', hmem⟩
      obtain rfl := Except.ok.inj ha'
      obtain ⟨R, s', hsplit'⟩ := List.append_of_mem hmem
      have hR : bc.loadBlocksFromTo m a = .ok R := loadFrom_spec hsplit' h.chain
      rw [hR] at hmain
      cases hmain
    | ok R => exact iff_of_true rfl ⟨a, rfl, mem_of_loadFrom (hl.stored a hal) h.chain hmain⟩

/-- After a switch the map does not reach up to the main tail, so no other one is possible. -/
theorem not_forked (h : bc.Tracked m ml mapped) {i : ℕ}
    (hx : getMainTail { bc with mainTailIndex := (i : ℤ) } = some x) (hmx : m.height < x.height)
    (hxy : x.height < y.height) (hy : bc.Stored y) (j : ℕ) :
    ¬ (Blockchain.forked { bc with mainTailIndex := (i : ℤ) } y j).isOk := by
  have hlisted : Listed { bc with mainTailIndex := (i : ℤ) } :=
    ⟨h.keyed, h.linked, h.stored, h.leaf, h.nodup, h.forkLengths_eq⟩
  have hnone : bc.mainForkMap x.height = none := by
    cases hmap : bc.mainForkMap x.height with
    | none => rfl
    | some v =>
      obtain ⟨z, hz, hzx⟩ := h.map.2 _ _ hmap
      have := h.below z hz
      omega
  have h₀ : 0 ≤ x.height := h.height_nonneg.trans hmx.le
  have hfind : ∀ a, findCommonAncestor { bc with mainTailIndex := (i : ℤ) } y ≠ .ok a := by
    intro a hok
    rw [findCommonAncestor, hx] at hok
    cases hlevel : levelWith { bc with mainTailIndex := (i : ℤ) } x (y.height.toNat + 1) y with
    | error e =>
      simp only [hlevel] at hok
      cases hok
    | ok z =>
      simp only [hlevel] at hok
      obtain ⟨-, hheight, -⟩ := hlisted.levelWith_ok h₀ _ rfl hy hlevel
      have hget : ∃ e, getBlockByHeight { bc with mainTailIndex := (i : ℤ) } z.height = .error e := by
        rw [hheight hxy.le, getBlockByHeight, hnone]
        exact ⟨_, rfl⟩
      obtain ⟨e, he⟩ := hget
      simp only [bind, Except.bind, descend, he] at hok
      cases hok
  rw [Blockchain.forked, hx]
  dsimp only
  cases hanc : findCommonAncestor { bc with mainTailIndex := (i : ℤ) } y with
  | error e => simp [bind, Except.bind, Except.isOk, Except.toBool]
  | ok a => exact absurd hanc (hfind a)

end Tracked

/-- The first of the higher tails. -/
theorem exists_first_higher {M : ℤ} {l : List Block} (h : ¬ ∀ x ∈ l, x.height ≤ M) :
    ∃ pre x post, l = pre ++ x :: post ∧ (∀ y ∈ pre, y.height ≤ M) ∧ M < x.height := by
  have hfind : (l.find? fun x => decide (M < x.height)).isSome := by
    rw [List.find?_isSome]
    push Not at h
    obtain ⟨x, hx, hlt⟩ := h
    exact ⟨x, hx, decide_eq_true hlt⟩
  obtain ⟨x, hx⟩ := Option.isSome_iff_exists.1 hfind
  obtain ⟨hlt, pre, post, hsplit, hpre⟩ := List.find?_eq_some_iff_append.1 hx
  exact ⟨pre, x, post, hsplit, fun y hy => by simpa using hpre y hy, of_decide_eq_true hlt⟩

namespace Tracked

/-- **The first loop goes well** if the main tail can be moved. -/
theorem longestFork_of_moves (h : bc.Tracked m ml mapped) (hmoves : bc.MovesTo m ml m') :
    ∃ res j, bc.longestFork bc.length noSwitch 0 bc.tails = (.ok res, { bc with mainTailIndex := j }) ∧
      getMainTail { bc with mainTailIndex := j } = some m' := by
  have hlen := length_of_mainTail h.chain.genesis_isSome h.forkLengths_eq h.mainTail
  cases hmoves with
  | stays hall => exact ⟨noSwitch, bc.mainTailIndex, longestFork_none h.forkLengths_eq (hlen ▸ hall), h.mainTail⟩
  | moves pre post _ a hsplit hpre hlt hpost hfind ha =>
    have hstored : bc.Stored m' := h.stored m' (by rw [hsplit]; simp)
    have hok := (h.forked_iff hstored pre.length).2 ⟨a, hfind, ha⟩
    cases hfork : bc.forked m' pre.length with
    | error e =>
      rw [hfork] at hok
      cases hok
    | ok r =>
      obtain ⟨res, bc'⟩ := r
      obtain rfl := forked_ok hfork
      have hm' : getMainTail { bc with mainTailIndex := (pre.length : ℤ) } = some m' := by
        rw [getMainTail, tailAt, if_neg (by simp), Int.toNat_natCast, hsplit]
        simp
      refine ⟨res, (pre.length : ℤ), ?_, hm'⟩
      have hlengths : bc.forkLengths.drop 0 = (pre ++ m' :: post).map Block.height := by
        rw [h.forkLengths_eq, hsplit]
        rfl
      rw [← Nat.zero_add pre.length] at hfork
      have hone : bc.longestFork m.height noSwitch 0 (pre ++ m' :: post) = _ :=
        longestFork_one hlt hpost hlengths hpre hfork rfl
      rw [Nat.zero_add] at hone
      rw [hlen]
      exact (congrArg (bc.longestFork m.height noSwitch 0) hsplit).trans hone

/-- **It goes well only if** the main tail can be moved. -/
theorem moves_of_longestFork (h : bc.Tracked m ml mapped) {res : Switch} {bc' : Blockchain}
    (hok : bc.longestFork bc.length noSwitch 0 bc.tails = (.ok res, bc')) : ∃ m', bc.MovesTo m ml m' := by
  rw [length_of_mainTail h.chain.genesis_isSome h.forkLengths_eq h.mainTail] at hok
  by_cases hall : ∀ t ∈ bc.tails, t.height ≤ m.height
  · exact ⟨m, .stays hall⟩
  obtain ⟨pre, x, post, hsplit, hpre, hlt⟩ := exists_first_higher hall
  have hlen : bc.forkLengths.drop 0 = (pre ++ x :: post).map Block.height := by
    rw [h.forkLengths_eq, hsplit]
    rfl
  have hdrop : bc.forkLengths.drop pre.length = (x :: post).map Block.height := by
    rw [h.forkLengths_eq, hsplit, List.map_append, List.drop_left' (List.length_map _)]
  have hi : bc.forkLengths[pre.length]? = some x.height := by
    rw [← List.head?_drop, hdrop]
    rfl
  have hx : bc.tails[pre.length]? = some x := by
    rw [hsplit]
    simp
  rw [hsplit, longestFork_skip hlen hpre, Nat.zero_add, longestFork, hi] at hok
  simp only [gt_iff_lt, hlt, if_true] at hok
  cases hfork : bc.forked x pre.length with
  | error e =>
    rw [hfork] at hok
    cases hok
  | ok r =>
    obtain ⟨res', bc₁⟩ := r
    obtain rfl := forked_ok hfork
    have hxmem : x ∈ bc.tails := List.mem_of_getElem? hx
    obtain ⟨a, hfind, ha⟩ := (h.forked_iff (h.stored x hxmem) pre.length).1 (by rw [hfork]; rfl)
    refine ⟨x, .moves pre post x a hsplit hpre hlt ?_ hfind ha⟩
    by_contra hhigher
    -- the next higher tail cannot be switched to
    obtain ⟨pre', y, post', hsplit', hpre', hlt'⟩ := exists_first_higher hhigher
    have hmain : getMainTail { bc with mainTailIndex := (pre.length : ℤ) } = some x := by
      rw [getMainTail, tailAt, if_neg (by simp), Int.toNat_natCast]
      exact hx
    have hymem : y ∈ bc.tails := by
      rw [hsplit, hsplit']
      simp
    have hlen' : bc.forkLengths.drop (pre.length + 1) = (pre' ++ y :: post').map Block.height := by
      rw [← List.drop_drop, hdrop, hsplit']
      rfl
    have hj : bc.forkLengths[pre.length + 1 + pre'.length]? = some y.height := by
      rw [← List.head?_drop, ← List.drop_drop, hlen', List.map_append, List.drop_left' (List.length_map _)]
      rfl
    have hnot := h.not_forked hmain hlt hlt' (h.stored y hymem) (pre.length + 1 + pre'.length)
    simp only [hfork] at hok
    generalize hbc₁ : ({ bc with mainTailIndex := (pre.length : ℤ) } : Blockchain) = bc₁ at hok hnot
    have hlengths : bc.forkLengths = bc₁.forkLengths := by rw [← hbc₁]
    rw [hlengths] at hlen' hj
    rw [hsplit', longestFork_skip hlen' hpre', longestFork, hj] at hok
    simp only [gt_iff_lt, hlt', if_true] at hok
    cases hfork' : bc₁.forked y (pre.length + 1 + pre'.length) with
    | error e =>
      rw [hfork'] at hok
      cases hok
    | ok r => exact absurd (by rw [hfork']; rfl) hnot

/-- It moves to one tail. -/
theorem moves_unique (h : bc.Tracked m ml mapped) (hmoves : bc.MovesTo m ml x) (hmoves' : bc.MovesTo m ml y) :
    x = y := by
  obtain ⟨res, j, hloop, hx⟩ := h.longestFork_of_moves hmoves
  obtain ⟨res', j', hloop', hy⟩ := h.longestFork_of_moves hmoves'
  have hsame : ({ bc with mainTailIndex := j } : Blockchain) = { bc with mainTailIndex := j' } :=
    congrArg Prod.snd (hloop.symm.trans hloop')
  rw [hsame, hy] at hx
  exact (Option.some.inj hx).symm

/-- **The first part of `UpdateMainTailIndex`**, if the main tail can be moved: the map holds the
    chain of the new one. -/
theorem moveMainTail (h : bc.Tracked m ml mapped) (hmoves : bc.MovesTo m ml m') :
    bc.updateMainTailIndex.1.isOk ∧ ∃ j map ml',
      bc.moveMainTail = { bc with mainTailIndex := j, mainForkMap := map } ∧
        bc.moveMainTail.Tracked m' ml' (m' :: ml') := by
  obtain ⟨res, j, hloop, hm'⟩ := h.longestFork_of_moves hmoves
  obtain ⟨ml', hml'⟩ : ∃ ml', bc.IsChain (m' :: ml') := by
    cases hmoves with
    | stays _ => exact ⟨ml, h.chain⟩
    | moves pre post _ a hsplit _ _ _ hfind _ =>
      have hstored : bc.Stored m' := h.stored m' (by rw [hsplit]; simp)
      obtain ⟨l, hl, -⟩ := h.findCommonAncestor_ok h.mainTail h.height_nonneg h.map h.mapChain hstored hfind
      exact ⟨l, hl⟩
  obtain ⟨P, s, hsplit, hP, hs⟩ := h.map.split_chain h.mapChain hml'
  have hdom : ∀ k v, bc.mainForkMap k = some v → 0 ≤ k ∧ k ≤ m'.height := fun k v hv => by
    obtain ⟨x, hx, rfl⟩ := h.map.2 k v hv
    have hmapped : bc.IsChain mapped := h.mapChain.resolve_left (List.ne_nil_of_mem hx)
    exact ⟨hmapped.level_nonneg_of_mem hx, (h.below x hx).trans (hmoves.le h.mem_tails)⟩
  set bc₁ : Blockchain := { bc with mainTailIndex := j } with hbc₁
  have hml₁ : bc₁.IsChain (m' :: ml') := hml'
  obtain ⟨map, hres, hmapped⟩ := updateMainForkMap_spec hml₁ hsplit hP hs hdom
  have hmove : bc.moveMainTail = { bc₁ with mainForkMap := map } := by
    unfold Blockchain.moveMainTail
    rw [hloop]
    dsimp only
    rw [hm', hres]
  refine ⟨?_, j, map, ml', hmove, ?_⟩
  · unfold updateMainTailIndex
    rw [hloop]
    rfl
  · rw [hmove]
    exact ⟨⟨h.keyed, h.linked, h.stored, h.leaf, h.nodup, h.forkLengths_eq⟩, hm', hml', hmapped, .inr hml',
      fun x hx => hml'.level_le hx⟩

/-- If it cannot be moved, the tails stay. -/
theorem not_moves (h : bc.Tracked m ml mapped) (hnot : ¬ ∃ m', bc.MovesTo m ml m') :
    bc.updateMainTailIndex.2.tails = bc.tails ∧
      bc.updateMainTailIndex.2.irreversibleBlock = bc.irreversibleBlock := by
  have hloop : ∀ res, ∃ j m', (bc.longestFork bc.length res 0 bc.tails).2 = { bc with mainTailIndex := j } ∧
      getMainTail { bc with mainTailIndex := j } = some m' ∧ m.height ≤ m'.height := fun res =>
    longestFork_keeps h.forkLengths_eq rfl h.mainTail
      (length_of_mainTail h.chain.genesis_isSome h.forkLengths_eq h.mainTail).ge
  obtain ⟨j, -, heq, -⟩ := hloop noSwitch
  unfold updateMainTailIndex
  rcases hfork : bc.longestFork bc.length noSwitch 0 bc.tails with ⟨e | res, bc'⟩
  · rw [hfork] at heq
    obtain rfl : bc' = { bc with mainTailIndex := j } := heq
    exact ⟨rfl, rfl⟩
  · exact absurd (h.moves_of_longestFork hfork) hnot

end Tracked

end Blockchain
end Timbre
