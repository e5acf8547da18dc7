/-
  The choice of the fork: what `Append` and `UpdateMainTailIndex` keep true of the tails,
  the main tail and the main-fork map, and what the lists of a switch hold.
-/
import Timbre.Core.Blockchain
import Timbre.Lib.LinkTree

namespace Timbre
namespace Blockchain

variable {bc : Blockchain}

/-! ## The block tree -/

/-- The block is in the database. -/
def Stored (bc : Blockchain) (b : Block) : Prop := bc.db b.hash = some b

theorem Stored.eq_of_hash {b c : Block} (hb : bc.Stored b) (hc : bc.Stored c)
    (h : b.hash = c.hash) : b = c := by
  rw [Stored, h, hc] at hb
  exact (Option.some.inj hb).symm

/-- The stored blocks form a tree under `IsValidParentOf`. -/
def tree (bc : Blockchain) : LinkTree Block where
  Root g := bc.genesis = some g ∧ bc.Stored g ∧ g.height = 0
  Parent b p := bc.Stored b ∧ bc.Stored p ∧ p.isValidParentOf b
  level := Block.height
  root_unique h₁ h₂ := Option.some.inj (h₁.1.symm.trans h₂.1)
  root_level h := h.2.2
  parent_unique h₁ h₂ := h₁.2.1.eq_of_hash h₂.2.1 (Option.some.inj (h₁.2.2.1.symm.trans h₂.2.2.1))
  parent_level h := by
    have := h.2.2.2
    omega

/-- The list is the chain of a block: the block, its parent, and so on to the genesis block. -/
abbrev IsChain (bc : Blockchain) (l : List Block) : Prop := bc.tree.Branch l

namespace IsChain

theorem stored {l : List Block} (h : bc.IsChain l) : ∀ x ∈ l, bc.Stored x := by
  induction h with
  | root hr =>
    intro x hx
    rw [List.mem_singleton.1 hx]
    exact hr.2.1
  | grow hp _ ih =>
    intro x hx
    rcases List.mem_cons.1 hx with rfl | hx
    · exact hp.1
    · exact ih x hx

theorem genesis_isSome {l : List Block} (h : bc.IsChain l) : bc.isEmpty = false := by
  obtain ⟨g, hg⟩ := h.exists_root
  rw [isEmpty, hg.1]
  rfl

end IsChain

/-- Enough fuel for a block is one more than enough for its parent. -/
theorem fuel_of_parent {b p : Block} (hp : p.isValidParentOf b) (h : 0 ≤ p.height) :
    b.height.toNat + 1 = p.height.toNat + 1 + 1 := by
  have := hp.2
  omega

theorem getBlockByHash_stored {p : Block} (hne : bc.isEmpty = false) (hp : bc.Stored p) :
    bc.getBlockByHash (some p.hash) = .ok p :=
  getBlockByHash_ok.2 ⟨hne, p.hash, rfl, hp⟩

theorem getBlockByHash_parent {b p : Block} {l : List Block} (hp : bc.tree.Parent b p)
    (hl : bc.IsChain l) : bc.getBlockByHash b.parentHash = .ok p := by
  rw [hp.2.2.1, getBlockByHash_stored (IsChain.genesis_isSome hl) hp.2.1]

/-! ## The walks -/

/-- The main-fork map holds the blocks of `l` and nothing else. -/
def Mapped (bc : Blockchain) (l : List Block) : Prop :=
  (∀ x ∈ l, bc.mainForkMap x.height = some x.hash) ∧
    ∀ k v, bc.mainForkMap k = some v → ∃ x ∈ l, x.height = k

theorem Mapped.isInMainFork_iff {l : List Block} (hl : bc.IsChain l) (hmap : bc.Mapped l)
    {b : Block} (hb : bc.Stored b) : bc.isInMainFork b = true ↔ b ∈ l := by
  rw [isInMainFork, decide_eq_true_iff]
  constructor
  · intro h
    obtain ⟨x, hx, hxb⟩ := hmap.2 _ _ h
    have hxh := hmap.1 x hx
    rw [hxb, h] at hxh
    exact hb.eq_of_hash (hl.stored x hx) (Option.some.inj hxh) ▸ hx
  · exact hmap.1 b

theorem levelWith_spec {mainTail : Block} (hm : 0 ≤ mainTail.height) :
    ∀ {l : List Block} {b : Block}, bc.IsChain (b :: l) →
      ∃ P c s, b :: l = P ++ c :: s ∧ c.height ≤ mainTail.height ∧
        (∀ x ∈ P, mainTail.height < x.height) ∧
        bc.levelWith mainTail (b.height.toNat + 1) b = .ok c
  | [], b, h => by
    cases h with
    | root hr =>
      refine ⟨[], b, [], rfl, ?_, by simp, ?_⟩
      · rw [hr.2.2]; exact hm
      · rw [levelWith, if_neg]
        rw [hr.2.2]; omega
  | p :: l, b, h => by
    by_cases hgt : b.height > mainTail.height
    · cases h with
      | grow hp hc =>
        obtain ⟨P, c, s, hsplit, hle, habove, hres⟩ := levelWith_spec hm hc
        refine ⟨b :: P, c, s, by rw [hsplit]; rfl, hle, ?_, ?_⟩
        · intro x hx
          rcases List.mem_cons.1 hx with rfl | hx
          · exact hgt
          · exact habove x hx
        · rw [fuel_of_parent hp.2.2 hc.level_nonneg, levelWith, if_pos hgt,
            getBlockByHash_parent hp hc]
          exact hres
    · refine ⟨[], b, p :: l, rfl, not_lt.1 hgt, by simp, ?_⟩
      rw [levelWith, if_neg hgt]

/-- **The descent** stops at the first block that is also on the main chain. -/
theorem descend_spec {m : Block} {ml : List Block} (hmain : bc.IsChain (m :: ml))
    (hmap : bc.Mapped (m :: ml)) :
    ∀ {l : List Block} {b : Block}, bc.IsChain (b :: l) → b.height ≤ m.height →
      ∃ P c s, b :: l = P ++ c :: s ∧ c ∈ m :: ml ∧ (∀ x ∈ P, x ∉ m :: ml) ∧
        bc.descend (b.height.toNat + 1) b = .ok c
  | l, b, h, hle => by
    obtain ⟨y, hy, hyb⟩ := hmain.exists_level h.level_nonneg hle
    have hyb : y.height = b.height := hyb
    have hbyHeight : bc.getBlockByHeight b.height = .ok y := by
      rw [getBlockByHeight, ← hyb, hmap.1 y hy]
      exact getBlockByHash_stored hmain.genesis_isSome (hmain.stored y hy)
    by_cases hsame : y.hash = b.hash
    · obtain rfl := (hmain.stored y hy).eq_of_hash (h.stored b (by simp)) hsame
      refine ⟨[], y, l, rfl, hy, by simp, ?_⟩
      rw [descend, hbyHeight]
      simp [bind, Except.bind]
    · have hnot : b ∉ m :: ml := by
        intro hb
        exact hsame (by rw [hmain.level_inj hy hb hyb])
      cases h with
      | root hr => exact absurd (hmain.root_mem hr) hnot
      | grow hp hc =>
        have hpar := hp.2.2.2
        obtain ⟨P, c, s, hsplit, hcm, hP, hres⟩ := descend_spec hmain hmap hc (by omega)
        refine ⟨b :: P, c, s, by rw [hsplit]; rfl, hcm, ?_, ?_⟩
        · intro x hx
          rcases List.mem_cons.1 hx with rfl | hx
          · exact hnot
          · exact hP x hx
        · rw [fuel_of_parent hp.2.2 hc.level_nonneg, descend, hbyHeight]
          simp only [bind, Except.bind, hsame, if_false]
          rw [getBlockByHash_parent hp hc]
          exact hres

/-- **The common ancestor** found is the point where the chain of the block leaves the main
    chain. -/
theorem findCommonAncestor_spec {m : Block} {ml : List Block} (hmt : bc.getMainTail = some m)
    (hmain : bc.IsChain (m :: ml)) (hmap : bc.Mapped (m :: ml)) {b : Block} {l : List Block}
    (h : bc.IsChain (b :: l)) :
    ∃ P c s, b :: l = P ++ c :: s ∧ c ∈ m :: ml ∧ (∀ x ∈ P, x ∉ m :: ml) ∧
      bc.findCommonAncestor b = .ok c := by
  obtain ⟨P₁, a, s₁, hsplit, hle, habove, hlevel⟩ := levelWith_spec hmain.level_nonneg h
  have ha : bc.IsChain (a :: s₁) := (hsplit ▸ h).suffix
  obtain ⟨P₂, c, s, hsplit₂, hc, hP₂, hdesc⟩ := descend_spec hmain hmap ha hle
  refine ⟨P₁ ++ P₂, c, s, by rw [hsplit, hsplit₂, List.append_assoc], hc, ?_, ?_⟩
  · intro x hx
    rcases List.mem_append.1 hx with hx | hx
    · intro hxm
      exact absurd (habove x hx) (not_lt.2 (hmain.level_le hxm))
    · exact hP₂ x hx
  · simp only [findCommonAncestor, hmt, hlevel, bind, Except.bind]
    exact hdesc

theorem loadFrom_spec {c : Block} {s : List Block} : ∀ {P : List Block} {b : Block}
    {l : List Block}, b :: l = P ++ c :: s → bc.IsChain (b :: l) →
      bc.loadFrom c (b.height.toNat + 1) b = .ok P
  | [], b, l, hsplit, _ => by
    obtain ⟨rfl, rfl⟩ := List.cons_eq_cons.1 hsplit
    rw [loadFrom, if_pos rfl]
  | a :: P, b, l, hsplit, h => by
    obtain ⟨rfl, rfl⟩ := List.cons_eq_cons.1 hsplit
    have hlt : c.height < b.height := LinkTree.Branch.level_lt h c (by simp)
    have hne : b.hash ≠ c.hash := by
      intro heq
      rw [(h.stored b (by simp)).eq_of_hash (h.stored c (by simp)) heq] at hlt
      exact lt_irrefl _ hlt
    obtain ⟨p, l', hpl⟩ : ∃ p l', P ++ c :: s = p :: l' := by
      cases P with
      | nil => exact ⟨c, s, rfl⟩
      | cons p P => exact ⟨p, P ++ c :: s, rfl⟩
    have h : bc.IsChain (b :: p :: l') := hpl ▸ h
    cases h with
    | grow hp hc =>
      rw [fuel_of_parent hp.2.2 hc.level_nonneg, loadFrom, if_neg hne,
        getBlockByHash_parent hp hc]
      simp only [bind, Except.bind, loadFrom_spec hpl.symm hc]
      rfl

/-- **The walk of the main-fork map** enters the blocks that are not in the map yet. -/
theorem updateMainForkMapFrom_spec {s : List Block} : ∀ {P : List Block} {bc : Blockchain}
    {b : Block} {l : List Block}, b :: l = P ++ s → bc.IsChain (b :: l) →
      (∀ x ∈ P, ¬ bc.isInMainFork x) → (∀ c ∈ s.head?, bc.isInMainFork c) →
      ∃ map, bc.updateMainForkMapFrom (b.height.toNat + 1) b = { bc with mainForkMap := map } ∧
        (∀ x ∈ P, map x.height = some x.hash) ∧
        ∀ k, (∀ x ∈ P, x.height ≠ k) → map k = bc.mainForkMap k
  | [], bc, b, l, hsplit, _, _, hs => by
    have hin : bc.isInMainFork b := hs b (by rw [← List.nil_append s, ← hsplit]; rfl)
    refine ⟨bc.mainForkMap, ?_, by simp, fun _ _ => rfl⟩
    rw [updateMainForkMapFrom, if_pos hin]
  | a :: P, bc, b, l, hsplit, h, hP, hs => by
    obtain ⟨rfl, rfl⟩ := List.cons_eq_cons.1 hsplit
    have hbelow : ∀ x ∈ P ++ s, x.height < b.height := LinkTree.Branch.level_lt h
    -- the entry of `b` does not touch those of the lower blocks
    have hlower : ∀ x ∈ P ++ s, (bc.enterMainFork b).isInMainFork x = bc.isInMainFork x := by
      intro x hx
      simp only [isInMainFork, enterMainFork, Function.update_of_ne (hbelow x hx).ne]
    have hnot : ¬ bc.isInMainFork b := hP b (by simp)
    generalize hl : P.append s = l at h
    have hl : P ++ s = l := hl
    cases h with
    | root hr =>
      obtain ⟨rfl, rfl⟩ := List.append_eq_nil_iff.1 hl
      refine ⟨(bc.enterMainFork b).mainForkMap, ?_, ?_, ?_⟩
      · have h0 : b.height.toNat + 1 = 0 + 1 := by rw [hr.2.2]; rfl
        rw [h0, updateMainForkMapFrom, if_neg hnot]
        dsimp only
        split_ifs
        · rfl
        · split
          · rfl
          · rfl
      · intro x hx
        rw [List.mem_singleton.1 hx]
        exact Function.update_self _ _ _
      · intro k hk
        exact Function.update_of_ne (Ne.symm (hk b (by simp))) _ _
    | @grow _ p l' hp hc =>
      obtain ⟨map, hres, hmapP, hmap⟩ := @updateMainForkMapFrom_spec _ _ (bc.enterMainFork b) _ _ hl.symm hc
        (fun x hx => by rw [hlower x (by simp [hx])]; exact hP x (by simp [hx]))
        (fun c hc' => by
          rw [hlower c (List.mem_append_right _ (List.mem_of_mem_head? hc'))]
          exact hs c hc')
      refine ⟨map, ?_, ?_, ?_⟩
      · rw [fuel_of_parent hp.2.2 hc.level_nonneg, updateMainForkMapFrom, if_neg hnot]
        have hget : (bc.enterMainFork b).getBlockByHash b.parentHash = .ok p :=
          getBlockByHash_parent hp hc
        dsimp only
        rw [if_neg (by rw [hp.2.2.1]; simp), hget]
        exact hres
      · intro x hx
        rcases List.mem_cons.1 hx with rfl | hx
        · rw [hmap x.height]
          · exact Function.update_self _ _ _
          · intro y hy
            exact (hbelow y (List.mem_append_left _ hy)).ne
        · exact hmapP x hx
      · intro k hk
        rw [hmap k fun x hx => hk x (by simp [hx])]
        exact Function.update_of_ne (Ne.symm (hk b (by simp))) _ _

/-! ## What the tails and the main tail are -/

/-- The stored blocks and the tails: every stored block has a chain, and the tails are the
    stored blocks without stored children. -/
structure Sound (bc : Blockchain) : Prop where
  keyed : ∀ h b, bc.db h = some b → b.hash = h
  rooted : ∀ b, bc.Stored b → ∃ l, bc.IsChain (b :: l)
  mem_tails : ∀ b, b ∈ bc.tails ↔ bc.Stored b ∧ ∀ c, bc.Stored c → ¬ b.isValidParentOf c
  nodup : bc.tails.Nodup
  forkLengths_eq : bc.forkLengths = bc.tails.map Block.height

/-- The main tail and its chain, and no tail is higher. -/
structure Settled (bc : Blockchain) (m : Block) (ml : List Block) : Prop where
  sound : bc.Sound
  mainTail : bc.getMainTail = some m
  chain : bc.IsChain (m :: ml)
  maximal : ∀ t ∈ bc.tails, t.height ≤ m.height
  mapped : bc.Mapped (m :: ml)

theorem getMainTail_mem {m : Block} (h : bc.getMainTail = some m) : m ∈ bc.tails := by
  unfold getMainTail tailAt at h
  split_ifs at h
  exact List.mem_of_getElem? h

theorem length_of_mainTail (hne : bc.isEmpty = false) (hlen : bc.forkLengths = bc.tails.map Block.height) {m : Block}
    (hm : bc.getMainTail = some m) : bc.length = m.height := by
  unfold getMainTail tailAt at hm
  split_ifs at hm with h0
  simp [length, hne, hlen, hm]

theorem length_eq (hs : bc.Sound) {m : Block} (hm : bc.getMainTail = some m) :
    bc.length = m.height := by
  obtain ⟨l, hl⟩ := hs.rooted m ((hs.mem_tails m).1 (getMainTail_mem hm)).1
  exact length_of_mainTail hl.genesis_isSome hs.forkLengths_eq hm

/-! ## The loop over the tails -/

theorem longestFork_none {M : ℤ} {res : Switch} : ∀ {t : List Block} {i : ℕ},
    bc.forkLengths.drop i = t.map Block.height → (∀ x ∈ t, x.height ≤ M) →
      bc.longestFork M res i t = (.ok res, bc)
  | [], _, _, _ => rfl
  | x :: t, i, hlen, hle => by
    have hi : bc.forkLengths[i]? = some x.height := by
      rw [← List.head?_drop, hlen]
      rfl
    have hx : ¬ x.height > M := not_lt.2 (hle x (by simp))
    rw [longestFork, hi]
    simp only [hx, if_false]
    refine longestFork_none ?_ fun y hy => hle y (by simp [hy])
    rw [← List.drop_drop, hlen]
    rfl

/-- The loop passes the tails that are not higher. -/
theorem longestFork_skip {M : ℤ} {res : Switch} {t : List Block} : ∀ {pre : List Block} {i : ℕ},
    bc.forkLengths.drop i = (pre ++ t).map Block.height → (∀ x ∈ pre, x.height ≤ M) →
      bc.longestFork M res i (pre ++ t) = bc.longestFork M res (i + pre.length) t
  | [], _, _, _ => rfl
  | x :: pre, i, hlen, hle => by
    have hi : bc.forkLengths[i]? = some x.height := by
      rw [← List.head?_drop, hlen]
      rfl
    have hdrop : bc.forkLengths.drop (i + 1) = (pre ++ t).map Block.height := by
      rw [← List.drop_drop, hlen]
      rfl
    have hx : ¬ x.height > M := not_lt.2 (hle x (by simp))
    rw [List.cons_append, longestFork, hi]
    simp only [hx, if_false]
    rw [longestFork_skip hdrop fun y hy => hle y (by simp [hy]), List.length_cons]
    congr 1
    omega

/-- One tail is the first higher one and the highest: the loop switches to it once. -/
theorem longestFork_one {M : ℤ} {res res' : Switch} {b : Block} {bc' : Blockchain} {t₁ t₂ : List Block} {i : ℕ}
    (hb : M < b.height) (h₂ : ∀ x ∈ t₂, x.height ≤ b.height)
    (hlen : bc.forkLengths.drop i = (t₁ ++ b :: t₂).map Block.height) (h₁ : ∀ x ∈ t₁, x.height ≤ M)
    (hfork : bc.forked b (i + t₁.length) = .ok (res', bc')) (hsame : bc'.forkLengths = bc.forkLengths) :
    bc.longestFork M res i (t₁ ++ b :: t₂) = (.ok res', bc') := by
  have hdrop : bc.forkLengths.drop (i + t₁.length) = (b :: t₂).map Block.height := by
    rw [← List.drop_drop, hlen, List.map_append, List.drop_left' (List.length_map _)]
  have hi : bc.forkLengths[i + t₁.length]? = some b.height := by
    rw [← List.head?_drop, hdrop]
    rfl
  rw [longestFork_skip hlen h₁, longestFork, hi]
  simp only [gt_iff_lt, hb, if_true, hfork]
  refine longestFork_none ?_ h₂
  rw [hsame, ← List.drop_drop, hdrop]
  rfl

/-- **A switch** returns the two chains above the block where they part. -/
theorem forked_spec {m : Block} {ml : List Block} (hmt : bc.getMainTail = some m)
    (hmain : bc.IsChain (m :: ml)) (hmap : bc.Mapped (m :: ml)) {b : Block} {l : List Block}
    (h : bc.IsChain (b :: l)) (i : ℕ) :
    ∃ R P c s, m :: ml = R ++ c :: s ∧ b :: l = P ++ c :: s ∧ (∀ x ∈ P, x ∉ m :: ml) ∧
      bc.forked b i = .ok (⟨R, P, true⟩, { bc with mainTailIndex := i }) := by
  obtain ⟨P, c, s, hsplit, hc, hP, hfind⟩ := findCommonAncestor_spec hmt hmain hmap h
  obtain ⟨R, s', hsplit'⟩ := List.append_of_mem hc
  obtain rfl : s' = s := LinkTree.Branch.suffix_eq (hsplit' ▸ hmain) (hsplit ▸ h)
  refine ⟨R, P, c, s', hsplit', hsplit, hP, ?_⟩
  have hR : bc.loadBlocksFromTo m c = .ok R := loadFrom_spec hsplit' hmain
  have hPr : bc.loadBlocksFromTo b c = .ok P := loadFrom_spec hsplit h
  simp only [forked, hmt, hfind, hR, hPr, bind, Except.bind]
  rfl

/-! ## `UpdateMainTailIndex` -/

theorem pruneFrom_none {behind : List Block} : ∀ (remaining i : ℕ),
    (∀ t ∈ bc.tails ++ behind, ¬ t.height < bc.irreversibleBlock) →
      bc.pruneFrom behind i remaining = bc
  | 0, _, _ => rfl
  | remaining + 1, i, h => by
    rw [pruneFrom]
    split
    · rfl
    · next tail htail =>
      rw [if_neg (h tail (List.mem_of_getElem? htail))]
      exact pruneFrom_none remaining (i + 1) h

/-- The map after its update holds the chain of the new main tail. -/
theorem updateMainForkMap_spec {b : Block} {l P s : List Block} (h : bc.IsChain (b :: l))
    (hsplit : b :: l = P ++ s) (hP : ∀ x ∈ P, ¬ bc.isInMainFork x)
    (hs : ∀ x ∈ s, bc.isInMainFork x)
    (hdom : ∀ k v, bc.mainForkMap k = some v → 0 ≤ k ∧ k ≤ b.height) :
    ∃ map, bc.updateMainForkMap (some b) = { bc with mainForkMap := map } ∧
      Mapped { bc with mainForkMap := map } (b :: l) := by
  obtain ⟨map, hres, hmapP, hmap⟩ := updateMainForkMapFrom_spec hsplit h hP
    fun c hc => hs c (List.mem_of_mem_head? hc)
  refine ⟨map, hres, ?_, ?_⟩
  · intro x hx
    rw [hsplit] at hx
    rcases List.mem_append.1 hx with hx | hx
    · exact hmapP x hx
    · -- below `P` nothing has changed
      have hne : ∀ y ∈ P, y.height ≠ x.height := by
        obtain ⟨s₁, s₂, rfl⟩ := List.append_of_mem hx
        intro y hy
        have hch : bc.IsChain ((P ++ s₁) ++ x :: s₂) := by
          rw [List.append_assoc, ← hsplit]
          exact h
        exact (hch.level_lt_of_append y (List.mem_append_left _ hy)).ne'
      have hx := hs x hx
      rw [isInMainFork, decide_eq_true_iff] at hx
      exact (hmap _ hne).trans hx
  · intro k v hv
    by_cases hk : ∃ x ∈ P, x.height = k
    · obtain ⟨x, hx, hxk⟩ := hk
      exact ⟨x, by rw [hsplit]; exact List.mem_append_left _ hx, hxk⟩
    · have hv : map k = some v := hv
      rw [hmap k fun x hx hxk => hk ⟨x, hx, hxk⟩] at hv
      obtain ⟨h₀, h₁⟩ := hdom k v hv
      exact h.exists_level h₀ h₁

theorem Mapped.bounds {m b : Block} {l s : List Block} (hmap : bc.Mapped s)
    (hs : ∀ x ∈ s, x ∈ m :: l) (h : bc.IsChain (m :: l)) (hb : m.height ≤ b.height) (k : ℤ) (v : Hash)
    (hv : bc.mainForkMap k = some v) : 0 ≤ k ∧ k ≤ b.height := by
  obtain ⟨x, hx, rfl⟩ := hmap.2 k v hv
  exact ⟨h.level_nonneg_of_mem (hs x hx), (h.level_le (hs x hx)).trans hb⟩

/-- No tail is higher than the main tail: nothing is switched, and the map catches up. -/
theorem updateMainTailIndex_stay (hsound : bc.Sound) {m : Block} {ml P s : List Block}
    (hm : bc.getMainTail = some m) (hmain : bc.IsChain (m :: ml))
    (hmax : ∀ t ∈ bc.tails, t.height ≤ m.height) (hsplit : m :: ml = P ++ s)
    (hP : ∀ x ∈ P, ¬ bc.isInMainFork x) (hmap : bc.Mapped s)
    (hkeep : ∀ t ∈ bc.tails, bc.irreversibleBlock ≤ t.height) :
    ∃ bc', bc.updateMainTailIndex = (.ok noSwitch, bc') ∧ bc'.Settled m ml ∧ bc'.db = bc.db := by
  have hsub : ∀ x ∈ s, x ∈ m :: ml := fun x hx => hsplit ▸ List.mem_append_right _ hx
  have hin : ∀ x ∈ s, bc.isInMainFork x := fun x hx => by
    rw [isInMainFork, decide_eq_true_iff]
    exact hmap.1 x hx
  obtain ⟨map, hres, hmapped⟩ := updateMainForkMap_spec hmain hsplit hP hin
    (hmap.bounds hsub hmain le_rfl)
  have hloop : bc.longestFork bc.length noSwitch 0 bc.tails = (.ok noSwitch, bc) :=
    longestFork_none hsound.forkLengths_eq fun x hx => by
      rw [length_eq hsound hm]
      exact hmax x hx
  refine ⟨{ bc with mainForkMap := map }, ?_, ?_, rfl⟩
  · rw [updateMainTailIndex, hloop]
    simp only [hm, hres]
    rw [pruneTails, pruneFrom_none _ _ fun t ht => ?_]
    rw [List.append_nil] at ht
    exact not_lt.2 (hkeep t ht)
  · exact ⟨⟨hsound.keyed, hsound.rooted, hsound.mem_tails, hsound.nodup, hsound.forkLengths_eq⟩,
      hm, hmain, hmax, hmapped⟩

/-- One tail is higher than the main tail: the chain switches to it. -/
theorem updateMainTailIndex_switch (hsound : bc.Sound) {m b : Block} {ml l : List Block}
    (hm : bc.getMainTail = some m) (hmain : bc.IsChain (m :: ml)) (hmap : bc.Mapped (m :: ml))
    (hb : b ∈ bc.tails) (h : bc.IsChain (b :: l)) (hgt : m.height < b.height)
    (hmax : ∀ t ∈ bc.tails, t ≠ b → t.height ≤ m.height)
    (hkeep : ∀ t ∈ bc.tails, bc.irreversibleBlock ≤ t.height) :
    ∃ bc' R P c s, m :: ml = R ++ c :: s ∧ b :: l = P ++ c :: s ∧ (∀ x ∈ P, x ∉ m :: ml) ∧
      bc.updateMainTailIndex = (.ok ⟨R, P, true⟩, bc') ∧ bc'.Settled b l ∧ bc'.db = bc.db := by
  obtain ⟨t₁, t₂, ht⟩ := List.append_of_mem hb
  have hnodup := hsound.nodup
  rw [ht, List.nodup_middle, List.nodup_cons] at hnodup
  have hle : ∀ x, x ∈ t₁ ∨ x ∈ t₂ → x.height ≤ m.height := fun x hx =>
    hmax x (by rw [ht]; simp; grind) fun hxb => hnodup.1 (List.mem_append.2 (hxb ▸ hx))
  obtain ⟨R, P, c, s, hR, hPs, hP, hfork⟩ := forked_spec hm hmain hmap h (0 + t₁.length)
  -- the switch sets the index, nothing else
  set bc₁ : Blockchain := { bc with mainTailIndex := ((0 + t₁.length : ℕ) : ℤ) } with hbc₁
  have hloop : bc.longestFork bc.length noSwitch 0 bc.tails = (.ok ⟨R, P, true⟩, bc₁) := by
    rw [ht, length_eq hsound hm]
    exact longestFork_one hgt (fun x hx => (hle x (.inr hx)).trans hgt.le) (by rw [← ht]; exact hsound.forkLengths_eq)
      (fun x hx => hle x (.inl hx)) hfork rfl
  have hb₁ : bc₁.getMainTail = some b := by
    simp only [getMainTail, tailAt, hbc₁]
    rw [if_neg (by omega), ht]
    simp
  have hnot : ∀ x ∈ P, ¬ bc₁.isInMainFork x := fun x hx hin =>
    hP x hx ((hmap.isInMainFork_iff hmain (h.stored x (by rw [hPs]; simp [hx]))).1 hin)
  have hcs : ∀ x ∈ c :: s, bc₁.isInMainFork x := fun x hx => by
    rw [isInMainFork, decide_eq_true_iff]
    exact hmap.1 x (hR ▸ List.mem_append_right _ hx)
  obtain ⟨map, hres, hmapped⟩ := @updateMainForkMap_spec bc₁ _ _ _ _ h hPs hnot hcs
    (hmap.bounds (fun x hx => hx) hmain hgt.le)
  refine ⟨{ bc₁ with mainForkMap := map }, R, P, c, s, hR, hPs, hP, ?_, ?_, rfl⟩
  · rw [updateMainTailIndex, hloop]
    simp only [hb₁, hres]
    rw [pruneTails, pruneFrom_none _ _ fun t ht => ?_]
    rw [List.append_nil] at ht
    exact not_lt.2 (hkeep t ht)
  · refine ⟨⟨hsound.keyed, hsound.rooted, hsound.mem_tails, hsound.nodup, hsound.forkLengths_eq⟩,
      hb₁, h, ?_, hmapped⟩
    intro t ht'
    by_cases htb : t = b
    · rw [htb]
    · exact (hmax t ht' htb).trans hgt.le

/-! ## `Append` -/

/-- A block that may be appended: it is not stored yet, and it is a child of a stored block. -/
structure Appendable (bc : Blockchain) (b p : Block) : Prop where
  fresh : bc.db b.hash = none
  parent : bc.Stored p
  child : p.isValidParentOf b

theorem Appendable.height_pos (hs : bc.Sound) {b p : Block} (hb : bc.Appendable b p) :
    0 < b.height := by
  obtain ⟨l, hl⟩ := hs.rooted p hb.parent
  have h₀ : 0 ≤ p.height := hl.level_nonneg
  have h₁ := hb.child.2
  omega

/-- The index of a stored block among the tails. -/
theorem indexInTails_spec (hs : bc.Sound) {p : Block} (hp : bc.Stored p) :
    (p ∉ bc.tails ∧ bc.indexInTails p = none) ∨
      ∃ t₁ t₂, bc.tails = t₁ ++ p :: t₂ ∧ bc.indexInTails p = some t₁.length := by
  have hsame : ∀ t ∈ bc.tails, t.hash = p.hash → t = p := fun t ht h =>
    ((hs.mem_tails t).1 ht).1.eq_of_hash hp h
  by_cases hmem : p ∈ bc.tails
  · right
    obtain ⟨t₁, t₂, ht⟩ := List.append_of_mem hmem
    refine ⟨t₁, t₂, ht, ?_⟩
    have hnodup := hs.nodup
    rw [ht, List.nodup_middle, List.nodup_cons] at hnodup
    rw [indexInTails, ht, List.findIdx?_append, List.findIdx?_eq_none_iff.2, List.findIdx?_cons]
    · simp
    · intro t ht₁
      have hne : t ≠ p := fun h => hnodup.1 (List.mem_append_left _ (h ▸ ht₁))
      simp only [decide_eq_false_iff_not]
      exact fun h => hne (hsame t (by rw [ht]; simp [ht₁]) h)
  · left
    refine ⟨hmem, List.findIdx?_eq_none_iff.2 fun t ht => ?_⟩
    simp only [decide_eq_false_iff_not]
    exact fun h => hmem (hsame t ht h ▸ ht)

/-- The chain after an append: the block is stored, and it is a tail, in the place of its
    parent if that was one. -/
theorem append_eq (hs : bc.Sound) {b p : Block} (hb : bc.Appendable b p) :
    ∃ tails, bc.append b = (none, { bc with
        db := Function.update bc.db b.hash (some b)
        tails := tails
        forkLengths := tails.map Block.height }) ∧
      ((p ∉ bc.tails ∧ tails = bc.tails ++ [b]) ∨
        ∃ t₁ t₂, bc.tails = t₁ ++ p :: t₂ ∧ tails = t₁ ++ b :: t₂) := by
  have hgen : b.isGenesis = false := by
    rw [Block.isGenesis, decide_eq_false_iff_not]
    exact (hb.height_pos hs).ne'
  obtain ⟨l, hl⟩ := hs.rooted p hb.parent
  have happ := append_child hl.genesis_isSome hb.fresh hb.parent hb.child.1 hgen
  rcases indexInTails_spec hs hb.parent with ⟨hmem, hidx⟩ | ⟨t₁, t₂, ht, hidx⟩
  · refine ⟨bc.tails ++ [b], ?_, .inl ⟨hmem, rfl⟩⟩
    rw [happ, hidx, List.map_append, ← hs.forkLengths_eq]
    rfl
  · have htails : bc.tails.set t₁.length b = t₁ ++ b :: t₂ := by
      rw [ht]
      simp
    refine ⟨t₁ ++ b :: t₂, ?_, .inr ⟨t₁, t₂, ht, rfl⟩⟩
    rw [happ, hidx, hs.forkLengths_eq, ← htails, List.map_set]
    rfl

/-- An append of such a block goes well, stores it, and loses no other block. -/
theorem append_stored (hs : bc.Sound) {b p : Block} (hb : bc.Appendable b p) :
    (bc.append b).1 = none ∧ ∀ x, (bc.append b).2.Stored x ↔ x = b ∨ bc.Stored x := by
  obtain ⟨tails, happ, -⟩ := append_eq hs hb
  rw [happ]
  refine ⟨rfl, fun x => ?_⟩
  change Function.update bc.db b.hash (some b) x.hash = some x ↔ x = b ∨ bc.db x.hash = some x
  by_cases hx : x.hash = b.hash
  · rw [hx, Function.update_self, hb.fresh]
    simp [eq_comm]
  · rw [Function.update_of_ne hx]
    exact ⟨.inr, fun h => h.resolve_left fun hxb => hx (hxb ▸ rfl)⟩

/-- Where the main tail is after an append: on the block if its parent was the main tail,
    and where it was otherwise. -/
theorem getMainTail_append (hs : bc.Sound) {b p m : Block} {tails : List Block}
    (hcases : (p ∉ bc.tails ∧ tails = bc.tails ++ [b]) ∨
      ∃ t₁ t₂, bc.tails = t₁ ++ p :: t₂ ∧ tails = t₁ ++ b :: t₂)
    (hm : bc.getMainTail = some m) {bc' : Blockchain} (htails : bc'.tails = tails)
    (hindex : bc'.mainTailIndex = bc.mainTailIndex) :
    bc'.getMainTail = some (if m = p then b else m) := by
  have hmem := getMainTail_mem hm
  unfold getMainTail tailAt at hm ⊢
  rw [hindex, htails]
  split_ifs at hm with h0
  rw [if_neg h0]
  rcases hcases with ⟨hp, rfl⟩ | ⟨t₁, t₂, ht, rfl⟩
  · have hmp : m ≠ p := fun h => hp (h ▸ hmem)
    rw [if_neg hmp, List.getElem?_append_left (List.getElem?_eq_some_iff.1 hm).1]
    exact hm
  · have hnodup := hs.nodup
    rw [ht] at hm hnodup
    rcases lt_trichotomy bc.mainTailIndex.toNat t₁.length with hi | hi | hi
    · rw [List.getElem?_append_left hi] at hm ⊢
      have hmp : m ≠ p := by
        rintro rfl
        rw [List.nodup_middle, List.nodup_cons] at hnodup
        exact hnodup.1 (List.mem_append_left _ (List.mem_of_getElem? hm))
      rw [hm, if_neg hmp]
    · rw [hi, List.getElem?_append_right le_rfl, Nat.sub_self] at hm ⊢
      obtain rfl : p = m := by simpa using hm
      simp
    · rw [List.getElem?_append_right hi.le] at hm ⊢
      obtain ⟨k, hk⟩ : ∃ k, bc.mainTailIndex.toNat - t₁.length = k + 1 :=
        ⟨bc.mainTailIndex.toNat - t₁.length - 1, by omega⟩
      rw [hk, List.getElem?_cons_succ] at hm ⊢
      have hmp : m ≠ p := by
        rintro rfl
        rw [List.nodup_middle, List.nodup_cons] at hnodup
        exact hnodup.1 (List.mem_append_right _ (List.mem_of_getElem? hm))
      rw [hm, if_neg hmp]

/-- **`Append`** keeps the tails the stored blocks without stored children. -/
theorem append_spec (hs : bc.Sound) {b p m : Block} (hb : bc.Appendable b p)
    (hm : bc.getMainTail = some m) :
    ∃ bc', bc.append b = (none, bc') ∧ bc'.Sound ∧
      (∀ t, t ∈ bc'.tails ↔ t = b ∨ (t ∈ bc.tails ∧ t ≠ p)) ∧
      bc'.getMainTail = some (if m = p then b else m) ∧
      (∀ l, bc.IsChain l → bc'.IsChain l) ∧ bc'.tree.Parent b p ∧
      bc'.mainForkMap = bc.mainForkMap ∧ bc'.irreversibleBlock = bc.irreversibleBlock := by
  obtain ⟨tails, happ, hcases⟩ := append_eq hs hb
  set bc' : Blockchain := { bc with
    db := Function.update bc.db b.hash (some b)
    tails := tails
    forkLengths := tails.map Block.height } with hbc'
  have hstored : ∀ x, bc'.Stored x ↔ x = b ∨ bc.Stored x := by
    have h := (append_stored hs hb).2
    rwa [happ] at h
  have hbnew : ¬ bc.Stored b := by
    rw [Stored, hb.fresh]
    simp
  have hpb : p ≠ b := fun h => hbnew (h ▸ hb.parent)
  have hmono : ∀ l, bc.IsChain l → bc'.IsChain l := by
    have hroot : ∀ {g}, bc.tree.Root g → bc'.tree.Root g := fun hr =>
      ⟨hr.1, (hstored _).2 (.inr hr.2.1), hr.2.2⟩
    have hparent : ∀ {c q}, bc.tree.Parent c q → bc'.tree.Parent c q := fun hq =>
      ⟨(hstored _).2 (.inr hq.1), (hstored _).2 (.inr hq.2.1), hq.2.2⟩
    exact fun l hl => hl.mono hroot hparent
  have hpar : bc'.tree.Parent b p := ⟨(hstored b).2 (.inl rfl), (hstored p).2 (.inr hb.parent), hb.child⟩
  -- a stored block has no parent with the hash of the new block
  have hchild : ∀ c, bc.Stored c → ¬ b.isValidParentOf c := by
    intro c hc hbc
    obtain ⟨l, hl⟩ := hs.rooted c hc
    have hpos := hb.height_pos hs
    have hheight := hbc.2
    cases hl with
    | root hr =>
      have h0 : c.height = 0 := hr.2.2
      omega
    | @grow _ q _ hq _ =>
      have hqb : q.hash = b.hash := Option.some.inj (hq.2.2.1.symm.trans hbc.1)
      have hq : bc.db q.hash = some q := hq.2.1
      rw [hqb, hb.fresh] at hq
      exact absurd hq (by simp)
  have htails : ∀ t, t ∈ tails ↔ t = b ∨ (t ∈ bc.tails ∧ t ≠ p) := by
    intro t
    rcases hcases with ⟨hp, rfl⟩ | ⟨t₁, t₂, ht, rfl⟩
    · rw [List.mem_append, List.mem_singleton]
      constructor
      · rintro (h | h)
        · exact .inr ⟨h, fun htp => hp (htp ▸ h)⟩
        · exact .inl h
      · rintro (h | h)
        · exact .inr h
        · exact .inl h.1
    · have hnodup := hs.nodup
      rw [ht, List.nodup_middle, List.nodup_cons, List.mem_append] at hnodup
      have hne : t ∈ t₁ ∨ t ∈ t₂ → t ≠ p := fun h htp => hnodup.1 (htp ▸ h)
      rw [ht]
      simp only [List.mem_append, List.mem_cons]
      grind
  refine ⟨bc', happ, ⟨?_, ?_, ?_, ?_, rfl⟩, htails, getMainTail_append hs hcases hm rfl rfl, hmono, hpar,
    rfl, rfl⟩
  · intro h x hx
    by_cases hh : h = b.hash
    · subst hh
      rw [show bc'.db b.hash = some b from Function.update_self _ _ _] at hx
      rw [Option.some.inj hx]
    · rw [show bc'.db h = bc.db h from Function.update_of_ne hh _ _] at hx
      exact hs.keyed h x hx
  · intro x hx
    rcases (hstored x).1 hx with rfl | hx
    · obtain ⟨l, hl⟩ := hs.rooted p hb.parent
      exact ⟨p :: l, .grow hpar (hmono _ hl)⟩
    · obtain ⟨l, hl⟩ := hs.rooted x hx
      exact ⟨l, hmono _ hl⟩
  · intro t
    rw [show bc'.tails = tails from rfl, htails, hstored]
    constructor
    · rintro (rfl | ⟨ht, htp⟩)
      · refine ⟨.inl rfl, fun c hc hbc => ?_⟩
        rcases (hstored c).1 hc with rfl | hc
        · have := hbc.2
          omega
        · exact hchild c hc hbc
      · obtain ⟨hst, hno⟩ := (hs.mem_tails t).1 ht
        refine ⟨.inr hst, fun c hc htc => ?_⟩
        rcases (hstored c).1 hc with rfl | hc
        · exact htp (hst.eq_of_hash hb.parent (Option.some.inj (htc.1.symm.trans hb.child.1)))
        · exact hno c hc htc
    · rintro ⟨rfl | hst, hno⟩
      · exact .inl rfl
      · refine .inr ⟨(hs.mem_tails t).2 ⟨hst, fun c hc => hno c ((hstored c).2 (.inr hc))⟩, ?_⟩
        rintro rfl
        exact hno b ((hstored b).2 (.inl rfl)) hb.child
  · rw [show bc'.tails = tails from rfl]
    have hbt : b ∉ bc.tails := fun h => hbnew ((hs.mem_tails b).1 h).1
    rcases hcases with ⟨-, rfl⟩ | ⟨t₁, t₂, ht, rfl⟩
    · exact List.nodup_append.2 ⟨hs.nodup, List.nodup_singleton b, by
        intro x hx y hy hxy
        rw [List.mem_singleton.1 hy] at hxy
        exact hbt (hxy ▸ hx)⟩
    · have hnodup := hs.nodup
      rw [ht] at hnodup hbt
      rw [List.nodup_middle, List.nodup_cons] at hnodup ⊢
      refine ⟨fun h => hbt ?_, hnodup.2⟩
      rcases List.mem_append.1 h with h | h
      · exact List.mem_append_left _ h
      · exact List.mem_append_right _ (List.mem_cons_of_mem _ h)

/-! ## Runs -/

/-- What is done before a call of `UpdateMainTailIndex`: a block is appended, or nothing. -/
def prepare (bc : Blockchain) : Option Block → Blockchain
  | some b => (bc.append b).2
  | none => bc

/-- The block, if any, may be appended, and no tail is then below the irreversible block
    number. -/
def Allowed (bc : Blockchain) (op : Option Block) : Prop :=
  (∀ b ∈ op, ∃ p, bc.Appendable b p) ∧
    ∀ t ∈ (bc.prepare op).tails, bc.irreversibleBlock ≤ t.height

/-- The chains reached from a genesis block.  The irreversible block number may change
    between the steps. -/
inductive Run : Blockchain → Prop
  | genesis (g : Block) : g.height = 0 → Run (init.append g).2
  | step {bc : Blockchain} (op : Option Block) : Run bc → bc.Allowed op →
      Run (bc.prepare op).updateMainTailIndex.2
  | irreversible {bc : Blockchain} (k : ℤ) : Run bc → Run { bc with irreversibleBlock := k }

/-- Between two steps: the map holds the main chain, or there is only the genesis block, and
    the map is still empty. -/
def Ready (bc : Blockchain) (m : Block) (ml : List Block) : Prop :=
  bc.Settled m ml ∨
    (bc.Sound ∧ bc.getMainTail = some m ∧ bc.IsChain (m :: ml) ∧ ml = [] ∧
      (∀ x, bc.Stored x → x = m) ∧ bc.Mapped [])

theorem Ready.sound {m : Block} {ml : List Block} (h : bc.Ready m ml) : bc.Sound := by
  rcases h with h | h
  · exact h.sound
  · exact h.1

theorem Ready.mainTail {m : Block} {ml : List Block} (h : bc.Ready m ml) :
    bc.getMainTail = some m := by
  rcases h with h | h
  · exact h.mainTail
  · exact h.2.1

theorem Ready.chain {m : Block} {ml : List Block} (h : bc.Ready m ml) : bc.IsChain (m :: ml) := by
  rcases h with h | h
  · exact h.chain
  · exact h.2.2.1

theorem Ready.maximal {m : Block} {ml : List Block} (h : bc.Ready m ml) :
    ∀ t ∈ bc.tails, t.height ≤ m.height := by
  rcases h with h | h
  · exact h.maximal
  · intro t ht
    rw [h.2.2.2.2.1 t ((h.1.mem_tails t).1 ht).1]

/-- The part of the main chain that the map holds. -/
theorem Ready.mapped {m : Block} {ml : List Block} (h : bc.Ready m ml) :
    ∃ P s, m :: ml = P ++ s ∧ bc.Mapped s ∧ ∀ x ∈ P, ¬ bc.isInMainFork x := by
  rcases h with h | ⟨-, -, -, -, -, hmap⟩
  · exact ⟨[], m :: ml, rfl, h.mapped, by simp⟩
  · refine ⟨m :: ml, [], by simp, hmap, ?_⟩
    intro x _ hin
    rw [isInMainFork, decide_eq_true_iff] at hin
    obtain ⟨y, hy, -⟩ := hmap.2 _ _ hin
    exact List.not_mem_nil hy

/-- The answer of `UpdateMainTailIndex` on the way from the main chain `m₁ :: l₁` to the
    main chain `m₂ :: l₂`: the blocks of the two above their highest common block. -/
def Switch.Parts (sw : Switch) (old new : List Block) : Prop :=
  ∃ C, C ≠ [] ∧ old = sw.blocksToRollBack ++ C ∧ new = sw.blocksToProcess ++ C ∧
    List.Disjoint sw.blocksToRollBack sw.blocksToProcess

theorem noSwitch_parts (m : Block) (ml : List Block) : noSwitch.Parts (m :: ml) (m :: ml) :=
  ⟨m :: ml, by simp, rfl, rfl, by simp [noSwitch]⟩

/-- **One step** from a ready chain: the main tail stays, moves on to its new child, or
    switches to a higher one. -/
theorem step_spec {m : Block} {ml : List Block} (h : bc.Ready m ml) {op : Option Block}
    (hop : bc.Allowed op) :
    ∃ sw bc₂ m₁ l₁ m₂ l₂, (bc.prepare op).updateMainTailIndex = (.ok sw, bc₂) ∧ bc₂.db = (bc.prepare op).db ∧
      (bc.prepare op).getMainTail = some m₁ ∧ (bc.prepare op).IsChain (m₁ :: l₁) ∧
      bc₂.Settled m₂ l₂ ∧ (m₁ = m ∨ m.height < m₁.height) ∧ (m₂ = m₁ ∨ m₁.height < m₂.height) ∧
      sw.Parts (m₁ :: l₁) (m₂ :: l₂) := by
  obtain ⟨hblock, hkeep⟩ := hop
  obtain ⟨P, s, hsplit, hmap, hP⟩ := h.mapped
  cases op with
  | none =>
    obtain ⟨bc₂, hup, hset, hdb⟩ := updateMainTailIndex_stay h.sound h.mainTail h.chain h.maximal
      hsplit hP hmap hkeep
    refine ⟨noSwitch, bc₂, m, ml, m, ml, hup, hdb, h.mainTail, h.chain, hset, .inl rfl, .inl rfl,
      noSwitch_parts _ _⟩
  | some b =>
    obtain ⟨p, hb⟩ := hblock b rfl
    obtain ⟨bc₁, happ, hsound₁, htails, hmain₁, hmono, hpar, hmap₁, hirr₁⟩ :=
      append_spec h.sound hb h.mainTail
    have hprep : bc.prepare (some b) = bc₁ := by rw [prepare, happ]
    rw [hprep] at hkeep ⊢
    rw [← hirr₁] at hkeep
    have hin : ∀ x, bc₁.isInMainFork x = bc.isInMainFork x := fun x => by
      simp only [isInMainFork, hmap₁]
    have hmapped₁ : bc₁.Mapped s := by
      unfold Mapped
      rw [hmap₁]
      exact hmap
    by_cases hmp : m = p
    · -- the main tail is extended
      subst hmp
      rw [if_pos rfl] at hmain₁
      have hchain : bc₁.IsChain (b :: m :: ml) := .grow hpar (hmono _ h.chain)
      have hheight : b.height = m.height + 1 := bc₁.tree.parent_level hpar
      have hmax : ∀ t ∈ bc₁.tails, t.height ≤ b.height := by
        intro t ht
        rcases (htails t).1 ht with rfl | ⟨ht, -⟩
        · exact le_rfl
        · have := h.maximal t ht
          omega
      have hb₁ : ∀ x ∈ b :: P, ¬ bc₁.isInMainFork x := by
        intro x hx hxin
        rw [hin] at hxin
        rcases List.mem_cons.1 hx with rfl | hx
        · rw [isInMainFork, decide_eq_true_iff] at hxin
          have := (hmap.bounds (fun y hy => hsplit ▸ List.mem_append_right _ hy) h.chain le_rfl _ _ hxin).2
          omega
        · exact hP x hx hxin
      obtain ⟨bc₂, hup, hset, hdb⟩ := updateMainTailIndex_stay hsound₁ hmain₁ hchain hmax
        (show b :: m :: ml = (b :: P) ++ s by rw [hsplit]; rfl) hb₁ hmapped₁ hkeep
      refine ⟨noSwitch, bc₂, b, m :: ml, b, m :: ml, hup, hdb, hmain₁, hchain, hset, .inr ?_, .inl rfl,
        noSwitch_parts _ _⟩
      omega
    · -- another fork grows
      rw [if_neg hmp] at hmain₁
      have hset : bc.Settled m ml := by
        rcases h with h | ⟨-, -, -, -, honly, -⟩
        · exact h
        · exact absurd (honly p hb.parent).symm hmp
      have hchain : bc₁.IsChain (m :: ml) := hmono _ hset.chain
      have hmapm : bc₁.Mapped (m :: ml) := by
        unfold Mapped
        rw [hmap₁]
        exact hset.mapped
      have hothers : ∀ t ∈ bc₁.tails, t ≠ b → t.height ≤ m.height := by
        intro t ht htb
        rcases (htails t).1 ht with rfl | ⟨ht, -⟩
        · exact absurd rfl htb
        · exact hset.maximal t ht
      by_cases hgt : m.height < b.height
      · obtain ⟨l, hl⟩ := hsound₁.rooted b hpar.1
        obtain ⟨bc₂, R, Q, c, C, hR, hQ, hdisj, hup, hset₂, hdb⟩ := updateMainTailIndex_switch hsound₁
          hmain₁ hchain hmapm ((htails b).2 (.inl rfl)) hl hgt hothers hkeep
        refine ⟨⟨R, Q, true⟩, bc₂, m, ml, b, l, hup, hdb, hmain₁, hchain, hset₂, .inl rfl, .inr hgt, c :: C,
          by simp, hR, hQ, ?_⟩
        intro x hxR hxQ
        exact hdisj x hxQ (by rw [hR]; exact List.mem_append_left _ hxR)
      · have hmax : ∀ t ∈ bc₁.tails, t.height ≤ m.height := by
          intro t ht
          by_cases htb : t = b
          · rw [htb]
            exact not_lt.1 hgt
          · exact hothers t ht htb
        obtain ⟨bc₂, hup, hset₂, hdb⟩ := updateMainTailIndex_stay hsound₁ hmain₁ hchain hmax
          (List.nil_append (m :: ml)).symm (by simp) hmapm hkeep
        refine ⟨noSwitch, bc₂, m, ml, m, ml, hup, hdb, hmain₁, hchain, hset₂, .inl rfl, .inl rfl,
          noSwitch_parts _ _⟩

theorem append_genesis {g : Block} (hg : g.height = 0) : init.append g = (none, { init with
    db := Function.update init.db g.hash (some g)
    genesis := some g
    tails := [g]
    mainTailIndex := 0 }) := by
  simp [append, putBlock, init, Block.isGenesis, hg, isEmpty]

theorem ready_genesis {g : Block} (hg : g.height = 0) : (init.append g).2.Ready g [] := by
  rw [append_genesis hg]
  set bc : Blockchain := { init with
    db := Function.update init.db g.hash (some g)
    genesis := some g
    tails := [g]
    mainTailIndex := 0 } with hbc
  have hdb : ∀ h b, bc.db h = some b → h = g.hash ∧ b = g := by
    intro h b hb
    by_cases hh : h = g.hash
    · subst hh
      rw [show bc.db g.hash = some g from Function.update_self _ _ _] at hb
      exact ⟨rfl, (Option.some.inj hb).symm⟩
    · rw [show bc.db h = init.db h from Function.update_of_ne hh _ _] at hb
      exact absurd hb (by simp [init])
  have hstored : bc.Stored g := Function.update_self _ _ _
  have honly : ∀ x, bc.Stored x → x = g := fun x hx => (hdb _ _ hx).2
  have hchain : bc.IsChain [g] := .root ⟨rfl, hstored, hg⟩
  refine .inr ⟨⟨?_, ?_, ?_, List.nodup_singleton g, ?_⟩, rfl, hchain, rfl, honly, ?_⟩
  · intro h b hb
    obtain ⟨rfl, rfl⟩ := hdb h b hb
    rfl
  · intro b hb
    obtain rfl := honly b hb
    exact ⟨[], hchain⟩
  · intro b
    rw [show bc.tails = [g] from rfl, List.mem_singleton]
    constructor
    · rintro rfl
      refine ⟨hstored, fun c hc hbc => ?_⟩
      obtain rfl := honly c hc
      have := hbc.2
      omega
    · exact fun h => honly b h.1
  · rw [show bc.tails = [g] from rfl, List.map_singleton, hg]
    rfl
  · exact ⟨by simp, fun k v hv => absurd hv (by simp [hbc, init])⟩

theorem Ready.irreversible {m : Block} {ml : List Block} (h : bc.Ready m ml) (k : ℤ) :
    Ready { bc with irreversibleBlock := k } m ml := by
  have hsound : Sound { bc with irreversibleBlock := k } :=
    ⟨h.sound.keyed, h.sound.rooted, h.sound.mem_tails, h.sound.nodup, h.sound.forkLengths_eq⟩
  rcases h with h | h
  · exact .inl ⟨hsound, h.mainTail, h.chain, h.maximal, h.mapped⟩
  · exact .inr ⟨hsound, h.2⟩

theorem Run.ready (h : Run bc) : ∃ m ml, bc.Ready m ml := by
  induction h with
  | genesis g hg => exact ⟨g, [], ready_genesis hg⟩
  | step op _ hop ih =>
    obtain ⟨m, ml, hr⟩ := ih
    obtain ⟨sw, bc₂, m₁, l₁, m₂, l₂, hup, -, -, -, hset, -⟩ := step_spec hr hop
    rw [hup]
    exact ⟨m₂, l₂, .inl hset⟩
  | irreversible k _ ih =>
    obtain ⟨m, ml, hr⟩ := ih
    exact ⟨m, ml, hr.irreversible k⟩

/-- A step appends the block, if any, and loses no other block. -/
theorem prepare_stored (hs : bc.Sound) {op : Option Block} (hop : bc.Allowed op) :
    (∀ b ∈ op, (bc.append b).1 = none) ∧ ∀ x, (bc.prepare op).Stored x ↔ x ∈ op ∨ bc.Stored x := by
  cases op with
  | none =>
    refine ⟨fun b hb => ?_, fun x => (or_iff_right (by simp)).symm⟩
    cases hb
  | some b =>
    obtain ⟨p, hb⟩ := hop.1 b rfl
    obtain ⟨hok, hstored⟩ := append_stored hs hb
    refine ⟨fun c hc => Option.some.inj hc ▸ hok, fun x => (hstored x).trans ?_⟩
    rw [Option.mem_some_iff, eq_comm]

/-- What is stored after a step of a run. -/
theorem Run.stored_step (hrun : Run bc) {op : Option Block} (hop : bc.Allowed op) (x : Block) :
    (bc.prepare op).updateMainTailIndex.2.Stored x ↔ x ∈ op ∨ bc.Stored x := by
  obtain ⟨m, ml, hready⟩ := hrun.ready
  obtain ⟨sw, bc₂, -, -, -, -, hup, hdb, -⟩ := step_spec hready hop
  rw [← (prepare_stored hready.sound hop).2, hup, Stored, hdb, Stored]

/-- **Fork choice.**  In every step of every run the append goes well and loses no block; after it
    the tails are the stored blocks without stored children, the main tail is a highest one and has
    moved to a higher block if at all, the map gives the main chain, and the lists returned are the
    two chains above the block where they part. -/
theorem forkChoice_correct (hrun : Run bc) {op : Option Block} (hop : bc.Allowed op) :
    ∃ sw bc₂ m m₁ m₂ l₁ l₂, (bc.prepare op).updateMainTailIndex = (.ok sw, bc₂) ∧
      -- the stored blocks
      (∀ b ∈ op, (bc.append b).1 = none) ∧ (∀ x, bc₂.Stored x ↔ x ∈ op ∨ bc.Stored x) ∧
      bc.getMainTail = some m ∧ (bc.prepare op).getMainTail = some m₁ ∧
      bc₂.getMainTail = some m₂ ∧ (bc.prepare op).IsChain (m₁ :: l₁) ∧ bc₂.IsChain (m₂ :: l₂) ∧
      -- the tails
      (∀ b, b ∈ bc₂.tails ↔ bc₂.Stored b ∧ ∀ c, bc₂.Stored c → ¬ b.isValidParentOf c) ∧
      bc₂.tails.Nodup ∧ bc₂.forkLengths = bc₂.tails.map Block.height ∧
      -- the main tail
      (∀ t ∈ bc₂.tails, t.height ≤ m₂.height) ∧ (m₂ = m ∨ m.height < m₂.height) ∧
      (m₂ = m₁ ∨ m₁.height < m₂.height) ∧
      -- the main-fork map
      (∀ h, 0 ≤ h → h ≤ m₂.height →
        ∃ x ∈ m₂ :: l₂, x.height = h ∧ bc₂.mainForkMap h = some x.hash) ∧
      -- the lists of the switch
      sw.Parts (m₁ :: l₁) (m₂ :: l₂) := by
  obtain ⟨m, ml, hready⟩ := hrun.ready
  obtain ⟨sw, bc₂, m₁, l₁, m₂, l₂, hup, -, hm₁, hl₁, hset, h₁, h₂, hparts⟩ := step_spec hready hop
  have hstored := hrun.stored_step hop
  rw [hup] at hstored
  refine ⟨sw, bc₂, m, m₁, m₂, l₁, l₂, hup, (prepare_stored hready.sound hop).1, hstored, hready.mainTail, hm₁, hset.mainTail, hl₁, hset.chain,
    hset.sound.mem_tails, hset.sound.nodup, hset.sound.forkLengths_eq, hset.maximal, ?_, h₂, ?_, hparts⟩
  · rcases h₁ with rfl | h₁
    · exact h₂
    · rcases h₂ with rfl | h₂
      · exact .inr h₁
      · exact .inr (h₁.trans h₂)
  · intro h h₀ hle
    obtain ⟨x, hx, rfl⟩ := hset.chain.exists_level h₀ hle
    exact ⟨x, hx, rfl, hset.mapped.1 x hx⟩

/-- Two forks from the genesis block, and the second one becomes the longer one: the main tail moves
    from the one to the other. -/
theorem forkChoice_correct_fork :
    let g : Block := ⟨"g", none, 0, "m", false⟩
    let a : Block := ⟨"a", some "g", 1, "m", false⟩
    let b : Block := ⟨"b", some "g", 1, "n", false⟩
    let b' : Block := ⟨"b'", some "b", 2, "n", false⟩
    let one := ((init.append g).2.prepare (some a)).updateMainTailIndex.2
    let two := (one.prepare (some b)).updateMainTailIndex.2
    ∃ sw bc₂, (two.prepare (some b')).updateMainTailIndex = (.ok sw, bc₂) ∧ two.getMainTail = some a ∧
      bc₂.Stored a ∧ bc₂.Stored b' ∧ bc₂.getMainTail = some b' ∧ (∀ t ∈ bc₂.tails, t.height ≤ b'.height) ∧
      sw = ⟨[a], [b', b], true⟩ := by
  intro g a b b' one two
  have h₁ : (init.append g).2.Allowed (some a) :=
    ⟨fun _ h => ⟨g, Option.some.inj h ▸ ⟨rfl, rfl, rfl, rfl⟩⟩, by decide⟩
  have h₂ : one.Allowed (some b) :=
    ⟨fun _ h => ⟨g, Option.some.inj h ▸ ⟨by decide, by unfold Stored; decide, rfl, rfl⟩⟩, by decide⟩
  have h₃ : two.Allowed (some b') :=
    ⟨fun _ h => ⟨b, Option.some.inj h ▸ ⟨by decide, by unfold Stored; decide, rfl, rfl⟩⟩, by decide⟩
  obtain ⟨sw, bc₂, -, -, m₂, -, -, hup, -, hstored, -, -, hm₂, -, -, -, -, -, hmax, -⟩ :=
    forkChoice_correct (.step (some b) (.step (some a) (.genesis g rfl) h₁) h₂) h₃
  have hswitch : (two.prepare (some b')).updateMainTailIndex.1 = .ok ⟨[a], [b', b], true⟩ := by
    decide
  have hmain : (two.prepare (some b')).updateMainTailIndex.2.getMainTail = some b' := by decide
  rw [hup] at hswitch hmain
  obtain rfl : m₂ = b' := Option.some.inj (hm₂.symm.trans hmain)
  exact ⟨sw, bc₂, hup, by decide, (hstored a).2 (.inr (by unfold Stored; decide)), (hstored b').2 (.inl rfl), hmain, hmax,
    Except.ok.inj hswitch⟩

end Blockchain
end Timbre
