/-
  Pruning: what `RemoveBlock` and `DeleteFork` take away, when the tails are right afterwards,
  and where the main tail is then.

  Both put the parent of the tail that they remove in its place, whether or not the parent has
  other children.
-/
import Mathlib.Data.List.InsertIdx
import Timbre.Core.Standing

namespace Timbre
namespace Blockchain

variable {bc : Blockchain}

/-! ## The tails -/

/-- The tails are distinct stored blocks without stored children; ancestors of them may be
    missing. -/
structure Listed (bc : Blockchain) : Prop where
  keyed : ∀ h b, bc.db h = some b → b.hash = h
  linked : ∀ c p, bc.Stored c → bc.Stored p → c.height ≠ 0 → c.parentHash = some p.hash → p.isValidParentOf c
  stored : ∀ t ∈ bc.tails, bc.Stored t
  leaf : ∀ t ∈ bc.tails, ∀ c, bc.Stored c → ¬ t.isValidParentOf c
  nodup : bc.tails.Nodup
  forkLengths_eq : bc.forkLengths = bc.tails.map Block.height

theorem Sound.listed (h : bc.Sound) : bc.Listed where
  keyed := h.keyed
  linked c p hc hp hne hhash := by
    obtain ⟨l, hl⟩ := h.rooted c hc
    cases hl with
    | root hr => exact absurd hr.2.2 hne
    | @grow _ q l hq _ =>
      have hqp : q.hash = p.hash := Option.some.inj (hq.2.2.1.symm.trans hhash)
      exact hq.2.1.eq_of_hash hp hqp ▸ hq.2.2
  stored t ht := ((h.mem_tails t).1 ht).1
  leaf t ht := ((h.mem_tails t).1 ht).2
  nodup := h.nodup
  forkLengths_eq := h.forkLengths_eq

/-! ## Part of a chain taken away -/

/-- A chain whose blocks are still stored is still a chain. -/
theorem IsChain.restrict {bc' : Blockchain} {l : List Block} (h : bc.IsChain l) (hgen : bc'.genesis = bc.genesis)
    (hstored : ∀ x ∈ l, bc'.Stored x) : bc'.IsChain l := by
  induction h with
  | root hr => exact .root ⟨hgen.trans hr.1, hstored _ (by simp), hr.2.2⟩
  | grow hp _ ih =>
    refine .grow ⟨hstored _ (by simp), hstored _ (by simp), hp.2.2⟩ ?_
    exact ih fun x hx => hstored x (List.mem_cons_of_mem _ hx)

/-- The database without the blocks of a list. -/
def without (bc : Blockchain) (P : List Block) : Hash → Option Block :=
  fun h => if h ∈ P.map Block.hash then none else bc.db h

/-- `P` is the part of the chain of the block `b` that is not in the main-fork map, and `c` is
    the mapped block it grows on. -/
def GrowsOn (bc : Blockchain) (b : Block) (P : List Block) (c : Block) : Prop :=
  ∃ s, bc.IsChain (P ++ c :: s) ∧ P.head? = some b ∧ (∀ x ∈ P, ¬ bc.isInMainFork x) ∧ bc.isInMainFork c

/-- `bc'` is `bc` without the blocks `P`, which lead from the tail `t` down to a child of `c`.
    The tails are the others, and `c` perhaps. -/
structure Cut (bc bc' : Blockchain) (t : Block) (P : List Block) (c : Block) (s : List Block) : Prop where
  chain : bc.IsChain (P ++ c :: s)
  head : P.head? = some t
  tail : t ∈ bc.tails
  db : bc'.db = bc.without P
  genesis : bc'.genesis = bc.genesis
  mem_tails : ∀ x, x ∈ bc'.tails ↔ (x ∈ bc.tails ∧ x ≠ t) ∨ (x = c ∧ c ∈ bc'.tails)
  nodup : bc'.tails.Nodup
  forkLengths : bc'.forkLengths = bc'.tails.map Block.height

/-- What a safe removal leaves: the chain of every tail, and as tails the stored blocks without
    stored children. -/
structure Safe (bc bc' : Blockchain) : Prop where
  ancestors : ∀ t ∈ bc'.tails, ∀ l, bc.IsChain (t :: l) → ∀ x ∈ t :: l, bc'.getBlockByHash (some x.hash) = .ok x
  tails : ∀ b, b ∈ bc'.tails ↔ bc'.Stored b ∧ ∀ c, bc'.Stored c → ¬ b.isValidParentOf c

namespace Cut

variable {bc' : Blockchain} {t c : Block} {P s : List Block}

theorem mem_head (h : Cut bc bc' t P c s) : t ∈ P := List.mem_of_mem_head? h.head

theorem stored (h : Cut bc bc' t P c s) {x : Block} (hx : x ∈ P) : bc.Stored x :=
  h.chain.stored x (List.mem_append_left _ hx)

theorem stored_base (h : Cut bc bc' t P c s) : bc.Stored c := h.chain.stored c (by simp)

theorem not_mem_base (h : Cut bc bc' t P c s) : c ∉ P := fun hc =>
  lt_irrefl _ (h.chain.level_lt_of_append c hc)

/-- The stored blocks are those that have not been taken away. -/
theorem stored_iff (h : Cut bc bc' t P c s) {x : Block} : bc'.Stored x ↔ bc.Stored x ∧ x ∉ P := by
  rw [Stored, h.db]
  unfold without
  split_ifs with hmem
  · obtain ⟨y, hy, hyx⟩ := List.mem_map.1 hmem
    refine iff_of_false (by simp) ?_
    rintro ⟨hx, hnot⟩
    exact hnot ((h.stored hy).eq_of_hash hx hyx ▸ hy)
  · exact ⟨fun hx => ⟨hx, fun hP => hmem (List.mem_map_of_mem hP)⟩, fun hx => hx.1⟩

/-- The parent of a block that is taken away is taken away too, or it is `c`. -/
theorem parent_mem (h : Cut bc bc' t P c s) {x p : Block} (hx : x ∈ P) (hp : bc.tree.Parent x p) :
    p ∈ P ∨ p = c := by
  obtain ⟨P₁, P₂, rfl⟩ := List.append_of_mem hx
  have hchain : bc.IsChain (x :: (P₂ ++ c :: s)) := by
    have hsuffix := h.chain
    rw [List.append_assoc] at hsuffix
    exact hsuffix.suffix
  cases P₂ with
  | nil =>
    cases hchain with
    | grow hp' _ => exact .inr (bc.tree.parent_unique hp hp')
  | cons y P₂ =>
    cases hchain with
    | grow hp' _ =>
      rw [bc.tree.parent_unique hp hp']
      exact .inl (by simp)

/-- Of the tails only `t` is taken away. -/
theorem tail_of_mem (h : Cut bc bc' t P c s) (hlisted : bc.Listed) {x : Block} (hx : x ∈ bc.tails)
    (hP : x ∈ P) : x = t := by
  obtain ⟨P₁, P₂, hsplit⟩ := List.append_of_mem hP
  rcases List.eq_nil_or_concat P₁ with rfl | ⟨P₁, y, rfl⟩
  · have hhead := h.head
    rw [hsplit] at hhead
    exact Option.some.inj hhead
  · -- the block before `x` is a child of it
    have hchain : bc.IsChain (y :: x :: (P₂ ++ c :: s)) := by
      have hsuffix := h.chain
      rw [hsplit] at hsuffix
      simp only [List.concat_eq_append, List.append_assoc, List.cons_append, List.nil_append] at hsuffix
      exact hsuffix.suffix
    cases hchain with
    | grow hp _ => exact absurd hp.2.2 (hlisted.leaf x hx y hp.1)

/-- A chain that has lost nothing is still a chain. -/
theorem isChain (h : Cut bc bc' t P c s) {l : List Block} (hl : bc.IsChain l) (hout : ∀ x ∈ l, x ∉ P) :
    bc'.IsChain l :=
  hl.restrict h.genesis fun x hx => h.stored_iff.2 ⟨hl.stored x hx, hout x hx⟩

/-- No block outside grows on a block that is taken away. -/
def Closed (bc : Blockchain) (P : List Block) : Prop :=
  ∀ x ∈ P, ∀ y, bc.Stored y → x.isValidParentOf y → y ∈ P

/-- The chain of a block outside has nothing of what is taken away. -/
theorem not_mem_chain (hclosed : Closed bc P) : ∀ {l : List Block} {x : Block}, bc.IsChain (x :: l) →
    x ∉ P → ∀ y ∈ x :: l, y ∉ P
  | [], x, _, hx, y, hy => by rwa [List.mem_singleton.1 hy]
  | p :: l, x, .grow hp hl, hx, y, hy => by
    rcases List.mem_cons.1 hy with rfl | hy
    · exact hx
    · have hpP : p ∉ P := fun hpP => hx (hclosed p hpP x hp.1 hp.2.2)
      exact not_mem_chain hclosed hl hpP y hy

/-- **A cut is safe** exactly if nothing else grows on the blocks that are taken away, and `c`
    becomes a tail if nothing else grows on it. -/
theorem safe_iff (h : Cut bc bc' t P c s) (hsound : bc.Sound) (hbounded : ∃ N, ∀ b, bc.Stored b → b.height ≤ N) :
    Safe bc bc' ↔ Closed bc P ∧ (c ∈ bc'.tails ↔ ∀ y, bc.Stored y → c.isValidParentOf y → y ∈ P) := by
  constructor
  · intro hsafe
    constructor
    · intro x hx y hy hxy
      by_contra hyP
      -- a tail above `y` survives, and `x` is an ancestor of it
      obtain ⟨N, hN⟩ := hbounded
      obtain ⟨u, hu, l, hl, hyl⟩ := hsound.exists_tail hN hy
      obtain ⟨pre, rest, hsplit⟩ := List.append_of_mem hyl
      have hsuffix : bc.IsChain (y :: rest) := (hsplit ▸ hl).suffix
      have hxl : x ∈ u :: l := by
        rw [hsplit]
        refine List.mem_append_right _ (List.mem_cons_of_mem _ ?_)
        cases hsuffix with
        | root hr =>
          have h₀ : y.height = 0 := hr.2.2
          have h₁ : 0 ≤ x.height := h.chain.level_nonneg_of_mem (List.mem_append_left _ hx)
          have h₂ := hxy.2
          omega
        | @grow _ p _ hp _ =>
          rw [bc.tree.parent_unique ⟨hy, h.stored hx, hxy⟩ hp]
          exact List.mem_cons_self
      have hut : u ≠ t := by
        rintro rfl
        -- both `y` and `P` are on the chain of `t`
        obtain ⟨P', hP'⟩ : ∃ P', P = u :: P' := by
          cases P with
          | nil => exact absurd h.head (by simp)
          | cons a P' => exact ⟨P', by rw [Option.some.inj h.head]⟩
        have hchain := h.chain
        rw [hP', List.cons_append] at hchain
        obtain rfl := LinkTree.Branch.unique hl hchain
        have hy' : y ∈ P ++ c :: s := by rw [hP']; exact hyl
        rcases List.mem_append.1 hy' with hy' | hy'
        · exact hyP hy'
        · have h₁ : x.height < y.height := by
            have := hxy.2
            omega
          have h₂ : y.height ≤ c.height := h.chain.suffix.level_le hy'
          have h₃ : c.height < x.height := h.chain.level_lt_of_append x hx
          omega
      have hsurvives : u ∈ bc'.tails := (h.mem_tails u).2 (.inl ⟨hu, hut⟩)
      have hget := hsafe.ancestors u hsurvives l hl x hxl
      obtain ⟨-, _, hhash, hdb⟩ := getBlockByHash_ok.1 hget
      obtain rfl := Option.some.inj hhash
      exact (h.stored_iff.1 hdb).2 hx
    · rw [hsafe.tails c]
      constructor
      · rintro ⟨-, hno⟩ y hy hcy
        by_contra hyP
        exact hno y (h.stored_iff.2 ⟨hy, hyP⟩) hcy
      · intro hall
        refine ⟨h.stored_iff.2 ⟨h.stored_base, h.not_mem_base⟩, fun y hy hcy => ?_⟩
        exact (h.stored_iff.1 hy).2 (hall y (h.stored_iff.1 hy).1 hcy)
  · rintro ⟨hclosed, hc⟩
    have hmem : ∀ b, b ∈ bc'.tails ↔ bc'.Stored b ∧ ∀ y, bc'.Stored y → ¬ b.isValidParentOf y := by
      intro b
      by_cases hbc : b = c
      · subst hbc
        rw [hc]
        constructor
        · intro hall
          refine ⟨h.stored_iff.2 ⟨h.stored_base, h.not_mem_base⟩, fun y hy hcy => ?_⟩
          exact (h.stored_iff.1 hy).2 (hall y (h.stored_iff.1 hy).1 hcy)
        · rintro ⟨-, hno⟩ y hy hcy
          by_contra hyP
          exact hno y (h.stored_iff.2 ⟨hy, hyP⟩) hcy
      · rw [h.mem_tails, or_iff_left (fun hb => hbc hb.1), hsound.mem_tails]
        constructor
        · rintro ⟨⟨hb, hno⟩, hbt⟩
          have hbP : b ∉ P := fun hbP => hbt (h.tail_of_mem hsound.listed ((hsound.mem_tails b).2 ⟨hb, hno⟩) hbP)
          exact ⟨h.stored_iff.2 ⟨hb, hbP⟩, fun y hy => hno y (h.stored_iff.1 hy).1⟩
        · rintro ⟨hb, hno⟩
          obtain ⟨hb, hbP⟩ := h.stored_iff.1 hb
          refine ⟨⟨hb, fun y hy hby => ?_⟩, fun hbt => hbP (hbt ▸ h.mem_head)⟩
          by_cases hyP : y ∈ P
          · rcases h.parent_mem hyP ⟨hy, hb, hby⟩ with hbP' | hbc'
            · exact hbP hbP'
            · exact hbc hbc'
          · exact hno y (h.stored_iff.2 ⟨hy, hyP⟩) hby
    refine ⟨fun u hu l hl x hx => ?_, hmem⟩
    have hout := not_mem_chain hclosed hl (h.stored_iff.1 ((hmem u).1 hu).1).2
    exact getBlockByHash_stored (h.isChain hl hout).genesis_isSome
      (h.stored_iff.2 ⟨hl.stored x hx, hout x hx⟩)

/-- After a safe cut the tails are sound. -/
theorem sound (h : Cut bc bc' t P c s) (hsound : bc.Sound) (hclosed : Closed bc P) (hsafe : Safe bc bc') :
    bc'.Sound where
  keyed k b hb := by
    have hdb : bc.without P k = some b := h.db ▸ hb
    unfold without at hdb
    split_ifs at hdb
    exact hsound.keyed k b hdb
  rooted b hb := by
    obtain ⟨hb, hbP⟩ := h.stored_iff.1 hb
    obtain ⟨l, hl⟩ := hsound.rooted b hb
    exact ⟨l, h.isChain hl (not_mem_chain hclosed hl hbP)⟩
  mem_tails := hsafe.tails
  nodup := h.nodup
  forkLengths_eq := h.forkLengths

end Cut

/-! ## The effect of the calls -/

theorem update_none_eq_without (b : Block) : Function.update bc.db b.hash none = bc.without [b] := by
  ext1 k
  unfold without
  by_cases hk : k = b.hash
  · rw [hk, Function.update_self, if_pos (by simp)]
  · rw [Function.update_of_ne hk, if_neg (by simpa using hk)]

/-- The chain after the last removal of a fork: the main tail is looked for anew. -/
def cutOff (bc : Blockchain) (P tails : List Block) : Blockchain :=
  { bc with
    db := bc.without P
    tails := tails
    forkLengths := tails.map Block.height
    mainTailIndex := highestTail 0 0 0 tails }

/-- The chain after a removal that makes the parent a tail. -/
def cutBack (bc : Blockchain) (b : Block) (tails : List Block) : Blockchain :=
  { bc with
    db := bc.without [b]
    tails := tails
    forkLengths := tails.map Block.height }

section
variable {t p c : Block} {t₁ t₂ behind : List Block}

theorem indexInTails_of_first (htails : bc.tails = t₁ ++ t :: t₂) (hfirst : ∀ x ∈ t₁, x.hash ≠ t.hash) :
    bc.indexInTails t = some t₁.length := by
  rw [indexInTails, htails, List.findIdx?_append, List.findIdx?_eq_none_iff.2, List.findIdx?_cons]
  · simp
  · intro x hx
    simpa using hfirst x hx

/-- **`RemoveBlock`** of a tail. -/
theorem removeBlock_tail (hlen : bc.forkLengths = bc.tails.map Block.height) (htails : bc.tails = t₁ ++ t :: t₂)
    (hfirst : ∀ x ∈ t₁, x.hash ≠ t.hash) (hnot : ¬ bc.isInMainFork t)
    (hget : bc.getBlockByHash t.parentHash = .ok p) :
    bc.removeBlock behind t =
      if bc.isInMainFork p then (bc.cutOff [t] (t₁ ++ t₂), bc.tails.getLast?.toList ++ behind)
      else (bc.cutBack t (t₁ ++ p :: t₂), behind) := by
  have herase : bc.tails.eraseIdx t₁.length = t₁ ++ t₂ := by
    rw [htails, List.eraseIdx_append_of_length_le le_rfl]
    simp
  have hset : bc.tails.set t₁.length p = t₁ ++ p :: t₂ := by
    rw [htails]
    simp
  unfold removeBlock
  rw [if_neg hnot, hget, indexInTails_of_first htails hfirst]
  dsimp only
  split_ifs with hp
  · rw [herase, hlen, List.eraseIdx_map, herase, update_none_eq_without]
    rfl
  · rw [hset, hlen, ← List.map_set, hset, update_none_eq_without]
    rfl

/-- What is left of the database is found as before. -/
theorem getBlockByHash_without {bc' : Blockchain} {P : List Block} {hash : Hash} (hdb : bc'.db = bc.without P)
    (hgen : bc'.genesis = bc.genesis) (hget : bc.getBlockByHash (some hash) = .ok p)
    (hout : hash ∉ P.map Block.hash) : bc'.getBlockByHash (some hash) = .ok p := by
  obtain ⟨hne, k, hk, hp⟩ := getBlockByHash_ok.1 hget
  obtain rfl := Option.some.inj hk
  refine getBlockByHash_ok.2 ⟨?_, hash, rfl, ?_⟩
  · rw [isEmpty, hgen]
    exact hne
  · rw [hdb, without, if_neg hout]
    exact hp

theorem deleteFrom_of_mapped (h : bc.isInMainFork p) : ∀ fuel, bc.deleteFrom behind fuel p = (bc, behind)
  | 0 => rfl
  | fuel + 1 => by rw [deleteFrom, if_pos h]

/-- Two removals after each other. -/
theorem without_without {bc' : Blockchain} {x : Block} {P : List Block} (h : bc'.db = bc.without [x]) :
    bc'.without P = bc.without (x :: P) := by
  ext1 k
  rw [without, without, h, without]
  by_cases hk : k = x.hash <;> by_cases hP : k ∈ P.map Block.hash <;> simp [hk, hP]

/-- **The loop of `DeleteFork`** takes away the part of the chain that is not in the map. -/
theorem deleteFrom_spec {s : List Block} : ∀ {P : List Block} {bc : Blockchain} {x : Block} {t₁ t₂ behind : List Block},
    bc.IsChain (x :: P ++ c :: s) → (∀ y ∈ x :: P, ¬ bc.isInMainFork y) → bc.isInMainFork c →
      bc.forkLengths = bc.tails.map Block.height → bc.tails = t₁ ++ x :: t₂ →
        (∀ u ∈ t₁, ∀ y ∈ x :: P, u.hash ≠ y.hash) →
          ∃ b, bc.deleteFrom behind (x.height.toNat + 1) x = (bc.cutOff (x :: P) (t₁ ++ t₂), b :: behind) ∧
            (t₂.getLast? = some b ∨ t₂ = [] ∧ b ∈ x :: P)
  | [], bc, x, t₁, t₂, behind, hchain, hnot, hc, hlen, htails, hfirst => by
    have hlt : c.height < x.height := LinkTree.Branch.level_lt hchain c (by simp)
    cases hchain with
    | grow hp hl =>
      have hget := getBlockByHash_parent hp hl
      have hremove : bc.removeBlock behind x = _ :=
        removeBlock_tail hlen htails (fun u hu => hfirst u hu x (by simp)) (hnot x (by simp)) hget
      rw [if_pos hc] at hremove
      -- the parent is still stored, and it is in the map
      have hcx : c.hash ≠ x.hash := fun h => by
        rw [hp.2.1.eq_of_hash hp.1 h] at hlt
        exact lt_irrefl _ hlt
      rw [hp.2.2.1] at hget
      have hget' : (bc.cutOff [x] (t₁ ++ t₂)).getBlockByHash (some c.hash) = .ok c :=
        getBlockByHash_without rfl rfl hget (by simpa using hcx)
      obtain ⟨b, hb, hlast⟩ : ∃ b, bc.tails.getLast? = some b ∧ (t₂.getLast? = some b ∨ t₂ = [] ∧ b ∈ [x]) := by
        rw [htails]
        rcases List.eq_nil_or_concat t₂ with rfl | ⟨t₂, b, rfl⟩
        · exact ⟨x, List.getLast?_concat, .inr ⟨rfl, List.mem_singleton_self x⟩⟩
        · refine ⟨b, ?_, .inl (by simp)⟩
          rw [List.concat_eq_append, ← List.cons_append, ← List.append_assoc, List.getLast?_concat]
      refine ⟨b, ?_, hlast⟩
      rw [hb] at hremove
      rw [deleteFrom, if_neg (hnot x (by simp)), hremove]
      dsimp only
      rw [hp.2.2.1, hget']
      have hc' : (bc.cutOff [x] (t₁ ++ t₂)).isInMainFork c := hc
      exact deleteFrom_of_mapped hc' _
  | y :: P, bc, x, t₁, t₂, behind, hchain, hnot, hc, hlen, htails, hfirst => by
    have hbelow : ∀ z ∈ y :: P ++ c :: s, z.height < x.height := LinkTree.Branch.level_lt hchain
    cases hchain with
    | grow hp hl =>
      have hl : bc.IsChain (y :: P ++ c :: s) := hl
      have hget := getBlockByHash_parent hp hl
      have hremove : bc.removeBlock behind x = _ :=
        removeBlock_tail hlen htails (fun u hu => hfirst u hu x (by simp)) (hnot x (by simp)) hget
      rw [if_neg (hnot y (by simp))] at hremove
      have hne : ∀ z ∈ y :: P ++ c :: s, z.hash ≠ x.hash := fun z hz h => by
        have hlt := hbelow z hz
        rw [(hl.stored z hz).eq_of_hash hp.1 h] at hlt
        exact lt_irrefl _ hlt
      set bc₁ := bc.cutBack x (t₁ ++ y :: t₂) with hbc₁
      have hstored₁ : ∀ z ∈ y :: P ++ c :: s, bc₁.Stored z := fun z hz => by
        show bc.without [x] z.hash = some z
        rw [without, if_neg (by simpa using hne z hz)]
        exact hl.stored z hz
      have hl₁ : bc₁.IsChain (y :: P ++ c :: s) := hl.restrict rfl hstored₁
      rw [hp.2.2.1] at hget
      have hget₁ : bc₁.getBlockByHash (some y.hash) = .ok y :=
        getBlockByHash_without rfl rfl hget (by simpa using hne y (by simp))
      obtain ⟨b, hres, hlast⟩ := @deleteFrom_spec s P bc₁ y t₁ t₂ behind hl₁
        (fun z hz => hnot z (List.mem_cons_of_mem _ hz)) hc rfl rfl
        (fun u hu z hz => hfirst u hu z (List.mem_cons_of_mem _ hz))
      refine ⟨b, ?_, hlast.imp id fun hb => ⟨hb.1, List.mem_cons_of_mem _ hb.2⟩⟩
      rw [fuel_of_parent hp.2.2 hl.level_nonneg, deleteFrom, if_neg (hnot x (by simp)), hremove]
      dsimp only
      rw [hp.2.2.1, hget₁]
      refine hres.trans ?_
      rw [cutOff, cutOff, without_without rfl]
      rfl

end

/-! ## The main tail after a removal -/

/-- The block is the first of the highest in the list. -/
def FirstHighest (m : Block) (l : List Block) : Prop :=
  ∃ pre post, l = pre ++ m :: post ∧ (∀ x ∈ pre, x.height < m.height) ∧ ∀ x ∈ post, x.height ≤ m.height

theorem highestTail_spec : ∀ {t pre post : List Block} {h : Block}, (∀ x ∈ pre, x.height < h.height) →
    (∀ x ∈ post, x.height ≤ h.height) →
      ∃ pre' h' post', pre ++ h :: post ++ t = pre' ++ h' :: post' ∧
        highestTail h.height pre.length (pre ++ h :: post).length t = pre'.length ∧
        (∀ x ∈ pre', x.height < h'.height) ∧ ∀ x ∈ post', x.height ≤ h'.height
  | [], pre, post, h, hpre, hpost => ⟨pre, h, post, by simp, rfl, hpre, hpost⟩
  | e :: t, pre, post, h, hpre, hpost => by
    have hlen : ((pre ++ h :: post).length + 1) = (pre ++ h :: post ++ [e]).length := by
      simp [Nat.add_assoc]
    have hsplit : pre ++ h :: post ++ e :: t = pre ++ h :: post ++ [e] ++ t := by simp
    rw [highestTail, hlen, hsplit]
    by_cases hgt : e.height > h.height
    · rw [if_pos (.inr hgt)]
      have hall : ∀ x ∈ pre ++ h :: post, x.height < e.height := fun x hx => by
        rcases List.mem_append.1 hx with hx | hx
        · exact (hpre x hx).trans hgt
        · rcases List.mem_cons.1 hx with rfl | hx
          · exact hgt
          · exact (hpost x hx).trans_lt hgt
      exact highestTail_spec (t := t) (h := e) hall (by simp)
    · rw [if_neg (by simpa using hgt)]
      have hsplit' : pre ++ h :: post ++ [e] = pre ++ h :: (post ++ [e]) := by simp
      rw [hsplit']
      refine highestTail_spec (t := t) hpre fun x hx => ?_
      rcases List.mem_append.1 hx with hx | hx
      · exact hpost x hx
      · rw [List.mem_singleton.1 hx]
        exact not_lt.1 hgt

theorem FirstHighest.le {l : List Block} {m x : Block} (h : FirstHighest m l) (hx : x ∈ l) : x.height ≤ m.height := by
  obtain ⟨pre, post, rfl, hpre, hpost⟩ := h
  rcases List.mem_append.1 hx with hx | hx
  · exact (hpre x hx).le
  · rcases List.mem_cons.1 hx with rfl | hx
    · exact le_rfl
    · exact hpost x hx

theorem FirstHighest.unique {l : List Block} {m m' : Block} (h : FirstHighest m l) (h' : FirstHighest m' l) :
    m = m' := by
  obtain ⟨pre, post, hl, hpre, hpost⟩ := h
  obtain ⟨pre', post', hl', hpre', hpost'⟩ := h'
  rcases List.append_eq_append_iff.1 (hl.symm.trans hl') with ⟨w, hw, hw'⟩ | ⟨w, hw, hw'⟩
  · cases w with
    | nil => exact (List.cons_eq_cons.1 hw').1
    | cons x w =>
      obtain ⟨rfl, rfl⟩ := List.cons_eq_cons.1 hw'
      have h₁ := hpre' m (by rw [hw]; simp)
      have h₂ := hpost m' (by simp)
      omega
  · cases w with
    | nil => exact (List.cons_eq_cons.1 hw').1.symm
    | cons x w =>
      obtain ⟨rfl, rfl⟩ := List.cons_eq_cons.1 hw'
      have h₁ := hpre m' (by rw [hw]; simp)
      have h₂ := hpost' m (by simp)
      omega

theorem getMainTail_cutOff {P tails : List Block} (hne : tails ≠ []) :
    ∃ h, (bc.cutOff P tails).getMainTail = some h ∧ FirstHighest h tails := by
  cases tails with
  | nil => exact absurd rfl hne
  | cons e t =>
    obtain ⟨pre, h, post, hsplit, hindex, hpre, hpost⟩ := @highestTail_spec t [] [] e (by simp) (by simp)
    refine ⟨h, ?_, pre, post, hsplit, hpre, hpost⟩
    have hindex' : highestTail 0 0 0 (e :: t) = pre.length := by
      rw [highestTail, if_pos (.inl rfl)]
      exact hindex
    have hsplit' : e :: t = pre ++ h :: post := hsplit
    simp only [getMainTail, tailAt, cutOff, hindex']
    rw [if_neg (by omega)]
    simp [hsplit']

/-- The main tail after a fork has been cut off is the first of the highest tails. -/
theorem getMainTail_cutOff_iff {P tails : List Block} {m : Block} :
    (bc.cutOff P tails).getMainTail = some m ↔ FirstHighest m tails := by
  constructor
  · intro hm
    cases tails with
    | nil => exact absurd (getMainTail_mem hm) List.not_mem_nil
    | cons e t =>
      obtain ⟨h, hh, hfirst⟩ : ∃ h, (bc.cutOff P (e :: t)).getMainTail = some h ∧ FirstHighest h (e :: t) :=
        getMainTail_cutOff (List.cons_ne_nil e t)
      rw [hm] at hh
      exact Option.some.inj hh ▸ hfirst
  · intro hm
    have hne : tails ≠ [] := by
      obtain ⟨pre, post, rfl, -⟩ := hm
      simp
    obtain ⟨h, hh, hfirst⟩ : ∃ h, (bc.cutOff P tails).getMainTail = some h ∧ FirstHighest h tails :=
      getMainTail_cutOff hne
    rw [hh, hm.unique hfirst]

end Blockchain
end Timbre
