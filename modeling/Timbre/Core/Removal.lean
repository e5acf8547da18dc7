/-
  The calls that prune, over whole runs.

  **`pruning_safe_iff` says for which calls on another tail than the main one the tails are right
  afterwards, `mainTail_kept_iff` for which calls on a block that is not in the main-fork map
  the main tail stays.**  Both are about every chain that is reached while the calls so far
  have been clean.
-/
import Timbre.Core.Pruning

namespace Timbre
namespace Blockchain

variable {bc : Blockchain}

/-! ## The calls -/

/-- A call of `RemoveBlock` or of `DeleteFork`. -/
inductive Removal
  | removeBlock (b : Block)
  | deleteFork (b : Block)
deriving DecidableEq, Repr

namespace Removal

/-- The block of the call. -/
def block : Removal → Block
  | removeBlock b => b
  | deleteFork b => b

/-- The chain after the call. -/
def run (bc : Blockchain) : Removal → Blockchain
  | removeBlock b => (bc.removeBlock [] b).1
  | deleteFork b => (bc.deleteFork [] b).1

/-- What the call asks of the tree: a block of which the parent stays is the last child of
    a parent that becomes a tail, and it is not the last child of one that does not.  What
    `DeleteFork` takes away, nothing else grows on. -/
def Clean (bc : Blockchain) : Removal → Prop
  | removeBlock b => ¬ bc.isInMainFork b → ∀ p, bc.tree.Parent b p →
      (bc.isInMainFork p ↔ ∃ y, bc.Stored y ∧ p.isValidParentOf y ∧ y ≠ b)
  | deleteFork b => ¬ bc.isInMainFork b → (bc.findCommonAncestor b).isOk → ∀ P c, bc.GrowsOn b P c →
      Cut.Closed bc P ∧ ∃ y, bc.Stored y ∧ c.isValidParentOf y ∧ y ∉ P

/-- What the call asks of the tails for the main tail to stay: it is the first of the highest
    of the others, where the main tail is looked for anew, and it is not removed itself. -/
def Harmless (bc : Blockchain) (m : Block) : Removal → Prop
  | removeBlock b => b ∈ bc.tails → ∀ p, bc.tree.Parent b p →
      if bc.isInMainFork p then FirstHighest m (bc.tails.erase b) else b ≠ m
  | deleteFork b => b ∈ bc.tails → (bc.findCommonAncestor b).isOk → FirstHighest m (bc.tails.erase b)

end Removal

/-- Nothing else grows on the forks of the tails below the irreversible block number. -/
def LoneForks (bc : Blockchain) : Prop :=
  ∀ t ∈ bc.tails, t.height < bc.irreversibleBlock → ∀ P c, bc.GrowsOn t P c → Cut.Closed bc P

/-- The chains reached from a genesis block by `Append` and `UpdateMainTailIndex` in any order,
    and by calls that prune other forks and are clean.  `moveMainTail` reaches the chains on
    which `UpdateMainTailIndex` makes such calls itself. -/
inductive Reached : Blockchain → Prop
  | genesis (g : Block) : g.height = 0 → Reached (init.append g).2
  | append {bc : Blockchain} {b p : Block} : Reached bc → bc.Appendable b p → Reached (bc.append b).2
  | moveMainTail {bc : Blockchain} : Reached bc → Reached bc.moveMainTail
  | updateMainTailIndex {bc : Blockchain} : Reached bc →
      (bc.updateMainTailIndex.1.isOk → bc.moveMainTail.LoneForks) → Reached bc.updateMainTailIndex.2
  | irreversible {bc : Blockchain} (k : ℤ) : Reached bc → Reached { bc with irreversibleBlock := k }
  | remove {bc : Blockchain} {m : Block} {r : Removal} : Reached bc → bc.getMainTail = some m →
      r.block ∈ bc.tails → r.block ≠ m → r.Clean bc → Reached (r.run bc)

/-! ## The cut of a call -/

section
variable {m t p c : Block} {ml mapped P s t₁ t₂ behind : List Block}

theorem GrowsOn.unique {b c' : Block} {P' : List Block} (h : bc.GrowsOn b P c) (h' : bc.GrowsOn b P' c') :
    P = P' ∧ c = c' := by
  obtain ⟨s, hchain, hhead, hnot, hc⟩ := h
  obtain ⟨s', hchain', hhead', hnot', hc'⟩ := h'
  have htake : ∀ {P s : List Block} {c : Block}, (∀ x ∈ P, ¬ bc.isInMainFork x) → bc.isInMainFork c →
      (P ++ c :: s).takeWhile (!bc.isInMainFork ·) = P ∧ (P ++ c :: s).dropWhile (!bc.isInMainFork ·) = c :: s := by
    intro P s c hP hc
    have hall : ∀ x ∈ P, (!bc.isInMainFork x) = true := fun x hx => by simpa using hP x hx
    rw [List.takeWhile_append_of_pos hall, List.dropWhile_append_of_pos hall]
    simp [hc]
  have heq : P ++ c :: s = P' ++ c' :: s' := by
    cases P with
    | nil => exact absurd hhead (by simp)
    | cons a P =>
      cases P' with
      | nil => exact absurd hhead' (by simp)
      | cons a' P' =>
        obtain rfl := Option.some.inj hhead
        obtain rfl := Option.some.inj hhead'
        exact congrArg (List.cons a') (LinkTree.Branch.unique hchain hchain')
  have h₁ := htake (s := s) hnot hc
  have h₂ := htake (s := s') hnot' hc'
  rw [heq] at h₁
  refine ⟨h₁.1.symm.trans h₂.1, ?_⟩
  exact (List.cons_eq_cons.1 (h₁.2.symm.trans h₂.2)).1

theorem Listed.split_tails (h : bc.Listed) (ht : t ∈ bc.tails) :
    ∃ t₁ t₂, bc.tails = t₁ ++ t :: t₂ ∧ bc.tails.erase t = t₁ ++ t₂ ∧ t ∉ t₁ ++ t₂ ∧
      ∀ x ∈ t₁, x.hash ≠ t.hash := by
  obtain ⟨t₁, t₂, hsplit⟩ := List.append_of_mem ht
  have hnodup := h.nodup
  rw [hsplit, List.nodup_middle, List.nodup_cons] at hnodup
  have ht₁ : t ∉ t₁ := fun hmem => hnodup.1 (List.mem_append_left _ hmem)
  refine ⟨t₁, t₂, hsplit, ?_, hnodup.1, fun x hx hhash => ?_⟩
  · rw [hsplit, List.erase_append_right _ ht₁, List.erase_cons_head]
  · have hx' : bc.Stored x := h.stored x (by rw [hsplit]; simp [hx])
    rw [hx'.eq_of_hash (h.stored t ht) hhash] at hx
    exact ht₁ hx

/-- A block that others grow on is no tail. -/
theorem Listed.not_mem_tails_of_parent (h : bc.Listed) {x : Block} (hp : bc.tree.Parent x p) : p ∉ bc.tails :=
  fun hmem => h.leaf p hmem x hp.1 hp.2.2

/-- The base of a fork is no tail. -/
theorem Listed.not_mem_tails_of_chain (h : bc.Listed) (hchain : bc.IsChain (P ++ c :: s)) (hne : P ≠ []) :
    c ∉ bc.tails := by
  rcases List.eq_nil_or_concat P with rfl | ⟨Q, y, rfl⟩
  · exact absurd rfl hne
  · rw [List.concat_eq_append, List.append_assoc] at hchain
    have hsuffix : bc.IsChain (y :: c :: s) := hchain.suffix
    cases hsuffix with
    | grow hp _ => exact h.not_mem_tails_of_parent hp

theorem mem_rest (hsplit : bc.tails = t₁ ++ t :: t₂) (hnot : t ∉ t₁ ++ t₂) {x : Block} :
    x ∈ t₁ ++ t₂ ↔ x ∈ bc.tails ∧ x ≠ t := by
  rw [hsplit]
  simp only [List.mem_append, List.mem_cons] at hnot ⊢
  constructor
  · intro hx
    refine ⟨by grind, ?_⟩
    rintro rfl
    exact hnot hx
  · rintro ⟨hx, hne⟩
    grind

theorem nodup_rest (h : bc.Listed) (hsplit : bc.tails = t₁ ++ t :: t₂) : (t₁ ++ t₂).Nodup := by
  have hnodup := h.nodup
  rw [hsplit, List.nodup_middle, List.nodup_cons] at hnodup
  exact hnodup.2

/-- A fork cut off. -/
theorem Listed.cutOff (h : bc.Listed) (hchain : bc.IsChain (P ++ c :: s)) (hhead : P.head? = some t)
    (hsplit : bc.tails = t₁ ++ t :: t₂) (hnot : t ∉ t₁ ++ t₂) :
    Cut bc (bc.cutOff P (t₁ ++ t₂)) t P c s where
  chain := hchain
  head := hhead
  tail := by rw [hsplit]; simp
  db := rfl
  genesis := rfl
  mem_tails x := by
    have hne : P ≠ [] := by
      rintro rfl
      exact absurd hhead (by simp)
    have hc : c ∉ t₁ ++ t₂ := fun hc => h.not_mem_tails_of_chain hchain hne ((mem_rest hsplit hnot).1 hc).1
    refine (mem_rest hsplit hnot).trans (Iff.symm (or_iff_left ?_))
    exact fun hx => hc hx.2
  nodup := nodup_rest h hsplit
  forkLengths := rfl

/-- A fork cut back by one block. -/
theorem Listed.cutBack (h : bc.Listed) (hp : bc.tree.Parent t p) (hchain : bc.IsChain (p :: s))
    (hsplit : bc.tails = t₁ ++ t :: t₂) (hnot : t ∉ t₁ ++ t₂) :
    Cut bc (bc.cutBack t (t₁ ++ p :: t₂)) t [t] p s where
  chain := .grow hp hchain
  head := rfl
  tail := by rw [hsplit]; simp
  db := rfl
  genesis := rfl
  mem_tails x := by
    have hmem : x ∈ t₁ ++ p :: t₂ ↔ x ∈ t₁ ++ t₂ ∨ x = p := by
      simp only [List.mem_append, List.mem_cons]
      grind
    have hpmem : p ∈ t₁ ++ p :: t₂ := by simp
    show x ∈ t₁ ++ p :: t₂ ↔ _ ∨ x = p ∧ p ∈ t₁ ++ p :: t₂
    rw [hmem, mem_rest hsplit hnot]
    simp [hpmem]
  nodup := by
    show (t₁ ++ p :: t₂).Nodup
    rw [List.nodup_middle, List.nodup_cons]
    exact ⟨fun hmem => h.not_mem_tails_of_parent hp ((mem_rest hsplit hnot).1 hmem).1, nodup_rest h hsplit⟩
  forkLengths := rfl

/-- Without a map no common ancestor is found. -/
theorem findCommonAncestor_of_unmapped (hmap : ∀ k, bc.mainForkMap k = none) (b : Block) :
    ¬ (bc.findCommonAncestor b).isOk := by
  have hheight : ∀ k, bc.getBlockByHeight k = .error (.error "Block for height does not exist in main fork map") :=
    fun k => by rw [getBlockByHeight, hmap k]
  unfold findCommonAncestor
  cases bc.getMainTail with
  | none => simp [Except.isOk, Except.toBool]
  | some m =>
    simp only [bind, Except.bind]
    cases bc.levelWith m (b.height.toNat + 1) b with
    | error e => simp [Except.isOk, Except.toBool]
    | ok a =>
      dsimp only
      rw [descend, hheight]
      simp [bind, Except.bind, Except.isOk, Except.toBool]

theorem deleteFork_of_not_found (hfound : ¬ (bc.findCommonAncestor t).isOk) :
    bc.deleteFork behind t = (bc, behind) := by
  rw [deleteFork]
  cases hanc : bc.findCommonAncestor t with
  | error e => rfl
  | ok a =>
    rw [hanc] at hfound
    exact absurd rfl hfound

theorem removeBlock_of_mapped (hin : bc.isInMainFork t) : bc.removeBlock behind t = (bc, behind) := by
  rw [removeBlock, if_pos hin]

theorem deleteFork_of_mapped (hin : bc.isInMainFork t) : bc.deleteFork behind t = (bc, behind) := by
  rw [deleteFork]
  cases bc.findCommonAncestor t with
  | error e => rfl
  | ok a => exact deleteFrom_of_mapped hin _

/-- The part of a chain that is not in the map, and the block of the map it grows on. -/
theorem Mapped.exists_growsOn (h : bc.Mapped mapped) (hmapped : bc.IsChain mapped) {l : List Block}
    (hl : bc.IsChain (t :: l)) (hnot : ¬ bc.isInMainFork t) :
    ∃ P c s, bc.IsChain (P ++ c :: s) ∧ P.head? = some t ∧ (∀ x ∈ P, ¬ bc.isInMainFork x) ∧ bc.isInMainFork c := by
  obtain ⟨P, s, hsplit, hP, hs⟩ := h.split_chain (.inr hmapped) hl
  obtain ⟨g, hg⟩ := hl.exists_root
  have hgmap : bc.isInMainFork g := (h.isInMainFork_iff hmapped hg.2.1).2 (hmapped.root_mem hg)
  cases s with
  | nil =>
    rw [List.append_nil] at hsplit
    exact absurd hgmap (hP g (hsplit ▸ hl.root_mem hg))
  | cons c s =>
    refine ⟨P, c, s, hsplit ▸ hl, ?_, hP, hs c (by simp)⟩
    cases P with
    | nil =>
      obtain ⟨rfl, -⟩ := List.cons_eq_cons.1 hsplit
      exact absurd (hs t (by simp)) hnot
    | cons x P => exact congrArg some (List.cons_eq_cons.1 hsplit).1.symm

/-- **`DeleteFork`** of a tail of which the fork and the common ancestor are found: the fork is cut
    off, and the last tail, or a block of the fork, stays behind the tails. -/
theorem Listed.deleteFork (h : bc.Listed) (behind : List Block) (ht : t ∈ bc.tails)
    (hfound : (bc.findCommonAncestor t).isOk) (hchain : bc.IsChain (P ++ c :: s)) (hhead : P.head? = some t)
    (hP : ∀ x ∈ P, ¬ bc.isInMainFork x) (hc : bc.isInMainFork c) :
    ∃ t₁ t₂ b, bc.tails = t₁ ++ t :: t₂ ∧ bc.tails.erase t = t₁ ++ t₂ ∧
      Cut bc (bc.cutOff P (t₁ ++ t₂)) t P c s ∧
        bc.deleteFork behind t = (bc.cutOff P (t₁ ++ t₂), b :: behind) ∧
          (t₂.getLast? = some b ∨ t₂ = [] ∧ b ∈ P) := by
  obtain ⟨t₁, t₂, hsplit, herase, hrest, -⟩ := h.split_tails ht
  have hcut := h.cutOff hchain hhead hsplit hrest
  -- of the tails only `t` has the hash of a block of the fork
  have hfirst : ∀ u ∈ t₁, ∀ y ∈ P, u.hash ≠ y.hash := fun u hu y hy hhash => by
    have humem : u ∈ bc.tails := by rw [hsplit]; simp [hu]
    have huy : u = y := (h.stored u humem).eq_of_hash (hchain.stored y (by simp [hy])) hhash
    rw [hcut.tail_of_mem h humem (huy ▸ hy)] at hu
    exact hrest (List.mem_append_left _ hu)
  cases P with
  | nil => exact absurd hhead (by simp)
  | cons x P =>
    obtain rfl := Option.some.inj hhead
    obtain ⟨b, hres, hlast⟩ := @deleteFrom_spec c s P bc x t₁ t₂ behind hchain hP hc h.forkLengths_eq hsplit hfirst
    refine ⟨t₁, t₂, b, hsplit, herase, hcut, ?_, hlast⟩
    rw [Blockchain.deleteFork]
    cases hanc : bc.findCommonAncestor x with
    | error e =>
      rw [hanc] at hfound
      exact absurd hfound (by simp [Except.isOk, Except.toBool])
    | ok a => exact hres

namespace Standing

theorem mapped_ne_nil (h : bc.Standing m ml mapped) (hfound : (bc.findCommonAncestor t).isOk) : mapped ≠ [] := by
  rintro rfl
  refine findCommonAncestor_of_unmapped (fun k => ?_) t hfound
  cases hk : bc.mainForkMap k with
  | none => rfl
  | some v =>
    obtain ⟨x, hx, -⟩ := h.map.2 k v hk
    exact absurd hx List.not_mem_nil

/-- The fork of a tail, once the map is not empty any more. -/
theorem exists_growsOn (h : bc.Standing m ml mapped) (hne : mapped ≠ []) (ht : bc.Stored t)
    (hnot : ¬ bc.isInMainFork t) :
    ∃ P c s, bc.IsChain (P ++ c :: s) ∧ P.head? = some t ∧ (∀ x ∈ P, ¬ bc.isInMainFork x) ∧ bc.isInMainFork c := by
  obtain ⟨l, hl⟩ := h.sound.rooted t ht
  exact h.map.exists_growsOn (h.mapChain.resolve_left hne) hl hnot

/-- **`RemoveBlock`** of another tail. -/
theorem removeBlock_spec (h : bc.Standing m ml mapped) (behind : List Block) (ht : t ∈ bc.tails) (hnot : ¬ bc.isInMainFork t)
    (hp : bc.tree.Parent t p) :
    ∃ s, Cut bc (bc.removeBlock behind t).1 t [t] p s ∧ (p ∈ (bc.removeBlock behind t).1.tails ↔ ¬ bc.isInMainFork p) ∧
      (bc.isInMainFork p → (bc.removeBlock behind t).1 = bc.cutOff [t] (bc.tails.erase t)) ∧
      (¬ bc.isInMainFork p → ∃ t₁ t₂, bc.tails = t₁ ++ t :: t₂ ∧
        (bc.removeBlock behind t).1 = bc.cutBack t (t₁ ++ p :: t₂)) := by
  obtain ⟨t₁, t₂, hsplit, herase, hrest, hfirst⟩ := h.sound.listed.split_tails ht
  obtain ⟨s, hs⟩ := h.sound.rooted p hp.2.1
  have hres : bc.removeBlock behind t = _ :=
    removeBlock_tail h.sound.forkLengths_eq hsplit hfirst hnot (getBlockByHash_parent hp hs)
  have hptails : p ∉ bc.tails := h.sound.listed.not_mem_tails_of_parent hp
  refine ⟨s, ?_⟩
  by_cases hin : bc.isInMainFork p
  · rw [if_pos hin] at hres
    rw [hres]
    refine ⟨h.sound.listed.cutOff (.grow hp hs) rfl hsplit hrest, ?_, fun _ => by rw [herase], fun h => absurd hin h⟩
    refine iff_of_false (fun hmem => hptails ((mem_rest hsplit hrest).1 hmem).1) (not_not.2 hin)
  · rw [if_neg hin] at hres
    rw [hres]
    refine ⟨h.sound.listed.cutBack hp hs hsplit hrest, ?_, fun h => absurd h hin, fun _ => ⟨t₁, t₂, hsplit, rfl⟩⟩
    refine iff_of_true ?_ hin
    show p ∈ t₁ ++ p :: t₂
    simp

/-- **`DeleteFork`** of another tail, if the common ancestor is found. -/
theorem deleteFork_spec (h : bc.Standing m ml mapped) (behind : List Block) (ht : t ∈ bc.tails) (hnot : ¬ bc.isInMainFork t)
    (hfound : (bc.findCommonAncestor t).isOk) :
    ∃ P c s behind', bc.GrowsOn t P c ∧ Cut bc (bc.cutOff P (bc.tails.erase t)) t P c s ∧
      bc.deleteFork behind t = (bc.cutOff P (bc.tails.erase t), behind') ∧
      ∀ y ∈ behind', y ∈ behind ∨ y ∈ bc.tails.erase t ∨ y ∈ P := by
  obtain ⟨P, c, s, hchain, hhead, hP, hc⟩ := h.exists_growsOn (h.mapped_ne_nil hfound) (h.sound.listed.stored t ht) hnot
  obtain ⟨t₁, t₂, b, -, herase, hcut, hres, hlast⟩ :=
    h.sound.listed.deleteFork behind ht hfound hchain hhead hP hc
  rw [herase]
  refine ⟨P, c, s, b :: behind, ⟨s, hchain, hhead, hP, hc⟩, hcut, hres, fun y hy => ?_⟩
  rcases List.mem_cons.1 hy with rfl | hy
  · rcases hlast with hlast | ⟨-, hlast⟩
    · exact .inr (.inl (List.mem_append_right _ (List.mem_of_getLast? hlast)))
    · exact .inr (.inr hlast)
  · exact .inl hy

/-- Another tail than the main one has a parent. -/
theorem exists_parent (h : bc.Standing m ml mapped) (ht : t ∈ bc.tails) (hne : t ≠ m) :
    ∃ p, bc.tree.Parent t p := by
  obtain ⟨l, hl⟩ := h.sound.rooted t ((h.sound.mem_tails t).1 ht).1
  cases hl with
  | grow hp _ => exact ⟨_, hp⟩
  | root hr =>
    -- the genesis block is below the main tail
    obtain ⟨pre, s, hsplit⟩ := List.append_of_mem (h.chain.root_mem hr)
    have hpre : pre ≠ [] := by
      rintro rfl
      exact hne (List.cons_eq_cons.1 hsplit).1.symm
    exact absurd ht (h.sound.listed.not_mem_tails_of_chain (hsplit ▸ h.chain) hpre)

theorem safe_self (h : bc.Standing m ml mapped) : Safe bc bc :=
  ⟨fun _ _ _ hl x hx => getBlockByHash_stored hl.genesis_isSome (hl.stored x hx), h.sound.mem_tails⟩

/-- A call on a mapped block does nothing. -/
theorem run_of_mapped {r : Removal} (hin : bc.isInMainFork r.block) : r.run bc = bc := by
  cases r with
  | removeBlock b => exact congrArg Prod.fst (removeBlock_of_mapped hin)
  | deleteFork b => exact congrArg Prod.fst (deleteFork_of_mapped hin)

/-- **A call is safe** on another tail than the main one exactly if it is clean. -/
theorem safe_iff (h : bc.Standing m ml mapped) {r : Removal} (ht : r.block ∈ bc.tails) (hne : r.block ≠ m) :
    Safe bc (r.run bc) ↔ r.Clean bc := by
  by_cases hin : bc.isInMainFork r.block
  · rw [run_of_mapped hin]
    refine iff_of_true h.safe_self ?_
    cases r with
    | removeBlock b => exact fun hnot => absurd hin hnot
    | deleteFork b => exact fun hnot => absurd hin hnot
  · cases r with
    | removeBlock b =>
      have ht : b ∈ bc.tails := ht
      have hin : ¬ bc.isInMainFork b := hin
      obtain ⟨p, hp⟩ := h.exists_parent ht hne
      obtain ⟨s, hcut, hmem, -⟩ := h.removeBlock_spec [] ht hin hp
      refine (hcut.safe_iff h.sound h.bounded).trans ?_
      have hclosed : Cut.Closed bc [b] := fun x hx y hy hxy => by
        rw [List.mem_singleton.1 hx] at hxy
        exact absurd hxy (((h.sound.mem_tails b).1 ht).2 y hy)
      rw [and_iff_right hclosed, hmem]
      constructor
      · intro hiff _ q hq
        obtain rfl := bc.tree.parent_unique hp hq
        rw [← not_iff_not, hiff]
        simp only [not_exists, not_and, not_not, List.mem_singleton]
      · intro hclean
        rw [← not_iff_not, not_not, hclean hin p hp]
        simp only [not_forall, List.mem_singleton, exists_prop]
    | deleteFork b =>
      have ht : b ∈ bc.tails := ht
      have hin : ¬ bc.isInMainFork b := hin
      by_cases hfound : (bc.findCommonAncestor b).isOk
      · obtain ⟨P, c, s, behind', hgrows, hcut, hres, -⟩ := h.deleteFork_spec [] ht hin hfound
        have hrun : (Removal.deleteFork b).run bc = bc.cutOff P (bc.tails.erase b) := congrArg Prod.fst hres
        have hc : c ∉ (bc.cutOff P (bc.tails.erase b)).tails := fun hmem =>
          h.sound.listed.not_mem_tails_of_chain hcut.chain (List.ne_nil_of_mem hcut.mem_head) (List.mem_of_mem_erase hmem)
        rw [hrun]
        refine (hcut.safe_iff h.sound h.bounded).trans ?_
        have hother : (c ∈ (bc.cutOff P (bc.tails.erase b)).tails ↔ ∀ y, bc.Stored y → c.isValidParentOf y → y ∈ P) ↔
            ∃ y, bc.Stored y ∧ c.isValidParentOf y ∧ y ∉ P := by
          rw [iff_false_left hc]
          simp only [not_forall, exists_prop]
        rw [hother]
        constructor
        · intro hsafe _ _ P' c' hgrows'
          obtain ⟨rfl, rfl⟩ := hgrows.unique hgrows'
          exact hsafe
        · intro hclean
          exact hclean hin hfound P c hgrows
      · have hrun : (Removal.deleteFork b).run bc = bc := congrArg Prod.fst (deleteFork_of_not_found hfound)
        rw [hrun]
        exact iff_of_true h.safe_self fun _ hfound' => absurd hfound' hfound

/-! ## What a clean call leaves -/

/-- A safe cut that takes away nothing that is mapped leaves a standing chain. -/
theorem cut {bc' : Blockchain} (h : bc.Standing m ml mapped) (hcut : Cut bc bc' t P c s)
    (hP : ∀ x ∈ P, ¬ bc.isInMainFork x) (hsafe : Safe bc bc') (hmap : bc'.mainForkMap = bc.mainForkMap)
    {m' : Block} (hm' : bc'.getMainTail = some m') (hbelow : ∀ x ∈ mapped, x.height ≤ m'.height) :
    ∃ ml', bc'.Standing m' ml' mapped := by
  have hclosed := ((hcut.safe_iff h.sound h.bounded).1 hsafe).1
  have hsound := hcut.sound h.sound hclosed hsafe
  obtain ⟨N, hN⟩ := h.bounded
  obtain ⟨ml', hml'⟩ := hsound.rooted m' ((hsound.mem_tails m').1 (getMainTail_mem hm')).1
  refine ⟨ml', hsound, ⟨N, fun b hb => hN b (hcut.stored_iff.1 hb).1⟩, hm', hml', ?_, ?_, hbelow⟩
  · unfold Mapped
    rw [hmap]
    exact h.map
  · refine h.mapChain.imp id fun hchain => hcut.isChain hchain fun x hx hxP => ?_
    exact hP x hxP ((h.isInMainFork_iff (hchain.stored x hx)).2 hx)

/-- **A clean call** on another tail leaves a standing chain. -/
theorem run (h : bc.Standing m ml mapped) {r : Removal} (ht : r.block ∈ bc.tails) (hne : r.block ≠ m)
    (hclean : r.Clean bc) : ∃ m' ml', (r.run bc).Standing m' ml' mapped := by
  have hsafe := (h.safe_iff ht hne).2 hclean
  have hm : m ∈ bc.tails.erase r.block := (List.mem_erase_of_ne (Ne.symm hne)).2 h.mem_tails
  by_cases hin : bc.isInMainFork r.block
  · rw [run_of_mapped hin]
    exact ⟨m, ml, h⟩
  · cases r with
    | removeBlock b =>
      have ht : b ∈ bc.tails := ht
      have hin : ¬ bc.isInMainFork b := hin
      obtain ⟨p, hp⟩ := h.exists_parent ht hne
      obtain ⟨s, hcut, -, hoff, hback⟩ := h.removeBlock_spec [] ht hin hp
      have hP : ∀ x ∈ [b], ¬ bc.isInMainFork x := fun x hx => by
        rw [List.mem_singleton.1 hx]
        exact hin
      by_cases hp' : bc.isInMainFork p
      · obtain ⟨m', hm', hfirst⟩ : ∃ m', (bc.cutOff [b] (bc.tails.erase b)).getMainTail = some m' ∧
            FirstHighest m' (bc.tails.erase b) := getMainTail_cutOff (List.ne_nil_of_mem hm)
        have hrun : (Removal.removeBlock b).run bc = _ := hoff hp'
        obtain ⟨ml', hml'⟩ := h.cut hcut hP hsafe (by rw [hoff hp']; rfl) (by rw [hoff hp']; exact hm')
          fun x hx => (h.below x hx).trans (hfirst.le hm)
        exact ⟨m', ml', hml'⟩
      · obtain ⟨t₁, t₂, hsplit, hrun⟩ := hback hp'
        have hm' : (bc.removeBlock [] b).1.getMainTail = some (if m = b then p else m) := by
          rw [hrun]
          exact getMainTail_append h.sound (.inr ⟨t₁, t₂, hsplit, rfl⟩) h.mainTail rfl rfl
        have hmb : m ≠ b := Ne.symm hne
        rw [if_neg hmb] at hm'
        obtain ⟨ml', hml'⟩ := h.cut hcut hP hsafe (by rw [hrun]; rfl) hm' h.below
        exact ⟨m, ml', hml'⟩
    | deleteFork b =>
      have ht : b ∈ bc.tails := ht
      have hin : ¬ bc.isInMainFork b := hin
      by_cases hfound : (bc.findCommonAncestor b).isOk
      · obtain ⟨P, c, s, behind', hgrows, hcut, hres, -⟩ := h.deleteFork_spec [] ht hin hfound
        have hrun : (Removal.deleteFork b).run bc = bc.cutOff P (bc.tails.erase b) := congrArg Prod.fst hres
        obtain ⟨m', hm', hfirst⟩ : ∃ m', (bc.cutOff P (bc.tails.erase b)).getMainTail = some m' ∧
            FirstHighest m' (bc.tails.erase b) := getMainTail_cutOff (List.ne_nil_of_mem hm)
        obtain ⟨-, -, -, hP, -⟩ := hgrows
        rw [hrun] at hsafe ⊢
        obtain ⟨ml', hml'⟩ := h.cut hcut hP hsafe rfl hm' fun x hx =>
          (h.below x hx).trans (hfirst.le hm)
        exact ⟨m', ml', hml'⟩
      · have hrun : (Removal.deleteFork b).run bc = bc := congrArg Prod.fst (deleteFork_of_not_found hfound)
        rw [hrun]
        exact ⟨m, ml, h⟩

end Standing

/-! ## The main tail -/

/-- The main tail stays, and those of its ancestors that the map lists it still lists. -/
structure KeepsMain (bc bc' : Blockchain) (m : Block) (ml : List Block) : Prop where
  mainTail : bc'.getMainTail = some m
  listed : ∀ x ∈ m :: ml, bc.isInMainFork x → bc'.getBlockByHeight x.height = .ok x

/-- What is mapped stays when only other blocks are taken away. -/
theorem getBlockByHeight_without {bc' : Blockchain} (hne : bc.isEmpty = false) (hdb : bc'.db = bc.without P)
    (hgen : bc'.genesis = bc.genesis) (hmap : bc'.mainForkMap = bc.mainForkMap)
    (hP : ∀ y ∈ P, bc.Stored y ∧ ¬ bc.isInMainFork y) {x : Block} (hx : bc.Stored x) (hin : bc.isInMainFork x) :
    bc'.getBlockByHeight x.height = .ok x := by
  have hx' : bc.mainForkMap x.height = some x.hash := by
    rwa [isInMainFork, decide_eq_true_iff] at hin
  rw [getBlockByHeight, hmap, hx']
  refine getBlockByHash_without hdb hgen (getBlockByHash_stored hne hx) fun hmem => ?_
  obtain ⟨y, hy, hyx⟩ := List.mem_map.1 hmem
  obtain ⟨hystored, hynot⟩ := hP y hy
  exact hynot (hystored.eq_of_hash hx hyx ▸ hin)

theorem without_nil : bc.without [] = bc.db := by
  ext1 k
  simp [without]

/-- A block that is no tail is not removed. -/
theorem Sound.removeBlock_of_not_tail (h : bc.Sound) (ht : bc.Stored t) (hmem : t ∉ bc.tails) :
    bc.removeBlock behind t = (bc, behind) := by
  have hindex : bc.indexInTails t = none := by
    rcases indexInTails_spec h ht with ⟨-, hindex⟩ | ⟨t₁, t₂, hsplit, -⟩
    · exact hindex
    · exact absurd (by rw [hsplit]; simp) hmem
  rw [removeBlock, hindex]
  split_ifs
  · rfl
  · cases bc.getBlockByHash t.parentHash <;> rfl

/-- The walk of `DeleteFork` takes nothing away where it meets no tail. -/
theorem Sound.deleteFrom_of_no_tail (h : bc.Sound) : ∀ {P : List Block} {x : Block} {l : List Block},
    x :: l = P ++ c :: s → bc.IsChain (x :: l) → (∀ y ∈ P, y ∉ bc.tails) → bc.isInMainFork c →
      ∀ fuel, bc.deleteFrom behind fuel x = (bc, behind)
  | [], x, l, hsplit, _, _, hc, fuel => by
    obtain ⟨rfl, -⟩ := List.cons_eq_cons.1 hsplit
    exact deleteFrom_of_mapped hc fuel
  | y :: P, x, l, hsplit, hchain, hP, hc, 0 => rfl
  | y :: P, x, l, hsplit, hchain, hP, hc, fuel + 1 => by
    obtain ⟨rfl, hl⟩ := List.cons_eq_cons.1 hsplit
    have hl : l = P ++ c :: s := hl
    have hremove : bc.removeBlock behind x = (bc, behind) :=
      h.removeBlock_of_not_tail (hchain.stored x (by simp)) (hP x (by simp))
    cases hchain with
    | root hr => exact absurd hl (by simp)
    | @grow _ p l' hp hp' =>
      rw [deleteFrom, hremove]
      split_ifs
      · rfl
      · dsimp only
        rw [getBlockByHash_parent hp hp']
        exact h.deleteFrom_of_no_tail hl hp' (fun z hz => hP z (List.mem_cons_of_mem _ hz)) hc fuel

namespace Standing

theorem removeBlock_kept (h : bc.Standing m ml mapped) {b : Block} (hb : bc.Stored b) (hnot : ¬ bc.isInMainFork b) :
    KeepsMain bc (bc.removeBlock [] b).1 m ml ↔ (Removal.removeBlock b).Harmless bc m := by
  have hlisted : ∀ {bc' : Blockchain}, bc'.db = bc.without [b] → bc'.genesis = bc.genesis →
      bc'.mainForkMap = bc.mainForkMap → ∀ x ∈ m :: ml, bc.isInMainFork x → bc'.getBlockByHeight x.height = .ok x := by
    intro bc' hdb hgen hmap x hx hin
    refine getBlockByHeight_without h.nonempty hdb hgen hmap (fun y hy => ?_) (h.chain.stored x hx) hin
    rw [List.mem_singleton.1 hy]
    exact ⟨hb, hnot⟩
  have hself : KeepsMain bc bc m ml := ⟨h.mainTail, fun x hx hin =>
    getBlockByHeight_without h.nonempty without_nil.symm rfl rfl (by simp) (h.chain.stored x hx) hin⟩
  by_cases hmem : b ∈ bc.tails
  · cases hget : bc.getBlockByHash b.parentHash with
    | error e =>
      have hres : bc.removeBlock [] b = (bc, []) := by
        rw [removeBlock, if_neg hnot, hget]
      rw [hres]
      refine iff_of_true hself fun _ p hp => ?_
      obtain ⟨l, hl⟩ := h.sound.rooted p hp.2.1
      rw [getBlockByHash_parent hp hl] at hget
      cases hget
    | ok p =>
      obtain ⟨t₁, t₂, hsplit, herase, hrest, hfirst⟩ := h.sound.listed.split_tails hmem
      have hres : bc.removeBlock [] b = _ := removeBlock_tail h.sound.forkLengths_eq hsplit hfirst hnot hget
      obtain ⟨-, k, hk, hdb⟩ := getBlockByHash_ok.1 hget
      have hpk : p.hash = k := h.sound.keyed k p hdb
      have hpstored : bc.Stored p := by rwa [Stored, hpk]
      have hback : (bc.cutBack b (t₁ ++ p :: t₂)).getMainTail = some (if m = b then p else m) :=
        getMainTail_append h.sound (.inr ⟨t₁, t₂, hsplit, rfl⟩) h.mainTail rfl rfl
      by_cases hroot : ∃ q, bc.tree.Parent b q
      · obtain ⟨q, hq⟩ := hroot
        have hqp : q = p := by
          refine hq.2.1.eq_of_hash hpstored ?_
          rw [hpk]
          exact Option.some.inj (hq.2.2.1.symm.trans hk)
        subst hqp
        have hharmless : (Removal.removeBlock b).Harmless bc m ↔
            if bc.isInMainFork q then FirstHighest m (bc.tails.erase b) else b ≠ m := by
          constructor
          · intro hall
            exact hall hmem q hq
          · intro hone _ p hp
            rw [← bc.tree.parent_unique hq hp]
            exact hone
        rw [hharmless, hres]
        by_cases hin : bc.isInMainFork q
        · rw [if_pos hin, if_pos hin, herase]
          constructor
          · intro hkeeps
            exact getMainTail_cutOff_iff.1 hkeeps.mainTail
          · intro hfirst
            exact ⟨getMainTail_cutOff_iff.2 hfirst, hlisted rfl rfl rfl⟩
        · rw [if_neg hin, if_neg hin]
          constructor
          · rintro ⟨hmain, -⟩ rfl
            rw [hback, if_pos rfl] at hmain
            have hqb : q ≠ b := by
              rintro rfl
              have := hq.2.2.2
              omega
            exact hqb (Option.some.inj hmain)
          · intro hbm
            refine ⟨?_, hlisted rfl rfl rfl⟩
            rw [hback, if_neg (Ne.symm hbm)]
      · -- the genesis block, alone and not mapped
        have hbm : b = m := by
          by_contra hne
          exact hroot (h.exists_parent hmem hne)
        have hpb : p = b := by
          obtain ⟨l, hl⟩ := h.sound.rooted p hpstored
          obtain ⟨lb, hlb⟩ := h.sound.rooted b hb
          cases hlb with
          | grow hq _ => exact absurd ⟨_, hq⟩ hroot
          | root hr =>
            obtain ⟨pre, s, hsplit'⟩ := List.append_of_mem (hl.root_mem hr)
            by_contra hne
            have hpre : pre ≠ [] := by
              rintro rfl
              exact hne (List.cons_eq_cons.1 hsplit').1
            exact h.sound.listed.not_mem_tails_of_chain (hsplit' ▸ hl) hpre hmem
        subst hpb
        rw [hres, if_neg hnot]
        refine iff_of_true ⟨?_, hlisted rfl rfl rfl⟩ fun _ q hq => absurd ⟨q, hq⟩ hroot
        rw [hback, if_pos hbm.symm, hbm]
  · rw [h.sound.removeBlock_of_not_tail hb hmem]
    exact iff_of_true hself fun hmem' => absurd hmem' hmem

theorem deleteFork_kept (h : bc.Standing m ml mapped) {b : Block} (hb : bc.Stored b) (hnot : ¬ bc.isInMainFork b) :
    KeepsMain bc (bc.deleteFork [] b).1 m ml ↔ (Removal.deleteFork b).Harmless bc m := by
  have hself : KeepsMain bc bc m ml := ⟨h.mainTail, fun x hx hin =>
    getBlockByHeight_without h.nonempty without_nil.symm rfl rfl (by simp) (h.chain.stored x hx) hin⟩
  by_cases hfound : (bc.findCommonAncestor b).isOk
  · by_cases hmem : b ∈ bc.tails
    · obtain ⟨P, c, s, behind', ⟨-, -, -, hP, -⟩, hcut, hres, -⟩ := h.deleteFork_spec [] hmem hnot hfound
      rw [hres]
      constructor
      · intro hkeeps _ _
        exact getMainTail_cutOff_iff.1 hkeeps.mainTail
      · intro hharmless
        refine ⟨getMainTail_cutOff_iff.2 (hharmless hmem hfound), fun x hx hin => ?_⟩
        have hdb : (bc.cutOff P (bc.tails.erase b)).db = bc.without P := rfl
        exact getBlockByHeight_without h.nonempty hdb rfl rfl (fun y hy => ⟨hcut.stored hy, hP y hy⟩)
          (h.chain.stored x hx) hin
    · have hres : bc.deleteFork [] b = (bc, []) := by
        obtain ⟨P, c, s, hchain, hhead, -, hc⟩ := h.exists_growsOn (h.mapped_ne_nil hfound) hb hnot
        obtain ⟨l, hl⟩ : ∃ l, b :: l = P ++ c :: s := by
          cases P with
          | nil => exact absurd hhead (by simp)
          | cons x P => exact ⟨P ++ c :: s, by rw [← Option.some.inj hhead]; rfl⟩
        have hP : ∀ y ∈ P, y ∉ bc.tails := fun y hy hytail => by
          obtain ⟨P₁, P₂, rfl⟩ := List.append_of_mem hy
          rcases List.eq_nil_or_concat P₁ with rfl | ⟨Q, z, rfl⟩
          · exact hmem (Option.some.inj hhead ▸ hytail)
          · rw [List.append_assoc] at hchain
            exact h.sound.listed.not_mem_tails_of_chain hchain (by simp) hytail
        rw [deleteFork]
        cases bc.findCommonAncestor b with
        | error e => rfl
        | ok a => exact h.sound.deleteFrom_of_no_tail hl (hl ▸ hchain) hP hc _
      rw [hres]
      exact iff_of_true hself fun hmem' => absurd hmem' hmem
  · rw [deleteFork_of_not_found hfound]
    exact iff_of_true hself fun _ hfound' => absurd hfound' hfound

end Standing

/-! ## The pruning of `UpdateMainTailIndex` -/

/-- The block has been taken away, and so has its parent, or that is in the map. -/
def Gone (bc : Blockchain) (x : Block) : Prop :=
  bc.db x.hash = none ∧ ¬ bc.isInMainFork x ∧ ∀ p, bc.getBlockByHash x.parentHash = .ok p → bc.isInMainFork p

/-- In the loop of `UpdateMainTailIndex`: the map holds the chain `m :: ml` of a tail, which is
    the main tail while it is the first of the highest, and behind the tails there are only
    tails and blocks that are gone. -/
structure Pruning (bc : Blockchain) (behind : List Block) (m : Block) (ml : List Block) (first : Prop) : Prop where
  standing : ∃ m' ml', bc.Standing m' ml' (m :: ml)
  mem_tails : m ∈ bc.tails
  lone : bc.LoneForks
  behind : ∀ x ∈ behind, x ∈ bc.tails ∨ bc.Gone x
  main : first → FirstHighest m bc.tails ∧ bc.getMainTail = some m

theorem FirstHighest.erase {l : List Block} (h : FirstHighest m l) (hne : t ≠ m) : FirstHighest m (l.erase t) := by
  obtain ⟨pre, post, rfl, hpre, hpost⟩ := h
  by_cases ht : t ∈ pre
  · exact ⟨pre.erase t, post, List.erase_append_left _ ht, fun x hx => hpre x (List.mem_of_mem_erase hx), hpost⟩
  · refine ⟨pre, post.erase t, ?_, hpre, fun x hx => hpost x (List.mem_of_mem_erase hx)⟩
    rw [List.erase_append_right _ ht, List.erase_cons_tail (by simpa using Ne.symm hne)]

/-- A call on a block that is gone does nothing. -/
theorem Gone.deleteFork (h : bc.Gone t) (hlisted : bc.Listed) : bc.deleteFork behind t = (bc, behind) := by
  obtain ⟨hdb, hnot, hparent⟩ := h
  have hindex : bc.indexInTails t = none := by
    refine List.findIdx?_eq_none_iff.2 fun x hx => ?_
    simp only [decide_eq_false_iff_not]
    intro hhash
    have hx' : bc.db x.hash = some x := hlisted.stored x hx
    rw [hhash, hdb] at hx'
    cases hx'
  have hremove : bc.removeBlock behind t = (bc, behind) := by
    rw [removeBlock, if_neg hnot, hindex]
    cases bc.getBlockByHash t.parentHash <;> rfl
  rw [Blockchain.deleteFork]
  cases bc.findCommonAncestor t with
  | error e => rfl
  | ok a =>
    dsimp only
    rw [deleteFrom, if_neg hnot, hremove]
    dsimp only
    cases hget : bc.getBlockByHash t.parentHash with
    | error e => rfl
    | ok p => exact deleteFrom_of_mapped (hparent p hget) _

theorem Cut.gone {bc' : Blockchain} (h : Cut bc bc' t P c s) (hP : ∀ x ∈ P, ¬ bc.isInMainFork x)
    (hc : bc.isInMainFork c) (hmap : bc'.mainForkMap = bc.mainForkMap) {x : Block} (hx : x ∈ P) : bc'.Gone x := by
  have hin : ∀ y, bc'.isInMainFork y = bc.isInMainFork y := fun y => by simp only [isInMainFork, hmap]
  have hnone : ∀ y ∈ P, bc'.db y.hash = none := fun y hy => by
    rw [h.db, without, if_pos (List.mem_map_of_mem hy)]
  refine ⟨hnone x hx, by rw [hin]; exact hP x hx, fun p hget => ?_⟩
  obtain ⟨P₁, P₂, hsplit⟩ := List.append_of_mem hx
  -- the next block of the chain is the parent
  obtain ⟨q, hq, hqmem⟩ : ∃ q, bc.tree.Parent x q ∧ (q ∈ P ∨ q = c) := by
    have hchain := h.chain
    rw [hsplit, List.append_assoc] at hchain
    have hsuffix : bc.IsChain (x :: (P₂ ++ c :: s)) := hchain.suffix
    cases P₂ with
    | nil =>
      cases hsuffix with
      | grow hp _ => exact ⟨c, hp, .inr rfl⟩
    | cons y P₂ =>
      cases hsuffix with
      | grow hp _ => exact ⟨y, hp, .inl (by rw [hsplit]; simp)⟩
  obtain ⟨-, k, hk, hdb⟩ := getBlockByHash_ok.1 hget
  rw [hq.2.2.1] at hk
  obtain rfl := Option.some.inj hk
  rcases hqmem with hqP | rfl
  · rw [hnone q hqP] at hdb
    cases hdb
  · have hcP : q.hash ∉ P.map Block.hash := fun hmem => by
      obtain ⟨y, hy, hyq⟩ := List.mem_map.1 hmem
      exact h.not_mem_base ((h.stored hy).eq_of_hash h.stored_base hyq ▸ hy)
    rw [h.db, without, if_neg hcP] at hdb
    have hqp : p = q := Option.some.inj (hdb.symm.trans h.stored_base)
    rw [hqp, hin]
    exact hc

theorem Cut.gone_of_gone {bc' : Blockchain} (h : Cut bc bc' t P c s) (hmap : bc'.mainForkMap = bc.mainForkMap)
    {x : Block} (hx : bc.Gone x) : bc'.Gone x := by
  have hin : ∀ y, bc'.isInMainFork y = bc.isInMainFork y := fun y => by simp only [isInMainFork, hmap]
  obtain ⟨hdb, hnot, hparent⟩ := hx
  refine ⟨?_, by rw [hin]; exact hnot, fun p hget => ?_⟩
  · rw [h.db, without, hdb]
    split_ifs <;> rfl
  · obtain ⟨hne, k, hk, hp⟩ := getBlockByHash_ok.1 hget
    rw [h.db, without] at hp
    split_ifs at hp
    rw [isEmpty, h.genesis] at hne
    rw [hin]
    exact hparent p (getBlockByHash_ok.2 ⟨hne, k, hk, hp⟩)

namespace Pruning

variable {first : Prop}

/-- **One call** of the loop. -/
theorem deleteFork (h : Pruning bc behind m ml first) (ht : t ∈ bc.tails ++ behind)
    (hold : t.height < bc.irreversibleBlock) :
    Pruning (bc.deleteFork behind t).1 (bc.deleteFork behind t).2 m ml first := by
  obtain ⟨m', ml', hstanding⟩ := h.standing
  by_cases htail : t ∈ bc.tails
  · by_cases hin : bc.isInMainFork t
    · rw [deleteFork_of_mapped hin]
      exact h
    · by_cases hfound : (bc.findCommonAncestor t).isOk
      · obtain ⟨P, c, s, behind', hgrows, hcut, hres, hbehind⟩ := hstanding.deleteFork_spec behind htail hin hfound
        obtain ⟨-, -, -, hP, hc⟩ := id hgrows
        rw [hres]
        set bc' := bc.cutOff P (bc.tails.erase t) with hbc'
        have hchain : bc.IsChain (m :: ml) := hstanding.mapChain.resolve_left (by simp)
        have hmin : bc.isInMainFork m := (hstanding.isInMainFork_iff (hchain.stored m (by simp))).2 (by simp)
        have hmt : t ≠ m := fun h => hin (h ▸ hmin)
        have hm : m ∈ bc'.tails := (List.mem_erase_of_ne (Ne.symm hmt)).2 h.mem_tails
        have hctails : c ∉ bc.tails :=
          hstanding.sound.listed.not_mem_tails_of_chain hcut.chain (List.ne_nil_of_mem hcut.mem_head)
        -- the base of the fork has a child on the mapped chain
        have hother : ∃ y, bc.Stored y ∧ c.isValidParentOf y ∧ y ∉ P := by
          have hcm := (hstanding.isInMainFork_iff hcut.stored_base).1 hc
          obtain ⟨pre, rest, hsplit⟩ := List.append_of_mem hcm
          rcases List.eq_nil_or_concat pre with rfl | ⟨Q, y, rfl⟩
          · exact absurd h.mem_tails ((List.cons_eq_cons.1 hsplit).1 ▸ hctails)
          · have hyin : y ∈ m :: ml := by rw [hsplit]; simp
            rw [hsplit, List.concat_eq_append, List.append_assoc] at hchain
            have hsuffix : bc.IsChain (y :: c :: rest) := hchain.suffix
            cases hsuffix with
            | grow hp _ =>
              refine ⟨y, hp.1, hp.2.2, fun hyP => hP y hyP ?_⟩
              exact (hstanding.isInMainFork_iff hp.1).2 hyin
        have hsafe : Safe bc bc' := by
          refine (hcut.safe_iff hstanding.sound hstanding.bounded).2 ⟨h.lone t htail hold P c hgrows, ?_⟩
          refine iff_of_false (fun hmem => hctails (List.mem_of_mem_erase hmem)) fun hall => ?_
          obtain ⟨y, hy, hcy, hyP⟩ := hother
          exact hyP (hall y hy hcy)
        obtain ⟨m₁, hm₁, hfirst⟩ : ∃ m₁, bc'.getMainTail = some m₁ ∧ FirstHighest m₁ bc'.tails :=
          getMainTail_cutOff (List.ne_nil_of_mem hm)
        obtain ⟨ml₁, hml₁⟩ := hstanding.cut hcut hP hsafe rfl hm₁ fun x hx =>
          (hchain.level_le hx : x.height ≤ m.height).trans (hfirst.le hm)
        refine ⟨⟨m₁, ml₁, hml₁⟩, hm, ?_, ?_, ?_⟩
        · intro u hu hold' Q d hgrowsu x hx y hy hxy
          obtain ⟨s', hchain', hrest⟩ := hgrowsu
          have hback : bc.IsChain (Q ++ d :: s') :=
            hchain'.restrict rfl fun z hz => (hcut.stored_iff.1 (hchain'.stored z hz)).1
          exact h.lone u (List.mem_of_mem_erase hu) hold' Q d ⟨s', hback, hrest⟩ x hx y (hcut.stored_iff.1 hy).1 hxy
        · intro x hx
          rcases hbehind x hx with hx | hx | hx
          · rcases h.behind x hx with hx | hx
            · by_cases hxt : x = t
              · exact .inr (hxt ▸ hcut.gone hP hc rfl hcut.mem_head)
              · exact .inl ((List.mem_erase_of_ne hxt).2 hx)
            · exact .inr (hcut.gone_of_gone rfl hx)
          · exact .inl hx
          · exact .inr (hcut.gone hP hc rfl hx)
        · intro hkeep
          have hm' := (h.main hkeep).1.erase hmt
          exact ⟨hm', getMainTail_cutOff_iff.2 hm'⟩
      · rw [deleteFork_of_not_found hfound]
        exact h
  · have hgone : bc.Gone t := (h.behind t ((List.mem_append.1 ht).resolve_left htail)).resolve_left htail
    rw [hgone.deleteFork hstanding.sound.listed]
    exact h

/-- **The loop**, from whatever index on. -/
theorem pruneFrom : ∀ {remaining i : ℕ} {bc : Blockchain} {behind : List Block}, Pruning bc behind m ml first →
    ∃ behind', Pruning (bc.pruneFrom behind i remaining) behind' m ml first
  | 0, _, _, behind, h => ⟨behind, h⟩
  | remaining + 1, i, bc, behind, h => by
    rw [Blockchain.pruneFrom]
    split
    · exact ⟨behind, h⟩
    · next t ht =>
      split_ifs with hold
      · exact pruneFrom (h.deleteFork (List.mem_of_getElem? ht) hold)
      · exact pruneFrom h

end Pruning

/-- The loop starts with the map of a successful update. -/
theorem Standing.pruning (h : bc.Standing m ml (m :: ml)) (hlone : bc.LoneForks) :
    Pruning bc [] m ml (FirstHighest m bc.tails) :=
  ⟨⟨m, ml, h⟩, h.mem_tails, hlone, by simp, fun hfirst => ⟨hfirst, h.mainTail⟩⟩

/-! ## Runs -/

/-- **Every chain reached stands.** -/
theorem Reached.standing (h : Reached bc) : ∃ m ml mapped, bc.Standing m ml mapped := by
  induction h with
  | genesis g hg =>
    obtain ⟨mapped, hstanding⟩ := standing_genesis hg
    exact ⟨g, [], mapped, hstanding⟩
  | append _ hb ih =>
    obtain ⟨m, ml, mapped, hstanding⟩ := ih
    obtain ⟨m', ml', hstanding'⟩ := hstanding.append hb
    exact ⟨m', ml', mapped, hstanding'⟩
  | moveMainTail _ ih =>
    obtain ⟨m, ml, mapped, hstanding⟩ := ih
    obtain ⟨-, -, m', ml', mapped', -, hstanding', -⟩ := hstanding.moveMainTail
    exact ⟨m', ml', mapped', hstanding'⟩
  | updateMainTailIndex _ hlone ih =>
    obtain ⟨m, ml, mapped, hstanding⟩ := ih
    obtain ⟨-, -, m', ml', mapped', -, hstanding', -, hok⟩ := hstanding.moveMainTail
    rw [updateMainTailIndex_snd]
    split_ifs with hupdate
    · rw [hok hupdate] at hstanding'
      obtain ⟨behind', ⟨m₁, ml₁, hloop⟩, -⟩ := (hstanding'.pruning (hlone hupdate)).pruneFrom
      exact ⟨m₁, ml₁, _, hloop⟩
    · exact ⟨m', ml', mapped', hstanding'⟩
  | irreversible k _ ih =>
    obtain ⟨m, ml, mapped, h⟩ := ih
    exact ⟨m, ml, mapped, h.sound.irreversible k, h.bounded, h.mainTail, h.chain, h.map, h.mapChain, h.below⟩
  | @remove bc m r _ hm ht hne hclean ih =>
    obtain ⟨m', ml, mapped, hstanding⟩ := ih
    obtain rfl : m = m' := Option.some.inj (hm.symm.trans hstanding.mainTail)
    obtain ⟨m₁, ml₁, hrun⟩ := hstanding.run ht hne hclean
    exact ⟨m₁, ml₁, mapped, hrun⟩

/-- **Pruning is safe** exactly when it is clean: on every chain that is reached the tails are
    the stored blocks without stored children, with all their ancestors, and a call on a tail
    other than the main tail leaves it so if and only if it is clean. -/
theorem pruning_safe_iff (h : Reached bc) :
    Safe bc bc ∧ ∀ (m : Block) (r : Removal), bc.getMainTail = some m → r.block ∈ bc.tails → r.block ≠ m →
      (Safe bc (r.run bc) ↔ r.Clean bc) := by
  obtain ⟨m, ml, mapped, hstanding⟩ := h.standing
  refine ⟨hstanding.safe_self, fun m' r hm ht hne => hstanding.safe_iff ht ?_⟩
  rwa [Option.some.inj (hstanding.mainTail.symm.trans hm)]

/-! ## Two forks with a common block -/

instance (b : Block) : Decidable (bc.Stored b) := inferInstanceAs (Decidable (bc.db b.hash = some b))

instance (b p : Block) : Decidable (p.isValidParentOf b) :=
  inferInstanceAs (Decidable (b.parentHash = some p.hash ∧ p.height = b.height - 1))

instance (b p : Block) : Decidable (bc.tree.Parent b p) :=
  inferInstanceAs (Decidable (bc.Stored b ∧ bc.Stored p ∧ p.isValidParentOf b))

instance (g : Block) : Decidable (bc.tree.Root g) :=
  inferInstanceAs (Decidable (bc.genesis = some g ∧ bc.Stored g ∧ g.height = 0))

instance (b p : Block) : Decidable (bc.Appendable b p) :=
  decidable_of_iff (bc.db b.hash = none ∧ bc.Stored p ∧ p.isValidParentOf b)
    ⟨fun h => ⟨h.1, h.2.1, h.2.2⟩, fun h => ⟨h.fresh, h.parent, h.child⟩⟩

/-- Blocks of a chain `g, x, y` and of the forks `b` and `c` that share the block `a`. -/
def forkBlock (hash parentHash : Hash) (height : ℤ) : Block := ⟨hash, some parentHash, height, "m", false⟩

def forkGenesis : Block := ⟨"g", none, 0, "m", false⟩

/-- A block is appended and the main tail updated. -/
def grow (bc : Blockchain) (b : Block) : Blockchain := (bc.append b).2.updateMainTailIndex.2

theorem Reached.grow {b p : Block} (h : Reached bc) (hb : bc.Appendable b p)
    (hkeep : ∀ t ∈ (bc.append b).2.moveMainTail.tails, ¬ t.height < (bc.append b).2.moveMainTail.irreversibleBlock) :
    Reached (bc.grow b) :=
  .updateMainTailIndex (.append h hb) fun _ t ht hold => absurd hold (hkeep t ht)

/-- The chain `g, x, y` is the main one; `b` and `c` are children of `a`, a child of `g`. -/
def sharedForks : Blockchain :=
  (((((init.append forkGenesis).2.grow (forkBlock "x" "g" 1)).grow (forkBlock "y" "x" 2)).grow
    (forkBlock "a" "g" 1)).grow (forkBlock "b" "a" 2)).grow (forkBlock "c" "a" 2)

theorem reached_sharedForks : Reached sharedForks := by
  have h₁ : Reached ((init.append forkGenesis).2.grow (forkBlock "x" "g" 1)) :=
    .grow (p := forkGenesis) (.genesis forkGenesis rfl) (by decide) (by decide)
  have h₂ := h₁.grow (b := forkBlock "y" "x" 2) (p := forkBlock "x" "g" 1) (by decide) (by decide)
  have h₃ := h₂.grow (b := forkBlock "a" "g" 1) (p := forkGenesis) (by decide) (by decide)
  have h₄ := h₃.grow (b := forkBlock "b" "a" 2) (p := forkBlock "a" "g" 1) (by decide) (by decide)
  exact h₄.grow (b := forkBlock "c" "a" 2) (p := forkBlock "a" "g" 1) (by decide) (by decide)

/-- `RemoveBlock` of `b` is not clean: its parent has the child `c` too. -/
theorem pruning_safe_iff_sharedForks :
    Safe sharedForks ((Removal.removeBlock (forkBlock "b" "a" 2)).run sharedForks) ↔
      (Removal.removeBlock (forkBlock "b" "a" 2)).Clean sharedForks :=
  (pruning_safe_iff reached_sharedForks).2 (forkBlock "y" "x" 2) _ (by decide) (by decide) (by decide)

/-- `DeleteFork` of `b` takes `a` away from the fork of `c`. -/
theorem not_pruning_safe :
    ¬ ∀ (bc : Blockchain) (m : Block) (r : Removal), Reached bc → bc.getMainTail = some m → r.block ∈ bc.tails →
      r.block ≠ m → Safe bc (r.run bc) := by
  intro hall
  have hsafe := hall sharedForks (forkBlock "y" "x" 2) (.deleteFork (forkBlock "b" "a" 2)) reached_sharedForks
    (by decide) (by decide) (by decide)
  obtain ⟨l, hl⟩ : ∃ l, sharedForks.IsChain (forkBlock "c" "a" 2 :: forkBlock "a" "g" 1 :: l) := by
    obtain ⟨m, ml, mapped, hstanding⟩ := reached_sharedForks.standing
    have hstored : sharedForks.Stored (forkBlock "a" "g" 1) := by decide
    obtain ⟨l, hl⟩ := hstanding.sound.rooted _ hstored
    exact ⟨l, .grow (by decide) hl⟩
  have hget := hsafe.ancestors (forkBlock "c" "a" 2) (by decide) _ hl (forkBlock "a" "g" 1) (by simp)
  obtain ⟨-, k, hk, hdb⟩ := getBlockByHash_ok.1 hget
  obtain rfl := Option.some.inj hk
  have hnone : ((Removal.deleteFork (forkBlock "b" "a" 2)).run sharedForks).db "a" = none := by decide
  exact absurd (hnone.symm.trans hdb) (by simp)

/-- **Pruning keeps the main tail** exactly when it is harmless: on every chain that is reached,
    a call on a block that is not in the map leaves the main tail, and lists its ancestors as
    before, if and only if it is harmless.  `UpdateMainTailIndex` keeps the main tail it has
    moved to while that is the first of the highest. -/
theorem mainTail_kept_iff (h : Reached bc) :
    (∀ (m : Block) (ml : List Block) (r : Removal), bc.getMainTail = some m → bc.IsChain (m :: ml) →
      bc.Stored r.block → ¬ bc.isInMainFork r.block → (KeepsMain bc (r.run bc) m ml ↔ r.Harmless bc m)) ∧
    (bc.updateMainTailIndex.1.isOk → bc.moveMainTail.LoneForks → ∀ (m : Block) (ml : List Block),
      bc.moveMainTail.getMainTail = some m → bc.moveMainTail.IsChain (m :: ml) →
        FirstHighest m bc.moveMainTail.tails → KeepsMain bc.moveMainTail bc.updateMainTailIndex.2 m ml) := by
  obtain ⟨m₀, ml₀, mapped, hstanding⟩ := h.standing
  constructor
  · intro m ml r hm hml hb hnot
    obtain rfl : m = m₀ := Option.some.inj (hm.symm.trans hstanding.mainTail)
    obtain rfl : ml = ml₀ := LinkTree.Branch.unique hml hstanding.chain
    cases r with
    | removeBlock b => exact hstanding.removeBlock_kept hb hnot
    | deleteFork b => exact hstanding.deleteFork_kept hb hnot
  · intro hupdate hlone m ml hm hml hfirst
    obtain ⟨-, -, m', ml', mapped', -, hmoved, -, hok⟩ := hstanding.moveMainTail
    obtain rfl : m = m' := Option.some.inj (hm.symm.trans hmoved.mainTail)
    obtain rfl : ml = ml' := LinkTree.Branch.unique hml hmoved.chain
    rw [hok hupdate] at hmoved
    obtain ⟨behind', ⟨m₁, ml₁, hloop⟩, hmem, -, -, hmain⟩ := (hmoved.pruning hlone).pruneFrom
    rw [updateMainTailIndex_snd, if_pos hupdate, pruneTails]
    refine ⟨(hmain hfirst).2, fun x hx _ => ?_⟩
    have hchain := hloop.mapChain.resolve_left (by simp)
    rw [getBlockByHeight, hloop.map.1 x hx]
    exact getBlockByHash_stored hloop.nonempty (hchain.stored x hx)

end

/-! ## Two highest tails -/

/-- The main tail is `d`, the second of the two highest tails; `c` is another child of `g`. -/
def highForks : Blockchain :=
  (((((init.append forkGenesis).2.grow (forkBlock "a" "g" 1)).grow (forkBlock "b" "g" 1)).grow
    (forkBlock "d" "b" 2)).grow (forkBlock "e" "a" 2)).grow (forkBlock "c" "g" 1)

theorem reached_highForks : Reached highForks := by
  have h₁ : Reached ((init.append forkGenesis).2.grow (forkBlock "a" "g" 1)) :=
    .grow (p := forkGenesis) (.genesis forkGenesis rfl) (by decide) (by decide)
  have h₂ := h₁.grow (b := forkBlock "b" "g" 1) (p := forkGenesis) (by decide) (by decide)
  have h₃ := h₂.grow (b := forkBlock "d" "b" 2) (p := forkBlock "b" "g" 1) (by decide) (by decide)
  have h₄ := h₃.grow (b := forkBlock "e" "a" 2) (p := forkBlock "a" "g" 1) (by decide) (by decide)
  exact h₄.grow (b := forkBlock "c" "g" 1) (p := forkGenesis) (by decide) (by decide)

/-- The chain of the main tail. -/
theorem isChain_highForks : highForks.IsChain [forkBlock "d" "b" 2, forkBlock "b" "g" 1, forkGenesis] :=
  .grow (by decide) (.grow (by decide) (.root (by decide)))

theorem mainTail_kept_iff_highForks :
    KeepsMain highForks ((Removal.deleteFork (forkBlock "e" "a" 2)).run highForks) (forkBlock "d" "b" 2)
      [forkBlock "b" "g" 1, forkGenesis] ↔
        (Removal.deleteFork (forkBlock "e" "a" 2)).Harmless highForks (forkBlock "d" "b" 2) :=
  (mainTail_kept_iff reached_highForks).1 _ _ _ (by decide) isChain_highForks (by decide) (by decide)

/-- `RemoveBlock` of `c` makes the first of the two highest tails the main tail. -/
theorem not_mainTail_kept :
    ¬ ∀ (bc : Blockchain) (m : Block) (ml : List Block) (r : Removal), Reached bc → bc.getMainTail = some m →
      bc.IsChain (m :: ml) → bc.Stored r.block → ¬ bc.isInMainFork r.block → KeepsMain bc (r.run bc) m ml := by
  intro hall
  have hkeeps := hall highForks _ _ (.removeBlock (forkBlock "c" "g" 1)) reached_highForks
    (by decide : highForks.getMainTail = some (forkBlock "d" "b" 2)) isChain_highForks (by decide)
    (by decide)
  have hmoved : ((Removal.removeBlock (forkBlock "c" "g" 1)).run highForks).getMainTail = some (forkBlock "e" "a" 2) := by
    decide
  exact absurd (hkeeps.mainTail.symm.trans hmoved) (by decide)

end Blockchain
end Timbre
