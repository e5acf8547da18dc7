/-
  What stands between any two calls of `Append` and `UpdateMainTailIndex`, in whatever order
  they come: the main tail need not be a highest tail, and the main-fork map holds the main
  chain of the last update that went well.
-/
import Mathlib.Data.List.TakeWhile
import Timbre.Core.ForkChoice

namespace Timbre
namespace Blockchain

variable {bc : Blockchain}

/-! ## The invariant -/

/-- The tails are sound, the heights bounded, and the main tail `m` has the chain `m :: ml`.
    The map holds a chain, or nothing yet, that is not higher than the main tail. -/
structure Standing (bc : Blockchain) (m : Block) (ml mapped : List Block) : Prop where
  sound : bc.Sound
  bounded : ∃ N, ∀ b, bc.Stored b → b.height ≤ N
  mainTail : bc.getMainTail = some m
  chain : bc.IsChain (m :: ml)
  map : bc.Mapped mapped
  mapChain : mapped = [] ∨ bc.IsChain mapped
  below : ∀ x ∈ mapped, x.height ≤ m.height

theorem Sound.irreversible (h : bc.Sound) (k : ℤ) : Sound { bc with irreversibleBlock := k } :=
  ⟨h.keyed, h.rooted, h.mem_tails, h.nodup, h.forkLengths_eq⟩

theorem Sound.mainTailIndex (h : bc.Sound) (j : ℤ) : Sound { bc with mainTailIndex := j } :=
  ⟨h.keyed, h.rooted, h.mem_tails, h.nodup, h.forkLengths_eq⟩

theorem Sound.mainForkMap (h : bc.Sound) (map : ℤ → Option Hash) : Sound { bc with mainForkMap := map } :=
  ⟨h.keyed, h.rooted, h.mem_tails, h.nodup, h.forkLengths_eq⟩

/-- The tails above a stored block: there is one. -/
theorem Sound.exists_tail (h : bc.Sound) {N : ℤ} (hN : ∀ b, bc.Stored b → b.height ≤ N) {b : Block}
    (hb : bc.Stored b) : ∃ t ∈ bc.tails, ∃ l, bc.IsChain (t :: l) ∧ b ∈ t :: l := by
  by_cases hchild : ∃ c, bc.Stored c ∧ b.isValidParentOf c
  · obtain ⟨c, hc, hbc⟩ := hchild
    have hlt : (N - c.height).toNat < (N - b.height).toNat := by
      have h₁ := hN c hc
      have h₂ := hbc.2
      omega
    obtain ⟨t, ht, l, hl, hmem⟩ := h.exists_tail hN hc
    obtain ⟨pre, s, hsplit⟩ := List.append_of_mem hmem
    -- below `c` comes its parent
    have hsuffix : bc.IsChain (c :: s) := (hsplit ▸ hl).suffix
    refine ⟨t, ht, l, hl, ?_⟩
    rw [hsplit]
    refine List.mem_append_right _ (List.mem_cons_of_mem _ ?_)
    cases hsuffix with
    | root hr =>
      have h₀ : c.height = 0 := hr.2.2
      obtain ⟨lb, hlb⟩ := h.rooted b hb
      have hnonneg : 0 ≤ b.height := hlb.level_nonneg
      have := hbc.2
      omega
    | @grow _ p l' hp hp' =>
      rw [bc.tree.parent_unique ⟨hc, hb, hbc⟩ hp]
      exact List.mem_cons_self
  · obtain ⟨l, hl⟩ := h.rooted b hb
    exact ⟨b, (h.mem_tails b).2 ⟨hb, fun c hc hbc => hchild ⟨c, hc, hbc⟩⟩, l, hl, by simp⟩
termination_by (N - b.height).toNat

/-- A map that holds a chain, or nothing, has the blocks of the chain. -/
theorem Mapped.mem_iff {mapped : List Block} (h : bc.Mapped mapped) (hmapped : mapped = [] ∨ bc.IsChain mapped)
    {b : Block} (hb : bc.Stored b) : bc.isInMainFork b = true ↔ b ∈ mapped := by
  rcases hmapped with hnil | hchain
  · rw [isInMainFork, decide_eq_true_iff, hnil]
    refine iff_of_false (fun hin => ?_) List.not_mem_nil
    obtain ⟨x, hx, -⟩ := h.2 _ _ hin
    rw [hnil] at hx
    exact List.not_mem_nil hx
  · exact h.isInMainFork_iff hchain hb

theorem Mapped.split_chain {mapped : List Block} (h : bc.Mapped mapped) (hmapped : mapped = [] ∨ bc.IsChain mapped)
    {l : List Block} (hl : bc.IsChain l) :
    ∃ P s, l = P ++ s ∧ (∀ x ∈ P, ¬ bc.isInMainFork x) ∧ ∀ x ∈ s, bc.isInMainFork x := by
  refine ⟨l.takeWhile (!bc.isInMainFork ·), l.dropWhile (!bc.isInMainFork ·),
    List.takeWhile_append_dropWhile.symm, ?_, ?_⟩
  · intro x hx
    simpa using List.mem_takeWhile_imp hx
  · intro x hx
    cases hs : l.dropWhile (!bc.isInMainFork ·) with
    | nil => rw [hs] at hx; exact absurd hx List.not_mem_nil
    | cons y s =>
      have hsplit : l = l.takeWhile (!bc.isInMainFork ·) ++ y :: s := by
        rw [← hs, List.takeWhile_append_dropWhile]
      have hy : bc.isInMainFork y = true := by
        have hhead := List.head?_dropWhile_not (!bc.isInMainFork ·) l
        rw [hs] at hhead
        simpa using hhead
      have hys : bc.IsChain (y :: s) := (hsplit ▸ hl).suffix
      have hymem := (h.mem_iff hmapped (hys.stored y (by simp))).1 hy
      obtain ⟨Q, s', hQ⟩ := List.append_of_mem hymem
      have hchain : bc.IsChain mapped := hmapped.resolve_left (List.ne_nil_of_mem hymem)
      obtain rfl : s' = s := LinkTree.Branch.unique (hQ ▸ hchain).suffix hys
      rw [hs] at hx
      refine (h.mem_iff hmapped (hys.stored x hx)).2 ?_
      rw [hQ]
      exact List.mem_append_right _ hx

namespace Standing

variable {m : Block} {ml mapped : List Block}

theorem mem_tails (h : bc.Standing m ml mapped) : m ∈ bc.tails := getMainTail_mem h.mainTail

theorem nonempty (h : bc.Standing m ml mapped) : bc.isEmpty = false := h.chain.genesis_isSome

/-- A block is in the map exactly if the chain of the map has it. -/
theorem isInMainFork_iff (h : bc.Standing m ml mapped) {b : Block} (hb : bc.Stored b) :
    bc.isInMainFork b = true ↔ b ∈ mapped := h.map.mem_iff h.mapChain hb

/-- From the first mapped block of a chain on, all its blocks are mapped. -/
theorem split_chain (h : bc.Standing m ml mapped) {l : List Block} (hl : bc.IsChain l) :
    ∃ P s, l = P ++ s ∧ (∀ x ∈ P, ¬ bc.isInMainFork x) ∧ ∀ x ∈ s, bc.isInMainFork x :=
  h.map.split_chain h.mapChain hl

end Standing

theorem Ready.standing {m : Block} {ml : List Block} (h : bc.Ready m ml) {N : ℤ}
    (hN : ∀ b, bc.Stored b → b.height ≤ N) : ∃ mapped, bc.Standing m ml mapped := by
  rcases h with h | h
  · exact ⟨m :: ml, h.sound, ⟨N, hN⟩, h.mainTail, h.chain, h.mapped, .inr h.chain, fun x hx => h.chain.level_le hx⟩
  · exact ⟨[], h.1, ⟨N, hN⟩, h.2.1, h.2.2.1, h.2.2.2.2.2, .inl rfl, by simp⟩

theorem standing_genesis {g : Block} (hg : g.height = 0) : ∃ mapped, (init.append g).2.Standing g [] mapped := by
  refine (ready_genesis hg).standing (N := 0) fun b hb => ?_
  rw [Stored, append_genesis hg] at hb
  have hb : Function.update init.db g.hash (some g) b.hash = some b := hb
  by_cases hhash : b.hash = g.hash
  · rw [hhash, Function.update_self] at hb
    rw [← Option.some.inj hb, hg]
  · rw [Function.update_of_ne hhash] at hb
    cases hb

/-! ## `Append` -/

theorem Standing.append {m : Block} {ml mapped : List Block} (h : bc.Standing m ml mapped) {b p : Block}
    (hb : bc.Appendable b p) : ∃ m' ml', (bc.append b).2.Standing m' ml' mapped := by
  obtain ⟨bc', happ, hsound, -, hmain, hmono, hpar, hmap, -⟩ := append_spec h.sound hb h.mainTail
  rw [happ]
  have hmapped : bc'.Mapped mapped := by
    unfold Mapped
    rw [hmap]
    exact h.map
  have hchain : mapped = [] ∨ bc'.IsChain mapped := h.mapChain.imp id (hmono _)
  obtain ⟨N, hN⟩ := h.bounded
  have hbounded : ∃ N, ∀ x, bc'.Stored x → x.height ≤ N := by
    obtain ⟨tails, happ', -⟩ := append_eq h.sound hb
    obtain rfl : bc' = _ := (Prod.ext_iff.1 (happ.symm.trans happ')).2
    refine ⟨max N b.height, fun x hx => ?_⟩
    by_cases hxb : x.hash = b.hash
    · have hxb' : Function.update bc.db b.hash (some b) x.hash = some x := hx
      rw [hxb, Function.update_self] at hxb'
      rw [Option.some.inj hxb']
      exact le_max_right _ _
    · have hx' : bc.db x.hash = some x := (Function.update_of_ne hxb _ _).symm.trans hx
      exact (hN x hx').trans (le_max_left _ _)
  by_cases hmp : m = p
  · subst hmp
    rw [if_pos rfl] at hmain
    have hheight : b.height = m.height + 1 := bc'.tree.parent_level hpar
    refine ⟨b, m :: ml, hsound, hbounded, hmain, .grow hpar (hmono _ h.chain), hmapped, hchain, fun x hx => ?_⟩
    have := h.below x hx
    omega
  · rw [if_neg hmp] at hmain
    exact ⟨m, ml, hsound, hbounded, hmain, hmono _ h.chain, hmapped, hchain, h.below⟩

/-! ## `UpdateMainTailIndex` up to its pruning -/

/-- What `UpdateMainTailIndex` does before it prunes, which it does if it has not failed. -/
def moveMainTail (bc : Blockchain) : Blockchain :=
  match bc.longestFork bc.length noSwitch 0 bc.tails with
  | (.error _, bc) => bc
  | (.ok _, bc) => bc.updateMainForkMap bc.getMainTail

theorem updateMainTailIndex_snd (bc : Blockchain) :
    bc.updateMainTailIndex.2 =
      if bc.updateMainTailIndex.1.isOk then bc.moveMainTail.pruneTails else bc.moveMainTail := by
  unfold updateMainTailIndex moveMainTail
  rcases bc.longestFork bc.length noSwitch 0 bc.tails with ⟨e | sw, bc₁⟩ <;> rfl

theorem forked_ok {b : Block} {i : ℕ} {res : Switch} {bc' : Blockchain} (h : bc.forked b i = .ok (res, bc')) :
    bc' = { bc with mainTailIndex := (i : ℤ) } := by
  unfold forked at h
  split at h
  · cases h
  · simp only [bind, Except.bind] at h
    repeat' split at h
    all_goals first | cases h; done | skip
    cases h
    rfl

/-- **The loop over the tails** moves the main tail to another tail that is higher, if at all. -/
theorem longestFork_keeps {M : ℤ} {res : Switch} : ∀ {t : List Block} {i : ℕ} {bc : Blockchain} {m : Block},
    bc.forkLengths = bc.tails.map Block.height → bc.tails.drop i = t → bc.getMainTail = some m →
      m.height ≤ M → ∃ j m', (bc.longestFork M res i t).2 = { bc with mainTailIndex := j } ∧
        getMainTail { bc with mainTailIndex := j } = some m' ∧ m.height ≤ m'.height
  | [], i, bc, m, _, _, hm, _ => ⟨bc.mainTailIndex, m, rfl, hm, le_rfl⟩
  | x :: t, i, bc, m, hlen, hdrop, hm, hle => by
    have hx : bc.tails[i]? = some x := by
      rw [← List.head?_drop, hdrop]
      rfl
    have hi : bc.forkLengths[i]? = some x.height := by
      rw [hlen, List.getElem?_map, hx]
      rfl
    have hdrop' : bc.tails.drop (i + 1) = t := by
      rw [← List.drop_drop, hdrop]
      rfl
    rw [longestFork, hi]
    dsimp only
    split_ifs with hgt
    · cases hfork : bc.forked x i with
      | error e => exact ⟨bc.mainTailIndex, m, rfl, hm, le_rfl⟩
      | ok r =>
        obtain ⟨res', bc'⟩ := r
        obtain rfl := forked_ok hfork
        have hm' : getMainTail { bc with mainTailIndex := (i : ℤ) } = some x := by
          rw [getMainTail, tailAt, if_neg (by simp), Int.toNat_natCast]
          exact hx
        obtain ⟨j, m', heq, hmj, hle'⟩ := @longestFork_keeps x.height res' t (i + 1)
          { bc with mainTailIndex := (i : ℤ) } x hlen hdrop' hm' le_rfl
        exact ⟨j, m', heq, hmj, (hle.trans (le_of_lt hgt)).trans hle'⟩
    · exact longestFork_keeps hlen hdrop' hm hle

/-- **The first part of `UpdateMainTailIndex`** touches the main tail and the map only.  If it
    goes well, the map holds the chain of the main tail. -/
theorem Standing.moveMainTail {m : Block} {ml mapped : List Block} (h : bc.Standing m ml mapped) :
    ∃ j map m' ml' mapped', bc.moveMainTail = { bc with mainTailIndex := j, mainForkMap := map } ∧
      bc.moveMainTail.Standing m' ml' mapped' ∧ m.height ≤ m'.height ∧
      (bc.updateMainTailIndex.1.isOk → mapped' = m' :: ml') := by
  have hloop : ∀ res, ∃ j m', (bc.longestFork bc.length res 0 bc.tails).2 = { bc with mainTailIndex := j } ∧
      getMainTail { bc with mainTailIndex := j } = some m' ∧ m.height ≤ m'.height := fun res =>
    longestFork_keeps h.sound.forkLengths_eq rfl h.mainTail (length_eq h.sound h.mainTail).ge
  obtain ⟨j, m', heq, hm', hle⟩ := hloop noSwitch
  have hmem := getMainTail_mem hm'
  obtain ⟨ml', hml'⟩ := h.sound.rooted m' ((h.sound.mem_tails m').1 hmem).1
  set bc₁ : Blockchain := { bc with mainTailIndex := j } with hbc₁
  have hstanding : bc₁.Standing m' ml' mapped :=
    ⟨h.sound.mainTailIndex j, h.bounded, hm', hml', h.map, h.mapChain, fun x hx => (h.below x hx).trans hle⟩
  unfold Blockchain.moveMainTail updateMainTailIndex
  rcases hfork : bc.longestFork bc.length noSwitch 0 bc.tails with ⟨e | sw, bc₂⟩
  · rw [hfork] at heq
    obtain rfl : bc₂ = bc₁ := heq
    refine ⟨j, bc.mainForkMap, m', ml', mapped, rfl, hstanding, hle, fun hok => ?_⟩
    exact absurd hok (by simp [Except.isOk, Except.toBool])
  · rw [hfork] at heq
    obtain rfl : bc₂ = bc₁ := heq
    obtain ⟨P, s, hsplit, hP, hs⟩ := hstanding.split_chain hml'
    obtain ⟨map, hres, hmapped⟩ := updateMainForkMap_spec hstanding.chain hsplit hP hs fun k v hv => by
      obtain ⟨x, hx, rfl⟩ := h.map.2 k v hv
      have hmapChain : bc.IsChain mapped := h.mapChain.resolve_left (List.ne_nil_of_mem hx)
      exact ⟨hmapChain.level_nonneg_of_mem hx, (h.below x hx).trans hle⟩
    have hupdate : bc₁.updateMainForkMap bc₁.getMainTail = { bc₁ with mainForkMap := map } := by
      rw [hm', hres]
    refine ⟨j, map, m', ml', m' :: ml', hupdate, ?_, hle, fun _ => rfl⟩
    dsimp only
    rw [hupdate]
    exact ⟨hstanding.sound.mainForkMap map, h.bounded, hm', hml', hmapped, .inr hml', fun x hx => hml'.level_le hx⟩

end Blockchain
end Timbre
