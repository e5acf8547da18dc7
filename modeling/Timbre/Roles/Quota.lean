/-
  The quota of blocks that a miner may produce in its slot.

  `ValidateMinerSlot` compares a block with the block of the main fork that is
  `BlocksPerMiner` heights below it.  **As long as that block is the accepted block's own
  ancestor, no chain of accepted blocks has more than `BlocksPerMiner` blocks of one miner
  in one round** (`quota_of_supported`); on a side fork it need not be.
-/
import Timbre.Core.Removal
import Timbre.Dpos.MiningOrder

namespace Timbre

open MinerCache

/-- `BlocksPerMiner`: the number of ticks in a slot. -/
def blocksPerMiner : ℕ := (minerSlotTime.toInt / miningTickInterval.toInt).toNat

namespace Blockchain

variable (H : Headers)

/-! ## The source -/

/-- `VerifyLastMiner`, without its warning about the time between the blocks. -/
def verifyLastMiner (bc : Blockchain) (cache : MinerCache) (block : Block) : Except Err Unit :=
  match bc.getBlockByHash block.parentHash, bc.genesis with
  | .error e, _ => .error e
  | .ok _, none => .error (.panic "invalid memory address or nil pointer dereference")
  | .ok pBlock, some genesis =>
    cache.validateMiningOrder pBlock.minerPublicKey block.minerPublicKey (H.roundNum pBlock)
      (H.roundNum block) (H.timestamp block) (H.timestamp genesis)

/-- `ValidateMinerSlot`. -/
def validateMinerSlot (bc : Blockchain) (cache : MinerCache) (block : Block) : Except Err Unit :=
  if block.isGenesis then .ok ()
  else match bc.verifyLastMiner H cache block with
    | .error e => .error e
    | .ok _ =>
      let bHeightCheck := block.height - blocksPerMiner
      if bHeightCheck ≥ 0 then
        match bc.getBlockByHeight bHeightCheck with
        | .error _ => .ok ()
        | .ok refBlock =>
          if block.minerPublicKey = refBlock.minerPublicKey ∧ H.roundNum refBlock = H.roundNum block then
            .error (.error "More blocks produced than allowed")
          else .ok ()
      else .ok ()

/-! ## Runs -/

/-- The chain, and the ancestors of every block that has been accepted, the block itself
    first.  A block is accepted under the condition `C`, which may look at the chain, the miner
    cache and the ancestors. -/
inductive Accepted (C : Blockchain → MinerCache → Block → Block → List Block → Prop) :
    Blockchain → List (List Block) → Prop
  | genesis (g : Block) : g.height = 0 → Accepted C (init.append g).2 [[g]]
  | accept {bc : Blockchain} {chains : List (List Block)} {cache : MinerCache} {b p : Block}
      {l : List Block} : Accepted C bc chains → p :: l ∈ chains → bc.Appendable b p →
      bc.validateMinerSlot H cache b = .ok () → C bc cache b p l →
      Accepted C (bc.append b).2 ((b :: p :: l) :: chains)
  | updateMainTailIndex {bc : Blockchain} {chains : List (List Block)} :
      Accepted C bc chains → Accepted C bc.updateMainTailIndex.2 chains
  | irreversible {bc : Blockchain} {chains : List (List Block)} (k : ℤ) :
      Accepted C bc chains → Accepted C { bc with irreversibleBlock := k } chains

/-- The blocks of a miner in a round. -/
def OfMiner (miner : Address) (round : ℤ) (b : Block) : Prop :=
  b.minerPublicKey = miner ∧ H.roundNum b = round

instance (miner : Address) (round : ℤ) : DecidablePred (OfMiner H miner round) := fun b =>
  inferInstanceAs (Decidable (b.minerPublicKey = miner ∧ H.roundNum b = round))

/-- Two plain lists of committees agree on the rounds up to `r`. -/
def AgreeUpTo (L L' : Rounds) (r : ℤ) : Prop :=
  ∀ k ≤ r, L.committee k = L'.committee k ∧ L.slots k = L'.slots k

/-- The caches answer as the committees `L` of the branch of each block, which agree with those
    of its parent; and the block looked up for the quota is the ancestor of the block. -/
structure Supported (L : Block → Rounds) (bc : Blockchain) (cache : MinerCache) (b p : Block)
    (l : List Block) : Prop where
  consistent : Consistent cache (L b) (H.roundNum p) (H.roundNum b)
  agree : AgreeUpTo (L p) (L b) (H.roundNum p)
  ancestor : ∀ x ∈ p :: l, x.height = b.height - blocksPerMiner →
    bc.getBlockByHeight (b.height - blocksPerMiner) = .ok x

/-! ## The step -/

variable {H} {bc : Blockchain} {cache : MinerCache} {b p x y z : Block} {l : List Block}
  {L L' : Rounds} {n : ℤ}

theorem absoluteSlot_agree (h : AgreeUpTo L L' (H.roundNum p)) (hx : H.roundNum x ≤ H.roundNum p) :
    absoluteSlot L H x = absoluteSlot L' H x := by
  unfold absoluteSlot
  rw [(h _ hx).1, (h (H.roundNum x - 1) (by omega)).2]

theorem SlotLE.agree (h : AgreeUpTo L L' (H.roundNum p)) (hy : H.roundNum y ≤ H.roundNum p)
    (hle : SlotLE L H z y) : SlotLE L' H z y := by
  obtain ⟨hr, n, n', hz, hy', hn⟩ := hle
  exact ⟨hr, n, n', absoluteSlot_agree h (hr.trans hy) ▸ hz, absoluteSlot_agree h hy ▸ hy', hn⟩

/-- A slot belongs to one miner in one round. -/
theorem ofMiner_of_slot (hx : absoluteSlot L H x = some n) (hy : absoluteSlot L H y = some n) :
    OfMiner H (x.minerPublicKey) (H.roundNum x) y := by
  obtain ⟨s, m, k, hs, hm, hk, rfl⟩ := of_absoluteSlot hx
  obtain ⟨s', m', k', hs', hm', hk', heq⟩ := of_absoluteSlot hy
  have hkx := (List.idxOf?_eq_some_iff.1 hk).1
  have hky := (List.idxOf?_eq_some_iff.1 hk').1
  have hround : H.roundNum y = H.roundNum x := by
    rcases lt_trichotomy (H.roundNum x) (H.roundNum y) with hlt | he | hlt
    · have := slots_lt hs hm hkx hs' hlt
      omega
    · exact he.symm
    · have := slots_lt hs' hm' hky hs hlt
      omega
  refine ⟨?_, hround⟩
  rw [hround] at hs' hm'
  obtain rfl := Option.some.inj (hs.symm.trans hs')
  obtain rfl := Option.some.inj (hm.symm.trans hm')
  obtain rfl : k = k' := by omega
  exact ((List.idxOf?_eq_some_iff.1 hk').2.1).symm.trans (List.idxOf?_eq_some_iff.1 hk).2.1

/-- A block between two blocks of one slot is of that slot. -/
theorem SlotLE.ofMiner {miner : Address} {round : ℤ} (hz : OfMiner H miner round z)
    (hx : OfMiner H miner round x) (hzy : SlotLE L H z y) (hyx : SlotLE L H y x) :
    OfMiner H miner round y := by
  obtain ⟨-, n, n₁, hsz, hsy, hle⟩ := hzy
  obtain ⟨-, n₂, n', hsy', hsx, hle'⟩ := hyx
  obtain rfl := Option.some.inj (hsy.symm.trans hsy')
  have hsame : absoluteSlot L H z = absoluteSlot L H x := by
    unfold absoluteSlot
    rw [hz.1, hz.2, hx.1, hx.2]
  obtain rfl : n = n' := Option.some.inj (hsz.symm.trans (hsame.trans hsx))
  obtain rfl : n₁ = n := by omega
  have hy := ofMiner_of_slot hsx hsy
  rwa [hx.1, hx.2] at hy

/-- An accepted block has passed the checks of the order and of the quota. -/
theorem validateMinerSlot_ok (hb : bc.Appendable b p) (hgen : b.height ≠ 0)
    (h : bc.validateMinerSlot H cache b = .ok ()) :
    (∃ genesisTime, cache.validateMiningOrder p.minerPublicKey b.minerPublicKey (H.roundNum p)
      (H.roundNum b) (H.timestamp b) genesisTime = .ok ()) ∧
    ∀ x, 0 ≤ x.height → bc.getBlockByHeight (b.height - blocksPerMiner) = .ok x →
      x.height = b.height - blocksPerMiner → ¬ OfMiner H x.minerPublicKey (H.roundNum x) b := by
  unfold validateMinerSlot at h
  rw [if_neg (by simpa [Block.isGenesis] using hgen)] at h
  split at h
  · cases h
  rename_i hlast
  constructor
  · unfold verifyLastMiner at hlast
    split at hlast
    · cases hlast
    · cases hlast
    · rename_i pBlock genesis hparent _
      have hp : pBlock = p := by
        unfold getBlockByHash at hparent
        split_ifs at hparent
        rw [hb.child.1, Option.bind_some, show bc.db p.hash = some p from hb.parent] at hparent
        exact (Except.ok.inj hparent).symm
      exact ⟨_, hp ▸ hlast⟩
  · intro x hx hget hheight hof
    rw [if_pos (by omega), hget] at h
    have hno := (ite_eq_right_iff.1 h).mt (by simp)
    exact hno ⟨hof.1, hof.2.symm⟩

/-! ## Lists -/

/-- Elements of a kind that come first in a list leave no gap. -/
theorem getElem?_of_lt_countP {α : Type*} {P : α → Prop} [DecidablePred P] :
    ∀ {l : List α} {k : ℕ}, l.Pairwise (fun y z => P z → P y) → k < l.countP P →
      ∃ x, l[k]? = some x ∧ P x
  | [], _, _, hlt => by simp at hlt
  | y :: l, k, hpair, hlt => by
    obtain ⟨hy, htail⟩ := List.pairwise_cons.1 hpair
    by_cases hPy : P y
    · rw [List.countP_cons_of_pos (by simpa using hPy)] at hlt
      cases k with
      | zero => exact ⟨y, rfl, hPy⟩
      | succ k => exact getElem?_of_lt_countP (l := l) (k := k) htail (by omega)
    · have hnone : l.countP P = 0 :=
        List.countP_eq_zero.2 fun z hz hPz => hPy (hy z hz (by simpa using hPz))
      rw [List.countP_cons_of_neg (by simpa using hPy), hnone] at hlt
      omega

/-! ## The quota -/

variable (H L)

/-- A chain of ancestors, newest first: the heights count up from the genesis block, the slots
    are in order, and no miner has exceeded its quota. -/
structure Orderly (committees : Block → Rounds) (blocks : List Block) : Prop where
  height : ∀ (i : ℕ) (x : Block), blocks[i]? = some x → x.height = blocks.length - 1 - i
  order : ∀ b l, blocks = b :: l → blocks.Pairwise fun y z => SlotLE (committees b) H z y
  quota : ∀ miner round, blocks.countP (OfMiner H miner round) ≤ blocksPerMiner

variable {H L}
variable {committees : Block → Rounds}

theorem orderly_genesis {g : Block} (hg : g.height = 0) : Orderly H committees [g] where
  height i x hx := by
    obtain ⟨hlt, rfl⟩ := List.getElem?_eq_some_iff.1 hx
    obtain rfl : i = 0 := by simpa using hlt
    simpa using hg
  order b l _ := List.pairwise_singleton _ _
  quota miner round := List.countP_le_length.trans (show 1 ≤ blocksPerMiner by decide)

/-- The slots of the ancestors stay in order, under the committees of the new block. -/
theorem Orderly.slotLE (h : Orderly H committees (p :: l))
    (hagree : AgreeUpTo (committees p) (committees b) (H.roundNum p))
    (hpb : SlotLE (committees b) H p b) :
    (b :: p :: l).Pairwise fun y z => SlotLE (committees b) H z y := by
  have hpair := h.order p l rfl
  have hround : ∀ z ∈ p :: l, H.roundNum z ≤ H.roundNum p := by
    intro z hz
    rcases List.mem_cons.1 hz with rfl | hz
    · exact le_rfl
    · exact ((List.pairwise_cons.1 hpair).1 z hz).1
  have hpair' : (p :: l).Pairwise fun y z => SlotLE (committees b) H z y := by
    refine hpair.imp_of_mem fun {y z} hy _ hle => ?_
    exact SlotLE.agree hagree (hround y hy) hle
  refine List.pairwise_cons.2 ⟨fun z hz => ?_, hpair'⟩
  rcases List.mem_cons.1 hz with rfl | hz
  · exact hpb
  · exact ((List.pairwise_cons.1 hpair').1 z hz).trans hpb

/-- **One acceptance.** -/
theorem Orderly.accept (h : Orderly H committees (p :: l)) (hb : bc.Appendable b p)
    (hvalid : bc.validateMinerSlot H cache b = .ok ())
    (hsup : Supported H committees bc cache b p l) : Orderly H committees (b :: p :: l) := by
  have hph : p.height = l.length := by simpa using h.height 0 p rfl
  have hbh : b.height = l.length + 1 := by
    have := hb.child.2
    omega
  obtain ⟨⟨genesisTime, horder⟩, hlook⟩ := validateMinerSlot_ok hb (by omega) hvalid
  have hpassed : Passed H (committees b) genesisTime p b := ⟨cache, hsup.consistent, horder⟩
  have hslots := h.slotLE hsup.agree hpassed.slotLE
  have hheight : ∀ (i : ℕ) (x : Block), (b :: p :: l)[i]? = some x → x.height = (b :: p :: l).length - 1 - i := by
    intro i x hx
    cases i with
    | zero =>
      obtain rfl := Option.some.inj hx
      simpa using hbh
    | succ i =>
      have := h.height i x hx
      simp only [List.length_cons] at this ⊢
      push_cast at this ⊢
      omega
  refine ⟨hheight, ?_, fun miner round => ?_⟩
  · rintro b' l' ⟨rfl, rfl⟩
    exact hslots
  · by_contra hmore
    rw [not_le] at hmore
    have hbof : OfMiner H miner round b := by
      by_contra hnot
      rw [List.countP_cons_of_neg (by simpa using hnot)] at hmore
      exact absurd (h.quota miner round) (by omega)
    -- the blocks of the miner in the round are the newest ones
    have htop : (b :: p :: l).Pairwise fun y z => OfMiner H miner round z → OfMiner H miner round y := by
      refine hslots.imp_of_mem fun {y z} hy _ hle hz => ?_
      rcases List.mem_cons.1 hy with rfl | hy
      · exact hbof
      · exact SlotLE.ofMiner hz hbof hle ((List.pairwise_cons.1 hslots).1 y hy)
    obtain ⟨x, hx, hxof⟩ := getElem?_of_lt_countP htop hmore
    have hxh : x.height = b.height - blocksPerMiner := by
      have := hheight _ x hx
      simp only [List.length_cons] at this
      push_cast at this
      omega
    have hlen := (List.getElem?_eq_some_iff.1 hx).1
    have hmem : x ∈ p :: l := List.mem_of_getElem? (i := blocksPerMiner - 1) hx
    refine hlook x ?_ (hsup.ancestor x hmem hxh) hxh ?_
    · simp only [List.length_cons] at hlen
      omega
    · rw [hxof.1, hxof.2]
      exact hbof

/-- The chains of the ancestors of all accepted blocks, the block itself included. -/
theorem Accepted.orderly {chains : List (List Block)}
    (h : Accepted H (Supported H committees) bc chains) : ∀ c ∈ chains, Orderly H committees c := by
  induction h with
  | genesis g hg =>
    intro c hc
    obtain rfl := List.mem_singleton.1 hc
    exact orderly_genesis hg
  | accept _ hmem hb hvalid hsup ih =>
    intro c hc
    rcases List.mem_cons.1 hc with rfl | hc
    · exact (ih _ hmem).accept hb hvalid hsup
    · exact ih c hc
  | updateMainTailIndex _ ih => exact ih
  | irreversible _ _ ih => exact ih

/-- **Block quota**, in every run in which the block compared with is the ancestor. -/
theorem quota_of_supported (H : Headers) (committees : Block → Rounds) (bc : Blockchain)
    (chains : List (List Block)) (h : Accepted H (Supported H committees) bc chains) :
    ∀ c ∈ chains, ∀ miner round, c.countP (OfMiner H miner round) ≤ blocksPerMiner :=
  fun c hc => (h.orderly c hc).quota

/-! ## Concrete runs -/

/-- Two miners in one round, `"a"` before `"m"`. -/
def quotaHeaders : Headers where
  roundNum _ := 1
  timestamp b := if b.minerPublicKey = "a" then 100000000000 else 110000000000

def quotaCache : MinerCache := [⟨["a", "m"], 1, 2⟩]

def quotaGenesis : Block := ⟨"g", none, 0, "a", false⟩

def quotaBlock (hash parentHash : Hash) (height : ℤ) (miner : Address) : Block :=
  ⟨hash, some parentHash, height, miner, false⟩

theorem consistent_quotaCache : Consistent quotaCache [["a", "m"]] 1 1 where
  committee k miners hlo hhi hk := by
    obtain rfl : k = 1 := le_antisymm hhi hlo
    obtain rfl := Except.ok.inj hk
    rfl
  slots k slots hlo hhi hk := by
    obtain rfl : k = 0 := by omega
    obtain rfl := Except.ok.inj hk
    rfl

theorem Accepted.grow {C : Blockchain → MinerCache → Block → Block → List Block → Prop}
    {chains : List (List Block)} (h : Accepted H C bc chains) (hmem : p :: l ∈ chains)
    (hb : bc.Appendable b p) (hvalid : bc.validateMinerSlot H cache b = .ok ())
    (hC : C bc cache b p l) : Accepted H C (bc.grow b) ((b :: p :: l) :: chains) :=
  (h.accept hmem hb hvalid hC).updateMainTailIndex

theorem supported_quota (h : ∀ x ∈ p :: l, x.height = b.height - blocksPerMiner →
    bc.getBlockByHeight (b.height - blocksPerMiner) = .ok x) :
    Supported quotaHeaders (fun _ => [["a", "m"]]) bc quotaCache b p l where
  consistent := consistent_quotaCache
  agree _ _ := ⟨rfl, rfl⟩
  ancestor := h

/-- The chain of the genesis block and a block of each miner. -/
def quotaPair : Blockchain :=
  grow (grow (init.append quotaGenesis).2 (quotaBlock "x1" "g" 1 "a")) (quotaBlock "x2" "x1" 2 "m")

theorem accepted_quotaPair :
    Accepted quotaHeaders (Supported quotaHeaders fun _ => [["a", "m"]]) quotaPair
      [[quotaBlock "x2" "x1" 2 "m", quotaBlock "x1" "g" 1 "a", quotaGenesis],
        [quotaBlock "x1" "g" 1 "a", quotaGenesis], [quotaGenesis]] := by
  have h₀ : Accepted quotaHeaders (Supported quotaHeaders fun _ => [["a", "m"]])
      (init.append quotaGenesis).2 [[quotaGenesis]] := .genesis _ rfl
  have h₁ := h₀.grow (b := quotaBlock "x1" "g" 1 "a") List.mem_cons_self (by decide) (by decide)
    (supported_quota (by decide))
  exact h₁.grow List.mem_cons_self (by decide) (by decide) (supported_quota (by decide))

theorem quota_of_supported_pair :
    [quotaBlock "x2" "x1" 2 "m", quotaBlock "x1" "g" 1 "a", quotaGenesis].countP (OfMiner quotaHeaders "a" 1) ≤
      blocksPerMiner :=
  quota_of_supported quotaHeaders (fun _ => [["a", "m"]]) quotaPair _ accepted_quotaPair _ List.mem_cons_self "a" 1

/-- A main fork on which `"a"` and `"m"` mine two blocks each, and a side fork on which `"m"`
    mines three: the third is compared with the block of `"a"` on the main fork. -/
def quotaForks : Blockchain :=
  grow (grow (grow (grow quotaPair (quotaBlock "x3" "x2" 3 "m")) (quotaBlock "y1" "g" 1 "m"))
    (quotaBlock "y2" "y1" 2 "m")) (quotaBlock "y3" "y2" 3 "m")

theorem Accepted.growQuota {chains : List (List Block)} (h : Accepted quotaHeaders (fun _ _ _ _ _ => True) bc chains)
    (hmem : p :: l ∈ chains) (hb : bc.Appendable b p)
    (hvalid : bc.validateMinerSlot quotaHeaders quotaCache b = .ok ()) :
    Accepted quotaHeaders (fun _ _ _ _ _ => True) (bc.grow b) ((b :: p :: l) :: chains) :=
  h.grow hmem hb hvalid trivial

theorem accepted_quotaForks : ∃ chains,
    Accepted quotaHeaders (fun _ _ _ _ _ => True) quotaForks chains ∧
      [quotaBlock "y3" "y2" 3 "m", quotaBlock "y2" "y1" 2 "m", quotaBlock "y1" "g" 1 "m",
        quotaGenesis] ∈ chains := by
  have h₀ : Accepted quotaHeaders (fun _ _ _ _ _ => True) (init.append quotaGenesis).2
      [[quotaGenesis]] := .genesis _ rfl
  have h₁ := h₀.growQuota (b := quotaBlock "x1" "g" 1 "a") List.mem_cons_self (by decide)
    (by decide)
  have h₂ := h₁.growQuota (b := quotaBlock "x2" "x1" 2 "m") List.mem_cons_self (by decide)
    (by decide)
  have h₃ := h₂.growQuota (b := quotaBlock "x3" "x2" 3 "m") List.mem_cons_self (by decide)
    (by decide)
  have h₄ := h₃.growQuota (b := quotaBlock "y1" "g" 1 "m") (p := quotaGenesis)
    (l := []) (by simp) (by decide) (by decide)
  have h₅ := h₄.growQuota (b := quotaBlock "y2" "y1" 2 "m") List.mem_cons_self (by decide)
    (by decide)
  have h₆ := h₅.growQuota (b := quotaBlock "y3" "y2" 3 "m") List.mem_cons_self (by decide)
    (by decide)
  exact ⟨_, h₆, by simp⟩

theorem not_quota : ¬ ∀ (H : Headers) (bc : Blockchain) (chains : List (List Block)),
    Accepted H (fun _ _ _ _ _ => True) bc chains →
      ∀ c ∈ chains, ∀ miner round, c.countP (OfMiner H miner round) ≤ blocksPerMiner := by
  intro h
  obtain ⟨chains, haccepted, hmem⟩ := accepted_quotaForks
  exact absurd (h quotaHeaders quotaForks chains haccepted _ hmem "m" 1) (by decide)

end Blockchain

end Timbre
