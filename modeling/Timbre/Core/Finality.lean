/-
  Finality: what the syncer does with a block, and when a switch to another fork leaves the
  blocks below the irreversible block number alone.
-/
import Mathlib.Data.List.InsertIdx
import Mathlib.Data.Set.Function
import Timbre.Core.Blockchain

namespace Timbre
namespace Blockchain

/-! ## The source -/

/-- What the syncer is given for one block: the block, the committee size when the states of
    a block are updated and when a fork is switched, and the number of blocks of the new fork
    that pass their validation. -/
structure SyncInput where
  block : Block
  comitteeSize : Block → UInt32
  switchSize : UInt32
  numberOfToMineBlockPerSlot : ℕ
  validated : ℕ

/-- The part of `UpdateStates` that touches the chain. -/
def updateStates (inp : SyncInput) (bc : Blockchain) (b : Block) : Blockchain :=
  bc.updateIrreversibleBlockNumber b.minerPublicKey (inp.comitteeSize b)
    inp.numberOfToMineBlockPerSlot

/-- The first loop of `SwitchFork` after the reverts: `n` blocks back, or nil. -/
def goBack (bc : Blockchain) : ℕ → Option Block → Option Block
  | 0, b => b
  | _ + 1, none => none
  | n + 1, some b => goBack bc n (bc.getBlockByHash b.parentHash).toOption

/-- The second loop of `SwitchFork`, which puts back the miners of older blocks. -/
def addMiners (inp : SyncInput) (bc : Blockchain) : ℕ → Option Block → Except Err Blockchain
  | 0, _ => .ok bc
  | _ + 1, none => .error (.panic "invalid memory address or nil pointer dereference")
  | n + 1, some b =>
    match bc.getBlockByHash b.parentHash with
    | .error _ => .ok bc
    | .ok p => addMiners inp (bc.addMinerToIrreversibleBlockNumberCacheWhileReverting p.minerPublicKey
        inp.switchSize inp.numberOfToMineBlockPerSlot) n (some p)

/-- `SwitchFork`: the blocks are rolled back newest first and processed oldest first. -/
def switchFork (inp : SyncInput) (bc : Blockchain) (sw : Switch) : Except Err Blockchain := do
  let bc := sw.blocksToRollBack.foldl (fun bc _ => bc.updateIrreversibleBlockNumberWhileReverting) bc
  match sw.blocksToRollBack.getLast? with
  | none => .error (.panic "index out of range [-1]")
  | some lastblockToRevert =>
    let goBackblock := bc.last2by3MinedCommitteeMembers.length
    let lastblockToRevert := bc.goBack goBackblock (some lastblockToRevert)
    let counter := size2by3 inp.switchSize * inp.numberOfToMineBlockPerSlot - goBackblock
    let bc ← addMiners inp bc counter lastblockToRevert
    return (sw.blocksToProcess.reverse.take inp.validated).foldl (updateStates inp) bc

/-- The end of `IterateCheckAndAddChain` for a block that passed the validation: `Append`,
    `UpdateMainTailIndex` and the update of the states. -/
def syncBlock (inp : SyncInput) (bc : Blockchain) : Except Err Blockchain :=
  match bc.append inp.block with
  | (some _, bc) => .ok bc
  | (none, bc) =>
    let (res, bc) := bc.updateMainTailIndex
    let sw := match res with
      | .ok sw => sw
      | .error _ => noSwitch
    if sw.blocksToProcess.length > 0 then switchFork inp bc sw
    else if bc.isInMainFork inp.block then .ok (updateStates inp bc inp.block)
    else .ok bc

/-- The blocks that `Validate` accepts: the genesis block of an empty chain, and a new child
    of a stored block. -/
def Valid (bc : Blockchain) (b : Block) : Prop :=
  (bc.isEmpty ∧ b.isGenesis ∧ b.parentHash = none) ∨
    (bc.isEmpty = false ∧ bc.db b.hash = none ∧ ∃ p, bc.db p.hash = some p ∧ p.isValidParentOf b)

/-- The chains that a syncer reaches on blocks of `U`. -/
inductive SyncRun (U : Set Block) : Blockchain → Prop
  | init : SyncRun U init
  | block {bc bc' : Blockchain} (inp : SyncInput) : SyncRun U bc → inp.block ∈ U →
      bc.Valid inp.block → syncBlock inp bc = .ok bc' → SyncRun U bc'

/-! ## What finality means -/

/-- `UpdateMainTailIndex` rolls back no block below the irreversible block number. -/
def RollsBackNothingFinal (bc : Blockchain) : Prop :=
  ∀ sw bc', bc.updateMainTailIndex = (.ok sw, bc') →
    ∀ b ∈ sw.blocksToRollBack, bc.irreversibleBlock ≤ b.height

/-- Finality over the runs of the syncer, block hashes being distinct for distinct blocks. -/
def Final : Prop :=
  ∀ U : Set Block, Set.InjOn Block.hash U → ∀ bc, SyncRun U bc → ∀ b ∈ U, bc.Valid b →
    RollsBackNothingFinal (bc.append b).2

/-- `c` is `t` or reached from `t` along stored parents. -/
inductive Ancestor (bc : Blockchain) (c : Block) : Block → Prop
  | refl : Ancestor bc c c
  | step {t p} : bc.getBlockByHash t.parentHash = .ok p → Ancestor bc c p → Ancestor bc c t

/-- Every tail above the main tail has left the main fork at or above the last block that is
    not yet irreversible: it has an ancestor on the main fork whose child is not below the
    irreversible block number. -/
def ForksAboveFinal (bc : Blockchain) : Prop :=
  ∀ m, bc.getMainTail = some m → ∀ t ∈ bc.tails, m.height < t.height →
    ∃ c, bc.Ancestor c t ∧ bc.isInMainFork c ∧ c.height ≤ m.height ∧
      bc.irreversibleBlock ≤ c.height + 1

/-- Ancestors do not depend on which tail is the main one. -/
theorem Ancestor.of_index {bc : Blockchain} {c t : Block} (h : bc.Ancestor c t) (i : ℤ) :
    Ancestor { bc with mainTailIndex := i } c t := by
  induction h with
  | refl => exact .refl
  | step hp _ ih => exact .step hp ih

/-! ## Heights along the walks -/

/-- All blocks of the chain come from a set `A`, closed under parents, on which hashes are
    distinct and parents are one lower; the fork lengths are the heights of the tails. -/
structure Graded (A : Set Block) (bc : Blockchain) : Prop where
  stored : ∀ h b, bc.db h = some b → b.hash = h ∧ b ∈ A
  tails : ∀ t ∈ bc.tails, t ∈ A
  injOn : Set.InjOn Block.hash A
  nonneg : ∀ b ∈ A, 0 ≤ b.height
  linked : ∀ b ∈ A, ∀ p ∈ A, b.parentHash = some p.hash → b.height = p.height + 1
  closed : ∀ b ∈ A, b.parentHash = none ∨ ∃ p ∈ A, b.parentHash = some p.hash
  forkLengths : (bc.isEmpty = false ∧ bc.forkLengths = bc.tails.map Block.height) ∨
    (bc.isEmpty = true ∧ bc.tails = [] ∧ bc.forkLengths = [0] ∧ A = ∅)

variable {bc : Blockchain} {A : Set Block}

theorem Graded.mem_of_get (hg : Graded A bc) {hash : Option Hash} {p : Block}
    (h : bc.getBlockByHash hash = .ok p) : p ∈ A ∧ hash = some p.hash := by
  obtain ⟨-, h, rfl, hdb⟩ := getBlockByHash_ok.1 h
  obtain ⟨rfl, hp⟩ := hg.stored _ _ hdb
  exact ⟨hp, rfl⟩

theorem Graded.parent (hg : Graded A bc) {b p : Block} (hb : b ∈ A)
    (h : bc.getBlockByHash b.parentHash = .ok p) : p ∈ A ∧ b.height = p.height + 1 := by
  obtain ⟨hp, hhash⟩ := hg.mem_of_get h
  exact ⟨hp, hg.linked b hb p hp hhash⟩

theorem Graded.of_map (hg : Graded A bc) {map : ℤ → Option Hash} {i k : ℤ} {members : List Address} :
    Graded A { bc with
      mainForkMap := map, mainTailIndex := i, irreversibleBlock := k,
      last2by3MinedCommitteeMembers := members } :=
  ⟨hg.stored, hg.tails, hg.injOn, hg.nonneg, hg.linked, hg.closed, hg.forkLengths⟩

theorem Graded.ancestor_height (hg : Graded A bc) {c t : Block} (ht : t ∈ A)
    (h : bc.Ancestor c t) : c.height ≤ t.height := by
  induction h with
  | refl => exact le_rfl
  | step hp _ ih =>
    obtain ⟨hpA, hheight⟩ := hg.parent ht hp
    have := ih hpA
    omega

/-- The descent to the height of the main tail does not pass an ancestor at that height. -/
theorem levelWith_ancestor (hg : Graded A bc) {m c : Block} (hcm : c.height ≤ m.height) :
    ∀ {fuel : ℕ} {t a : Block}, t ∈ A → bc.Ancestor c t → bc.levelWith m fuel t = .ok a →
      a ∈ A ∧ bc.Ancestor c a
  | 0, t, a, _, _, h => by simp [levelWith] at h
  | fuel + 1, t, a, ht, hanc, h => by
    rw [levelWith] at h
    split_ifs at h with hgt
    · cases hanc with
      | refl => exact absurd hgt (not_lt.2 hcm)
      | @step _ p hp hanc =>
        rw [hp] at h
        exact levelWith_ancestor hg hcm (hg.parent ht hp).1 hanc h
    · obtain rfl : t = a := by simpa using h
      exact ⟨ht, hanc⟩

/-- The descent to the main fork ends at an ancestor on the main fork or above it. -/
theorem descend_ancestor (hg : Graded A bc) {c : Block} (hc : bc.isInMainFork c) :
    ∀ {fuel : ℕ} {t a : Block}, t ∈ A → bc.Ancestor c t → bc.descend fuel t = .ok a →
      a ∈ A ∧ c.height ≤ a.height
  | 0, t, a, _, _, h => by simp [descend] at h
  | fuel + 1, t, a, ht, hanc, h => by
    rw [descend] at h
    cases hmain : bc.getBlockByHeight t.height with
    | error e => simp [hmain, bind, Except.bind] at h
    | ok x =>
      simp only [hmain, bind, Except.bind] at h
      cases hanc with
      | refl =>
        -- the map holds `c`, so the block it gives has the hash of `c`
        have hx : x.hash = c.hash := by
          rw [isInMainFork, decide_eq_true_iff] at hc
          rw [getBlockByHeight, hc] at hmain
          exact (Option.some.inj (hg.mem_of_get hmain).2).symm
        rw [if_pos hx] at h
        obtain rfl : c = a := by simpa using h
        exact ⟨ht, le_rfl⟩
      | @step _ p hp hanc =>
        split_ifs at h with hsame
        · obtain rfl : t = a := by simpa using h
          exact ⟨ht, hg.ancestor_height ht (.step hp hanc)⟩
        · rw [hp] at h
          exact descend_ancestor hg hc (hg.parent ht hp).1 hanc h

/-- The blocks loaded on the way down to `c` are all above `c`. -/
theorem loadFrom_above (hg : Graded A bc) {c : Block} (hc : c ∈ A) :
    ∀ {fuel : ℕ} {t : Block} {R : List Block}, t ∈ A → bc.loadFrom c fuel t = .ok R →
      c.height ≤ t.height ∧ ∀ x ∈ R, c.height < x.height
  | 0, t, R, _, h => by simp [loadFrom] at h
  | fuel + 1, t, R, ht, h => by
    rw [loadFrom] at h
    split_ifs at h with hsame
    · obtain rfl : [] = R := by simpa using h
      exact ⟨(hg.injOn hc ht hsame.symm ▸ le_rfl), by simp⟩
    · cases hp : bc.getBlockByHash t.parentHash with
      | error e => simp [hp, bind, Except.bind] at h
      | ok p =>
        cases hrest : bc.loadFrom c fuel p with
        | error e => simp [hp, hrest, bind, Except.bind] at h
        | ok R' =>
          obtain rfl : t :: R' = R := by simpa [hp, hrest, bind, Except.bind, pure, Except.pure] using h
          obtain ⟨hpA, hheight⟩ := hg.parent ht hp
          obtain ⟨hle, hall⟩ := loadFrom_above hg hc hpA hrest
          refine ⟨by omega, ?_⟩
          intro x hx
          rcases List.mem_cons.1 hx with rfl | hx
          · omega
          · exact hall x hx

/-- **A switch to a fork that left the main fork late enough** rolls back nothing final. -/
theorem forked_above (hg : Graded A bc) {m t c : Block} {i : ℕ} {sw : Switch} {bc' : Blockchain}
    (hm : bc.getMainTail = some m) (hmA : m ∈ A) (ht : t ∈ A) (hanc : bc.Ancestor c t)
    (hc : bc.isInMainFork c) (hcm : c.height ≤ m.height) (hfork : bc.forked t i = .ok (sw, bc')) :
    bc' = { bc with mainTailIndex := i } ∧ ∀ x ∈ sw.blocksToRollBack, c.height < x.height := by
  simp only [forked, hm, bind, Except.bind] at hfork
  cases hfind : bc.findCommonAncestor t with
  | error e => simp [hfind] at hfork
  | ok a =>
    simp only [hfind] at hfork
    simp only [findCommonAncestor, hm, bind, Except.bind] at hfind
    cases hlevel : bc.levelWith m (t.height.toNat + 1) t with
    | error e => simp [hlevel] at hfind
    | ok b =>
      simp only [hlevel] at hfind
      obtain ⟨hb, hancb⟩ := levelWith_ancestor hg hcm ht hanc hlevel
      obtain ⟨ha, hca⟩ := descend_ancestor hg hc hb hancb hfind
      cases hR : bc.loadBlocksFromTo m a with
      | error e => simp [hR] at hfork
      | ok R =>
        cases hP : bc.loadBlocksFromTo t a with
        | error e => simp [hR, hP] at hfork
        | ok P =>
          simp only [hR, hP, pure, Except.pure, Except.ok.injEq, Prod.mk.injEq] at hfork
          obtain ⟨rfl, rfl⟩ := hfork
          refine ⟨rfl, fun x hx => ?_⟩
          exact hca.trans_lt ((loadFrom_above hg ha hmA hR).2 x hx)

/-- The loop over the tails: every switch it makes is late enough.  `bc₀` is the chain when
    the loop starts; only the index of the main tail changes. -/
theorem longestFork_above {bc₀ : Blockchain} {m₀ : Block} (hg : Graded A bc₀)
    (hforks : ∀ t ∈ bc₀.tails, m₀.height < t.height → ∃ c, bc₀.Ancestor c t ∧ bc₀.isInMainFork c ∧
      c.height ≤ m₀.height ∧ bc₀.irreversibleBlock ≤ c.height + 1)
    (hlen : bc₀.forkLengths = bc₀.tails.map Block.height) :
    ∀ {ts : List Block} {j k : ℕ} {m : Block} {res sw : Switch} {bc' : Blockchain},
      bc₀.tails.drop j = ts → bc₀.tails[k]? = some m → m₀.height ≤ m.height →
      (∀ x ∈ res.blocksToRollBack, bc₀.irreversibleBlock ≤ x.height) →
      longestFork { bc₀ with mainTailIndex := k } m.height res j ts = (.ok sw, bc') →
      ∀ x ∈ sw.blocksToRollBack, bc₀.irreversibleBlock ≤ x.height
  | [], j, k, m, res, sw, bc', _, _, _, hres, h => by
    simp only [longestFork, Prod.mk.injEq, Except.ok.injEq] at h
    rw [← h.1]
    exact hres
  | t :: ts, j, k, m, res, sw, bc', hdrop, hk, hmm, hres, h => by
    have hj : bc₀.tails[j]? = some t := by
      rw [← List.head?_drop, hdrop]
      rfl
    have hfl : bc₀.forkLengths[j]? = some t.height := by rw [hlen, List.getElem?_map, hj]; rfl
    have hnext : bc₀.tails.drop (j + 1) = ts := by
      rw [← List.drop_drop, hdrop]
      rfl
    rw [longestFork] at h
    simp only [hfl] at h
    split_ifs at h with hgt
    · obtain ⟨c, hanc, hc, hcm, hirr⟩ := hforks t (List.mem_of_getElem? hj) (hmm.trans_lt hgt)
      have htA := hg.tails t (List.mem_of_getElem? hj)
      cases hfork : forked { bc₀ with mainTailIndex := (k : ℤ) } t j with
      | error e => simp [hfork] at h
      | ok r =>
        obtain ⟨sw₁, bc₁⟩ := r
        simp only [hfork] at h
        have hg' : Graded A { bc₀ with mainTailIndex := (k : ℤ) } := hg.of_map
        have hanc' : Ancestor { bc₀ with mainTailIndex := (k : ℤ) } c t := hanc.of_index k
        have hmain : getMainTail { bc₀ with mainTailIndex := (k : ℤ) } = some m := by
          simp [getMainTail, tailAt, hk]
        obtain ⟨rfl, hroll⟩ := forked_above hg' hmain (hg.tails m (List.mem_of_getElem? hk)) htA hanc' hc
          (hcm.trans hmm) hfork
        refine longestFork_above hg hforks hlen hnext hj (hmm.trans hgt.le) (fun x hx => ?_) h
        have := hroll x hx
        omega
    · exact longestFork_above hg hforks hlen hnext hk hmm hres h

/-- Without a main tail nothing is switched. -/
theorem longestFork_noTail (hm : bc.getMainTail = none) {M : ℤ} {res sw : Switch} {bc' : Blockchain} :
    ∀ {ts : List Block} {j : ℕ}, bc.longestFork M res j ts = (.ok sw, bc') → sw = res
  | [], j, h => by
    simp only [longestFork, Prod.mk.injEq, Except.ok.injEq] at h
    exact h.1.symm
  | t :: ts, j, h => by
    rw [longestFork] at h
    cases hfl : bc.forkLengths[j]? with
    | none => simp [hfl] at h
    | some n =>
      simp only [hfl] at h
      split_ifs at h with hgt
      · simp [forked, hm] at h
      · exact longestFork_noTail hm h

/-- **One call**: where every higher tail has left the main fork late enough, nothing final
    is rolled back. -/
theorem rollsBackNothingFinal (hg : Graded A bc) (hforks : bc.ForksAboveFinal) :
    RollsBackNothingFinal bc := by
  intro sw bc' h
  unfold updateMainTailIndex at h
  cases hloop : bc.longestFork bc.length noSwitch 0 bc.tails with
  | mk r bc₁ =>
    cases r with
    | error e => simp [hloop] at h
    | ok sw₁ =>
      obtain rfl : sw₁ = sw := by
        simp only [hloop, Prod.mk.injEq, Except.ok.injEq] at h
        exact h.1
      cases hm : bc.getMainTail with
      | none =>
        rw [longestFork_noTail hm hloop]
        simp [noSwitch]
      | some m =>
        have hk := hm
        unfold getMainTail tailAt at hk
        split_ifs at hk with h0
        rcases hg.forkLengths with ⟨hne, hlen⟩ | ⟨-, hnil, -⟩
        swap
        · simp [hnil] at hk
        have hindex : (bc.mainTailIndex.toNat : ℤ) = bc.mainTailIndex := Int.toNat_of_nonneg (by omega)
        have hM : bc.length = m.height := by
          simp [length, hne, hlen, hk]
        have hself : bc = { bc with mainTailIndex := (bc.mainTailIndex.toNat : ℤ) } := by rw [hindex]
        rw [hM, hself] at hloop
        exact longestFork_above hg (hforks m hm) hlen List.drop_zero hk le_rfl (by simp [noSwitch]) hloop

/-! ## The blocks of a run -/

theorem Graded.append (hg : Graded A bc) {b : Block} {U : Set Block} (hU : Set.InjOn Block.hash U)
    (hAU : A ⊆ U) (hb : b ∈ U) (hvalid : bc.Valid b) :
    Graded (insert b A) (bc.append b).2 := by
  have hinj : Set.InjOn Block.hash (insert b A) := hU.mono (Set.insert_subset hb hAU)
  rcases hvalid with ⟨hempty, hgen, hroot⟩ | ⟨hne, hfresh, p, hp, hchild⟩
  · -- the genesis block of an empty chain
    rcases hg.forkLengths with ⟨hne, -⟩ | ⟨-, htails, hlen, rfl⟩
    · rw [hempty] at hne
      exact absurd hne (by simp)
    have hdb : bc.db b.hash = none := by
      cases h : bc.db b.hash with
      | none => rfl
      | some x => exact absurd (hg.stored _ _ h).2 (Set.notMem_empty x)
    have h0 : b.height = 0 := by simpa [Block.isGenesis] using hgen
    have happ : (bc.append b).2 = { bc with
        db := Function.update bc.db b.hash (some b)
        genesis := some b
        tails := [b]
        mainTailIndex := 0 } := by
      simp [append, putBlock, hgen, hroot, hdb, htails]
    rw [happ]
    refine ⟨?_, ?_, hinj, ?_, ?_, ?_, .inl ⟨rfl, by simp [hlen, h0]⟩⟩
    · intro h x hx
      by_cases hh : h = b.hash
      · subst hh
        simp only [Function.update_self, Option.some.injEq] at hx
        exact ⟨hx ▸ rfl, hx ▸ Set.mem_insert b ∅⟩
      · simp only [Function.update_of_ne hh] at hx
        exact absurd (hg.stored _ _ hx).2 (Set.notMem_empty x)
    · intro t ht
      rw [List.mem_singleton.1 ht]
      exact Set.mem_insert b ∅
    · rintro x (rfl | hx)
      · exact h0.ge
      · exact absurd hx (Set.notMem_empty x)
    · rintro x (rfl | hx) q _ hxq
      · rw [hroot] at hxq
        exact absurd hxq (by simp)
      · exact absurd hx (Set.notMem_empty x)
    · rintro x (rfl | hx)
      · exact .inl hroot
      · exact absurd hx (Set.notMem_empty x)
  · -- a child of a stored block
    have hpA : p ∈ A := (hg.stored _ _ hp).2
    have hp0 := hg.nonneg p hpA
    have hheight := hchild.2
    have hgen : b.isGenesis = false := by
      rw [Block.isGenesis, decide_eq_false_iff_not]
      omega
    have hlen : bc.forkLengths = bc.tails.map Block.height := by
      rcases hg.forkLengths with ⟨-, hlen⟩ | ⟨hempty, -⟩
      · exact hlen
      · rw [hne] at hempty
        exact absurd hempty (by simp)
    obtain ⟨tails, happ, htails⟩ : ∃ tails, (bc.append b).2 = { bc with
        db := Function.update bc.db b.hash (some b)
        tails := tails
        forkLengths := tails.map Block.height } ∧ ∀ t ∈ tails, t = b ∨ t ∈ bc.tails := by
      have happ := append_child hne hfresh hp hchild.1 hgen
      cases hidx : bc.indexInTails p with
      | none =>
        refine ⟨bc.tails ++ [b], ?_, ?_⟩
        · rw [happ, hidx, List.map_append, ← hlen]
          rfl
        · intro t ht
          rcases List.mem_append.1 ht with ht | ht
          · exact .inr ht
          · exact .inl (List.mem_singleton.1 ht)
      | some i =>
        refine ⟨bc.tails.set i b, ?_, ?_⟩
        · rw [happ, hidx, hlen, List.map_set]
          rfl
        · intro t ht
          exact (List.mem_or_eq_of_mem_set ht).symm
    rw [happ]
    refine ⟨?_, ?_, hinj, ?_, ?_, ?_, .inl ⟨hne, rfl⟩⟩
    · intro h x hx
      by_cases hh : h = b.hash
      · subst hh
        simp only [Function.update_self, Option.some.injEq] at hx
        exact ⟨hx ▸ rfl, hx ▸ Set.mem_insert b A⟩
      · simp only [Function.update_of_ne hh] at hx
        exact ⟨(hg.stored _ _ hx).1, Set.mem_insert_of_mem _ (hg.stored _ _ hx).2⟩
    · intro t ht
      rcases htails t ht with rfl | ht
      · exact Set.mem_insert t A
      · exact Set.mem_insert_of_mem _ (hg.tails t ht)
    · rintro x (rfl | hx)
      · omega
      · exact hg.nonneg x hx
    · rintro x (rfl | hx) q hq hxq
      · have hqp : q = p := hinj hq (Set.mem_insert_of_mem _ hpA)
          (Option.some.inj (hxq.symm.trans hchild.1))
        rw [hqp]
        omega
      · rcases hq with rfl | hq
        · -- a child stored before its parent: the parent is an older copy of the block
          rcases hg.closed x hx with hnone | ⟨r, hr, hxr⟩
          · rw [hnone] at hxq
            exact absurd hxq (by simp)
          · have hrq : r = q := hinj (Set.mem_insert_of_mem _ hr) (Set.mem_insert q A)
              (Option.some.inj (hxr.symm.trans hxq))
            exact hg.linked x hx q (hrq ▸ hr) hxq
        · exact hg.linked x hx q hq hxq
    · rintro x (rfl | hx)
      · exact .inr ⟨p, Set.mem_insert_of_mem _ hpA, hchild.1⟩
      · rcases hg.closed x hx with hnone | ⟨r, hr, hxr⟩
        · exact .inl hnone
        · exact .inr ⟨r, Set.mem_insert_of_mem _ hr, hxr⟩

theorem longestFork_state : ∀ {ts : List Block} {bc : Blockchain} {M : ℤ} {res : Switch} {j : ℕ},
    ∃ i, (bc.longestFork M res j ts).2 = { bc with mainTailIndex := i }
  | [], bc, _, _, _ => ⟨bc.mainTailIndex, rfl⟩
  | t :: ts, bc, M, res, j => by
    rw [longestFork]
    cases hfl : bc.forkLengths[j]? with
    | none => exact ⟨bc.mainTailIndex, rfl⟩
    | some n =>
      dsimp only
      split_ifs with hgt
      · cases hfork : bc.forked t j with
        | error e => exact ⟨bc.mainTailIndex, rfl⟩
        | ok r =>
          have hr : r.2 = { bc with mainTailIndex := (j : ℤ) } := by
            simp only [forked] at hfork
            cases hm : bc.getMainTail with
            | none => simp [hm] at hfork
            | some m =>
              simp only [hm, bind, Except.bind] at hfork
              split at hfork
              · exact absurd hfork (by simp)
              · split at hfork
                · exact absurd hfork (by simp)
                · split at hfork
                  · exact absurd hfork (by simp)
                  · rw [← Except.ok.inj hfork]
          obtain ⟨i, hi⟩ := @longestFork_state ts r.2 n r.1 (j + 1)
          rw [hr] at hi
          refine ⟨i, ?_⟩
          dsimp only
          rw [hr]
          exact hi
      · exact longestFork_state

theorem updateMainForkMapFrom_state : ∀ {fuel : ℕ} {bc : Blockchain} {b : Block},
    ∃ map, bc.updateMainForkMapFrom fuel b = { bc with mainForkMap := map }
  | 0, bc, _ => ⟨bc.mainForkMap, rfl⟩
  | fuel + 1, bc, b => by
    rw [updateMainForkMapFrom]
    split_ifs with hin hroot
    · exact ⟨bc.mainForkMap, rfl⟩
    · exact ⟨(bc.enterMainFork b).mainForkMap, rfl⟩
    · cases hp : (bc.enterMainFork b).getBlockByHash b.parentHash with
      | error e =>
        simp only [hp]
        exact ⟨(bc.enterMainFork b).mainForkMap, rfl⟩
      | ok p =>
        obtain ⟨map, hmap⟩ := @updateMainForkMapFrom_state fuel (bc.enterMainFork b) p
        simp only [hp, hmap]
        exact ⟨map, rfl⟩

/-- Removing a block leaves blocks of `A` only. -/
theorem Graded.removeBlock (hg : Graded A bc) (behind : List Block) (b : Block) :
    Graded A (bc.removeBlock behind b).1 := by
  unfold Blockchain.removeBlock
  split_ifs with hin
  · exact hg
  split
  · next parent tIndex hparent hidx =>
    have hstored : ∀ h x, Function.update bc.db b.hash none h = some x → x.hash = h ∧ x ∈ A := by
      intro h x hx
      by_cases hh : h = b.hash
      · simp [hh] at hx
      · rw [Function.update_of_ne hh] at hx
        exact hg.stored h x hx
    have hlen : bc.isEmpty = false ∧ bc.forkLengths = bc.tails.map Block.height := by
      rcases hg.forkLengths with h | ⟨-, hnil, -⟩
      · exact h
      · simp [indexInTails, hnil] at hidx
    split_ifs with hmain
    · refine ⟨hstored, ?_, hg.injOn, hg.nonneg, hg.linked, hg.closed, .inl ⟨hlen.1, ?_⟩⟩
      · exact fun t ht => hg.tails t ((List.eraseIdx_sublist _ _).subset ht)
      · rw [hlen.2]
        exact List.eraseIdx_map _ _ _
    · refine ⟨hstored, ?_, hg.injOn, hg.nonneg, hg.linked, hg.closed, .inl ⟨hlen.1, ?_⟩⟩
      · intro t ht
        rcases List.mem_or_eq_of_mem_set ht with ht | rfl
        · exact hg.tails t ht
        · exact (hg.mem_of_get hparent).1
      · rw [hlen.2, List.map_set]
  · exact hg

theorem Graded.deleteFrom : ∀ {fuel : ℕ} {bc : Blockchain} {behind : List Block} {b : Block},
    Graded A bc → Graded A (bc.deleteFrom behind fuel b).1
  | 0, _, _, _, hg => hg
  | fuel + 1, bc, behind, b, hg => by
    rw [Blockchain.deleteFrom]
    split_ifs with hin
    · exact hg
    · have hg' := hg.removeBlock behind b
      dsimp only
      split
      · exact hg'
      · exact hg'.deleteFrom

theorem Graded.pruneFrom : ∀ {remaining i : ℕ} {bc : Blockchain} {behind : List Block},
    Graded A bc → Graded A (bc.pruneFrom behind i remaining)
  | 0, _, _, _, hg => hg
  | remaining + 1, i, bc, behind, hg => by
    rw [Blockchain.pruneFrom]
    split
    · exact hg
    · next tail _ =>
      split_ifs with hlow
      · have hg' : Graded A (bc.deleteFork behind tail).1 := by
          unfold deleteFork
          split
          · exact hg
          · exact hg.deleteFrom
        exact hg'.pruneFrom
      · exact hg.pruneFrom

theorem Graded.updateMainTailIndex (hg : Graded A bc) : Graded A bc.updateMainTailIndex.2 := by
  obtain ⟨i, hi⟩ := @longestFork_state bc.tails bc bc.length noSwitch 0
  have hg₁ : Graded A { bc with mainTailIndex := i } := hg.of_map
  unfold Blockchain.updateMainTailIndex
  split
  · next e bc₁ h =>
    rw [h] at hi
    obtain rfl : bc₁ = _ := hi
    exact hg₁
  · next res bc₁ h =>
    rw [h] at hi
    obtain rfl : bc₁ = _ := hi
    refine Graded.pruneFrom ?_
    unfold updateMainForkMap
    split
    · exact hg₁
    · obtain ⟨map, hmap⟩ := updateMainForkMapFrom_state
      rw [hmap]
      exact hg₁.of_map

/-! The updates of the irreversible block number touch no block. -/

theorem Graded.updateStates (hg : Graded A bc) (inp : SyncInput) (b : Block) :
    Graded A (updateStates inp bc b) := by
  unfold Blockchain.updateStates updateIrreversibleBlockNumber
  dsimp only
  split
  · exact hg.of_map
  · exact hg.of_map

theorem Graded.revert (hg : Graded A bc) :
    Graded A bc.updateIrreversibleBlockNumberWhileReverting := by
  unfold updateIrreversibleBlockNumberWhileReverting
  split
  · exact hg.of_map
  · exact hg.of_map

theorem Graded.addMiners {inp : SyncInput} : ∀ {n : ℕ} {bc bc' : Blockchain} {b : Option Block},
    Graded A bc → addMiners inp bc n b = .ok bc' → Graded A bc'
  | 0, bc, bc', b, hg, h => by
    simp only [Blockchain.addMiners, Except.ok.injEq] at h
    exact h ▸ hg
  | n + 1, bc, bc', none, hg, h => by simp [Blockchain.addMiners] at h
  | n + 1, bc, bc', some b, hg, h => by
    rw [Blockchain.addMiners] at h
    split at h
    · exact Except.ok.inj h ▸ hg
    · refine Graded.addMiners ?_ h
      exact hg.of_map

theorem Graded.foldl {f : Blockchain → Block → Blockchain}
    (hf : ∀ bc b, Graded A bc → Graded A (f bc b)) :
    ∀ (bs : List Block) {bc : Blockchain}, Graded A bc → Graded A (bs.foldl f bc)
  | [], _, hg => hg
  | b :: bs, bc, hg => Graded.foldl hf bs (hf bc b hg)

theorem Graded.switchFork (hg : Graded A bc) {inp : SyncInput} {sw : Switch} {bc' : Blockchain}
    (h : switchFork inp bc sw = .ok bc') : Graded A bc' := by
  have hrev := Graded.foldl (fun bc _ (hg : Graded A bc) => hg.revert) sw.blocksToRollBack hg
  unfold Blockchain.switchFork at h
  simp only [bind, Except.bind] at h
  split at h
  · exact absurd h (by simp)
  · split at h
    · exact absurd h (by simp)
    · next bc₁ hadd =>
      rw [← Except.ok.inj h]
      exact Graded.foldl (fun bc b hg => hg.updateStates inp b) _ (hrev.addMiners hadd)

theorem Graded.syncBlock {inp : SyncInput} {bc' : Blockchain} {U : Set Block}
    (hg : Graded A bc) (hU : Set.InjOn Block.hash U) (hAU : A ⊆ U) (hb : inp.block ∈ U)
    (hvalid : bc.Valid inp.block) (h : syncBlock inp bc = .ok bc') :
    Graded (insert inp.block A) bc' := by
  have happ := hg.append hU hAU hb hvalid
  unfold Blockchain.syncBlock at h
  split at h
  · next e bc₁ heq =>
    rw [heq] at happ
    exact Except.ok.inj h ▸ happ
  · next bc₁ heq =>
    rw [heq] at happ
    have hup := happ.updateMainTailIndex
    dsimp only at h
    split_ifs at h
    · exact hup.switchFork h
    · exact Except.ok.inj h ▸ hup.updateStates inp inp.block
    · exact Except.ok.inj h ▸ hup

theorem SyncRun.graded {U : Set Block} (hU : Set.InjOn Block.hash U) (hrun : SyncRun U bc) :
    ∃ A ⊆ U, Graded A bc := by
  induction hrun with
  | init =>
    refine ⟨∅, Set.empty_subset U, ?_, ?_, Set.injOn_empty _, ?_, ?_, ?_, .inr ⟨rfl, rfl, rfl, rfl⟩⟩
    · intro h b hb
      simp [Blockchain.init] at hb
    · simp [Blockchain.init]
    · simp
    · simp
    · simp
  | block inp _ hb hvalid hsync ih =>
    obtain ⟨A, hAU, hg⟩ := ih
    exact ⟨_, Set.insert_subset hb hAU, hg.syncBlock hU hAU hb hvalid hsync⟩

/-- **Finality, as far as it goes.**  In every run of the syncer, a call of
    `UpdateMainTailIndex` rolls back nothing below the irreversible block number if every tail
    that is higher than the main tail left the main fork no more than one block below it. -/
theorem finality {U : Set Block} (hU : Set.InjOn Block.hash U) (hrun : SyncRun U bc) {b : Block}
    (hb : b ∈ U) (hvalid : bc.Valid b) (hforks : (bc.append b).2.ForksAboveFinal) :
    RollsBackNothingFinal (bc.append b).2 := by
  obtain ⟨A, hAU, hg⟩ := hrun.graded hU
  exact rollsBackNothingFinal (hg.append hU hAU hb hvalid) hforks

/-! ## A run that is not final -/

/-- One block for a syncer that knows a committee of three: nothing if the block is not
    valid or the syncer panics. -/
def syncNext (bc : Blockchain) (b : Block) : Option Blockchain :=
  if (bc.isEmpty ∧ b.isGenesis ∧ b.parentHash = none) ∨ (bc.isEmpty = false ∧ bc.db b.hash = none ∧
      ((b.parentHash.bind bc.db).any fun p => b.parentHash = some p.hash ∧ bc.db p.hash = some p ∧
        p.height = b.height - 1)) then
    (syncBlock ⟨b, fun _ => 3, 3, 2, 1⟩ bc).toOption
  else none

theorem syncNext_spec {bc bc' : Blockchain} {b : Block} (h : syncNext bc b = some bc') :
    bc.Valid b ∧ syncBlock ⟨b, fun _ => 3, 3, 2, 1⟩ bc = .ok bc' := by
  unfold syncNext at h
  split_ifs at h with hvalid
  constructor
  · rcases hvalid with hgen | ⟨hne, hfresh, hparent⟩
    · exact .inl hgen
    · cases hp : b.parentHash.bind bc.db with
      | none => simp [hp] at hparent
      | some p =>
        simp only [hp, Option.any_some, decide_eq_true_eq] at hparent
        exact .inr ⟨hne, hfresh, p, hparent.2.1, hparent.1, hparent.2.2⟩
  · cases hs : syncBlock ⟨b, fun _ => 3, 3, 2, 1⟩ bc with
    | error e => simp [hs, Except.toOption] at h
    | ok bc₂ =>
      rw [hs] at h
      exact congrArg Except.ok (Option.some.inj h)

theorem SyncRun.of_syncNext {U : Set Block} : ∀ {bs : List Block} {bc bc' : Blockchain},
    SyncRun U bc → (∀ b ∈ bs, b ∈ U) → bs.foldlM syncNext bc = some bc' → SyncRun U bc'
  | [], bc, bc', hrun, _, h => Option.some.inj h ▸ hrun
  | b :: bs, bc, bc', hrun, hU, h => by
    rw [List.foldlM_cons] at h
    obtain ⟨bc₁, hnext, hrest⟩ := Option.bind_eq_some_iff.1 h
    obtain ⟨hvalid, hsync⟩ := syncNext_spec hnext
    exact (SyncRun.block _ hrun (hU b (by simp)) hvalid hsync).of_syncNext
      (fun x hx => hU x (by simp [hx])) hrest

/-- Two forks of the genesis block, of the miners `a`, `b` and `c`, grow side by side. -/
def twoForks : List Block :=
  [⟨"g", none, 0, "a", false⟩,
    ⟨"a1", some "g", 1, "b", false⟩, ⟨"c1", some "g", 1, "c", false⟩,
    ⟨"a2", some "a1", 2, "b", false⟩, ⟨"c2", some "c1", 2, "c", false⟩,
    ⟨"a3", some "a2", 3, "a", false⟩, ⟨"c3", some "c2", 3, "c", false⟩,
    ⟨"a4", some "a3", 4, "a", false⟩, ⟨"c4", some "c3", 4, "c", false⟩,
    ⟨"a5", some "a4", 5, "b", false⟩, ⟨"c5", some "c4", 5, "c", false⟩]

/-- The block that makes the second fork the longer one. -/
def overtaking : Block := ⟨"c6", some "c5", 6, "c", false⟩

/-- The irreversible block number has reached 2, and the switch to the fork rolls back the
    block of height 1. -/
theorem not_final : ¬ Final := by
  intro hfinal
  have hcheck : (twoForks.foldlM syncNext init).any (fun bc =>
      (syncNext bc overtaking).isSome && (bc.append overtaking).2.irreversibleBlock = 2 &&
        (bc.append overtaking).2.updateMainTailIndex.1.toOption.any fun sw =>
          sw.blocksToRollBack.any (·.height = 1)) = true := by decide
  cases hbc : twoForks.foldlM syncNext init with
  | none => simp [hbc] at hcheck
  | some bc =>
    simp only [hbc, Option.any_some, Bool.and_eq_true, decide_eq_true_eq] at hcheck
    obtain ⟨⟨hsome, hirr⟩, hroll⟩ := hcheck
    obtain ⟨bc', hnext⟩ := Option.isSome_iff_exists.1 hsome
    have hdistinct : ∀ b ∈ overtaking :: twoForks, ∀ c ∈ overtaking :: twoForks,
        b.hash = c.hash → b = c := by decide
    have hinj : Set.InjOn Block.hash {b | b ∈ overtaking :: twoForks} :=
      fun b hb c hc h => hdistinct b hb c hc h
    have hrun : SyncRun {b | b ∈ overtaking :: twoForks} bc :=
      SyncRun.init.of_syncNext (fun b hb => List.mem_cons_of_mem _ hb) hbc
    have hsafe := hfinal _ hinj bc hrun overtaking List.mem_cons_self (syncNext_spec hnext).1
    cases hup : (bc.append overtaking).2.updateMainTailIndex with
    | mk r bc₂ =>
      cases r with
      | error e => simp [hup, Except.toOption] at hroll
      | ok sw =>
        simp only [hup, Except.toOption, Option.any_some, List.any_eq_true, decide_eq_true_eq] at hroll
        obtain ⟨b, hb, hheight⟩ := hroll
        have := hsafe sw bc₂ hup b hb
        omega

/-- The same forks while the genesis block is the last irreversible one: the switch to the
    second fork rolls back a block of height 1, and that is fine. -/
theorem finality_twoForks : ∃ bc, (twoForks.take 3).foldlM syncNext init = some bc ∧
    RollsBackNothingFinal (bc.append ⟨"c2", some "c1", 2, "c", false⟩).2 := by
  let g : Block := ⟨"g", none, 0, "a", false⟩
  let a1 : Block := ⟨"a1", some "g", 1, "b", false⟩
  let c1 : Block := ⟨"c1", some "g", 1, "c", false⟩
  let c2 : Block := ⟨"c2", some "c1", 2, "c", false⟩
  have hdistinct : ∀ b ∈ twoForks, ∀ c ∈ twoForks, b.hash = c.hash → b = c := by decide
  have hcheck : ((twoForks.take 3).foldlM syncNext init).any (fun bc =>
      (syncNext bc c2).isSome && (bc.append c2).2.getMainTail = some a1 &&
        (bc.append c2).2.tails = [a1, c2] &&
        ((bc.append c2).2.getBlockByHash (some "c1")).toOption = some c1 &&
        ((bc.append c2).2.getBlockByHash (some "g")).toOption = some g &&
        (bc.append c2).2.isInMainFork g && (bc.append c2).2.irreversibleBlock = 0) = true := by
    decide
  cases hbc : (twoForks.take 3).foldlM syncNext init with
  | none => simp [hbc] at hcheck
  | some bc =>
    simp only [hbc, Option.any_some, Bool.and_eq_true, decide_eq_true_eq] at hcheck
    obtain ⟨⟨⟨⟨⟨⟨hsome, hmain⟩, htails⟩, hc1⟩, hg⟩, hin⟩, hirr⟩ := hcheck
    obtain ⟨bc', hnext⟩ := Option.isSome_iff_exists.1 hsome
    have hok : ∀ {x : Except Err Block} {b : Block}, x.toOption = some b → x = .ok b := by
      intro x b h
      cases x with
      | error e => simp [Except.toOption] at h
      | ok y => exact congrArg Except.ok (Option.some.inj h)
    have hrun : SyncRun {b | b ∈ twoForks} bc :=
      SyncRun.init.of_syncNext (fun b hb => List.mem_of_mem_take hb) hbc
    refine ⟨bc, rfl, finality (b := c2) (fun b hb c hc h => hdistinct b hb c hc h) hrun
      (by decide : c2 ∈ twoForks) (syncNext_spec hnext).1 fun m hm t ht hgt => ?_⟩
    obtain rfl : m = a1 := Option.some.inj (hm.symm.trans hmain)
    rw [htails] at ht
    have hcases : ∀ x ∈ [a1, c2], a1.height < x.height → x = c2 := by decide
    rw [hcases t ht hgt]
    exact ⟨g, .step (hok hc1) (.step (hok hg) .refl), hin, by decide, by rw [hirr]; decide⟩

end Blockchain
end Timbre
