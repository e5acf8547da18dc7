/-
  The search for a deal by its timestamp.

  The linear search walks down from the main tail; the binary search steers by the timestamps of
  the blocks, but a deal may wait for some blocks before it is included.  **The two agree on a
  timestamp exactly if the halving leads to a block with such a deal whenever a block above the
  genesis block has one, and to such a deal of the genesis block only then** (`dealSearch_iff`).
-/
import Mathlib.Data.Int.ConditionallyCompleteOrder
import Mathlib.Data.Int.Interval
import Mathlib.Data.List.Chain
import Mathlib.Order.ConditionallyCompleteLattice.Basic
import Timbre.Core.Block
import Timbre.Core.ForkChoice
import Timbre.Lib.Bisect

namespace Timbre

open Protobuf (Deal)

/-! ## The source -/

/-- What the choice of the fork does not look at: the timestamps and the deals of the blocks. -/
structure Contents where
  getTimestamp : Block → Int64
  getDeals : Block → List Deal

/-- A chain with the keys of its main-fork map, of which there are finitely many. -/
structure IndexedChain extends Blockchain where
  keys : Finset ℤ
  mem_keys : ∀ k, k ∈ keys ↔ mainForkMap k ≠ none

namespace IndexedChain

variable (B : Contents) (bc : IndexedChain) (ts : Int64)

/-- `CheckDealFromBlock`. -/
def checkDealFromBlock (b : Option Block) (dts : Int64) : Except Err Deal :=
  match b.bind fun b => (B.getDeals b).find? (·.timestamp = dts) with
  | some deal => .ok deal
  | none => .error (.error "Deal not found in the block")

/-- The loop of `BinaryDealSearch`. -/
def binaryFrom : ℕ → ℤ → ℤ → ℤ → Except Err (Option (Deal × ℤ))
  | 0, _, _, _ => .error (.panic "out of fuel")
  | fuel + 1, low, high, lastMid =>
    if low ≤ high then do
      let median := low + (high - low) / 2
      let block ← bc.getBlockByHeight median
      match checkDealFromBlock B (some block) ts with
      | .ok targetDeal => return some (targetDeal, block.height)
      | .error _ =>
        let low' := if B.getTimestamp block > ts then low else median + 1
        let high' := if B.getTimestamp block > ts then median - 1 else high
        if lastMid = median then return none
        else binaryFrom fuel low' high' median
    else return none

/-- `BinaryDealSearch`: the deal and the height of its block. -/
def binaryDealSearch : Except Err (Option (Deal × ℤ)) :=
  bc.binaryFrom B ts (bc.keys.card + 1) 0 (bc.keys.card - 1) (-1)

/-- The loop of `LinearDealSearch`. -/
def linearFrom : ℕ → Option Block → Except Err (Option (Deal × ℤ))
  | _, none => return none
  | 0, some _ => .error (.panic "out of fuel")
  | fuel + 1, some tail =>
    if tail.isGenesis = false ∧ B.getTimestamp tail ≥ ts then
      match checkDealFromBlock B (some tail) ts with
      | .ok targetDeal => return some (targetDeal, tail.height)
      | .error _ => linearFrom fuel (bc.getBlockByHash tail.parentHash).toOption
    else return none

/-- `LinearDealSearch`. -/
def linearDealSearch : Except Err (Option (Deal × ℤ)) :=
  bc.linearFrom B ts (bc.getMainTail.elim 0 (·.height.toNat) + 1) bc.getMainTail

/-! ## Main forks -/

/-- The block has a deal with the timestamp. -/
def HasDeal (b : Block) : Prop := ∃ deal ∈ B.getDeals b, deal.timestamp = ts

/-- The blocks of the main fork, the tail first.  It goes down to the genesis block, or to a block
    whose parent is not stored. -/
structure MainFork (blocks : List Block) : Prop where
  tail : bc.getMainTail = blocks.head?
  linked : blocks.IsChain fun b p => bc.getBlockByHash b.parentHash = .ok p ∧ p.height < b.height
  bottom : ∀ b ∈ blocks.getLast?, b.isGenesis = true ∨ ∃ e, bc.getBlockByHash b.parentHash = .error e
  level : ∀ b ∈ blocks, 0 ≤ b.height
  mapped : ∀ b ∈ blocks, bc.getBlockByHeight b.height = .ok b
  indexed : ∀ k b, bc.getBlockByHeight k = .ok b → b ∈ blocks ∨ b.isGenesis = true

/-- The timestamps of the blocks increase, and no deal is later than its block. -/
structure Dated (blocks : List Block) : Prop where
  increasing : blocks.Pairwise fun b p => B.getTimestamp p < B.getTimestamp b
  deals : ∀ b ∈ blocks, ∀ deal ∈ B.getDeals b, deal.timestamp ≤ B.getTimestamp b

/-- Two deals with one timestamp are in one block. -/
def UniqueDeals (blocks : List Block) : Prop :=
  ∀ b b', (b ∈ blocks ∨ ∃ k, bc.getBlockByHeight k = .ok b) → (b' ∈ blocks ∨ ∃ k, bc.getBlockByHeight k = .ok b') →
    ∀ deal ∈ B.getDeals b, ∀ deal' ∈ B.getDeals b', deal.timestamp = deal'.timestamp → b = b'

/-- The searches both find a deal or both find none, and one at the same height. -/
structure Agree (blocks : List Block) : Prop where
  found : (∃ r, bc.binaryDealSearch B ts = .ok (some r)) ↔ ∃ r, bc.linearDealSearch B ts = .ok (some r)
  height : bc.UniqueDeals B blocks → ∀ deal h deal' h', bc.binaryDealSearch B ts = .ok (some (deal, h)) →
    bc.linearDealSearch B ts = .ok (some (deal', h')) → h = h'

/-- The main fork has a block of the height, which is not later than the timestamp. -/
def NotLater (k : ℤ) : Prop := ∃ x, bc.getBlockByHeight k = .ok x ∧ B.getTimestamp x ≤ ts

/-- The main fork has a block of the height, which is later than the timestamp. -/
def Later (k : ℤ) : Prop := ∃ x, bc.getBlockByHeight k = .ok x ∧ ts < B.getTimestamp x

/-- Halving the heights leads to the block: in each larger interval the middle one is on the
    main fork, and not later than the timestamp if it is below, later if it is above. -/
def LedTo (b : Block) : Prop :=
  ∃ l h, Bisect.LeadsTo (bc.NotLater B ts) (bc.Later B ts) 0 (bc.keys.card - 1) l h ∧
    bc.getBlockByHeight (Bisect.middle l h) = .ok b

/-- A deal above the genesis block is on the way of the halving, and one in the genesis block only
    if there is one above it. -/
structure Steered (blocks : List Block) : Prop where
  above : (∃ b ∈ blocks, b.isGenesis = false ∧ HasDeal B ts b) → ∃ b, bc.LedTo B ts b ∧ HasDeal B ts b
  genesis : ∀ g, g.isGenesis = true → bc.LedTo B ts g → HasDeal B ts g →
    ∃ b ∈ blocks, b.isGenesis = false ∧ HasDeal B ts b

variable {B bc ts} {blocks : List Block} {b : Block}

theorem checkDealFromBlock_ok {deal : Deal} (h : checkDealFromBlock B (some b) ts = .ok deal) :
    deal ∈ B.getDeals b ∧ deal.timestamp = ts := by
  unfold checkDealFromBlock at h
  split at h
  · rename_i deal' hfind
    cases h
    rw [Option.bind_some] at hfind
    exact ⟨List.mem_of_find?_eq_some hfind, by simpa using List.find?_some hfind⟩
  · cases h

theorem checkDealFromBlock_error {e : Err} (h : checkDealFromBlock B (some b) ts = .error e) : ¬ HasDeal B ts b := by
  unfold checkDealFromBlock at h
  split at h
  · cases h
  · rename_i hfind
    rintro ⟨deal, hdeal, hts⟩
    exact absurd (List.find?_eq_none.1 hfind deal hdeal) (by simpa using hts)

/-! ## The binary search -/

/-- What the binary search learns of a height. -/
def probe (B : Contents) (bc : IndexedChain) (ts : Int64) (k : ℤ) : Except Err (Option (Deal × ℤ) × Bool) := do
  let block ← bc.getBlockByHeight k
  return ((checkDealFromBlock B (some block) ts).toOption.map (·, block.height), B.getTimestamp block > ts)

theorem probe_ok {k : ℤ} {found : Option (Deal × ℤ)} {side : Bool} :
    probe B bc ts k = .ok (found, side) ↔ ∃ x, bc.getBlockByHeight k = .ok x ∧
      (checkDealFromBlock B (some x) ts).toOption.map (·, x.height) = found ∧
      decide (B.getTimestamp x > ts) = side := by
  unfold probe
  rcases bc.getBlockByHeight k with e | x
  · simp [bind, Except.bind]
  · simp [bind, Except.bind, pure, Except.pure]

/-- The guard against endless loops is never used. -/
theorem binaryFrom_eq : ∀ {fuel : ℕ} {low high lastMid : ℤ}, (high - low + 1).toNat < fuel →
    lastMid < low ∨ high < lastMid →
      bc.binaryFrom B ts fuel low high lastMid = Bisect.search (probe B bc ts) fuel low high
  | 0, _, _, _, hfuel, _ => absurd hfuel (Nat.not_lt_zero _)
  | fuel + 1, low, high, lastMid, hfuel, hlast => by
    rw [binaryFrom, Bisect.search]
    split_ifs with hle
    · have hmiddle := Bisect.middle_mem hle
      have hlower := @binaryFrom_eq fuel low (Bisect.middle low high - 1) (Bisect.middle low high)
        (by omega) (.inr (by omega))
      have hupper := @binaryFrom_eq fuel (Bisect.middle low high + 1) high (Bisect.middle low high)
        (by omega) (.inl (by omega))
      have hguard : lastMid ≠ low + (high - low) / 2 := by
        unfold Bisect.middle at hmiddle
        omega
      unfold Bisect.middle at hlower hupper
      rcases hblock : bc.getBlockByHeight (low + (high - low) / 2) with e | x
      · simp [probe, Bisect.middle, hblock, bind, Except.bind]
      · rcases hcheck : checkDealFromBlock B (some x) ts with e | deal
        · by_cases hts : B.getTimestamp x > ts
          · simp [probe, Bisect.middle, hblock, hcheck, hts, hguard, hlower, bind, Except.bind, pure,
              Except.pure, Except.toOption]
          · simp [probe, Bisect.middle, hblock, hcheck, hts, hguard, hupper, bind, Except.bind, pure,
              Except.pure, Except.toOption]
        · simp [probe, Bisect.middle, hblock, hcheck, bind, Except.bind, pure, Except.pure, Except.toOption]
    · rfl

theorem binaryDealSearch_eq :
    bc.binaryDealSearch B ts = Bisect.search (probe B bc ts) (bc.keys.card + 1) 0 (bc.keys.card - 1) :=
  binaryFrom_eq (by omega) (.inl (by omega))

theorem hasDeal_iff : HasDeal B ts b ↔ ∃ deal, checkDealFromBlock B (some b) ts = .ok deal := by
  constructor
  · intro h
    rcases hcheck : checkDealFromBlock B (some b) ts with e | deal
    · exact absurd h (checkDealFromBlock_error hcheck)
    · exact ⟨deal, rfl⟩
  · rintro ⟨deal, hcheck⟩
    exact ⟨deal, checkDealFromBlock_ok hcheck⟩

/-- A height of which something has been found is that of a block with such a deal. -/
theorem probe_some {k : ℤ} {deal : Deal} {h : ℤ} {side : Bool}
    (hprobe : probe B bc ts k = .ok (some (deal, h), side)) :
    ∃ x, bc.getBlockByHeight k = .ok x ∧ deal ∈ B.getDeals x ∧ deal.timestamp = ts ∧ h = x.height := by
  obtain ⟨x, hx, hfound, -⟩ := probe_ok.1 hprobe
  rcases hcheck : checkDealFromBlock B (some x) ts with e | deal'
  · simp [hcheck, Except.toOption] at hfound
  · simp only [hcheck, Except.toOption, Option.map_some, Option.some.injEq, Prod.mk.injEq] at hfound
    obtain ⟨rfl, rfl⟩ := hfound
    obtain ⟨hmem, hts⟩ := checkDealFromBlock_ok hcheck
    exact ⟨x, hx, hmem, hts, rfl⟩

theorem probe_side {k : ℤ} {side : Bool} : (∃ found, probe B bc ts k = .ok (found, side)) ↔
    ∃ x, bc.getBlockByHeight k = .ok x ∧ decide (B.getTimestamp x > ts) = side := by
  constructor
  · rintro ⟨found, h⟩
    obtain ⟨x, hx, -, hside⟩ := probe_ok.1 h
    exact ⟨x, hx, hside⟩
  · rintro ⟨x, hx, hside⟩
    exact ⟨_, probe_ok.2 ⟨x, hx, rfl, hside⟩⟩

theorem binaryDealSearch_found_iff :
    (∃ r, bc.binaryDealSearch B ts = .ok (some r)) ↔ ∃ b, bc.LedTo B ts b ∧ HasDeal B ts b := by
  have hbelow : (fun k => ∃ found, probe B bc ts k = .ok (found, false)) = bc.NotLater B ts := by
    funext k
    rw [probe_side]
    simp [NotLater]
  have habove : (fun k => ∃ found, probe B bc ts k = .ok (found, true)) = bc.Later B ts := by
    funext k
    rw [probe_side]
    simp [Later]
  rw [binaryDealSearch_eq, Bisect.search_found_iff (by omega), hbelow, habove]
  constructor
  · rintro ⟨l, h, hlead, ⟨deal, height⟩, side, hprobe⟩
    obtain ⟨x, hx, hmem, hts, -⟩ := probe_some hprobe
    exact ⟨x, ⟨l, h, hlead, hx⟩, deal, hmem, hts⟩
  · rintro ⟨x, ⟨l, h, hlead, hx⟩, hdeal⟩
    obtain ⟨deal, hcheck⟩ := hasDeal_iff.1 hdeal
    refine ⟨l, h, hlead, (deal, x.height), decide (B.getTimestamp x > ts), probe_ok.2 ⟨x, hx, ?_, rfl⟩⟩
    simp [hcheck, Except.toOption]

theorem binaryDealSearch_some {deal : Deal} {h : ℤ} (hr : bc.binaryDealSearch B ts = .ok (some (deal, h))) :
    ∃ k x, bc.getBlockByHeight k = .ok x ∧ deal ∈ B.getDeals x ∧ deal.timestamp = ts ∧ h = x.height := by
  rw [binaryDealSearch_eq] at hr
  obtain ⟨k, side, hprobe⟩ := Bisect.probe_of_search hr
  exact ⟨k, probe_some hprobe⟩

/-! ## The linear search -/

theorem Dated.tail (h : Dated B (b :: blocks)) : Dated B blocks :=
  ⟨h.increasing.of_cons, fun x hx => h.deals x (List.mem_cons_of_mem b hx)⟩

/-- Below a block that is earlier than the timestamp there is no such deal. -/
theorem Dated.not_hasDeal (h : Dated B (b :: blocks)) (hts : B.getTimestamp b < ts) :
    ∀ x ∈ b :: blocks, ¬ HasDeal B ts x := by
  rintro x hx ⟨deal, hdeal, rfl⟩
  have hle : B.getTimestamp x ≤ B.getTimestamp b := by
    rcases List.mem_cons.1 hx with rfl | hx
    · exact Int64.le_refl _
    · exact Int64.le_of_lt (List.rel_of_pairwise_cons h.increasing hx)
  exact Int64.lt_irrefl (Int64.lt_of_le_of_lt (Int64.le_trans (h.deals x hx deal hdeal) hle) hts)

/-- The walk finds the highest deal, and passes over none. -/
theorem linearFrom_spec : ∀ {blocks : List Block} {fuel : ℕ},
    blocks.IsChain (fun b p => bc.getBlockByHash b.parentHash = .ok p ∧ p.height < b.height) →
    (∀ b ∈ blocks.getLast?, b.isGenesis = true ∨ ∃ e, bc.getBlockByHash b.parentHash = .error e) →
    (∀ b ∈ blocks, 0 ≤ b.height) → Dated B blocks → (∀ b ∈ blocks.head?, b.height.toNat < fuel) →
    ∃ r, bc.linearFrom B ts fuel blocks.head? = .ok r ∧
      (r = none → ∀ b ∈ blocks, b.isGenesis = false → ¬ HasDeal B ts b) ∧
      ∀ deal h, r = some (deal, h) → ∃ b ∈ blocks, b.isGenesis = false ∧ deal ∈ B.getDeals b ∧
        deal.timestamp = ts ∧ h = b.height
  | [], fuel, _, _, _, _, _ => ⟨none, by cases fuel <;> rfl, by simp, by simp⟩
  | b :: blocks, 0, _, _, _, _, hfuel => absurd (hfuel b rfl) (Nat.not_lt_zero _)
  | b :: blocks, fuel + 1, hlinked, hbottom, hlevel, hdated, hfuel => by
    rw [List.head?_cons, linearFrom]
    split_ifs with hgo
    · rcases hcheck : checkDealFromBlock B (some b) ts with e | deal
      · have hnext : (bc.getBlockByHash b.parentHash).toOption = blocks.head? := by
          cases blocks with
          | nil =>
            obtain hg | ⟨e, he⟩ := hbottom b rfl
            · exact absurd hgo.1 (by simp [hg])
            · rw [he]
              rfl
          | cons p blocks =>
            rw [(List.isChain_cons_cons.1 hlinked).1.1]
            rfl
        have hfuel' : ∀ p ∈ blocks.head?, p.height.toNat < fuel := by
          intro p hp
          obtain ⟨rest, rfl⟩ := List.head?_eq_some_iff.1 hp
          have := (List.isChain_cons_cons.1 hlinked).1.2
          have := hlevel p (by simp)
          have := hfuel b rfl
          omega
        obtain ⟨r, hr, hnone, hsome⟩ := linearFrom_spec (List.isChain_cons.1 hlinked).2
          (fun x hx => hbottom x (List.mem_getLast?_cons hx)) (fun x hx => hlevel x (List.mem_cons_of_mem b hx))
          hdated.tail hfuel'
        refine ⟨r, by dsimp only; rw [hnext, hr], fun h x hx hgenesis => ?_, fun deal h hdeal => ?_⟩
        · rcases List.mem_cons.1 hx with rfl | hx
          · exact checkDealFromBlock_error hcheck
          · exact hnone h x hx hgenesis
        · obtain ⟨x, hx, hfound⟩ := hsome deal h hdeal
          exact ⟨x, List.mem_cons_of_mem b hx, hfound⟩
      · obtain ⟨hmem, hts⟩ := checkDealFromBlock_ok hcheck
        refine ⟨_, rfl, fun h => absurd h (by simp), fun deal' h hdeal => ?_⟩
        cases hdeal
        exact ⟨b, by simp, hgo.1, hmem, hts, rfl⟩
    · refine ⟨none, rfl, fun _ x hx hgenesis => ?_, by simp⟩
      by_cases hgb : b.isGenesis = false
      · exact hdated.not_hasDeal (Int64.not_le.1 fun hle => hgo ⟨hgb, hle⟩) x hx
      · -- the genesis block is the last one
        cases blocks with
        | nil =>
          rw [List.mem_singleton.1 hx] at hgenesis
          exact absurd hgenesis hgb
        | cons p blocks =>
          have hzero : b.height = 0 := by simpa [Block.isGenesis] using hgb
          have := (List.isChain_cons_cons.1 hlinked).1.2
          have := hlevel p (by simp)
          omega

theorem linearDealSearch_spec (h : bc.MainFork blocks) (hdated : Dated B blocks) :
    ∃ r, bc.linearDealSearch B ts = .ok r ∧
      (r = none → ∀ b ∈ blocks, b.isGenesis = false → ¬ HasDeal B ts b) ∧
      ∀ deal h, r = some (deal, h) → ∃ b ∈ blocks, b.isGenesis = false ∧ deal ∈ B.getDeals b ∧
        deal.timestamp = ts ∧ h = b.height := by
  rw [linearDealSearch, h.tail]
  refine linearFrom_spec h.linked h.bottom h.level hdated fun b hb => ?_
  rw [hb, Option.elim_some]
  exact Nat.lt_succ_self _

theorem linearDealSearch_found_iff (h : bc.MainFork blocks) (hdated : Dated B blocks) :
    (∃ r, bc.linearDealSearch B ts = .ok (some r)) ↔ ∃ b ∈ blocks, b.isGenesis = false ∧ HasDeal B ts b := by
  obtain ⟨r, hr, hnone, hsome⟩ : ∃ r, bc.linearDealSearch B ts = .ok r ∧ _ := linearDealSearch_spec h hdated
  constructor
  · rintro ⟨⟨deal, height⟩, hr'⟩
    rw [hr] at hr'
    obtain ⟨b, hb, hgenesis, hmem, hts, -⟩ := hsome deal height (Except.ok.inj hr')
    exact ⟨b, hb, hgenesis, deal, hmem, hts⟩
  · rintro ⟨b, hb, hgenesis, hdeal⟩
    cases r with
    | none => exact absurd hdeal (hnone rfl b hb hgenesis)
    | some r => exact ⟨r, hr⟩

/-! ## Deals that do not wait -/

theorem linked_of_isChain {l : List Block} (h : bc.IsChain l) :
    l.IsChain fun b p => bc.getBlockByHash b.parentHash = .ok p ∧ p.height < b.height := by
  induction h with
  | root _ => exact List.isChain_singleton _
  | grow hp hc ih =>
    have hlevel := hp.2.2.2
    exact List.isChain_cons_cons.2 ⟨⟨Blockchain.getBlockByHash_parent hp hc, by omega⟩, ih⟩

theorem bottom_of_isChain {l : List Block} (h : bc.IsChain l) : ∀ b ∈ l.getLast?, b.isGenesis = true := by
  induction h with
  | root hr =>
    rintro b ⟨⟩
    exact decide_eq_true hr.2.2
  | grow _ _ ih =>
    intro b hb
    exact ih b (by rwa [List.getLast?_cons_cons] at hb)

variable {m : Block} {l : List Block}

theorem getBlockByHeight_of_mapped (hc : bc.IsChain l) (hmap : bc.Mapped l) (hb : b ∈ l) :
    bc.getBlockByHeight b.height = .ok b := by
  rw [Blockchain.getBlockByHeight, hmap.1 b hb]
  exact Blockchain.getBlockByHash_stored hc.genesis_isSome (hc.stored b hb)

theorem mem_of_getBlockByHeight {k : ℤ} (hc : bc.IsChain l) (hmap : bc.Mapped l)
    (hb : bc.getBlockByHeight k = .ok b) : b ∈ l := by
  rcases hk : bc.mainForkMap k with _ | v
  · rw [Blockchain.getBlockByHeight, hk] at hb
    cases hb
  · obtain ⟨x, hx, rfl⟩ := hmap.2 k v hk
    rw [getBlockByHeight_of_mapped hc hmap hx] at hb
    cases hb
    exact hx

/-- The main chain of a node that has all blocks down to the genesis block. -/
theorem mainFork_of_isChain (hm : bc.getMainTail = some m) (hc : bc.IsChain (m :: l))
    (hmap : bc.Mapped (m :: l)) : bc.MainFork (m :: l) where
  tail := hm
  linked := linked_of_isChain hc
  bottom _ hb := .inl (bottom_of_isChain hc _ hb)
  level _ hb := hc.level_nonneg_of_mem hb
  mapped _ hb := getBlockByHeight_of_mapped hc hmap hb
  indexed _ _ hb := .inl (mem_of_getBlockByHeight hc hmap hb)

/-- The main-fork map holds the heights up to that of the tail. -/
theorem keys_eq (hc : bc.IsChain (m :: l)) (hmap : bc.Mapped (m :: l)) : bc.keys = Finset.Icc 0 m.height := by
  ext k
  rw [bc.mem_keys, Finset.mem_Icc]
  constructor
  · intro hk
    obtain ⟨v, hv⟩ := Option.ne_none_iff_exists'.1 hk
    obtain ⟨x, hx, rfl⟩ := hmap.2 k v hv
    exact ⟨hc.level_nonneg_of_mem hx, hc.level_le hx⟩
  · rintro ⟨h₀, hle⟩
    obtain ⟨x, hx, rfl⟩ := hc.exists_level h₀ hle
    have hx' : bc.mainForkMap (bc.tree.level x) = some x.hash := hmap.1 x hx
    rw [hx']
    exact Option.some_ne_none _

theorem card_keys (hc : bc.IsChain (m :: l)) (hmap : bc.Mapped (m :: l)) : (bc.keys.card : ℤ) = m.height + 1 := by
  have hlevel : 0 ≤ m.height := hc.level_nonneg
  rw [keys_eq hc hmap, Int.card_Icc]
  omega

/-- A higher block is a later one. -/
theorem Dated.lt_of_height (hdated : Dated B blocks)
    (hlinked : blocks.IsChain fun b p => bc.getBlockByHash b.parentHash = .ok p ∧ p.height < b.height) {x y : Block}
    (hx : x ∈ blocks) (hy : y ∈ blocks) (hlt : x.height < y.height) : B.getTimestamp x < B.getTimestamp y := by
  have hheights : blocks.Pairwise fun b p => p.height < b.height :=
    List.isChain_iff_pairwise.1 (hlinked.imp fun _ _ h => h.2)
  refine List.Pairwise.forall_of_forall_of_flip (R := fun x y : Block => x.height < y.height →
    B.getTimestamp x < B.getTimestamp y) ?_ ?_ ?_ hx hy hlt
  · intro x _ h
    exact absurd h (lt_irrefl _)
  · exact hheights.imp fun h h' => absurd h' (by omega)
  · refine hdated.increasing.imp fun h => ?_
    exact fun _ => h

/-- The halving leads to the first block that is later than the timestamp, and to the last one
    that is not. -/
theorem ledTo_of_between (hc : bc.IsChain (m :: l)) (hmap : bc.Mapped (m :: l))
    (hb : b ∈ m :: l) (hbelow : ∀ x ∈ m :: l, x.height < b.height → B.getTimestamp x ≤ ts)
    (habove : ∀ x ∈ m :: l, b.height < x.height → ts < B.getTimestamp x) : bc.LedTo B ts b := by
  have hcard := card_keys hc hmap
  have hlevel : 0 ≤ b.height := hc.level_nonneg_of_mem hb
  have hle : b.height ≤ m.height := hc.level_le hb
  obtain ⟨l', h', hlead, hmiddle⟩ : ∃ l' h', Bisect.LeadsTo (bc.NotLater B ts) (bc.Later B ts) 0
      (bc.keys.card - 1) l' h' ∧ Bisect.middle l' h' = b.height := by
    refine Bisect.leadsTo_first hlevel (by omega) ?_ ?_
    · intro j h₀ hj
      obtain ⟨x, hx, rfl⟩ := hc.exists_level h₀ (show j ≤ m.height by omega)
      exact ⟨x, getBlockByHeight_of_mapped hc hmap hx, hbelow x hx hj⟩
    · intro j hj hj'
      obtain ⟨x, hx, rfl⟩ := hc.exists_level (show 0 ≤ j by omega) (show j ≤ m.height by omega)
      exact ⟨x, getBlockByHeight_of_mapped hc hmap hx, habove x hx hj⟩
  refine ⟨l', h', hlead, ?_⟩
  rw [hmiddle]
  exact getBlockByHeight_of_mapped hc hmap hb

/-- **Deals that are in the first block that can hold them** are found by both searches. -/
theorem steered_of_prompt (hc : bc.IsChain (m :: l)) (hmap : bc.Mapped (m :: l)) (hdated : Dated B (m :: l))
    (hprompt : ∀ b ∈ m :: l, HasDeal B ts b → b.isGenesis = false ∧
      ∀ x ∈ m :: l, x.height < b.height → B.getTimestamp x < ts) : bc.Steered B ts (m :: l) := by
  constructor
  · rintro ⟨b, hb, -, hdeal⟩
    refine ⟨b, ledTo_of_between hc hmap hb ?_ ?_, hdeal⟩
    · intro x hx hlt
      exact Int64.le_of_lt ((hprompt b hb hdeal).2 x hx hlt)
    · intro x hx hlt
      obtain ⟨deal, hmem, rfl⟩ := hdeal
      exact Int64.lt_of_le_of_lt (hdated.deals b hb deal hmem)
        (hdated.lt_of_height (linked_of_isChain hc) hb hx hlt)
  · rintro g hg ⟨_, _, -, hblock⟩ hdeal
    exact absurd (hprompt g (mem_of_getBlockByHeight hc hmap hblock) hdeal).1 (by simp [hg])

/-! ## Both -/

/-- **The two searches agree exactly if the halving is led to the deals above the genesis block.** -/
theorem dealSearch_iff (h : bc.MainFork blocks) (hdated : Dated B blocks) (ts : Int64) :
    bc.Agree B ts blocks ↔ bc.Steered B ts blocks := by
  constructor
  · rintro ⟨hfound, -⟩
    rw [binaryDealSearch_found_iff, linearDealSearch_found_iff h hdated] at hfound
    exact ⟨hfound.2, fun g _ hled hdeal => hfound.1 ⟨g, hled, hdeal⟩⟩
  · intro hsteered
    refine ⟨?_, fun hunique deal height deal' height' hbinary hlinear => ?_⟩
    · rw [binaryDealSearch_found_iff, linearDealSearch_found_iff h hdated]
      refine ⟨?_, hsteered.above⟩
      rintro ⟨b, hled, hdeal⟩
      cases hgenesis : b.isGenesis with
      | true => exact hsteered.genesis b hgenesis hled hdeal
      | false =>
        obtain ⟨l, h', -, hblock⟩ := hled
        have hb := (h.indexed _ b hblock).resolve_right (by simp [hgenesis])
        exact ⟨b, hb, hgenesis, hdeal⟩
    · obtain ⟨k, x, hx, hmem, hts, rfl⟩ := binaryDealSearch_some hbinary
      obtain ⟨r, hr, -, hsome⟩ : ∃ r, bc.linearDealSearch B ts = .ok r ∧ _ := linearDealSearch_spec h hdated
      rw [hr] at hlinear
      obtain ⟨b, hb, -, hmem', hts', rfl⟩ := hsome deal' height' (Except.ok.inj hlinear)
      rw [hunique x b (.inr ⟨k, hx⟩) (.inl hb) deal hmem deal' hmem' (hts.trans hts'.symm)]

/-- A chain of three blocks. -/
def threeBlocks : IndexedChain where
  db h := if h = "g" then some ⟨"g", none, 0, "m", false⟩ else if h = "a" then some ⟨"a", some "g", 1, "m", false⟩
    else if h = "b" then some ⟨"b", some "a", 2, "m", false⟩ else none
  genesis := some ⟨"g", none, 0, "m", false⟩
  mainTailIndex := 0
  tails := [⟨"b", some "a", 2, "m", false⟩]
  forkLengths := [2]
  mainForkMap k := if k = 0 then some "g" else if k = 1 then some "a" else if k = 2 then some "b" else none
  irreversibleBlock := 0
  last2by3MinedCommitteeMembers := []
  keys := {0, 1, 2}
  mem_keys k := by
    split_ifs with h₀ h₁ h₂ <;> simp_all

/-- Ten seconds between the blocks, and a deal of second 5 in the last one. -/
def waitingDeal : Contents where
  getTimestamp b := Int64.ofInt (10 * b.height)
  getDeals b := if b.height = 2 then [⟨[], [], [], none, 5, 100⟩] else []

/-- The blocks of the chain, the tail first. -/
def threeBlocksList : List Block :=
  [⟨"b", some "a", 2, "m", false⟩, ⟨"a", some "g", 1, "m", false⟩, ⟨"g", none, 0, "m", false⟩]

theorem mainFork_threeBlocks : threeBlocks.MainFork threeBlocksList where
  tail := rfl
  linked := List.isChain_cons_cons.2 ⟨⟨rfl, by decide⟩, List.isChain_cons_cons.2 ⟨⟨rfl, by decide⟩,
    List.isChain_singleton _⟩⟩
  bottom := by
    rintro b ⟨⟩
    exact .inl rfl
  level := by decide
  mapped := by
    intro b hb
    simp only [threeBlocksList, List.mem_cons, List.not_mem_nil, or_false] at hb
    rcases hb with rfl | rfl | rfl <;> rfl
  indexed k b hb := by
    left
    unfold Blockchain.getBlockByHeight threeBlocks at hb
    dsimp only at hb
    split_ifs at hb with h₀ h₁ h₂ <;> cases hb <;> decide

theorem dated_waitingDeal : Dated waitingDeal threeBlocksList where
  increasing := by decide
  deals b hb deal hdeal := by
    simp only [threeBlocksList, List.mem_cons, List.not_mem_nil, or_false] at hb
    rcases hb with rfl | rfl | rfl
    · obtain rfl := List.mem_singleton.1 hdeal
      decide
    · cases hdeal
    · cases hdeal

theorem dealSearch_iff_waiting :
    threeBlocks.Agree waitingDeal 5 threeBlocksList ↔ threeBlocks.Steered waitingDeal 5 threeBlocksList :=
  dealSearch_iff mainFork_threeBlocks dated_waitingDeal 5

/-- The search goes below the middle block, which is later than the deal above it. -/
theorem not_dealSearch : ¬ ∀ (B : Contents) (bc : IndexedChain) (blocks : List Block), bc.MainFork blocks →
    Dated B blocks → ∀ ts, bc.Agree B ts blocks := by
  intro hall
  have hagree := hall waitingDeal threeBlocks threeBlocksList mainFork_threeBlocks dated_waitingDeal 5
  have hbinary : threeBlocks.binaryDealSearch waitingDeal 5 = .ok none := rfl
  obtain ⟨r, hr⟩ := hagree.found.2 ⟨_, (rfl : threeBlocks.linearDealSearch waitingDeal 5 =
    .ok (some (⟨[], [], [], none, 5, 100⟩, 2)))⟩
  rw [hbinary] at hr
  cases hr

end IndexedChain
end Timbre
