/-
  The order in which the miners of the rounds take their slots, and its validation.

  Slots are numbered through all rounds: a miner's slot is its position in its round after
  the slots of all rounds before.  **Along a chain of blocks that pass `ValidateMiningOrder`
  the slots never decrease, the rounds neither, and every timestamp lies in its slot**
  (`slot_order`), as long as the times of the slots fit in 64 bits.
-/
import Mathlib.Algebra.Order.BigOperators.Group.List
import Mathlib.Data.List.Chain
import Timbre.Core.Blockchain
import Timbre.Dpos.MinerCache

namespace Timbre

/-- `GetMinerSlotTime` and `GetTickInterval`, in nanoseconds. -/
def minerSlotTime : Int64 := 10000000000
def miningTickInterval : Int64 := 5000000000

/-- The fields of the headers that the blockchain itself does not look at. -/
structure Headers where
  roundNum : Block → ℤ
  timestamp : Block → Int64

namespace MinerCache

/-! ## The source -/

/-- The variables of the loop of `ValidateMiningOrder`. -/
structure Order where
  slotDif : ℤ
  pmPosition : ℕ
  parentPresent : Bool
  childPresent : Bool
  slotsSinceGenesis : ℤ

def Order.init : Order := ⟨0, 0, false, false, 0⟩

/-- The part of the loop for the round of the parent. -/
def parentRound (cache : MinerCache) (parentMiner : Address) (pmRound : ℤ) (o : Order) :
    Except Err Order :=
  match cache.minersInRound pmRound with
  | .error _ => .error (.error "Blocks parent round doesn't exist")
  | .ok pMiners =>
    match pMiners.idxOf? parentMiner with
    | none => .ok o
    | some j => .ok { o with
        parentPresent := true
        slotDif := o.slotDif + (pMiners.length - j - 1)
        pmPosition := j }

/-- The part of the loop for the round of the child. -/
def childRound (cache : MinerCache) (childMiner : Address) (pmRound CRound : ℤ) (o : Order) :
    Except Err Order :=
  match cache.minersInRound CRound with
  | .error _ => .error (.error "Miner doesn't exist in the round")
  | .ok CMiners =>
    match CMiners.idxOf? childMiner with
    | none => .ok o
    | some k =>
      match cache.slotsPassedByRound (CRound - 1) with
      | .error e => .error e
      | .ok slotsPassed =>
        let o := { o with childPresent := true, slotsSinceGenesis := slotsPassed + k }
        if pmRound = CRound then
          if k < o.pmPosition then .error (.error "Child mining position is less than parent")
          else .ok { o with slotDif := k - o.pmPosition }
        else .ok { o with slotDif := o.slotDif + (k + 1) }

/-- The part of the loop for a round between the two. -/
def betweenRound (cache : MinerCache) (i : ℤ) (o : Order) : Except Err Order := do
  let miners ← cache.minersInRound i
  return { o with slotDif := o.slotDif + miners.length }

/-- The loop, for round `i`. -/
def orderStep (cache : MinerCache) (parentMiner childMiner : Address) (pmRound CRound : ℤ)
    (o : Order) (i : ℤ) : Except Err Order := do
  let o ← (if i = pmRound then cache.parentRound parentMiner pmRound o else .ok o)
  let o ← (if i = CRound then cache.childRound childMiner pmRound CRound o else .ok o)
  (if i ≠ pmRound ∧ i ≠ CRound then cache.betweenRound i o else .ok o)

/-- The rounds from `lo` to `hi`. -/
def roundsFrom (lo hi : ℤ) : List ℤ := (List.range (hi + 1 - lo).toNat).map fun n : ℕ => lo + n

/-- `ValidateMiningOrder`, without the argument `timeDiff`, which it does not use. -/
def validateMiningOrder (cache : MinerCache) (parentMiner childMiner : Address)
    (pmRound CRound : ℤ) (bTs genesisTime : Int64) : Except Err Unit := do
  let chainStartTime := genesisTime - miningTickInterval
  let o ← (roundsFrom pmRound CRound).foldlM
    (cache.orderStep parentMiner childMiner pmRound CRound) Order.init
  if o.parentPresent = false then .error (.error "Parent miner not found")
  else if o.childPresent = false then .error (.error "Child miner not found")
  else
    let slotStartTime := Int64.ofInt o.slotsSinceGenesis * minerSlotTime + chainStartTime
    if bTs < slotStartTime ∨ bTs > slotStartTime + minerSlotTime + 1000000000 then
      .error (.error "In wrong slot")
    else .ok ()

/-! ## What the validation has checked -/

/-- The slots of the miners, and the window of the child's slot. -/
structure InOrder (cache : MinerCache) (parentMiner childMiner : Address) (pmRound CRound : ℤ)
    (bTs genesisTime : Int64) (pMiners CMiners : List Address) (j k : ℕ) (slotsPassed : ℤ) :
    Prop where
  rounds : pmRound ≤ CRound
  parentMiners : cache.minersInRound pmRound = .ok pMiners
  parentPosition : pMiners.idxOf? parentMiner = some j
  childMiners : cache.minersInRound CRound = .ok CMiners
  childPosition : CMiners.idxOf? childMiner = some k
  slots : cache.slotsPassedByRound (CRound - 1) = .ok slotsPassed
  position : pmRound = CRound → j ≤ k
  start : Int64.ofInt (slotsPassed + k) * minerSlotTime + (genesisTime - miningTickInterval) ≤ bTs
  finish : bTs ≤ Int64.ofInt (slotsPassed + k) * minerSlotTime + (genesisTime - miningTickInterval) +
    minerSlotTime + 1000000000

variable {cache : MinerCache} {parentMiner childMiner : Address} {pmRound CRound : ℤ}
  {bTs genesisTime : Int64} {o o' : Order}

theorem parentRound_ok (h : cache.parentRound parentMiner pmRound o = .ok o') :
    ∃ pMiners, cache.minersInRound pmRound = .ok pMiners ∧
      ((pMiners.idxOf? parentMiner = none ∧ o' = o) ∨
        ∃ j, pMiners.idxOf? parentMiner = some j ∧ o'.parentPresent = true ∧ o'.pmPosition = j ∧
          o'.childPresent = o.childPresent ∧ o'.slotsSinceGenesis = o.slotsSinceGenesis) := by
  unfold parentRound at h
  split at h
  · cases h
  · rename_i pMiners hminers
    refine ⟨pMiners, hminers, ?_⟩
    split at h
    · exact .inl ⟨‹_›, (Except.ok.inj h).symm⟩
    · rename_i j hj
      obtain rfl := Except.ok.inj h
      exact .inr ⟨j, hj, rfl, rfl, rfl, rfl⟩

theorem childRound_ok (h : cache.childRound childMiner pmRound CRound o = .ok o') :
    o'.parentPresent = o.parentPresent ∧ o'.pmPosition = o.pmPosition ∧
      ((o' = o) ∨ ∃ CMiners k slotsPassed, cache.minersInRound CRound = .ok CMiners ∧
        CMiners.idxOf? childMiner = some k ∧ cache.slotsPassedByRound (CRound - 1) = .ok slotsPassed ∧
        o'.slotsSinceGenesis = slotsPassed + k ∧ (pmRound = CRound → o.pmPosition ≤ k)) := by
  unfold childRound at h
  split at h
  · cases h
  · rename_i CMiners hminers
    split at h
    · obtain rfl := Except.ok.inj h
      exact ⟨rfl, rfl, .inl rfl⟩
    · rename_i k hk
      split at h
      · cases h
      · rename_i slotsPassed hslots
        dsimp only at h
        split_ifs at h with hround hlt
        · obtain rfl := Except.ok.inj h
          exact ⟨rfl, rfl, .inr ⟨CMiners, k, slotsPassed, hminers, hk, hslots, rfl,
            fun _ => Nat.not_lt.1 hlt⟩⟩
        · obtain rfl := Except.ok.inj h
          exact ⟨rfl, rfl, .inr ⟨CMiners, k, slotsPassed, hminers, hk, hslots, rfl,
            fun he => absurd he hround⟩⟩

theorem mem_roundsFrom {lo hi i : ℤ} : i ∈ roundsFrom lo hi ↔ lo ≤ i ∧ i ≤ hi := by
  simp only [roundsFrom, List.mem_map, List.mem_range]
  constructor
  · rintro ⟨n, hn, rfl⟩
    omega
  · rintro ⟨hlo, hhi⟩
    exact ⟨(i - lo).toNat, by omega, by omega⟩

theorem roundsFrom_of_lt {lo hi : ℤ} (h : hi < lo) : roundsFrom lo hi = [] := by
  rw [roundsFrom, show (hi + 1 - lo).toNat = 0 by omega]
  rfl

theorem roundsFrom_snoc {lo hi : ℤ} (h : lo ≤ hi) :
    roundsFrom lo hi = roundsFrom lo (hi - 1) ++ [hi] := by
  rw [roundsFrom, roundsFrom, show (hi + 1 - lo).toNat = (hi - 1 + 1 - lo).toNat + 1 by omega,
    List.range_succ, List.map_append, List.map_singleton]
  congr 2
  omega

theorem roundsFrom_cons {lo hi : ℤ} (h : lo ≤ hi) :
    roundsFrom lo hi = lo :: roundsFrom (lo + 1) hi := by
  rw [roundsFrom, roundsFrom, show (hi + 1 - lo).toNat = (hi + 1 - (lo + 1)).toNat + 1 by omega,
    List.range_succ_eq_map, List.map_cons, List.map_map]
  congr 1
  · simp
  · exact List.map_congr_left fun n _ => by simp [Function.comp]; omega

theorem bind_ok_self {α : Type} (c : Except Err α) : (c >>= fun a => .ok a) = c := by
  cases c <;> rfl

theorem orderStep_same (o : Order) : cache.orderStep parentMiner childMiner pmRound pmRound o pmRound =
    (cache.parentRound parentMiner pmRound o >>= cache.childRound childMiner pmRound pmRound) := by
  simp only [orderStep, if_pos, ne_eq, not_true_eq_false, and_self, if_false, bind_ok_self]

theorem orderStep_parent (h : pmRound ≠ CRound) (o : Order) :
    cache.orderStep parentMiner childMiner pmRound CRound o pmRound =
      cache.parentRound parentMiner pmRound o := by
  simp only [orderStep, if_pos, if_neg h, ne_eq, not_true_eq_false, false_and, if_false]
  exact bind_ok_self _

theorem orderStep_child (h : pmRound ≠ CRound) (o : Order) :
    cache.orderStep parentMiner childMiner pmRound CRound o CRound =
      cache.childRound childMiner pmRound CRound o := by
  simp only [orderStep, if_pos, if_neg h.symm, ne_eq, not_true_eq_false, and_false, if_false]
  exact bind_ok_self _

theorem orderStep_between {i : ℤ} (hpm : i ≠ pmRound) (hC : i ≠ CRound) (o : Order) :
    cache.orderStep parentMiner childMiner pmRound CRound o i = cache.betweenRound i o := by
  simp only [orderStep, if_neg hpm, if_neg hC, if_pos (And.intro hpm hC)]
  rfl

/-- Between the two rounds only the distance is counted. -/
theorem between_ok : ∀ {is : List ℤ} {o o' : Order}, (∀ i ∈ is, i ≠ pmRound ∧ i ≠ CRound) →
    is.foldlM (cache.orderStep parentMiner childMiner pmRound CRound) o = .ok o' →
      o'.parentPresent = o.parentPresent ∧ o'.pmPosition = o.pmPosition ∧
        o'.childPresent = o.childPresent
  | [], o, o', _, h => by
    obtain rfl := Except.ok.inj h
    exact ⟨rfl, rfl, rfl⟩
  | i :: is, o, o', hne, h => by
    obtain ⟨hpm, hC⟩ := hne i (by simp)
    rw [List.foldlM_cons] at h
    obtain ⟨o₁, hstep, hrest⟩ := except_bind_ok h
    have hsame : o₁.parentPresent = o.parentPresent ∧ o₁.pmPosition = o.pmPosition ∧
        o₁.childPresent = o.childPresent := by
      rw [orderStep_between hpm hC] at hstep
      obtain ⟨miners, -, ho⟩ := except_bind_ok (c := cache.minersInRound i) hstep
      obtain rfl := Except.ok.inj ho
      exact ⟨rfl, rfl, rfl⟩
    obtain ⟨h₁, h₂, h₃⟩ := between_ok (fun i hi => hne i (List.mem_cons_of_mem _ hi)) hrest
    exact ⟨h₁.trans hsame.1, h₂.trans hsame.2.1, h₃.trans hsame.2.2⟩

/-- What the loop has found when both miners are present at its end. -/
theorem loop_ok (h : (roundsFrom pmRound CRound).foldlM
      (cache.orderStep parentMiner childMiner pmRound CRound) Order.init = .ok o')
    (hparent : o'.parentPresent = true) (hchild : o'.childPresent = true) :
    ∃ pMiners CMiners j k slotsPassed, pmRound ≤ CRound ∧
      cache.minersInRound pmRound = .ok pMiners ∧ pMiners.idxOf? parentMiner = some j ∧
      cache.minersInRound CRound = .ok CMiners ∧ CMiners.idxOf? childMiner = some k ∧
      cache.slotsPassedByRound (CRound - 1) = .ok slotsPassed ∧
      (pmRound = CRound → j ≤ k) ∧ o'.slotsSinceGenesis = slotsPassed + k := by
  have hle : pmRound ≤ CRound := by
    by_contra hlt
    rw [roundsFrom_of_lt (by omega)] at h
    obtain rfl := Except.ok.inj h
    cases hparent
  -- the state before the round of the child
  obtain ⟨o₁, pMiners, hminers, hfound, hchildRound⟩ : ∃ o₁ pMiners,
      cache.minersInRound pmRound = .ok pMiners ∧ (o₁.childPresent = false ∧
        (o₁.parentPresent = false ∨ ∃ j, pMiners.idxOf? parentMiner = some j ∧ o₁.pmPosition = j)) ∧
        cache.childRound childMiner pmRound CRound o₁ = .ok o' := by
    rcases hle.eq_or_lt with rfl | hlt
    · rw [roundsFrom_cons le_rfl, roundsFrom_of_lt (by omega), List.foldlM_cons, orderStep_same] at h
      obtain ⟨o₂, hstep, hnil⟩ := except_bind_ok h
      obtain rfl := Except.ok.inj hnil
      obtain ⟨o₁, hparentRound, hchildRound⟩ := except_bind_ok hstep
      obtain ⟨pMiners, hminers, hcase⟩ := parentRound_ok hparentRound
      refine ⟨o₁, pMiners, hminers, ?_, hchildRound⟩
      rcases hcase with ⟨-, rfl⟩ | ⟨j, hj, -, hpos, hc, -⟩
      · exact ⟨rfl, .inl rfl⟩
      · exact ⟨hc, .inr ⟨j, hj, hpos⟩⟩
    · rw [roundsFrom_cons hle, List.foldlM_cons, orderStep_parent hlt.ne, roundsFrom_snoc (by omega)] at h
      obtain ⟨o₁, hparentRound, h⟩ := except_bind_ok h
      rw [List.foldlM_append] at h
      obtain ⟨o₂, hbetween, hlast⟩ := except_bind_ok h
      rw [List.foldlM_cons, orderStep_child hlt.ne] at hlast
      obtain ⟨o₃, hchildRound, hnil⟩ := except_bind_ok hlast
      obtain rfl := Except.ok.inj hnil
      obtain ⟨hp, hpos₂, hc₂⟩ := between_ok (fun i hi => by
        have := mem_roundsFrom.1 hi
        omega) hbetween
      obtain ⟨pMiners, hminers, hcase⟩ := parentRound_ok hparentRound
      refine ⟨o₂, pMiners, hminers, ?_, hchildRound⟩
      rcases hcase with ⟨-, rfl⟩ | ⟨j, hj, -, hpos, hc, -⟩
      · exact ⟨hc₂, .inl hp⟩
      · exact ⟨hc₂.trans hc, .inr ⟨j, hj, hpos₂.trans hpos⟩⟩
  obtain ⟨hpresent, hposition, hcase⟩ := childRound_ok hchildRound
  obtain ⟨hnochild, hnoparent | ⟨j, hj, hpos⟩⟩ := hfound
  · rw [hpresent, hnoparent] at hparent
    cases hparent
  · rcases hcase with rfl | ⟨CMiners, k, slotsPassed, hCminers, hk, hslots, hsince, hle'⟩
    · rw [hnochild] at hchild
      cases hchild
    · exact ⟨pMiners, CMiners, j, k, slotsPassed, hle, hminers, hj, hCminers, hk, hslots,
        fun he => hpos ▸ hle' he, hsince⟩

/-- **What `ValidateMiningOrder` has checked when it accepts.** -/
theorem validateMiningOrder_ok
    (h : cache.validateMiningOrder parentMiner childMiner pmRound CRound bTs genesisTime = .ok ()) :
    ∃ pMiners CMiners j k slotsPassed, InOrder cache parentMiner childMiner pmRound CRound bTs
      genesisTime pMiners CMiners j k slotsPassed := by
  obtain ⟨o, hloop, h⟩ := except_bind_ok h
  by_cases hparent : o.parentPresent = false
  · rw [if_pos hparent] at h
    cases h
  by_cases hchild : o.childPresent = false
  · rw [if_neg hparent, if_pos hchild] at h
    cases h
  rw [if_neg hparent, if_neg hchild] at h
  have hwindow := (ite_eq_right_iff.1 h).mt (by simp)
  obtain ⟨pMiners, CMiners, j, k, slotsPassed, hle, hminers, hj, hCminers, hk, hslots, hposition,
    hsince⟩ := loop_ok hloop (by simpa using hparent) (by simpa using hchild)
  rw [hsince, not_or] at hwindow
  exact ⟨pMiners, CMiners, j, k, slotsPassed, hle, hminers, hj, hCminers, hk, hslots, hposition,
    Int64.not_lt.1 hwindow.1, Int64.not_lt.1 hwindow.2⟩

theorem parentRound_eq {pMiners : List Address} {j : ℕ} (hm : cache.minersInRound pmRound = .ok pMiners)
    (hj : pMiners.idxOf? parentMiner = some j) (o : Order) : ∃ o', cache.parentRound parentMiner pmRound o = .ok o' ∧
      o'.parentPresent = true ∧ o'.pmPosition = j := by
  simp only [parentRound, hm, hj]
  exact ⟨_, rfl, rfl, rfl⟩

theorem childRound_eq {CMiners : List Address} {k : ℕ} {slotsPassed : ℤ}
    (hm : cache.minersInRound CRound = .ok CMiners) (hk : CMiners.idxOf? childMiner = some k)
    (hs : cache.slotsPassedByRound (CRound - 1) = .ok slotsPassed) (hle : pmRound = CRound → o.pmPosition ≤ k) :
    ∃ o', cache.childRound childMiner pmRound CRound o = .ok o' ∧ o'.parentPresent = o.parentPresent ∧
      o'.childPresent = true ∧ o'.slotsSinceGenesis = slotsPassed + k := by
  simp only [childRound, hm, hk, hs]
  split_ifs with hround hlt
  · exact absurd (hle hround) (by omega)
  · exact ⟨_, rfl, rfl, rfl, rfl⟩
  · exact ⟨_, rfl, rfl, rfl, rfl⟩

/-- The loop goes through the rounds between the two if the cache has them. -/
theorem between_eq : ∀ {is : List ℤ} (o : Order),
    (∀ i ∈ is, (i ≠ pmRound ∧ i ≠ CRound) ∧ ∃ miners, cache.minersInRound i = .ok miners) →
      ∃ o', is.foldlM (cache.orderStep parentMiner childMiner pmRound CRound) o = .ok o'
  | [], o, _ => ⟨o, rfl⟩
  | i :: is, o, his => by
    obtain ⟨⟨hpm, hC⟩, miners, hm⟩ := his i (by simp)
    obtain ⟨o', ho'⟩ := between_eq { o with slotDif := o.slotDif + miners.length }
      fun i hi => his i (List.mem_cons_of_mem _ hi)
    refine ⟨o', ?_⟩
    rw [List.foldlM_cons, orderStep_between hpm hC, betweenRound, hm]
    exact ho'

/-- **What `ValidateMiningOrder` accepts.** -/
theorem validateMiningOrder_of {pMiners CMiners : List Address} {j k : ℕ} {slotsPassed : ℤ}
    (h : InOrder cache parentMiner childMiner pmRound CRound bTs genesisTime pMiners CMiners j k slotsPassed)
    (hbetween : ∀ i, pmRound < i → i < CRound → ∃ miners, cache.minersInRound i = .ok miners) :
    cache.validateMiningOrder parentMiner childMiner pmRound CRound bTs genesisTime = .ok () := by
  obtain ⟨o', hloop, hparent, hchild, hsince⟩ : ∃ o', (roundsFrom pmRound CRound).foldlM
      (cache.orderStep parentMiner childMiner pmRound CRound) Order.init = .ok o' ∧
        o'.parentPresent = true ∧ o'.childPresent = true ∧ o'.slotsSinceGenesis = slotsPassed + k := by
    obtain ⟨o₁, hparent, hpresent, hpos⟩ := parentRound_eq h.parentMiners h.parentPosition Order.init
    rcases h.rounds.eq_or_lt with rfl | hlt
    · obtain ⟨o₂, hchild, hp, hc, hs⟩ := childRound_eq (o := o₁) h.childMiners h.childPosition h.slots
        fun he => hpos ▸ h.position he
      refine ⟨o₂, ?_, hp.trans hpresent, hc, hs⟩
      rw [roundsFrom_cons le_rfl, roundsFrom_of_lt (by omega), List.foldlM_cons, orderStep_same, hparent]
      exact congrArg (· >>= _) hchild
    · have his : ∀ i ∈ roundsFrom (pmRound + 1) (CRound - 1),
          (i ≠ pmRound ∧ i ≠ CRound) ∧ ∃ miners, cache.minersInRound i = .ok miners := by
        intro i hi
        have := mem_roundsFrom.1 hi
        exact ⟨by omega, hbetween i (by omega) (by omega)⟩
      obtain ⟨o₂, hmid⟩ : ∃ o₂, (roundsFrom (pmRound + 1) (CRound - 1)).foldlM
          (cache.orderStep parentMiner childMiner pmRound CRound) o₁ = .ok o₂ := between_eq o₁ his
      obtain ⟨hp₂, -, -⟩ := between_ok (fun i hi => (his i hi).1) hmid
      obtain ⟨o₃, hchild, hp, hc, hs⟩ := childRound_eq (o := o₂) h.childMiners h.childPosition h.slots
        fun he => absurd he hlt.ne
      refine ⟨o₃, ?_, hp.trans (hp₂.trans hpresent), hc, hs⟩
      rw [roundsFrom_cons h.rounds, List.foldlM_cons, orderStep_parent hlt.ne, hparent, roundsFrom_snoc (by omega)]
      show List.foldlM _ o₁ _ = _
      rw [List.foldlM_append, hmid]
      show List.foldlM _ o₂ _ = _
      rw [List.foldlM_cons, orderStep_child hlt.ne, hchild]
      rfl
  have hstart := Int64.not_lt.2 h.start
  have hfinish := Int64.not_lt.2 h.finish
  rw [← hsince] at hstart hfinish
  show ((roundsFrom pmRound CRound).foldlM _ Order.init >>= _) = _
  rw [hloop]
  show (if o'.parentPresent = false then _ else _) = _
  rw [if_neg (by simp [hparent]), if_neg (by simp [hchild]), if_neg (not_or.2 ⟨hstart, hfinish⟩)]

/-! ## Slots -/

/-- The answers of the cache for the rounds from `lo` to `hi` are those of the plain list. -/
structure Consistent (cache : MinerCache) (L : Rounds) (lo hi : ℤ) : Prop where
  committee : ∀ k miners, lo ≤ k → k ≤ hi → cache.minersInRound k = .ok miners →
    L.committee k = some miners
  slots : ∀ k slots, lo ≤ k + 1 → k + 1 ≤ hi → cache.slotsPassedByRound k = .ok slots →
    L.slots k = some slots

/-- The number of the slot of the block's miner in the block's round. -/
def absoluteSlot (L : Rounds) (H : Headers) (b : Block) : Option ℤ := do
  let slotsPassed ← L.slots (H.roundNum b - 1)
  let miners ← L.committee (H.roundNum b)
  let position ← miners.idxOf? b.minerPublicKey
  return slotsPassed + position

/-- The child passes `ValidateMiningOrder` against its parent, with a cache of its time. -/
def Passed (H : Headers) (L : Rounds) (genesisTime : Int64) (parent child : Block) : Prop :=
  ∃ cache : MinerCache, Consistent cache L (H.roundNum parent) (H.roundNum child) ∧
    cache.validateMiningOrder parent.minerPublicKey child.minerPublicKey (H.roundNum parent)
      (H.roundNum child) (H.timestamp child) genesisTime = .ok ()

/-- The time at which slot `n` starts, in nanoseconds. -/
def slotStart (genesisTime : Int64) (n : ℤ) : ℤ :=
  n * minerSlotTime.toInt + (genesisTime.toInt - miningTickInterval.toInt)

/-- The times of slot `n`, with the tolerance of a second, are times in 64 bits. -/
def Fits (genesisTime : Int64) (n : ℤ) : Prop :=
  -2 ^ 63 ≤ slotStart genesisTime n ∧
    slotStart genesisTime n + (minerSlotTime.toInt + 1000000000) < 2 ^ 63

variable {L : Rounds} {H : Headers} {b p c : Block} {n n' r r' s s' : ℤ} {m : List Address} {k : ℕ}

theorem absoluteSlot_eq_some (hs : L.slots (H.roundNum b - 1) = some s)
    (hm : L.committee (H.roundNum b) = some m) (hk : m.idxOf? b.minerPublicKey = some k) :
    absoluteSlot L H b = some (s + k) := by
  simp [absoluteSlot, hs, hm, hk]

theorem of_absoluteSlot (h : absoluteSlot L H b = some n) : ∃ s m k,
    L.slots (H.roundNum b - 1) = some s ∧ L.committee (H.roundNum b) = some m ∧
      m.idxOf? b.minerPublicKey = some k ∧ n = s + k := by
  simp only [absoluteSlot, Option.bind_eq_bind, Option.bind_eq_some_iff, Option.pure_def,
    Option.some.injEq] at h
  obtain ⟨s, hs, m, hm, k, hk, rfl⟩ := h
  exact ⟨s, m, k, hs, hm, hk, rfl⟩

theorem slots_of_committee (hm : L.committee r = some m) :
    1 ≤ r ∧ ∃ s, L.slots (r - 1) = some s := by
  unfold Rounds.committee at hm
  split_ifs at hm with hr
  have hlt := (List.getElem?_eq_some_iff.1 hm).1
  exact ⟨by omega, _, if_pos (by omega)⟩

theorem sum_take_le (L : Rounds) {i j : ℕ} (h : i ≤ j) :
    ((L.take i).map fun c => (c.length : ℤ)).sum ≤ ((L.take j).map fun c => (c.length : ℤ)).sum := by
  have hsplit : L.take j = L.take i ++ (L.take j).drop i := by
    have happend := (List.take_append_drop i (L.take j)).symm
    rwa [List.take_take, min_eq_left h] at happend
  have hnonneg : 0 ≤ (((L.take j).drop i).map fun c => (c.length : ℤ)).sum := by
    refine List.sum_nonneg fun x hx => ?_
    obtain ⟨c, -, rfl⟩ := List.mem_map.1 hx
    exact Int.natCast_nonneg _
  rw [hsplit, List.map_append, List.sum_append]
  omega

/-- A round's slots come before those of later rounds. -/
theorem slots_lt (hs : L.slots (r - 1) = some s) (hm : L.committee r = some m) (hk : k < m.length)
    (hs' : L.slots (r' - 1) = some s') (hr : r < r') : s + k < s' := by
  obtain ⟨hr₁, -⟩ := slots_of_committee hm
  unfold Rounds.slots at hs hs'
  split_ifs at hs hs' with hlen hlen'
  rw [Rounds.committee, if_neg (by omega)] at hm
  have hmono := sum_take_le L (show (r - 1).toNat + 1 ≤ (r' - 1).toNat by omega)
  rw [List.take_add_one, hm, List.map_append, List.sum_append, Option.some.inj hs,
    Option.some.inj hs'] at hmono
  simp at hmono
  omega

/-- **What one accepted block adds to its chain.** -/
theorem Passed.step {genesisTime : Int64} (h : Passed H L genesisTime p c) :
    H.roundNum p ≤ H.roundNum c ∧ ∃ n n', absoluteSlot L H p = some n ∧
      absoluteSlot L H c = some n' ∧ n ≤ n' ∧ 0 ≤ n ∧
      Int64.ofInt n' * minerSlotTime + (genesisTime - miningTickInterval) ≤ H.timestamp c ∧
      H.timestamp c ≤ Int64.ofInt n' * minerSlotTime + (genesisTime - miningTickInterval) +
        minerSlotTime + 1000000000 := by
  obtain ⟨cache, hcache, hvalid⟩ := h
  obtain ⟨pMiners, cMiners, j, k, slotsPassed, hin⟩ := validateMiningOrder_ok hvalid
  have hpm := hcache.committee _ _ le_rfl hin.rounds hin.parentMiners
  have hcm := hcache.committee _ _ hin.rounds le_rfl hin.childMiners
  have hcs := hcache.slots _ _ (by have := hin.rounds; omega) (by omega) hin.slots
  obtain ⟨hpos, s, hps⟩ := slots_of_committee hpm
  have hs : 0 ≤ s := by
    unfold Rounds.slots at hps
    split_ifs at hps with hlen
    have := sum_take_le L (Nat.zero_le (H.roundNum p - 1).toNat)
    rw [List.take_zero, List.map_nil, List.sum_nil, Option.some.inj hps] at this
    exact this
  refine ⟨hin.rounds, s + j, slotsPassed + k, absoluteSlot_eq_some hps hpm hin.parentPosition,
    absoluteSlot_eq_some hcs hcm hin.childPosition, ?_, by omega, hin.start, hin.finish⟩
  rcases hin.rounds.eq_or_lt with heq | hlt
  · have hjk := hin.position heq
    rw [heq, hcs] at hps
    have := Option.some.inj hps
    omega
  · have hj : j < pMiners.length := (List.idxOf?_eq_some_iff.1 hin.parentPosition).1
    have := slots_lt hps hpm hj hcs hlt
    omega

/-! ## Times -/

theorem toInt_slotStart {genesisTime : Int64} (h : Fits genesisTime n) :
    (Int64.ofInt n * minerSlotTime + (genesisTime - miningTickInterval)).toInt =
        slotStart genesisTime n ∧
      (Int64.ofInt n * minerSlotTime + (genesisTime - miningTickInterval) + minerSlotTime +
        1000000000).toInt = slotStart genesisTime n + (minerSlotTime.toInt + 1000000000) := by
  have hstart : Int64.ofInt n * minerSlotTime + (genesisTime - miningTickInterval) =
      Int64.ofInt (slotStart genesisTime n) := by
    rw [slotStart, Int64.ofInt_add, Int64.ofInt_mul, Int64.ofInt_sub, Int64.ofInt_toInt,
      Int64.ofInt_toInt, Int64.ofInt_toInt]
  have hend : Int64.ofInt (slotStart genesisTime n) + minerSlotTime + 1000000000 =
      Int64.ofInt (slotStart genesisTime n + (minerSlotTime.toInt + 1000000000)) := by
    rw [Int64.ofInt_add, Int64.ofInt_add, Int64.ofInt_toInt, Int64.add_assoc]
    rfl
  obtain ⟨hlo, hhi⟩ := h
  have hten : minerSlotTime.toInt = 10000000000 := rfl
  rw [hstart, hend, Int64.toInt_ofInt_of_le (by omega) (by omega),
    Int64.toInt_ofInt_of_le (by omega) (by omega)]
  exact ⟨rfl, rfl⟩

/-- The block's timestamp lies in the block's slot, with a tolerance of a second at its end. -/
def InWindow (L : Rounds) (H : Headers) (genesisTime : Int64) (b : Block) : Prop :=
  ∃ n, absoluteSlot L H b = some n ∧ slotStart genesisTime n ≤ (H.timestamp b).toInt ∧
    (H.timestamp b).toInt ≤ slotStart genesisTime n + (minerSlotTime.toInt + 1000000000)

/-- The slots of two blocks, the first not after the second. -/
def SlotLE (L : Rounds) (H : Headers) (p c : Block) : Prop :=
  H.roundNum p ≤ H.roundNum c ∧
    ∃ n n', absoluteSlot L H p = some n ∧ absoluteSlot L H c = some n' ∧ n ≤ n'

/-- In a later slot, the child is at most a second earlier than its parent. -/
def Later (L : Rounds) (H : Headers) (p c : Block) : Prop :=
  ∀ n n', absoluteSlot L H p = some n → absoluteSlot L H c = some n' → n < n' →
    (H.timestamp p).toInt - 1000000000 ≤ (H.timestamp c).toInt

/-- The times of the block's slot are times in 64 bits. -/
def SlotFits (L : Rounds) (H : Headers) (genesisTime : Int64) (b : Block) : Prop :=
  ∀ n, absoluteSlot L H b = some n → Fits genesisTime n

variable {genesisTime : Int64}

theorem SlotLE.trans {x : Block} (h : SlotLE L H p c) (h' : SlotLE L H c x) : SlotLE L H p x := by
  obtain ⟨hr, n, n', hp, hc, hle⟩ := h
  obtain ⟨hr', n₁, n₂, hc', hx, hle'⟩ := h'
  obtain rfl := Option.some.inj (hc.symm.trans hc')
  exact ⟨hr.trans hr', n, n₂, hp, hx, hle.trans hle'⟩

theorem Passed.slotLE (h : Passed H L genesisTime p c) : SlotLE L H p c := by
  obtain ⟨hr, n, n', hp, hc, hle, -⟩ := h.step
  exact ⟨hr, n, n', hp, hc, hle⟩

theorem Passed.inWindow (h : Passed H L genesisTime p c) (hfit : SlotFits L H genesisTime c) :
    InWindow L H genesisTime c := by
  obtain ⟨-, n, n', -, hc, -, -, hstart, hend⟩ := h.step
  obtain ⟨hs, he⟩ := toInt_slotStart (hfit n' hc)
  rw [Int64.le_iff_toInt_le] at hstart hend
  exact ⟨n', hc, hs ▸ hstart, he ▸ hend⟩

theorem slotStart_lt {n n' : ℤ} (h : n < n') :
    slotStart genesisTime n + minerSlotTime.toInt ≤ slotStart genesisTime n' := by
  have hten : minerSlotTime.toInt = 10000000000 := rfl
  unfold slotStart
  rw [hten]
  omega

theorem later_of_inWindow (hp : InWindow L H genesisTime p) (hc : InWindow L H genesisTime c) :
    Later L H p c := by
  intro n n' hn hn' hlt
  obtain ⟨m, hm, -, hpend⟩ := hp
  obtain ⟨m', hm', hcstart, -⟩ := hc
  obtain rfl := Option.some.inj (hn.symm.trans hm)
  obtain rfl := Option.some.inj (hn'.symm.trans hm')
  have : slotStart genesisTime n + minerSlotTime.toInt ≤ slotStart genesisTime n' := slotStart_lt hlt
  omega

/-- The first block has no window, but it carries the time from which the slots are counted. -/
theorem later_of_genesis (h : Passed H L genesisTime p c) (hp : H.timestamp p = genesisTime)
    (hc : InWindow L H genesisTime c) : Later L H p c := by
  intro n n' hn hn' hlt
  obtain ⟨-, n₁, -, hn₁, -, -, hnonneg, -⟩ := h.step
  obtain ⟨m', hm', hcstart, -⟩ := hc
  obtain rfl := Option.some.inj (hn.symm.trans hn₁)
  obtain rfl := Option.some.inj (hn'.symm.trans hm')
  have hten : minerSlotTime.toInt = 10000000000 := rfl
  have hfive : miningTickInterval.toInt = 5000000000 := rfl
  unfold slotStart at hcstart
  rw [hten, hfive] at hcstart
  rw [hp]
  omega

/-- Every block of a chain but the first has passed against its parent. -/
theorem passed_of_chain : ∀ {chain : List Block} {b₀ : Block},
    (b₀ :: chain).IsChain (Passed H L genesisTime) → ∀ c ∈ chain, ∃ p, Passed H L genesisTime p c
  | c :: chain, b₀, hpassed, x, hx => by
    rw [List.isChain_cons_cons] at hpassed
    rcases List.mem_cons.1 hx with rfl | hx
    · exact ⟨b₀, hpassed.1⟩
    · exact passed_of_chain hpassed.2 x hx

/-- **Slot order along accepted chains**, the oldest block first. -/
theorem slot_order (H : Headers) (L : Rounds) (genesisTime : Int64) (b₀ : Block) (chain : List Block)
    (hpassed : (b₀ :: chain).IsChain (Passed H L genesisTime)) :
    (b₀ :: chain).Pairwise (SlotLE L H) ∧
      (∀ b ∈ chain, SlotFits L H genesisTime b → InWindow L H genesisTime b) ∧
      chain.IsChain (fun p c =>
        SlotFits L H genesisTime p → SlotFits L H genesisTime c → Later L H p c) ∧
      (H.timestamp b₀ = genesisTime → ∀ c ∈ chain.head?, SlotFits L H genesisTime c →
        Later L H b₀ c) := by
  have hwindow : ∀ b ∈ chain, SlotFits L H genesisTime b → InWindow L H genesisTime b := by
    intro b hb hfit
    obtain ⟨p, hp⟩ := passed_of_chain hpassed b hb
    exact hp.inWindow hfit
  have htrans : IsTrans Block (SlotLE L H) := ⟨fun _ _ _ => SlotLE.trans⟩
  refine ⟨List.isChain_iff_pairwise.1 (hpassed.imp fun _ _ => Passed.slotLE), hwindow, ?_, ?_⟩
  · refine List.Pairwise.isChain (List.pairwise_of_forall_mem_list fun p hp c hc hfp hfc => ?_)
    exact later_of_inWindow (hwindow p hp hfp) (hwindow c hc hfc)
  · intro hgenesis c hc hfit
    cases chain with
    | nil => cases hc
    | cons c' chain =>
      obtain rfl := Option.some.inj hc
      exact later_of_genesis (List.isChain_cons_cons.1 hpassed).1 hgenesis (hwindow _ (by simp) hfit)

/-! ## Concrete chains -/

/-- A genesis block at time 100 s of the miner `"a"`, then a block of `"b"`, in one round. -/
def twoSlots (genesisTime bTs : Int64) : Headers where
  roundNum _ := 1
  timestamp b := if b.height = 0 then genesisTime else bTs

def slotGenesis : Block := ⟨"g", none, 0, "a", false⟩
def slotBlock : Block := ⟨"x", some "g", 1, "b", false⟩

theorem passed_twoSlots {genesisTime bTs : Int64}
    (h : (MinerCache.validateMiningOrder [⟨["a", "b"], 1, 2⟩] "a" "b" 1 1 bTs genesisTime) = .ok ()) :
    Passed (twoSlots genesisTime bTs) [["a", "b"]] genesisTime slotGenesis slotBlock := by
  refine ⟨[⟨["a", "b"], 1, 2⟩], ⟨fun k miners hlo hhi hk => ?_, fun k slots hlo hhi hk => ?_⟩, h⟩
  · obtain rfl : k = 1 := le_antisymm hhi hlo
    obtain rfl := Except.ok.inj hk
    rfl
  · obtain rfl : k = 0 := by
      have hlo : (1 : ℤ) ≤ k + 1 := hlo
      have hhi : k + 1 ≤ (1 : ℤ) := hhi
      omega
    obtain rfl := Except.ok.inj hk
    rfl

theorem absoluteSlot_twoSlots (genesisTime bTs : Int64) :
    absoluteSlot [["a", "b"]] (twoSlots genesisTime bTs) slotBlock = some 1 := rfl

theorem slot_order_twoSlots :
    [slotGenesis, slotBlock].Pairwise (SlotLE [["a", "b"]] (twoSlots 100000000000 105000000000)) ∧
      (∀ b ∈ [slotBlock],
        SlotFits [["a", "b"]] (twoSlots 100000000000 105000000000) 100000000000 b →
          InWindow [["a", "b"]] (twoSlots 100000000000 105000000000) 100000000000 b) ∧
      [slotBlock].IsChain (fun p c =>
        SlotFits [["a", "b"]] (twoSlots 100000000000 105000000000) 100000000000 p →
          SlotFits [["a", "b"]] (twoSlots 100000000000 105000000000) 100000000000 c →
            Later [["a", "b"]] (twoSlots 100000000000 105000000000) p c) ∧
      ((twoSlots 100000000000 105000000000).timestamp slotGenesis = 100000000000 →
        ∀ c ∈ [slotBlock].head?,
          SlotFits [["a", "b"]] (twoSlots 100000000000 105000000000) 100000000000 c →
            Later [["a", "b"]] (twoSlots 100000000000 105000000000) slotGenesis c) :=
  slot_order (twoSlots 100000000000 105000000000) [["a", "b"]] 100000000000 slotGenesis
    [slotBlock] (List.isChain_pair.2 (passed_twoSlots (by decide)))

/-- A genesis block at the largest time of 64 bits: the slots after it wrap around. -/
theorem not_slot_order : ¬ ∀ (H : Headers) (L : Rounds) (genesisTime : Int64) (b₀ : Block)
    (chain : List Block), (b₀ :: chain).IsChain (Passed H L genesisTime) →
      ∀ b ∈ chain, InWindow L H genesisTime b := by
  intro h
  have hwindow := h (twoSlots 9223372036854775807 (-9223372031854775809)) [["a", "b"]]
    9223372036854775807 slotGenesis [slotBlock] (List.isChain_pair.2 (passed_twoSlots (by decide)))
    slotBlock (by simp)
  obtain ⟨n, hn, hstart, -⟩ := hwindow
  obtain rfl := Option.some.inj ((absoluteSlot_twoSlots _ _).symm.trans hn)
  exact absurd hstart (by decide)

end MinerCache

end Timbre
