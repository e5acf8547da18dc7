/-
  The election of the next committee: its size, and the candidates copied into it.
-/
import Timbre.Dpos.State
import Timbre.Lib.Float64

namespace Timbre
namespace Committee

def minComSize : UInt32 := 1
def maxComSize : UInt32 := 15

/-! ## The source -/

/-- The candidate holds a tenth of the staked votes, by the float comparison of
    `ComputeNextCommitteeSize`. -/
def meetsThreshold (totalVoteStaked : UInt64) (c : Candidate) : Bool :=
  Float64.geTenth c.votePower.toInt totalVoteStaked.toNat

/-- The loop of `ComputeNextCommitteeSize`. -/
def countSize (totalVoteStaked : UInt64) : List Candidate → UInt32 → UInt32
  | [], size => size
  | c :: cs, size =>
    let size := if meetsThreshold totalVoteStaked c then size + 1 else size
    if c.votePower = 0 then size else countSize totalVoteStaked cs size

/-- `ComputeNextCommitteeSize`: the size it returns and the state it leaves. -/
def computeNextCommitteeSize (s : State) (sortedCand : List Candidate) : UInt32 × State :=
  if s.totalVoteStaked = 0 ∨ sortedCand.length = 0 then
    let comLen := UInt32.ofNat sortedCand.length
    let s := { s with childCommitteeSize := comLen }
    if comLen ≤ maxComSize then (comLen, s)
    else if comLen > maxComSize then (maxComSize, s)
    else (minComSize, s)
  else
    let size := countSize s.totalVoteStaked sortedCand 0
    let s := { s with childCommitteeSize := size }
    if size > maxComSize then (maxComSize, s) else (size, s)

/-- The loop of `copyCandToNextRoundCommittee`, from index `index` on.  The bound
    `nextComSize - 1` is unsigned. -/
def copyFrom (nextComSize : UInt32) : ℕ → List Candidate → List Candidate
  | _, [] => []
  | index, cand :: cands =>
    cand :: if UInt32.ofNat index ≥ nextComSize - 1 then [] else copyFrom nextComSize (index + 1) cands

/-- `copyCandToNextRoundCommittee`. -/
def copyCandToNextRoundCommittee (committeeCand : List Candidate) (nextComSize : UInt32) :
    List Candidate := copyFrom nextComSize 0 committeeCand

/-- The election as `AdvanceRound` and `TransitionRound` run it; `order` is the order in
    which the map yields the candidates. -/
def electNextCommittee (s : State) (bcHeight : ℤ) (order : List Candidate) :
    Except Err (List Candidate) := do
  let committeeCand ← State.sortByVotes bcHeight order
  let nextComSize := (computeNextCommitteeSize s committeeCand).1
  return copyCandToNextRoundCommittee committeeCand nextComSize

/-! ## What an election is for -/

/-- The candidate holds at least a tenth of the staked votes. -/
def HasTenth (s : State) (c : Candidate) : Prop :=
  (s.totalVoteStaked.toNat : ℤ) ≤ 10 * c.votePower.toInt

instance (s : State) : DecidablePred (HasTenth s) := fun c =>
  inferInstanceAs (Decidable ((s.totalVoteStaked.toNat : ℤ) ≤ 10 * c.votePower.toInt))

/-- The condition on the candidates and the votes under which it does. -/
structure Electable (s : State) (h : ℤ) : Prop where
  /-- A ban is only looked for from height 1 on, and at most one candidate is banned. -/
  fewBanned : h = 0 ∨ s.candidates.countP (fun c => State.Banned h c) ≤ 1
  /-- Without votes the number of candidates, as the code counts it, is not 0. -/
  unstaked : s.totalVoteStaked = 0 → s.eligible h ≠ [] → (s.eligible h).length % 2 ^ 32 ≠ 0
  /-- With votes, the candidates that meet the threshold, as the code counts them, are
      some and as many, up to the cap, as hold a tenth; or none do and all hold a tenth. -/
  staked : 0 < s.totalVoteStaked →
    let met := (s.eligible h).countP (meetsThreshold s.totalVoteStaked) % 2 ^ 32
    let tenth := (s.eligible h).countP fun c => HasTenth s c
    if met = 0 then tenth = (s.eligible h).length ∧ tenth ≤ maxComSize.toNat
    else min met maxComSize.toNat = min tenth maxComSize.toNat

/-! ## The size -/

/-- **The copy** takes as many candidates as the size says, and `2 ^ 32` of them for the
    size 0. -/
theorem copyCand_spec (cs : List Candidate) (size : UInt32) :
    copyCandToNextRoundCommittee cs size =
      cs.take (if size = 0 then 2 ^ 32 else size.toNat) := by
  have hlast : (if size = 0 then 2 ^ 32 else size.toNat) =
      (size - 1).toNat + 1 := by
    split_ifs with h0
    · subst h0; rfl
    · have hpos : 0 < size.toNat := Nat.pos_of_ne_zero fun h => h0 (UInt32.toNat_inj.1 h)
      have hone : (1 : UInt32).toNat ≤ size.toNat := hpos
      rw [UInt32.toNat_sub_of_le _ _ (UInt32.le_iff_toNat_le.2 hone)]
      simp; omega
  have hfrom : ∀ (cs : List Candidate) (index : ℕ), index ≤ (size - 1).toNat →
      copyFrom size index cs = cs.take ((size - 1).toNat + 1 - index) := by
    intro cs
    induction cs with
    | nil => intro index _; simp [copyFrom]
    | cons c cs ih =>
      intro index hle
      have hnat : (UInt32.ofNat index).toNat = index := by
        have := (size - 1).toNat_lt
        simp; omega
      simp only [copyFrom, ge_iff_le, UInt32.le_iff_toNat_le, hnat]
      split_ifs with hstop
      · obtain rfl : index = (size - 1).toNat := by omega
        simp
      · rw [ih (index + 1) (by omega),
          show (size - 1).toNat + 1 - index = (size - 1).toNat + 1 - (index + 1) + 1 by omega,
          List.take_succ_cons]
  rw [copyCandToNextRoundCommittee, hfrom cs 0 (Nat.zero_le _), hlast, Nat.sub_zero]

theorem meetsThreshold_iff {s : State} {c : Candidate} (htotal : s.totalVoteStaked.toNat < 2 ^ 53)
    (hpos : 0 < s.totalVoteStaked) (hc : c.votePower.toInt < 2 ^ 53) :
    meetsThreshold s.totalVoteStaked c ↔ HasTenth s c := by
  have hpos : 0 < s.totalVoteStaked.toNat := by simpa [UInt64.lt_iff_toNat_lt] using hpos
  unfold meetsThreshold HasTenth
  rcases le_or_gt c.votePower.toInt 0 with h0 | h0
  · rw [Float64.not_geTenth_of_nonpos h0 hpos]
    simp; omega
  · have hv : c.votePower.toInt = (c.votePower.toInt.toNat : ℤ) := (Int.toNat_of_nonneg h0.le).symm
    rw [hv, Float64.geTenth_iff (by omega) htotal]
    omega

/-- For such votes the election is right once somebody eligible holds a tenth, unless two
    candidates are banned. -/
theorem electable_iff {s : State} {h : ℤ} (hcount : (s.eligible h).length < 2 ^ 32)
    (htotal : s.totalVoteStaked.toNat < 2 ^ 53)
    (hvotes : ∀ c ∈ s.eligible h, c.votePower.toInt < 2 ^ 53) :
    Electable s h ↔ (h = 0 ∨ s.candidates.countP (fun c => State.Banned h c) ≤ 1) ∧
      (0 < s.totalVoteStaked → s.eligible h ≠ [] → ∃ c ∈ s.eligible h, HasTenth s c) := by
  have hmet : 0 < s.totalVoteStaked → (s.eligible h).countP (meetsThreshold s.totalVoteStaked) =
      (s.eligible h).countP fun c => HasTenth s c := fun hpos =>
    List.countP_congr fun c hc => by simp [meetsThreshold_iff htotal hpos (hvotes c hc)]
  have hle : (s.eligible h).countP (fun c => HasTenth s c) ≤ (s.eligible h).length :=
    List.countP_le_length
  have hsome : (∃ c ∈ s.eligible h, HasTenth s c) ↔
      0 < (s.eligible h).countP fun c => HasTenth s c := by
    simp [List.countP_pos_iff]
  have hmod : (s.eligible h).countP (fun c => HasTenth s c) % 2 ^ 32 =
      (s.eligible h).countP fun c => HasTenth s c := Nat.mod_eq_of_lt (by omega)
  constructor
  · refine fun he => ⟨he.fewBanned, fun hpos hne => ?_⟩
    have hst := he.staked hpos
    rw [hmet hpos, hmod] at hst
    rw [← List.length_pos_iff] at hne
    rw [hsome]
    by_contra h0
    simp only [show (s.eligible h).countP (fun c => HasTenth s c) = 0 by omega, if_true] at hst
    omega
  · rintro ⟨hfew, hten⟩
    refine ⟨hfew, fun _ hne => ?_, fun hpos => ?_⟩
    · rw [← List.length_pos_iff] at hne
      rw [Nat.mod_eq_of_lt hcount]
      omega
    · rw [hmet hpos, hmod]
      rw [hsome, ← List.length_pos_iff] at hten
      have := hten hpos
      simp only
      split_ifs with h0
      · have : (s.eligible h).length = 0 := by omega
        exact ⟨by omega, by omega⟩

end Committee
end Timbre
