/-
  Rounds that are caught up with, some of them without a candidate.

  `AdvanceRound` counts the round before it looks at the committee, and leaves the cache alone if
  there is none; `UpdateDpos` goes on with the next round.  **The last round of the cache is that of
  the DPOS after every call, and no entry is missing, exactly if every round that begins has a
  committee** (`inStep_iff`).
-/
import Timbre.Dpos.Snapshot
import Timbre.Lib.Runs

namespace Timbre
namespace Dpos

/-- A call of `AdvanceRound`, and the candidates that there are by then. -/
structure RoundCall where
  candidates : State
  wallets : WalletAccess
  order : CandidateOrder
  bcHeight : ℤ

namespace RoundCall

def run (c : RoundCall) (d : Dpos) : Except Err Dpos :=
  { d with state := c.candidates }.advanceRound c.wallets c.order c.bcHeight

/-- The candidates with the votes that they have in the wallets. -/
def state (c : RoundCall) : State := c.candidates.updateVotePower c.wallets

/-- The candidates as `SortByVotes` ranks them. -/
def sorted (c : RoundCall) : Except Err (List Candidate) :=
  State.sortByVotes c.bcHeight (c.order.list c.state.candidates)

end RoundCall

/-! ## What a call should do -/

/-- The last round of the cache is that of the DPOS, and `AddOrUpdateMinerEntry` misses no entry. -/
structure InStep (res : Except Err Dpos) : Prop where
  last : ∀ d', res = .ok d' → d'.minerCache.getLast?.map MinersInRound.round = some d'.roundNumber
  noneMissing : res ≠ .error (.panic "Some entry is missing")

/-- The condition: before the first round there is a candidate to elect, and if there are `2 ^ 32` of
    them one has a tenth of the votes; before a later one the members elected for it, as the code
    counts them, are not none. -/
def Elects (c : RoundCall) (d : Dpos) : Prop := ∀ cands, c.sorted = .ok cands →
  if d.roundNumber = 0 then
    cands ≠ [] ∧ (2 ^ 32 ≤ cands.length → (Committee.computeNextCommitteeSize c.state cands).1 ≠ 0)
  else UInt32.ofNat d.nextRoundCommittee.length ≠ 0

/-! ## One call -/

variable {d d' : Dpos} {c : RoundCall} {cands : List Candidate}

/-- The first round has a committee. -/
theorem elected_ne_zero {size : UInt32} :
    UInt32.ofNat (Committee.copyCandToNextRoundCommittee cands size).length ≠ 0 ↔
      cands ≠ [] ∧ (2 ^ 32 ≤ cands.length → size ≠ 0) := by
  rw [Committee.copyCand_spec, List.length_take, ne_eq, ← UInt32.toNat_inj, UInt32.toNat_ofNat', UInt32.toNat_zero,
    ← List.length_pos_iff]
  split_ifs with hsize
  · simp only [hsize, ne_eq, not_true, imp_false, not_le]
    omega
  · have hlt := size.toNat_lt
    have hpos : 0 < size.toNat := Nat.pos_of_ne_zero fun h => hsize (UInt32.toNat_inj.1 h)
    rw [Nat.mod_eq_of_lt (by omega)]
    simp only [ne_eq, hsize, not_false_eq_true, implies_true, and_true]
    omega

/-- Sorting fails in one way only. -/
theorem removeBanned_error {h : ℤ} {e : Err} : ∀ {remaining i len : ℕ} {arr : List Candidate},
    State.removeBanned h arr len i remaining = .error e → e = .panic "slice bounds out of range"
  | 0, _, _, _, herr => by cases herr
  | remaining + 1, i, len, arr, herr => by
    rw [State.removeBanned] at herr
    split_ifs at herr
    · exact (Except.error.inj herr).symm
    · exact removeBanned_error herr
    · exact removeBanned_error herr

theorem sorted_error {e : Err} (herr : c.sorted = .error e) : e = .panic "slice bounds out of range" := by
  unfold RoundCall.sorted State.sortByVotes at herr
  split_ifs at herr
  · cases hremove : State.removeBanned c.bcHeight (c.order.list c.state.candidates)
        (c.order.list c.state.candidates).length 0 (c.order.list c.state.candidates).length with
    | error e' =>
      rw [hremove] at herr
      rw [← Except.error.inj herr]
      exact removeBanned_error hremove
    | ok cands =>
      rw [hremove] at herr
      cases herr
  · cases herr

/-- The cache ends with the round of the DPOS, if there has been one. -/
def UpToDate (d : Dpos) : Prop := (d.minerCache = [] ∧ d.roundNumber = 0) ∨
  (0 < d.roundNumber ∧ d.minerCache.getLast?.map MinersInRound.round = some d.roundNumber)

theorem round_pushMiners (cache : MinerCache) (miners : List Address) {e : MinersInRound} {round : ℤ}
    (hround : e.round + 1 = round) : (cache.pushMiners e miners round).getLast?.map MinersInRound.round = some round := by
  unfold MinerCache.pushMiners
  split_ifs
  · rw [List.getLast?_concat, Option.map_some, hround]
  · rw [List.getLast?_concat, Option.map_some]

/-- The next round is never too far from a cache that is up to date. -/
theorem UpToDate.addOrUpdate (hd : UpToDate d) (miners : List Address) :
    ∃ cache, d.minerCache.addOrUpdateMinerEntry miners (d.roundNumber + 1) = .ok cache ∧
      cache.getLast?.map MinersInRound.round = some (d.roundNumber + 1) := by
  rcases hd with ⟨hnil, -⟩ | ⟨-, hlast⟩
  · rw [hnil]
    exact ⟨_, rfl, rfl⟩
  · obtain ⟨e, he, hround⟩ := Option.map_eq_some_iff.1 hlast
    refine ⟨_, ?_, round_pushMiners d.minerCache miners (e := e) (by omega)⟩
    unfold MinerCache.addOrUpdateMinerEntry
    rw [he]
    dsimp only
    rw [if_neg (by omega), if_neg (by omega)]

theorem run_eq (c : RoundCall) (d : Dpos) :
    c.run d = c.sorted >>= fun cands => beginRound c.state cands { d with state := c.candidates } := rfl

theorem roundNumber_run (hrun : c.run d = .ok d') : d'.roundNumber = d.roundNumber + 1 := by
  rw [run_eq] at hrun
  obtain ⟨cands, -, hround⟩ := except_bind_ok hrun
  exact (beginRound_begun hround).roundNumber

/-- The committee of the round that begins. -/
theorem committee_ne_zero (c : RoundCall) (d : Dpos) (cands : List Candidate) :
    UInt32.ofNat (if d.roundNumber + 1 = 1 then Committee.copyCandToNextRoundCommittee cands
        (Committee.computeNextCommitteeSize c.state cands).1 else d.nextRoundCommittee).length ≠ 0 ↔
      if d.roundNumber = 0 then
        cands ≠ [] ∧ (2 ^ 32 ≤ cands.length → (Committee.computeNextCommitteeSize c.state cands).1 ≠ 0)
      else UInt32.ofNat d.nextRoundCommittee.length ≠ 0 := by
  by_cases h0 : d.roundNumber = 0
  · rw [if_pos h0, if_pos (by omega)]
    exact elected_ne_zero
  · rw [if_neg h0, if_neg (by omega)]

/-- **One call** keeps the cache in step exactly if the round that begins has a committee. -/
theorem inStep_run (hd : UpToDate d) : InStep (c.run d) ↔ Elects c d := by
  rw [run_eq]
  unfold Elects
  cases hsorted : c.sorted with
  | error e =>
    rw [sorted_error hsorted]
    refine iff_of_true ⟨nofun, fun h => ?_⟩ nofun
    exact absurd (Err.panic.inj (Except.error.inj h)) (by decide)
  | ok cands =>
    have helects := committee_ne_zero c d cands
    simp only [Except.ok.injEq, forall_eq']
    rw [← helects]
    change InStep (beginRound c.state cands { d with state := c.candidates }) ↔ _
    unfold beginRound
    dsimp only
    generalize (if d.roundNumber + 1 = 1 then _ else d.nextRoundCommittee) = committee
    by_cases hzero : UInt32.ofNat committee.length = 0
    · rw [if_pos hzero]
      refine iff_of_false (fun h => ?_) (not_not.2 hzero)
      -- the round has been counted, and the cache has no entry for it
      have hlast := h.last _ rfl
      rcases hd with ⟨hnil, -⟩ | ⟨-, hd⟩
      · rw [hnil] at hlast
        cases hlast
      · rw [hd, Option.some.injEq] at hlast
        dsimp only at hlast
        omega
    · rw [if_neg hzero]
      obtain ⟨cache, hcache, hlast⟩ := hd.addOrUpdate (committee.map Candidate.address)
      rw [hcache]
      refine iff_of_true ⟨fun d' hd' => ?_, nofun⟩ hzero
      rw [← Except.ok.inj hd']
      exact hlast

/-- **Catching up**: in every run of calls from the start on, with any candidates in between, the
    cache is in step after each exactly if every round that begins has a committee. -/
theorem inStep_iff (calls : List RoundCall) :
    Runs.Always RoundCall.run (fun _ _ res => InStep res) calls init ↔
      Runs.Always RoundCall.run (fun c d _ => Elects c d) calls init := by
  refine Runs.always_iff (I := UpToDate) (fun c d hd => inStep_run hd) ?_ calls (.inl ⟨rfl, rfl⟩)
  intro c d d' hd hrun hstep
  have hround := roundNumber_run hrun
  refine .inr ⟨?_, hstep.last d' rfl⟩
  rcases hd with ⟨-, h0⟩ | ⟨hpos, -⟩ <;> omega

/-- A first round without candidates. -/
theorem not_inStep : ¬ ∀ calls : List RoundCall, Runs.Always RoundCall.run (fun _ _ res => InStep res) calls init := by
  intro h
  have hcall := (h [⟨.newDposState, noAccess, plainOrder, 0⟩]).1
  have helects := (inStep_run (.inl ⟨rfl, rfl⟩)).1 hcall [] (by decide)
  exact helects.1 rfl

end Dpos
end Timbre
