/-
  The votes staked in total, and those of the candidates.

  The total follows the changes of the votes, but the votes of a candidate that quits stay in it.
  **It is the sum of the votes of the candidates, in every state of a run, exactly if no candidate
  quits with votes** (`staked_iff`).
-/
import Timbre.Dpos.Snapshot
import Timbre.Lib.Runs

namespace Timbre
namespace State

/-- A call that changes the candidates or their votes. -/
inductive StateCall where
  | registerCand (id : Address)
  | quitCandidate (id : Address)
  | addGenesisRoundCand (address : Address)
  | updateVotePower (w : WalletAccess)

/-- The call; a registration or a resignation that is refused changes nothing. -/
def StateCall.run : StateCall → State → Except Err State
  | registerCand id, s => match s.registerCand id with
    | .ok s' => .ok s'
    | .error _ => .ok s
  | quitCandidate id, s => match s.quitCandidate id with
    | .ok s' => .ok s'
    | .error _ => .ok s
  | addGenesisRoundCand address, s => .ok (s.addGenesisRoundCand address)
  | updateVotePower w, s => .ok (s.updateVotePower w)

/-! ## What the total should be -/

/-- The votes of the candidates in the set. -/
def votes (s : State) : UInt64 := (s.candidates.map fun c => c.votePower.toUInt64).sum

/-- The total is that of the candidates in the set, and so is the threshold of the election. -/
structure Staked (s : State) : Prop where
  total : s.totalVoteStaked = s.votes
  threshold : ∀ c, Committee.meetsThreshold s.totalVoteStaked c = Committee.meetsThreshold s.votes c

/-- The call does not remove a candidate that has votes. -/
def StateCall.RemovesNoVotes (s : State) : StateCall → Prop
  | quitCandidate id => ∀ c, s.candidateState.lookup id = some c → c.votePower = 0
  | registerCand _ | addGenesisRoundCand _ | updateVotePower _ => True

/-! ## The votes beyond those of the candidates -/

variable {s s' : State} {id : Address}

theorem staked_iff_excess : Staked s ↔ s.excess = 0 := by
  constructor
  · intro h
    exact sub_eq_zero.2 h.total
  · intro h
    have htotal : s.totalVoteStaked = s.votes := sub_eq_zero.1 h
    exact ⟨htotal, fun c => by rw [htotal]⟩

theorem excess_addGenesisRoundCand (s : State) (address : Address) :
    (s.addGenesisRoundCand address).excess = s.excess := by
  unfold addGenesisRoundCand
  split_ifs with h
  · rfl
  · exact excess_registerCand (if_neg h)

theorem votes_eq_zero {v : Int64} (h : v.toUInt64 = 0) : v = 0 := by
  rw [← Int64.toInt64_toUInt64 v, h]
  rfl

/-- **One call** keeps the total right exactly if it removes no votes. -/
theorem run_staked_iff (call : StateCall) (hs : Staked s) :
    (∀ s', call.run s = .ok s' → Staked s') ↔ call.RemovesNoVotes s := by
  rw [staked_iff_excess] at hs
  simp only [staked_iff_excess]
  cases call with
  | registerCand id =>
    refine iff_of_true (fun s' hs' => ?_) trivial
    unfold StateCall.run at hs'
    dsimp only at hs'
    cases hreg : s.registerCand id with
    | error e =>
      rw [hreg] at hs'
      rwa [← Except.ok.inj hs']
    | ok s₁ =>
      rw [hreg] at hs'
      rw [← Except.ok.inj hs', excess_registerCand hreg, hs]
  | quitCandidate id =>
    unfold StateCall.run StateCall.RemovesNoVotes
    dsimp only
    cases hquit : s.quitCandidate id with
    | error e =>
      have habsent : s.candidateState.lookup id = none := by
        rcases quitCandidate_cases s id with ⟨s₁, hs₁, -⟩ | ⟨e', -, hnot⟩
        · rw [hquit] at hs₁
          cases hs₁
        · exact AList.lookup_eq_none.2 hnot
      refine iff_of_true (fun s' hs' => ?_) fun c hc => ?_
      · rwa [← Except.ok.inj hs']
      · rw [habsent] at hc
        cases hc
    | ok s₁ =>
      constructor
      · intro h c hc
        refine votes_eq_zero ?_
        rw [← zero_add c.votePower.toUInt64, ← hs, ← excess_quitCandidate hquit hc, hs]
        exact h s₁ rfl
      · intro h s' hs'
        obtain rfl := Except.ok.inj hs'
        obtain ⟨c, hc⟩ : ∃ c, s.candidateState.lookup id = some c := by
          rcases quitCandidate_cases s id with ⟨-, -, hin, -⟩ | ⟨e', he', -⟩
          · exact Option.isSome_iff_exists.1 (AList.lookup_isSome.2 hin)
          · rw [hquit] at he'
            cases he'
        rw [excess_quitCandidate hquit hc, hs, h c hc]
        rfl
  | addGenesisRoundCand address =>
    refine iff_of_true (fun s' hs' => ?_) trivial
    rw [← Except.ok.inj hs', excess_addGenesisRoundCand, hs]
  | updateVotePower w =>
    refine iff_of_true (fun s' hs' => ?_) trivial
    rw [← Except.ok.inj hs', excess_updateVotePower, hs]

/-- **The total is that of the candidates after every call**, from no candidates on, exactly if no
    call removes a candidate that has votes. -/
theorem staked_iff (calls : List StateCall) :
    Runs.Always StateCall.run (fun _ _ res => ∀ s', res = .ok s' → Staked s') calls newDposState ↔
      Runs.Always StateCall.run (fun call s _ => call.RemovesNoVotes s) calls newDposState := by
  have hempty : Staked newDposState := staked_iff_excess.2 rfl
  refine Runs.always_iff (I := Staked) (fun call s hs => run_staked_iff call hs) ?_ calls hempty
  intro call s s' _ _ hstaked
  exact hstaked s' rfl

def tenAccess : WalletAccess := Dpos.plainAccess ["a"] (List.nodup_singleton _)

/-- A candidate with ten votes quits. -/
theorem not_staked : ¬ ∀ calls : List StateCall,
    Runs.Always StateCall.run (fun _ _ res => ∀ s', res = .ok s' → Staked s') calls newDposState := by
  intro h
  obtain ⟨-, hregistered⟩ := h [.registerCand "a", .updateVotePower tenAccess, .quitCandidate "a"]
  obtain ⟨hstaked, hupdated⟩ := hregistered Dpos.oneState rfl
  have hquit := (hupdated _ rfl).1
  have hten : (Dpos.oneState.updateVotePower tenAccess).candidateState.lookup "a" =
      some ⟨"a", 10, -1⟩ := by decide
  have hzero := (run_staked_iff (.quitCandidate "a") (hstaked _ rfl)).1 hquit ⟨"a", 10, -1⟩ hten
  exact absurd hzero (by decide)

end State
end Timbre
