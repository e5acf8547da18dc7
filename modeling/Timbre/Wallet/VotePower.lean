/-
  The vote power of the candidates along runs.

  The vote power of a wallet is the sum of the shares that the voters give to it, as long as
  two things do not happen: an address gets its wallet when it already has shares, which are
  lost; and the charge for a post tells the vote power another change than it books.
  **`votePower_of_run` says that nothing else can go wrong.**
-/
import Timbre.Wallet.Run

namespace Timbre

open Call

/-- Entries that keep the vote power right, for the accounts `b` and the wallets `K` before
    them: nobody who already has shares gets a wallet, and no vote power is told anything
    else than what is booked. -/
def Entry.Faithful (E : Env) (bRound : Int64) (miner : Address) :
    List Entry → Finset Address → Book → Prop
  | [], _, _ => True
  | x :: xs, K, b => (∀ c ∈ x.new, c ∉ K → b.stake E c = 0) ∧
      (∀ c ∈ K ∪ x.new, x.gap E bRound b c = 0) ∧
      Faithful E bRound miner xs (K ∪ x.new) (b + x.effect E bRound miner)

namespace WalletManager

variable {E : Env} {bRound : Int64} {wm wm' w : WalletManager} {a c miner : Address} {block : PbBlock}
  {order : MapOrder} {es : List Event} {x : Entry} {xs : List Entry}

/-- The vote power of every wallet is the sum of the shares that it gets. -/
def Tracked (E : Env) (wm : WalletManager) : Prop := ∀ c ∈ wm.keys, wm.drift E c = 0

/-- The condition on the entries of an event. -/
def FaithfulEvent (E : Env) (wm : WalletManager) : Event → Prop
  | .block block minerAdd =>
    Entry.Faithful E block.roundNum minerAdd
      (if block.isGenesis = false ∧ block.isDigestBlock then [.opened minerAdd]
        else journal E block minerAdd wm.times) wm.keys wm.book
  | .outside => True

theorem Made.tracked (h : Made E bRound miner x wm wm')
    (hnew : ∀ c ∈ x.new, c ∉ wm.keys → wm.book.stake E c = 0)
    (hgap : ∀ c ∈ wm.keys ∪ x.new, x.gap E bRound wm.book c = 0) (ht : Tracked E wm) :
    Tracked E wm' := by
  intro c hc
  rw [h.drift c hc, hgap c (h.keys ▸ hc), add_zero]
  by_cases hold : c ∈ wm.keys
  · exact ht c hold
  · have hc' := (Finset.mem_union.1 (h.keys ▸ hc)).resolve_left hold
    rw [drift_absent hold, hnew c hc' hold, neg_zero]

theorem AllMade.tracked (h : AllMade E bRound miner xs wm wm') :
    Entry.Faithful E bRound miner xs wm.keys wm.book → Tracked E wm → Tracked E wm' := by
  induction h with
  | nil => exact fun _ ht => ht
  | cons hx _ ih =>
    rintro ⟨hnew, hgap, hxs⟩ ht
    exact ih (hx.keys ▸ hx.book ▸ hxs) (hx.tracked hnew hgap ht)

theorem DigestApplied.tracked (h : DigestApplied E miner order block wm w wm') (hg : wm.Good)
    (ht : Tracked E wm) : Tracked E wm' := by
  intro c hc
  have hc₁ : c ∈ wm.tidied.keys := h.keys ▸ hc
  have hc₂ : c ∈ w.keys := h.rewarded.keys ▸ hc₁
  rw [h.reset.drift c hc₂, h.rewarded.drift c hc₁, drift_tidied hg.sound.losesNoVotes hc₁]
  exact ht c (keys_tidied_subset hg.mine hc₁)

theorem Happens.tracked {e : Event} (h : Happens E e wm wm') (hg : wm.Good)
    (hf : FaithfulEvent E wm e) (ht : Tracked E wm) : Tracked E wm' := by
  cases h with
  | @block block minerAdd _ _ order h =>
    rcases accepted_cases hg h with ⟨hmade, -, hblock⟩ | ⟨⟨w, hw⟩, hgen, hdig⟩
    · refine hmade.tracked ?_ ht
      rwa [FaithfulEvent, if_neg] at hf
      rintro ⟨hgen, hdig⟩
      rcases hblock with h | h <;> simp_all
    · rw [FaithfulEvent, if_pos ⟨hgen, hdig⟩] at hf
      have hopen : Made E block.roundNum minerAdd (.opened minerAdd) wm (wm.put minerAdd) :=
        made_opened_of_move (.refl E _)
      exact hw.tracked (hg.put _) (hopen.tracked hf.1 hf.2.1 ht)
  | outside => exact ht

theorem Fresh.stake (h : Fresh wm) (c : Address) : wm.book.stake E c = 0 := by
  refine Poll.tally_eq_zero E.share_zero fun v => ?_
  rw [book, h.wallet]
  rfl

theorem Fresh.tracked (h : Fresh wm) : Tracked E wm := by
  intro c _
  rw [drift, h.stake, h.wallet]
  rfl

/-- **The vote power invariant.**  In a run whose events meet the condition the vote power
    of every wallet is the sum of the shares that the voters give to it. -/
theorem votePower_of_run (E : Env) (es : List Event) (wm wm' : WalletManager) (h₀ : Fresh wm)
    (h : Steps (fun e wm wm' => Happens E e wm wm' ∧ FaithfulEvent E wm e) es wm wm') :
    ∀ c ∈ wm'.keys, (wm'.wallet c).votePower =
      ∑ v ∈ wm'.keys, E.share ((wm'.wallet v).voted.get c) (wm'.wallet v).balance := by
  have hinv : wm'.Good ∧ Tracked E wm' :=
    Steps.invariant (I := fun wm => wm.Good ∧ Tracked E wm) h ⟨h₀.good, h₀.tracked⟩
      fun _ _ _ _ hs hx => ⟨hx.1.good hs.1, hx.1.tracked hs.1 hx.2 hs.2⟩
  intro c hc
  rw [← stake_eq_sum subset_rfl, ← sub_eq_zero]
  exact hinv.2 c hc

/-! ## A vote for a candidate with a wallet, and for one without -/

/-- Half of the votes of `"a"`, given to the miner. -/
def voteForMiner : PbBlock := .simple [.simple .vote "a" 1 0 "" "+50|m"] [] []

/-- Half of the votes of `"a"`, given to `"b"`, who gets a wallet only later. -/
def voteForStranger : PbBlock :=
  .simple [.simple .vote "a" 1 0 "" "+50|b", .simple .transfer "a" 2 0 "b" ""] [] []

theorem happens_voteForMiner : Happens Env.simple (.block voteForMiner "m")
    (newWalletManager "m") (afterBlock voteForMiner) := happens_afterBlock (by decide +kernel)

theorem happens_voteForStranger : Happens Env.simple (.block voteForStranger "m")
    (newWalletManager "m") (afterBlock voteForStranger) := happens_afterBlock (by decide +kernel)

theorem faithful_voteForMiner :
    FaithfulEvent Env.simple (newWalletManager "m") (.block voteForMiner "m") := by
  have hjournal : (if voteForMiner.isGenesis = false ∧ voteForMiner.isDigestBlock then [.opened "m"]
      else journal Env.simple voteForMiner "m" (newWalletManager "m").times) =
      [.opened "m", .paid "m" 10, .transaction (.simple .vote "a" 1 0 "" "+50|m")] := by
    have hreward : blockReward Env.simple voteForMiner = 10 := by decide +kernel
    rw [if_neg (by decide), journal, if_neg (by decide), hreward]
    rfl
  have hvotes : ∀ v, (((newWalletManager "m").book + 0 + Book.pay "m" 10) v).votes = 0 := by
    intro v
    simp only [Pi.add_apply, Account.votes_add, (Book.voteless_pay "m" 10 v).1]
    rfl
  rw [FaithfulEvent, hjournal]
  refine ⟨fun c hc hc' => absurd hc hc', fun _ _ => rfl, fun c hc => absurd hc (Finset.notMem_empty c),
    fun _ _ => rfl, fun c _ _ => ?_, fun _ _ => rfl, trivial⟩
  exact Poll.tally_eq_zero Env.simple.share_zero fun v => congrFun (hvotes v) c

theorem votePower_of_run_voteForMiner :
    ((afterBlock voteForMiner).wallet "m").votePower = ∑ v ∈ (afterBlock voteForMiner).keys,
      Env.simple.share (((afterBlock voteForMiner).wallet v).voted.get "m")
        ((afterBlock voteForMiner).wallet v).balance :=
  votePower_of_run Env.simple [.block voteForMiner "m"] (newWalletManager "m") _
    (fresh_newWalletManager "m") (.single ⟨happens_voteForMiner, faithful_voteForMiner⟩) "m" (by decide +kernel)

/-- A vote for an address without a wallet never reaches its vote power. -/
theorem not_votePower : ¬ ∀ (E : Env) (es : List Event) (wm wm' : WalletManager), Fresh wm →
    Run E es wm wm' → ∀ c ∈ wm'.keys, (wm'.wallet c).votePower =
      ∑ v ∈ wm'.keys, E.share ((wm'.wallet v).voted.get c) (wm'.wallet v).balance := by
  intro h
  have hb := h Env.simple _ _ _ (fresh_newWalletManager "m") (.single happens_voteForStranger) "b"
    (by decide +kernel)
  revert hb
  decide +kernel

end WalletManager
end Timbre
