/-
  Runs: blocks are accepted one after the other, and the rest of the node goes on in between.
-/
import Timbre.Wallet.Digest

namespace Timbre

open Call

/-- What can happen to the wallets. -/
inductive Event where
  /-- a block by a miner is accepted -/
  | block (block : PbBlock) (minerAdd : Address)
  /-- the DPOS, or the deals that the node has stored, change -/
  | outside

namespace WalletManager

/-- An event takes the wallets from one state to another. -/
inductive Happens (E : Env) : Event → WalletManager → WalletManager → Prop
  | block {block : PbBlock} {minerAdd : Address} {wm wm' : WalletManager} (order : MapOrder) :
      checkAndUpdateWalletStates E block minerAdd order wm = (.ok (), wm') →
      Happens E (.block block minerAdd) wm wm'
  | outside (wm : WalletManager) (executor : State) (node : Node) :
      Happens E .outside wm { wm with executor, node }

/-- A run. -/
def Run (E : Env) : List Event → WalletManager → WalletManager → Prop := Steps (Happens E)

/-- The state that a node starts from: no wallet has been used. -/
structure Fresh (wm : WalletManager) : Prop where
  wallet : ∀ a, wm.wallet a = newWallet
  mine : wm.myAddress ∈ wm.keys

theorem fresh_newWalletManager (me : Address) : Fresh (newWalletManager me) :=
  ⟨fun _ => rfl, Finset.mem_insert_self _ _⟩

/-- What holds in every state of a run. -/
structure Good (wm : WalletManager) : Prop where
  sound : wm.Sound
  mine : wm.myAddress ∈ wm.keys

variable {E : Env} {bRound : Int64} {wm wm' w : WalletManager} {a miner : Address} {block : PbBlock}
  {order : MapOrder} {es : List Event} {xs : List Entry}

theorem Fresh.good (h : Fresh wm) : wm.Good where
  sound a := by
    rw [book, h.wallet]
    exact sound_newWallet
  mine := h.mine

theorem AllMade.mem (h : AllMade E bRound miner xs wm wm') (ha : a ∈ wm.keys) : a ∈ wm'.keys :=
  Steps.invariant (I := fun wm => a ∈ wm.keys) h ha fun _ _ _ _ hs hx =>
    hx.keys ▸ Finset.mem_union_left _ hs

theorem AllMade.sound (h : AllMade E bRound miner xs wm wm') (hs : wm.Sound) : wm'.Sound :=
  Steps.invariant (I := Sound) h hs fun _ _ _ _ hs hx a => hx.sound a (hs a)

theorem voteless_digestReward (miner : Address) (block : PbBlock) (wm : WalletManager) :
    (digestReward E miner block wm).Voteless := by
  unfold digestReward
  split_ifs
  · exact Book.voteless_pay _ _
  · exact fun _ => ⟨rfl, rfl⟩

theorem DigestApplied.keys (h : DigestApplied E miner order block wm w wm') :
    wm'.keys = wm.tidied.keys := h.reset.keys.trans h.rewarded.keys

theorem DigestApplied.good (h : DigestApplied E miner order block wm w wm') (hg : wm.Good) :
    wm'.Good where
  sound a := by
    have hw : (w.book a).Sound := keepsSound_of_book h.rewarded.book
      (voteless_digestReward miner block wm) a (sound_tidied hg.sound a)
    rw [h.reset.book]
    exact hw.congr rfl rfl
  mine := by
    have hme : wm'.myAddress = wm.myAddress :=
      congrArg (fun r => r.2.2) (h.reset.rest.trans h.rewarded.rest)
    rw [h.keys, keys_tidied, hme]
    exact Finset.mem_insert_self _ _

theorem Good.put (h : wm.Good) (a : Address) : (wm.put a).Good :=
  ⟨h.sound, Finset.mem_insert_of_mem h.mine⟩

/-- The two kinds of blocks. -/
theorem accepted_cases (hg : wm.Good)
    (h : checkAndUpdateWalletStates E block miner order wm = (.ok (), wm')) :
    (AllMade E block.roundNum miner (journal E block miner wm.times) wm wm' ∧
      wm'.myAddress = wm.myAddress ∧ (block.isGenesis = true ∨ block.isDigestBlock = false)) ∨
    ((∃ w, DigestApplied E miner order block (wm.put miner) w wm') ∧
      block.isGenesis = false ∧ block.isDigestBlock = true) := by
  by_cases hblock : block.isGenesis = true ∨ block.isDigestBlock = false
  · obtain ⟨hmade, hme⟩ := accepted_made hblock h
    exact .inl ⟨hmade, hme, hblock⟩
  · rw [not_or, Bool.not_eq_true, Bool.not_eq_false] at hblock
    exact .inr ⟨accepted_digest hblock.1 hblock.2 (hg.put miner).sound.losesNoVotes h, hblock⟩

theorem Happens.good {e : Event} (h : Happens E e wm wm') (hg : wm.Good) : wm'.Good := by
  cases h with
  | block order h =>
    rcases accepted_cases hg h with ⟨hmade, hme, -⟩ | ⟨⟨w, hw⟩, -⟩
    · exact ⟨hmade.sound hg.sound, hme ▸ hmade.mem hg.mine⟩
    · exact hw.good (hg.put _)
  | outside => exact ⟨hg.sound, hg.mine⟩

/-- **Every state of a run is good.** -/
theorem Run.good (h : Run E es wm wm') (hg : wm.Good) : wm'.Good :=
  Steps.invariant (I := Good) h hg fun _ _ _ _ hs hx => hx.good hs

/-! ## Concrete runs -/

/-- The wallets after a block of the miner `"m"`. -/
def after (E : Env) (block : PbBlock) (wm : WalletManager) : WalletManager :=
  (checkAndUpdateWalletStates E block "m" .sorted wm).2

/-- The wallets of the node `"m"` after a first block. -/
def afterBlock (block : PbBlock) : WalletManager := after Env.simple block (newWalletManager "m")

theorem happens_after
    (h : (checkAndUpdateWalletStates E block "m" .sorted wm).1 = .ok ()) :
    Happens E (.block block "m") wm (after E block wm) :=
  .block .sorted (Prod.ext h rfl)

theorem happens_afterBlock
    (h : (checkAndUpdateWalletStates Env.simple block "m" .sorted (newWalletManager "m")).1 = .ok ()) :
    Happens Env.simple (.block block "m") (newWalletManager "m") (afterBlock block) := happens_after h

end WalletManager
end Timbre
