/-
  The switch to another fork: `UpdateMainTailIndex` has moved the main tail already when
  `SwitchFork` rolls the old branch back and replays the new one.

  An error in the replay is returned as it is, and nothing is taken back: the main tail stays on
  the new branch (`not_allOrNothing_of_error`).  **A switch is all or nothing if every block of the
  old branch is undone**, up to what the replay of the new branch cannot tell apart
  (`allOrNothing_of_undone`).
-/
import Timbre.Core.Removal
import Timbre.Roles.Node
import Timbre.Wallet.Undo

namespace Timbre

open Call Blockchain NodeState

namespace Syncer

variable {σ W : Type} (C : Components σ) (B : Bodies) (wallets : σ → W) (getEpochNum : Block → Int32)

/-! ## The parts of a switch -/

/-- The roll-back: the DPOS is stopped, the blocks are reverted, older miners are put back. -/
def rollBack (sw : Switch) : Call (NodeState σ) Err Unit := do
  (services C B).stopDpos
  Call.each (services C B).revertState sw.blocksToRollBack
  match sw.blocksToRollBack.getLast? with
  | none => throw (.panic "index out of range [-1]")
  | some lastblockToRevert => (services C B).restoreMiners lastblockToRevert

/-- The replay of the new branch. -/
def replay (bc : Blockchain) (sw : Switch) : Call (NodeState σ) Err Unit :=
  Call.each (replayBlock (services C B) getEpochNum bc) sw.blocksToProcess.reverse

/-- The restart of the DPOS. -/
def restart (wasRunning : Bool) : Call (NodeState σ) Err Unit :=
  if wasRunning then (services C B).startDpos else pure ()

/-- The node after `UpdateMainTailIndex`. -/
def moved (n : NodeState σ) : NodeState σ := { n with bc := n.bc.updateMainTailIndex.2 }

/-- `SwitchFork` on the answer of `UpdateMainTailIndex`. -/
def switch (sw : Switch) : Call (NodeState σ) Err Unit := fun n =>
  switchFork (services C B) getEpochNum n.bc sw.blocksToRollBack sw.blocksToProcess n

/-- A switch asked for by `UpdateMainTailIndex` is all or nothing: if it returns nil, the main
    tail is that of the new branch and the wallets are those of the replay from the state
    `ancestor`; if it returns an error, the main tail, the wallets and the DPOS are the old ones. -/
structure AllOrNothing (n : NodeState σ) (sw : Switch) (ancestor : σ) : Prop where
  all : ∀ n', switch C B getEpochNum sw (moved n) = (.ok (), n') →
    n'.bc.getMainTail = sw.blocksToProcess.head? ∧
      ∃ n₁ n₂, rollBack C B sw (moved n) = (.ok (), n₁) ∧
        replay C B getEpochNum (moved n).bc sw { n₁ with state := ancestor } = (.ok (), n₂) ∧
        wallets n'.state = wallets n₂.state
  nothing : ∀ e n', switch C B getEpochNum sw (moved n) = (.error (.error e), n') →
    n'.bc.getMainTail = n.bc.getMainTail ∧ n'.state = n.state

variable {C B wallets getEpochNum}
variable {n n' n₁ n₂ : NodeState σ} {sw : Switch} {ancestor : σ} {bc : Blockchain} {op : Option Block}

/-! ## When a switch is all or nothing -/

theorem switch_eq (sw : Switch) (n : NodeState σ) : switch C B getEpochNum sw n =
    (rollBack C B sw >>= fun _ => replay C B getEpochNum n.bc sw >>= fun _ =>
      restart C B (C.hasStarted n.state)) n := by
  have hget : (get : Call (NodeState σ) Err _) n = (.ok n, n) := rfl
  unfold switch switchFork rollBack
  rw [bind_of_ok hget]
  rcases hstop : (services C B).stopDpos n with ⟨e | _, n₁⟩
  · rw [bind_of_error (bind_of_error hstop)]
    exact bind_of_error hstop
  refine (bind_of_ok hstop).trans ?_
  rcases hrevert : Call.each (services C B).revertState sw.blocksToRollBack n₁ with ⟨e | _, n₂⟩
  · rw [bind_of_error ((bind_of_ok hstop).trans (bind_of_error hrevert))]
    exact bind_of_error hrevert
  refine (bind_of_ok hrevert).trans ?_
  cases hlast : sw.blocksToRollBack.getLast? with
  | none => rw [bind_of_error ((bind_of_ok hstop).trans (bind_of_ok hrevert))]; rfl
  | some last =>
    rcases hrestore : (services C B).restoreMiners last n₂ with ⟨e | _, n₃⟩
    · rw [bind_of_error ((bind_of_ok hstop).trans ((bind_of_ok hrevert).trans hrestore))]
      exact bind_of_error hrestore
    · rw [bind_of_ok ((bind_of_ok hstop).trans ((bind_of_ok hrevert).trans hrestore))]
      exact bind_of_ok hrestore

theorem switch_ok_iff : switch C B getEpochNum sw n = (.ok (), n') ↔ ∃ n₁ n₂,
    rollBack C B sw n = (.ok (), n₁) ∧ replay C B getEpochNum n.bc sw n₁ = (.ok (), n₂) ∧
      restart C B (C.hasStarted n.state) n₂ = (.ok (), n') := by
  rw [switch_eq]
  constructor
  · intro h
    obtain ⟨_, n₁, hroll, h⟩ := bind_ok h
    obtain ⟨_, n₂, hreplay, hrestart⟩ := bind_ok h
    exact ⟨n₁, n₂, hroll, hreplay, hrestart⟩
  · rintro ⟨n₁, n₂, hroll, hreplay, hrestart⟩
    exact (bind_of_ok hroll).trans ((bind_of_ok hreplay).trans hrestart)

/-- However the switch ends, the main tail is that of the new branch. -/
theorem getMainTail_switch (C : Components σ) (B : Bodies) (getEpochNum : Block → Int32) (sw : Switch)
    (n : NodeState σ) : (switch C B getEpochNum sw n).2.bc.getMainTail = n.bc.getMainTail :=
  ((keepsChain_services C B).switchFork n.bc _ _ n).getMainTail

/-- A switch that `UpdateMainTailIndex` asks for moves the main tail to the new branch. -/
theorem moved_of_run (hrun : Run bc) (hop : bc.Allowed op) (hbc : n.bc = bc.prepare op)
    (hup : (bc.prepare op).updateMainTailIndex.1 = .ok sw) (hsw : sw.blocksToProcess ≠ []) :
    (moved n).bc.getMainTail = sw.blocksToProcess.head? ∧ (moved n).bc.getMainTail ≠ n.bc.getMainTail := by
  obtain ⟨m, ml, hready⟩ := hrun.ready
  obtain ⟨sw', bc₂, m₁, l₁, m₂, l₂, hup', -, hm₁, -, hset, -, -, C', hC, hold, hnew, hdisj⟩ := step_spec hready hop
  have hm₂ := hset.mainTail
  have hl₂ := hset.chain
  obtain rfl : sw' = sw := by
    rw [hup'] at hup
    exact Except.ok.inj hup
  rw [← hbc] at hup' hm₁
  have hmoved : (moved n).bc = bc₂ := by
    show n.bc.updateMainTailIndex.2 = bc₂
    rw [hup']
  obtain ⟨b, l, hb⟩ := List.exists_cons_of_ne_nil hsw
  rw [hb, List.cons_append] at hnew
  obtain ⟨rfl, hl⟩ := List.cons.inj hnew
  rw [hmoved, hm₂, hm₁, hb]
  refine ⟨rfl, fun h => ?_⟩
  obtain rfl := Option.some.inj h
  cases hroll : sw'.blocksToRollBack with
  | nil =>
    -- the old branch would be a proper part of the new one that has its tail twice
    rw [hroll, List.nil_append] at hold
    have hlt := LinkTree.Branch.level_lt hl₂ m₂ (by rw [hl, ← hold]; simp)
    exact lt_irrefl _ hlt
  | cons x r =>
    rw [hroll, List.cons_append] at hold
    obtain ⟨rfl, -⟩ := List.cons.inj hold
    exact hdisj (a := m₂) (by rw [hroll]; simp) (by rw [hb]; simp)

/-- An error leaves the main tail on the new branch. -/
theorem not_allOrNothing_of_error {e : String} (hmoved : (moved n).bc.getMainTail ≠ n.bc.getMainTail)
    (hswitch : (switch C B getEpochNum sw (moved n)).1 = .error (.error e)) :
    ¬ AllOrNothing C B wallets getEpochNum n sw ancestor := by
  intro h
  have hkeep := getMainTail_switch C B getEpochNum sw (moved n)
  exact hmoved (hkeep.symm.trans (h.nothing e _ (Prod.ext hswitch rfl)).1)

/-! ## When every block is undone -/

section
variable (C B wallets getEpochNum)

/-- The replay of the new branch cannot tell apart states that `R` relates. -/
structure Indistinct (R : σ → σ → Prop) (bc : Blockchain) (sw : Switch) : Prop where
  wallets : ∀ s t, R s t → wallets t = wallets s
  replay : ∀ b ∈ sw.blocksToProcess.reverse, ∀ (n n' : NodeState σ) (t : σ), R n.state t →
    replayBlock (services C B) getEpochNum bc b n = (.ok (), n') →
      ∃ t', replayBlock (services C B) getEpochNum bc b { n with state := t } =
        (.ok (), { n' with state := t' }) ∧ R n'.state t'

/-- The roll-back undoes every block of the old branch, up to `R`; `apply` is what a block once
    did to the wallets and the DPOS. -/
structure Undone (R : σ → σ → Prop) (apply : Block → Call σ Err Unit) (sw : Switch) : Prop where
  stopDpos : ∀ s t, R s t → ∃ t', C.stopDpos t = (.ok (), t') ∧ R s t'
  revertState : ∀ b ∈ sw.blocksToRollBack.reverse, ∀ (s s' : σ) (n : NodeState σ), apply b s = (.ok (), s') →
    R s' n.state → ∃ n', NodeState.revertState C B b n = (.ok (), n') ∧ R s n'.state
  restoreMiners : ∀ b, sw.blocksToRollBack.getLast? = some b → ∀ n : NodeState σ,
    Returns (NodeState.restoreMiners C b) n

end

variable {R : σ → σ → Prop} {apply : Block → Call σ Err Unit}

theorem state_restoreMiners (b : Block) (n : NodeState σ) : (restoreMiners C b n).2.state = n.state := by
  have hget : (get : Call (NodeState σ) Err _) n = (.ok n, n) := rfl
  unfold restoreMiners
  rw [bind_of_ok hget]
  generalize Blockchain.addMiners _ n.bc _ _ = added
  cases added <;> rfl

/-- The roll-back leads back to the state at the common ancestor. -/
theorem Undone.rollBack (h : Undone C B R apply sw) (hne : sw.blocksToRollBack ≠ [])
    (hhistory : Steps (fun b s s' => apply b s = (.ok (), s')) sw.blocksToRollBack.reverse ancestor n.state)
    (hrefl : R n.state n.state) : ∃ n₁, rollBack C B sw n = (.ok (), n₁) ∧ R ancestor n₁.state := by
  obtain ⟨t, hstop, ht⟩ := h.stopDpos _ _ hrefl
  have hstop' : (services C B).stopDpos n = (.ok (), { n with state := t }) := by
    show ((C.stopDpos n.state).1, { n with state := (C.stopDpos n.state).2 }) = _
    rw [hstop]
  have ht' : R n.state ({ n with state := t } : NodeState σ).state := ht
  obtain ⟨n₁, hrevert, hn₁⟩ := hhistory.undo (T := fun s (m : NodeState σ) => R s m.state) ht' h.revertState
  rw [List.reverse_reverse] at hrevert
  have hlast := List.getLast?_eq_some_getLast hne
  set last := sw.blocksToRollBack.getLast hne
  obtain ⟨_, n₂, hrestore⟩ := h.restoreMiners last hlast n₁
  have hstate := state_restoreMiners (C := C) last n₁
  rw [hrestore] at hstate
  refine ⟨n₂, (bind_of_ok hstop').trans ((bind_of_ok hrevert).trans ?_), ?_⟩
  · rw [hlast]
    exact hrestore
  · rw [show n₂.state = n₁.state from hstate]
    exact hn₁

/-- **A switch is all or nothing if every block is undone**, the new branch is valid from the common
    ancestor on and the DPOS restarts. -/
theorem allOrNothing_of_undone (hundone : Undone C B R apply sw)
    (hindistinct : Indistinct C B wallets getEpochNum R (moved n).bc sw)
    (htail : (moved n).bc.getMainTail = sw.blocksToProcess.head?) (hne : sw.blocksToRollBack ≠ [])
    (hhistory : Steps (fun b s s' => apply b s = (.ok (), s')) sw.blocksToRollBack.reverse ancestor n.state)
    (hrefl : R n.state n.state)
    (hvalid : ∀ n₁, rollBack C B sw (moved n) = (.ok (), n₁) →
      Returns (replay C B getEpochNum (moved n).bc sw) { n₁ with state := ancestor })
    (hrestart : ∀ m, ∃ m', restart C B (C.hasStarted n.state) m = (.ok (), m') ∧ wallets m'.state = wallets m.state) :
    AllOrNothing C B wallets getEpochNum n sw ancestor := by
  obtain ⟨n₁, hroll, hn₁⟩ := hundone.rollBack (n := moved n) hne hhistory hrefl
  obtain ⟨_, n₃, hancestor⟩ := hvalid n₁ hroll
  -- the replay from the ancestor and the one from the state rolled back to go side by side
  obtain ⟨n₂, hreplay, t, rfl, ht⟩ := (each_ok hancestor).simulate
    (T := fun (m m' : NodeState σ) => ∃ t, m' = { m with state := t } ∧ R m.state t)
    (k := replayBlock (services C B) getEpochNum (moved n).bc)
    (t := n₁) ⟨n₁.state, rfl, hn₁⟩ (by
      rintro b hb m m' _ ⟨t, rfl, ht⟩ hreplay
      obtain ⟨t', hreplay', ht'⟩ := hindistinct.replay b hb m m' t ht hreplay
      exact ⟨_, hreplay', t', rfl, ht'⟩)
  obtain ⟨n', hn', hwallets⟩ := hrestart { n₃ with state := t }
  have hswitch : switch C B getEpochNum sw (moved n) = (.ok (), n') :=
    switch_ok_iff.2 ⟨n₁, _, hroll, hreplay, hn'⟩
  refine ⟨fun m h => ?_, fun e m h => ?_⟩
  · obtain rfl := (Prod.mk.inj (hswitch.symm.trans h)).2
    have hkeep := getMainTail_switch C B getEpochNum sw (moved n)
    rw [hswitch] at hkeep
    exact ⟨hkeep.trans htail, n₁, n₃, hroll, hancestor, hwallets.trans (hindistinct.wallets _ _ ht)⟩
  · rw [hswitch] at h
    cases h

/-! ## A registration and a resignation on the old branch -/

/-- The block `a` on the genesis block, and a fork of the blocks `b` and `c`. -/
def overtakenChain : Blockchain :=
  ((init.append forkGenesis).2.grow (forkBlock "a" "g" 1)).grow (forkBlock "b" "g" 1)

theorem run_overtakenChain : Run overtakenChain := by
  have h₁ : (init.append forkGenesis).2.Allowed (some (forkBlock "a" "g" 1)) :=
    ⟨fun _ h => ⟨forkGenesis, Option.some.inj h ▸ by decide⟩, by decide⟩
  have h₂ : ((init.append forkGenesis).2.grow (forkBlock "a" "g" 1)).Allowed (some (forkBlock "b" "g" 1)) :=
    ⟨fun _ h => ⟨forkGenesis, Option.some.inj h ▸ by decide⟩, by decide⟩
  exact .step (some _) (.step (some _) (.genesis forkGenesis rfl) h₁) h₂

/-- What `UpdateMainTailIndex` answers when `c` has been appended. -/
def overtaken : Switch := ⟨[forkBlock "a" "g" 1], [forkBlock "c" "b" 2, forkBlock "b" "g" 1], true⟩

/-- The wallets with the transactions that the blocks are given. -/
def overtakenWallets (transactions : Hash → List Transaction) : Components WalletManager :=
  walletComponents Env.simple (bareBody transactions) MapOrder.sorted

/-- The node before the switch: the block `a` has been applied. -/
def overtakenNode (transactions : Hash → List Transaction) : NodeState WalletManager where
  bc := overtakenChain.prepare (some (forkBlock "c" "b" 2))
  state := ((overtakenWallets transactions).checkAndUpdateWalletStates (forkBlock "a" "g" 1)
    (newWalletManager "m")).2
  dealBucket _ := none
  activedeals := ∅

/-- A registration and a resignation on the old branch, and a registration on the new one. -/
def registerAndQuit : Hash → List Transaction
  | "a" => [WalletManager.registerTx, WalletManager.quitTx]
  | "c" => [WalletManager.registerTx]
  | _ => []

theorem moved_overtakenNode (transactions : Hash → List Transaction) :
    (moved (overtakenNode transactions)).bc.getMainTail ≠ (overtakenNode transactions).bc.getMainTail := by
  have hop : overtakenChain.Allowed (some (forkBlock "c" "b" 2)) :=
    ⟨fun _ h => ⟨forkBlock "b" "g" 1, Option.some.inj h ▸ by decide⟩, by decide⟩
  have hup : (overtakenChain.prepare (some (forkBlock "c" "b" 2))).updateMainTailIndex.1 = .ok overtaken := by decide
  exact (moved_of_run run_overtakenChain hop rfl hup (by decide)).2

/-- The accounts of all addresses. -/
def accounts (wm : WalletManager) (a : Address) : Account := (wm.wallet a).account

/-- The resignation is not undone, the registration on the new branch fails, and the main tail
    stays on the new branch. -/
theorem not_allOrNothing : ¬ ∀ (C : Components WalletManager) (B : Bodies) (getEpochNum : Block → Int32)
    (n : NodeState WalletManager) (sw : Switch) (ancestor : WalletManager),
    (moved n).bc.getMainTail ≠ n.bc.getMainTail →
    (∀ e, (switch C B getEpochNum sw (moved n)).1 ≠ .error (.panic e)) →
    AllOrNothing C B accounts getEpochNum n sw ancestor := by
  intro hall
  have herror : (switch (overtakenWallets registerAndQuit) Bodies.empty (fun _ => 0) overtaken
      (moved (overtakenNode registerAndQuit))).1 = .error (.error "Failed block validation") := by
    decide +kernel
  have hmoved := moved_overtakenNode registerAndQuit
  refine not_allOrNothing_of_error hmoved herror (hall _ _ _ _ overtaken (newWalletManager "m") hmoved
    fun e h => ?_)
  rw [herror] at h
  cases h

end Syncer

end Timbre
