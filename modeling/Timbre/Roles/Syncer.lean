/-
  The syncer: where it expects digest blocks.

  A block is accepted on one of three paths: it extends the main fork, it extends another
  fork, or it is replayed when the node switches to its fork.  Each path computes a height of
  its own, and expects a digest block if that height is the end of an epoch.
  **`digestPlacement_iff` says which blocks each path judges by their own height.**
-/
import Timbre.Core.ForkChoice
import Timbre.Lib.Call
import Timbre.Wallet.Types

namespace Timbre

open Call Blockchain

namespace Syncer

/-! ## The source -/

/-- `TestEpoch.Duration`. -/
def epochDuration : ℤ := 1000

/-- `int32(float64(bcHeight) / float64(Duration))`.  At the ends of epochs the quotient is
    exact. -/
def curEpochNum (bcHeight : ℤ) : Int32 := Int32.ofInt (bcHeight / epochDuration)

/-- The parts of `CheckAndUpdateWalletStates`, on a state of type `σ`. -/
structure WalletCalls (σ : Type) where
  applyGenesis : Block → Call σ Err Unit
  /-- `CheckAndPutWalletByAddress` and `GetWalletByAddress` -/
  getMinerWallet : Block → Call σ Err Wallet
  validateDigestBlock : Block → Call σ Err Unit
  /-- `GiveBlockReward`, to a wallet that `ValidateDigestBlock` may have deleted, and
      `ResetWalletManagerState` -/
  rewardAndReset : Wallet → Block → Call σ Err Unit
  /-- the reward and the content of an ordinary block -/
  applyBlock : Block → Call σ Err Unit

/-- `CheckAndUpdateWalletStates`: whatever its height, a block with account states is validated and applied as a
    digest block. -/
def WalletCalls.checkAndUpdateWalletStates {σ : Type} (W : WalletCalls σ) (b : Block) : Call σ Err Unit :=
  if b.isGenesis then W.applyGenesis b
  else do
    let mWallet ← W.getMinerWallet b
    if b.isDigest then
      W.validateDigestBlock b
      W.rewardAndReset mWallet b
    else W.applyBlock b

/-- The calls of the syncer on the rest of the node, whose state is `σ`. -/
structure Services (σ : Type) extends WalletCalls σ where
  hasStarted : σ → Bool
  stopDpos : Call σ Err Unit
  startDpos : Call σ Err Unit
  updateDpos : Block → Call σ Err Unit
  bootstrapFromEpochBlock : Block → Call σ Err Unit
  validateDigestMiners : Block → Call σ Err Unit
  validateMinerSlot : Block → Call σ Err Unit
  updateStates : Block → Call σ Err Unit
  revertState : Block → Call σ Err Unit
  restoreMiners : Block → Call σ Err Unit

/-- `GetMainForkHeight`. -/
def getMainForkHeight (bc : Blockchain) : ℤ :=
  match bc.getMainTail with
  | none => 0
  | some tail => tail.height + 1

section
variable {σ : Type} (S : Services σ) (getEpochNum : Block → Int32) (isSyncing : Bool) (bc : Blockchain)
  (b : Block)

/-- The check of the kind of a block, at the height that is given.  `bootstrap` is called
    before a digest block is validated, and returns whether a bootstrap is still required. -/
def checkDigest (bootstrap : Call σ Err Bool) (required : Bool) (bcHeight : ℤ) : Call σ Err Bool :=
  if bcHeight % epochDuration = 0 ∧ bcHeight ≠ 0 then
    if b.isDigest then do
      let required ← bootstrap
      S.validateDigestBlock b
      S.validateDigestMiners b
      if curEpochNum bcHeight ≠ getEpochNum b then
        throw (.error "Epoch numbs in the block doesn't match")
      return required
    else throw (.error "Was expecting Digest block")
  else return required

/-- The start of `ValidateForMainTail`: whether a bootstrap from an epoch block is required. -/
def updateDposForMainTail : Call σ Err Bool := do
  let s ← get
  if isSyncing ∧ S.hasStarted s = false then
    tryCatch (do S.updateDpos b; return false) fun
      | .error e => if bc.canBootstrapFromEpoch b then return true else throw (.error e)
      | e => throw e
  else if isSyncing = false ∧ S.hasStarted s = false then
    throw (.error "Cannot validate blocks without running DPos. RUN DPOS plz")
  else return false

/-- `ValidateForMainTail`. -/
def validateForMainTail : Call σ Err Unit := do
  let required ← updateDposForMainTail S isSyncing bc b
  let bootstraps := bc.canBootstrapFromEpoch b && isSyncing
  let bcHeight := if bootstraps then b.height else getMainForkHeight bc
  let bootstrap : Call σ Err Bool :=
    if bootstraps then
      tryCatch (do S.bootstrapFromEpochBlock b; return false) fun
        | .error e => throw (.panic e)
        | e => throw e
    else return required
  let required ← checkDigest S getEpochNum b bootstrap required bcHeight
  if required then throw (.panic "Bootstrap from epoch was required but wasn't done")
  if bootstraps = false then S.validateMinerSlot b
  S.checkAndUpdateWalletStates b

/-- `ValidateForNonMainTail`, on the DPOS and the wallets of the parent. -/
def validateForNonMainTail : Call σ Err Unit := do
  let s ← get
  if S.hasStarted s = false then
    tryCatch (S.updateDpos b) fun
      | .error _ => pure ()
      | e => throw e
  match bc.getBlockByHash b.parentHash with
  | .error e => throw e
  | .ok parentBlock => do
    let _ ← checkDigest S getEpochNum b (pure false) false parentBlock.height
    S.validateMinerSlot b
    S.checkAndUpdateWalletStates b

/-- One round of the loop of `SwitchFork` over the blocks to process. -/
def replayBlock : Call σ Err Unit := do
  tryCatch (validateForMainTail S getEpochNum true bc b) fun
    | .error _ => throw (.error "Failed block validation")
    | e => throw e
  S.updateStates b

/-- `SwitchFork`; the chain already has its new main tail. -/
def switchFork (blocksToRevert blocksToProcess : List Block) : Call σ Err Unit := do
  let wasRunning := S.hasStarted (← get)
  S.stopDpos
  Call.each S.revertState blocksToRevert
  match blocksToRevert.getLast? with
  | none => throw (.panic "index out of range [-1]")
  | some lastblockToRevert => do
    S.restoreMiners lastblockToRevert
    Call.each (replayBlock S getEpochNum bc) blocksToProcess.reverse
    if wasRunning then S.startDpos

end

/-! ## The check of a path -/

/-- The height is a positive multiple of the length of an epoch. -/
def EndsEpoch (height : ℤ) : Prop := 0 < height ∧ epochDuration ∣ height

instance (height : ℤ) : Decidable (EndsEpoch height) :=
  inferInstanceAs (Decidable (0 < height ∧ epochDuration ∣ height))

/-- A path of acceptance: what it does with a block, for a reading of the epoch number in its
    miners' states and for the rest of the node. -/
abbrev Acceptance := (Block → Int32) → (σ : Type) → Services σ → Call σ Err Unit

/-- Services that have nothing against a block, except perhaps against its digest. -/
def lenient (validateDigestBlock : Block → Call Unit Err Unit) : Services Unit where
  applyGenesis _ := pure ()
  getMinerWallet _ := pure newWallet
  validateDigestBlock := validateDigestBlock
  rewardAndReset _ _ := pure ()
  applyBlock _ := pure ()
  hasStarted _ := true
  stopDpos := pure ()
  startDpos := pure ()
  updateDpos _ := pure ()
  bootstrapFromEpochBlock _ := pure ()
  validateDigestMiners _ := pure ()
  validateMinerSlot _ := pure ()
  updateStates _ := pure ()
  revertState _ := pure ()
  restoreMiners _ := pure ()

/-- The path checks the kind of the block at the height, gives it to the wallets, and has no other objection of
    its own. -/
structure ChecksAt (height : ℤ) (b : Block) (accept : Acceptance) : Prop where
  sound : ∀ {getEpochNum σ S s}, Returns (accept getEpochNum σ S) s →
    ∃ bootstrap required s', Returns (checkDigest S getEpochNum b bootstrap required height) s'
  wallets : ∀ {getEpochNum σ S s}, Returns (accept getEpochNum σ S) s →
    ∃ s', Returns (S.checkAndUpdateWalletStates b) s'
  complete : ∀ {getEpochNum V},
    checkDigest (lenient V) getEpochNum b (pure false) false height () = (.ok false, ()) →
      (lenient V).checkAndUpdateWalletStates b () = (.ok (), ()) → Returns (accept getEpochNum Unit (lenient V)) ()

variable {σ : Type} {S : Services σ} {s : σ} {getEpochNum : Block → Int32} {isSyncing required : Bool}
  {bc : Blockchain} {b p t : Block} {bcHeight : ℤ} {bootstrap : Call σ Err Bool} {acceptance : Acceptance}

theorem endsEpoch_iff (h : 0 ≤ bcHeight) : EndsEpoch bcHeight ↔ bcHeight % epochDuration = 0 ∧ bcHeight ≠ 0 := by
  unfold EndsEpoch
  rw [Int.dvd_iff_emod_eq_zero]
  constructor
  · rintro ⟨hpos, hdvd⟩
    exact ⟨hdvd, hpos.ne'⟩
  · rintro ⟨hdvd, hne⟩
    exact ⟨by omega, hdvd⟩

/-- Two heights in a row do not both end an epoch. -/
theorem EndsEpoch.not_next (h : EndsEpoch bcHeight) : ¬ EndsEpoch (bcHeight + 1) := by
  rintro ⟨-, h'⟩
  have h₁ : epochDuration ∣ 1 := (Int.dvd_add_right h.2).1 h'
  exact absurd h₁ (by decide)

/-- What a block has gone through that is checked at the end of an epoch. -/
theorem checkDigest_returns (h : 0 ≤ bcHeight) (hend : EndsEpoch bcHeight)
    (hret : Returns (checkDigest S getEpochNum b bootstrap required bcHeight) s) :
    b.isDigest ∧ getEpochNum b = curEpochNum bcHeight ∧ ∃ s', Returns (S.validateDigestBlock b) s' := by
  unfold checkDigest at hret
  rw [if_pos ((endsEpoch_iff h).1 hend)] at hret
  split_ifs at hret with hdigest hepoch
  · obtain ⟨_, _, -, hret⟩ := returns_bind.1 hret
    obtain ⟨_, _, -, hret⟩ := returns_bind.1 hret
    obtain ⟨_, _, -, hret⟩ := returns_bind.1 hret
    obtain ⟨_, _, hthrow, -⟩ := returns_bind.1 hret
    cases hthrow
  · obtain ⟨_, s₁, -, hret⟩ := returns_bind.1 hret
    obtain ⟨_, _, hvalid, -⟩ := returns_bind.1 hret
    exact ⟨hdigest, (not_ne_iff.1 hepoch).symm, s₁, _, _, hvalid⟩
  · obtain ⟨_, _, hthrow⟩ := hret
    cases hthrow

theorem checkDigest_of_fits (h : 0 ≤ bcHeight) (hend : EndsEpoch bcHeight) (hdigest : b.isDigest)
    (hepoch : getEpochNum b = curEpochNum bcHeight) :
    checkDigest (lenient fun _ => pure ()) getEpochNum b (pure false) false bcHeight () = (.ok false, ()) := by
  unfold checkDigest
  rw [if_pos ((endsEpoch_iff h).1 hend), if_pos hdigest]
  simp only [hepoch, ne_eq, not_true_eq_false, if_false]
  rfl

theorem checkDigest_of_not (h : 0 ≤ bcHeight) (hend : ¬ EndsEpoch bcHeight) {V : Block → Call Unit Err Unit} :
    checkDigest (lenient V) getEpochNum b (pure false) false bcHeight () = (.ok false, ()) := by
  unfold checkDigest
  rw [if_neg fun h' => hend ((endsEpoch_iff h).2 h')]
  rfl

/-- The wallets go by the account states of the block alone. -/
theorem checkAndUpdateWalletStates_digest (hgenesis : b.isGenesis = false) (hdigest : b.isDigest)
    (hret : Returns (S.checkAndUpdateWalletStates b) s) : ∃ s', Returns (S.validateDigestBlock b) s' := by
  unfold WalletCalls.checkAndUpdateWalletStates at hret
  rw [if_neg (by simp [hgenesis])] at hret
  obtain ⟨_, s₁, -, hret⟩ := returns_bind.1 hret
  rw [if_pos hdigest] at hret
  obtain ⟨_, _, hvalid, -⟩ := returns_bind.1 hret
  exact ⟨s₁, _, _, hvalid⟩

theorem checkAndUpdateWalletStates_of_ordinary (hdigest : b.isDigest = false) {V : Block → Call Unit Err Unit} :
    (lenient V).checkAndUpdateWalletStates b () = (.ok (), ()) := by
  have hordinary : ¬ b.isDigest = true := by simp [hdigest]
  unfold WalletCalls.checkAndUpdateWalletStates
  simp only [if_neg hordinary]
  split_ifs <;> rfl

theorem checkAndUpdateWalletStates_of_lenient :
    (lenient fun _ => pure ()).checkAndUpdateWalletStates b () = (.ok (), ()) := by
  unfold WalletCalls.checkAndUpdateWalletStates
  cases b.isDigest <;> split_ifs <;> rfl

/-! ## The heights of the paths -/

/-- Of a block whose parent is stored. -/
theorem canBootstrapFromEpoch_of_parent (h : bc.getBlockByHash b.parentHash = .ok p) :
    bc.canBootstrapFromEpoch b = false := by
  rw [canBootstrapFromEpoch, h]
  simp [Except.isOk, Except.toBool]

theorem getMainForkHeight_of_tail (h : bc.getMainTail = some t) : getMainForkHeight bc = t.height + 1 := by
  rw [getMainForkHeight, h]

/-- `ValidateForMainTail` goes by the height above the main tail. -/
theorem checksAt_mainTail (hparent : bc.getBlockByHash b.parentHash = .ok p) (htail : bc.getMainTail = some t) :
    ChecksAt (t.height + 1) b fun getEpochNum _ S => validateForMainTail S getEpochNum isSyncing bc b where
  sound hret := by
    obtain ⟨required, s₁, -, hret⟩ := returns_bind.1 hret
    simp only [canBootstrapFromEpoch_of_parent hparent, Bool.false_and, Bool.false_eq_true, if_false,
      getMainForkHeight_of_tail htail] at hret
    obtain ⟨required', s₂, hcheck, -⟩ := returns_bind.1 hret
    exact ⟨_, _, _, _, _, hcheck⟩
  wallets {getEpochNum σ S s} hret := by
    obtain ⟨required, s₁, -, hret⟩ := returns_bind.1 hret
    simp only [canBootstrapFromEpoch_of_parent hparent, Bool.false_and, Bool.false_eq_true, if_false,
      getMainForkHeight_of_tail htail] at hret
    obtain ⟨required', s₂, -, hret⟩ := returns_bind.1 hret
    split_ifs at hret
    · obtain ⟨_, _, hthrow, -⟩ := returns_bind.1 hret
      cases hthrow
    · obtain ⟨_, s₃, -, hwallets⟩ := returns_bind.1 hret
      exact ⟨s₃, hwallets⟩
  complete {getEpochNum V} hcheck hwallets := by
    have hdpos : updateDposForMainTail (lenient V) isSyncing bc b () = (.ok false, ()) := by
      cases isSyncing <;> rfl
    refine returns_bind.2 ⟨false, (), hdpos, ?_⟩
    simp only [canBootstrapFromEpoch_of_parent hparent, Bool.false_and, Bool.false_eq_true, if_false,
      getMainForkHeight_of_tail htail]
    exact returns_bind.2 ⟨false, (), hcheck, (), (), hwallets⟩

/-- The checks of `ValidateForNonMainTail`, with which it ends. -/
theorem returns_checks (hparent : bc.getBlockByHash b.parentHash = .ok p)
    (hret : Returns (validateForNonMainTail S getEpochNum bc b) s) : ∃ s₁, Returns (do
      let _ ← checkDigest S getEpochNum b (pure false) false p.height
      S.validateMinerSlot b
      S.checkAndUpdateWalletStates b) s₁ := by
  unfold validateForNonMainTail at hret
  simp only [hparent] at hret
  obtain ⟨s₀, s₁, -, hret⟩ := returns_bind.1 hret
  split_ifs at hret
  · obtain ⟨_, s₂, -, hret⟩ := returns_bind.1 hret
    exact ⟨s₂, hret⟩
  · exact ⟨s₁, hret⟩

/-- `ValidateForNonMainTail` goes by the height of the parent. -/
theorem checksAt_nonMainTail (hparent : bc.getBlockByHash b.parentHash = .ok p) :
    ChecksAt p.height b fun getEpochNum _ S => validateForNonMainTail S getEpochNum bc b where
  sound hret := by
    obtain ⟨s₁, hret⟩ := returns_checks hparent hret
    obtain ⟨_, _, hcheck, -⟩ := returns_bind.1 hret
    exact ⟨_, _, _, _, _, hcheck⟩
  wallets hret := by
    obtain ⟨s₁, hret⟩ := returns_checks hparent hret
    obtain ⟨_, _, -, hret⟩ := returns_bind.1 hret
    obtain ⟨_, s₂, -, hwallets⟩ := returns_bind.1 hret
    exact ⟨s₂, hwallets⟩
  complete hcheck hwallets := by
    refine returns_bind.2 ⟨(), (), rfl, ?_⟩
    simp only [hparent]
    exact returns_bind.2 ⟨false, (), hcheck, (), (), hwallets⟩

/-- The failure of a replay stays one. -/
theorem not_returns_failedValidation {σ : Type} (e : Err) (s : σ) : ¬ Returns (match e with
    | .error _ => throw (.error "Failed block validation")
    | e => throw e : Call σ Err Unit) s := by
  rcases e with e | e <;> rintro ⟨_, _, h⟩ <;> cases h

/-- The replay goes by the height above the new main tail. -/
theorem checksAt_replay (hparent : bc.getBlockByHash b.parentHash = .ok p) (htail : bc.getMainTail = some t) :
    ChecksAt (t.height + 1) b fun getEpochNum _ S => replayBlock S getEpochNum bc b where
  sound hret := by
    obtain ⟨_, s₁, htry, -⟩ := returns_bind.1 hret
    have hvalid := (tryCatch_ok_iff not_returns_failedValidation).1 htry
    exact (checksAt_mainTail hparent htail).sound ⟨_, _, hvalid⟩
  wallets hret := by
    obtain ⟨_, s₁, htry, -⟩ := returns_bind.1 hret
    have hvalid := (tryCatch_ok_iff not_returns_failedValidation).1 htry
    exact (checksAt_mainTail hparent htail).wallets ⟨_, _, hvalid⟩
  complete {getEpochNum V} hcheck hwallets := by
    obtain ⟨_, _, hvalid⟩ : Returns (validateForMainTail (lenient V) getEpochNum true bc b) () :=
      (checksAt_mainTail hparent htail).complete hcheck hwallets
    exact returns_bind.2 ⟨_, _, (tryCatch_ok_iff not_returns_failedValidation).2 hvalid, _, _, rfl⟩

/-! ## The decision on the kind of a block -/

/-- The wallets find every digest block wrong. -/
def Services.RefusesDigests (S : Services σ) : Prop := ∀ b s, ¬ Returns (S.validateDigestBlock b) s

/-- A path treats the block, and requires it to be, a digest block exactly at the end of an
    epoch, and then requires the number of that epoch. -/
structure DecidesByHeight (b : Block) (accept : Acceptance) : Prop where
  digest : EndsEpoch b.height ↔
    ∀ getEpochNum σ (S : Services σ) s, S.RefusesDigests → ¬ Returns (accept getEpochNum σ S) s
  epoch : EndsEpoch b.height → ∀ getEpochNum,
    (∃ σ S s, Returns (accept getEpochNum σ S) s) ↔ b.isDigest ∧ getEpochNum b = curEpochNum b.height

namespace ChecksAt

/-- A digest is validated by a path that checks at the end of an epoch, and by the wallets. -/
theorem treats_iff (hcheck : ChecksAt bcHeight b acceptance) (h : 0 ≤ bcHeight) (hgenesis : b.isGenesis = false) :
    EndsEpoch bcHeight ∨ b.isDigest ↔
      ∀ getEpochNum σ (S : Services σ) s, S.RefusesDigests → ¬ Returns (acceptance getEpochNum σ S) s := by
  constructor
  · rintro (hend | hdigest) getEpochNum σ S s hrefuses hret
    · obtain ⟨_, _, _, hret⟩ := hcheck.sound hret
      obtain ⟨-, -, s', hvalid⟩ := checkDigest_returns h hend hret
      exact hrefuses b s' hvalid
    · obtain ⟨_, hret⟩ := hcheck.wallets hret
      obtain ⟨s', hvalid⟩ := checkAndUpdateWalletStates_digest hgenesis hdigest hret
      exact hrefuses b s' hvalid
  · intro hnever
    by_contra hneither
    obtain ⟨hend, hdigest⟩ := not_or.1 hneither
    refine hnever (fun _ => 0) Unit (lenient fun _ => throw (.error "")) () ?_ (hcheck.complete (checkDigest_of_not h hend)
      (checkAndUpdateWalletStates_of_ordinary (Bool.eq_false_iff.2 hdigest)))
    rintro _ _ ⟨_, _, hthrow⟩
    cases hthrow

theorem accepts_iff (hcheck : ChecksAt bcHeight b acceptance) (h : 0 ≤ bcHeight) (hend : EndsEpoch bcHeight) :
    (∃ σ S s, Returns (acceptance getEpochNum σ S) s) ↔ b.isDigest ∧ getEpochNum b = curEpochNum bcHeight := by
  constructor
  · rintro ⟨σ, S, s, hret⟩
    obtain ⟨_, _, _, hret⟩ := hcheck.sound hret
    obtain ⟨hdigest, hepoch, -⟩ := checkDigest_returns h hend hret
    exact ⟨hdigest, hepoch⟩
  · rintro ⟨hdigest, hepoch⟩
    exact ⟨Unit, _, (), hcheck.complete (checkDigest_of_fits h hend hdigest hepoch) checkAndUpdateWalletStates_of_lenient⟩

/-- A path that does not check has nothing against any epoch number. -/
theorem accepts_of_not (hcheck : ChecksAt bcHeight b acceptance) (h : 0 ≤ bcHeight) (hend : ¬ EndsEpoch bcHeight) :
    ∃ σ S s, Returns (acceptance getEpochNum σ S) s :=
  ⟨Unit, _, (), hcheck.complete (checkDigest_of_not h hend) checkAndUpdateWalletStates_of_lenient⟩

/-- **The decision is the one for the height of the block** if the height of the check ends an
    epoch exactly if that of the block does, and the same epoch, and the block has account states only there. -/
theorem decidesByHeight_iff (hcheck : ChecksAt bcHeight b acceptance) (h : 0 ≤ bcHeight) (hgenesis : b.isGenesis = false) :
    DecidesByHeight b acceptance ↔
      (EndsEpoch bcHeight ↔ EndsEpoch b.height) ∧ (b.isDigest → EndsEpoch b.height) ∧
        (EndsEpoch b.height → b.isDigest → curEpochNum bcHeight = curEpochNum b.height) := by
  constructor
  · intro hdecides
    have htreats : EndsEpoch b.height ↔ EndsEpoch bcHeight ∨ b.isDigest :=
      hdecides.digest.trans (hcheck.treats_iff h hgenesis).symm
    have hends : EndsEpoch b.height → EndsEpoch bcHeight := by
      intro hend
      by_contra hno
      have hany := (hdecides.epoch hend fun _ => curEpochNum b.height + 1).1 (hcheck.accepts_of_not h hno)
      exact absurd hany.2 (by simp)
    refine ⟨⟨fun hend => htreats.2 (.inl hend), hends⟩, fun hdigest => htreats.2 (.inr hdigest), fun hend hdigest => ?_⟩
    have hnum := (hdecides.epoch hend fun _ => curEpochNum b.height).2 ⟨hdigest, rfl⟩
    exact ((hcheck.accepts_iff h (hends hend)).1 hnum).2.symm
  · rintro ⟨hsame, hdigest, hnum⟩
    refine ⟨?_, fun hend getEpochNum => ?_⟩
    · rw [← hcheck.treats_iff h hgenesis, hsame]
      exact ⟨.inl, fun h => h.elim id hdigest⟩
    · rw [hcheck.accepts_iff h (hsame.2 hend)]
      refine and_congr_right fun hdigest => ?_
      rw [hnum hend hdigest]

end ChecksAt

/-- **`SwitchFork`** holds every block it replays against the height above the new main tail. -/
theorem checkDigest_of_switchFork {blocksToRevert blocksToProcess : List Block}
    (htail : bc.getMainTail = some t)
    (hparents : ∀ b ∈ blocksToProcess, ∃ p, bc.getBlockByHash b.parentHash = .ok p)
    (hret : Returns (switchFork S getEpochNum bc blocksToRevert blocksToProcess) s) :
    ∀ b ∈ blocksToProcess, ∃ bootstrap required s',
      Returns (checkDigest S getEpochNum b bootstrap required (t.height + 1)) s' := by
  intro b hb
  obtain ⟨_, s₁, -, hret⟩ := returns_bind.1 hret
  obtain ⟨_, s₂, -, hret⟩ := returns_bind.1 hret
  obtain ⟨_, s₃, -, hret⟩ := returns_bind.1 hret
  cases hlast : blocksToRevert.getLast? with
  | none =>
    simp only [hlast] at hret
    obtain ⟨_, _, hthrow⟩ := hret
    cases hthrow
  | some last =>
    simp only [hlast] at hret
    obtain ⟨_, s₄, -, hret⟩ := returns_bind.1 hret
    obtain ⟨_, s₅, hall, -⟩ := returns_bind.1 hret
    obtain ⟨p, hp⟩ := hparents b hb
    have hreplays : Steps (fun x _ _ => ∃ s, Returns (replayBlock S getEpochNum bc x) s) _ s₄ s₅ :=
      (each_ok hall).mono fun x _ s₆ s₇ hone => ⟨s₆, _, s₇, hone⟩
    obtain ⟨s₆, hone⟩ := hreplays.forall b (List.mem_reverse.2 hb)
    exact (checksAt_replay hp htail).sound hone

/-! ## The paths of a block -/

/-- The paths on which a block is accepted. -/
inductive AcceptancePath
  | mainFork (isSyncing : Bool)
  | sideFork
  | replay
deriving DecidableEq, Repr

namespace AcceptancePath

/-- What the path does with the block. -/
def accept (bc : Blockchain) (b : Block) : AcceptancePath → Acceptance
  | mainFork isSyncing => fun getEpochNum _ S => validateForMainTail S getEpochNum isSyncing bc b
  | sideFork => fun getEpochNum _ S => validateForNonMainTail S getEpochNum bc b
  | replay => fun getEpochNum _ S => replayBlock S getEpochNum bc b

/-- The block takes the path on a chain whose main tail is `t`: it extends the main tail, it
    extends another block, or it is on the main chain already. -/
def Takes (bc : Blockchain) (t b : Block) : AcceptancePath → Prop
  | mainFork _ => b.parentHash = some t.hash
  | sideFork => b.parentHash ≠ some t.hash
  | replay => ∃ ml, bc.IsChain (t :: ml) ∧ b ∈ t :: ml

/-- Where the path decides by the height of the block: on the main fork if a block with account states ends an
    epoch, on another fork if neither the block nor its parent ends an epoch and the block has no account states,
    and in a replay if moreover the height above the new main tail and that of the block end the same epoch or none. -/
def RightHeight (t p b : Block) : AcceptancePath → Prop
  | mainFork _ => b.isDigest → EndsEpoch b.height
  | sideFork => ¬ EndsEpoch p.height ∧ ¬ EndsEpoch b.height ∧ b.isDigest = false
  | replay => (EndsEpoch (t.height + 1) ↔ EndsEpoch b.height) ∧ (b.isDigest → EndsEpoch b.height) ∧
      (EndsEpoch b.height → b.isDigest → curEpochNum (t.height + 1) = curEpochNum b.height)

end AcceptancePath

/-- The block extends the stored block `p`, on a chain whose main tail is `t`. -/
structure Extends (bc : Blockchain) (t p b : Block) : Prop where
  mainTail : bc.getMainTail = some t
  main : ∃ ml, bc.IsChain (t :: ml)
  parent : ∃ l, bc.IsChain (p :: l)
  valid : p.isValidParentOf b

namespace Extends

theorem getParent (h : Extends bc t p b) : bc.getBlockByHash b.parentHash = .ok p := by
  obtain ⟨l, hl⟩ := h.parent
  rw [h.valid.1, getBlockByHash_stored hl.genesis_isSome (hl.stored p (by simp))]

theorem mainTail_nonneg (h : Extends bc t p b) : 0 ≤ t.height := by
  obtain ⟨ml, hml⟩ := h.main
  exact hml.level_nonneg

theorem parent_nonneg (h : Extends bc t p b) : 0 ≤ p.height := by
  obtain ⟨l, hl⟩ := h.parent
  exact hl.level_nonneg

/-- A block with a parent is no genesis block. -/
theorem not_genesis (h : Extends bc t p b) : b.isGenesis = false := by
  have hp := h.parent_nonneg
  have hb := h.valid.2
  simp only [Block.isGenesis, decide_eq_false_iff_not]
  omega

/-- The parent of a block that extends the main tail is the main tail. -/
theorem height_of_mainTail (h : Extends bc t p b) (htail : b.parentHash = some t.hash) :
    t.height + 1 = b.height := by
  obtain ⟨ml, hml⟩ := h.main
  obtain ⟨l, hl⟩ := h.parent
  have hhash : p.hash = t.hash := Option.some.inj (h.valid.1.symm.trans htail)
  have hpt : p = t := (hl.stored p (by simp)).eq_of_hash (hml.stored t (by simp)) hhash
  have hp := h.valid.2
  rw [hpt] at hp
  omega

end Extends

/-- **The placement of digest blocks**: for every chain, every block that extends a stored
    block and every path that it takes, where the path decides on the kind of the block by the
    height of the block. -/
theorem digestPlacement_iff (path : AcceptancePath) (h : Extends bc t p b) (htakes : path.Takes bc t b) :
    DecidesByHeight b (path.accept bc b) ↔ path.RightHeight t p b := by
  have htail := h.mainTail_nonneg
  cases path with
  | mainFork isSyncing =>
    have hcheck : ChecksAt (t.height + 1) b ((AcceptancePath.mainFork isSyncing).accept bc b) :=
      checksAt_mainTail h.getParent h.mainTail
    refine (hcheck.decidesByHeight_iff (by omega) h.not_genesis).trans ?_
    rw [h.height_of_mainTail htakes]
    exact ⟨fun hright => hright.2.1, fun hdigest => ⟨Iff.rfl, hdigest, fun _ _ => rfl⟩⟩
  | sideFork =>
    refine ((checksAt_nonMainTail h.getParent).decidesByHeight_iff h.parent_nonneg h.not_genesis).trans ?_
    have hnext : b.height = p.height + 1 := by
      have := h.valid.2
      omega
    constructor
    · rintro ⟨hsame, hdigest, -⟩
      have hp : ¬ EndsEpoch p.height := fun hend => by
        have hb := hsame.1 hend
        rw [hnext] at hb
        exact hend.not_next hb
      have hb : ¬ EndsEpoch b.height := fun hb => hp (hsame.2 hb)
      exact ⟨hp, hb, Bool.eq_false_iff.2 fun h => hb (hdigest h)⟩
    · rintro ⟨hp, hb, hdigest⟩
      have hordinary : ¬ b.isDigest := by simp [hdigest]
      exact ⟨⟨fun hend => absurd hend hp, fun hend => absurd hend hb⟩, fun h => absurd h hordinary, fun hend => absurd hend hb⟩
  | replay => exact (checksAt_replay h.getParent h.mainTail).decidesByHeight_iff (by omega) h.not_genesis

/-! ## A block of another fork after the end of an epoch -/

/-- The blocks of a chain without forks. -/
def lineBlock (n : ℕ) : Block where
  hash := String.ofList (List.replicate n 'a')
  parentHash := if n = 0 then none else some (String.ofList (List.replicate (n - 1) 'a'))
  height := n
  minerPublicKey := "m"
  isDigest := decide (EndsEpoch n)

/-- The chain of the blocks up to height `n`. -/
def line (n : ℕ) : Blockchain :=
  { init with
    db := fun h =>
      if h = (lineBlock h.length).hash ∧ h.length ≤ n then some (lineBlock h.length) else none
    genesis := some (lineBlock 0)
    mainTailIndex := 0
    tails := [lineBlock n]
    forkLengths := [(n : ℤ)]
    mainForkMap := fun k => if 0 ≤ k ∧ k ≤ n then some (lineBlock k.toNat).hash else none }

theorem length_lineBlock_hash (k : ℕ) : (lineBlock k).hash.length = k := by
  simp [lineBlock, String.length_ofList]

theorem line_stored {n k : ℕ} (h : k ≤ n) : (line n).Stored (lineBlock k) := by
  show (if _ then _ else _) = some (lineBlock k)
  rw [length_lineBlock_hash, if_pos ⟨rfl, h⟩]

theorem line_isChain {n : ℕ} : ∀ {k : ℕ}, k ≤ n → ∃ l, (line n).IsChain (lineBlock k :: l)
  | 0, h => ⟨[], .root ⟨rfl, line_stored h, rfl⟩⟩
  | k + 1, h => by
    obtain ⟨l, hl⟩ := line_isChain (show k ≤ n by omega)
    refine ⟨lineBlock k :: l, .grow ⟨line_stored h, line_stored (by omega), by simp [lineBlock], ?_⟩ hl⟩
    simp [lineBlock]

theorem line_extends {n k : ℕ} (h : k ≤ n) {b : Block} (hb : (lineBlock k).isValidParentOf b) :
    Extends (line n) (lineBlock n) (lineBlock k) b :=
  ⟨rfl, line_isChain le_rfl, line_isChain h, hb⟩

/-- The second block above the end of the first epoch. -/
def secondBlock : Block :=
  ⟨"b", some (lineBlock 1000).hash, 1001, "n", false⟩

/-- A block with account states before the end of the first epoch. -/
def earlyDigest : Block := { lineBlock 999 with isDigest := true }

/-- On the main fork the block that ends the first epoch is judged by its height, and the early digest block is
    not. -/
theorem digestPlacement_iff_mainFork :
    DecidesByHeight (lineBlock 1000) ((AcceptancePath.mainFork false).accept (line 999) (lineBlock 1000)) ∧
      ¬ DecidesByHeight earlyDigest ((AcceptancePath.mainFork false).accept (line 998) earlyDigest) := by
  refine ⟨(digestPlacement_iff (.mainFork false) (line_extends le_rfl ⟨by rfl, by rfl⟩) (by rfl)).2 fun _ => by decide,
    fun hdecides => ?_⟩
  have hright := (digestPlacement_iff (.mainFork false) (line_extends (k := 998) le_rfl ⟨by rfl, by rfl⟩) (by rfl)).1 hdecides
  exact absurd (hright rfl) (by decide)

/-- An ordinary block of another fork, right after the end of an epoch, is taken for the digest
    block. -/
theorem not_decidesByHeight :
    ¬ ∀ (path : AcceptancePath) (bc : Blockchain) (t p b : Block), Extends bc t p b → path.Takes bc t b →
      DecidesByHeight b (path.accept bc b) := by
  intro hall
  have hext : Extends (line 1001) (lineBlock 1001) (lineBlock 1000) secondBlock :=
    line_extends (by omega) ⟨rfl, rfl⟩
  have htakes : AcceptancePath.sideFork.Takes (line 1001) (lineBlock 1001) secondBlock := by
    intro hhash
    have hlength := congrArg String.length (Option.some.inj hhash)
    rw [length_lineBlock_hash, length_lineBlock_hash] at hlength
    exact absurd hlength (by decide)
  have hdecides := hall .sideFork _ _ _ _ hext htakes
  have hsame := (((checksAt_nonMainTail hext.getParent).decidesByHeight_iff (by decide) hext.not_genesis).1 hdecides).1
  exact absurd (hsame.1 (by decide)) (by decide)

end Syncer
end Timbre
