/-
  Calls that move money only.

  Rewards, deals, verifications and resets, and their reversals, change balances, the counters
  of what has been earned, and vote powers.  **Whatever else is read off the wallets they leave as it
  is** (`Keeps`).
-/
import Timbre.Wallet.Digest
import Timbre.Wallet.Readiness

namespace Timbre

open Call

/-- What `π` reads off a wallet does not depend on money and vote power. -/
def Wallet.IgnoresMoney {β : Type} (π : Wallet → β) : Prop :=
  ∀ (w : Wallet) (votePower : UInt64) (balance blockReward proofReward rollBackAmount transactionFee : Int64),
    π { w with votePower, balance, blockReward, proofReward, rollBackAmount, transactionFee } = π w

namespace WalletManager

variable {E : Env} {α β : Type} {π : Wallet → β} {bRound : Int64} {wm wm' : WalletManager} {a c miner : Address}
  {f : Wallet → Wallet}

/-- What `π` reads off the wallets of all addresses. -/
def view (π : Wallet → β) (wm : WalletManager) (a : Address) : β := π (wm.wallet a)

/-- The call leaves what `π` reads as it is, if it returns. -/
def Keeps (π : Wallet → β) (c : WM α) : Prop :=
  ∀ wm, Spec c wm (fun _ wm' => wm'.view π = wm.view π) fun _ _ => True

/-! ## Updates -/

theorem view_of_wallet (h : wm'.wallet = wm.wallet) : wm'.view π = wm.view π := by
  funext a
  rw [view, view, h]

theorem Grow.view (h : Grow wm wm') : wm'.view π = wm.view π := view_of_wallet h.wallet

theorem view_modifyWallet :
    (wm.modifyWallet a f).view π = Function.update (wm.view π) a (π (f (wm.wallet a))) := by
  funext b
  by_cases hb : b = a
  · subst hb
    rw [view, wallet_modifyWallet_self, Function.update_self]
  · rw [view, wallet_modifyWallet_of_ne hb, Function.update_of_ne hb, view]

theorem view_modifyWallet_of (h : π (f (wm.wallet a)) = π (wm.wallet a)) :
    (wm.modifyWallet a f).view π = wm.view π := by
  rw [view_modifyWallet, h]
  exact Function.update_eq_self a (wm.view π)

theorem view_reAssign (hπ : Wallet.IgnoresMoney π) (voter : Wallet) (d : Int64) :
    (wm.reAssign E voter d).view π = wm.view π := by
  funext b
  rw [view, wallet_reAssign]
  split_ifs
  · exact hπ _ _ _ _ _ _ _
  · rfl

theorem view_credit (hπ : Wallet.IgnoresMoney π) (a : Address) (d : Int64) :
    (wm.credit a E d).view π = wm.view π :=
  (view_reAssign hπ _ _).trans (view_modifyWallet_of (hπ _ _ _ _ _ _ _))

theorem view_debit (hπ : Wallet.IgnoresMoney π) (a : Address) (x : Int64) :
    (wm.debit a E x).view π = wm.view π := by
  rw [debit_eq_credit]
  exact view_credit hπ a (-x)

theorem view_addVotePower (hπ : Wallet.IgnoresMoney π) (voter : Wallet) (p : ℤ) :
    (wm.addVotePower E c p voter).view π = wm.view π := by
  funext b
  rw [view, wallet_addVotePower]
  split_ifs
  · exact hπ _ _ _ _ _ _ _
  · rfl

/-! ## Calls -/

theorem Keeps.bind {γ : Type} {c : WM α} {f : α → WM γ} (h : Keeps π c) (h' : ∀ x, Keeps π (f x)) :
    Keeps π (c >>= f) := fun wm =>
  (h wm).bind (fun x wm₁ h₁ => (h' x wm₁).mono (fun _ _ h₂ => h₂.trans h₁) fun _ _ h => h) fun _ _ h => h

theorem Keeps.pure (x : α) : Keeps π (pure x : WM α) := fun _ => rfl

theorem Keeps.get : Keeps π (get : WM WalletManager) := fun _ => rfl

theorem keeps_throw (e : Err) : Keeps π (throw e : WM α) := fun _ => trivial

theorem Keeps.ite {p : Prop} [Decidable p] {c d : WM α} (h : Keeps π c) (h' : Keeps π d) :
    Keeps π (if p then c else d) := by
  split_ifs
  · exact h
  · exact h'

theorem Keeps.each {γ : Type} {g : γ → WM Unit} (h : ∀ x, Keeps π (g x)) : ∀ l, Keeps π (each g l)
  | [] => .pure ()
  | x :: l => fun wm => by
    rw [spec_each_cons]
    refine (h x wm).mono (fun _ wm₁ h₁ => ?_) fun _ _ h => h
    exact (Keeps.each h l wm₁).mono (fun _ _ h₂ => h₂.trans h₁) fun _ _ h => h

theorem keeps_modify {g : WalletManager → WalletManager} (h : ∀ wm, (g wm).view π = wm.view π) :
    Keeps π (modify g : WM Unit) := fun wm => h wm

theorem keeps_modifyWallet (h : ∀ w, π (f w) = π w) :
    Keeps π (modify fun wm : WalletManager => wm.modifyWallet a f : WM Unit) :=
  keeps_modify fun _ => view_modifyWallet_of (h _)

theorem keeps_checkAndPut (a : Address) : Keeps π (checkAndPutWalletByAddress a) := fun _ => rfl

theorem keeps_getWallet (a : Address) : Keeps π (getWalletByAddress a) := fun wm => by
  rw [spec_getWallet]
  exact ite_intro (fun _ => rfl) fun _ => trivial

theorem keeps_getDealbyHash (dealHash : Hash) : Keeps π (getDealbyHash dealHash) :=
  Keeps.bind .get fun wm => by
    cases wm.node.deals dealHash
    · exact keeps_throw _
    · exact .pure _

theorem keeps_validateDeal (deal : Deal) : Keeps π (validateDeal E deal bRound) :=
  Keeps.bind .get fun _ => .ite (keeps_throw _) (.pure _)

theorem keeps_isExecutable (tx : Transaction) : Keeps π (isExecutable E tx bRound) := fun wm =>
  (isExecutable_admits E bRound tx wm).mono (fun _ _ h => h.1.view) fun _ _ _ => trivial

/-- The check of a registration in a genesis block, whose error is ignored. -/
theorem keeps_checkedForGenesis (tx : Transaction) : Keeps π (tryCatch (isExecutable E tx bRound) fun
    | .error _ => pure ()
    | e => throw e) := fun wm => by
  rw [spec_tryCatch]
  refine (isExecutable_admits E bRound tx wm).mono (fun _ _ h => h.1.view) fun e wm' h => ?_
  cases e with
  | error m => exact h.view
  | panic m => trivial

theorem keeps_executeRegisterCandidate (a : Address) : Keeps π (executeRegisterCandidate a) :=
  Keeps.bind .get fun wm => by
    cases wm.executor.registerCand a
    · exact keeps_throw _
    · exact fun _ => view_of_wallet rfl

/-- The registration itself, whose error is ignored as well. -/
theorem keeps_registeredForGenesis (a : Address) :
    Keeps π (tryCatch (executeRegisterCandidate a) fun _ => pure ()) := fun wm => by
  simp only [spec_tryCatch, executeRegisterCandidate, spec_bind, spec_get]
  split
  · exact view_of_wallet rfl
  · rfl

theorem Keeps.ok {c : WM α} {x : α} (h : Keeps π c) (hc : c wm = (.ok x, wm')) : wm'.view π = wm.view π :=
  (h wm).ok hc

/-- A loop whose rounds keep what is read. -/
theorem Keeps.steps {γ : Type} {g : γ → WM Unit} (h : ∀ x, Keeps π (g x)) {l : List γ}
    (hs : Steps (fun x s s' => g x s = (.ok (), s')) l wm wm') : wm'.view π = wm.view π :=
  Steps.invariant (I := fun s => s.view π = wm.view π) hs rfl fun x _ _ _ hw hx => ((h x).ok hx).trans hw

/-! ## What moves money -/

section

variable (hπ : Wallet.IgnoresMoney π)
include hπ

theorem keeps_addBalance (a : Address) (d : Int64) : Keeps π (addBalance E a d) :=
  keeps_modify fun _ => view_credit hπ a d

theorem keeps_subBalance (a : Address) (x : Int64) : Keeps π (subBalance E a x) :=
  keeps_modify fun _ => view_debit hπ a x

theorem keeps_reAssignVotePower (a : Address) (d : Int64) : Keeps π (reAssignVotePower E a d) :=
  keeps_modify fun _ => view_reAssign hπ _ d

theorem keeps_chargePost (post : Post) : Keeps π (chargePost E bRound post) :=
  (keeps_checkAndPut _).bind fun _ => (keeps_getWallet _).bind fun _ => .ite
    (Keeps.bind (keeps_throw _) fun _ => (keeps_modifyWallet fun _ => hπ _ _ _ _ _ _ _).bind fun _ =>
      keeps_reAssignVotePower hπ _ _)
    ((keeps_modifyWallet fun _ => hπ _ _ _ _ _ _ _).bind fun _ => keeps_reAssignVotePower hπ _ _)

theorem keeps_applyDeal (deal : Deal) : Keeps π (applyDeal E miner bRound deal) :=
  (keeps_validateDeal deal).bind fun _ => (keeps_checkAndPut _).bind fun _ =>
    (Keeps.each (keeps_chargePost hπ) deal.list).bind fun _ => (keeps_addBalance hπ _ _).bind fun _ =>
      keeps_modifyWallet fun _ => hπ _ _ _ _ _ _ _

theorem keeps_refundPost (post : Post) : Keeps π (refundPost E bRound post) :=
  (keeps_getWallet _).bind fun _ => (keeps_modifyWallet fun _ => hπ _ _ _ _ _ _ _).bind fun _ =>
    keeps_reAssignVotePower hπ _ _

theorem keeps_revertDeal (deal : Deal) : Keeps π (revertDeal E miner bRound deal) :=
  (keeps_checkAndPut _).bind fun _ => (Keeps.each (keeps_refundPost hπ) deal.list).bind fun _ =>
    (keeps_subBalance hπ _ _).bind fun _ => keeps_modifyWallet fun _ => hπ _ _ _ _ _ _ _

theorem keeps_verificationPayment (deal : Deal) (curTs lastTs : Int64) :
    Keeps π (verificationPayment E deal curTs lastTs) :=
  (keeps_checkAndPut _).bind fun _ => .each (fun _ => (keeps_checkAndPut _).bind fun _ =>
    keeps_addBalance hπ _ _) deal.list

theorem keeps_revertVerificationPayment (deal : Deal) (curTs lastTs : Int64) :
    Keeps π (revertVerificationPayment E deal curTs lastTs) :=
  (keeps_checkAndPut _).bind fun _ => .each (fun _ => (keeps_checkAndPut _).bind fun _ =>
    keeps_subBalance hπ _ _) deal.list

theorem keeps_applyPair (cProof : ChPrPair) : Keeps π (applyPair E cProof) := by
  refine (keeps_getDealbyHash _).bind fun deal => Keeps.bind .get fun wm => ?_
  refine Keeps.bind (fun _ => view_of_wallet rfl) fun _ => .ite ?_ (.pure _)
  split
  · exact keeps_verificationPayment hπ deal _ _
  · exact keeps_throw _

theorem keeps_revertPair (cProof : ChPrPair) : Keeps π (revertPair E cProof) := by
  refine (keeps_getDealbyHash _).bind fun deal => Keeps.bind .get fun wm => ?_
  have hrevert : Keeps π (do
      modify fun wm => wm.setTimes (wm.times.unrecord cProof.dealhash)
      if checkChPrPair E deal cProof then
        revertVerificationPayment E deal cProof.timestamp
          ((wm.times.recorded cProof.dealhash).dropLast.getLastD deal.timestamp)) :=
    Keeps.bind (fun _ => view_of_wallet rfl) fun _ =>
      .ite (keeps_revertVerificationPayment hπ deal _ _) (.pure _)
  exact .ite ((keeps_throw _).bind fun _ => hrevert) hrevert

theorem keeps_giveBlockReward (block : PbBlock) (miner : Address) :
    Keeps π (giveBlockReward E block miner) :=
  (keeps_modifyWallet fun _ => hπ _ _ _ _ _ _ _).bind fun _ => keeps_addBalance hπ _ _

theorem keeps_revertBlockReward (block : PbBlock) (miner : Address) :
    Keeps π (revertBlockReward E block miner) :=
  (keeps_modifyWallet fun _ => hπ _ _ _ _ _ _ _).bind fun _ => keeps_reAssignVotePower hπ _ _

theorem keeps_resetWallet (a : Address) : Keeps π (resetWallet E a) :=
  Keeps.bind .get fun _ => (keeps_modifyWallet fun _ => hπ _ _ _ _ _ _ _).bind fun _ =>
    (keeps_reAssignVotePower hπ _ _).bind fun _ => keeps_modifyWallet fun _ => hπ _ _ _ _ _ _ _

theorem keeps_resetWalletManagerState (order : MapOrder) : Keeps π (resetWalletManagerState E order) :=
  Keeps.bind .get fun _ => .each (keeps_resetWallet hπ) _

theorem keeps_undoResetWallet (a : Address) : Keeps π (undoResetWallet E a) :=
  Keeps.bind .get fun _ => (keeps_modifyWallet fun _ => hπ _ _ _ _ _ _ _).bind fun _ =>
    keeps_reAssignVotePower hπ _ _

theorem keeps_undoDigestReset (order : MapOrder) : Keeps π (undoDigestReset E order) :=
  Keeps.bind .get fun _ => .each (keeps_undoResetWallet hπ) _

/-- A digest block changes no more than its clean-up. -/
theorem view_applyDigestBlock {block : PbBlock} {order : MapOrder} (hm : miner ∈ wm.keys)
    (h : applyDigestBlock E block miner order wm = (.ok (), wm')) : wm'.view π = wm.tidied.view π := by
  have hspec : Spec (applyDigestBlock E block miner order) wm (fun _ wm' => wm'.view π = wm.tidied.view π)
      fun _ _ => True := by
    rw [applyDigestBlock, spec_bind, spec_getWallet, if_pos hm]
    refine (validateDigestBlock_spec block wm).bind ?_ fun _ _ _ => trivial
    rintro _ _ ⟨rfl, -⟩
    have hreset := keeps_resetWalletManagerState (E := E) hπ order
    refine Keeps.bind .get (fun _ => .ite ?_ ?_) wm.tidied
    · exact (keeps_giveBlockReward hπ block miner).bind fun _ => hreset
    · exact Keeps.bind (keeps_modify fun _ => view_reAssign hπ _ _) fun _ => hreset
  exact hspec.ok h

end

end WalletManager
end Timbre
