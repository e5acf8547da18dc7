/-
  What the transactions of blocks leave in the wallets besides money.

  A transaction counts up the nonce of its sender, a PoDF is kept in the record of the miner, and a
  vote leaves an entry that is never deleted.  **An accepted block marks the wallets by its
  transactions** (`marks_accept`), **and its reversal takes back the nonces and the reports, but
  no entry** (`marks_revert`).
-/
import Timbre.Wallet.Keeps
import Timbre.Wallet.Nonces
import Timbre.Wallet.Rollback

namespace Timbre

open Call WalletManager

/-- What a wallet has kept of transactions: the nonce, the reports with the ban, and whether it has an
    entry for a candidate. -/
@[ext]
structure Marks where
  nonce : UInt64
  record : List Int64 × Int64
  voted : Prop

def Wallet.marks (w : Wallet) : Marks := ⟨w.nonce, (w.podfHeights, w.bannedTill), w.voted.keys.Nonempty⟩

theorem Wallet.ignoresMoney_marks : Wallet.IgnoresMoney Wallet.marks := fun _ _ _ _ _ _ _ => rfl

theorem PbBlock.taken_of_digest {block : PbBlock} (hg : block.isGenesis = false)
    (hd : block.isDigestBlock = true) : block.taken = [] := by
  rw [taken, hg, if_neg Bool.false_ne_true, if_pos hd]

theorem PbBlock.taken_of_ordinary {block : PbBlock} (hg : block.isGenesis = false)
    (hd : block.isDigestBlock = false) : block.taken = block.transactions := by
  rw [taken, hg, hd, if_neg Bool.false_ne_true, if_neg Bool.false_ne_true]

namespace Marks

def count (x : Marks) : Marks := { x with nonce := x.nonce + 1 }
def uncount (x : Marks) : Marks := { x with nonce := x.nonce - 1 }
def vote (p : Prop) (x : Marks) : Marks := { x with voted := x.voted ∨ p }
def report (h : Int64) (x : Marks) : Marks := { x with record := WalletManager.report h x.record }
def unreport (x : Marks) : Marks := { x with record := WalletManager.unreport x.record }

/-- A change of the marks of one address. -/
def modify (a : Address) (g : Marks → Marks) (m : Address → Marks) : Address → Marks :=
  Function.update m a (g (m a))

theorem modify_self (a : Address) (g : Marks → Marks) (m : Address → Marks) : modify a g m a = g (m a) :=
  Function.update_self _ _ _

theorem modify_of_ne {a b : Address} (h : b ≠ a) (g : Marks → Marks) (m : Address → Marks) :
    modify a g m b = m b := Function.update_of_ne h _ _

theorem modify_apply (a b : Address) (g : Marks → Marks) (m : Address → Marks) :
    modify b g m a = if b = a then g (m a) else m a := by
  split_ifs with h
  · rw [← h, modify_self]
  · exact modify_of_ne (Ne.symm h) g m

theorem modify_eq_self {a : Address} {g : Marks → Marks} {m : Address → Marks} (h : g (m a) = m a) :
    modify a g m = m := by
  rw [modify, h, Function.update_eq_self]

theorem modify_modify (a : Address) (g g' : Marks → Marks) (m : Address → Marks) :
    modify a g' (modify a g m) = modify a (fun x => g' (g x)) m := by
  rw [modify, modify_self, modify, modify, Function.update_idem]

end Marks

namespace Transaction

variable (E : Env) (tx : Transaction)

/-- The transaction is a vote of the address, with an entry. -/
def Votes (a : Address) : Prop := tx.type = .vote ∧ tx.senderId = a ∧ votedCands E tx ≠ []

/-- What the application of a transaction does to the marks. -/
def mark : (Address → Marks) → Address → Marks :=
  match tx.type with
  | .transfer | .becomeCandidate | .quitCandidate => Marks.modify tx.senderId Marks.count
  | .vote => Marks.modify tx.senderId fun x => x.count.vote (votedCands E tx ≠ [])
  | .podf => Marks.modify (reportedMiner E tx) (Marks.report (reportedHeight E tx))
  | .other => id

/-- What its reversal does. -/
def unmark : (Address → Marks) → Address → Marks :=
  match tx.type with
  | .transfer | .becomeCandidate | .quitCandidate | .vote => Marks.modify tx.senderId Marks.uncount
  | .podf => Marks.modify (reportedMiner E tx) Marks.unreport
  | .other => id

variable {E} {tx} {m : Address → Marks} {a : Address} {txs : List Transaction}

theorem nonce_mark : (tx.mark E m a).nonce =
    if tx.Ordinary ∧ tx.senderId = a then (m a).nonce + 1 else (m a).nonce := by
  cases htype : tx.type <;> simp only [mark, htype, Ordinary, Marks.modify_apply] <;> simp <;>
    split_ifs <;> rfl

theorem nonce_unmark : (tx.unmark E m a).nonce =
    if tx.Ordinary ∧ tx.senderId = a then (m a).nonce - 1 else (m a).nonce := by
  cases htype : tx.type <;> simp only [unmark, htype, Ordinary, Marks.modify_apply] <;> simp <;>
    split_ifs <;> rfl

theorem record_mark : (tx.mark E m a).record = if tx.type = .podf ∧ reportedMiner E tx = a then
    report (reportedHeight E tx) (m a).record else (m a).record := by
  cases htype : tx.type <;> simp only [mark, htype, Marks.modify_apply] <;> simp <;>
    split_ifs <;> rfl

theorem record_unmark : (tx.unmark E m a).record = if tx.type = .podf ∧ reportedMiner E tx = a then
    unreport (m a).record else (m a).record := by
  cases htype : tx.type <;> simp only [unmark, htype, Marks.modify_apply] <;> simp <;>
    split_ifs <;> rfl

theorem voted_mark : (tx.mark E m a).voted ↔ (m a).voted ∨ tx.Votes E a := by
  cases htype : tx.type <;> simp only [mark, htype, Votes, Marks.modify_apply] <;> simp <;>
    split_ifs with h <;> simp [h, Marks.count, Marks.vote, Marks.report]

theorem voted_unmark : (tx.unmark E m a).voted = (m a).voted := by
  cases htype : tx.type <;> simp only [unmark, htype, Marks.modify_apply, id_eq] <;>
    split_ifs <;> rfl

/-! ## Lists of transactions -/

def markAll (E : Env) (txs : List Transaction) (m : Address → Marks) : Address → Marks :=
  txs.foldl (fun m tx => tx.mark E m) m

def unmarkAll (E : Env) (txs : List Transaction) (m : Address → Marks) : Address → Marks :=
  txs.foldl (fun m tx => tx.unmark E m) m

theorem nonce_markAll (txs : List Transaction) (m : Address → Marks) :
    (markAll E txs m a).nonce = (m a).nonce + UInt64.ofNat (counted a txs) := by
  induction txs generalizing m with
  | nil => exact (add_zero _).symm
  | cons tx txs ih =>
    have hrest := ih (tx.mark E m)
    rw [nonce_mark] at hrest
    refine Eq.trans hrest ?_
    rw [counted_cons, UInt64.ofNat_add]
    by_cases h : tx.Ordinary ∧ tx.senderId = a
    · rw [if_pos h, if_pos h, add_assoc, add_comm 1]
      rfl
    · rw [if_neg h, if_neg h]
      exact congrArg _ (add_zero _).symm

theorem nonce_unmarkAll (txs : List Transaction) (m : Address → Marks) :
    (m a).nonce = (unmarkAll E txs m a).nonce + UInt64.ofNat (counted a txs) := by
  induction txs generalizing m with
  | nil => exact (add_zero _).symm
  | cons tx txs ih =>
    have hrest := ih (tx.unmark E m)
    have hfold : unmarkAll E (tx :: txs) m = unmarkAll E txs (tx.unmark E m) := rfl
    rw [nonce_unmark] at hrest
    rw [hfold, counted_cons, UInt64.ofNat_add, ← add_assoc, ← hrest]
    by_cases h : tx.Ordinary ∧ tx.senderId = a
    · rw [if_pos h, if_pos h]
      exact (sub_add_cancel _ _).symm
    · rw [if_neg h, if_neg h]
      exact (add_zero _).symm

theorem record_markAll (txs : List Transaction) (m : Address → Marks) :
    (markAll E txs m a).record = reportAll (m a).record (reportsIn E a txs) := by
  induction txs generalizing m with
  | nil => rfl
  | cons tx txs ih =>
    refine (ih (tx.mark E m)).trans ?_
    rw [record_mark, reportsIn_cons]
    split_ifs <;> rfl

theorem record_unmarkAll (txs : List Transaction) (m : Address → Marks) :
    (unmarkAll E txs m a).record = unreportN (m a).record (reportsIn E a txs).length := by
  induction txs generalizing m with
  | nil => rfl
  | cons tx txs ih =>
    refine (ih (tx.unmark E m)).trans ?_
    rw [record_unmark, reportsIn_cons]
    split_ifs <;> rfl

theorem voted_markAll (txs : List Transaction) (m : Address → Marks) :
    (markAll E txs m a).voted ↔ (m a).voted ∨ ∃ tx ∈ txs, tx.Votes E a := by
  induction txs generalizing m with
  | nil => simp [markAll]
  | cons tx txs ih =>
    refine (ih (tx.mark E m)).trans ?_
    rw [voted_mark, List.exists_mem_cons_iff, or_assoc]

theorem voted_unmarkAll (txs : List Transaction) (m : Address → Marks) :
    (unmarkAll E txs m a).voted = (m a).voted := by
  induction txs generalizing m with
  | nil => rfl
  | cons tx txs ih => exact (ih (tx.unmark E m)).trans voted_unmark

end Transaction

namespace WalletManager

open Transaction

variable {E : Env} {α β : Type} {bRound : Int64} {wm wm' wm₁ : WalletManager} {a c miner : Address}
  {tx : Transaction} {txs : List Transaction} {f : Wallet → Wallet} {g g' : Marks → Marks} {p : ℤ}
  {m : Address → Marks} {block : PbBlock} {order : MapOrder}

abbrev marks (wm : WalletManager) : Address → Marks := wm.view Wallet.marks

theorem marks_modifyWallet (h : (f (wm.wallet a)).marks = g (wm.wallet a).marks) :
    (wm.modifyWallet a f).marks = Marks.modify a g wm.marks := by
  rw [marks, view_modifyWallet, h]
  rfl

/-- A vote leaves an entry. -/
theorem marks_castVote (wm : WalletManager) (a c : Address) (p : ℤ) :
    (wm.castVote a E c p).marks = Marks.modify a (Marks.vote True) wm.marks := by
  rw [castVote, marks, view_addVotePower Wallet.ignoresMoney_marks]
  refine marks_modifyWallet ?_
  unfold Wallet.executeVote
  split_ifs <;> exact Marks.ext rfl rfl (by simp [Wallet.marks, Wallet.subVoteLeft, Marks.vote])

/-- The withdrawal of a vote leaves the entries of a wallet that has some. -/
theorem marks_castUnvote (h : (wm.marks a).voted) : (wm.castUnvote a E c p).marks = wm.marks := by
  have hvoted : (wm.wallet a).voted.keys.Nonempty := h
  rw [castUnvote, subVotePower_eq_addVotePower, marks, view_addVotePower Wallet.ignoresMoney_marks]
  refine view_modifyWallet_of ?_
  unfold Wallet.executeUnvote
  dsimp only
  split_ifs <;> exact Marks.ext rfl rfl (by simp [Wallet.marks, Wallet.addVoteLeft, hvoted])

/-! ## Calls -/

/-- The call changes the marks by `F`, if it returns. -/
def Marking (c : WM α) (F : (Address → Marks) → Address → Marks) : Prop :=
  ∀ wm, Spec c wm (fun _ wm' => wm'.marks = F wm.marks) fun _ _ => True

variable {F : (Address → Marks) → Address → Marks}

/-- A call before that leaves the marks as they are. -/
theorem Keeps.marking {c : WM α} {f : α → WM β} (h : Keeps Wallet.marks c) (h' : ∀ x, Marking (f x) F) :
    Marking (c >>= f) F := fun wm =>
  (h wm).bind (fun x wm₁ h₁ => (h' x wm₁).mono (fun _ _ h₂ => h₂.trans (congrArg F h₁)) fun _ _ h => h)
    fun _ _ h => h

/-- A call behind that leaves the marks as they are. -/
theorem Marking.keeps {c : WM α} {f : α → WM β} (h : Marking c F) (h' : ∀ x, Keeps Wallet.marks (f x)) :
    Marking (c >>= f) F := fun wm =>
  (h wm).bind (fun x wm₁ h₁ => (h' x wm₁).mono (fun _ _ h₂ => h₂.trans h₁) fun _ _ h => h) fun _ _ h => h

theorem Marking.bind {G : (Address → Marks) → Address → Marks} {c : WM α} {f : α → WM β} (h : Marking c F)
    (h' : ∀ x, Marking (f x) G) : Marking (c >>= f) fun m => G (F m) := fun wm =>
  (h wm).bind (fun x wm₁ h₁ => (h' x wm₁).mono (fun _ _ h₂ => h₂.trans (congrArg G h₁)) fun _ _ h => h)
    fun _ _ h => h

/-- A guard that fails leaves nothing to show. -/
theorem Marking.guard {q : Prop} [Decidable q] {e : Err} {f : Unit → WM β} {d : WM β} (h : Marking d F) :
    Marking (if q then throw e >>= f else d) F := by
  split_ifs
  · exact fun _ => trivial
  · exact h

theorem Marking.ok {c : WM α} {x : α} (h : Marking c F) (hc : c wm = (.ok x, wm')) : wm'.marks = F wm.marks :=
  (h wm).ok hc

theorem marking_modifyWallet (h : ∀ w, (f w).marks = g w.marks) :
    Marking (modify fun wm : WalletManager => wm.modifyWallet a f : WM Unit) (Marks.modify a g) :=
  fun _ => marks_modifyWallet (h _)

theorem keeps_executeQuitCandidate (a : Address) : Keeps Wallet.marks (executeQuitCandidate a) :=
  Keeps.bind .get fun wm => by
    cases wm.executor.quitCandidate a with
    | error e => exact keeps_throw _
    | ok s =>
      refine keeps_modify fun wm => ?_
      dsimp only
      split_ifs
      · exact view_modifyWallet_of rfl
      · exact view_of_wallet rfl

theorem keeps_setCandidate (a : Address) (flag : Bool) : Keeps Wallet.marks (setCandidate a flag) :=
  keeps_modifyWallet fun _ => rfl

theorem keeps_credit (a : Address) (d : Int64) : Keeps Wallet.marks (addBalance E a d) :=
  keeps_addBalance Wallet.ignoresMoney_marks a d

theorem keeps_debit (a : Address) (x : Int64) : Keeps Wallet.marks (subBalance E a x) :=
  keeps_subBalance Wallet.ignoresMoney_marks a x

theorem marking_count (a : Address) : Marking (setNonce a (· + 1)) (Marks.modify a Marks.count) :=
  marking_modifyWallet fun _ => rfl

theorem marking_uncount (a : Address) : Marking (setNonce a (· - 1)) (Marks.modify a Marks.uncount) :=
  marking_modifyWallet fun _ => rfl

/-! ## Transfers and candidate transactions -/

theorem marking_applyTransferTx (fee : Int64) :
    Marking (applyTransferTx E tx fee bRound) (Marks.modify tx.senderId Marks.count) :=
  (keeps_checkAndPut _).marking fun _ => (keeps_checkAndPut _).marking fun _ =>
    (keeps_isExecutable tx).marking fun _ => (keeps_getWallet _).marking fun _ =>
      (keeps_debit _ _).marking fun _ => (marking_count _).keeps fun _ =>
        (keeps_getWallet _).bind fun _ => keeps_credit _ _

theorem marking_revertTransferTx (fee : Int64) :
    Marking (revertTransferTx E tx fee) (Marks.modify tx.senderId Marks.uncount) :=
  (keeps_getWallet _).marking fun _ => (keeps_credit _ _).marking fun _ => (marking_uncount _).keeps fun _ =>
    (keeps_getWallet _).bind fun _ => keeps_debit _ _

theorem marking_applyCandidateTx {execute : Address → WM Unit} (h : ∀ a, Keeps Wallet.marks (execute a))
    (flag : Bool) (fee : Int64) : Marking (applyCandidateTx E execute flag tx fee bRound)
      (Marks.modify tx.senderId Marks.count) :=
  (keeps_checkAndPut _).marking fun _ => (keeps_isExecutable tx).marking fun _ =>
    (keeps_getWallet _).marking fun _ => (h _).marking fun _ => (keeps_setCandidate _ _).marking fun _ =>
      (keeps_debit _ _).marking fun _ => marking_count _

theorem marking_revertCandidateTx {execute : Address → WM Unit} (h : ∀ a, Keeps Wallet.marks (execute a))
    (flag : Bool) (fee : Int64) : Marking (revertCandidateTx E execute flag tx fee)
      (Marks.modify tx.senderId Marks.uncount) :=
  (keeps_getWallet _).marking fun _ => (h _).marking fun _ => (keeps_setCandidate _ _).marking fun _ =>
    (keeps_credit _ _).marking fun _ => marking_uncount _

/-! ## Votes -/

/-- An entry that is applied leaves one in the wallet of the voter. -/
theorem marking_applyEntry (voter : Address) (s : String) :
    Marking (applyEntry E voter s) (Marks.modify voter (Marks.vote True)) := by
  intro wm
  unfold applyEntry
  rw [spec_bind, spec_get, spec_bind]
  refine (checkEntry_spec (wm.wallet voter) s wm).mono ?_ fun _ _ _ => trivial
  rintro _ wm ⟨rfl, hvalid⟩
  rcases hvalid with ⟨h, -⟩ | ⟨h, hmem, -⟩
  · simp only [h, spec_modify]
    exact marks_castVote wm voter _ _
  · simp only [h, spec_modify]
    have hvoted : (wm.marks voter).voted := ⟨_, hmem⟩
    rw [marks_castUnvote hvoted, Marks.modify_eq_self (Marks.ext rfl rfl (by simp [Marks.vote, hvoted]))]

theorem marking_applyEntries (voter : Address) : ∀ cands : List String,
    Marking (each (applyEntry E voter) cands) (Marks.modify voter (Marks.vote (cands ≠ [])))
  | [] => fun wm =>
    (Marks.modify_eq_self (Marks.ext rfl rfl (by simp [Marks.vote])) : _ = wm.marks).symm
  | s :: cands => fun wm => by
    rw [spec_each_cons]
    refine (marking_applyEntry voter s wm).mono (fun _ wm₁ h₁ => ?_) fun _ _ h => h
    refine (marking_applyEntries voter cands wm₁).mono (fun _ wm' h => ?_) fun _ _ h => h
    rw [h, h₁, Marks.modify_modify]
    congr 1
    funext x
    exact Marks.ext rfl rfl (by simp [Marks.vote])

theorem marking_applyVote (fee : Int64) : Marking (applyVote E tx fee bRound)
    (Marks.modify tx.senderId fun x => x.count.vote (votedCands E tx ≠ [])) := by
  have hvalidate : Keeps Wallet.marks (validateVote E tx bRound) := fun wm =>
    (validateVote_spec E bRound tx wm).mono (fun _ _ h => h.1 ▸ rfl) fun _ _ _ => trivial
  refine hvalidate.marking fun _ => (keeps_checkAndPut _).marking fun _ => fun wm => ?_
  refine (marking_count tx.senderId wm).bind (fun _ wm₁ h₁ => ?_) fun _ _ h => h
  refine (keeps_debit tx.senderId fee wm₁).bind (fun _ wm₂ h₂ => ?_) fun _ _ h => h
  refine (marking_applyEntries tx.senderId _ wm₂).mono (fun _ wm' h => ?_) fun _ _ h => h
  have hcounted : wm₂.marks = Marks.modify tx.senderId Marks.count wm.marks := h₂.trans h₁
  rw [h, hcounted, Marks.modify_modify]

/-- An entry that is taken back stays, with what is left. -/
theorem revertEntry_marks (voter : Address) (s : String) (h : (wm.marks voter).voted) :
    Spec (revertEntry E voter s) wm (fun _ wm' => wm'.marks = wm.marks) fun _ _ => True := by
  have hcast : ∀ (c : Address) (p : ℤ), (wm.castVote voter E c p).marks = wm.marks := fun c p =>
    (marks_castVote wm voter c p).trans
      (Marks.modify_eq_self (Marks.ext rfl rfl (by simp [Marks.vote, h])))
  unfold revertEntry
  split
  · exact hcast _ _
  · exact marks_castUnvote h
  · exact marks_castUnvote h
  · trivial

theorem revertEntries_marks (voter : Address) : ∀ (cands : List String) (wm : WalletManager),
    (cands ≠ [] → (wm.marks voter).voted) →
      Spec (each (revertEntry E voter) cands) wm (fun _ wm' => wm'.marks = wm.marks) fun _ _ => True
  | [], _, _ => rfl
  | s :: cands, wm, h => by
    have hvoted := h (List.cons_ne_nil s cands)
    rw [spec_each_cons]
    refine (revertEntry_marks voter s hvoted).mono (fun _ wm₁ h₁ => ?_) fun _ _ h => h
    have hvoted₁ : (wm₁.marks voter).voted := h₁ ▸ hvoted
    exact (revertEntries_marks voter cands wm₁ fun _ => hvoted₁).mono (fun _ _ h₂ => h₂.trans h₁)
      fun _ _ h => h

theorem revertVote_marks (fee : Int64) (h : votedCands E tx ≠ [] → (wm.marks tx.senderId).voted) :
    Spec (revertVote E tx fee) wm
      (fun _ wm' => wm'.marks = Marks.modify tx.senderId Marks.uncount wm.marks) fun _ _ => True := by
  rw [revertVote, spec_bind, spec_getWallet]
  refine ite_intro (fun _ => ?_) fun _ => trivial
  refine (marking_uncount tx.senderId wm).bind (fun _ wm₁ h₁ => ?_) fun _ _ h => h
  refine (keeps_credit tx.senderId fee wm₁).bind (fun _ wm₂ h₂ => ?_) fun _ _ h => h
  have hmarks : wm₂.marks = Marks.modify tx.senderId Marks.uncount wm.marks := h₂.trans h₁
  refine (revertEntries_marks tx.senderId _ wm₂ fun hne => ?_).mono (fun _ _ h => h.trans hmarks) fun _ _ h => h
  rw [hmarks, Marks.modify_self]
  exact h hne

/-! ## Reports -/

theorem marking_applyPodf (fee : Int64) : Marking (applyPodf E tx fee bRound)
    (Marks.modify (reportedMiner E tx) (Marks.report (reportedHeight E tx))) := by
  have hvalidate : Keeps Wallet.marks (validatePodf E tx bRound) := fun wm =>
    (validatePodf_spec E bRound tx wm).mono (fun _ _ h => h.1 ▸ rfl) fun _ _ h => trivial
  refine hvalidate.marking fun _ => ?_
  cases hheader : reportedHeader E tx with
  | none => exact fun _ => trivial
  | some h1 =>
    have hheight : reportedHeight E tx = h1.height := by rw [reportedHeight, hheader]; rfl
    rw [hheight]
    refine (keeps_getWallet _).marking fun _ => Keeps.marking (keeps_modifyWallet fun _ => rfl) fun _ => ?_
    refine (keeps_debit _ _).marking fun _ => Marking.keeps (marking_modifyWallet fun _ => rfl) fun _ => ?_
    exact (keeps_checkAndPut _).bind fun _ => keeps_credit _ _

/-- The ban is lifted before the report is taken back. -/
theorem marking_revertPodf (fee : Int64) :
    Marking (revertPodf E tx fee) (Marks.modify (reportedMiner E tx) Marks.unreport) := by
  let unban (x : Marks) : Marks := { x with record := (x.record.1, (unreport x.record).2) }
  let dropLast (x : Marks) : Marks := { x with record := (x.record.1.dropLast, x.record.2) }
  have hban : Marking (modify fun wm : WalletManager => wm.modifyWallet (reportedMiner E tx) fun w =>
      { w with bannedTill := if w.podfHeights.length % blockThresholdToBan = 0 then -1 else w.bannedTill } :
        WM Unit) (Marks.modify (reportedMiner E tx) unban) := marking_modifyWallet fun _ => rfl
  have hdrop : Marking (modify fun wm : WalletManager => wm.modifyWallet (reportedMiner E tx) fun w =>
      { w with podfHeights := w.podfHeights.dropLast } : WM Unit)
        (Marks.modify (reportedMiner E tx) dropLast) := marking_modifyWallet fun _ => rfl
  have hboth : Marks.modify (reportedMiner E tx) Marks.unreport = fun m =>
      Marks.modify (reportedMiner E tx) dropLast (Marks.modify (reportedMiner E tx) unban m) :=
    funext fun m => (Marks.modify_modify _ unban dropLast m).symm
  rw [hboth]
  refine (keeps_getWallet _).marking fun _ => Keeps.marking (keeps_modifyWallet fun _ => rfl) fun _ => ?_
  refine (keeps_credit _ _).marking fun _ => hban.bind fun _ => .guard (hdrop.keeps fun _ => ?_)
  exact (keeps_getWallet _).bind fun _ => keeps_debit _ _

/-! ## Transactions -/

theorem marking_applyTransaction (tx : Transaction) :
    Marking (applyTransaction E miner bRound tx) (tx.mark E) := by
  have hfee : ∀ fee : Int64, Keeps Wallet.marks (do
      addBalance E miner fee
      modify fun wm : WalletManager => wm.modifyWallet miner fun w =>
        { w with transactionFee := w.transactionFee + fee }) := fun fee =>
    (keeps_credit _ _).bind fun _ => keeps_modifyWallet fun _ => rfl
  unfold applyTransaction mark
  cases tx.type with
  | transfer => exact (marking_applyTransferTx _).keeps fun _ => hfee _
  | becomeCandidate =>
    exact (marking_applyCandidateTx keeps_executeRegisterCandidate true _).keeps fun _ => hfee _
  | quitCandidate => exact (marking_applyCandidateTx keeps_executeQuitCandidate false _).keeps fun _ => hfee _
  | vote => exact (marking_applyVote _).keeps fun _ => hfee _
  | podf => exact (marking_applyPodf _).keeps fun _ => hfee _
  | other => exact fun _ => trivial

/-- A vote is taken back from a wallet that has kept its entries. -/
theorem revertTransaction_marks (tx : Transaction) (h : ∀ a, tx.Votes E a → (wm.marks a).voted) :
    Spec (revertTransaction E miner bRound tx) wm (fun _ wm' => wm'.marks = tx.unmark E wm.marks)
      fun _ _ => True := by
  have hfee : ∀ fee : Int64, Keeps Wallet.marks (do
      subBalance E miner fee
      modify fun wm : WalletManager => wm.modifyWallet miner fun w =>
        { w with transactionFee := w.transactionFee - fee }) := fun fee =>
    (keeps_debit _ _).bind fun _ => keeps_modifyWallet fun _ => rfl
  have hvoted : tx.type = .vote → votedCands E tx ≠ [] → (wm.marks tx.senderId).voted :=
    fun htype hne => h _ ⟨htype, rfl, hne⟩
  unfold revertTransaction unmark
  cases htype : tx.type with
  | transfer => exact ((marking_revertTransferTx _).keeps fun _ => hfee _) wm
  | becomeCandidate =>
    exact ((marking_revertCandidateTx keeps_executeQuitCandidate false _).keeps fun _ => hfee _) wm
  | quitCandidate =>
    exact ((marking_revertCandidateTx keeps_executeRegisterCandidate true _).keeps fun _ => hfee _) wm
  | vote =>
    refine (revertVote_marks _ (hvoted htype)).bind (fun _ wm₁ h₁ => ?_) fun _ _ h => h
    exact (hfee _ wm₁).mono (fun _ _ h => h.trans h₁) fun _ _ h => h
  | podf => exact ((marking_revertPodf _).keeps fun _ => hfee _) wm
  | other => exact (Keeps.pure ()).bind (fun _ => hfee _) wm

/-- Transactions that are applied one after the other. -/
theorem marks_applied (h : Steps (fun tx s s' => applyTransaction E miner bRound tx s = (.ok (), s')) txs wm wm') :
    wm'.marks = markAll E txs wm.marks := by
  induction h with
  | nil => rfl
  | cons hx _ ih =>
    rw [ih, (marking_applyTransaction _).ok hx]
    rfl

/-- Transactions that are reverted one after the other. -/
theorem marks_reverted (h : Steps (fun tx s s' => revertTransaction E miner bRound tx s = (.ok (), s')) txs wm wm')
    (hv : ∀ tx ∈ txs, ∀ a, tx.Votes E a → (wm.marks a).voted) : wm'.marks = unmarkAll E txs wm.marks := by
  induction h with
  | nil => rfl
  | @cons tx txs s s₁ s' hx _ ih =>
    have hone : s₁.marks = tx.unmark E s.marks := (revertTransaction_marks tx (hv tx (by simp))).ok hx
    have hvoted : ∀ tx ∈ txs, ∀ a, tx.Votes E a → (s₁.marks a).voted := by
      intro tx' htx' a hvote
      rw [hone, voted_unmark]
      exact hv tx' (by simp [htx']) a hvote
    rw [ih hvoted, hone]
    rfl

/-! ## Genesis blocks -/

theorem marking_applyDelRegTxForGenesis (tx : Transaction) :
    Marking (applyDelRegTxForGenesis E tx bRound) (Marks.modify tx.senderId Marks.count) :=
  (keeps_checkAndPut _).marking fun _ => (keeps_checkedForGenesis tx).marking fun _ =>
    (keeps_getWallet _).marking fun _ => (keeps_registeredForGenesis _).marking fun _ =>
      (keeps_setCandidate _ _).marking fun _ => marking_count _

theorem marks_registered (htypes : ∀ tx ∈ txs, tx.type = .becomeCandidate)
    (h : Steps (fun tx s s' => applyDelRegTxForGenesis E tx bRound s = (.ok (), s')) txs wm wm') :
    wm'.marks = markAll E txs wm.marks := by
  induction h with
  | nil => rfl
  | @cons tx txs s s₁ s' hx _ ih =>
    have hone : s₁.marks = tx.mark E s.marks := by
      rw [(marking_applyDelRegTxForGenesis tx).ok hx, mark, htypes tx (by simp)]
    rw [ih fun tx' htx' => htypes tx' (by simp [htx']), hone]
    rfl

theorem marks_applyGenesis (hg : block.isGenesis = true) (h : applyGenesis E block wm = (.ok (), wm')) :
    wm'.marks = markAll E block.taken wm.marks := by
  obtain ⟨_, s₀, hput, h⟩ := bind_ok h
  obtain ⟨_, s₁, hset, h⟩ := bind_ok h
  obtain ⟨_, s₂, hregister, hreward⟩ := bind_ok h
  have htaken : block.taken = block.transactions.filter fun tx => tx.type = .becomeCandidate := by
    rw [PbBlock.taken, if_pos hg]
  have htypes : ∀ tx ∈ block.taken, tx.type = .becomeCandidate := fun tx htx => by
    rw [htaken] at htx
    simpa using (List.mem_filter.1 htx).2
  rw [← htaken] at hregister
  have hbefore : s₁.marks = wm.marks := ((keeps_setCandidate _ true).ok hset).trans ((keeps_checkAndPut _).ok hput)
  have hafter : wm'.marks = s₂.marks := (keeps_giveBlockReward Wallet.ignoresMoney_marks _ _).ok hreward
  rw [hafter, marks_registered htypes (each_ok hregister), hbefore]

/-! ## Blocks -/

theorem marks_applyBlock (h : applyBlock E block miner order wm = (.ok (), wm')) :
    wm'.marks = markAll E block.transactions wm.marks := by
  obtain ⟨t₀, t₁, t₂, h⟩ := applyBlock_parts h
  have hmoney := Wallet.ignoresMoney_marks
  have h₀ : t₀.marks = wm.marks := (keeps_giveBlockReward hmoney block miner).ok h.reward
  have h₁ : t₁.marks = markAll E block.transactions t₀.marks := marks_applied (forEach_ok h.transactions)
  have h₂ : t₂.marks = t₁.marks := Keeps.steps (keeps_applyDeal hmoney) (forEach_ok h.deals)
  have h₃ : wm'.marks = t₂.marks := Keeps.steps (keeps_applyPair hmoney) (forEach_ok h.pairs)
  rw [h₃, h₂, h₁, h₀]

/-- **A block that is accepted** marks the wallets by its transactions, if the clean-up of a digest block
    loses no mark. -/
theorem marks_accept (h : checkAndUpdateWalletStates E block miner order wm = (.ok (), wm'))
    (hclean : (wm.put miner).tidied.marks = wm.marks) : wm'.marks = markAll E block.taken wm.marks := by
  unfold checkAndUpdateWalletStates at h
  by_cases hg : block.isGenesis = true
  · rw [if_pos hg] at h
    exact marks_applyGenesis hg h
  · rw [if_neg hg] at h
    rw [Bool.not_eq_true] at hg
    obtain ⟨_, s₀, hput, h⟩ := bind_ok h
    obtain rfl : wm.put miner = s₀ := congrArg Prod.snd hput
    by_cases hd : block.isDigestBlock = true
    · rw [if_pos hd] at h
      rw [PbBlock.taken_of_digest hg hd]
      exact (view_applyDigestBlock Wallet.ignoresMoney_marks (Finset.mem_insert_self _ _) h).trans hclean
    · rw [if_neg hd] at h
      rw [PbBlock.taken_of_ordinary hg (Bool.not_eq_true _ ▸ hd)]
      have happlied := marks_applyBlock h
      exact happlied

/-- **A block that is reverted** takes its nonces and reports back. -/
theorem marks_revert (hg : block.isGenesis = false) (h : revertWalletStates E block miner order wm = (.ok (), wm'))
    (hv : ∀ tx ∈ block.taken, ∀ a, tx.Votes E a → (wm.marks a).voted) :
    wm'.marks = unmarkAll E block.taken wm.marks := by
  have hmoney := Wallet.ignoresMoney_marks
  obtain ⟨_, s₀, hget, h⟩ := bind_ok h
  have h₀ : s₀.marks = wm.marks := (keeps_getWallet miner).ok hget
  by_cases hd : block.isDigestBlock = true
  · rw [if_pos hd] at h
    rw [PbBlock.taken_of_digest hg hd]
    have hundo : Keeps Wallet.marks (do
        undoDigestReset E order
        revertBlockReward E block miner) :=
      (keeps_undoDigestReset hmoney order).bind fun _ => keeps_revertBlockReward hmoney block miner
    exact (hundo.ok h).trans h₀
  · rw [if_neg hd] at h
    rw [PbBlock.taken_of_ordinary hg (Bool.not_eq_true _ ▸ hd)] at hv ⊢
    obtain ⟨_, s₁, hreward, h⟩ := bind_ok h
    obtain ⟨_, s₂, htxs, h⟩ := bind_ok h
    obtain ⟨_, s₃, hdeals, hpairs⟩ := bind_ok h
    have h₁ : s₁.marks = wm.marks := ((keeps_revertBlockReward hmoney block miner).ok hreward).trans h₀
    have h₂ : s₂.marks = unmarkAll E block.transactions s₁.marks :=
      marks_reverted (each_ok htxs) (h₁ ▸ hv)
    have h₃ : s₃.marks = s₂.marks := Keeps.steps (keeps_revertDeal hmoney) (each_ok hdeals)
    have h₄ : wm'.marks = s₃.marks := Keeps.steps (keeps_revertPair hmoney) (each_ok hpairs)
    rw [h₄, h₃, h₂, h₁]

end WalletManager
end Timbre
