/-
  The reversal of PoDFs, last one first.

  A report costs the miner a reward and adds to its record, and every third report is a ban.
  The reversal of a report that made a ban leaves no ban behind, whatever there was before.
  **Balances, rewards and reported heights always come back** (`podfs_undone_iff`); the ban
  does if no third report was taken back or the miner was not banned before, and the vote
  power as far as new wallets started with the shares of the first state.
-/
import Timbre.Wallet.Undo
import Timbre.Wallet.RewardUndo

namespace Timbre
namespace WalletManager

open Call

variable {E : Env} {wm wm' wm₁ wm₂ s s' : WalletManager} {a c : Address} {tx : Transaction}
  {bRound : Int64} {x : Transaction × Int64} {xs : List (Transaction × Int64)}

/-! ## Records -/

theorem report_fst (h : Int64) (r : List Int64 × Int64) : (report h r).1 = r.1 ++ [h] := rfl

/-- The record of a miner after some reports. -/
def reportAll (r : List Int64 × Int64) (hs : List Int64) : List Int64 × Int64 :=
  hs.foldl (fun r h => report h r) r

theorem reportAll_cons (r : List Int64 × Int64) (h : Int64) (hs : List Int64) :
    reportAll r (h :: hs) = reportAll (report h r) hs := rfl

theorem reportAll_fst (r : List Int64 × Int64) (hs : List Int64) : (reportAll r hs).1 = r.1 ++ hs := by
  induction hs generalizing r with
  | nil => exact (List.append_nil _).symm
  | cons h hs ih => rw [reportAll_cons, ih, report_fst, List.append_assoc, List.singleton_append]

/-- A miner that is not banned by any of the reports is banned as before. -/
theorem reportAll_snd {r : List Int64 × Int64} {hs : List Int64}
    (h : (r.1.length + hs.length) / blockThresholdToBan = r.1.length / blockThresholdToBan) :
    (reportAll r hs).2 = r.2 := by
  induction hs generalizing r with
  | nil => rfl
  | cons x hs ih =>
    rw [List.length_cons] at h
    unfold blockThresholdToBan at h
    have hlen : (report x r).1.length = r.1.length + 1 := by simp [report_fst]
    rw [reportAll_cons, ih (by rw [hlen]; unfold blockThresholdToBan; omega)]
    have hno : ¬ (r.1 ++ [x]).length % blockThresholdToBan = 0 := by
      rw [List.length_append, List.length_singleton]
      unfold blockThresholdToBan
      omega
    exact if_neg hno

/-- A record with `n` reports taken back. -/
def unreportN (r : List Int64 × Int64) : ℕ → List Int64 × Int64
  | 0 => r
  | n + 1 => unreportN (unreport r) n

theorem length_unreportN (r : List Int64 × Int64) (n : ℕ) : (unreportN r n).1.length = r.1.length - n := by
  induction n generalizing r with
  | zero => rfl
  | succ n ih =>
    refine (ih (unreport r)).trans ?_
    rw [unreport, List.length_dropLast]
    omega

theorem unreportN_append (l hs : List Int64) (b : Int64) : unreportN (l ++ hs, b) hs.length =
    (l, if (l.length + hs.length) / blockThresholdToBan = l.length / blockThresholdToBan then b else -1) := by
  induction hs using List.reverseRecOn generalizing b with
  | nil => simp [unreportN]
  | append_singleton hs h ih =>
    have hstep : unreport (l ++ (hs ++ [h]), b) = (l ++ hs,
        if (l.length + (hs.length + 1)) % blockThresholdToBan = 0 then -1 else b) := by
      simp [unreport, ← List.append_assoc, Nat.add_assoc]
    rw [List.length_append, List.length_singleton, unreportN, hstep, ih]
    unfold blockThresholdToBan
    refine Prod.ext rfl ?_
    dsimp only
    split_ifs <;> first | rfl | omega

/-! ## One report -/

@[simp]
theorem counters_credit {d : Int64} : (wm.credit a E d).counters = wm.counters := by
  rw [credit, counters_reAssign]
  refine (counters_count (x := 0) ?_).trans (by simp)
  simp [counters]

@[simp]
theorem counters_debit {d : Int64} : (wm.debit a E d).counters = wm.counters := by
  rw [debit_eq_credit, counters_credit]

@[simp] theorem counters_put : (wm.put a).counters = wm.counters := rfl

theorem applyPodf_counters : Spec (applyPodf E tx (txFee E tx bRound) bRound) wm
    (fun _ wm' => wm'.counters =
      wm.counters + Pi.single (reportedMiner E tx) (-rewardForBlockCreation, 0, 0))
    fun _ _ => True := by
  simp only [applyPodf, spec_bind]
  refine (validatePodf_spec E bRound tx wm).mono ?_ fun _ _ _ => trivial
  rintro _ _ ⟨rfl, h, hvalid⟩
  simp only [hvalid.header, spec_bind, spec_getWallet, spec_modify, spec_subBalance, spec_checkAndPut,
    spec_addBalance]
  split_ifs
  rw [counters_credit, counters_put, counters_count (x := 0) (by simp [counters]), counters_debit,
    counters_count (x := (-rewardForBlockCreation, 0, 0)) (by simp [counters, sub_eq_add_neg]),
    Pi.single_zero, add_zero, counters_put]

theorem revertPodf_counters : Spec (revertPodf E tx (txFee E tx bRound)) wm
    (fun _ wm' => wm'.counters =
      wm.counters + Pi.single (reportedMiner E tx) (rewardForBlockCreation, 0, 0))
    fun _ _ => True := by
  simp only [revertPodf, spec_bind, spec_getWallet, spec_modify, spec_addBalance, spec_ite,
    spec_throw, spec_subBalance]
  split_ifs
  rw [counters_debit, counters_count (x := 0) (by simp [counters]),
    counters_count (x := 0) (by simp [counters]), counters_credit,
    counters_count (x := (rewardForBlockCreation, 0, 0)) (by simp [counters])]
  simp only [Pi.single_zero, add_zero]

/-- A report has been applied. -/
structure PodfApplied (E : Env) (x : Transaction × Int64) (wm wm' : WalletManager) : Prop extends
    Posted E x.1.touched (x.1.ownEffect E x.2) wm wm' where
  type : x.1.type = .podf
  valid : ∃ h, Reportable E x.2 x.1 wm h
  rest : wm'.rest = restAfter E x.1 wm.rest
  counters : wm'.counters =
    wm.counters + Pi.single (reportedMiner E x.1) (-rewardForBlockCreation, 0, 0)

/-- A report has been taken back. -/
structure PodfReverted (E : Env) (x : Transaction × Int64) (wm wm' : WalletManager) : Prop extends
    Shift E wm wm' (-x.1.ownEffect E x.2) where
  type : x.1.type = .podf
  rest : wm'.rest = restBefore E x.1 wm.rest
  counters : wm'.counters =
    wm.counters + Pi.single (reportedMiner E x.1) (rewardForBlockCreation, 0, 0)

theorem applyPodf_applied (htype : x.1.type = .podf) :
    Spec (applyPodf E x.1 (txFee E x.1 x.2) x.2) wm (fun _ wm' => PodfApplied E x wm wm')
      fun _ _ => True := by
  refine ((applyPodf_spec htype).and applyPodf_counters).mono ?_ fun _ _ _ => trivial
  rintro _ wm' ⟨⟨hvalid, hkeys, -, hrest, hshift⟩, hcounters⟩
  exact ⟨.of_shift (grow_put _ _) (hshift.keys.symm.trans hkeys) hshift, htype, hvalid, hrest, hcounters⟩

theorem revertPodf_reverted (htype : x.1.type = .podf) (h : Revertible E x.1 wm) :
    Spec (revertPodf E x.1 (txFee E x.1 x.2)) wm (fun _ wm' => PodfReverted E x wm wm')
      fun _ _ => False := by
  refine ((revertPodf_spec htype h).and revertPodf_counters).mono ?_ fun _ _ h => h.1
  rintro _ wm' ⟨⟨hshift, -, hrest⟩, hcounters⟩
  exact ⟨hshift, htype, hrest, hcounters⟩

/-! ## Sequences of reports -/

/-- PoDFs applied one after the other, each in its round. -/
def applyPodfs (E : Env) (podfs : List (Transaction × Int64)) : WM Unit :=
  Call.each (fun x => applyPodf E x.1 (txFee E x.1 x.2) x.2) podfs

/-- PoDFs reverted, the last one first. -/
def revertPodfs (E : Env) (podfs : List (Transaction × Int64)) : WM Unit :=
  Call.each (fun x => revertPodf E x.1 (txFee E x.1 x.2)) podfs.reverse

/-- The height of the block reported by a PoDF. -/
def reportedHeight (E : Env) (podf : Transaction) : Int64 :=
  ((reportedHeader E podf).map Header.height).getD 0

theorem Reportable.height_eq {h : Header} (hr : Reportable E bRound tx wm h) : reportedHeight E tx = h.height := by
  simp [reportedHeight, hr.header]

/-- The heights at which an address is reported. -/
def reports (E : Env) (a : Address) (podfs : List (Transaction × Int64)) : List Int64 :=
  (podfs.filter fun x => reportedMiner E x.1 = a).map fun x => reportedHeight E x.1

theorem reports_cons (a : Address) (x : Transaction × Int64) (xs : List (Transaction × Int64)) :
    reports E a (x :: xs) =
      if reportedMiner E x.1 = a then reportedHeight E x.1 :: reports E a xs else reports E a xs := by
  unfold reports
  rw [List.filter_cons]
  by_cases h : reportedMiner E x.1 = a
  · rw [if_pos (by simpa using h), if_pos h, List.map_cons]
  · rw [if_neg (by simpa using h), if_neg h]

theorem reports_reverse (a : Address) (xs : List (Transaction × Int64)) :
    reports E a xs.reverse = (reports E a xs).reverse := by
  simp [reports]

theorem Rest.modify_fst (r : Rest) (a b : Address) (g : List Int64 × Int64 → List Int64 × Int64) :
    (r.modify a g).1 b = if a = b then g (r.1 b) else r.1 b := by
  unfold Rest.modify
  by_cases h : a = b
  · subst h
    simp
  · simp [h, Ne.symm h]

theorem PodfApplied.record (h : PodfApplied E x wm wm') (a : Address) : wm'.rest.1 a =
    if reportedMiner E x.1 = a then report (reportedHeight E x.1) (wm.rest.1 a) else wm.rest.1 a := by
  obtain ⟨header, hvalid⟩ := h.valid
  have hrep : reportedMiner E x.1 = header.minerPublicKey := hvalid.miner_eq
  have hheight : reportedHeight E x.1 = header.height := hvalid.height_eq
  have hrest : wm'.rest = wm.rest.modify header.minerPublicKey (report header.height) := by
    rw [h.rest, restAfter, h.type, hvalid.header]
  rw [hrest, hrep, hheight, Rest.modify_fst]

theorem PodfReverted.record (h : PodfReverted E x wm wm') (a : Address) : wm'.rest.1 a =
    if reportedMiner E x.1 = a then unreport (wm.rest.1 a) else wm.rest.1 a := by
  rw [h.rest, restBefore, if_pos h.type, Rest.modify_fst]

/-- **The records after a sequence of reports.** -/
theorem podfsApplied_record (h : Steps (PodfApplied E) xs wm wm') (a : Address) :
    wm'.rest.1 a = reportAll (wm.rest.1 a) (reports E a xs) := by
  induction h with
  | nil => rfl
  | cons hx _ ih =>
    rw [ih, hx.record, reports_cons]
    split_ifs <;> rfl

theorem podfsReverted_record (h : Steps (PodfReverted E) xs wm wm') (a : Address) :
    wm'.rest.1 a = unreportN (wm.rest.1 a) (reports E a xs).length := by
  induction h with
  | nil => rfl
  | cons hx _ ih =>
    rw [ih, hx.record, reports_cons]
    split_ifs <;> rfl

theorem podfsReverted_shift (h : Steps (PodfReverted E) xs wm wm') :
    Shift E wm wm' (-(xs.map fun x => x.1.ownEffect E x.2).sum) := by
  induction h with
  | nil => simpa using Shift.refl E _
  | cons hx _ ih =>
    rw [List.map_cons, List.sum_cons, neg_add]
    exact hx.toShift.trans ih

/-- The reported heights are back once the reports that were added have been taken back. -/
theorem podfs_heights (h : Steps (PodfApplied E) xs wm wm₁) (h' : Steps (PodfReverted E) xs.reverse s s')
    (hs : ∀ a, (s.rest.1 a).1 = (wm₁.rest.1 a).1) (a : Address) : s'.rest.1 a = ((wm.rest.1 a).1,
      if ((wm.rest.1 a).1.length + (reports E a xs).length) / blockThresholdToBan =
        (wm.rest.1 a).1.length / blockThresholdToBan then (s.rest.1 a).2 else -1) := by
  have hlist : s.rest.1 a = ((wm.rest.1 a).1 ++ reports E a xs, (s.rest.1 a).2) := by
    refine Prod.ext ?_ rfl
    rw [hs, podfsApplied_record h, reportAll_fst]
  rw [podfsReverted_record h', reports_reverse, List.length_reverse, hlist, unreportN_append]

/-- A report that was applied last can be taken back. -/
theorem PodfApplied.revertible (h : PodfApplied E x wm wm') (hkeys : wm'.keys ⊆ s.keys)
    (hs : ∀ a, (s.rest.1 a).1 = (wm'.rest.1 a).1) : Revertible E x.1 s := by
  obtain ⟨header, hvalid⟩ := h.valid
  have hrep : reportedMiner E x.1 = header.minerPublicKey := hvalid.miner_eq
  refine ⟨?_, by simp [h.type], by simp [h.type], fun _ => ⟨?_, fun hnil => ?_⟩⟩
  · refine hkeys (h.keys ▸ Finset.mem_union_right _ ?_)
    simp [Transaction.touched, h.type]
  · exact hkeys (h.keys ▸ Finset.mem_union_left _ (hrep ▸ hvalid.wallet))
  · have hheights : (s.rest.1 (reportedMiner E x.1)).1 = _ := hs (reportedMiner E x.1)
    rw [h.record, if_pos rfl, report_fst] at hheights
    exact List.append_ne_nil_of_right_ne_nil _ (by simp) (hheights.symm.trans hnil)

/-- **Reports are taken back in reverse order without an error.** -/
theorem revertPodfs_spec (h : Steps (PodfApplied E) xs wm wm₁) (hkeys : s.keys = wm₁.keys)
    (hs : ∀ a, (s.rest.1 a).1 = (wm₁.rest.1 a).1) :
    Spec (revertPodfs E xs) s (fun _ s' => Steps (PodfReverted E) xs.reverse s s') fun _ _ => False := by
  induction h generalizing s with
  | nil => exact .nil _
  | @cons x xs wm w wm₁ hx h ih =>
    have hposted : AllPosted E (fun x => x.1.touched) (fun x => x.1.ownEffect E x.2) xs w wm₁ :=
      h.mono fun _ _ _ _ hy => hy.toPosted
    rw [revertPodfs, List.reverse_cons, spec_each_append]
    refine (ih hkeys hs).mono (fun _ s₁ h₁ => ?_) fun _ _ h => h
    have hkeys₁ : s₁.keys = wm₁.keys := (podfsReverted_shift h₁).keys.trans hkeys
    have hsub : w.keys ⊆ s₁.keys := by
      rw [hkeys₁, hposted.keys]
      exact Finset.subset_union_left
    have hheights : ∀ a, (s₁.rest.1 a).1 = (w.rest.1 a).1 := fun a => by
      rw [podfs_heights h h₁ hs a]
    rw [spec_each_cons]
    refine (revertPodf_reverted hx.type (hx.revertible hsub hheights)).mono (fun _ s₂ h₂ => ?_)
      fun _ _ h => h
    exact h₁.append (.single h₂)

/-! ## The state after the reversal -/

theorem podfsApplied_counters (h : Steps (PodfApplied E) xs wm wm') : wm'.counters = wm.counters +
    (xs.map fun x => Pi.single (reportedMiner E x.1) (-rewardForBlockCreation, 0, 0)).sum := by
  induction h with
  | nil => exact (add_zero _).symm
  | cons hx _ ih => rw [ih, hx.counters, List.map_cons, List.sum_cons, add_assoc]

theorem podfsReverted_counters (h : Steps (PodfReverted E) xs wm wm') : wm'.counters = wm.counters -
    (xs.map fun x => Pi.single (reportedMiner E x.1) (-rewardForBlockCreation, 0, 0)).sum := by
  induction h with
  | nil => exact (sub_zero _).symm
  | @cons x xs s s₁ s' hx _ ih =>
    have hneg : (Pi.single (reportedMiner E x.1) (-rewardForBlockCreation, 0, 0) : Address → Counts) =
        -Pi.single (reportedMiner E x.1) (rewardForBlockCreation, 0, 0) := by
      rw [← Pi.single_neg]
      rfl
    rw [ih, hx.counters, List.map_cons, List.sum_cons, hneg]
    abel

/-- The wallets are what they were before some reports. -/
structure PodfsUndone (wm wm' : WalletManager) : Prop where
  balance : ∀ a, (wm'.wallet a).balance = (wm.wallet a).balance
  blockReward : ∀ a, (wm'.wallet a).blockReward = (wm.wallet a).blockReward
  nonce : ∀ a, (wm'.wallet a).nonce = (wm.wallet a).nonce
  votePower : ∀ a, (wm'.wallet a).votePower = (wm.wallet a).votePower
  podfHeights : ∀ a, (wm'.wallet a).podfHeights = (wm.wallet a).podfHeights
  bannedTill : ∀ a, (wm'.wallet a).bannedTill = (wm.wallet a).bannedTill

/-- No third report of an address is among those to be taken back. -/
def NoThird (E : Env) (wm : WalletManager) (xs : List (Transaction × Int64)) (a : Address) : Prop :=
  ((wm.wallet a).podfHeights.length + (reports E a xs).length) / blockThresholdToBan =
    (wm.wallet a).podfHeights.length / blockThresholdToBan

/-- The wallets stand some reports and their reversal. -/
structure PodfsUndoable (E : Env) (wm : WalletManager) (xs : List (Transaction × Int64)) : Prop where
  ban : ∀ a, NoThird E wm xs a ∨ (wm.wallet a).bannedTill = -1
  start : StartsAlike E wm (fun x => x.1.touched) (fun x => x.1.ownEffect E x.2) xs

instance : Decidable (NoThird E wm xs a) := inferInstanceAs (Decidable (_ = _))

/-- A ban that is lost where `p` fails is kept exactly if `p` holds or there was none. -/
theorem ban_kept_iff {p : Prop} [Decidable p] {b b' : Int64} (h : b' = if p then b else -1) :
    b' = b ↔ p ∨ b = -1 := by
  rw [h]
  by_cases hp : p
  · rw [if_pos hp]
    exact ⟨fun _ => .inl hp, fun _ => rfl⟩
  · rw [if_neg hp, or_iff_right hp, eq_comm]

theorem bannedTill_iff (h : Steps (PodfApplied E) xs wm wm₁)
    (h' : Steps (PodfReverted E) xs.reverse wm₁ wm₂) (a : Address) :
    (wm₂.wallet a).bannedTill = (wm.wallet a).bannedTill ↔
      NoThird E wm xs a ∨ (wm.wallet a).bannedTill = -1 := by
  have hrecord := congrArg Prod.snd (podfs_heights h h' (fun _ => rfl) a)
  have hban : (wm₂.wallet a).bannedTill =
      if NoThird E wm xs a then (wm₁.wallet a).bannedTill else -1 := hrecord
  refine ban_kept_iff (hban.trans ?_)
  split_ifs with hno
  · have hkept : (wm₁.rest.1 a).2 = (wm.rest.1 a).2 := by
      rw [podfsApplied_record h]
      exact reportAll_snd hno
    exact hkept
  · rfl

/-- **PoDFs that are reverted in reverse order** leave the wallets as they were exactly if no
    ban is lost and every new wallet starts with the shares that its address had at first. -/
theorem podfs_undone_iff (E : Env) (wm wm₁ wm₂ : WalletManager) (xs : List (Transaction × Int64))
    (result : Except Err Unit) (htypes : ∀ x ∈ xs, x.1.type = .podf)
    (happly : applyPodfs E xs wm = (.ok (), wm₁)) (hrevert : revertPodfs E xs wm₁ = (result, wm₂)) :
    result = .ok () ∧ PodfsUndone wm wm₂ ↔ PodfsUndoable E wm xs := by
  have hstep : ∀ x ∈ xs, ∀ s, True → Spec (applyPodf E x.1 (txFee E x.1 x.2) x.2) s
      (fun _ s' => True ∧ PodfApplied E x s s') fun _ _ => True :=
    fun x hx s _ => (applyPodf_applied (htypes x hx)).mono (fun _ _ h => ⟨trivial, h⟩) fun _ _ h => h
  have hspec : Spec (applyPodfs E xs) wm _ _ := each_spec hstep trivial
  have h := (hspec.ok happly).2
  have hspec' := revertPodfs_spec h rfl fun _ => rfl
  obtain ⟨u, s, hok⟩ := hspec'.returns
  obtain ⟨rfl, rfl⟩ := Prod.mk.inj (hok.symm.trans hrevert)
  have h' := hspec'.ok hok
  have hshift := podfsReverted_shift h'
  rw [List.map_reverse, List.sum_reverse] at hshift
  have hposted : AllPosted E (fun x => x.1.touched) (fun x => x.1.ownEffect E x.2) xs wm wm₁ :=
    h.mono fun _ _ _ _ hy => hy.toPosted
  have hpower := votePower_restored_iff hposted hshift
  have hbook : s.book = wm.book := by
    rw [hshift.book, hposted.book]
    abel
  have hcounters : s.counters = wm.counters := by
    rw [podfsReverted_counters h', podfsApplied_counters h, List.map_reverse, List.sum_reverse,
      add_sub_cancel_right]
  constructor
  · rintro ⟨-, hundone⟩
    exact ⟨fun a => (bannedTill_iff h h' a).1 (hundone.bannedTill a), hpower.1 hundone.votePower⟩
  · intro hable
    refine ⟨rfl, fun a => ?_, fun a => ?_, fun a => ?_, hpower.2 hable.start, fun a => ?_,
      fun a => (bannedTill_iff h h' a).2 (hable.ban a)⟩
    · exact congrArg Account.balance (congrFun hbook a)
    · exact congrArg Prod.fst (congrFun hcounters a)
    · exact congrArg Account.nonce (congrFun hbook a)
    · exact congrArg Prod.fst (podfs_heights h h' (fun _ => rfl) a)

/-! ## A second ban -/

/-- The functions on a network whose reports name the miner `"m"` and a digit, the height
    being a hundred times the digit. -/
def reportingEnv : Env :=
  { Env.simple with
    podfPayload := fun payload =>
      let height := Int64.ofNat (100 * ((payload.toList.headD '0').toNat - 48))
      .ok (some (.simple height "x" "m"), some (.simple height "y" "m")) }

/-- A report of `"m"`, made by `"r"`. -/
def reportTx (digit : String) : Transaction × Int64 := (.simple .podf "r" 1 0 "" digit, 2)

/-- The wallets after five reports of `"m"`, the third of which was a ban. -/
def reportedNode : WalletManager :=
  (applyPodfs reportingEnv [reportTx "1", reportTx "2", reportTx "3", reportTx "5", reportTx "6"]
    candidateNode).2

/-- The wallets after one more report, which is a ban again. -/
def bannedNode : WalletManager := (applyPodfs reportingEnv [reportTx "7"] reportedNode).2

/-- The wallets after the last report has been taken back. -/
def unbannedNode : WalletManager := (revertPodfs reportingEnv [reportTx "7"] bannedNode).2

theorem podfs_undone_iff_last : .ok () = (.ok () : Except Err Unit) ∧
    PodfsUndone reportedNode unbannedNode ↔ PodfsUndoable reportingEnv reportedNode [reportTx "7"] :=
  podfs_undone_iff reportingEnv reportedNode bannedNode _ [reportTx "7"] (.ok ())
    (by simp [reportTx, Transaction.simple]) (Prod.ext (by decide) rfl)
    (Prod.ext (by decide) rfl)

/-- The ban that `"m"` was under is lost. -/
theorem not_podfs_undone : ¬ ∀ (E : Env) (wm wm₁ wm₂ : WalletManager)
    (xs : List (Transaction × Int64)) (result : Except Err Unit), (∀ x ∈ xs, x.1.type = .podf) →
    applyPodfs E xs wm = (.ok (), wm₁) → revertPodfs E xs wm₁ = (result, wm₂) →
    PodfsUndone wm wm₂ := by
  intro h
  have hundone := h reportingEnv reportedNode bannedNode unbannedNode [reportTx "7"] (.ok ())
    (by simp [reportTx, Transaction.simple]) (Prod.ext (by decide) rfl)
    (Prod.ext (by decide) rfl)
  have hban := hundone.bannedTill "m"
  revert hban
  decide

end WalletManager
end Timbre
