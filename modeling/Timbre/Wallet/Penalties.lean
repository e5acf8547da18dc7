/-
  PoDFs for one height.

  `ValidatePodf` looks for an earlier report of the same height from the end of the record,
  and stops at an entry that is more than 21 lower.  The record is in the order of the
  reports, not of the heights, so an earlier report may stand behind such an entry.
  **Every height is reported once exactly if no accepted report overlooks an entry**
  (`reported_once_iff`).
-/
import Mathlib.Data.List.ReduceOption
import Timbre.Wallet.PodfUndo

namespace Timbre
namespace WalletManager

open Call

variable {E : Env} {wm wm' : WalletManager} {m : Address} {h y : Int64} {l : List Int64}
  {x : Transaction × Int64} {xs : List (Option (Transaction × Int64))}

/-! ## The scan -/

/-- The record has an entry for the height, behind one that is more than 21 lower. -/
def Overlooked (l : List Int64) (h : Int64) : Prop :=
  ∃ older y newer, l = older ++ y :: newer ∧ h ∈ older ∧ h ∉ y :: newer ∧ y < h - 21

theorem overlooked_concat : Overlooked (l ++ [y]) h ↔
    y ≠ h ∧ (h ∈ l ∧ y < h - 21 ∨ Overlooked l h) := by
  constructor
  · rintro ⟨older, z, newer, heq, holder, hnewer, hlow⟩
    rcases List.eq_nil_or_concat newer with rfl | ⟨newer', w, rfl⟩
    · obtain ⟨rfl, hz⟩ := List.append_inj' heq rfl
      obtain rfl := List.singleton_inj.1 hz
      refine ⟨fun hy => hnewer (by simp [hy]), .inl ⟨holder, hlow⟩⟩
    · have heq' : l ++ [y] = (older ++ z :: newer') ++ [w] := by simpa using heq
      obtain ⟨rfl, hw⟩ := List.append_inj' heq' rfl
      obtain rfl := List.singleton_inj.1 hw
      refine ⟨fun hy => hnewer (by simp [hy]), .inr ⟨older, z, newer', rfl, holder, ?_, hlow⟩⟩
      simp only [List.concat_eq_append, List.mem_cons, List.mem_append, not_or] at hnewer ⊢
      exact ⟨hnewer.1, hnewer.2.1⟩
  · rintro ⟨hne, ⟨hmem, hlow⟩ | ⟨older, z, newer, rfl, holder, hnewer, hlow⟩⟩
    · exact ⟨l, y, [], rfl, hmem, by simpa using Ne.symm hne, hlow⟩
    · refine ⟨older, z, newer ++ [y], by simp, holder, ?_, hlow⟩
      simp only [List.mem_cons, List.mem_append, List.not_mem_nil, or_false] at hnewer ⊢
      grind

/-- **A height that the scan does not find** is not in the record, or is overlooked. -/
theorem reportedAt_eq_false_iff (l : List Int64) (h : Int64) :
    reportedAt h l.reverse = false ↔ h ∉ l ∨ Overlooked l h := by
  induction l using List.reverseRecOn with
  | nil => simp [reportedAt]
  | append_singleton l y ih =>
    rw [List.reverse_append, List.reverse_singleton, List.singleton_append, reportedAt,
      overlooked_concat]
    by_cases hy : y = h
    · simp [hy]
    · rw [if_neg hy]
      by_cases hlow : y < h - 21
      · simp [hy, hlow, Ne.symm hy]
        grind
      · simp [hy, hlow, Ne.symm hy, ih]

/-! ## Runs -/

/-- What happens to the records: a report is accepted, or something that reports nobody. -/
inductive RecordStep (E : Env) : Option (Transaction × Int64) → WalletManager → WalletManager → Prop
  | podf {x : Transaction × Int64} {wm wm' : WalletManager} : x.1.type = .podf →
      applyPodf E x.1 (txFee E x.1 x.2) x.2 wm = (.ok (), wm') → RecordStep E (some x) wm wm'
  | other {wm wm' : WalletManager} : (∀ a, (wm'.wallet a).podfHeights = (wm.wallet a).podfHeights) →
      RecordStep E none wm wm'

/-- The heights for which an address has been penalised: those of its record, and those that
    are reported in a run. -/
def penalties (E : Env) (wm : WalletManager) (m : Address)
    (xs : List (Option (Transaction × Int64))) : List Int64 :=
  (wm.wallet m).podfHeights ++ reports E m xs.reduceOption

/-- An accepted report is new to the scan, and is recorded. -/
theorem accepted_podf (htype : x.1.type = .podf)
    (hrun : applyPodf E x.1 (txFee E x.1 x.2) x.2 wm = (.ok (), wm')) :
    reportedAt (reportedHeight E x.1) (wm.wallet (reportedMiner E x.1)).podfHeights.reverse = false ∧
      ∀ a, (wm'.wallet a).podfHeights = if reportedMiner E x.1 = a then
        (wm.wallet a).podfHeights ++ [reportedHeight E x.1] else (wm.wallet a).podfHeights := by
  have happlied := (applyPodf_applied htype).ok hrun
  constructor
  · obtain ⟨header, hvalid⟩ := happlied.valid
    have hrep : reportedMiner E x.1 = header.minerPublicKey := hvalid.miner_eq
    have hheight : reportedHeight E x.1 = header.height := hvalid.height_eq
    rw [hrep, hheight]
    exact hvalid.notReported
  · intro a
    have hrecord := congrArg Prod.fst (happlied.record a)
    rw [apply_ite Prod.fst, report_fst] at hrecord
    exact hrecord

/-- What is recorded of a step has been penalised. -/
theorem penalties_step {x : Option (Transaction × Int64)} (hstep : RecordStep E x wm wm')
    (m : Address) : penalties E wm m (x :: xs) = penalties E wm' m xs := by
  cases hstep with
  | podf htype hrun =>
    rename_i x
    have hheights := (accepted_podf htype hrun).2 m
    rw [penalties, penalties, hheights, xs.reduceOption_cons_of_some, reports_cons]
    split_ifs <;> simp
  | other hsame => rw [penalties, penalties, hsame m, List.reduceOption_cons_of_none]

theorem forall_cut_cons {α : Type} {y : α} {ys : List α} {P : List α → α → Prop} :
    (∀ pre x post, y :: ys = pre ++ x :: post → P pre x) ↔
      P [] y ∧ ∀ pre x post, ys = pre ++ x :: post → P (y :: pre) x := by
  constructor
  · intro h
    exact ⟨h [] y ys rfl, fun pre x post hys => h (y :: pre) x post (by rw [hys, List.cons_append])⟩
  · rintro ⟨hy, hys⟩ (_ | ⟨z, pre⟩) x post heq
    · obtain ⟨rfl, rfl⟩ := List.cons.inj heq
      exact hy
    · obtain ⟨rfl, hrest⟩ := List.cons.inj heq
      exact hys pre x post hrest

/-- The report overlooks an entry, the wallets being `wm` before the run and `pre` the part of
    the run before the report. -/
def OverlooksAfter (E : Env) (wm : WalletManager) (pre : List (Option (Transaction × Int64))) :
    Option (Transaction × Int64) → Prop
  | some x => Overlooked (penalties E wm (reportedMiner E x.1) pre) (reportedHeight E x.1)
  | none => False

/-- An accepted report keeps the heights of the records apart exactly if it overlooks none. -/
theorem nodup_accepted_iff {y : Option (Transaction × Int64)} (hstep : RecordStep E y wm wm')
    (hstart : ∀ m, (wm.wallet m).podfHeights.Nodup) :
    (∀ m, (wm'.wallet m).podfHeights.Nodup) ↔ ¬ OverlooksAfter E wm [] y := by
  cases hstep with
  | other hsame => simpa [OverlooksAfter, hsame] using hstart
  | @podf x _ _ htype hrun =>
    obtain ⟨hscan, hheights⟩ := accepted_podf htype hrun
    have hpen : penalties E wm (reportedMiner E x.1) [] =
        (wm.wallet (reportedMiner E x.1)).podfHeights := List.append_nil _
    have hnew : ¬ OverlooksAfter E wm [] (some x) ↔
        reportedHeight E x.1 ∉ (wm.wallet (reportedMiner E x.1)).podfHeights := by
      rw [OverlooksAfter, hpen]
      constructor
      · exact ((reportedAt_eq_false_iff _ _).1 hscan).resolve_right
      · rintro hnot ⟨older, z, newer, heq, holder, -, -⟩
        exact hnot (heq ▸ List.mem_append_left _ holder)
    rw [hnew]
    constructor
    · intro hnodup
      have hm := hnodup (reportedMiner E x.1)
      rw [hheights, if_pos rfl, ← List.concat_eq_append, List.nodup_concat] at hm
      exact hm.1
    · intro hnot m
      rw [hheights]
      split_ifs with hm
      · subst hm
        rw [← List.concat_eq_append, List.nodup_concat]
        exact ⟨hnot, hstart _⟩
      · exact hstart m

/-- **Every height is reported once** in a run, exactly if no accepted report is for a height
    that the scan overlooks. -/
theorem reported_once_iff (E : Env) (xs : List (Option (Transaction × Int64)))
    (wm wm' : WalletManager) (hstart : ∀ m, (wm.wallet m).podfHeights.Nodup)
    (hrun : Steps (RecordStep E) xs wm wm') :
    (∀ m, (penalties E wm m xs).Nodup) ↔
      ∀ pre x post, xs = pre ++ x :: post → ¬ OverlooksAfter E wm pre x := by
  induction hrun with
  | nil s =>
    have hpen : ∀ m, penalties E s m [] = (s.wallet m).podfHeights := fun m => List.append_nil _
    simpa [hpen] using hstart
  | @cons x xs wm s wm' hstep hrun ih =>
    have hafter : ∀ pre y, OverlooksAfter E wm (x :: pre) y ↔ OverlooksAfter E s pre y := by
      rintro pre (_ | y)
      · exact Iff.rfl
      · simp only [OverlooksAfter, penalties_step hstep]
    simp only [penalties_step hstep, forall_cut_cons, hafter]
    rw [← nodup_accepted_iff hstep hstart]
    constructor
    · intro h
      have hs : ∀ m, (s.wallet m).podfHeights.Nodup := fun m => (List.nodup_append.1 (h m)).1
      exact ⟨hs, (ih hs).1 h⟩
    · rintro ⟨hs, hrest⟩
      exact (ih hs).2 hrest

/-! ## A height that is reported twice -/

/-- One report of `"m"`. -/
def report1 (digit : String) : WM Unit :=
  applyPodf reportingEnv (reportTx digit).1 (txFee reportingEnv (reportTx digit).1 (reportTx digit).2)
    (reportTx digit).2

theorem recordStep_report1 {digit : String} (h : (report1 digit wm).1 = .ok ()) :
    RecordStep reportingEnv (some (reportTx digit)) wm (report1 digit wm).2 :=
  .podf rfl (Prod.ext h rfl)

/-- The wallets after `"m"` has been reported at the heights 500, 100 and 500. -/
def reported₁ : WalletManager := (report1 "5" candidateNode).2
def reported₂ : WalletManager := (report1 "1" reported₁).2
def reported₃ : WalletManager := (report1 "5" reported₂).2

/-- The reports of this run. -/
def reportRun : List (Option (Transaction × Int64)) :=
  [some (reportTx "5"), some (reportTx "1"), some (reportTx "5")]

theorem steps_reportRun : Steps (RecordStep reportingEnv) reportRun candidateNode reported₃ :=
  .cons (recordStep_report1 (by decide)) <| .cons (recordStep_report1 (by decide)) <|
    .cons (recordStep_report1 (by decide)) (.nil _)

/-- Nobody has been reported before. -/
theorem candidateNode_unreported (m : Address) : (candidateNode.wallet m).podfHeights = [] := by
  by_cases h : m ∈ candidateNode.keys
  · have hm : m = "m" := by
      have hkeys : candidateNode.keys = {"m"} := by decide
      rwa [hkeys, Finset.mem_singleton] at h
    subst hm
    decide
  · rw [wallet_absent h]
    rfl

theorem reported_once_iff_reportRun : (∀ m, (penalties reportingEnv candidateNode m reportRun).Nodup) ↔
    ∀ pre x post, reportRun = pre ++ x :: post → ¬ OverlooksAfter reportingEnv candidateNode pre x :=
  reported_once_iff reportingEnv reportRun candidateNode reported₃
    (fun m => by rw [candidateNode_unreported]; exact List.nodup_nil) steps_reportRun

/-- `"m"` is penalised twice for the height 500. -/
theorem not_reported_once : ¬ ∀ (E : Env) (xs : List (Option (Transaction × Int64)))
    (wm wm' : WalletManager), (∀ m, (wm.wallet m).podfHeights.Nodup) →
    Steps (RecordStep E) xs wm wm' → ∀ m, (penalties E wm m xs).Nodup := by
  intro h
  have hnodup := h reportingEnv reportRun candidateNode reported₃
    (fun m => by rw [candidateNode_unreported]; exact List.nodup_nil) steps_reportRun "m"
  revert hnodup
  decide

end WalletManager
end Timbre
