/-
  The active deals after a block, and after the block has been taken back.

  On the way forward a proven deal leaves the active ones if it has expired by the time of the
  block; on the way back every proven deal that is stored comes in again.  **The active deals
  come back exactly if the block proves those of its own deals that were active before, and of
  the stored ones proves no other than active ones** (`activedeals_undone_iff`).
-/
import Timbre.Roles.Node

namespace Timbre
namespace NodeState

open Call

variable {σ : Type} {B : Bodies} {b : Block} {n : NodeState σ} {deals : List DealEntry} {chPrP : List Hash}
  {h : Hash} {blocktimestamp : ℤ}

/-- What `UpdateStates` does to the deals. -/
def doDeals (B : Bodies) (b : Block) (n : NodeState σ) : NodeState σ :=
  (n.addDeals (B.deals b) true).removeExpiredDeals (B.timestamp b) (B.chPrPair b)

/-- What `RevertState` does to the deals. -/
def undoDeals (B : Bodies) (b : Block) (n : NodeState σ) : NodeState σ :=
  (n.removeDeals (B.deals b)).addExpiredDealsWhileReverting (B.chPrPair b)

/-- The deal is in the database. -/
def StoresDeal (n : NodeState σ) (h : Hash) : Prop := (n.dealBucket h).isSome

/-- The deal is stored and has expired by the time of the block. -/
def ExpiredBy (n : NodeState σ) (blocktimestamp : ℤ) (h : Hash) : Prop :=
  ∃ deal, n.dealBucket h = some deal ∧ deal.expiryTime < blocktimestamp / 1000000000

/-! ## The four calls, deal by deal -/

theorem storesDeal_addDeals {addToCache : Bool} :
    (n.addDeals deals addToCache).StoresDeal h ↔ n.StoresDeal h ∨ ∃ deal ∈ deals, deal.hash = h := by
  induction deals generalizing n with
  | nil => simp [addDeals]
  | cons deal deals ih =>
    have hfirst : (n.addDeals [deal] addToCache).StoresDeal h ↔ n.StoresDeal h ∨ deal.hash = h := by
      simp only [StoresDeal, addDeals, List.foldl_cons, List.foldl_nil]
      split_ifs with hstored
      · constructor
        · exact .inl
        · rintro (hh | rfl)
          · exact hh
          · exact hstored
      · by_cases hh : h = deal.hash
        · simp [hh]
        · simp [Function.update_of_ne hh, Ne.symm hh]
    change ((n.addDeals [deal] addToCache).addDeals deals addToCache).StoresDeal h ↔ _
    rw [ih, hfirst, or_assoc, List.exists_mem_cons_iff]

theorem mem_addDeals :
    h ∈ (n.addDeals deals true).activedeals ↔ h ∈ n.activedeals ∨ ∃ deal ∈ deals, deal.hash = h := by
  induction deals generalizing n with
  | nil => simp [addDeals]
  | cons deal deals ih =>
    have hfirst : h ∈ (n.addDeals [deal] true).activedeals ↔ h ∈ n.activedeals ∨ deal.hash = h := by
      simp only [addDeals, List.foldl_cons, List.foldl_nil, if_true, Finset.mem_insert]
      rw [or_comm, eq_comm]
    change h ∈ ((n.addDeals [deal] true).addDeals deals true).activedeals ↔ _
    rw [ih, hfirst, or_assoc, List.exists_mem_cons_iff]

theorem mem_removeDeals :
    h ∈ (n.removeDeals deals).activedeals ↔ h ∈ n.activedeals ∧ ¬ ∃ deal ∈ deals, deal.hash = h := by
  induction deals generalizing n with
  | nil => simp [removeDeals]
  | cons deal deals ih =>
    have hfirst : h ∈ (n.removeDeals [deal]).activedeals ↔ h ∈ n.activedeals ∧ deal.hash ≠ h := by
      simp only [removeDeals, List.foldl_cons, List.foldl_nil, Finset.mem_erase]
      rw [and_comm, ne_comm]
    change h ∈ ((n.removeDeals [deal]).removeDeals deals).activedeals ↔ _
    rw [ih, hfirst, and_assoc, List.exists_mem_cons_iff, not_or]

theorem mem_removeExpiredDeals :
    h ∈ (n.removeExpiredDeals blocktimestamp chPrP).activedeals ↔
      h ∈ n.activedeals ∧ ¬ (h ∈ chPrP ∧ n.ExpiredBy blocktimestamp h) := by
  induction chPrP generalizing n with
  | nil => simp [removeExpiredDeals]
  | cons dealHash chPrP ih =>
    have hfirst : h ∈ (n.removeExpiredDeals blocktimestamp [dealHash]).activedeals ↔
        h ∈ n.activedeals ∧ ¬ (h = dealHash ∧ n.ExpiredBy blocktimestamp h) := by
      have hexpired : ∀ deal, n.dealBucket dealHash = some deal →
          (n.ExpiredBy blocktimestamp dealHash ↔ blocktimestamp / 1000000000 > deal.expiryTime) :=
        fun deal hdeal => by simp [ExpiredBy, hdeal]
      simp only [removeExpiredDeals, List.foldl_cons, List.foldl_nil]
      split
      · rename_i hnone
        refine (and_iff_left ?_).symm
        rintro ⟨rfl, deal, hdeal, -⟩
        exact absurd (hnone.symm.trans hdeal) (by simp)
      · rename_i deal hdeal
        split_ifs with hlt
        · rw [Finset.mem_erase, and_comm]
          refine and_congr_right fun _ => not_congr (and_iff_left_of_imp ?_).symm
          rintro rfl
          exact (hexpired deal hdeal).2 hlt
        · refine (and_iff_left ?_).symm
          rintro ⟨rfl, h'⟩
          exact hlt ((hexpired deal hdeal).1 h')
    have hnext := @ih (n.removeExpiredDeals blocktimestamp [dealHash])
    change h ∈ ((n.removeExpiredDeals blocktimestamp [dealHash]).removeExpiredDeals blocktimestamp chPrP).activedeals ↔ _
    rw [hnext, hfirst, and_assoc, List.mem_cons, or_and_right, not_or]
    rfl

theorem mem_addExpiredDealsWhileReverting :
    h ∈ (n.addExpiredDealsWhileReverting chPrP).activedeals ↔
      h ∈ n.activedeals ∨ h ∈ chPrP ∧ n.StoresDeal h := by
  induction chPrP generalizing n with
  | nil => simp [addExpiredDealsWhileReverting]
  | cons dealHash chPrP ih =>
    have hfirst : h ∈ (n.addExpiredDealsWhileReverting [dealHash]).activedeals ↔
        h ∈ n.activedeals ∨ h = dealHash ∧ n.StoresDeal h := by
      simp only [addExpiredDealsWhileReverting, List.foldl_cons, List.foldl_nil]
      split_ifs with hstored
      · rw [Finset.mem_insert, or_comm]
        refine or_congr_right (and_iff_left_of_imp ?_).symm
        rintro rfl
        exact hstored
      · refine (or_iff_left ?_).symm
        rintro ⟨rfl, h'⟩
        exact hstored h'
    change h ∈ ((n.addExpiredDealsWhileReverting [dealHash]).addExpiredDealsWhileReverting chPrP).activedeals ↔ _
    rw [@ih (n.addExpiredDealsWhileReverting [dealHash]), hfirst, or_assoc, List.mem_cons, or_and_right]
    rfl

/-! ## Forward and back -/

theorem deals_updateStates (C : Components σ) (B : Bodies) (b : Block) (n : NodeState σ) :
    (updateStates C B b n).activedeals = (doDeals B b n).activedeals ∧
      (updateStates C B b n).dealBucket = (doDeals B b n).dealBucket := ⟨rfl, rfl⟩

theorem activedeals_undoDeals {n' : NodeState σ} (hactive : n'.activedeals = n.activedeals)
    (hbucket : n'.dealBucket = n.dealBucket) : (undoDeals B b n').activedeals = (undoDeals B b n).activedeals := by
  ext h
  simp only [undoDeals, mem_addExpiredDealsWhileReverting, StoresDeal, removeDeals, hactive, hbucket]

theorem deals_onState {c : Call σ Err Unit} {n' : NodeState σ} (h : onState c n = (.ok (), n')) :
    n'.activedeals = n.activedeals ∧ n'.dealBucket = n.dealBucket := by
  obtain rfl : (onState c n).2 = n' := congrArg Prod.snd h
  exact ⟨rfl, rfl⟩

/-- A reversal that returns has done so to the deals. -/
theorem activedeals_revertState {C : Components σ} {n' : NodeState σ}
    (h : revertState C B b n = (.ok (), n')) : n'.activedeals = (undoDeals B b n).activedeals := by
  unfold revertState at h
  obtain ⟨_, n₁, h₁, h⟩ := bind_ok h
  obtain ⟨hactive₁, hbucket₁⟩ := deals_onState h₁
  rw [get_bind] at h
  rcases hparent : n₁.bc.getBlockByHash b.parentHash with e | parent
  · rw [hparent] at h
    cases h
  · rw [hparent] at h
    obtain ⟨_, n₂, h₂, h⟩ := bind_ok h
    obtain ⟨hactive₂, hbucket₂⟩ := deals_onState h₂
    cases h
    exact activedeals_undoDeals (hactive₂.trans hactive₁) (hbucket₂.trans hbucket₁)

/-- **Whether a deal is active after the block has been taken back** does not depend on expiry. -/
theorem mem_undoDeals : h ∈ (undoDeals B b (doDeals B b n)).activedeals ↔
    (h ∈ n.activedeals ∧ ¬ ∃ deal ∈ B.deals b, deal.hash = h) ∨
      h ∈ B.chPrPair b ∧ (n.StoresDeal h ∨ ∃ deal ∈ B.deals b, deal.hash = h) := by
  have hstores : ((doDeals B b n).removeDeals (B.deals b)).StoresDeal h ↔
      n.StoresDeal h ∨ ∃ deal ∈ B.deals b, deal.hash = h := storesDeal_addDeals
  have hexpired : (n.addDeals (B.deals b) true).ExpiredBy (B.timestamp b) h →
      n.StoresDeal h ∨ ∃ deal ∈ B.deals b, deal.hash = h := by
    rintro ⟨deal, hdeal, -⟩
    refine storesDeal_addDeals.1 (?_ : (n.addDeals (B.deals b) true).StoresDeal h)
    rw [StoresDeal, hdeal]
    rfl
  rw [undoDeals, mem_addExpiredDealsWhileReverting, hstores, mem_removeDeals, doDeals, mem_removeExpiredDeals,
    mem_addDeals]
  by_cases hproven : h ∈ B.chPrPair b ∧ (n.StoresDeal h ∨ ∃ deal ∈ B.deals b, deal.hash = h)
  · exact iff_of_true (.inr hproven) (.inr hproven)
  · -- a deal that is not put back has not expired
    have hkept : ¬ (h ∈ B.chPrPair b ∧ (n.addDeals (B.deals b) true).ExpiredBy (B.timestamp b) h) :=
      fun ⟨hmem, hexp⟩ => hproven ⟨hmem, hexpired hexp⟩
    rw [or_iff_left hproven, or_iff_left hproven, and_iff_left hkept]
    constructor
    · rintro ⟨hactive | hdeal, hnot⟩
      · exact ⟨hactive, hnot⟩
      · exact absurd hdeal hnot
    · rintro ⟨hactive, hnot⟩
      exact ⟨.inl hactive, hnot⟩

/-- **The active deals come back exactly if** the block proves its deals that were active before, and
    proves no inactive one that is stored by then. -/
theorem activedeals_undone_iff (B : Bodies) (b : Block) (n : NodeState σ) :
    (undoDeals B b (doDeals B b n)).activedeals = n.activedeals ↔
      (∀ deal ∈ B.deals b, deal.hash ∈ n.activedeals → deal.hash ∈ B.chPrPair b) ∧
        ∀ h ∈ B.chPrPair b, (n.StoresDeal h ∨ ∃ deal ∈ B.deals b, deal.hash = h) → h ∈ n.activedeals := by
  rw [Finset.ext_iff]
  constructor
  · intro hsame
    constructor
    · intro deal hdeal hactive
      rcases mem_undoDeals.1 ((hsame deal.hash).2 hactive) with ⟨-, hnot⟩ | ⟨hproven, -⟩
      · exact absurd ⟨deal, hdeal, rfl⟩ hnot
      · exact hproven
    · intro h hproven hstored
      exact (hsame h).1 (mem_undoDeals.2 (.inr ⟨hproven, hstored⟩))
  · rintro ⟨hcontained, hproven⟩ h
    rw [mem_undoDeals]
    constructor
    · rintro (⟨hactive, -⟩ | ⟨hmem, hstored⟩)
      · exact hactive
      · exact hproven h hmem hstored
    · intro hactive
      by_cases hdeal : ∃ deal ∈ B.deals b, deal.hash = h
      · obtain ⟨deal, hmem, rfl⟩ := hdeal
        exact .inr ⟨hcontained deal hmem hactive, .inr ⟨deal, hmem, rfl⟩⟩
      · exact .inl ⟨hactive, hdeal⟩

/-- Blocks that prove the deal `"d"`. -/
def provingBodies : Bodies := ⟨fun _ => [], fun _ => ["d"], fun _ => 1⟩

/-- A node that stores the deal `"d"`, which is not active any more. -/
def inactiveDeal : NodeState Unit := ⟨.init, (), fun h => if h = "d" then some ⟨"d", 0⟩ else none, ∅⟩

/-- A deal that is proven when it is no longer active comes back as an active one. -/
theorem not_activedeals_undone : ¬ ∀ (B : Bodies) (b : Block) (n : NodeState Unit),
    (undoDeals B b (doDeals B b n)).activedeals = n.activedeals := by
  intro hall
  have hsame := hall provingBodies default inactiveDeal
  have hback : "d" ∈ (undoDeals provingBodies default (doDeals provingBodies default inactiveDeal)).activedeals := by
    decide
  rw [hsame] at hback
  exact Finset.notMem_empty "d" hback

end NodeState
end Timbre
