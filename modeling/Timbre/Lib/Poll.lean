/-
  Weighted votes: every voter gives a share of a weight to each candidate, and the share of
  nothing is nothing.
-/
import Mathlib.Algebra.BigOperators.Finprod
import Mathlib.Algebra.Order.BigOperators.Group.Finset
import Mathlib.Tactic.Abel

namespace Poll

variable {V W P G : Type} [AddCommGroup G] [Zero P]

/-- The shares that one candidate gets from all voters. -/
noncomputable def tally (share : P → W → G) (votes : V → P) (weight : V → W) : G :=
  ∑ᶠ v, share (votes v) (weight v)

variable {share : P → W → G} {votes votes' : V → P} {weight weight' : V → W}

omit [Zero P] in
theorem tally_congr (h : ∀ v, share (votes' v) (weight' v) = share (votes v) (weight v)) :
    tally share votes' weight' = tally share votes weight := finsum_congr h

/-- The tally as a sum over any finite set that holds all voters. -/
theorem tally_eq_sum (hshare : ∀ w, share 0 w = 0) {S : Finset V}
    (h : ∀ v ∉ S, votes v = 0) : tally share votes weight = ∑ v ∈ S, share (votes v) (weight v) := by
  refine finsum_eq_sum_of_support_subset _ fun v hv => ?_
  by_contra hvS
  refine hv ?_
  change share (votes v) (weight v) = 0
  rw [h v hvS, hshare]

/-- When one voter changes the vote or the weight, the tally changes by the change of this
    voter's share. -/
theorem tally_change (hshare : ∀ w, share 0 w = 0) (hfin : {v | votes v ≠ 0}.Finite) (a : V)
    (hvotes : ∀ v ≠ a, votes' v = votes v) (hweight : ∀ v ≠ a, weight' v = weight v) :
    tally share votes' weight' =
      tally share votes weight + (share (votes' a) (weight' a) - share (votes a) (weight a)) := by
  classical
  obtain ⟨S, hS⟩ := hfin.exists_finset_coe
  have hsub : ∀ v ∉ insert a S, votes v = 0 := fun v hv => by
    rw [Finset.mem_insert, not_or] at hv
    by_contra h
    exact hv.2 (Finset.mem_coe.1 (hS ▸ h))
  have hsub' : ∀ v ∉ insert a S, votes' v = 0 := fun v hv => by
    have hva : v ≠ a := fun h => hv (h ▸ Finset.mem_insert_self a S)
    rw [hvotes v hva, hsub v hv]
  rw [tally_eq_sum hshare hsub, tally_eq_sum hshare hsub',
    ← Finset.add_sum_erase _ _ (Finset.mem_insert_self a S),
    ← Finset.add_sum_erase _ _ (Finset.mem_insert_self a S)]
  have : ∀ v ∈ (insert a S).erase a, share (votes' v) (weight' v) = share (votes v) (weight v) := by
    intro v hv
    rw [hvotes v (Finset.ne_of_mem_erase hv), hweight v (Finset.ne_of_mem_erase hv)]
  rw [Finset.sum_congr rfl this]
  abel

/-- Nobody votes: the tally is zero. -/
theorem tally_eq_zero (hshare : ∀ w, share 0 w = 0) (h : ∀ v, votes v = 0) :
    tally share votes weight = 0 := by
  rw [tally_eq_sum hshare (S := ∅) fun v _ => h v, Finset.sum_empty]

/-- A list that names everybody who votes adds up to all votes exactly if it names nobody who
    votes twice. -/
theorem sum_listed_iff [DecidableEq V] {f : V → ℤ} {S : Finset V} {l : List V} (hf : ∀ v, 0 ≤ f v)
    (hS : ∀ v ∉ S, f v = 0) (hl : ∀ v, f v ≠ 0 → v ∈ l) :
    (l.map f).sum = ∑ v ∈ S, f v ↔ ∀ v, f v ≠ 0 → l.count v = 1 := by
  have hlist : (l.map f).sum = ∑ v ∈ l.toFinset ∪ S, l.count v • f v := by
    rw [Finset.sum_list_map_count]
    refine Finset.sum_subset Finset.subset_union_left fun v _ hv => ?_
    rw [List.count_eq_zero.2 fun h => hv (List.mem_toFinset.2 h), zero_smul]
  have hsum : ∑ v ∈ S, f v = ∑ v ∈ l.toFinset ∪ S, f v :=
    Finset.sum_subset Finset.subset_union_right fun v _ hv => hS v hv
  have hle : ∀ v ∈ l.toFinset ∪ S, f v ≤ l.count v • f v := by
    intro v _
    by_cases hv : f v = 0
    · rw [hv, smul_zero]
    · have hpos : 1 ≤ l.count v := List.count_pos_iff.2 (hl v hv)
      rw [nsmul_eq_mul]
      exact le_mul_of_one_le_left (hf v) (by exact_mod_cast hpos)
  rw [hlist, hsum, eq_comm, Finset.sum_eq_sum_iff_of_le hle]
  constructor
  · intro h v hv
    have heq := h v (Finset.mem_union_left _ (List.mem_toFinset.2 (hl v hv)))
    rw [nsmul_eq_mul, eq_comm, mul_eq_right₀ hv] at heq
    exact_mod_cast heq
  · intro h v _
    by_cases hv : f v = 0
    · rw [hv, smul_zero]
    · rw [h v hv, one_smul]

end Poll
