/-
  The state of the DPOS: the candidates, the votes staked on them, and their ranking.
-/
import Mathlib.Data.List.GetD
import Mathlib.Data.String.Basic
import Timbre.Core.Types
import Timbre.Lib.StableSort

namespace Timbre

/-- A candidate.  Its id and the time of its registration play no part in the election. -/
structure Candidate where
  address : Address
  votePower : Int64
  bannedTill : ℤ
deriving DecidableEq, Repr, Inhabited

/-- `dposstate.State`.  Every candidate is stored under its own address. -/
structure State where
  candidateState : AList fun _ : Address => Candidate
  totalVoteStaked : UInt64
  childCommitteeSize : UInt32
  keyed : ∀ e ∈ candidateState.entries, e.2.address = e.1

namespace State

/-! ## The source -/

/-- The candidates in the order in which they are stored.  `GetCandidates` ranges over a
    map, so what it returns is any permutation of these. -/
def candidates (s : State) : List Candidate := s.candidateState.entries.map Sigma.snd

/-- The array `arr` of a slice of length `len` after `append(s[0:i], s[i+1:]...)`: what
    stands behind the shortened slice is left as it was. -/
def removeAt (arr : List Candidate) (len i : ℕ) : List Candidate :=
  arr.take i ++ (arr.take len).drop (i + 1) ++ arr.drop (len - 1)

/-- The loop of `SortByVotes` that removes the banned candidates.  It ranges over the slice
    it removes them from: `arr` is the array they share, `len` the length that is left of
    the slice, and the index runs over the length that the slice had at first. -/
def removeBanned (bcHeight : ℤ) (arr : List Candidate) (len : ℕ) :
    (i remaining : ℕ) → Except Err (List Candidate)
  | _, 0 => .ok (arr.take len)
  | i, remaining + 1 =>
    if (arr.getD i default).bannedTill ≥ bcHeight then
      if len < i + 1 then .error (.panic "slice bounds out of range")
      else removeBanned bcHeight (removeAt arr len i) (len - 1) (i + 1) remaining
    else removeBanned bcHeight arr len (i + 1) remaining

/-- `candidates[i].Address < candidates[j].Address`, ties allowed. -/
def AddressLe (a b : Candidate) : Prop := a.address ≤ b.address

/-- `candidates[i].VotePower > candidates[j].VotePower`, ties allowed. -/
def VotesGe (a b : Candidate) : Prop := b.votePower ≤ a.votePower

instance : DecidableRel AddressLe := fun a b => inferInstanceAs (Decidable (a.address ≤ b.address))
instance : DecidableRel VotesGe := fun a b =>
  inferInstanceAs (Decidable (b.votePower ≤ a.votePower))

/-- `SortByVotes`, on the candidates in the order in which the map yields them. -/
def sortByVotes (bcHeight : ℤ) (order : List Candidate) : Except Err (List Candidate) := do
  let candidates ←
    if bcHeight ≠ 0 then removeBanned bcHeight order order.length 0 order.length
    else pure order
  return (candidates.insertionSort AddressLe).insertionSort VotesGe

/-! ## Registration -/

def defaultCommitteeSize : UInt32 := 3

/-- `NewDposState`. -/
def newDposState : State := ⟨∅, 0, defaultCommitteeSize, by simp⟩

/-- `CheckCandByAdd`. -/
def checkCandByAdd (s : State) (add : Address) : Bool := add ∈ s.candidateState

theorem keyed_insert {s : AList fun _ : Address => Candidate} {c : Candidate}
    (h : ∀ e ∈ s.entries, e.2.address = e.1) :
    ∀ e ∈ (s.insert c.address c).entries, e.2.address = e.1 := by
  intro e he
  rw [AList.entries_insert, List.mem_cons] at he
  rcases he with rfl | he
  · rfl
  · exact h e ((List.kerase_sublist _ _).subset he)

theorem keyed_erase {s : AList fun _ : Address => Candidate} (id : Address)
    (h : ∀ e ∈ s.entries, e.2.address = e.1) :
    ∀ e ∈ (s.erase id).entries, e.2.address = e.1 := by
  intro e he
  exact h e ((List.kerase_sublist _ _).subset he)

/-- `RegisterCand`. -/
def registerCand (s : State) (id : Address) : Except Err State :=
  if id ∈ s.candidateState then
    .error (.error "Entry already in record. Can't register again")
  else .ok { s with
    candidateState := s.candidateState.insert id ⟨id, 0, -1⟩
    keyed := keyed_insert (c := ⟨id, 0, -1⟩) s.keyed }

/-- `QuitCandidate`.  The votes staked on the candidate stay in the total. -/
def quitCandidate (s : State) (id : Address) : Except Err State :=
  if id ∈ s.candidateState then
    .ok { s with candidateState := s.candidateState.erase id, keyed := keyed_erase id s.keyed }
  else .error (.error "Entry not in record. Can't unregister")

/-- `AddGenesisRoundCand`. -/
def addGenesisRoundCand (s : State) (address : Address) : State :=
  if address ∈ s.candidateState then s
  else { s with
    candidateState := s.candidateState.insert address ⟨address, 0, -1⟩
    keyed := keyed_insert (c := ⟨address, 0, -1⟩) s.keyed }

theorem registerCand_cases (s : State) (id : Address) :
    (∃ s', s.registerCand id = .ok s' ∧ id ∉ s.candidateState ∧
      ∀ a, a ∈ s'.candidateState ↔ a = id ∨ a ∈ s.candidateState) ∨
    (∃ e, s.registerCand id = .error (.error e) ∧ id ∈ s.candidateState) := by
  unfold registerCand
  split_ifs with h
  · exact .inr ⟨_, rfl, h⟩
  · exact .inl ⟨_, rfl, h, fun a => AList.mem_insert _⟩

theorem quitCandidate_cases (s : State) (id : Address) :
    (∃ s', s.quitCandidate id = .ok s' ∧ id ∈ s.candidateState ∧
      ∀ a, a ∈ s'.candidateState ↔ a ≠ id ∧ a ∈ s.candidateState) ∨
    (∃ e, s.quitCandidate id = .error (.error e) ∧ id ∉ s.candidateState) := by
  unfold quitCandidate
  split_ifs with h
  · exact .inl ⟨_, rfl, h, fun a => AList.mem_erase⟩
  · exact .inr ⟨_, rfl, h⟩

/-! ## The ranking of the eligible candidates -/

/-- The candidate is banned at this height. -/
def Banned (h : ℤ) (c : Candidate) : Prop := h ≤ c.bannedTill

instance (h : ℤ) : DecidablePred (Banned h) := fun c => inferInstanceAs (Decidable (h ≤ c.bannedTill))

/-- The candidates that may be elected at height `h`: before the first block nobody is
    banned. -/
def eligible (s : State) (h : ℤ) : List Candidate :=
  if h = 0 then s.candidates else s.candidates.filter fun c => ¬ Banned h c

/-- `a` is ranked before `b`: it has more votes, or as many and a smaller address. -/
abbrev RankedBefore : Candidate → Candidate → Prop := StableSort.Lex VotesGe AddressLe

/-- The eligible candidates, the highest-ranked one first. -/
def ranking (s : State) (h : ℤ) : List Candidate := (s.eligible h).insertionSort RankedBefore

instance : Std.Total AddressLe := ⟨fun a b => le_total a.address b.address⟩
instance : IsTrans Candidate AddressLe := ⟨fun _ _ _ => le_trans⟩
instance : Std.Total VotesGe := ⟨fun a b => Int64.le_total b.votePower a.votePower⟩
instance : IsTrans Candidate VotesGe := ⟨fun _ _ _ h₁ h₂ => Int64.le_trans h₂ h₁⟩

theorem nodup_addresses (s : State) : (s.candidates.map Candidate.address).Nodup := by
  have : s.candidates.map Candidate.address = s.candidateState.keys := by
    rw [candidates, List.map_map]
    exact List.map_congr_left fun e he => s.keyed e he
  rw [this]
  exact s.candidateState.keys_nodup

theorem eligible_sublist (s : State) (h : ℤ) : (s.eligible h).Sublist s.candidates := by
  unfold eligible
  split_ifs
  · exact List.Sublist.refl _
  · exact List.filter_sublist

theorem address_inj {s : State} {a b : Candidate} (ha : a ∈ s.candidates) (hb : b ∈ s.candidates)
    (h : a.address = b.address) : a = b :=
  List.inj_on_of_nodup_map s.nodup_addresses ha hb h

theorem ranked_antisymm {s : State} {a b : Candidate} (ha : a ∈ s.candidates)
    (hb : b ∈ s.candidates) (hab : RankedBefore a b) (hba : RankedBefore b a) : a = b :=
  address_inj ha hb (le_antisymm (hab.2 hba.1) (hba.2 hab.1))

theorem ranking_perm (s : State) (h : ℤ) : (s.ranking h).Perm (s.eligible h) :=
  List.perm_insertionSort _ _

theorem ranking_pairwise (s : State) (h : ℤ) : (s.ranking h).Pairwise RankedBefore :=
  List.pairwise_insertionSort _ _

variable {h : ℤ}

/-- Positions that hold no banned candidate change nothing. -/
theorem removeBanned_skip (arr : List Candidate) (len m : ℕ) :
    ∀ (k i : ℕ), (∀ j, i ≤ j → j < i + k → ¬ Banned h (arr.getD j default)) →
      removeBanned h arr len i (k + m) = removeBanned h arr len (i + k) m
  | 0, i, _ => by rw [Nat.zero_add, Nat.add_zero]
  | k + 1, i, hnone => by
    have hc : ¬ (arr.getD i default).bannedTill ≥ h := hnone i le_rfl (by omega)
    rw [show k + 1 + m = (k + m) + 1 by omega, removeBanned, if_neg hc,
      removeBanned_skip arr len m k (i + 1) fun j h₁ h₂ => hnone j (by omega) (by omega)]
    congr 1
    omega

/-- A single banned candidate is removed: what moves up behind it and the last element,
    which stays in the array, are not banned. -/
theorem removeBanned_one {a c : List Candidate} {b : Candidate} (ha : ∀ x ∈ a, ¬ Banned h x)
    (hb : Banned h b) (hc : ∀ x ∈ c, ¬ Banned h x) :
    removeBanned h (a ++ b :: c) (a ++ b :: c).length 0 (a ++ b :: c).length = .ok (a ++ c) := by
  have hlen : (a ++ b :: c).length = a.length + (c.length + 1) := by simp
  have hskip := removeBanned_skip (h := h) (a ++ b :: c) (a ++ b :: c).length (c.length + 1)
    a.length 0 fun j _ hj => by
      rw [List.getD_append _ _ _ _ (by omega), List.getD_eq_getElem _ _ (by omega)]
      exact ha _ (List.getElem_mem _)
  have hat : (a ++ b :: c).getD (0 + a.length) default = b := by
    rw [Nat.zero_add, List.getD_append_right _ _ _ _ le_rfl, Nat.sub_self, List.getD_cons_zero]
  -- the array after the removal
  have harr : removeAt (a ++ b :: c) (a ++ b :: c).length (0 + a.length) =
      a ++ c ++ (b :: c).drop c.length := by
    have h₁ : (a ++ b :: c).drop (0 + a.length + 1) = c := by
      rw [Nat.zero_add, List.drop_length_add_append]
      rfl
    have h₂ : (a ++ b :: c).length - 1 = a.length + c.length := by rw [hlen]; omega
    rw [removeAt, List.take_length, h₁, h₂, Nat.zero_add, List.take_left, List.drop_length_add_append]
  -- behind it the loop sees elements of `c` only
  have hend := removeBanned_skip (h := h) (a ++ c ++ (b :: c).drop c.length)
    (a.length + (c.length + 1) - 1) 0 c.length (0 + a.length + 1) fun j h₁ h₂ => by
      have hj : j - a.length < (c ++ (b :: c).drop c.length).length := by simp; omega
      rw [List.append_assoc, List.getD_append_right _ _ _ _ (by omega), List.getD_eq_getElem _ _ hj]
      refine hc _ ?_
      have hmem := List.getElem_mem hj
      rcases List.mem_append.1 hmem with hmem | hmem
      · exact hmem
      · cases c with
        | nil => simp at h₂; omega
        | cons y c => exact List.mem_of_mem_drop (by simpa using hmem)
  rw [Nat.add_zero c.length] at hend
  rw [hlen] at hskip ⊢
  rw [hskip, removeBanned, hat, if_pos (show b.bannedTill ≥ h from hb), if_neg (by omega), ← hlen,
    harr, hlen, hend, removeBanned, show a.length + (c.length + 1) - 1 = (a ++ c).length by simp,
    List.take_left]

theorem length_removeAt {arr : List Candidate} {len i : ℕ} (hi : i < len) (hlen : len ≤ arr.length) :
    (removeAt arr len i).length = arr.length := by
  simp only [removeAt, List.length_append, List.length_take, List.length_drop]
  omega

/-- The last element of the array stays where it is. -/
theorem last_removeAt {arr : List Candidate} {len i : ℕ} (hi : i < len) (hlen : len ≤ arr.length) :
    (removeAt arr len i).getD ((removeAt arr len i).length - 1) default =
      arr.getD (arr.length - 1) default := by
  rw [length_removeAt hi hlen, removeAt, List.getD_append_right _ _ _ _ (by simp; omega),
    List.getD_eq_getElem?_getD, List.getD_eq_getElem?_getD, List.getElem?_drop]
  congr 2
  simp only [List.length_append, List.length_take, List.length_drop]
  omega

/-- **Two banned candidates**, one of them last: the slice has become shorter than the
    index at the end of the array, where the stale last element is found banned again. -/
theorem removeBanned_panics : ∀ (remaining i : ℕ) (arr : List Candidate) (len : ℕ),
    i + remaining = arr.length → len < arr.length → 0 < remaining →
      Banned h (arr.getD (arr.length - 1) default) →
      removeBanned h arr len i remaining = .error (.panic "slice bounds out of range")
  | 0, _, _, _, _, _, h0, _ => absurd h0 (by omega)
  | remaining + 1, i, arr, len, hi, hlen, _, hlast => by
    have hpos : 0 < arr.length := by omega
    rw [removeBanned]
    split_ifs with hb hshort
    · rfl
    · refine removeBanned_panics remaining (i + 1) (removeAt arr len i) (len - 1) ?_ ?_ ?_ ?_
      · rw [length_removeAt (by omega) (by omega)]; omega
      · rw [length_removeAt (by omega) (by omega)]; omega
      · omega
      · rwa [last_removeAt (by omega) (by omega)]
    · have hne : remaining ≠ 0 := by
        rintro rfl
        rw [show arr.length - 1 = i by omega] at hlast
        exact hb hlast
      exact removeBanned_panics remaining (i + 1) arr len (by omega) hlen (by omega) hlast

/-- With at most one banned candidate the loop is a filter. -/
theorem removeBanned_spec {order : List Candidate}
    (h₁ : order.countP (fun c => Banned h c) ≤ 1) :
    removeBanned h order order.length 0 order.length =
      .ok (order.filter fun c => ¬ Banned h c) := by
  rcases Nat.le_one_iff_eq_zero_or_eq_one.1 h₁ with h₀ | h₁
  · have hnone : ∀ c ∈ order, ¬ Banned h c := by simpa [List.countP_eq_zero] using h₀
    have := removeBanned_skip (h := h) order order.length 0 order.length 0
      fun j _ hj => by
        rw [List.getD_eq_getElem _ _ (by omega)]
        exact hnone _ (List.getElem_mem _)
    rw [Nat.add_zero order.length] at this
    rw [this, removeBanned, List.take_length, List.filter_eq_self.2 (by simpa using hnone)]
  · obtain ⟨b, hmem, hb⟩ : ∃ b ∈ order, Banned h b := by
      have : 0 < order.countP (fun c => Banned h c) := by omega
      simpa using List.countP_pos_iff.1 this
    obtain ⟨a, c, rfl⟩ := List.append_of_mem hmem
    rw [List.countP_append, List.countP_cons_of_pos (by simpa using hb)] at h₁
    have ha : ∀ x ∈ a, ¬ Banned h x := by
      simpa using List.countP_eq_zero.1 (show a.countP (fun c => Banned h c) = 0 by omega)
    have hc : ∀ x ∈ c, ¬ Banned h x := by
      simpa using List.countP_eq_zero.1 (show c.countP (fun c => Banned h c) = 0 by omega)
    rw [removeBanned_one ha hb hc, List.filter_append, List.filter_cons_of_neg (by simpa using hb),
      List.filter_eq_self.2 (by simpa using ha), List.filter_eq_self.2 (by simpa using hc)]

/-! ## Sorting by votes -/

/-- Those of the candidates that may be elected at height `h`: before the first block all of
    them, then those whose ban has ended. -/
def unbanned (h : ℤ) (cands : List Candidate) : List Candidate :=
  if h = 0 then cands else cands.filter fun c => c.bannedTill < h

theorem unbanned_eq (h0 : h ≠ 0) (cands : List Candidate) :
    unbanned h cands = cands.filter fun c => ¬ Banned h c := by
  rw [unbanned, if_neg h0]
  exact List.filter_congr fun c _ => by simp [Banned]

/-- With at most one banned candidate only the sorting is left. -/
theorem sortByVotes_eq {order : List Candidate}
    (hfew : h = 0 ∨ order.countP (fun c => Banned h c) ≤ 1) :
    sortByVotes h order = .ok (((unbanned h order).insertionSort AddressLe).insertionSort VotesGe) := by
  unfold sortByVotes
  by_cases h0 : h = 0
  · subst h0
    rfl
  · rw [if_pos h0, removeBanned_spec (hfew.resolve_left h0), unbanned_eq h0]
    rfl

/-- With two banned candidates some order of the map makes the removal panic. -/
theorem sortByVotes_panics {cands : List Candidate} (h0 : h ≠ 0)
    (htwo : 1 < cands.countP (fun c => Banned h c)) :
    ∃ order : List Candidate, order.Perm cands ∧
      sortByVotes h order = .error (.panic "slice bounds out of range") := by
  obtain ⟨b, hbmem, hb⟩ : ∃ b ∈ cands, Banned h b := by
    simpa using List.countP_pos_iff.1 (show 0 < cands.countP (fun c => Banned h c) by omega)
  obtain ⟨l, hl⟩ : ∃ l, cands.Perm (b :: l) := ⟨_, List.perm_cons_erase hbmem⟩
  rw [hl.countP_eq, List.countP_cons_of_pos (by simpa using hb)] at htwo
  obtain ⟨b', hbmem', hb'⟩ : ∃ b' ∈ l, Banned h b' := by
    simpa using List.countP_pos_iff.1 (show 0 < l.countP (fun c => Banned h c) by omega)
  obtain ⟨l', hl'⟩ : ∃ l', l.Perm (l' ++ [b']) :=
    ⟨_, (List.perm_cons_erase hbmem').trans (List.perm_append_singleton _ _).symm⟩
  refine ⟨b :: (l' ++ [b']), (hl.trans (hl'.cons b)).symm, ?_⟩
  rw [sortByVotes, if_pos h0]
  suffices removeBanned h (b :: (l' ++ [b'])) (b :: (l' ++ [b'])).length 0
      (b :: (l' ++ [b'])).length = .error (.panic "slice bounds out of range") by
    rw [this]; rfl
  have hlen : (b :: (l' ++ [b'])).length = l'.length + 1 + 1 := by simp
  rw [hlen, removeBanned,
    if_pos (show ((b :: (l' ++ [b'])).getD 0 default).bannedTill ≥ h from hb), if_neg (by omega)]
  refine removeBanned_panics (l'.length + 1) 1 _ _ ?_ ?_ (by omega) ?_
  · rw [length_removeAt (by omega) hlen.ge, hlen]; omega
  · rw [length_removeAt (by omega) hlen.ge, hlen]; omega
  · rw [last_removeAt (by omega) hlen.ge, hlen]
    simpa using hb'

/-- The candidates that are not banned come out ranked, in whatever order the map yields
    them. -/
theorem sortByVotes_spec {s : State} {order : List Candidate} (hperm : order.Perm s.candidates)
    (hfew : h = 0 ∨ s.candidates.countP (fun c => Banned h c) ≤ 1) :
    sortByVotes h order = .ok (s.ranking h) := by
  have hel : unbanned h order = if h = 0 then order else order.filter fun c => ¬ Banned h c := by
    split_ifs with h0
    · exact if_pos h0
    · exact unbanned_eq h0 order
  have hun : (unbanned h order).Perm (s.eligible h) := by
    rw [hel, eligible]
    split_ifs
    · exact hperm
    · exact hperm.filter _
  have hmem : ∀ a ∈ unbanned h order, a ∈ s.candidates := fun a ha =>
    (s.eligible_sublist h).subset (hun.subset ha)
  have hanti : ∀ a ∈ unbanned h order, ∀ b ∈ unbanned h order,
      RankedBefore a b → RankedBefore b a → a = b :=
    fun a ha b hb => ranked_antisymm (hmem a ha) (hmem b hb)
  rw [sortByVotes_eq (by rwa [hperm.countP_eq]), StableSort.sort_sort hanti,
    StableSort.sort_perm hun hanti]
  rfl

end State
end Timbre
