/-
  The DPOS of a node that starts from an epoch block.

  `InjectEpochState` appends one entry to the cache, which stands for the round of the epoch
  block and for nothing before it.  **From then on the cache answers for this round, and for all
  later ones, as the cache of a node that has seen all rounds** (`epoch_agrees`): calls about
  later rounds touch the entries from this one on only, and these are the same on both nodes.
-/
import Timbre.Dpos.Snapshot

namespace Timbre

/-- `InjectEpochState`.  An error leaves the DPOS as it was. -/
def Dpos.injectEpochState (w : WalletAccess) (cMiners nextMiners : List Address)
    (round slotsPassed : ℤ) (d : Dpos) : Except Err Dpos := do
  let newState := State.generateStateFromWallets w
  let newCommittee ← cMiners.mapM newState.getCandidate
  let newRoundCom ← nextMiners.mapM newState.getCandidate
  let newEntry : MinersInRound := ⟨cMiners, round, slotsPassed⟩
  return { d with
    state := newState
    roundNumber := round
    committee := newCommittee
    nextRoundCommittee := newRoundCom
    minerCache := d.minerCache ++ [newEntry] }

namespace MinerCache

/-- The round that a call is about. -/
def Call.round : Call → ℤ
  | update _ r | delete r => r

/-- The cache is empty, or it ends before round `r`. -/
def EndsBefore (cache : MinerCache) (r : ℤ) : Prop := ∀ tail ∈ cache.getLast?, tail.round < r

/-- Round `r` is the last one of the cache. -/
def EndsWith (cache : MinerCache) (r : ℤ) : Prop := ∀ tail ∈ cache.getLast?, tail.round = r

variable {p t t' cache : MinerCache} {e e' : MinersInRound} {r r₀ k : ℤ} {i : ℕ} {c : Call}
  {cs : List Call} {miners : List Address}

/-! ## What stands before an entry -/

theorem getD_append_add (p t : MinerCache) (i : ℕ) :
    (p ++ t).getD (p.length + i) default = t.getD i default := by
  rw [List.getD_append_right _ _ _ _ (Nat.le_add_right _ _), Nat.add_sub_cancel_left]

theorem take_append_add (p t : MinerCache) (i : ℕ) : (p ++ t).take (p.length + i) = p ++ t.take i := by
  rw [List.take_append, List.take_of_length_le (Nat.le_add_right _ _), Nat.add_sub_cancel_left]

theorem modify_append_add (f : MinersInRound → MinersInRound) (t : MinerCache) (i : ℕ) :
    ∀ p : MinerCache, (p ++ t).modify (p.length + i) f = p ++ t.modify i f
  | [] => by simp
  | x :: p => by
    rw [List.length_cons, show p.length + 1 + i = (p.length + i) + 1 by omega, List.cons_append,
      List.modify_succ_cons, modify_append_add f t i p]
    rfl

/-- The entry before the first one of `t`. -/
theorem getD_before {x : MinersInRound} (p t : MinerCache) :
    (p ++ [x] ++ t).getD p.length default = x := by
  rw [List.append_assoc]
  exact getD_append_add p ([x] ++ t) 0

/-- **The scan of a lookup** does not look behind an entry that ends at or after the round. -/
theorem scanRound_append (hp : EndsBefore p k) : ∀ i, k ≤ (t.getD i default).round →
    scanRound (p ++ t) k (p.length + i) = scanRound t k i
  | 0, hk => by
    rcases List.eq_nil_or_concat p with rfl | ⟨p, x, rfl⟩
    · rfl
    · have hx : k > x.round := hp x (by simp)
      have hat := getD_append_add (p ++ [x]) t 0
      rw [List.concat_eq_append] at *
      rw [List.length_append, List.length_singleton, Nat.add_zero] at hat ⊢
      have hsuffix : scanRound t k 0 = some (t.getD 0 default) := if_pos hk
      rw [hsuffix, scanRound, getD_before, hat, if_pos ⟨hx, hk⟩]
  | i + 1, hk => by
    rw [show p.length + (i + 1) = (p.length + i) + 1 from rfl, scanRound,
      show p.length + i + 1 = p.length + (i + 1) from rfl, getD_append_add, getD_append_add, scanRound]
    split_ifs with hin
    · rfl
    · refine scanRound_append hp i ?_
      by_contra hlt
      exact hin ⟨not_le.1 hlt, hk⟩

/-- The loop of a deletion does not look behind an entry that ends before the round. -/
theorem deleteScan_append (hp : EndsBefore p r₀) (hr₀ : 0 < r₀) (hr : r₀ < r) :
    ∀ (i : ℕ) (t : MinerCache), r ≤ (t.getD i default).round →
      deleteScan r (p.length + i) (p ++ t) = p ++ deleteScan r i t
  | 0, t, hle => by
    rw [deleteScan, if_neg (by omega)]
    rcases List.eq_nil_or_concat p with rfl | ⟨p, x, rfl⟩
    · rw [List.length_nil, deleteScan, if_neg (by omega)]
      rfl
    · have hx : x.round < r₀ := hp x (by simp)
      have hat := getD_append_add (p ++ [x]) t 0
      have hmod := modify_append_add (shorten r) t 0 (p ++ [x])
      rw [List.concat_eq_append] at *
      rw [List.length_append, List.length_singleton, Nat.add_zero] at hat hmod ⊢
      rw [deleteScan, getD_before, hat, if_pos ⟨by omega, hle⟩, if_neg (by omega), hmod]
  | i + 1, t, hle => by
    rw [show p.length + (i + 1) = (p.length + i) + 1 from rfl, deleteScan,
      show p.length + i + 1 = p.length + (i + 1) from rfl, getD_append_add, getD_append_add,
      take_append_add, modify_append_add, deleteScan]
    split_ifs with hin heq hout
    · rfl
    · rfl
    · refine deleteScan_append hp hr₀ hr i _ ?_
      rw [List.getD_eq_getElem?_getD, List.getElem?_take_of_lt (Nat.lt_succ_self i),
        ← List.getD_eq_getElem?_getD]
      exact hout.2
    · refine deleteScan_append hp hr₀ hr i t ?_
      by_contra hlt
      exact hin ⟨not_le.1 hlt, hle⟩

/-! ## From an entry on -/

variable {S : ℤ} {m : List Address}

/-- The first entry covers round `r₀`, which has the committee `m` and the slots up to `S`; the
    other entries are later. -/
structure StandsFor (r₀ S : ℤ) (m : List Address) (t : MinerCache) : Prop where
  first : ∃ e tail, t = e :: tail ∧ e.miners = m ∧ e.slotsPassed - (e.round - r₀) * (m.length : ℤ) = S
  late : ∀ x ∈ t, r₀ ≤ x.round

theorem StandsFor.ne_nil (h : StandsFor r₀ S m t) : t ≠ [] := by
  obtain ⟨e, tail, rfl, -⟩ := h.first
  exact List.cons_ne_nil e tail

theorem standsFor_single (r₀ S : ℤ) (m : List Address) : StandsFor r₀ S m [⟨m, r₀, S⟩] where
  first := ⟨_, [], rfl, rfl, by simp⟩
  late x hx := by
    rw [List.mem_singleton.1 hx]

theorem StandsFor.take (h : StandsFor r₀ S m t) (i : ℕ) : StandsFor r₀ S m (t.take (i + 1)) where
  first := by
    obtain ⟨e, tail, rfl, he⟩ := h.first
    exact ⟨e, tail.take i, rfl, he⟩
  late x hx := h.late x (List.mem_of_mem_take hx)

theorem mem_modify {f : MinersInRound → MinersInRound} {x : MinersInRound} (hx : x ∈ t.modify i f) :
    x ∈ t ∨ ∃ y ∈ t, x = f y := by
  obtain ⟨j, hj⟩ := List.mem_iff_getElem?.1 hx
  rw [List.getElem?_modify] at hj
  obtain ⟨y, hy, hxy⟩ := Option.map_eq_some_iff.1 hj
  have hmem : y ∈ t := List.mem_of_getElem? hy
  split_ifs at hxy
  · exact .inr ⟨y, hmem, hxy.symm⟩
  · exact .inl (hxy ▸ hmem)

theorem StandsFor.shorten (h : StandsFor r₀ S m t) (hr : r₀ < r) (i : ℕ) :
    StandsFor r₀ S m (t.modify i (shorten r)) where
  first := by
    obtain ⟨e, tail, rfl, rfl, he⟩ := h.first
    cases i with
    | zero =>
      refine ⟨MinerCache.shorten r e, tail, rfl, rfl, ?_⟩
      rw [← he]
      simp only [MinerCache.shorten]
      ring
    | succ i => exact ⟨e, tail.modify i (MinerCache.shorten r), rfl, rfl, he⟩
  late x hx := by
    rcases mem_modify hx with hx | ⟨y, -, rfl⟩
    · exact h.late x hx
    · simp only [MinerCache.shorten]
      omega

theorem StandsFor.deleteScan (hr₀ : 0 < r₀) (hr : r₀ < r) :
    ∀ (i : ℕ) {t : MinerCache}, StandsFor r₀ S m t → StandsFor r₀ S m (deleteScan r i t)
  | 0, t, h => by
    rw [MinerCache.deleteScan, if_neg (by omega)]
    exact h.shorten hr 0
  | i + 1, t, h => by
    rw [MinerCache.deleteScan]
    split_ifs
    · exact h.take i
    · exact h.shorten hr (i + 1)
    · exact deleteScan hr₀ hr i (h.take i)
    · exact deleteScan hr₀ hr i h

theorem getD_last {last : MinersInRound} (h : t.getLast? = some last) :
    t.getD (t.length - 1) default = last := by
  rw [List.getD_eq_getElem?_getD, ← List.getLast?_eq_getElem?, h]
  rfl

theorem length_append_pred (p : MinerCache) (h : t ≠ []) :
    (p ++ t).length - 1 = p.length + (t.length - 1) := by
  have := List.length_pos_iff.2 h
  rw [List.length_append]
  omega

theorem deleteEntry_append (hp : EndsBefore p r₀) (hr₀ : 0 < r₀) (h : StandsFor r₀ S m t) (hr : r₀ < r) :
    deleteEntryInMinerCache (p ++ t) r =
      ((deleteEntryInMinerCache t r).1, p ++ (deleteEntryInMinerCache t r).2) := by
  obtain ⟨last, hlast⟩ : ∃ last, t.getLast? = some last := ⟨_, List.getLast?_eq_some_getLast h.ne_nil⟩
  have hlast' : (p ++ t).getLast? = some last := by
    rw [List.getLast?_append, hlast]
    rfl
  simp only [deleteEntryInMinerCache, hlast, hlast']
  split_ifs with hlt
  · rfl
  · rw [length_append_pred p h.ne_nil, deleteScan_append hp hr₀ hr]
    rw [getD_last hlast]
    omega

theorem StandsFor.delete (hr₀ : 0 < r₀) (h : StandsFor r₀ S m t) (hr : r₀ < r) :
    StandsFor r₀ S m (deleteEntryInMinerCache t r).2 := by
  unfold deleteEntryInMinerCache
  split
  · exact h
  · split_ifs
    · exact h
    · exact h.deleteScan hr₀ hr _

theorem pushMiners_append {last : MinersInRound} (h : t ≠ []) :
    pushMiners (p ++ t) last miners r = p ++ pushMiners t last miners r := by
  unfold pushMiners
  split_ifs
  · rw [List.dropLast_append_of_ne_nil h, List.append_assoc]
  · exact List.append_assoc _ _ _

theorem StandsFor.pushMiners {last : MinersInRound} (h : StandsFor r₀ S m t) (hlast : t.getLast? = some last)
    (hr : r₀ < r) : StandsFor r₀ S m (pushMiners t last miners r) := by
  obtain ⟨e, tail, rfl, rfl, he⟩ := h.first
  have hmem : last ∈ e :: tail := List.mem_of_getLast? hlast
  have hlate := h.late last hmem
  unfold MinerCache.pushMiners
  split_ifs with hsame
  · refine ⟨?_, fun x hx => ?_⟩
    · cases tail with
      | nil =>
        obtain rfl : e = last := by simpa using hlast
        refine ⟨_, [], rfl, rfl, ?_⟩
        rw [← he, hsame]
        ring
      | cons e' tail => exact ⟨e, _, rfl, rfl, he⟩
    · rcases List.mem_append.1 hx with hx | hx
      · exact h.late x (List.mem_of_mem_dropLast hx)
      · rw [List.mem_singleton.1 hx]
        exact hlate.trans (by simp)
  · refine ⟨⟨e, _, rfl, rfl, he⟩, fun x hx => ?_⟩
    rcases List.mem_append.1 hx with hx | hx
    · exact h.late x hx
    · rw [List.mem_singleton.1 hx]
      exact hr.le

theorem exists_getLast? (h : t ≠ []) (p : MinerCache) :
    ∃ last, t.getLast? = some last ∧ (p ++ t).getLast? = some last := by
  refine ⟨_, List.getLast?_eq_some_getLast h, ?_⟩
  rw [List.getLast?_append, List.getLast?_eq_some_getLast h]
  rfl

/-- **A call** about a later round changes what stands from the entry on, whatever stands before
    it. -/
theorem run_append (hp : EndsBefore p r₀) (hr₀ : 0 < r₀) (h : StandsFor r₀ S m t) (hc : r₀ < c.round) :
    c.run (p ++ t) = (c.run t).map (p ++ ·) := by
  cases c with
  | delete r =>
    have hr : r₀ < r := hc
    simp only [Call.run, deleteEntry_append hp hr₀ h hr]
    rfl
  | update miners r =>
    have hr : r₀ < r := hc
    have hdel := h.delete hr₀ hr
    obtain ⟨last, hlast, hlast'⟩ := exists_getLast? h.ne_nil p
    obtain ⟨last₁, hlast₁, hlast₁'⟩ := exists_getLast? hdel.ne_nil p
    simp only [Call.run, addOrUpdateMinerEntry, hlast, hlast', deleteEntry_append hp hr₀ h hr,
      hlast₁, hlast₁', pushMiners_append h.ne_nil, pushMiners_append hdel.ne_nil]
    split_ifs <;> rfl

theorem StandsFor.run (hr₀ : 0 < r₀) (h : StandsFor r₀ S m t) (hc : r₀ < c.round)
    (hrun : c.run t = .ok t') : StandsFor r₀ S m t' := by
  cases c with
  | delete r =>
    obtain rfl := Except.ok.inj hrun
    exact h.delete hr₀ hc
  | update miners r =>
    have hr : r₀ < r := hc
    have hdel := h.delete hr₀ hr
    obtain ⟨last, hlast, -⟩ := exists_getLast? h.ne_nil []
    obtain ⟨last₁, hlast₁, -⟩ := exists_getLast? hdel.ne_nil []
    simp only [Call.run, addOrUpdateMinerEntry, hlast, hlast₁] at hrun
    split_ifs at hrun
    · obtain rfl := Except.ok.inj hrun
      exact hdel.pushMiners hlast₁ hr
    · obtain rfl := Except.ok.inj hrun
      exact h.pushMiners hlast hr

/-- **Calls about later rounds** change what stands from the entry on, whatever stands before it. -/
theorem runCalls_append (hp : EndsBefore p r₀) (hr₀ : 0 < r₀) : ∀ (cs : List Call) {t : MinerCache},
    StandsFor r₀ S m t → (∀ c ∈ cs, r₀ < c.round) →
      runCalls (p ++ t) cs = (runCalls t cs).map (p ++ ·) ∧
        ∀ t', runCalls t cs = .ok t' → StandsFor r₀ S m t'
  | [], t, h, _ => ⟨rfl, fun t' ht => Except.ok.inj ht ▸ h⟩
  | c :: cs, t, h, hcs => by
    have hc := hcs c (by simp)
    have hcons : ∀ cache, runCalls cache (c :: cs) = c.run cache >>= fun cache => runCalls cache cs :=
      fun _ => rfl
    rw [hcons, hcons, run_append hp hr₀ h hc]
    cases hrun : c.run t with
    | error e => exact ⟨rfl, fun t' ht => by cases ht⟩
    | ok t₁ =>
      exact runCalls_append hp hr₀ cs (h.run hr₀ hc hrun) fun c hc => hcs c (List.mem_cons_of_mem _ hc)

/-! ## Lookups -/

theorem StandsFor.scan (h : StandsFor r₀ S m t) (hk : k < r₀) : ∀ i, i < t.length →
    ∃ e, scanRound t k i = some e ∧ e.slotsPassed - (e.round - k) * (e.miners.length : ℤ) =
      S - (r₀ - k) * (m.length : ℤ)
  | 0, _ => by
    obtain ⟨e, tail, rfl, rfl, he⟩ := h.first
    have hlate := h.late e (by simp)
    refine ⟨e, if_pos (show k ≤ e.round by omega), ?_⟩
    rw [← he]
    ring
  | i + 1, hi => by
    have hprev := h.late _ (List.getElem_mem (show i < t.length by omega))
    rw [scanRound, if_neg]
    · exact h.scan hk i (by omega)
    · rw [List.getD_eq_getElem _ _ (by omega)]
      omega

/-- What stands before the entry plays no part in the lookup of a later round. -/
theorem lookup_append (hp : EndsBefore p k) (h : t ≠ []) : (p ++ t).minersInRound k = minersInRound t k ∧
    (p ++ t).slotsPassedByRound k = slotsPassedByRound t k := by
  obtain ⟨last, hlast, hlast'⟩ := exists_getLast? h p
  unfold minersInRound slotsPassedByRound
  rw [hlast, hlast', length_append_pred p h]
  by_cases hlt : last.round < k
  · simp only [hlt, or_true, if_true]
    exact ⟨trivial, trivial⟩
  · have hle : k ≤ (t.getD (t.length - 1) default).round := by
      rw [getD_last hlast]
      omega
    rw [scanRound_append hp _ hle]
    exact ⟨rfl, rfl⟩

/-- The slots up to the round before the entry. -/
theorem StandsFor.slots (h : StandsFor r₀ S m t) (hk : k < r₀) (hpos : 0 < k) :
    slotsPassedByRound t k = .ok (S - (r₀ - k) * m.length) := by
  obtain ⟨last, hlast, -⟩ := exists_getLast? h.ne_nil []
  have hlate := h.late last (List.mem_of_getLast? hlast)
  obtain ⟨e, hscan, he⟩ := h.scan hk (t.length - 1) (by have := List.length_pos_iff.2 h.ne_nil; omega)
  unfold slotsPassedByRound
  rw [if_neg (by omega), hlast]
  dsimp only
  rw [if_neg (by omega), hscan]
  exact congrArg Except.ok he

/-! ## The node that has seen all rounds -/

open RunLength

variable {L : Rounds} {full : MinerCache} {rs : List (List Address × ℕ)}

theorem allAllowed_append : ∀ {hist : List Call} {L : Rounds}, AllAllowed L (hist ++ cs) →
    AllAllowed L hist ∧ AllAllowed (hist.foldl Call.apply L) cs
  | [], _, h => ⟨trivial, h⟩
  | _ :: _, _, h => ⟨⟨h.1, (allAllowed_append h.2).1⟩, (allAllowed_append h.2).2⟩

/-- The rounds up to `n` are not touched by calls about later rounds. -/
theorem take_apply {n : ℕ} (hn : n ≤ L.length) (hc : (n : ℤ) < c.round) :
    n ≤ (c.apply L).length ∧ (c.apply L).take n = L.take n := by
  cases c with
  | update miners r =>
    have hr : (n : ℤ) < r := hc
    have hlen : n ≤ (L.truncate r).length := by
      rw [Rounds.truncate, List.length_take]
      omega
    refine ⟨?_, ?_⟩
    · rw [Call.apply, Rounds.update, List.length_append]
      omega
    · rw [Call.apply, Rounds.update, List.take_append_of_le_length hlen, Rounds.truncate,
        List.take_take, min_eq_left (by omega)]
  | delete r =>
    have hr : (n : ℤ) < r := hc
    refine ⟨?_, ?_⟩
    · rw [Call.apply, Rounds.truncate, List.length_take]
      omega
    · rw [Call.apply, Rounds.truncate, List.take_take, min_eq_left (by omega)]

theorem take_foldl {n : ℕ} : ∀ (cs : List Call) {L : Rounds}, n ≤ L.length →
    (∀ c ∈ cs, (n : ℤ) < c.round) →
      n ≤ (cs.foldl Call.apply L).length ∧ (cs.foldl Call.apply L).take n = L.take n
  | [], _, hn, _ => ⟨hn, rfl⟩
  | c :: cs, L, hn, hcs => by
    obtain ⟨hlen, htake⟩ := take_apply hn (hcs c (by simp))
    obtain ⟨hlen', htake'⟩ := take_foldl cs hlen fun c hc => hcs c (List.mem_cons_of_mem _ hc)
    exact ⟨hlen', htake'.trans htake⟩

/-- A cache that stands for `L` ends with the entry for the last round of `L`. -/
theorem Holds.split (h : Holds cache rs L) (hL : L ≠ []) (hm : L.getLast? = some m) :
    ∃ pre, EndsBefore pre L.length ∧
      cache = pre ++ [⟨m, L.length, (L.map fun c => (c.length : ℤ)).sum⟩] := by
  obtain ⟨hpos, rfl, rfl⟩ := h
  rcases List.eq_nil_or_concat rs with rfl | ⟨rs₀, ⟨m₀, n⟩, rfl⟩
  · exact absurd rfl hL
  rw [List.concat_eq_append] at *
  have hn : 0 < n := hpos (m₀, n) (by simp)
  obtain rfl : m₀ = m := by
    rw [expand_snoc, List.getLast?_append, List.getLast?_replicate, if_neg (by omega)] at hm
    exact Option.some.inj hm
  refine ⟨ofRuns rs₀, fun x hx => ?_, ?_⟩
  · rw [length_expand, count_snoc]
    rcases List.eq_nil_or_concat rs₀ with rfl | ⟨rs₁, ⟨m₁, n₁⟩, rfl⟩
    · cases hx
    · rw [List.concat_eq_append] at *
      rw [ofRuns_snoc, List.getLast?_concat, Option.mem_some_iff] at hx
      rw [← hx, count_snoc]
      push_cast
      omega
  · rw [ofRuns_snoc, sum_expand, length_expand, count_snoc]
    simp

/-- Calls that start with the round after the `n`-th do to the cache what they do to it without the
    later rounds. -/
theorem run_cut {n : ℕ} (h : Holds full rs L) (hn : n ≤ L.length) (hpos : 0 < n) (hc : c.round = n + 1) :
    c.run full = c.run (deleteEntryInMinerCache full (n + 1)).2 := by
  obtain ⟨⟨rs', hcut⟩, -⟩ := delete_spec h (show 1 ≤ (n : ℤ) + 1 by omega)
  rw [Rounds.truncate, show ((n : ℤ) + 1 - 1).toNat = n by omega] at hcut
  obtain ⟨last, hlast⟩ : ∃ last, full.getLast? = some last := by
    rcases h.getLast? with ⟨-, -, rfl⟩ | ⟨_, _, _, -, hlast⟩
    · simp at hn
      omega
    · exact ⟨_, hlast⟩
  obtain ⟨last', hlast', hround'⟩ :
      ∃ last, (deleteEntryInMinerCache full (n + 1)).2.getLast? = some last ∧ last.round = n := by
    rcases hcut.getLast? with ⟨-, -, hnil⟩ | ⟨_, _, _, -, hlast⟩
    · have hlen := congrArg List.length hnil
      rw [List.length_take, List.length_nil] at hlen
      omega
    · exact ⟨_, hlast, by simp [hn]⟩
  have hagain : (deleteEntryInMinerCache (deleteEntryInMinerCache full (n + 1)).2 (n + 1)).2 =
      (deleteEntryInMinerCache full (n + 1)).2 := by
    rw [deleteEntryInMinerCache, hlast']
    simp [hround']
  cases c with
  | delete r =>
    obtain rfl : r = n + 1 := hc
    rw [Call.run, Call.run, hagain]
  | update miners r =>
    obtain rfl : r = n + 1 := hc
    by_cases hge : last.round ≥ n + 1
    · simp [Call.run, addOrUpdateMinerEntry, hlast, hge, hlast', hround']
    · have hsame : (deleteEntryInMinerCache full (n + 1)).2 = full := by
        rw [deleteEntryInMinerCache, hlast]
        simp [not_le.1 hge]
      rw [hsame]

/-- The slots up to round `n`, in the plain list. -/
theorem slots_take {n : ℕ} (hn : n ≤ L.length) :
    L.slots n = some (((L.take n).map fun c => (c.length : ℤ)).sum) := by
  rw [Rounds.slots, if_pos (by omega), Int.toNat_natCast]

/-- What the full node has up to round `n + 1`, and its calls from there on. -/
theorem cut_spec {n : ℕ} (hholds : Holds full rs L) (hcommittee : L[n]? = some m)
    (hallowed : AllAllowed L cs) (hstart : EndsWith full (n + 1 : ℕ) ∨ ∃ c ∈ cs.head?, c.round = (n + 1 : ℕ) + 1) :
    ∃ cut rs' pre, Holds cut rs' (L.take (n + 1)) ∧ EndsBefore pre (n + 1 : ℕ) ∧
      cut = pre ++ [⟨m, (n + 1 : ℕ), ((L.take (n + 1)).map fun c => (c.length : ℤ)).sum⟩] ∧
      runCalls full cs = runCalls cut cs ∧ AllAllowed (L.take (n + 1)) cs := by
  obtain ⟨hlt, -⟩ := List.getElem?_eq_some_iff.1 hcommittee
  have hlength : (L.take (n + 1)).length = n + 1 := by
    rw [List.length_take]
    omega
  have htake : L.take (n + 1) = L.take n ++ [m] := by
    rw [List.take_add_one, hcommittee]
    rfl
  obtain ⟨⟨rs', hcut⟩, -⟩ := delete_spec hholds (show 1 ≤ ((n + 1 : ℕ) : ℤ) + 1 by omega)
  rw [Rounds.truncate, show (((n + 1 : ℕ) : ℤ) + 1 - 1).toNat = n + 1 by omega] at hcut
  obtain ⟨pre, hpre, hsplit⟩ := hcut.split (m := m) (by rw [htake]; simp) (by rw [htake]; simp)
  rw [hlength] at hpre hsplit
  refine ⟨_, rs', pre, hcut, hpre, hsplit, ?_⟩
  rcases hstart with hstart | ⟨c, hc, hround⟩
  · rcases hholds.getLast? with ⟨-, -, rfl⟩ | ⟨_, _, _, -, hlast⟩
    · simp at hlt
    have hlen : (L.length : ℤ) = ((n + 1 : ℕ) : ℤ) := hstart _ hlast
    have hnop : (deleteEntryInMinerCache full (((n + 1 : ℕ) : ℤ) + 1)).2 = full := by
      rw [deleteEntryInMinerCache, hlast]
      simp [hlen]
    rw [hnop, List.take_of_length_le (by omega)]
    exact ⟨rfl, hallowed⟩
  · obtain ⟨cs', rfl⟩ : ∃ cs', cs = c :: cs' := ⟨cs.tail, (List.cons_head?_tail hc).symm⟩
    have hrun := run_cut hholds hlt (Nat.succ_pos n) hround
    have happly : c.apply (L.take (n + 1)) = c.apply L := by
      cases c with
      | update miners r =>
        obtain rfl : r = ((n + 1 : ℕ) : ℤ) + 1 := hround
        simp [Call.apply, Rounds.update, Rounds.truncate, List.take_take]
      | delete r =>
        obtain rfl : r = ((n + 1 : ℕ) : ℤ) + 1 := hround
        simp [Call.apply, Rounds.truncate, List.take_take]
    refine ⟨?_, ?_, happly ▸ hallowed.2⟩
    · rw [runCalls, runCalls, List.foldlM_cons, List.foldlM_cons, hrun]
    · cases c with
      | update miners r =>
        obtain rfl : r = ((n + 1 : ℕ) : ℤ) + 1 := hround
        exact ⟨by omega, by rw [hlength]⟩
      | delete r => exact hallowed.1

/-- The slots that the full node has passed before round `n + 1`. -/
theorem slots_before {n : ℕ} (hholds : Holds full rs (cs.foldl Call.apply (L.take (n + 1))))
    (hcommittee : L[n]? = some m) (hcs : ∀ c ∈ cs, ((n + 1 : ℕ) : ℤ) < c.round) (hne : full ≠ []) :
    full.slotsPassedByRound n =
      .ok (((L.take (n + 1)).map fun c => (c.length : ℤ)).sum - m.length) := by
  obtain ⟨hlt, -⟩ := List.getElem?_eq_some_iff.1 hcommittee
  have hlength : (L.take (n + 1)).length = n + 1 := by
    rw [List.length_take]
    omega
  obtain ⟨hlen, hprefix⟩ := take_foldl cs hlength.ge hcs
  have hanswer := (lookup_spec hholds (n : ℤ)).2 (.inr hne)
  have htaken : (cs.foldl Call.apply (L.take (n + 1))).take n = L.take n := by
    have := congrArg (List.take n) hprefix
    rwa [List.take_take, List.take_take, List.take_take, min_eq_left (by omega),
      min_eq_left (by omega)] at this
  rw [slots_take (by omega), htaken] at hanswer
  cases hslots : full.slotsPassedByRound n with
  | error e =>
    rw [hslots] at hanswer
    cases hanswer
  | ok s =>
    rw [hslots] at hanswer
    rw [List.take_add_one, hcommittee, List.map_append, List.sum_append, Option.some.inj hanswer]
    simp

/-- **A node started from an epoch block answers as a full node** for the round of the block and
    for all later ones, after any calls about later rounds. -/
theorem epoch_agrees {d d' : Dpos} {w : WalletAccess} {cMiners nextMiners : List Address}
    {r₀ slotsPassed : ℤ} {hist cs : List Call} {full : MinerCache}
    (hcalls : AllAllowed [] (hist ++ cs)) (hfull : runCalls [] hist = .ok full)
    (hminers : full.minersInRound r₀ = .ok cMiners)
    (hslots : full.slotsPassedByRound r₀ = .ok slotsPassed)
    (hend : EndsBefore d.minerCache (r₀ - 1))
    (hinject : d.injectEpochState w cMiners nextMiners r₀ slotsPassed = .ok d')
    (hcs : ∀ c ∈ cs, r₀ < c.round)
    (hstart : EndsWith full r₀ ∨ ∃ c ∈ cs.head?, c.round = r₀ + 1) :
    ∃ boot' full', runCalls d'.minerCache cs = .ok boot' ∧ runCalls full cs = .ok full' ∧
      (∀ k, r₀ ≤ k → boot'.minersInRound k = full'.minersInRound k) ∧
      ∀ k, r₀ - 1 ≤ k → boot'.slotsPassedByRound k = full'.slotsPassedByRound k := by
  -- the plain list of the full node, and the round in it
  obtain ⟨hhist, hallowed⟩ := allAllowed_append hcalls
  obtain ⟨full₁, rs, hfull₁, hholds⟩ := run_spec hist (show Holds [] [] [] from ⟨by simp, rfl, rfl⟩) hhist
  obtain rfl := Except.ok.inj (hfull.symm.trans hfull₁)
  generalize hist.foldl Call.apply [] = L at hholds hallowed
  have hcommittee : L.committee r₀ = some cMiners := by
    rw [← (lookup_spec hholds r₀).1, hminers]
    rfl
  have hpos : 0 < r₀ := by
    by_contra hle
    rw [Rounds.committee, if_pos (by omega)] at hcommittee
    cases hcommittee
  obtain ⟨n, rfl⟩ : ∃ n : ℕ, r₀ = (n + 1 : ℕ) := ⟨(r₀ - 1).toNat, by omega⟩
  rw [Rounds.committee, if_neg (by omega), show (((n + 1 : ℕ) : ℤ) - 1).toNat = n by omega] at hcommittee
  obtain ⟨hlt, -⟩ := List.getElem?_eq_some_iff.1 hcommittee
  have hsum : slotsPassed = ((L.take (n + 1)).map fun c => (c.length : ℤ)).sum := by
    have hne : full ≠ [] := by
      rintro rfl
      cases hminers
    have hsum := (lookup_spec hholds ((n + 1 : ℕ) : ℤ)).2 (.inr hne)
    rw [hslots, slots_take hlt] at hsum
    exact Option.some.inj hsum
  -- both nodes from that round on
  obtain ⟨cut, rs', pre, hcut, hpre, hsplit, hrunfull, hallowed'⟩ :=
    cut_spec hholds hcommittee hallowed hstart
  obtain ⟨full', rs'', hrun, hholds'⟩ := run_spec cs hcut hallowed'
  have hboot : d'.minerCache = d.minerCache ++ [⟨cMiners, ((n + 1 : ℕ) : ℤ), slotsPassed⟩] := by
    obtain ⟨committee, -, hinject⟩ := except_bind_ok hinject
    obtain ⟨next, -, hinject⟩ := except_bind_ok hinject
    rw [← Except.ok.inj hinject]
  have hafter : ∀ k, ((n + 1 : ℕ) : ℤ) - 1 ≤ k → EndsBefore d.minerCache k := fun k hk x hx => by
    have := hend x hx
    omega
  have hstands := standsFor_single ((n + 1 : ℕ) : ℤ) slotsPassed cMiners
  obtain ⟨hsuffix, hrest⟩ := runCalls_append hpre hpos cs hstands hcs
  obtain ⟨hrunboot, -⟩ := runCalls_append (hafter _ (by omega)) hpos cs hstands hcs
  rw [hsum, ← hsplit, hrun, ← hsum] at hsuffix
  cases ht : runCalls [⟨cMiners, ((n + 1 : ℕ) : ℤ), slotsPassed⟩] cs with
  | error e =>
    rw [ht] at hsuffix
    cases hsuffix
  | ok t =>
    have hst := hrest t ht
    rw [ht] at hsuffix hrunboot
    obtain rfl : full' = pre ++ t := Except.ok.inj hsuffix
    -- behind the entry both caches are the same
    have hlate : ∀ k, ((n + 1 : ℕ) : ℤ) ≤ k →
        (d.minerCache ++ t).minersInRound k = (pre ++ t).minersInRound k ∧
          (d.minerCache ++ t).slotsPassedByRound k = (pre ++ t).slotsPassedByRound k := by
      intro k hk
      have hpre' : EndsBefore pre k := fun x hx => (hpre x hx).trans_le hk
      obtain ⟨hm, hs⟩ := lookup_append (hafter k (by omega)) hst.ne_nil
      obtain ⟨hm', hs'⟩ := lookup_append hpre' hst.ne_nil
      exact ⟨hm.trans hm'.symm, hs.trans hs'.symm⟩
    refine ⟨d.minerCache ++ t, pre ++ t, hboot ▸ hrunboot, hrunfull.trans hrun,
      fun k hk => (hlate k hk).1, fun k hk => ?_⟩
    rcases hk.eq_or_lt with rfl | hlt'
    · rw [show ((n + 1 : ℕ) : ℤ) - 1 = n by omega]
      rcases Nat.eq_zero_or_pos n with rfl | hn
      · simp [slotsPassedByRound]
      · rw [slots_before hholds' hcommittee hcs (by simp [hst.ne_nil]), ← hsum,
          (lookup_append (hafter _ (by omega)) hst.ne_nil).2, hst.slots (by omega) (by omega)]
        congr 1
        push_cast
        ring
    · exact (hlate k (by omega)).2

/-! ## An epoch block in the second round -/

/-- Wallets of the members of the committees, without votes. -/
def epochAccess : WalletAccess where
  getRegisteredCandidates := ["a", "b"]
  getCandVotePower _ := .ok (0, -1)
  nodup := Dpos.nodup_pair
  registered _ _ := rfl

/-- The node starts from round 2 of a committee that has had round 1 too; then comes round 3, and is
    deleted. -/
theorem epoch_agrees_second : ∃ d' boot' full',
    Dpos.init.injectEpochState epochAccess ["a", "b"] ["a", "b"] 2 4 = .ok d' ∧
      runCalls d'.minerCache [.update ["a"] 3, .delete 3] = .ok boot' ∧
      runCalls [⟨["a", "b"], 2, 4⟩] [.update ["a"] 3, .delete 3] = .ok full' ∧
      (∀ k, 2 ≤ k → boot'.minersInRound k = full'.minersInRound k) ∧
      ∀ k, 2 - 1 ≤ k → boot'.slotsPassedByRound k = full'.slotsPassedByRound k := by
  obtain ⟨d', hd'⟩ : ∃ d', Dpos.init.injectEpochState epochAccess ["a", "b"] ["a", "b"] 2 4 = .ok d' := ⟨_, rfl⟩
  have hcalls : AllAllowed [] ([.update ["a", "b"] 1, .update ["a", "b"] 2] ++ [.update ["a"] 3, .delete 3]) := by
    decide
  obtain ⟨boot', full', h⟩ := epoch_agrees hcalls rfl rfl rfl (fun _ hx => by cases hx) hd' (by decide)
    (.inl fun _ hx => by cases hx; rfl)
  exact ⟨d', boot', full', hd', h⟩

/-- The full node has gone on to round 3 before the other node starts from round 2, and no call
    follows: only the full node knows the committee of round 3. -/
theorem epoch_disagrees : ∃ d' full, AllAllowed [] [.update ["a"] 1, .update ["b"] 2, .update ["a"] 3] ∧
    runCalls [] [.update ["a"] 1, .update ["b"] 2, .update ["a"] 3] = .ok full ∧
    full.minersInRound 2 = .ok ["b"] ∧ full.slotsPassedByRound 2 = .ok 2 ∧
    EndsBefore Dpos.init.minerCache (2 - 1) ∧ Dpos.init.injectEpochState epochAccess ["b"] ["a"] 2 2 = .ok d' ∧
    d'.minerCache.minersInRound 3 ≠ full.minersInRound 3 := by
  refine ⟨_, [⟨["a"], 1, 1⟩, ⟨["b"], 2, 2⟩, ⟨["a"], 3, 3⟩], by decide, rfl, rfl, rfl, ?_, rfl, ?_⟩
  · intro x hx
    cases hx
  · change MinerCache.minersInRound [⟨["b"], 2, 2⟩] 3 ≠ _
    decide

end MinerCache

end Timbre
