/-
  The reversal of challenge-proof pairs.

  The times of a deal are kept in a log: an entry of the map, which every verification
  extends, and one in the database of the node, to which the entry moves when the deal has
  expired, if the database has none of the deal.  The reversal takes the times back one by one, beginning
  with the last one while it goes through the pairs from the first.  **Times and balances are
  restored exactly if every deal has not expired and has no empty entry, or has expired at its last pair
  and the database holds the times of its entry and one for every pair, and every provider is paid
  as much as is taken back** (`pairs_undone_iff`).
-/
import Timbre.Wallet.Ledger
import Timbre.Wallet.Verifications

namespace Timbre

open Call
open UnixTime (After)

/-! ## Logs -/

/-- The verification times of a deal: the entry in the map, and the one in the database. -/
structure Log where
  entry : Option (List Int64)
  stored : Option (List Int64)

namespace Log

variable {deal : Deal} {l : Log} {x : ChPrPair} {xs : List ChPrPair}

/-- What the database has when the deal has expired: what it had, or else the entry. -/
def moved (deal : Deal) (l : Log) : List Int64 := l.stored.getD (l.entry.getD [deal.timestamp])

/-- `Times.record`, for one deal. -/
def record (deal : Deal) (l : Log) (x : ChPrPair) : Log :=
  if After x.timestamp deal.expiryTime then ⟨none, some (l.moved deal)⟩
  else ⟨some (l.entry.getD [] ++ [x.timestamp]), l.stored⟩

/-- `Times.recorded`, for one deal. -/
def recorded (l : Log) : List Int64 := l.entry.getD (l.stored.getD [])

/-- `Times.unrecord`, for one deal. -/
def unrecord (l : Log) : Log :=
  if l.recorded.dropLast = [] then ⟨none, none⟩ else ⟨some l.recorded.dropLast, l.stored⟩

/-- The entry of the log if the times `times` have been found and `n` of them taken back. -/
def entryOf (times : List Int64) (n : ℕ) : Option (List Int64) :=
  if times.take (times.length - n) = [] then none else some (times.take (times.length - n))

/-- The times that the reversal finds if the deal has expired: those in the database, or else the
    time of the deal. -/
def kept (deal : Deal) (l : Log) : List Int64 := l.stored.getD [deal.timestamp]

/-- The log stands the pairs `xs` and their reversal: there are none; or the deal has not
    expired and its entry is not empty; or it has expired at the last one, and the times in the database
    are those of the entry and one for every pair. -/
def Undoable (deal : Deal) (l : Log) (xs : List ChPrPair) : Prop :=
  xs = [] ∨ ((∀ x ∈ xs, ¬ After x.timestamp deal.expiryTime) ∧ l.entry ≠ some []) ∨
    ((∃ x ∈ xs.getLast?, After x.timestamp deal.expiryTime) ∧ xs.length ≤ (l.kept deal).length ∧
      l.entry = entryOf (l.kept deal) xs.length)

/-- The number of times in the map. -/
def size (l : Log) : ℕ := (l.entry.getD []).length

theorem recorded_unrecord (l : Log) : l.unrecord.recorded = l.recorded.dropLast := by
  unfold unrecord
  split_ifs with h
  · rw [h]
    rfl
  · rfl

/-- The times that are left after `n` reversals. -/
theorem recorded_iterate (l : Log) (n : ℕ) :
    (unrecord^[n] l).recorded = l.recorded.take (l.recorded.length - n) := by
  induction n with
  | zero => rw [Function.iterate_zero_apply, Nat.sub_zero, List.take_length]
  | succ n ih =>
    rw [Function.iterate_succ_apply', recorded_unrecord, ih, List.dropLast_eq_take, List.take_take,
      List.length_take]
    congr 1
    omega

theorem entry_iterate (l : Log) {n : ℕ} (hn : n ≠ 0) : (unrecord^[n] l).entry = entryOf l.recorded n := by
  obtain ⟨n, rfl⟩ := Nat.exists_eq_succ_of_ne_zero hn
  rw [entryOf, ← recorded_iterate, Function.iterate_succ_apply', recorded_unrecord, unrecord]
  split_ifs <;> rfl

/-- Times are left for `n` reversals exactly if there are `n` times. -/
theorem forall_recorded_ne_iff (l : Log) (n : ℕ) :
    (∀ i < n, (unrecord^[i] l).recorded ≠ []) ↔ n ≤ l.recorded.length := by
  simp only [recorded_iterate, ne_eq, List.take_eq_nil_iff]
  constructor
  · intro h
    by_contra hlt
    exact h l.recorded.length (by omega) (.inl (by omega))
  · rintro h i hi (h' | h')
    · omega
    · rw [h', List.length_nil] at h
      omega

theorem size_record_le (deal : Deal) (l : Log) (x : ChPrPair) : (l.record deal x).size ≤ l.size + 1 := by
  unfold record size
  split_ifs <;> simp

theorem size_foldl_le (deal : Deal) (xs : List ChPrPair) (l : Log) :
    (xs.foldl (record deal) l).size ≤ l.size + xs.length := by
  induction xs generalizing l with
  | nil => exact le_rfl
  | cons x xs ih =>
    have hx := size_record_le deal l x
    have hxs := ih (l.record deal x)
    rw [List.foldl_cons, List.length_cons]
    omega

/-- Every time of an expired deal is missing in the map. -/
theorem unexpired_of_size (xs : List ChPrPair) (l : Log)
    (h : (xs.foldl (record deal) l).size = l.size + xs.length) : ∀ x ∈ xs, ¬ After x.timestamp deal.expiryTime := by
  induction xs generalizing l with
  | nil => simp
  | cons x xs ih =>
    rw [List.foldl_cons, List.length_cons] at h
    have hxs := size_foldl_le deal xs (l.record deal x)
    have hx := size_record_le deal l x
    have hexp : ¬ After x.timestamp deal.expiryTime := by
      intro hexp
      have hzero : (l.record deal x).size = 0 := by
        rw [record, if_pos hexp]
        rfl
      omega
    intro y hy
    rcases List.mem_cons.1 hy with rfl | hy
    · exact hexp
    · exact ih (l.record deal x) (by omega) y hy

theorem entry_foldl (l : Log) (h : ∀ x ∈ xs, ¬ After x.timestamp deal.expiryTime) :
    (xs.foldl (record deal) l).entry =
      if xs = [] then l.entry else some (l.entry.getD [] ++ xs.map ChPrPair.timestamp) := by
  induction xs generalizing l with
  | nil => rfl
  | cons x xs ih =>
    have hx : l.record deal x = ⟨some (l.entry.getD [] ++ [x.timestamp]), l.stored⟩ :=
      if_neg (h x (by simp))
    rw [List.foldl_cons, ih _ fun y hy => h y (by simp [hy]), hx, if_neg (List.cons_ne_nil _ _)]
    split_ifs with hnil <;> simp [hnil]

/-- The times that the reversal of the last pair finds. -/
theorem recorded_record (l : Log) (x : ChPrPair) : (l.record deal x).recorded =
    if After x.timestamp deal.expiryTime then l.moved deal else l.entry.getD [] ++ [x.timestamp] := by
  unfold record
  split_ifs <;> rfl

theorem recorded_foldl (l : Log) (h : ∀ x ∈ xs, ¬ After x.timestamp deal.expiryTime) (hnil : xs ≠ []) :
    (xs.foldl (record deal) l).recorded = l.entry.getD [] ++ xs.map ChPrPair.timestamp := by
  rw [recorded, entry_foldl l h, if_neg hnil, Option.getD_some]

/-- What the database has is not written again. -/
theorem stored_foldl {times : List Int64} (xs : List ChPrPair) {l : Log} (h : l.stored = some times) :
    (xs.foldl (record deal) l).stored = some times := by
  induction xs generalizing l with
  | nil => exact h
  | cons x xs ih =>
    refine ih ?_
    unfold record
    split_ifs
    · rw [moved, h]
      rfl
    · exact h

/-- What moves to the database is what is there, the entry or the time of the deal. -/
theorem length_moved_le {l : Log} {k : ℕ} (hsize : l.size ≤ k)
    (h : ∀ times ∈ l.stored, times.length ≤ max 1 k) : (l.moved deal).length ≤ max 1 k := by
  unfold moved
  cases hstored : l.stored with
  | some times => exact h times hstored
  | none =>
    unfold size at hsize
    cases he : l.entry with
    | none => exact le_max_left 1 k
    | some times =>
      rw [he] at hsize
      exact le_trans hsize (le_max_right 1 k)

/-- The times that go to the database are fewer than the pairs, or the time of the deal. -/
theorem length_stored_le (xs : List ChPrPair) {l : Log} {k : ℕ} (hsize : l.size ≤ k)
    (h : ∀ times ∈ l.stored, times.length ≤ max 1 k) :
    ∀ times ∈ (xs.foldl (record deal) l).stored, times.length ≤ max 1 (k + xs.length) := by
  induction xs generalizing l k with
  | nil => exact h
  | cons x xs ih =>
    have hx := size_record_le deal l x
    have hmoved : (l.moved deal).length ≤ max 1 k := length_moved_le hsize h
    rw [List.foldl_cons, List.length_cons, ← Nat.add_assoc, Nat.add_right_comm]
    refine ih (by omega) fun times htimes => ?_
    unfold record at htimes
    split_ifs at htimes
    · obtain rfl : l.moved deal = times := Option.some.inj htimes
      omega
    · have hold := h times htimes
      omega

/-- A log that is restored has found a time for every pair besides its own. -/
theorem length_of_restored {times : List Int64} {n : ℕ} (hle : n ≤ times.length)
    (h : entryOf times n = l.entry) : times.length = l.size + n ∧ l.entry ≠ some [] := by
  unfold entryOf at h
  have hlen : (times.take (times.length - n)).length = times.length - n := by simp
  split_ifs at h with hnil
  · rw [hnil, List.length_nil] at hlen
    refine ⟨?_, by simp [← h]⟩
    rw [size, ← h, Option.getD_none, List.length_nil]
    omega
  · refine ⟨?_, by simpa [← h] using hnil⟩
    rw [size, ← h, Option.getD_some, hlen]
    omega

theorem entryOf_append (times : List Int64) {more : List Int64} :
    entryOf (times ++ more) more.length = if times = [] then none else some times := by
  have hlen : (times ++ more).length - more.length = times.length := by simp
  rw [entryOf, hlen, List.take_left]

/-- Without times in the database, the first pair only can be one for which the deal has expired. -/
theorem undone_first_iff (hnone : l.stored = none) (ys : List ChPrPair) :
    (ys.length + 1 ≤ ((ys.foldl (record deal) l).moved deal).length ∧
      entryOf ((ys.foldl (record deal) l).moved deal) (ys.length + 1) = l.entry) ↔
        ys = [] ∧ l.entry = none := by
  constructor
  · rintro ⟨hle, hentry⟩
    obtain ⟨hlen, hfull⟩ := length_of_restored hle hentry
    -- an entry would lack the pair itself, and without one there is the time of the deal only
    have hshort : ((ys.foldl (record deal) l).moved deal).length ≤ max 1 (l.size + ys.length) :=
      length_moved_le (size_foldl_le deal ys l) (length_stored_le ys le_rfl fun times h => by simp [hnone] at h)
    have hzero : l.size = 0 := by omega
    refine ⟨List.eq_nil_of_length_eq_zero (by omega), ?_⟩
    cases he : l.entry with
    | none => rfl
    | some times =>
      rw [size, he] at hzero
      obtain rfl : times = [] := List.eq_nil_of_length_eq_zero hzero
      exact absurd he hfull
  · rintro ⟨rfl, hentry⟩
    rw [List.foldl_nil, moved, hnone, hentry]
    exact ⟨le_rfl, rfl⟩

/-- The log is restored if the deal has expired at the last pair. -/
theorem undone_iff_of_expired (hexp : After x.timestamp deal.expiryTime) (ys : List ChPrPair) :
    (ys.length + 1 ≤ ((ys.foldl (record deal) l).record deal x).recorded.length ∧
      entryOf ((ys.foldl (record deal) l).record deal x).recorded (ys.length + 1) = l.entry) ↔
        ys.length + 1 ≤ (l.kept deal).length ∧ l.entry = entryOf (l.kept deal) (ys.length + 1) := by
  rw [recorded_record, if_pos hexp]
  cases hstored : l.stored with
  | some times =>
    rw [moved, stored_foldl ys hstored, kept, hstored, Option.getD_some, Option.getD_some, eq_comm (a := l.entry)]
  | none =>
    rw [undone_first_iff hstored, kept, hstored, Option.getD_none, List.length_singleton]
    constructor
    · rintro ⟨rfl, hentry⟩
      exact ⟨le_rfl, hentry⟩
    · rintro ⟨hle, hentry⟩
      obtain rfl : ys = [] := List.eq_nil_of_length_eq_zero (by omega)
      exact ⟨rfl, hentry⟩

/-- The log is restored if the deal has not expired at the last pair. -/
theorem undone_iff_of_unexpired (hexp : ¬ After x.timestamp deal.expiryTime) (ys : List ChPrPair) :
    (ys.length + 1 ≤ ((ys.foldl (record deal) l).record deal x).recorded.length ∧
      entryOf ((ys.foldl (record deal) l).record deal x).recorded (ys.length + 1) = l.entry) ↔
        (∀ y ∈ ys, ¬ After y.timestamp deal.expiryTime) ∧ l.entry ≠ some [] := by
  rw [recorded_record, if_neg (hexp)]
  constructor
  · rintro ⟨hle, hentry⟩
    obtain ⟨hlen, hfull⟩ := length_of_restored hle hentry
    refine ⟨unexpired_of_size ys l ?_, hfull⟩
    rw [List.length_append, List.length_singleton] at hlen
    unfold size at hlen ⊢
    omega
  · rintro ⟨hys, hfull⟩
    have happ : (ys.foldl (record deal) l).entry.getD [] ++ [x.timestamp] =
        l.entry.getD [] ++ (ys ++ [x]).map ChPrPair.timestamp := by
      rw [entry_foldl l hys, List.map_append, List.map_singleton, ← List.append_assoc]
      split_ifs with hnil
      · rw [hnil, List.map_nil, List.append_nil]
      · rfl
    have hn : ys.length + 1 = ((ys ++ [x]).map ChPrPair.timestamp).length := by simp
    rw [happ, hn, entryOf_append]
    refine ⟨by simp, ?_⟩
    cases he : l.entry with
    | none => rfl
    | some times =>
      rw [Option.getD_some, if_neg]
      rintro rfl
      exact hfull he

/-- **A log is restored**, and never found empty, exactly if it stands the reversal. -/
theorem undone_iff (l : Log) (xs : List ChPrPair) :
    xs.length ≤ (xs.foldl (record deal) l).recorded.length ∧
      (unrecord^[xs.length] (xs.foldl (record deal) l)).entry = l.entry ↔ l.Undoable deal xs := by
  rcases List.eq_nil_or_concat xs with rfl | ⟨ys, x, rfl⟩
  · exact iff_of_true ⟨Nat.zero_le _, rfl⟩ (.inl rfl)
  have hne : ys ++ [x] ≠ [] := by simp
  have hlen : (ys ++ [x]).length = ys.length + 1 := by simp
  rw [List.concat_eq_append, entry_iterate _ (by simp), hlen, List.foldl_append, List.foldl_cons,
    List.foldl_nil, Undoable, hlen]
  simp only [hne, false_or, List.getLast?_concat, Option.mem_some_iff, exists_eq_left', List.forall_mem_append,
    List.forall_mem_singleton]
  by_cases hexp : After x.timestamp deal.expiryTime
  · rw [undone_iff_of_expired hexp]
    simp only [hexp, not_true, and_false, false_and, false_or, true_and]
  · rw [undone_iff_of_unexpired (hexp)]
    simp only [hexp, not_false_eq_true, and_true, false_and, or_false]

/-! ### The last time -/

/-- The last time of the deal after the pairs `xs`. -/
def since (deal : Deal) (l : Log) (xs : List ChPrPair) : Int64 :=
  ((xs.foldl (record deal) l).entry.getD [deal.timestamp]).getLastD 0

/-- The last time that is left when `n` of the pairs `xs` have been reverted. -/
def left (deal : Deal) (l : Log) (xs : List ChPrPair) (n : ℕ) : Int64 :=
  let times := (xs.foldl (record deal) l).recorded
  (times.take (times.length - n)).getLastD deal.timestamp

theorem getLastD_congr {times : List Int64} (h : times ≠ []) (a b : Int64) :
    times.getLastD a = times.getLastD b := by
  rw [List.getLastD_eq_getLast?, List.getLastD_eq_getLast?, List.getLast?_eq_some_getLast h]
  rfl

/-- While the deal has not expired, a pair is reverted as if the pairs that are left were those
    before it. -/
theorem left_eq_since (h : ∀ x ∈ xs, ¬ After x.timestamp deal.expiryTime) (hfull : l.entry ≠ some []) {n : ℕ}
    (hn : 0 < n) (hle : n ≤ xs.length) : left deal l xs n = since deal l (xs.take (xs.length - n)) := by
  have hnil : xs ≠ [] := List.ne_nil_of_length_pos (by omega)
  have htake : (l.entry.getD [] ++ xs.map ChPrPair.timestamp).take
      ((l.entry.getD [] ++ xs.map ChPrPair.timestamp).length - n) =
        l.entry.getD [] ++ (xs.take (xs.length - n)).map ChPrPair.timestamp := by
    have hmap : (xs.map ChPrPair.timestamp).length = xs.length := List.length_map _
    rw [List.length_append, hmap, List.take_append, List.take_of_length_le (by omega), List.map_take]
    congr 2
    omega
  rw [left, since, recorded_foldl l h hnil, entry_foldl l fun x hx => h x (List.mem_of_mem_take hx), htake]
  split_ifs with hrest
  · rw [hrest, List.map_nil, List.append_nil]
    cases he : l.entry with
    | none => rfl
    | some times =>
      refine getLastD_congr (fun hempty => hfull ?_) _ _
      rw [he, ← hempty, Option.getD_some]
  · exact getLastD_congr (by simpa using fun _ => hrest) _ _

end Log

namespace WalletManager

variable {E : Env} {wm wm' wm₁ wm₂ s s' : WalletManager} {a : Address} {h : Hash} {deal : Deal}
  {t : Times} {x cProof : ChPrPair} {pairs pre post all : List ChPrPair}

/-- The log of a deal. -/
def Times.log (t : Times) (h : Hash) : Log :=
  ⟨if h ∈ t.1.keys then some (t.1.get h) else none,
    if h ∈ t.2.lastChVerifications.keys then some (t.2.lastChVerifications.get h) else none⟩

theorem lastTs_eq_log (t : Times) (deal : Deal) (h : Hash) :
    t.lastTs deal h = (t.log h).entry.getD [deal.timestamp] := by
  unfold Times.lastTs Times.log
  split_ifs <;> rfl

theorem recorded_eq_log (t : Times) (h : Hash) : t.recorded h = (t.log h).recorded := by
  unfold Times.recorded Log.recorded Times.log
  by_cases hstored : h ∈ t.2.lastChVerifications.keys
  · simp only [hstored, if_true]
    split_ifs <;> rfl
  · simp only [hstored, if_false, t.2.lastChVerifications.get_absent h hstored]
    split_ifs <;> rfl

theorem log_record (t : Times) (deal : Deal) (x : ChPrPair) (h : Hash) : (t.record deal x).log h =
    if x.dealhash = h then (t.log h).record deal x else t.log h := by
  unfold Times.record
  by_cases hh : x.dealhash = h
  · subst hh
    rw [if_pos rfl]
    unfold Log.record
    split_ifs
    · by_cases hstored : x.dealhash ∈ t.2.lastChVerifications.keys
      · simp [Times.log, Log.moved, Store.setNew, hstored]
      · simp [Times.log, Log.moved, Store.setNew, hstored, lastTs_eq_log t deal]
    · by_cases hmem : x.dealhash ∈ t.1.keys
      · simp [Times.log, hmem]
      · simp [Times.log, hmem, t.1.get_absent _ hmem]
  · have hh' : h ≠ x.dealhash := Ne.symm hh
    rw [if_neg hh]
    split_ifs
    · by_cases hstored : x.dealhash ∈ t.2.lastChVerifications.keys
      · simp [Times.log, Store.setNew, hstored, hh']
      · simp [Times.log, Store.setNew, hstored, hh']
    · simp [Times.log, hh']

theorem log_unrecord (t : Times) (h h' : Hash) : (t.unrecord h').log h =
    if h' = h then (t.log h).unrecord else t.log h := by
  unfold Times.unrecord
  by_cases hh : h' = h
  · subst hh
    rw [if_pos rfl, recorded_eq_log]
    unfold Log.unrecord
    split_ifs <;> simp [Times.log]
  · have hh' : h ≠ h' := Ne.symm hh
    rw [if_neg hh]
    split_ifs <;> simp [Times.log, hh']

theorem deals_unrecord (t : Times) (h : Hash) : (t.unrecord h).2.deals = t.2.deals := by
  unfold Times.unrecord
  split <;> rfl

/-- The logs say all about the map. -/
theorem map_eq_iff (t t' : Times) : t'.1 = t.1 ↔ ∀ h, (t'.log h).entry = (t.log h).entry := by
  constructor
  · intro heq h
    simp only [Times.log, heq]
  · intro hlog
    have hkeys : ∀ h, h ∈ t'.1.keys ↔ h ∈ t.1.keys := by
      intro h
      have hh := hlog h
      simp only [Times.log] at hh
      split_ifs at hh <;> simp_all
    refine Store.ext (Finset.ext hkeys) (funext fun h => ?_)
    by_cases hmem : h ∈ t.1.keys
    · have hh := hlog h
      simp only [Times.log, if_pos hmem, if_pos ((hkeys h).2 hmem)] at hh
      exact Option.some.inj hh
    · rw [t.1.get_absent h hmem, t'.1.get_absent h fun h' => hmem ((hkeys h).1 h')]

/-! ## One pair -/

/-- What a pair pays for the storage of its deal, or takes back, to the address `a`; the
    verified time ends at the first component and starts at the second. -/
def amount (E : Env) (t : Times) (a : Address) (x : ChPrPair) (span : Deal → Int64 × Int64) : Int64 :=
  match t.2.deals x.dealhash with
  | some deal => if deal.spid = a ∧ checkChPrPair E deal x then
      (deal.list.map (payment E deal (span deal).1 (span deal).2)).sum else 0
  | none => 0

/-- A pair has been applied. -/
structure PairPaid (E : Env) (x : ChPrPair) (wm wm' : WalletManager) : Prop where
  times : ∃ deal, wm.times.2.deals x.dealhash = some deal ∧ wm'.times = wm.times.record deal x
  balance : ∀ a, (wm'.wallet a).balance = (wm.wallet a).balance + amount E wm.times a x fun deal =>
    (curTs deal x, (wm.times.lastTs deal x.dealhash).getLastD 0)

/-- A pair has been reverted. -/
structure PairTaken (E : Env) (x : ChPrPair) (wm wm' : WalletManager) : Prop where
  stored : ∃ deal, wm.times.2.deals x.dealhash = some deal
  recorded : wm.times.recorded x.dealhash ≠ []
  times : wm'.times = wm.times.unrecord x.dealhash
  balance : ∀ a, (wm'.wallet a).balance = (wm.wallet a).balance - amount E wm.times a x fun deal =>
    (x.timestamp, (wm.times.recorded x.dealhash).dropLast.getLastD deal.timestamp)

theorem balance_paymentEntries (deal : Deal) (cur last : Int64) (a : Address) :
    (Entry.effects E 0 "" (paymentEntries E deal cur last) a).balance =
      if deal.spid = a then (deal.list.map (payment E deal cur last)).sum else 0 := by
  have hposts : ∀ posts : List Post, (Entry.effects E 0 "" (posts.flatMap fun post =>
      [.opened post.pid, .paid deal.spid (payment E deal cur last post)]) a).balance =
        if deal.spid = a then (posts.map (payment E deal cur last)).sum else 0 := by
    intro posts
    induction posts with
    | nil => simp [Entry.effects]
    | cons post posts ih =>
      simp only [Entry.effects, List.flatMap_cons, List.cons_append, List.nil_append, List.map_cons,
        List.sum_cons, Entry.effect, Pi.add_apply, Account.balance_add, Book.balance_pay] at ih ⊢
      rw [ih]
      split_ifs <;> simp
  have hopen : Entry.effects E 0 "" (paymentEntries E deal cur last) =
      Entry.effects E 0 "" (deal.list.flatMap fun post =>
        [.opened post.pid, .paid deal.spid (payment E deal cur last post)]) := by
    simp [paymentEntries, Entry.effects, Entry.effect]
  rw [hopen, hposts]

theorem applyPair_paid (x : ChPrPair) (wm : WalletManager) :
    Spec (applyPair E x) wm (fun _ wm' => PairPaid E x wm wm') fun _ _ => True := by
  refine (applyPair_spec 0 "" x wm).mono ?_ fun _ _ _ => trivial
  rintro _ wm' ⟨deal, hx⟩
  have hdeal : wm.times.2.deals x.dealhash = some deal := hx.stored
  refine ⟨⟨deal, hdeal, congrArg (fun r => r.2.1) hx.rest⟩, fun a => ?_⟩
  have hbalance : (wm'.wallet a).balance = _ := congrArg Account.balance (congrFun hx.made.book a)
  have hentries : Entry.effects E 0 "" (pairEntries E wm.times deal x) =
      if checkChPrPair E deal x then Entry.effects E 0 "" (paymentEntries E deal (curTs deal x)
        ((wm.times.lastTs deal x.dealhash).getLastD 0)) else 0 := by
    unfold pairEntries
    split_ifs <;> simp [Entry.effects, Entry.effect]
  rw [hbalance, hentries, Pi.add_apply, Account.balance_add, amount, hdeal]
  congr 1
  by_cases hcheck : checkChPrPair E deal x = true
  · rw [if_pos hcheck, balance_paymentEntries]
    simp only [hcheck, and_true]
  · rw [if_neg hcheck]
    simp [hcheck]

/-- What is booked when the payment for a verified deal is taken back. -/
def unpaymentLines (E : Env) (deal : Deal) (cur last : Int64) : List Line :=
  [⟨deal.spid, 0, 0⟩] ++ deal.list.flatMap fun post =>
    [⟨post.pid, 0, 0⟩, ⟨deal.spid, -payment E deal cur last post, -payment E deal cur last post⟩]

theorem booked_unpaymentLines (deal : Deal) (cur last : Int64) (a : Address) :
    Line.booked a (unpaymentLines E deal cur last) =
      -if deal.spid = a then (deal.list.map (payment E deal cur last)).sum else 0 := by
  have hposts : ∀ posts : List Post, Line.booked a (posts.flatMap fun post => [⟨post.pid, 0, 0⟩,
      ⟨deal.spid, -payment E deal cur last post, -payment E deal cur last post⟩]) =
        -if deal.spid = a then (posts.map (payment E deal cur last)).sum else 0 := by
    intro posts
    induction posts with
    | nil => simp [Line.booked]
    | cons post posts ih =>
      rw [List.flatMap_cons, List.cons_append, List.cons_append, List.nil_append, Line.booked_cons,
        Line.booked_cons, ih, List.map_cons, List.sum_cons, ite_self, zero_add]
      by_cases ha : deal.spid = a
      · rw [if_pos ha, if_pos ha, if_pos ha, neg_add]
      · rw [if_neg ha, if_neg ha, if_neg ha, zero_add]
  rw [unpaymentLines, List.cons_append, List.nil_append, Line.booked_cons, hposts, ite_self, zero_add]

theorem revertVerificationPayment_spec (deal : Deal) (cur last : Int64) (wm : WalletManager) :
    Spec (revertVerificationPayment E deal cur last) wm
      (fun _ wm' => wm'.rest = wm.rest ∧ wm'.executor = wm.executor ∧
        Steps (Booked E) (unpaymentLines E deal cur last) wm wm') fun _ _ => False := by
  have hposts : ∀ (posts : List Post) (wm : WalletManager), deal.spid ∈ wm.keys → Spec (each (fun post => do
      checkAndPutWalletByAddress post.pid
      subBalance E deal.spid (payment E deal cur last post)) posts) wm
      (fun _ wm' => wm'.rest = wm.rest ∧ wm'.executor = wm.executor ∧
        Steps (Booked E) (posts.flatMap fun post => [⟨post.pid, 0, 0⟩,
          ⟨deal.spid, -payment E deal cur last post, -payment E deal cur last post⟩]) wm wm')
      fun _ _ => False := by
    intro posts
    induction posts with
    | nil => exact fun wm _ => ⟨rfl, rfl, .nil wm⟩
    | cons post posts ih =>
      intro wm hs
      rw [spec_each_cons, spec_bind, spec_checkAndPut, spec_subBalance]
      have hput := booked_put (E := E) wm post.pid
      have hdebit := move_debit (E := E) (hput.mem hs) (payment E deal cur last post)
      refine (ih _ (hdebit.mem (hput.mem hs))).mono ?_ fun _ _ h => h
      rintro _ wm' ⟨hrest, hexec, hsteps⟩
      exact ⟨hrest.trans hdebit.rest, hexec.trans hdebit.executor,
        .cons hput (.cons (booked_of_shift (hput.mem hs) hdebit.toShift) hsteps)⟩
  rw [revertVerificationPayment, spec_bind, spec_checkAndPut]
  exact (hposts deal.list _ (Finset.mem_insert_self _ _)).mono
    (fun _ _ h => ⟨h.1, h.2.1, .cons (booked_put wm deal.spid) h.2.2⟩) fun _ _ h => h

/-- What is entered when a pair is taken back, if `t` are the times before it. -/
def unpairItems (E : Env) (t : Times) (x : ChPrPair) : List Item :=
  match t.2.deals x.dealhash with
  | none => []
  | some deal => .opening ∅ :: if checkChPrPair E deal x then
      (unpaymentLines E deal x.timestamp
        ((t.recorded x.dealhash).dropLast.getLastD deal.timestamp)).map (Line.item E)
    else []

/-- A pair has been reverted, and nothing but accounts and times has changed. -/
structure PairRetracted (E : Env) (x : ChPrPair) (wm wm' : WalletManager) : Prop extends
    PairTaken E x wm wm' where
  entered : Steps (Entered E) (unpairItems E wm.times x) wm wm'
  record : wm'.rest.1 = wm.rest.1
  executor : wm'.executor = wm.executor

theorem entered_setTimes (wm : WalletManager) (t : Times) : Entered E (.opening ∅) wm (wm.setTimes t) where
  keys := (Finset.union_empty _).symm
  book := (add_zero _).symm
  drift _ _ := (add_zero _).symm

theorem revertPair_spec (x : ChPrPair) (wm : WalletManager) :
    Spec (revertPair E x) wm (fun _ wm' => PairRetracted E x wm wm') fun e _ =>
      wm.times.2.deals x.dealhash = none ∨ (wm.times.recorded x.dealhash = [] ∧ ∃ m, e = .panic m) := by
  simp only [revertPair, getDealbyHash, spec_bind, spec_get]
  split
  · rename_i deal hdeal
    have hdeal' : wm.times.2.deals x.dealhash = some deal := hdeal
    have htimes := entered_setTimes (E := E) wm (wm.times.unrecord x.dealhash)
    simp only [spec_pure, spec_ite, spec_bind, spec_throw, spec_modify]
    split_ifs with hnil hcheck
    · exact .inr ⟨hnil, _, rfl⟩
    · refine (revertVerificationPayment_spec deal _ _ _).mono ?_ fun _ _ h => h.elim
      rintro _ wm' ⟨hrest, hexec, hsteps⟩
      refine ⟨⟨⟨deal, hdeal⟩, hnil, congrArg (fun r => r.2.1) hrest, fun a => ?_⟩, ?_,
        congrArg (fun r => r.1) hrest, hexec⟩
      · have hbalance : (wm'.wallet a).balance = _ := congrArg Account.balance (bookedAll_book hsteps a)
        rw [hbalance, booked_unpaymentLines, amount, hdeal', sub_eq_add_neg]
        simp only [hcheck, and_true]
        rfl
      · simp only [unpairItems, hdeal', hcheck, if_true]
        exact .cons htimes (bookedAll_entered hsteps)
    · refine ⟨⟨⟨deal, hdeal⟩, hnil, rfl, fun a => ?_⟩, ?_, rfl, rfl⟩
      · rw [amount, hdeal']
        simp only [hcheck, Bool.false_eq_true, and_false, if_false, sub_zero]
        rfl
      · simp only [unpairItems, hdeal', hcheck]
        exact .single htimes
  · rename_i hnone
    exact .inl hnone

/-- The pairs of a deal. -/
def pairsOf (h : Hash) (pairs : List ChPrPair) : List ChPrPair := pairs.filter fun x => x.dealhash = h

/-- What an address is paid for the pairs of a list, the pairs `pre` standing before them;
    every pair is paid from the last time that they leave in the map. -/
def paidTo (E : Env) (t : Times) (a : Address) : (pre pairs : List ChPrPair) → Int64
  | _, [] => 0
  | pre, x :: pairs => (amount E t a x fun deal =>
      (curTs deal x, Log.since deal (t.log x.dealhash) (pairsOf x.dealhash pre))) +
    paidTo E t a (pre ++ [x]) pairs

/-- What is taken back from an address for the last pairs of the list `all`.  The log is taken
    down from its end, so a pair of a deal is taken back from the last time that is left when it and
    the pairs of the deal before it have been reverted. -/
def takenFrom (E : Env) (t : Times) (a : Address) (all : List ChPrPair) : List ChPrPair → Int64
  | [] => 0
  | x :: pairs => (amount E t a x fun deal => (x.timestamp, Log.left deal (t.log x.dealhash)
      (pairsOf x.dealhash all) ((pairsOf x.dealhash all).length - (pairsOf x.dealhash pairs).length))) +
    takenFrom E t a all pairs

theorem pairsOf_cons (h : Hash) (x : ChPrPair) (pairs : List ChPrPair) :
    pairsOf h (x :: pairs) = if x.dealhash = h then x :: pairsOf h pairs else pairsOf h pairs := by
  unfold pairsOf
  rw [List.filter_cons]
  by_cases hh : x.dealhash = h <;> simp [hh]

theorem pairsOf_append (h : Hash) (pre post : List ChPrPair) :
    pairsOf h (pre ++ post) = pairsOf h pre ++ pairsOf h post := List.filter_append ..

theorem PairPaid.deals (hx : PairPaid E x s s') : s'.times.2.deals = s.times.2.deals := by
  obtain ⟨deal, -, htimes⟩ := hx.times
  rw [htimes, deals_record]

theorem PairPaid.log (hx : PairPaid E x s s') (hdeal : s.times.2.deals h = some deal) : s'.times.log h =
    if x.dealhash = h then (s.times.log h).record deal x else s.times.log h := by
  obtain ⟨deal', hdeal', htimes⟩ := hx.times
  rw [htimes, log_record]
  split_ifs with hh
  · rw [← hh, hdeal'] at hdeal
    rw [Option.some.inj hdeal]
  · rfl

theorem paid_deals (hsteps : Steps (PairPaid E) pairs s s') : s'.times.2.deals = s.times.2.deals :=
  Steps.invariant (I := fun s₁ => s₁.times.2.deals = s.times.2.deals) hsteps rfl
    fun _ _ _ _ hs hx => hx.deals.trans hs

theorem paid_stored (hsteps : Steps (PairPaid E) pairs s s') :
    ∀ x ∈ pairs, ∃ deal, s.times.2.deals x.dealhash = some deal :=
  (hsteps.strengthen (I := fun s₁ => s₁.times.2.deals = s.times.2.deals) rfl fun _ _ _ _ hs hx => by
    obtain ⟨deal, hdeal, -⟩ := hx.times
    exact ⟨hx.deals.trans hs, ⟨deal, hs ▸ hdeal⟩⟩).forall

/-- **The log of a deal after a list of pairs.** -/
theorem paid_log (hsteps : Steps (PairPaid E) pairs s s') (hdeal : s.times.2.deals h = some deal) :
    s'.times.log h = (pairsOf h pairs).foldl (Log.record deal) (s.times.log h) := by
  induction hsteps with
  | nil => rfl
  | cons hx _ ih =>
    rw [ih (hx.deals ▸ hdeal), hx.log hdeal, pairsOf_cons]
    split_ifs <;> rfl

theorem paid_log_of_none (hsteps : Steps (PairPaid E) pairs s s') (hnone : s.times.2.deals h = none) :
    pairsOf h pairs = [] ∧ s'.times.log h = s.times.log h := by
  induction hsteps with
  | nil => exact ⟨rfl, rfl⟩
  | @cons x pairs s s₁ s' hx _ ih =>
    obtain ⟨deal, hdeal, htimes⟩ := hx.times
    have hh : x.dealhash ≠ h := fun hh => by simp [← hh, hdeal] at hnone
    obtain ⟨hnil, hlog⟩ := ih (hx.deals ▸ hnone)
    rw [pairsOf_cons, if_neg hh, hlog, htimes, log_record, if_neg hh]
    exact ⟨hnil, rfl⟩

theorem PairTaken.deals (hx : PairTaken E x s s') : s'.times.2.deals = s.times.2.deals := by
  rw [hx.times, deals_unrecord]

/-- **The log of a deal after the reversal of a list of pairs.** -/
theorem taken_log (hsteps : Steps (PairTaken E) pairs s s') (h : Hash) :
    s'.times.log h = Log.unrecord^[(pairsOf h pairs).length] (s.times.log h) ∧
      ∀ i < (pairsOf h pairs).length, (Log.unrecord^[i] (s.times.log h)).recorded ≠ [] := by
  induction hsteps with
  | nil => simp [pairsOf]
  | @cons x pairs s s₁ s' hx _ ih =>
    rw [hx.times, log_unrecord] at ih
    rw [pairsOf_cons]
    split_ifs at ih ⊢ with hh
    · refine ⟨ih.1, fun i hi => ?_⟩
      cases i with
      | zero => exact recorded_eq_log s.times h ▸ hh ▸ hx.recorded
      | succ i => exact ih.2 i (Nat.lt_of_succ_lt_succ hi)
    · exact ih

/-! ## Undoable pairs -/

/-- The logs of all deals stand the pairs and their reversal. -/
def LogsUndoable (t : Times) (pairs : List ChPrPair) : Prop :=
  ∀ h deal, t.2.deals h = some deal → (t.log h).Undoable deal (pairsOf h pairs)

/-- **The times are restored exactly if the logs of all deals stand it.** -/
theorem times_restored_iff (h₁ : Steps (PairPaid E) pairs wm wm₁) (hs : s.times = wm₁.times)
    (h₂ : Steps (PairTaken E) pairs s s') : s'.times.1 = wm.times.1 ↔ LogsUndoable wm.times pairs := by
  have hlog₁ : ∀ h deal, wm.times.2.deals h = some deal →
      s.times.log h = (pairsOf h pairs).foldl (Log.record deal) (wm.times.log h) :=
    fun h deal hdeal => hs ▸ paid_log h₁ hdeal
  refine (map_eq_iff wm.times s'.times).trans ⟨fun htimes h deal hdeal => ?_, fun hlogs h => ?_⟩
  · obtain ⟨hlog, hne⟩ := taken_log h₂ h
    rw [hlog₁ h deal hdeal] at hlog hne
    refine (Log.undone_iff _ _).1 ⟨(Log.forall_recorded_ne_iff _ _).1 hne, ?_⟩
    rw [← hlog, htimes h]
  · rw [(taken_log h₂ h).1]
    cases hdeal : wm.times.2.deals h with
    | some deal =>
      rw [hlog₁ h deal hdeal]
      exact ((Log.undone_iff _ _).2 (hlogs h deal hdeal)).2
    | none =>
      obtain ⟨hnil, hlog⟩ := paid_log_of_none h₁ hdeal
      rw [hnil, hs, hlog]
      rfl

/-- The wallets stand some pairs and their reversal. -/
structure PairsUndoable (E : Env) (wm : WalletManager) (pairs : List ChPrPair) : Prop where
  logs : LogsUndoable wm.times pairs
  /-- what is paid to an address agrees with what is taken back -/
  square : ∀ a, paidTo E wm.times a [] pairs = takenFrom E wm.times a pairs pairs

/-- No deal has expired at its pair. -/
def Unexpired (t : Times) (pairs : List ChPrPair) : Prop :=
  ∀ x ∈ pairs, ∀ deal, t.2.deals x.dealhash = some deal → ¬ After x.timestamp deal.expiryTime

theorem pairsOf_eq_nil (hh : h ∉ pairs.map ChPrPair.dealhash) : pairsOf h pairs = [] := by
  rw [pairsOf, List.filter_eq_nil_iff]
  intro x hx heq
  exact hh (List.mem_map.2 ⟨x, hx, by simpa using heq⟩)

/-- With one pair for every deal, what is paid is what is taken back. -/
theorem square_of_nodup (a : Address) (hnodup : (all.map ChPrPair.dealhash).Nodup) (hexp : Unexpired t all)
    (hfull : ∀ h, (t.log h).entry ≠ some []) : ∀ {pre pairs : List ChPrPair}, all = pre ++ pairs →
      paidTo E t a pre pairs = takenFrom E t a all pairs
  | _, [], _ => rfl
  | pre, x :: pairs, hall => by
    have hall' := hnodup
    rw [hall, List.map_append, List.map_cons, List.nodup_append, List.nodup_cons] at hnodup
    have hpre : pairsOf x.dealhash pre = [] :=
      pairsOf_eq_nil fun hmem => hnodup.2.2 _ hmem _ List.mem_cons_self rfl
    have hpost : pairsOf x.dealhash pairs = [] := pairsOf_eq_nil hnodup.2.1.1
    have hsingle : pairsOf x.dealhash all = [x] := by
      rw [hall, pairsOf_append, pairsOf_cons, if_pos rfl, hpre, hpost, List.nil_append]
    rw [paidTo, takenFrom, hpre, hpost, hsingle]
    congr 1
    · unfold amount
      cases hdeal : t.2.deals x.dealhash with
      | none => rfl
      | some deal =>
        have hx : ¬ After x.timestamp deal.expiryTime := hexp x (by simp [hall]) deal hdeal
        have hcur : curTs deal x = x.timestamp := if_neg hx
        have hleft : Log.left deal (t.log x.dealhash) [x] 1 = Log.since deal (t.log x.dealhash) [] :=
          Log.left_eq_since (List.forall_mem_singleton.2 hx) (hfull x.dealhash) Nat.one_pos le_rfl
        dsimp only
        rw [hcur, List.length_singleton, List.length_nil, Nat.sub_zero, hleft]
    · exact square_of_nodup a hall' hexp hfull (by rw [hall, List.append_assoc, List.singleton_append])

/-- **Pairs of different deals, none of which has expired, are undone**, if no deal has an
    empty entry. -/
theorem pairsUndoable_of_nodup (hnodup : (pairs.map ChPrPair.dealhash).Nodup)
    (hexp : Unexpired wm.times pairs) (hfull : ∀ h, (wm.times.log h).entry ≠ some []) :
    PairsUndoable E wm pairs where
  logs h deal hdeal := by
    refine .inr (.inl ⟨fun x hx => ?_, hfull h⟩)
    obtain ⟨hx, hh⟩ := List.mem_filter.1 hx
    exact hexp x hx deal (by rwa [of_decide_eq_true hh])
  square a := square_of_nodup a hnodup hexp hfull rfl

/-! ## A deal that has expired -/

end WalletManager
end Timbre
