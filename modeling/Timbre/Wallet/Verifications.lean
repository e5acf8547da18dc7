/-
  The payments for verified storage.

  A verification is paid from the last recorded time of its deal, and the recorded times are
  dropped once the deal has expired.  **The payments for a deal stay within the costs of its
  posts as long as every verified pair comes in its turn** (`verificationPayments_bounded`).
-/
import Mathlib.Data.Int.ConditionallyCompleteOrder
import Mathlib.Data.List.TakeWhile
import Mathlib.Order.ConditionallyCompleteLattice.Basic
import Timbre.Wallet.Run
import Timbre.Lib.Prorate

namespace Timbre

open Call UnixTime

namespace WalletManager

/-! ## Amounts -/

/-- The payment for one post, computed exactly and then truncated. -/
def exactAmount (maxCost : UInt32) (curTs lastTs totalDealTime : Int64) : Int64 :=
  Int64.ofInt ((maxCost.toNat * elapsed curTs lastTs).tdiv (totalDealTime.toInt * 10 ^ 9))

variable {E : Env} {h : Hash} {deal : Deal} {wm wm' s s' : WalletManager}
  {pairs : List ChPrPair}

/-- The exact share of the maximal cost of a post. -/
def dueShare (deal : Deal) (post : Post) (curTs lastTs : Int64) : ℤ :=
  post.maxCost.toNat * elapsed curTs lastTs /
    ((deal.expiryTime.toInt - deal.timestamp.toInt) * 10 ^ 9)

/-- The duration of the deal does not wrap, and neither do the points in time between its ends, of which
    `time.Unix` makes a count from the year one. -/
structure Deal.Fits (deal : Deal) : Prop where
  duration : deal.expiryTime.toInt - deal.timestamp.toInt < 2 ^ 63
  ordered : ¬ After deal.timestamp deal.expiryTime

/-- The time that passes in a stretch within the time of the deal. -/
theorem elapsed_within (hfits : Deal.Fits deal) {curTs lastTs : Int64} (hlo : deal.timestamp ≤ lastTs)
    (hle : lastTs ≤ curTs) (hhi : curTs ≤ deal.expiryTime) :
    0 ≤ elapsed curTs lastTs ∧ elapsed curTs lastTs ≤ (curTs.toInt - lastTs.toInt) * 10 ^ 9 := by
  have hcur := sub_of_le hfits.ordered (Int64.le_trans hlo hle) hhi
  have hlast := sub_of_le hfits.ordered hlo (Int64.le_trans hle hhi)
  have hle' := Int64.le_iff_toInt_le.1 hle
  unfold elapsed
  omega

/-! ## The payments of a run -/

/-- A payment for the storage of a deal, with the wallets before it and after it. -/
structure Payment where
  curTs : Int64
  lastTs : Int64
  before : WalletManager
  after : WalletManager

/-- The rounds of the loop of `ApplyChPrPair`, with the payments for the deal. -/
inductive PayTrace (E : Env) (h : Hash) (deal : Deal) :
    List ChPrPair → List Payment → WalletManager → WalletManager → Prop
  | nil (s : WalletManager) : PayTrace E h deal [] [] s s
  | unpaid {cProof : ChPrPair} {pairs : List ChPrPair} {ps : List Payment} {s s₁ s' : WalletManager} :
      (cProof.dealhash = h → checkChPrPair E deal cProof = false) →
      applyPair E cProof s = (.ok (), s₁) → PayTrace E h deal pairs ps s₁ s' →
      PayTrace E h deal (cProof :: pairs) ps s s'
  | paid {cProof : ChPrPair} {pairs : List ChPrPair} {ps : List Payment} {last : Int64}
      {s s₁ s' : WalletManager} :
      cProof.dealhash = h → checkChPrPair E deal cProof = true →
      (s.times.lastTs deal h).getLast? = some last →
      applyPair E cProof s = (.ok (), s₁) →
      verificationPayment E deal (curTs deal cProof) last (s.setTimes (s.times.record deal cProof)) =
        (.ok (), s₁) →
      PayTrace E h deal pairs ps s₁ s' →
      PayTrace E h deal (cProof :: pairs)
        (⟨curTs deal cProof, last, s.setTimes (s.times.record deal cProof), s₁⟩ :: ps) s s'

/-- The provider has been credited for every post. -/
def Payment.Booked (E : Env) (deal : Deal) (p : Payment) : Prop :=
  ∀ bRound miner, AllMade E bRound miner (paymentEntries E deal p.curTs p.lastTs) p.before p.after

/-- What is credited for the deal, post by post. -/
def totalPaid (E : Env) (deal : Deal) (ps : List Payment) : ℤ :=
  (deal.list.map fun post => (ps.map fun p => (payment E deal p.curTs p.lastTs post).toInt).sum).sum

/-- The payments for a deal are bounded. -/
structure Bounded (E : Env) (deal : Deal) (ps : List Payment) : Prop where
  nonneg : ∀ p ∈ ps, ∀ post ∈ deal.list, 0 ≤ payment E deal p.curTs p.lastTs post
  total : 0 ≤ totalPaid E deal ps ∧ totalPaid E deal ps ≤ (deal.list.map fun post => (post.maxCost.toNat : ℤ)).sum
  /-- no second is paid for twice -/
  once : ps.Pairwise fun p q =>
    Disjoint (Set.Ioc p.lastTs.toInt p.curTs.toInt) (Set.Ioc q.lastTs.toInt q.curTs.toInt)

/-- A call of `ApplyChPrPair` that returns, with an error or not. -/
def Called (E : Env) (pairs : List ChPrPair) (s s' : WalletManager) : Prop :=
  ∃ r, applyChPrPair E pairs s = (r, s') ∧ ∀ i m, r ≠ .error (i, .panic m)

/-- The pairs that a call looks at: those before one whose deal is missing. -/
def known (deals : Hash → Option Deal) (pairs : List ChPrPair) : List ChPrPair :=
  pairs.takeWhile fun cProof => (deals cProof.dealhash).isSome

theorem deals_record (t : Times) (deal : Deal) (cProof : ChPrPair) :
    (t.record deal cProof).2.deals = t.2.deals := by
  unfold Times.record
  split <;> rfl

theorem deals_applyPair {cProof : ChPrPair} (hx : applyPair E cProof s = (.ok (), s')) :
    s'.node.deals = s.node.deals := by
  obtain ⟨deal, hdeal⟩ := (applyPair_spec 0 "" cProof s).ok hx
  have hnode : s'.node = (s.times.record deal cProof).2 := congrArg (fun r => r.2.1.2) hdeal.rest
  rw [hnode, deals_record]
  rfl

/-- The rounds of a call. -/
theorem Called.steps (hcall : Called E pairs s s') :
    Steps (fun cProof s s' => applyPair E cProof s = (.ok (), s')) (known s.node.deals pairs) s s' ∧
      s'.node.deals = s.node.deals := by
  obtain ⟨r, hr, hpanic⟩ := hcall
  have hround : ∀ cProof ∈ pairs, ∀ s₁, s₁.node.deals = s.node.deals →
      Spec (applyPair E cProof) s₁
        (fun _ s₂ => s₂.node.deals = s.node.deals ∧
          (applyPair E cProof s₁ = (.ok (), s₂) ∧ (s.node.deals cProof.dealhash).isSome))
        fun e s₂ => (s₂ = s₁ ∧ s.node.deals cProof.dealhash = none) ∨ ∃ m, e = .panic m := by
    intro cProof _ s₁ hs₁
    refine ((applyPair_spec 0 "" cProof s₁).and (Spec.self _ _)).mono ?_ fun e s₂ h => hs₁ ▸ h.1
    rintro _ s₂ ⟨⟨deal, hdeal⟩, hok⟩
    refine ⟨(deals_applyPair hok).trans hs₁, hok, ?_⟩
    rw [← hs₁, hdeal.stored]
    rfl
  have hspec := forEach_spec hround rfl
  rcases r with ie | _
  · obtain ⟨pre, cProof, post, s₁, rfl, -, hpre, hs₁, ⟨rfl, hnone⟩ | ⟨m, hm⟩⟩ := hspec.error hr
    · have hknown : known s.node.deals (pre ++ cProof :: post) = pre := by
        rw [known, List.takeWhile_append_of_pos, List.takeWhile_cons_of_neg, List.append_nil]
        · simp [hnone]
        · exact (hpre.mono fun x _ _ _ h => h.2).forall
      rw [hknown]
      exact ⟨hpre.mono fun _ _ _ _ h => h.1, hs₁⟩
    · exact absurd (by rw [← hm]) (hpanic ie.1 m)
  · obtain ⟨hs', hsteps⟩ := hspec.ok hr
    have hknown : known s.node.deals pairs = pairs :=
      List.takeWhile_eq_self_iff.2 (hsteps.mono fun x _ _ _ h => h.2).forall
    rw [hknown]
    exact ⟨hsteps.mono fun _ _ _ _ h => h.1, hs'⟩

/-- The calls of a run, round by round. -/
theorem steps_of_calls {calls : List (List ChPrPair)} (hcalls : Steps (Called E) calls s s') :
    Steps (fun cProof s s' => applyPair E cProof s = (.ok (), s'))
      (calls.flatMap (known s.node.deals)) s s' := by
  refine Steps.flatMap (hcalls.strengthen (I := fun s₁ => s₁.node.deals = s.node.deals) rfl ?_)
  intro pairs _ s₁ s₂ hs₁ hcall
  obtain ⟨hsteps, hdeals⟩ := hcall.steps
  exact ⟨hdeals.trans hs₁, hs₁ ▸ hsteps⟩

/-! ## The times of a deal -/

/-- The last time of the deal after a pair. -/
def recordedTs (deal : Deal) (cProof : ChPrPair) : Int64 :=
  if After cProof.timestamp deal.expiryTime then deal.timestamp else cProof.timestamp

theorem lastTs_record (t : Times) {cProof : ChPrPair} (hh : cProof.dealhash = h) :
    ((t.record deal cProof).lastTs deal h).getLast? = some (recordedTs deal cProof) := by
  subst hh
  unfold Times.record recordedTs
  split_ifs with hexp
  · simp [Times.lastTs]
  · simp [Times.lastTs]

theorem lastTs_record_of_ne (t : Times) {deal' : Deal} {cProof : ChPrPair} (hh : cProof.dealhash ≠ h) :
    (t.record deal' cProof).lastTs deal h = t.lastTs deal h := by
  have hh' : h ≠ cProof.dealhash := Ne.symm hh
  unfold Times.record
  split_ifs
  · simp [Times.lastTs, hh']
  · simp [Times.lastTs, hh']

/-- What a round does to the last time of the deal. -/
theorem lastTs_applyPair {cProof : ChPrPair} {last : Int64} (hdeal : s.node.deals h = some deal)
    (hlast : (s.times.lastTs deal h).getLast? = some last)
    (hx : applyPair E cProof s = (.ok (), s')) : (s'.times.lastTs deal h).getLast? =
      some (if cProof.dealhash = h then recordedTs deal cProof else last) := by
  obtain ⟨deal', hx⟩ := (applyPair_spec 0 "" cProof s).ok hx
  have htimes : s'.times = s.times.record deal' cProof := congrArg (fun r => r.2.1) hx.rest
  rw [htimes]
  split_ifs with hh
  · have hstored := hx.stored
    rw [hh, hdeal, Option.some_inj] at hstored
    subst hstored
    exact lastTs_record s.times hh
  · rw [lastTs_record_of_ne s.times hh, hlast]

/-- A round with a proof of the deal that verifies makes a payment. -/
theorem applyPair_pays {cProof : ChPrPair} {last : Int64} (hdeal : s.node.deals h = some deal)
    (hh : cProof.dealhash = h) (hcheck : checkChPrPair E deal cProof = true)
    (hlast : (s.times.lastTs deal h).getLast? = some last)
    (hx : applyPair E cProof s = (.ok (), s')) :
    verificationPayment E deal (curTs deal cProof) last (s.setTimes (s.times.record deal cProof)) =
      (.ok (), s') := by
  subst hh
  unfold applyPair at hx
  obtain ⟨d, s₁, hd, hx⟩ := bind_ok hx
  have hget : getDealbyHash cProof.dealhash s = (.ok deal, s) := by
    unfold getDealbyHash
    rw [get_bind, hdeal]
    rfl
  rw [hget] at hd
  cases hd
  rw [get_bind, if_pos hcheck, hlast] at hx
  exact hx

/-- The rounds of a run, with the payments for the deal. -/
theorem exists_payTrace {last : Int64}
    (hsteps : Steps (fun cProof s s' => applyPair E cProof s = (.ok (), s')) pairs s s') :
    s.node.deals h = some deal → (s.times.lastTs deal h).getLast? = some last →
      ∃ ps, PayTrace E h deal pairs ps s s' ∧ ∀ p ∈ ps, p.Booked E deal := by
  induction hsteps generalizing last with
  | nil => exact fun _ _ => ⟨[], .nil _, by simp⟩
  | @cons cProof pairs s s₁ s' hx _ ih =>
    intro hdeal hlast
    obtain ⟨ps, htrace, hps⟩ := ih (by rw [deals_applyPair hx, hdeal]) (lastTs_applyPair hdeal hlast hx)
    by_cases hpays : cProof.dealhash = h ∧ checkChPrPair E deal cProof = true
    · have hpay := applyPair_pays hdeal hpays.1 hpays.2 hlast hx
      refine ⟨_, .paid hpays.1 hpays.2 hlast hx hpay htrace, ?_⟩
      simp only [List.mem_cons, forall_eq_or_imp]
      exact ⟨fun bRound miner => ((verificationPayment_spec bRound miner deal _ last _).ok hpay).made, hps⟩
    · rw [not_and, Bool.not_eq_true] at hpays
      exact ⟨ps, .unpaid hpays hx htrace, hps⟩

/-- The stretches of time that are paid for, the last time of the deal being `last`. -/
def stretches (E : Env) (h : Hash) (deal : Deal) : Int64 → List ChPrPair → List (Int64 × Int64)
  | _, [] => []
  | last, cProof :: pairs =>
    if cProof.dealhash = h then
      if checkChPrPair E deal cProof then
        (last, curTs deal cProof) :: stretches E h deal (recordedTs deal cProof) pairs
      else stretches E h deal (recordedTs deal cProof) pairs
    else stretches E h deal last pairs

theorem PayTrace.stretches_eq {ps : List Payment} {last : Int64} (htrace : PayTrace E h deal pairs ps s s') :
    s.node.deals h = some deal → (s.times.lastTs deal h).getLast? = some last →
      ps.map (fun p => (p.lastTs, p.curTs)) = stretches E h deal last pairs := by
  induction htrace generalizing last with
  | nil => exact fun _ _ => rfl
  | unpaid hunpaid hx _ ih =>
    intro hdeal hlast
    rw [ih (by rw [deals_applyPair hx, hdeal]) (lastTs_applyPair hdeal hlast hx), stretches]
    split_ifs with hh hcheck
    · simp [hunpaid hh] at hcheck
    · rfl
    · rfl
  | paid hh hcheck hlast' hx _ _ ih =>
    intro hdeal hlast
    rw [hlast, Option.some_inj] at hlast'
    subst hlast'
    rw [List.map_cons, ih (by rw [deals_applyPair hx, hdeal]) (lastTs_applyPair hdeal hlast hx),
      if_pos hh, stretches, if_pos hh, if_pos hcheck]

/-! ## When the payments are bounded -/

/-- Every proof of the deal that verifies finds the last time of the deal, `lastTs`, neither
    before the end of what has been paid, `paidTs`, nor after its own time. -/
def InTurn (E : Env) (h : Hash) (deal : Deal) : (lastTs paidTs : Int64) → List ChPrPair → Prop
  | _, _, [] => True
  | lastTs, paidTs, cProof :: pairs =>
    if cProof.dealhash = h then
      if checkChPrPair E deal cProof then
        ¬ After paidTs lastTs ∧ ¬ After lastTs (curTs deal cProof) ∧
          InTurn E h deal (recordedTs deal cProof) (curTs deal cProof) pairs
      else InTurn E h deal (recordedTs deal cProof) paidTs pairs
    else InTurn E h deal lastTs paidTs pairs

instance InTurn.decidable : ∀ (pairs : List ChPrPair) (lastTs paidTs : Int64),
    Decidable (InTurn E h deal lastTs paidTs pairs)
  | [], _, _ => .isTrue trivial
  | cProof :: pairs, lastTs, paidTs =>
    letI := InTurn.decidable pairs (recordedTs deal cProof) (curTs deal cProof)
    letI := InTurn.decidable pairs (recordedTs deal cProof) paidTs
    letI := InTurn.decidable pairs lastTs paidTs
    inferInstanceAs (Decidable (if cProof.dealhash = h then
      if checkChPrPair E deal cProof then
        ¬ After paidTs lastTs ∧ ¬ After lastTs (curTs deal cProof) ∧
          InTurn E h deal (recordedTs deal cProof) (curTs deal cProof) pairs
      else InTurn E h deal (recordedTs deal cProof) paidTs pairs
    else InTurn E h deal lastTs paidTs pairs))

theorem not_after_curTs (deal : Deal) (cProof : ChPrPair) : ¬ After (curTs deal cProof) deal.expiryTime := by
  unfold curTs
  split_ifs with h
  · exact not_after_self _
  · exact h

/-- Two points in time between the ends of the deal are in the order of their seconds. -/
theorem le_of_not_after (hexp : deal.timestamp < deal.expiryTime) (hfits : Deal.Fits deal) {ts ts' : Int64}
    (hlo : ¬ After deal.timestamp ts) (hle : ¬ After ts ts') (hhi : ¬ After ts' deal.expiryTime) :
    ts.toInt ≤ ts'.toInt := by
  have h := sub_of_between (Int64.le_of_lt hexp) hfits.ordered hlo (not_after_trans hle hhi)
  have h' := sub_of_between (Int64.le_of_lt hexp) hfits.ordered (not_after_trans hlo hle) hhi
  rw [not_after_iff] at hle
  omega

/-- Pairs that come in their turn are paid for stretches that follow one another. -/
theorem InTurn.staggered (hexp : deal.timestamp < deal.expiryTime) (hfits : Deal.Fits deal) :
    ∀ {pairs : List ChPrPair} {lastTs paidTs : Int64}, InTurn E h deal lastTs paidTs pairs →
      ¬ After deal.timestamp paidTs → ¬ After paidTs deal.expiryTime →
      Prorate.Staggered deal.expiryTime.toInt paidTs.toInt
        ((stretches E h deal lastTs pairs).map fun x => (x.1.toInt, x.2.toInt))
  | [], _, _, _, hlo, hhi => le_of_not_after hexp hfits hlo hhi (not_after_self _)
  | cProof :: pairs, lastTs, paidTs, hturn, hlo, hhi => by
    have hcur := not_after_curTs deal cProof
    unfold InTurn at hturn
    unfold stretches
    split_ifs at hturn ⊢
    · obtain ⟨hpaid, hlast, hturn⟩ := hturn
      have hlo' := not_after_trans hlo hpaid
      exact ⟨le_of_not_after hexp hfits hlo hpaid (not_after_trans hlast hcur),
        le_of_not_after hexp hfits hlo' hlast hcur,
        hturn.staggered hexp hfits (not_after_trans hlo' hlast) hcur⟩
    · exact hturn.staggered hexp hfits hlo hhi
    · exact hturn.staggered hexp hfits hlo hhi

theorem toInt_duration (hexp : deal.timestamp < deal.expiryTime) (hfits : Deal.Fits deal) :
    (deal.expiryTime - deal.timestamp).toInt = deal.expiryTime.toInt - deal.timestamp.toInt := by
  have hlt := Int64.lt_iff_toInt_lt.1 hexp
  have hduration := hfits.duration
  rw [Int64.toInt_sub, Int.bmod_eq_of_le] <;> omega

/-- What is paid for a stretch within the time of the deal. -/
theorem payment_eq (hE : E.chargedAmount = exactAmount) (hfits : Deal.Fits deal) {curTs lastTs : Int64}
    (hlo : deal.timestamp ≤ lastTs) (hle : lastTs ≤ curTs) (hhi : curTs ≤ deal.expiryTime)
    (hexp : deal.timestamp < deal.expiryTime) (post : Post) :
    (payment E deal curTs lastTs post).toInt = dueShare deal post curTs lastTs ∧
      0 ≤ dueShare deal post curTs lastTs := by
  have hwhole : 0 < (deal.expiryTime.toInt - deal.timestamp.toInt) * 10 ^ 9 := by
    have := Int64.lt_iff_toInt_lt.1 hexp
    omega
  obtain ⟨hdur, h₁⟩ := elapsed_within hfits hlo hle hhi
  have hdur' : elapsed curTs lastTs ≤ (deal.expiryTime.toInt - deal.timestamp.toInt) * 10 ^ 9 := by
    have h₂ := Int64.le_iff_toInt_le.1 hlo
    have h₃ := Int64.le_iff_toInt_le.1 hhi
    omega
  have hnum : (0 : ℤ) ≤ post.maxCost.toNat * elapsed curTs lastTs :=
    mul_nonneg (Int.natCast_nonneg _) hdur
  have hshare : dueShare deal post curTs lastTs ≤ post.maxCost.toNat := by
    have hparts : [elapsed curTs lastTs].sum ≤ (deal.expiryTime.toInt - deal.timestamp.toInt) * 10 ^ 9 := by
      simpa using hdur'
    have := Prorate.sum_share_le (Int.natCast_nonneg post.maxCost.toNat) hwhole hparts
    simpa [dueShare] using this
  have hcost : post.maxCost.toNat < 2 ^ 32 := post.maxCost.toNat_lt
  have hnonneg : 0 ≤ dueShare deal post curTs lastTs := Int.ediv_nonneg hnum hwhole.le
  refine ⟨?_, hnonneg⟩
  rw [payment, hE, exactAmount, toInt_duration hexp hfits, Int.tdiv_eq_ediv_of_nonneg hnum, ← dueShare,
    Int64.toInt_ofInt_of_le] <;> omega

theorem sum_elapsed_le (hfits : Deal.Fits deal) (ps : List Payment)
    (hps : ∀ p ∈ ps, deal.timestamp ≤ p.lastTs ∧ p.lastTs ≤ p.curTs ∧ p.curTs ≤ deal.expiryTime) :
    (ps.map fun p => elapsed p.curTs p.lastTs).sum ≤
      (ps.map fun p => p.curTs.toInt - p.lastTs.toInt).sum * 10 ^ 9 := by
  rw [← List.sum_map_mul_right]
  exact List.sum_le_sum fun p hp => (elapsed_within hfits (hps p hp).1 (hps p hp).2.1 (hps p hp).2.2).2

/-- Payments for stretches that follow one another are bounded. -/
theorem bounded_of_staggered (hE : E.chargedAmount = exactAmount) (hexp : deal.timestamp < deal.expiryTime)
    (hfits : Deal.Fits deal) {ps : List Payment}
    (hps : Prorate.Staggered deal.expiryTime.toInt deal.timestamp.toInt
      (ps.map fun p => (p.lastTs.toInt, p.curTs.toInt))) : Bounded E deal ps := by
  have hmem : ∀ p ∈ ps, deal.timestamp ≤ p.lastTs ∧ p.lastTs ≤ p.curTs ∧ p.curTs ≤ deal.expiryTime := by
    intro p hp
    have := hps.mem (List.mem_map_of_mem hp)
    simpa only [Int64.le_iff_toInt_le] using this
  have hpay : ∀ p ∈ ps, ∀ post, (payment E deal p.curTs p.lastTs post).toInt =
      dueShare deal post p.curTs p.lastTs ∧ 0 ≤ dueShare deal post p.curTs p.lastTs :=
    fun p hp => payment_eq hE hfits (hmem p hp).1 (hmem p hp).2.1 (hmem p hp).2.2 hexp
  have hwhole : 0 < (deal.expiryTime.toInt - deal.timestamp.toInt) * 10 ^ 9 := by
    have := Int64.lt_iff_toInt_lt.1 hexp
    omega
  have hparts : (ps.map fun p => elapsed p.curTs p.lastTs).sum ≤
      (deal.expiryTime.toInt - deal.timestamp.toInt) * 10 ^ 9 := by
    have hsum := hps.sum_le
    rw [List.map_map] at hsum
    exact (sum_elapsed_le hfits ps hmem).trans
      (mul_le_mul_of_nonneg_right hsum (by norm_num))
  refine ⟨fun p hp post _ => ?_, ⟨?_, ?_⟩, ?_⟩
  · rw [Int64.le_iff_toInt_le, (hpay p hp post).1]
    exact (hpay p hp post).2
  · refine List.sum_nonneg fun x hx => ?_
    obtain ⟨post, -, rfl⟩ := List.mem_map.1 hx
    refine List.sum_nonneg fun y hy => ?_
    obtain ⟨p, hp, rfl⟩ := List.mem_map.1 hy
    exact (hpay p hp post).1.symm ▸ (hpay p hp post).2
  · refine List.sum_le_sum fun post _ => ?_
    rw [List.map_congr_left fun p hp => (hpay p hp post).1]
    have hshare := Prorate.sum_share_le (Int.natCast_nonneg post.maxCost.toNat) hwhole hparts
    rwa [List.map_map] at hshare
  · have hdisjoint := hps.disjoint
    rwa [List.pairwise_map] at hdisjoint

/-- **The payments for a deal are bounded** in every run of calls that looks at its pairs in
    their turn.  Every run has its payments, and they are booked. -/
theorem verificationPayments_bounded (E : Env) (hE : E.chargedAmount = exactAmount) (h : Hash)
    (deal : Deal) (hexp : deal.timestamp < deal.expiryTime) (calls : List (List ChPrPair))
    (s s' : WalletManager) (hdeal : s.node.deals h = some deal)
    (hnew : h ∉ s.lastChVerificationTime.keys) (hcalls : Steps (Called E) calls s s')
    (hfits : Deal.Fits deal)
    (hturn : InTurn E h deal deal.timestamp deal.timestamp (calls.flatMap (known s.node.deals))) :
    (∃ ps, PayTrace E h deal (calls.flatMap (known s.node.deals)) ps s s' ∧
        ∀ p ∈ ps, p.Booked E deal) ∧
      ∀ ps, PayTrace E h deal (calls.flatMap (known s.node.deals)) ps s s' → Bounded E deal ps := by
  have hlast : (s.times.lastTs deal h).getLast? = some deal.timestamp := by
    have hmem : h ∉ s.times.1.keys := hnew
    rw [Times.lastTs, if_neg hmem]
    rfl
  refine ⟨exists_payTrace (steps_of_calls hcalls) hdeal hlast, fun ps htrace => ?_⟩
  refine bounded_of_staggered hE hexp hfits ?_
  have hps := hturn.staggered hexp hfits (not_after_self _) hfits.ordered
  rw [← htrace.stretches_eq hdeal hlast, List.map_map] at hps
  exact hps

/-! ## A deal that is paid twice -/

/-- The functions of a simple network, the payments computed exactly. -/
def exactEnv : Env := { Env.simple with chargedAmount := exactAmount }

/-- A deal of `"s"`, who stores one post for 100 seconds. -/
def storageDeal : Deal :=
  { list := [⟨"a", "a", 100, "", ""⟩], spid := "s", spSig := "", publicKey := "", timestamp := 0,
    expiryTime := 100 }

/-- A proof for the deal that verifies. -/
def proofAt (timestamp : Int64) : ChPrPair :=
  { dealhash := "d", timestamp, challenge := "", proof := some "" }

/-- The wallets of a node that has stored the deal. -/
def storing : WalletManager :=
  { newWalletManager "s" with node := ⟨fun h => if h = "d" then some storageDeal else none, .empty⟩ }

/-- The wallets after a call. -/
def afterPairs (pairs : List ChPrPair) (s : WalletManager) : WalletManager :=
  (applyChPrPair exactEnv pairs s).2

theorem called_afterPairs (hok : (applyChPrPair exactEnv pairs s).1 = .ok ()) :
    Called exactEnv pairs s (afterPairs pairs s) :=
  ⟨.ok (), Prod.ext hok rfl, fun _ _ h => by cases h⟩

theorem verificationPayments_bounded_storage :
    (∃ ps, PayTrace exactEnv "d" storageDeal ([[proofAt 50, proofAt 200]].flatMap (known storing.node.deals))
        ps storing (afterPairs [proofAt 50, proofAt 200] storing) ∧ ∀ p ∈ ps, p.Booked exactEnv storageDeal) ∧
      ∀ ps, PayTrace exactEnv "d" storageDeal ([[proofAt 50, proofAt 200]].flatMap (known storing.node.deals))
        ps storing (afterPairs [proofAt 50, proofAt 200] storing) → Bounded exactEnv storageDeal ps :=
  verificationPayments_bounded exactEnv rfl "d" storageDeal (by decide) _ _ _ rfl (by decide)
    (.single (called_afterPairs (by decide +kernel))) ⟨by decide, by decide +kernel⟩
    (by decide +kernel)

/-- After a deal has expired, its whole time is paid for again with every proof. -/
theorem not_bounded : ¬ ∀ (E : Env) (_ : E.chargedAmount = exactAmount) (h : Hash) (deal : Deal)
    (_ : deal.timestamp < deal.expiryTime) (calls : List (List ChPrPair)) (s s' : WalletManager)
    (ps : List Payment), s.node.deals h = some deal → h ∉ s.lastChVerificationTime.keys →
    Steps (Called E) calls s s' → PayTrace E h deal (calls.flatMap (known s.node.deals)) ps s s' →
    Bounded E deal ps := by
  intro h
  have hrun : Steps (Called exactEnv) [[proofAt 200, proofAt 200]] storing
      (afterPairs [proofAt 200, proofAt 200] storing) :=
    .single (called_afterPairs (by decide +kernel))
  have hlast : (storing.times.lastTs storageDeal "d").getLast? = some storageDeal.timestamp := rfl
  obtain ⟨ps, htrace, -⟩ := exists_payTrace (h := "d") (steps_of_calls hrun) rfl hlast
  have honce := (h exactEnv rfl "d" storageDeal (by decide) _ _ _ ps rfl (by decide) hrun htrace).once
  have hps : ps.map (fun p => (p.lastTs, p.curTs)) = [(0, 100), (0, 100)] :=
    (htrace.stretches_eq rfl hlast).trans (by decide +kernel)
  have htwice : ((ps.map fun p => (p.lastTs, p.curTs)).Pairwise fun x y =>
      Disjoint (Set.Ioc x.1.toInt x.2.toInt) (Set.Ioc y.1.toInt y.2.toInt)) := by
    rwa [List.pairwise_map]
  rw [hps, List.pairwise_pair] at htwice
  have hsecond : (1 : ℤ) ∈ Set.Ioc (0 : Int64).toInt (100 : Int64).toInt := ⟨by decide, by decide⟩
  exact Set.disjoint_left.1 htwice hsecond hsecond

end WalletManager
end Timbre
