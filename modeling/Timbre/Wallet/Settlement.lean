/-
  What the authors of posts pay for a list of deals.

  `ValidateDeal` looks up the poster named by `pid` and compares every post for itself with its
  balance; `applyDeals` charges the author, post after post, and panics where the balance does not
  reach.  **`settles_iff` says for which balances a list of deals that is validated in turn is
  applied without the panic, and leaves no author with a negative balance.**
-/
import Timbre.Wallet.Consent
import Timbre.Wallet.Readiness
import Timbre.Wallet.Solvency

namespace Timbre

open Call Postings

namespace WalletManager

/-! ## The balances -/

/-- The balances. -/
def purses (wm : WalletManager) : Address → Int64 := fun a => (wm.wallet a).balance

section
variable (E : Env) (bRound : Int64)

/-- What posts cost an author in total. -/
def cost (posts : List Post) (a : Address) : ℤ :=
  ((posts.filter fun post => post.authorAddress = a).map fun post => (postPrice E post bRound).toInt).sum

/-- Every poster has the price of each of the posts. -/
def PostersPay (b : Address → Int64) (deal : Deal) : Prop :=
  ∀ post ∈ deal.list, postPrice E post bRound ≤ b post.pid

/-- Every author has what the posts cost it in total. -/
def AuthorsCover (b : Address → Int64) (deal : Deal) : Prop :=
  ∀ post ∈ deal.list, cost E bRound deal.list post.authorAddress ≤ (b post.authorAddress).toInt

/-- The balances after a deal. -/
def settled (miner : Address) (b : Address → Int64) (deal : Deal) : Address → Int64 := fun a =>
  b a + Int64.ofInt (receivedOfDeal E bRound miner a deal)

/-- In turn, the posters can pay; after a deal that its authors do not cover there is no turn. -/
def PayInTurn (miner : Address) : (Address → Int64) → List Deal → Prop
  | _, [] => True
  | b, deal :: deals => PostersPay E bRound b deal ∧
      (AuthorsCover E bRound b deal → PayInTurn miner (settled E bRound miner b deal) deals)

/-- In turn, the authors cover what the posters can pay. -/
def CoverInTurn (miner : Address) : (Address → Int64) → List Deal → Prop
  | _, [] => True
  | b, deal :: deals => PostersPay E bRound b deal → AuthorsCover E bRound b deal ∧
      CoverInTurn miner (settled E bRound miner b deal) deals

/-- `ValidateDeal` accepts each deal, in the state that the deals before it have left. -/
def ValidatedInTurn (miner : Address) : List Deal → WalletManager → Prop
  | [], _ => True
  | deal :: deals, wm => Returns (validateDeal E deal bRound) wm ∧
      ∀ wm', applyDeal E miner bRound deal wm = (.ok (), wm') → ValidatedInTurn miner deals wm'

/-- The deals are applied, and no author has a negative balance then. -/
def Settles (miner : Address) (deals : List Deal) (wm : WalletManager) : Prop :=
  ∃ wm', applyDeals E deals miner bRound wm = (.ok (), wm') ∧
    ∀ deal ∈ deals, ∀ post ∈ deal.list, 0 ≤ (wm'.wallet post.authorAddress).balance

end

variable {E : Env} {bRound : Int64} {miner a : Address} {wm wm' : WalletManager} {deal : Deal}
  {deals : List Deal} {b : Address → Int64} {post : Post} {posts : List Post}

/-! ## The cost of the posts -/

theorem postPrice_nonneg (post : Post) : 0 ≤ (postPrice E post bRound).toInt := by
  rw [toInt_postPrice]
  omega

theorem cost_cons : cost E bRound (post :: posts) a =
    (if post.authorAddress = a then (postPrice E post bRound).toInt else 0) + cost E bRound posts a := by
  unfold cost
  by_cases ha : post.authorAddress = a <;> simp [ha]

theorem cost_nonneg (posts : List Post) (a : Address) : 0 ≤ cost E bRound posts a := by
  induction posts with
  | nil => exact le_refl 0
  | cons post posts ih =>
    have hprice : 0 ≤ (postPrice E post bRound).toInt := postPrice_nonneg post
    rw [cost_cons]
    split_ifs <;> omega

theorem cost_of_not_author (h : ∀ post ∈ posts, post.authorAddress ≠ a) : cost E bRound posts a = 0 := by
  have hnone : (posts.filter fun post => post.authorAddress = a) = [] :=
    List.filter_eq_nil_iff.2 fun post hpost => by simpa using h post hpost
  rw [cost, hnone]
  rfl

/-- A balance less a cost that it covers. -/
theorem toInt_sub_cost {x : Int64} {n : ℤ} (hn : 0 ≤ n) (hle : n ≤ x.toInt) :
    (x + Int64.ofInt (-n)).toInt = x.toInt - n := by
  have hlt := x.toInt_lt
  rw [toInt_add_ofInt]
  exact bmod_of_inRange ⟨by omega, by omega⟩

/-- **The authors can pay post after post exactly if each has what its posts cost in total.** -/
theorem authorsPay_iff : ∀ (posts : List Post) (b : Book), AuthorsPay E bRound b posts ↔
    ∀ post ∈ posts, cost E bRound posts post.authorAddress ≤ (b post.authorAddress).balance.toInt
  | [], b => iff_of_true trivial (by simp)
  | post :: posts, b => by
    have hprice : 0 ≤ (postPrice E post bRound).toInt := postPrice_nonneg post
    have hnext : ∀ a, ((b + Book.pay post.authorAddress (-postPrice E post bRound)) a).balance =
        (b a).balance + if post.authorAddress = a then -postPrice E post bRound else 0 := fun a => by
      rw [Pi.add_apply, Account.balance_add, Book.balance_pay]
    have hpaid : postPrice E post bRound ≤ (b post.authorAddress).balance →
        ((b post.authorAddress).balance + -postPrice E post bRound).toInt =
          (b post.authorAddress).balance.toInt - (postPrice E post bRound).toInt := by
      intro hle
      rw [← toInt_sub_cost hprice (Int64.le_iff_toInt_le.1 hle), Int64.ofInt_neg, Int64.ofInt_toInt]
    rw [AuthorsPay, authorsPay_iff posts]
    constructor
    · rintro ⟨hle, hposts⟩ q hq
      rw [cost_cons]
      by_cases ha : post.authorAddress = q.authorAddress
      · rw [if_pos ha]
        by_cases hlater : ∃ p ∈ posts, p.authorAddress = q.authorAddress
        · obtain ⟨p, hp, hpq⟩ := hlater
          have hcover := hposts p hp
          rw [hnext, hpq, if_pos ha, ← ha, hpaid hle] at hcover
          rw [← ha]
          omega
        · push Not at hlater
          rw [cost_of_not_author hlater, add_zero, ← ha]
          exact Int64.le_iff_toInt_le.1 hle
      · rw [if_neg ha, zero_add]
        have hq' : q ∈ posts := (List.mem_cons.1 hq).resolve_left fun h => ha (h ▸ rfl)
        have hcover := hposts q hq'
        rwa [hnext, if_neg ha, add_zero] at hcover
    · intro h
      have hhead := h post (by simp)
      rw [cost_cons, if_pos rfl] at hhead
      have hrest : 0 ≤ cost E bRound posts post.authorAddress := cost_nonneg posts _
      have hle : postPrice E post bRound ≤ (b post.authorAddress).balance :=
        Int64.le_iff_toInt_le.2 (by omega)
      refine ⟨hle, fun q hq => ?_⟩
      have hcover := h q (by simp [hq])
      rw [cost_cons] at hcover
      rw [hnext]
      by_cases ha : post.authorAddress = q.authorAddress
      · rw [if_pos ha] at hcover ⊢
        rw [← ha, hpaid hle]
        rw [← ha] at hcover
        omega
      · rw [if_neg ha] at hcover ⊢
        rw [add_zero]
        omega

/-! ## One deal -/

theorem settled_eq (h : a ≠ miner) :
    settled E bRound miner b deal a = b a + Int64.ofInt (-cost E bRound deal.list a) := by
  rw [settled, receivedOfDeal, if_neg (Ne.symm h), zero_sub]
  rfl

theorem validateDeal_returns : Returns (validateDeal E deal bRound) wm ↔ PostersPay E bRound wm.purses deal := by
  have hspec : Spec (validateDeal E deal bRound) wm (fun _ _ => PostersPay E bRound wm.purses deal)
      fun _ _ => ¬ PostersPay E bRound wm.purses deal := by
    simp only [validateDeal, spec_bind, spec_get, spec_ite, spec_throw, spec_pure, List.any_eq_true,
      decide_eq_true_eq]
    refine ite_intro ?_ fun hrich post hpost => ?_
    · rintro ⟨post, hpost, hlt⟩ h
      exact Int64.not_lt.2 (h post hpost) hlt
    · exact Int64.not_lt.1 fun hlt => hrich ⟨post, hpost, hlt⟩
  constructor
  · rintro ⟨_, _, h⟩
    exact hspec.ok h
  · intro h
    exact hspec.returns_of fun _ _ h' => h' h

theorem chargePosts_purses (posts : List Post) (wm : WalletManager) :
    Spec (each (chargePost E bRound) posts) wm
      (fun _ wm' => ∀ a, wm'.purses a = wm.purses a + Int64.ofInt (-cost E bRound posts a)) fun _ _ => True := by
  refine (chargePosts_spec "" posts wm).mono (fun _ wm' h a => ?_) fun _ _ _ => trivial
  rw [purses, h.made.balance a, booked_charged]
  rfl

variable (E bRound miner) in
/-- **A deal is applied exactly if its posters can pay and its authors cover it.** -/
theorem applyDeal_settles (deal : Deal) (wm : WalletManager) : Spec (applyDeal E miner bRound deal) wm
    (fun _ wm' => PostersPay E bRound wm.purses deal ∧ AuthorsCover E bRound wm.purses deal ∧
      wm'.purses = settled E bRound miner wm.purses deal)
    fun _ _ => ¬ (PostersPay E bRound wm.purses deal ∧ AuthorsCover E bRound wm.purses deal) := by
  have hready : DealReady E bRound wm.book deal ↔
      PostersPay E bRound wm.purses deal ∧ AuthorsCover E bRound wm.purses deal :=
    and_congr_right fun _ => authorsPay_iff deal.list wm.book
  have hpurses : Spec (applyDeal E miner bRound deal) wm
      (fun _ wm' => wm'.purses = settled E bRound miner wm.purses deal) fun _ _ => True := by
    simp only [applyDeal, validateDeal, spec_bind, spec_get, spec_ite, spec_throw, spec_pure,
      spec_checkAndPut, spec_addBalance, spec_modify]
    refine ite_intro (fun _ => trivial) fun _ => ?_
    refine (chargePosts_purses deal.list (wm.put deal.spid)).mono (fun _ wm₁ h => ?_) fun _ _ h => h
    funext a
    have hcredit : ((wm₁.credit miner E (dealFee E deal bRound)).book a).balance =
        ((wm₁.book + Book.pay miner (dealFee E deal bRound)) a).balance :=
      congrArg Account.balance (congrFun book_credit a)
    have hfee : ((wm₁.credit miner E (dealFee E deal bRound)).modifyWallet miner fun w =>
        { w with transactionFee := w.transactionFee + dealFee E deal bRound }).purses a =
        wm₁.purses a + if miner = a then dealFee E deal bRound else 0 := by
      rw [Pi.add_apply, Account.balance_add, Book.balance_pay] at hcredit
      refine Eq.trans ?_ hcredit
      simp only [purses, wallet_modifyWallet]
      by_cases ha : a = miner <;> simp [ha, book, Wallet.account]
    rw [hfee, h a, settled, receivedOfDeal, sub_eq_add_neg, Int64.ofInt_add]
    show wm.purses a + _ + _ = wm.purses a + (_ + Int64.ofInt (-cost E bRound deal.list a))
    rw [add_assoc, add_comm (Int64.ofInt (-cost E bRound deal.list a))]
    congr 2
    split_ifs
    · rw [Int64.ofInt_toInt]
    · rfl
  refine ((applyDeal_ready miner deal wm).and hpurses).mono (fun _ wm' h => ?_) fun _ _ h h' => h.1 (hready.2 h')
  exact ⟨(hready.1 h.1).1, (hready.1 h.1).2, h.2⟩

/-! ## A list of deals -/

theorem validatedInTurn_iff : ∀ (deals : List Deal) (wm : WalletManager),
    ValidatedInTurn E bRound miner deals wm ↔ PayInTurn E bRound miner wm.purses deals
  | [], _ => Iff.rfl
  | deal :: deals, wm => by
    have hdeal := applyDeal_settles E bRound miner deal wm
    rw [ValidatedInTurn, PayInTurn, validateDeal_returns]
    refine and_congr_right fun hpay => ?_
    constructor
    · intro h hcover
      rcases hx : applyDeal E miner bRound deal wm with ⟨e | _, wm'⟩
      · exact absurd ⟨hpay, hcover⟩ (hdeal.error hx)
      · rw [← (hdeal.ok hx).2.2]
        exact (validatedInTurn_iff deals wm').1 (h wm' hx)
    · intro h wm' hx
      obtain ⟨-, hcover, hpurses⟩ := hdeal.ok hx
      rw [validatedInTurn_iff deals wm', hpurses]
      exact h hcover

/-- The first deal that its authors do not cover ends the turns. -/
theorem payInTurn_of_not_cover : ∀ {deals : List Deal} {b : Address → Int64},
    ¬ CoverInTurn E bRound miner b deals → PayInTurn E bRound miner b deals
  | [], _, h => absurd trivial h
  | deal :: deals, b, h => by
    simp only [CoverInTurn, Classical.not_imp, not_and] at h
    exact ⟨h.1, fun hcover => payInTurn_of_not_cover (h.2 hcover)⟩

theorem steps_settled (h : Steps (fun deal s s' => applyDeal E miner bRound deal s = (.ok (), s')) deals wm wm') :
    CoverInTurn E bRound miner wm.purses deals ∧
      wm'.purses = deals.foldl (settled E bRound miner) wm.purses := by
  induction h with
  | nil => exact ⟨trivial, rfl⟩
  | @cons deal deals s s₁ s' hx _ ih =>
    obtain ⟨-, hcover, hpurses⟩ := (applyDeal_settles E bRound miner deal s).ok hx
    rw [hpurses] at ih
    exact ⟨fun _ => ⟨hcover, ih.1⟩, ih.2⟩

theorem returns_of_cover : ∀ {deals : List Deal} {wm : WalletManager},
    PayInTurn E bRound miner wm.purses deals → CoverInTurn E bRound miner wm.purses deals →
    Returns (applyDeals E deals miner bRound) wm
  | [], wm, _, _ => ⟨(), wm, rfl⟩
  | deal :: deals, wm, hpay, hcover => by
    have hdeal := applyDeal_settles E bRound miner deal wm
    obtain ⟨hcover, hcovers⟩ := hcover hpay.1
    rcases hx : applyDeal E miner bRound deal wm with ⟨e | _, wm₁⟩
    · exact absurd ⟨hpay.1, hcover⟩ (hdeal.error hx)
    · rw [← (hdeal.ok hx).2.2] at hcovers
      have hpays := hpay.2 hcover
      rw [← (hdeal.ok hx).2.2] at hpays
      exact returns_forEach_cons.2 ⟨wm₁, hx, returns_of_cover hpays hcovers⟩

/-- An author other than the miner has no negative balance after the first deal that charges it,
    and keeps none. -/
theorem author_nonneg (ha : a ≠ miner) : ∀ {deals : List Deal} {b : Address → Int64},
    PayInTurn E bRound miner b deals → CoverInTurn E bRound miner b deals →
    (0 ≤ b a ∨ ∃ deal ∈ deals, ∃ post ∈ deal.list, post.authorAddress = a) →
    0 ≤ deals.foldl (settled E bRound miner) b a
  | [], b, _, _, h => by simpa using h
  | deal :: deals, b, hpay, hcover, h => by
    obtain ⟨hcover, hcovers⟩ := hcover hpay.1
    suffices hsettled : 0 ≤ settled E bRound miner b deal a ∨ ∃ d ∈ deals, ∃ post ∈ d.list, post.authorAddress = a by
      rw [List.foldl_cons]
      exact author_nonneg ha (hpay.2 hcover) hcovers hsettled
    rw [settled_eq ha]
    by_cases hauthor : ∃ post ∈ deal.list, post.authorAddress = a
    · obtain ⟨post, hpost, rfl⟩ := hauthor
      have hle := hcover post hpost
      refine .inl (Int64.le_iff_toInt_le.2 ?_)
      rw [toInt_sub_cost (cost_nonneg _ _) hle]
      exact sub_nonneg.2 hle
    · push Not at hauthor
      rw [cost_of_not_author hauthor, neg_zero]
      refine h.imp (fun hb => ?_) ?_
      · rwa [show Int64.ofInt 0 = 0 from rfl, add_zero]
      · rintro ⟨d, hd, post, hpost, hpa⟩
        rcases List.mem_cons.1 hd with rfl | hd
        · exact absurd hpa (hauthor post hpost)
        · exact ⟨d, hd, post, hpost, hpa⟩

/-- **Deals that are validated in turn are applied, and leave no author with a negative balance,
    exactly if in turn the authors cover the posts of a deal together, and the fees do not carry
    the balance of a miner that is an author itself out of its range.** -/
theorem settles_iff (E : Env) (bRound : Int64) (miner : Address) (deals : List Deal) (wm : WalletManager) :
    (ValidatedInTurn E bRound miner deals wm → Settles E bRound miner deals wm) ↔
      CoverInTurn E bRound miner wm.purses deals ∧ (PayInTurn E bRound miner wm.purses deals →
        (∃ deal ∈ deals, ∃ post ∈ deal.list, post.authorAddress = miner) →
        0 ≤ deals.foldl (settled E bRound miner) wm.purses miner) := by
  rw [validatedInTurn_iff]
  constructor
  · intro h
    refine ⟨?_, fun hpay => ?_⟩
    · by_contra hnot
      obtain ⟨wm', hx, -⟩ := h (payInTurn_of_not_cover hnot)
      exact hnot (steps_settled (forEach_ok hx)).1
    · rintro ⟨deal, hdeal, post, hpost, rfl⟩
      obtain ⟨wm', hx, hnonneg⟩ := h hpay
      rw [← (steps_settled (forEach_ok hx)).2]
      exact hnonneg deal hdeal post hpost
  · rintro ⟨hcover, hminer⟩ hpay
    obtain ⟨_, wm', hx⟩ := returns_of_cover hpay hcover
    refine ⟨wm', hx, fun deal hdeal post hpost => ?_⟩
    show 0 ≤ wm'.purses post.authorAddress
    rw [(steps_settled (forEach_ok hx)).2]
    by_cases ha : post.authorAddress = miner
    · rw [ha]
      exact hminer hpay ⟨deal, hdeal, post, hpost, ha⟩
    · exact author_nonneg ha hpay hcover (.inr ⟨deal, hdeal, post, hpost, rfl⟩)

/-- A post for six millions. -/
def costlyPost (content : String) : Post where
  pid := "a"
  authorAddress := "a"
  maxCost := 6000000
  content
  sig := ""

/-- A deal with two posts of one author, who has ten millions. -/
def costlyDeal : Deal where
  list := [costlyPost "first", costlyPost "second"]
  spid := "s"
  spSig := ""
  publicKey := ""
  timestamp := 0
  expiryTime := 1

/-- Each of the posts passes for itself, and the second one finds four millions. -/
theorem not_settles : ¬ (ValidatedInTurn Env.simple 2 "m" [costlyDeal] (newWalletManager "m") →
    Settles Env.simple 2 "m" [costlyDeal] (newWalletManager "m")) := by
  intro h
  have hpay : PayInTurn Env.simple 2 "m" (newWalletManager "m").purses [costlyDeal] := by
    refine ⟨fun post hpost => ?_, fun _ => trivial⟩
    revert post
    decide
  obtain ⟨wm', hx, -⟩ := h ((validatedInTurn_iff _ _).2 hpay)
  have hpanics : (applyDeals Env.simple [costlyDeal] "m" 2 (newWalletManager "m")).1 ≠ .ok () := by
    decide
  exact hpanics (congrArg Prod.fst hx)

end WalletManager
end Timbre
