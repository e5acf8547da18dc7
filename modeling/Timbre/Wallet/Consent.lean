/-
  Whose balance a block may lower.

  An address consents to what its own transactions book, to the penalty of a PoDF that names it,
  and to the charges of a deal that it has signed.  What a block books on an address that has
  not consented is `receipts`: amounts of transfers, fees and rewards, payments, and charges of
  deals signed by somebody else.  **The balance of such an address is lowered exactly if its
  receipts lower it** (`noTheft_iff`).
-/
import Timbre.Wallet.Run

namespace Timbre

open Call Postings

namespace WalletManager

/-! ## Consent -/

/-- The block contains a transaction of the address whose signature verifies, a PoDF that names
    it, or a deal that it has signed and that charges it. -/
inductive Consents (E : Env) (signedBy : Deal → Address → Prop) (block : PbBlock) (a : Address) : Prop
  | transaction {tx : Transaction} : tx ∈ block.transactions → tx.senderId = a → E.hasValidSign tx = none →
      Consents E signedBy block a
  | podf {tx : Transaction} : tx ∈ block.transactions → tx.type = .podf → reportedMiner E tx = a →
      Consents E signedBy block a
  | deal {deal : Deal} {post : Post} : deal ∈ block.deals → signedBy deal a → post ∈ deal.list →
      post.authorAddress = a → Consents E signedBy block a

variable (E : Env) (bRound : Int64) (miner a : Address)

/-- What a transaction of somebody else gives to an address. -/
def received (tx : Transaction) : ℤ :=
  (if tx.type = .transfer ∧ tx.recipientId = a then tx.decibels.toInt else 0) +
    if miner = a then tx.feeAmount E bRound else 0

/-- What a deal of somebody else gives to an address, less what it charges. -/
def receivedOfDeal (deal : Deal) : ℤ :=
  (if miner = a then (dealFee E deal bRound).toInt else 0) -
    ((deal.list.filter fun post => post.authorAddress = a).map fun post => (postPrice E post bRound).toInt).sum

/-- What the verification of a deal pays to an address. -/
def receivedOfPair (t : Times) (deal : Deal) (cProof : ChPrPair) : ℤ :=
  if checkChPrPair E deal cProof ∧ deal.spid = a then
    (deal.list.map fun post =>
      (payment E deal (curTs deal cProof) ((t.lastTs deal cProof.dealhash).getLastD 0) post).toInt).sum
  else 0

/-- What the verifications pay to an address, if `t` are the times before them. -/
def receivedOfPairs : Times → List ChPrPair → ℤ
  | _, [] => 0
  | t, cProof :: pairs =>
    match t.2.deals cProof.dealhash with
    | none => 0
    | some deal => receivedOfPair E a t deal cProof + receivedOfPairs (t.record deal cProof) pairs

/-- What a block that is no digest block gives to an address without its consent. -/
def receipts (block : PbBlock) (t : Times) : ℤ :=
  if block.isGenesis then if block.minerPublicKey = a then (blockReward E block).toInt else 0
  else (if miner = a then (blockReward E block).toInt else 0) +
    (block.transactions.map (received E block.roundNum miner a)).sum +
    (block.deals.map (receivedOfDeal E block.roundNum miner a)).sum + receivedOfPairs E a t block.chPrPair

variable {E bRound miner a} {wm wm' : WalletManager} {xs : List Entry} {block : PbBlock} {order : MapOrder}
  {signedBy : Deal → Address → Prop}

/-! ## What is booked -/

/-- What a list of entries books on an address. -/
def booked (E : Env) (bRound : Int64) (miner a : Address) (xs : List Entry) : ℤ :=
  net (xs.flatMap fun x => x.credits E bRound miner) a

theorem booked_nil : booked E bRound miner a [] = 0 := rfl

theorem booked_cons (x : Entry) (xs : List Entry) :
    booked E bRound miner a (x :: xs) = net (x.credits E bRound miner) a + booked E bRound miner a xs := by
  rw [booked, List.flatMap_cons, net_append, booked]

theorem booked_append (xs ys : List Entry) :
    booked E bRound miner a (xs ++ ys) = booked E bRound miner a xs + booked E bRound miner a ys := by
  rw [booked, List.flatMap_append, net_append, booked, booked]

theorem AllMade.balance (h : AllMade E bRound miner xs wm wm') (a : Address) :
    (wm'.wallet a).balance = (wm.wallet a).balance + Int64.ofInt (booked E bRound miner a xs) := by
  induction h with
  | nil => exact (add_zero _).symm
  | cons hx _ ih => rw [ih, hx.balance, booked_cons, Int64.ofInt_add, add_assoc]

/-- A transaction of somebody else that does not name the address. -/
theorem net_credits {tx : Transaction} (hsender : tx.senderId ≠ a)
    (hpodf : tx.type = .podf → reportedMiner E tx ≠ a) :
    net (tx.credits E bRound miner) a = received E bRound miner a tx := by
  unfold Transaction.credits received
  cases htype : tx.type <;> simp [net_cons, hsender]
  exact fun h => absurd h (hpodf htype)

theorem booked_transactions {txs : List Transaction}
    (htxs : ∀ tx ∈ txs, tx.senderId ≠ a ∧ (tx.type = .podf → reportedMiner E tx ≠ a)) :
    booked E bRound miner a (txs.map .transaction) = (txs.map (received E bRound miner a)).sum := by
  induction txs with
  | nil => rfl
  | cons tx txs ih =>
    rw [List.map_cons, booked_cons, List.map_cons, List.sum_cons, ih fun t ht => htxs t (by simp [ht])]
    exact congrArg (· + _) (net_credits (htxs tx (by simp)).1 (htxs tx (by simp)).2)

theorem booked_charged (posts : List Post) : booked E bRound miner a (posts.map .charged) =
    -((posts.filter fun post => post.authorAddress = a).map fun post => (postPrice E post bRound).toInt).sum := by
  induction posts with
  | nil => rfl
  | cons post posts ih =>
    rw [List.map_cons, booked_cons, ih]
    by_cases ha : post.authorAddress = a
    · simp [Entry.credits, net_cons, ha]
      ring
    · simp [Entry.credits, net_cons, ha]

theorem booked_dealEntries (deal : Deal) :
    booked E bRound miner a (dealEntries E bRound miner deal) = receivedOfDeal E bRound miner a deal := by
  have hfee : booked E bRound miner a [.paid miner (dealFee E deal bRound)] =
      if miner = a then (dealFee E deal bRound).toInt else 0 := by
    simp [booked, Entry.credits, net_cons]
  rw [dealEntries, booked_append, booked_append, booked_charged, hfee, receivedOfDeal]
  have hopen : booked E bRound miner a [.opened deal.spid] = 0 := rfl
  rw [hopen]
  ring

theorem booked_deals (deals : List Deal) :
    booked E bRound miner a (deals.flatMap (dealEntries E bRound miner)) =
      (deals.map (receivedOfDeal E bRound miner a)).sum := by
  induction deals with
  | nil => rfl
  | cons deal deals ih => rw [List.flatMap_cons, booked_append, booked_dealEntries, ih, List.map_cons, List.sum_cons]

theorem booked_pairEntries (t : Times) (deal : Deal) (cProof : ChPrPair) :
    booked E bRound miner a (pairEntries E t deal cProof) = receivedOfPair E a t deal cProof := by
  have hposts : ∀ (curTs lastTs : Int64) (posts : List Post), booked E bRound miner a
      (posts.flatMap fun post => [.opened post.pid, .paid deal.spid (payment E deal curTs lastTs post)]) =
        if deal.spid = a then (posts.map fun post => (payment E deal curTs lastTs post).toInt).sum else 0 := by
    intro curTs lastTs posts
    induction posts with
    | nil => simp [booked_nil]
    | cons post posts ih =>
      rw [List.flatMap_cons, booked_append, ih]
      by_cases hs : deal.spid = a <;> simp [booked, Entry.credits, net_cons, hs]
  unfold pairEntries receivedOfPair
  by_cases hcheck : checkChPrPair E deal cProof = true
  · rw [if_pos hcheck, booked_cons, paymentEntries, booked_append, hposts]
    simp [hcheck, Entry.credits, booked]
  · rw [if_neg hcheck, if_neg fun h => hcheck h.1]
    rfl

theorem booked_pairsEntries : ∀ (pairs : List ChPrPair) (t : Times),
    booked E bRound miner a (pairsEntries E t pairs) = receivedOfPairs E a t pairs
  | [], _ => rfl
  | cProof :: pairs, t => by
    unfold pairsEntries receivedOfPairs
    cases t.2.deals cProof.dealhash with
    | none => rfl
    | some deal =>
      dsimp only
      rw [booked_append, booked_pairEntries, booked_pairsEntries pairs]

/-- Every transaction of a block that is accepted has been verified. -/
theorem AllMade.signed {tx : Transaction} (h : AllMade E bRound miner xs wm wm') (htx : .transaction tx ∈ xs) :
    E.hasValidSign tx = none := by
  have hall : Steps (fun x _ _ => ∀ tx, x = .transaction tx → E.hasValidSign tx = none) xs wm wm' :=
    h.mono fun x _ s s' hx tx htx => by
      have hchecked := hx.checked
      rw [htx] at hchecked
      exact hchecked.1
  exact hall.forall _ htx tx rfl

/-- **What a block books on an address that has not consented.** -/
theorem booked_journal (h : AllMade E block.roundNum miner (journal E block miner wm.times) wm wm')
    (hconsent : ¬ Consents E signedBy block a) :
    booked E block.roundNum miner a (journal E block miner wm.times) = receipts E miner a block wm.times := by
  unfold receipts
  unfold journal at h ⊢
  by_cases hgen : block.isGenesis = true
  · have hregistered : ∀ txs : List Transaction,
        booked E block.roundNum miner a (txs.map fun tx => .registered tx.senderId) = 0 := by
      intro txs
      induction txs with
      | nil => rfl
      | cons tx txs ih => rw [List.map_cons, booked_cons, ih]; rfl
    rw [if_pos hgen, if_pos hgen, genesisEntries, booked_append, booked_append, hregistered]
    simp [booked, Entry.credits, net_cons]
  · rw [if_neg hgen] at h ⊢
    rw [if_neg hgen]
    have htxs : ∀ tx ∈ block.transactions, tx.senderId ≠ a ∧ (tx.type = .podf → reportedMiner E tx ≠ a) := by
      intro tx htx
      have hsigned : E.hasValidSign tx = none := h.signed (by simp [htx])
      exact ⟨fun hsender => hconsent (.transaction htx hsender hsigned), fun ht hrep => hconsent (.podf htx ht hrep)⟩
    have hreward : booked E block.roundNum miner a [.opened miner, .paid miner (blockReward E block)] =
        if miner = a then (blockReward E block).toInt else 0 := by
      simp [booked, Entry.credits, net_cons]
    rw [booked_append, booked_append, booked_append, hreward, booked_transactions htxs, booked_deals, booked_pairsEntries]

/-- **No theft.**  A block that is accepted, and is no digest block, lowers the balance of an
    address with its consent only, exactly if the address has consented or its receipts do not
    lower the balance. -/
theorem noTheft_iff (E : Env) (signedBy : Deal → Address → Prop) (wm wm' : WalletManager) (block : PbBlock)
    (miner : Address) (order : MapOrder) (hdigest : block.isDigestBlock = false)
    (h : checkAndUpdateWalletStates E block miner order wm = (.ok (), wm')) (a : Address) :
    ((wm'.wallet a).balance < (wm.wallet a).balance → Consents E signedBy block a) ↔
      Consents E signedBy block a ∨
        (wm.wallet a).balance ≤ (wm.wallet a).balance + Int64.ofInt (receipts E miner a block wm.times) := by
  obtain ⟨hmade, -⟩ := accepted_made (.inr hdigest) h
  by_cases hconsent : Consents E signedBy block a
  · exact iff_of_true (fun _ => hconsent) (.inl hconsent)
  · have hbalance := hmade.balance a
    rw [booked_journal hmade hconsent] at hbalance
    rw [← hbalance, ← Int64.not_lt]
    simp only [hconsent, imp_false, false_or]

/-! ## Transfers of a hundred, and of minus a hundred -/

def transferOf (decibels : Int64) : PbBlock := .simple [.simple .transfer "a" 1 decibels "b" ""] [] []

theorem accepted_transferOf : checkAndUpdateWalletStates Env.simple (transferOf 100) "m" .sorted (newWalletManager "m") =
    (.ok (), afterBlock (transferOf 100)) := ok_of_fst (by decide)

theorem noTheft_iff_transfer : Consents Env.simple (fun _ _ => False) (transferOf 100) "b" ∨
    ((newWalletManager "m").wallet "b").balance ≤ ((newWalletManager "m").wallet "b").balance +
      Int64.ofInt (receipts Env.simple "m" "b" (transferOf 100) (newWalletManager "m").times) :=
  (noTheft_iff Env.simple (fun _ _ => False) _ _ (transferOf 100) "m" .sorted (by decide) accepted_transferOf "b").1
    fun hlower => absurd hlower (by decide)

/-- The recipient of a negative amount pays it. -/
theorem not_noTheft : ¬ ∀ (E : Env) (signedBy : Deal → Address → Prop) (es : List Event) (wm₀ wm wm' : WalletManager)
    (block : PbBlock) (miner : Address) (order : MapOrder), Fresh wm₀ → Run E es wm₀ wm → block.isDigestBlock = false →
    checkAndUpdateWalletStates E block miner order wm = (.ok (), wm') →
    ∀ a, (wm'.wallet a).balance < (wm.wallet a).balance → Consents E signedBy block a := by
  intro h
  have hb := h Env.simple (fun _ _ => False) [] _ _ _ (transferOf (-100)) "m" .sorted (fresh_newWalletManager "m") (.nil _)
    (by decide) (ok_of_fst (by decide)) "b" (by decide)
  cases hb with
  | transaction htx hsender _ =>
    obtain rfl := List.mem_singleton.1 htx
    exact absurd hsender (by decide)
  | podf htx htype _ =>
    obtain rfl := List.mem_singleton.1 htx
    cases htype
  | deal hdeal _ _ _ => cases hdeal

end WalletManager
end Timbre
