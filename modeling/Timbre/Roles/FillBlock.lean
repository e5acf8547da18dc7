/-
  What `FillBlock` takes from the caches of a miner.

  The item with the lowest timestamp at the head of a cache is taken next; where no timestamp is
  below the highest one, that is a deal, even if there is none.  **`FillBlock` fills the block
  from the fronts of the caches, and up to the limit, exactly if the limit is reached before
  a proof or transaction with the highest timestamp, and before a transaction on which its
  validator panics** (`fills_iff`).
-/
import Timbre.Lib.Merge
import Timbre.Roles.Miner
import Timbre.Wallet.Panics

namespace Timbre

open Call WalletManager

/-! ## The items -/

/-- What stands in the caches. -/
inductive PoolItem where
  | deal (d : Deal)
  | proof (c : ChPrPair)
  | transaction (t : Transaction)

namespace PoolItem

def deal? : PoolItem → Option Deal
  | deal d => some d
  | proof _ | transaction _ => none

def proof? : PoolItem → Option ChPrPair
  | proof c => some c
  | deal _ | transaction _ => none

def transaction? : PoolItem → Option Transaction
  | transaction t => some t
  | deal _ | proof _ => none

def size (sizes : Sizes) : PoolItem → ℕ
  | deal d => sizes.deal d
  | proof c => sizes.chPrPair c
  | transaction t => sizes.transaction t

/-- The validator of the item returns no error; proofs have none. -/
def accepted (E : Env) (bRound : Int64) (wm : WalletManager) : PoolItem → Bool
  | deal d => (validateDeal E d bRound wm).1.isOk
  | proof _ => true
  | transaction t => (isExecutable E t bRound wm).1.isOk

end PoolItem

/-- The size of the items that are accepted. -/
def weight (E : Env) (sizes : Sizes) (bRound : Int64) (wm : WalletManager) (items : List PoolItem) : ℕ :=
  ((items.filter (PoolItem.accepted E bRound wm)).map (PoolItem.size sizes)).sum

/-- `FillBlock`, with what it leaves in the caches. -/
def fillCaches (E : Env) (sizes : Sizes) (bRound : Int64) : (fuel : ℕ) → Pools → Filled → WM (Pools × Filled)
  | 0, p, b => return (p, b)
  | fuel + 1, p, b =>
    if b.curSize ≥ maxBlockSize ∨ p.allEmptyCaches = true then return (p, b)
    else do
      let (p, b) ← fillRound E sizes bRound p b
      fillCaches E sizes bRound fuel p b

variable {E : Env} {sizes : Sizes} {bRound : Int64} {wm s : WalletManager} {p₀ p p' : Pools} {b b' : Filled}
  {taken items : List PoolItem} {item : PoolItem}

theorem fillLoop_eq (E : Env) (sizes : Sizes) (bRound : Int64) : ∀ (fuel : ℕ) (p : Pools) (b : Filled),
    fillLoop E sizes bRound fuel p b = fillCaches E sizes bRound fuel p b >>= fun r => pure r.2
  | 0, _, _ => rfl
  | fuel + 1, p, b => by
    rw [fillLoop, fillCaches]
    split_ifs
    · rfl
    · rw [bind_bind]
      congr 1
      funext r
      exact fillLoop_eq E sizes bRound fuel r.1 r.2

/-- The items `taken` have been taken from the fronts of the caches, in this order, and those
    that are accepted are in the block; before the last of them the limit was not reached. -/
structure Fills (E : Env) (sizes : Sizes) (bRound : Int64) (wm : WalletManager) (p₀ : Pools) (taken : List PoolItem)
    (p : Pools) (b : Filled) : Prop where
  deals : p₀.deals = taken.filterMap PoolItem.deal? ++ p.deals
  chPrPair : p₀.chPrPair = taken.filterMap PoolItem.proof? ++ p.chPrPair
  transactions : p₀.transactions = taken.filterMap PoolItem.transaction? ++ p.transactions
  bDeals : b.deals = (taken.filter (PoolItem.accepted E bRound wm)).filterMap PoolItem.deal?
  bProofs : b.proofs = (taken.filter (PoolItem.accepted E bRound wm)).filterMap PoolItem.proof?
  bTrans : b.transactions = (taken.filter (PoolItem.accepted E bRound wm)).filterMap PoolItem.transaction?
  curSize : b.curSize = weight E sizes bRound wm taken
  limit : ∀ last ∈ (taken.filter (PoolItem.accepted E bRound wm)).getLast?, b.curSize < maxBlockSize + last.size sizes

/-- `FillBlock` returns from its loop, and has filled the block from the caches. -/
def FillsBlock (E : Env) (sizes : Sizes) (bRound : Int64) (wm : WalletManager) (p : Pools) : Prop :=
  ∃ taken p' b s, fillBlock E sizes bRound p wm = (.ok b, s) ∧
    fillCaches E sizes bRound p.size p ⟨[], [], [], 0⟩ wm = (.ok (p', b), s) ∧
      (b.curSize ≥ maxBlockSize ∨ p'.allEmptyCaches = true) ∧ Fills E sizes bRound wm p taken p' b

/-! ## The choice -/

def dealKey (d : Deal) : ℤ := d.timestamp.toInt

def proofKey (c : ChPrPair) : ℤ := c.timestamp.toInt

def transactionKey (t : Transaction) : ℤ := t.timeStamp.toInt

/-- The key of the highest timestamp. -/
def highest : ℤ := Int64.maxValue.toInt

theorem toInt_le_highest (ts : Int64) : ts.toInt ≤ highest := by
  have := ts.toInt_lt
  have hmax : highest = 2 ^ 63 - 1 := by decide
  omega

/-- Of a lowest timestamp and the head of another cache, the lower one is kept. -/
theorem older_spec (lowest : Int64 × BlockObject) (firstTs : Option Int64) (object : BlockObject) :
    (Pools.older lowest firstTs object = lowest ∧ ∀ ts ∈ firstTs, lowest.1.toInt ≤ ts.toInt) ∨
      ∃ ts, firstTs = some ts ∧ ts.toInt < lowest.1.toInt ∧ Pools.older lowest firstTs object = (ts, object) := by
  cases firstTs with
  | none => exact .inl ⟨rfl, by simp⟩
  | some ts =>
    unfold Pools.older
    dsimp only
    split_ifs with hlt
    · exact .inr ⟨ts, rfl, Int64.lt_iff_toInt_lt.1 hlt, rfl⟩
    · refine .inl ⟨rfl, ?_⟩
      rintro _ ⟨⟩
      exact Int64.le_iff_toInt_le.1 (Int64.not_lt.1 hlt)

/-- What is known of the cache that is chosen. -/
inductive Choice (p : Pools) : BlockObject → Prop
  | deal : (∀ d ∈ p.deals.head?, ∀ t ∈ p.transactions.head?, dealKey d ≤ transactionKey t) →
      (p.deals = [] → (∀ c ∈ p.chPrPair.head?, highest ≤ proofKey c) ∧
        ∀ t ∈ p.transactions.head?, highest ≤ transactionKey t) → Choice p .dealTy
  | proof (c : ChPrPair) (cs : List ChPrPair) : p.chPrPair = c :: cs → proofKey c < highest →
      (∀ t ∈ p.transactions.head?, proofKey c ≤ transactionKey t) → Choice p .proofTy
  | transaction (t : Transaction) (ts : List Transaction) : p.transactions = t :: ts → transactionKey t < highest →
      (∀ d ∈ p.deals.head?, transactionKey t < dealKey d) → (∀ c ∈ p.chPrPair.head?, transactionKey t < proofKey c) →
        Choice p .txTy

/-- The first comparison keeps the deals, with the timestamp of the first one. -/
theorem older_deals (p : Pools) :
    ∃ lowest, Pools.older (Int64.maxValue, .dealTy) (p.deals.head?.map Deal.timestamp) .dealTy = (lowest, .dealTy) ∧
      (∀ d ∈ p.deals.head?, lowest.toInt = dealKey d) ∧ (p.deals = [] → lowest.toInt = highest) := by
  rcases older_spec (Int64.maxValue, .dealTy) (p.deals.head?.map Deal.timestamp) .dealTy with
    ⟨h, hle⟩ | ⟨ts, hts, -, h⟩
  · refine ⟨_, h, fun d hd => ?_, fun _ => rfl⟩
    exact le_antisymm (hle d.timestamp (Option.mem_map_of_mem _ hd)) (toInt_le_highest d.timestamp)
  · refine ⟨ts, h, fun d hd => ?_, fun hnil => ?_⟩
    · rw [hd, Option.map_some, Option.some.injEq] at hts
      rw [← hts]
      rfl
    · rw [hnil] at hts
      cases hts

theorem toChoose_spec (p : Pools) : Choice p p.toChoose := by
  obtain ⟨lowest, h₁, hdeal, hnil⟩ := older_deals p
  have hhighest := toInt_le_highest lowest
  unfold Pools.toChoose
  dsimp only
  rw [h₁]
  rcases older_spec (lowest, .dealTy) (p.chPrPair.head?.map ChPrPair.timestamp) .proofTy with
    ⟨h₂, hproof⟩ | ⟨ts₂, hproof, hlt₂, h₂⟩
  · rw [h₂]
    have hproof' : ∀ c ∈ p.chPrPair.head?, lowest.toInt ≤ proofKey c := fun c hc =>
      hproof c.timestamp (Option.mem_map_of_mem _ hc)
    rcases older_spec (lowest, .dealTy) (p.transactions.head?.map Transaction.timeStamp) .txTy with
      ⟨h₃, htx⟩ | ⟨ts₃, htx, hlt₃, h₃⟩
    · rw [h₃]
      have htx' : ∀ t ∈ p.transactions.head?, lowest.toInt ≤ transactionKey t := fun t ht =>
        htx t.timeStamp (Option.mem_map_of_mem _ ht)
      refine .deal (fun d hd t ht => hdeal d hd ▸ htx' t ht) fun hempty => ?_
      rw [← hnil hempty]
      exact ⟨hproof', htx'⟩
    · rw [h₃]
      obtain ⟨t, ht, rfl⟩ := Option.map_eq_some_iff.1 htx
      obtain ⟨ts, hts⟩ := List.head?_eq_some_iff.1 ht
      refine .transaction t ts hts (hlt₃.trans_le hhighest) (fun d hd => hdeal d hd ▸ hlt₃) fun c hc => ?_
      exact hlt₃.trans_le (hproof' c hc)
  · rw [h₂]
    obtain ⟨c, hc, rfl⟩ := Option.map_eq_some_iff.1 hproof
    obtain ⟨cs, hcs⟩ := List.head?_eq_some_iff.1 hc
    rcases older_spec (c.timestamp, .proofTy) (p.transactions.head?.map Transaction.timeStamp) .txTy with
      ⟨h₃, htx⟩ | ⟨ts₃, htx, hlt₃, h₃⟩
    · rw [h₃]
      refine .proof c cs hcs (hlt₂.trans_le hhighest) fun t ht => ?_
      exact htx t.timeStamp (Option.mem_map_of_mem _ ht)
    · rw [h₃]
      obtain ⟨t, ht, rfl⟩ := Option.map_eq_some_iff.1 htx
      obtain ⟨ts, hts⟩ := List.head?_eq_some_iff.1 ht
      refine .transaction t ts hts (hlt₃.trans (hlt₂.trans_le hhighest)) (fun d hd => ?_) fun c' hc' => ?_
      · exact hdeal d hd ▸ hlt₃.trans hlt₂
      · rw [hcs, List.head?_cons, Option.mem_some_iff] at hc'
        exact hc' ▸ hlt₃

/-! ## The validators -/

theorem isOk_iff {c : WM Unit} : (c wm).1.isOk = true ↔ Returns c wm := by
  rcases hc : c wm with ⟨e | u, s'⟩
  · exact iff_of_false (by simp [Except.isOk, Except.toBool]) fun ⟨_, _, h⟩ => by
      rw [hc] at h
      cases h
  · exact iff_of_true rfl ⟨u, s', hc⟩

theorem accepted_transaction {t : Transaction} :
    (PoolItem.transaction t).accepted E bRound wm = true ↔ Admitted E bRound t wm :=
  isOk_iff.trans isExecutable_returns_iff

theorem validateDeal_eq (d : Deal) (s : WalletManager) : validateDeal E d bRound s =
    (if d.list.any fun post => (s.wallet post.pid).balance < postPrice E post bRound then
      .error (.error "insufficient payer balance") else .ok (), s) := by
  rw [validateDeal, get_bind]
  split_ifs <;> rfl

/-- `ValidateDeal` looks at the wallets only. -/
theorem isValid_deal (d : Deal) (hg : Grow wm s) :
    Spec (isValid (validateDeal E d bRound)) s
      (fun r s' => r = (PoolItem.deal d).accepted E bRound wm ∧ s' = s) fun _ _ => False := by
  have hcall : validateDeal E d bRound s = _ := validateDeal_eq d s
  have haccepted : (PoolItem.deal d).accepted E bRound wm = (validateDeal E d bRound wm).1.isOk := rfl
  rw [haccepted, validateDeal_eq, ← hg.wallet, isValid, spec_tryCatch]
  split_ifs at hcall ⊢ with hpoor
  · rw [Spec, bind_of_error hcall]
    exact ⟨rfl, rfl⟩
  · rw [Spec, bind_of_ok hcall]
    exact ⟨rfl, rfl⟩

/-- `IsExecutable` judges a transaction as before the block was filled. -/
theorem isValid_transaction (t : Transaction) (hg : Grow wm s) :
    Spec (isValid (isExecutable E t bRound)) s
      (fun r s' => r = (PoolItem.transaction t).accepted E bRound wm ∧ Grow s s' ∧ ¬ Panics E bRound t wm)
      fun _ _ => Panics E bRound t wm := by
  rw [isValid, spec_tryCatch]
  have hboth := (isExecutable_admits E bRound t s).and (isExecutable_judged E bRound t s)
  refine hboth.bind ?_ ?_
  · rintro _ s' ⟨⟨hg', hadmitted⟩, hpanics⟩
    refine ⟨?_, hg', fun h => hpanics ((panics_grow hg).2 h)⟩
    exact (accepted_transaction.2 ((admitted_grow hg).1 hadmitted)).symm
  · rintro e s' ⟨hg', hrejected, hpanics⟩
    cases e with
    | panic m => exact (panics_grow hg).1 (hpanics.1 (isPanic_panic m))
    | error m =>
      refine ⟨?_, hg', fun h => isPanic_error m (hpanics.2 ((panics_grow hg).2 h))⟩
      have hnot : ¬ (PoolItem.transaction t).accepted E bRound wm = true := fun h =>
        hrejected ((admitted_grow hg).2 (accepted_transaction.1 h))
      exact (Bool.not_eq_true _ ▸ hnot : _ = false).symm

/-! ## Taking an item -/

/-- The item is the first one of its cache. -/
def Pools.Heads (p : Pools) : PoolItem → Prop
  | .deal d => ∃ ds, p.deals = d :: ds
  | .proof c => ∃ cs, p.chPrPair = c :: cs
  | .transaction t => ∃ ts, p.transactions = t :: ts

/-- The caches without the first item of one of them. -/
def Pools.drop (p : Pools) : PoolItem → Pools
  | .deal _ => p.dropDeal
  | .proof _ => p.dropProof
  | .transaction _ => p.pop

/-- The block with one more item. -/
def Filled.put (sizes : Sizes) (b : Filled) : PoolItem → Filled
  | .deal d => { b with deals := b.deals ++ [d], curSize := b.curSize + sizes.deal d }
  | .proof c => { b with proofs := b.proofs ++ [c], curSize := b.curSize + sizes.chPrPair c }
  | .transaction t => { b with transactions := b.transactions ++ [t], curSize := b.curSize + sizes.transaction t }

theorem curSize_put (b : Filled) (item : PoolItem) : (b.put sizes item).curSize = b.curSize + item.size sizes := by
  cases item <;> rfl

@[simp]
theorem weight_append (xs ys : List PoolItem) :
    weight E sizes bRound wm (xs ++ ys) = weight E sizes bRound wm xs + weight E sizes bRound wm ys := by
  simp [weight, List.filter_append]

theorem size_drop (item : PoolItem) (h : p.Heads item) : (p.drop item).size + 1 = p.size := by
  cases item with
  | deal d | proof c | transaction t =>
    obtain ⟨rest, hrest⟩ := h
    simp only [Pools.drop, Pools.size, Pools.dropDeal, Pools.dropProof, Pools.pop, hrest, List.tail_cons,
      List.length_cons]
    omega

/-- The first item is split off. -/
theorem split_drop (h : p.Heads item) : p.deals = [item].filterMap PoolItem.deal? ++ (p.drop item).deals ∧
    p.chPrPair = [item].filterMap PoolItem.proof? ++ (p.drop item).chPrPair ∧
      p.transactions = [item].filterMap PoolItem.transaction? ++ (p.drop item).transactions := by
  cases item with
  | deal d | proof c | transaction t =>
    obtain ⟨rest, hrest⟩ := h
    simp [PoolItem.deal?, PoolItem.proof?, PoolItem.transaction?, Pools.drop, Pools.dropDeal, Pools.dropProof,
      Pools.pop, hrest]

theorem parts_put (sizes : Sizes) (b : Filled) (item : PoolItem) :
    (b.put sizes item).deals = b.deals ++ [item].filterMap PoolItem.deal? ∧
    (b.put sizes item).proofs = b.proofs ++ [item].filterMap PoolItem.proof? ∧
      (b.put sizes item).transactions = b.transactions ++ [item].filterMap PoolItem.transaction? := by
  cases item <;> simp [Filled.put, PoolItem.deal?, PoolItem.proof?, PoolItem.transaction?]

theorem Fills.take (h : Fills E sizes bRound wm p₀ taken p b) (hhead : p.Heads item)
    (hlt : b.curSize < maxBlockSize) : Fills E sizes bRound wm p₀ (taken ++ [item]) (p.drop item)
      (if item.accepted E bRound wm = true then b.put sizes item else b) := by
  obtain ⟨hdeals, hproofs, htxs⟩ := split_drop hhead
  have hdeals' : p₀.deals = (taken ++ [item]).filterMap PoolItem.deal? ++ (p.drop item).deals := by
    rw [h.deals, hdeals, List.filterMap_append, List.append_assoc]
  have hproofs' : p₀.chPrPair = (taken ++ [item]).filterMap PoolItem.proof? ++ (p.drop item).chPrPair := by
    rw [h.chPrPair, hproofs, List.filterMap_append, List.append_assoc]
  have htxs' : p₀.transactions = (taken ++ [item]).filterMap PoolItem.transaction? ++ (p.drop item).transactions := by
    rw [h.transactions, htxs, List.filterMap_append, List.append_assoc]
  split_ifs with haccepted
  · have hfilter : (taken ++ [item]).filter (PoolItem.accepted E bRound wm) =
        taken.filter (PoolItem.accepted E bRound wm) ++ [item] := by
      rw [List.filter_append, List.filter_singleton, haccepted]
      rfl
    obtain ⟨hb₁, hb₂, hb₃⟩ := parts_put sizes b item
    have hsize : weight E sizes bRound wm [item] = item.size sizes := by simp [weight, haccepted]
    refine ⟨hdeals', hproofs', htxs', ?_, ?_, ?_, ?_, ?_⟩
    · rw [hb₁, h.bDeals, hfilter, List.filterMap_append]
    · rw [hb₂, h.bProofs, hfilter, List.filterMap_append]
    · rw [hb₃, h.bTrans, hfilter, List.filterMap_append]
    · rw [curSize_put, h.curSize, weight_append, hsize]
    · rw [hfilter, List.getLast?_concat, curSize_put]
      rintro _ ⟨⟩
      omega
  · have hfilter : (taken ++ [item]).filter (PoolItem.accepted E bRound wm) =
        taken.filter (PoolItem.accepted E bRound wm) := by
      simp [haccepted]
    have hsize : weight E sizes bRound wm [item] = 0 := by simp [weight, haccepted]
    refine ⟨hdeals', hproofs', htxs', ?_, ?_, ?_, ?_, ?_⟩
    · rw [h.bDeals, hfilter]
    · rw [h.bProofs, hfilter]
    · rw [h.bTrans, hfilter]
    · rw [h.curSize, weight_append, hsize, Nat.add_zero]
    · rw [hfilter]
      exact h.limit

/-- A state of the loop. -/
structure Filling (E : Env) (sizes : Sizes) (bRound : Int64) (wm : WalletManager) (p₀ : Pools) (taken : List PoolItem)
    (p : Pools) (b : Filled) (s : WalletManager) : Prop extends Fills E sizes bRound wm p₀ taken p b where
  grow : Grow wm s
  proofs : ∀ c ∈ taken.filterMap PoolItem.proof?, proofKey c < highest
  unbroken : ∀ t ∈ taken.filterMap PoolItem.transaction?, transactionKey t < highest ∧ ¬ Panics E bRound t wm
  dealsMerged : Merged dealKey transactionKey (taken.filterMap PoolItem.deal?) p.deals
    (taken.filterMap PoolItem.transaction?) p.transactions
  proofsMerged : Merged proofKey transactionKey (taken.filterMap PoolItem.proof?) p.chPrPair
    (taken.filterMap PoolItem.transaction?) p.transactions

/-- The loop cannot go on: a deal is chosen where there is none, or a transaction on which its
    validator panics. -/
inductive Stops (E : Env) (bRound : Int64) (wm : WalletManager) (p : Pools) : Prop
  | stuck : p.deals = [] → p.allEmptyCaches = false → (∀ c ∈ p.chPrPair.head?, highest ≤ proofKey c) →
      (∀ t ∈ p.transactions.head?, highest ≤ transactionKey t) → Stops E bRound wm p
  | broken (t : Transaction) (ts : List Transaction) : p.transactions = t :: ts → transactionKey t < highest →
      (∀ d ∈ p.deals.head?, transactionKey t < dealKey d) → (∀ c ∈ p.chPrPair.head?, transactionKey t < proofKey c) →
        Panics E bRound t wm → Stops E bRound wm p

theorem Filling.takeDeal (h : Filling E sizes bRound wm p₀ taken p b s) (hlt : b.curSize < maxBlockSize) {d : Deal}
    {ds : List Deal} (hd : p.deals = d :: ds) (hle : ∀ t ∈ p.transactions.head?, dealKey d ≤ transactionKey t) :
    Filling E sizes bRound wm p₀ (taken ++ [.deal d]) p.dropDeal
      (if (PoolItem.deal d).accepted E bRound wm = true then b.put sizes (.deal d) else b) s := by
  have htake : Fills E sizes bRound wm p₀ (taken ++ [.deal d]) p.dropDeal _ := h.toFills.take ⟨ds, hd⟩ hlt
  have hmerged := h.dealsMerged
  rw [hd] at hmerged
  refine ⟨htake, h.grow, ?_, ?_, ?_, ?_⟩
  · simpa [PoolItem.proof?] using h.proofs
  · simpa [PoolItem.transaction?] using h.unbroken
  · simpa [List.filterMap_cons, PoolItem.deal?, PoolItem.transaction?, Pools.dropDeal, hd] using hmerged.left hle
  · simpa [List.filterMap_cons, PoolItem.proof?, PoolItem.transaction?, Pools.dropDeal] using h.proofsMerged

theorem Filling.takeProof (h : Filling E sizes bRound wm p₀ taken p b s) (hlt : b.curSize < maxBlockSize)
    {c : ChPrPair} {cs : List ChPrPair} (hc : p.chPrPair = c :: cs) (hbelow : proofKey c < highest)
    (hle : ∀ t ∈ p.transactions.head?, proofKey c ≤ transactionKey t) :
    Filling E sizes bRound wm p₀ (taken ++ [.proof c]) p.dropProof (b.put sizes (.proof c)) s := by
  have htake : Fills E sizes bRound wm p₀ (taken ++ [.proof c]) p.dropProof (b.put sizes (.proof c)) :=
    h.toFills.take ⟨cs, hc⟩ hlt
  have hmerged := h.proofsMerged
  rw [hc] at hmerged
  refine ⟨htake, h.grow, ?_, ?_, ?_, ?_⟩
  · intro c' hc'
    rw [List.filterMap_append, List.mem_append] at hc'
    rcases hc' with hc' | hc'
    · exact h.proofs c' hc'
    · rw [List.mem_singleton.1 hc']
      exact hbelow
  · simpa [PoolItem.transaction?] using h.unbroken
  · simpa [List.filterMap_cons, PoolItem.deal?, PoolItem.transaction?, Pools.dropProof] using h.dealsMerged
  · simpa [List.filterMap_cons, PoolItem.proof?, PoolItem.transaction?, Pools.dropProof, hc] using hmerged.left hle

theorem Filling.takeTransaction (h : Filling E sizes bRound wm p₀ taken p b s) (hlt : b.curSize < maxBlockSize)
    {t : Transaction} {ts : List Transaction} (ht : p.transactions = t :: ts) (hbelow : transactionKey t < highest)
    (hdeal : ∀ d ∈ p.deals.head?, transactionKey t < dealKey d)
    (hproof : ∀ c ∈ p.chPrPair.head?, transactionKey t < proofKey c) {s' : WalletManager} (hg : Grow s s')
    (hunbroken : ¬ Panics E bRound t wm) :
    Filling E sizes bRound wm p₀ (taken ++ [.transaction t]) p.pop
      (if (PoolItem.transaction t).accepted E bRound wm = true then b.put sizes (.transaction t) else b) s' := by
  have htake : Fills E sizes bRound wm p₀ (taken ++ [.transaction t]) p.pop _ := h.toFills.take ⟨ts, ht⟩ hlt
  have hdeals := h.dealsMerged
  have hproofs := h.proofsMerged
  rw [ht] at hdeals hproofs
  refine ⟨htake, h.grow.trans hg, ?_, ?_, ?_, ?_⟩
  · simpa [PoolItem.proof?] using h.proofs
  · intro t' ht'
    rw [List.filterMap_append, List.mem_append] at ht'
    rcases ht' with ht' | ht'
    · exact h.unbroken t' ht'
    · rw [List.mem_singleton.1 ht']
      exact ⟨hbelow, hunbroken⟩
  · simpa [List.filterMap_cons, PoolItem.deal?, PoolItem.transaction?, Pools.pop, ht] using hdeals.right hdeal
  · simpa [List.filterMap_cons, PoolItem.proof?, PoolItem.transaction?, Pools.pop, ht] using hproofs.right hproof

/-! ## The loop -/

/-- One round of the loop takes an item, or the loop cannot go on. -/
theorem fillRound_fills (h : Filling E sizes bRound wm p₀ taken p b s) (hlt : b.curSize < maxBlockSize)
    (hsome : p.allEmptyCaches = false) :
    Spec (fillRound E sizes bRound p b) s
      (fun r s' => r.1.size + 1 = p.size ∧ ∃ taken', Filling E sizes bRound wm p₀ taken' r.1 r.2 s')
      fun _ _ => Stops E bRound wm p := by
  unfold fillRound
  have hchoice := toChoose_spec p
  generalize p.toChoose = object at hchoice ⊢
  cases hchoice with
  | deal hle hempty =>
    rcases hd : p.deals with _ | ⟨d, ds⟩
    · have hboth := hempty hd
      exact spec_throw.2 (.stuck hd hsome hboth.1 hboth.2)
    · dsimp only [List.head?_cons]
      have hfill := h.takeDeal hlt hd (hle d (by rw [hd]; rfl))
      have hsize : p.dropDeal.size + 1 = p.size := size_drop (.deal d) ⟨ds, hd⟩
      refine (isValid_deal d h.grow).bind ?_ ?_
      · rintro r s' ⟨rfl, rfl⟩
        split_ifs at hfill ⊢ with haccepted
        · exact spec_pure.2 ⟨hsize, _, hfill⟩
        · exact spec_pure.2 ⟨hsize, _, hfill⟩
      · intro _ _ h
        exact h.elim
  | proof c cs hc hbelow hle =>
    rw [hc]
    exact spec_pure.2 ⟨size_drop (.proof c) ⟨cs, hc⟩, _, h.takeProof hlt hc hbelow hle⟩
  | transaction t ts ht hbelow hdeal hproof =>
    rw [ht]
    dsimp only [List.head?_cons]
    refine (isValid_transaction t h.grow).bind ?_ ?_
    · rintro r s' ⟨rfl, hg, hunbroken⟩
      have hfill := h.takeTransaction hlt ht hbelow hdeal hproof hg hunbroken
      have hsize : p.pop.size + 1 = p.size := size_drop (.transaction t) ⟨ts, ht⟩
      split_ifs at hfill ⊢ with haccepted
      · exact spec_pure.2 ⟨hsize, _, hfill⟩
      · exact spec_pure.2 ⟨hsize, _, hfill⟩
    · intro _ _ hpanics
      exact .broken t ts ht hbelow hdeal hproof hpanics

theorem fillCaches_spec : ∀ (fuel : ℕ) {p : Pools} {b : Filled} {s : WalletManager} {taken : List PoolItem},
    p.size ≤ fuel → Filling E sizes bRound wm p₀ taken p b s →
    Spec (fillCaches E sizes bRound fuel p b) s
      (fun r s' => (maxBlockSize ≤ r.2.curSize ∨ r.1.allEmptyCaches = true) ∧
        ∃ taken', Filling E sizes bRound wm p₀ taken' r.1 r.2 s')
      fun _ _ => ∃ taken' p' b' s', Filling E sizes bRound wm p₀ taken' p' b' s' ∧ b'.curSize < maxBlockSize ∧
        Stops E bRound wm p'
  | 0, p, b, s, taken, hsize, h => by
    refine spec_pure.2 ⟨.inr ?_, taken, h⟩
    simp only [Pools.size] at hsize
    simp only [Pools.allEmptyCaches, decide_eq_true_eq]
    omega
  | fuel + 1, p, b, s, taken, hsize, h => by
    unfold fillCaches
    split_ifs with hend
    · exact spec_pure.2 ⟨hend, taken, h⟩
    · obtain ⟨hlt, hsome⟩ := not_or.1 hend
      refine (fillRound_fills h (not_le.1 hlt) (by simpa using hsome)).bind ?_ ?_
      · rintro r s' ⟨hsize', taken', h'⟩
        exact fillCaches_spec fuel (by omega) h'
      · intro _ _ hstops
        exact ⟨taken, p, b, s, h, not_le.1 hlt, hstops⟩

/-! ## The condition -/

/-- The size of what is accepted of three caches. -/
def weights (E : Env) (sizes : Sizes) (bRound : Int64) (wm : WalletManager) (deals : List Deal)
    (chPrPair : List ChPrPair) (transactions : List Transaction) : ℕ :=
  weight E sizes bRound wm (deals.map .deal) + weight E sizes bRound wm (chPrPair.map .proof) +
    weight E sizes bRound wm (transactions.map .transaction)

/-- The limit is reached before a proof or a transaction with the highest timestamp, and before
    a transaction on which its validator panics. -/
structure Passes (E : Env) (sizes : Sizes) (bRound : Int64) (wm : WalletManager) (p : Pools) : Prop where
  highest : (∃ c ∈ p.chPrPair, highest ≤ proofKey c) ∨ (∃ t ∈ p.transactions, highest ≤ transactionKey t) →
    maxBlockSize ≤ weights E sizes bRound wm p.deals (p.chPrPair.takeWhile fun c => proofKey c < highest)
      (p.transactions.takeWhile fun t => transactionKey t < highest)
  broken : ∀ ts t ts', p.transactions = ts ++ t :: ts' → Panics E bRound t wm →
    maxBlockSize ≤ weights E sizes bRound wm (p.deals.takeWhile (upTo dealKey transactionKey (ts ++ [t])))
      (p.chPrPair.takeWhile (upTo proofKey transactionKey (ts ++ [t]))) ts

theorem weight_parts : ∀ taken : List PoolItem, weight E sizes bRound wm taken =
    weights E sizes bRound wm (taken.filterMap PoolItem.deal?) (taken.filterMap PoolItem.proof?)
      (taken.filterMap PoolItem.transaction?)
  | [] => rfl
  | item :: taken => by
    have hcons (x : PoolItem) (xs : List PoolItem) : weight E sizes bRound wm (x :: xs) =
        weight E sizes bRound wm [x] + weight E sizes bRound wm xs := weight_append [x] xs
    rw [hcons, weight_parts taken]
    cases item <;>
      simp only [weights, List.filterMap_cons, PoolItem.deal?, PoolItem.proof?, PoolItem.transaction?, List.map_cons,
        hcons _ (List.map _ _)] <;>
      omega

theorem weight_le_of_prefix {xs ys : List PoolItem} (h : xs <+: ys) :
    weight E sizes bRound wm xs ≤ weight E sizes bRound wm ys := by
  obtain ⟨zs, rfl⟩ := h
  rw [weight_append]
  exact Nat.le_add_right _ _

theorem weights_le {ds ds' : List Deal} {cs cs' : List ChPrPair} {ts ts' : List Transaction} (hd : ds <+: ds')
    (hc : cs <+: cs') (ht : ts <+: ts') :
    weights E sizes bRound wm ds cs ts ≤ weights E sizes bRound wm ds' cs' ts' := by
  have hle : ∀ {xs ys : List PoolItem}, xs <+: ys → weight E sizes bRound wm xs ≤ weight E sizes bRound wm ys :=
    weight_le_of_prefix
  exact Nat.add_le_add (Nat.add_le_add (hle (hd.map _)) (hle (hc.map _))) (hle (ht.map _))

theorem Filling.start (wm : WalletManager) (p : Pools) :
    Filling E sizes bRound wm p [] p ⟨[], [], [], 0⟩ wm where
  deals := rfl
  chPrPair := rfl
  transactions := rfl
  bDeals := rfl
  bProofs := rfl
  bTrans := rfl
  curSize := rfl
  limit := by simp
  grow := .refl wm
  proofs := by simp
  unbroken := by simp
  dealsMerged := .start _ _
  proofsMerged := .start _ _

/-- What has been taken stands before the items with the highest timestamp. -/
theorem Filling.le_highest (h : Filling E sizes bRound wm p₀ taken p b s) :
    b.curSize ≤ weights E sizes bRound wm p₀.deals (p₀.chPrPair.takeWhile fun c => proofKey c < highest)
      (p₀.transactions.takeWhile fun t => transactionKey t < highest) := by
  rw [h.curSize, weight_parts]
  refine weights_le (h.deals ▸ List.prefix_append _ _) ?_ ?_
  · rw [h.chPrPair, List.takeWhile_append_of_pos fun c hc => decide_eq_true (h.proofs c hc)]
    exact List.prefix_append _ _
  · rw [h.transactions, List.takeWhile_append_of_pos fun t ht => decide_eq_true (h.unbroken t ht).1]
    exact List.prefix_append _ _

/-- A transaction on which its validator panics has not been taken. -/
theorem Filling.le_broken (h : Filling E sizes bRound wm p₀ taken p b s) {ts ts' : List Transaction} {t : Transaction}
    (ht : p₀.transactions = ts ++ t :: ts') (hpanics : Panics E bRound t wm) :
    p.transactions ≠ [] ∧
      b.curSize ≤ weights E sizes bRound wm (p₀.deals.takeWhile (upTo dealKey transactionKey (ts ++ [t])))
        (p₀.chPrPair.takeWhile (upTo proofKey transactionKey (ts ++ [t]))) ts := by
  obtain ⟨mid, hts, hrest⟩ : ∃ mid, ts = taken.filterMap PoolItem.transaction? ++ mid ∧
      p.transactions = mid ++ t :: ts' := by
    rcases List.append_eq_append_iff.1 (h.transactions.symm.trans ht) with ⟨mid, h₁, h₂⟩ | ⟨mid, h₁, h₂⟩
    · exact ⟨mid, h₁, h₂⟩
    · cases mid with
      | nil => exact ⟨[], by simpa using h₁.symm, by simpa using h₂.symm⟩
      | cons t' mid =>
        obtain ⟨rfl, -⟩ := List.cons.inj h₂
        exact absurd hpanics (h.unbroken t (by rw [h₁]; simp)).2
  have hne : p.transactions ≠ [] := by
    rw [hrest]
    simp
  obtain ⟨y, ys, hy⟩ := List.exists_cons_of_ne_nil hne
  refine ⟨hne, ?_⟩
  have hsub : taken.filterMap PoolItem.transaction? ++ [y] ⊆ ts ++ [t] := by
    rw [hts, List.append_assoc]
    refine List.append_subset.2 ⟨List.subset_append_left _ _, List.cons_subset.2 ⟨?_, List.nil_subset _⟩⟩
    refine List.mem_append_right _ ?_
    rw [hrest] at hy
    cases mid with
    | nil => exact (List.cons.inj hy).1 ▸ List.mem_singleton_self t
    | cons t' mid => exact (List.cons.inj hy).1 ▸ List.mem_cons_self
  have hdeals := h.dealsMerged
  have hproofs := h.proofsMerged
  rw [hy] at hdeals hproofs
  rw [h.curSize, weight_parts]
  refine weights_le ?_ ?_ (hts ▸ List.prefix_append _ _)
  · rw [h.deals]
    exact hdeals.prefix_takeWhile hsub
  · rw [h.chPrPair]
    exact hproofs.prefix_takeWhile hsub

/-- Where the loop cannot go on, the condition fails. -/
theorem Filling.not_passes (h : Filling E sizes bRound wm p₀ taken p b s) (hlt : b.curSize < maxBlockSize)
    (hstops : Stops E bRound wm p) : ¬ Passes E sizes bRound wm p₀ := by
  intro hpasses
  have hsize := h.curSize.symm.trans_lt hlt
  rw [weight_parts] at hsize
  cases hstops with
  | stuck hd hsome hc ht =>
    have hdeals : p₀.deals = taken.filterMap PoolItem.deal? := by rw [h.deals, hd, List.append_nil]
    have hproofs : (p₀.chPrPair.takeWhile fun c => proofKey c < highest) = taken.filterMap PoolItem.proof? := by
      rw [h.chPrPair, List.takeWhile_append_of_pos fun c hc => decide_eq_true (h.proofs c hc)]
      rcases hcs : p.chPrPair with _ | ⟨c, cs⟩
      · rw [List.takeWhile_nil, List.append_nil]
      · have hnot := hc c (by rw [hcs]; rfl)
        rw [List.takeWhile_cons_of_neg (by simpa using hnot), List.append_nil]
    have htxs : (p₀.transactions.takeWhile fun t => transactionKey t < highest) =
        taken.filterMap PoolItem.transaction? := by
      rw [h.transactions, List.takeWhile_append_of_pos fun t ht => decide_eq_true (h.unbroken t ht).1]
      rcases hts : p.transactions with _ | ⟨t, ts⟩
      · rw [List.takeWhile_nil, List.append_nil]
      · have hnot := ht t (by rw [hts]; rfl)
        rw [List.takeWhile_cons_of_neg (by simpa using hnot), List.append_nil]
    have hleft : (∃ c ∈ p₀.chPrPair, highest ≤ proofKey c) ∨ (∃ t ∈ p₀.transactions, highest ≤ transactionKey t) := by
      rcases hcs : p.chPrPair with _ | ⟨c, cs⟩
      · rcases hts : p.transactions with _ | ⟨t, ts⟩
        · rw [Pools.allEmptyCaches, hd, hcs, hts] at hsome
          cases hsome
        · exact .inr ⟨t, by rw [h.transactions, hts]; simp, ht t (by rw [hts]; rfl)⟩
      · exact .inl ⟨c, by rw [h.chPrPair, hcs]; simp, hc c (by rw [hcs]; rfl)⟩
    have hlimit := hpasses.highest hleft
    rw [hdeals, hproofs, htxs] at hlimit
    exact absurd hlimit (not_le.2 hsize)
  | broken t ts ht _ hd hc hpanics =>
    have hdeals := h.dealsMerged
    have hproofs := h.proofsMerged
    rw [ht] at hdeals hproofs
    have hlimit := hpasses.broken _ t ts (h.transactions.trans (by rw [ht])) hpanics
    rw [h.deals, h.chPrPair, hdeals.takeWhile_eq hd, hproofs.takeWhile_eq hc] at hlimit
    exact absurd hlimit (not_le.2 hsize)

/-- **The caches from which `FillBlock` fills the block.** -/
theorem fills_iff (E : Env) (sizes : Sizes) (bRound : Int64) (wm : WalletManager) (p : Pools) :
    FillsBlock E sizes bRound wm p ↔ Passes E sizes bRound wm p := by
  have hstart : Filling E sizes bRound wm p [] p ⟨[], [], [], 0⟩ wm := .start wm p
  have hspec := fillCaches_spec p.size le_rfl hstart
  constructor
  · rintro ⟨_, p', b, s, -, hrun, -⟩
    obtain ⟨hend, taken, h⟩ := hspec.ok hrun
    have hfull : (p'.chPrPair ≠ [] ∨ p'.transactions ≠ []) → maxBlockSize ≤ b.curSize := by
      intro hleft
      refine hend.resolve_right fun hempty => ?_
      simp only [Pools.allEmptyCaches, decide_eq_true_eq, List.length_eq_zero_iff] at hempty
      exact hleft.elim (fun hne => hne hempty.2.2) fun hne => hne hempty.1
    constructor
    · intro hhighest
      refine (hfull ?_).trans h.le_highest
      rcases hhighest with ⟨c, hc, hle⟩ | ⟨t, ht, hle⟩
      · refine .inl fun hnil => ?_
        rw [h.chPrPair, hnil, List.append_nil] at hc
        exact absurd hle (not_le.2 (h.proofs c hc))
      · refine .inr fun hnil => ?_
        rw [h.transactions, hnil, List.append_nil] at ht
        exact absurd hle (not_le.2 (h.unbroken t ht).1)
    · intro ts t ts' hts hpanics
      obtain ⟨hne, hle⟩ := h.le_broken hts hpanics
      exact (hfull (.inr hne)).trans hle
  · intro hpasses
    rcases hrun : fillCaches E sizes bRound p.size p ⟨[], [], [], 0⟩ wm with ⟨e | ⟨p', b⟩, s⟩
    · obtain ⟨taken, p', b, s', h, hlt, hstops⟩ := hspec.error hrun
      exact absurd hpasses (h.not_passes hlt hstops)
    · obtain ⟨hend, taken, h⟩ := hspec.ok hrun
      have hblock : fillBlock E sizes bRound p wm = (.ok b, s) :=
        (congrFun (fillLoop_eq E sizes bRound p.size p ⟨[], [], [], 0⟩) wm).trans (bind_of_ok hrun)
      exact ⟨taken, p', b, s, hblock, hrun, hend, h.toFills⟩

/-- One proof, with the highest timestamp. -/
def latestProof : Pools where
  deals := []
  chPrPair := [{ dealhash := "", timestamp := Int64.maxValue, challenge := "", proof := "" }]
  transactions := []
  bounded := by decide

/-- There is a proof, and `FillBlock` chooses a deal. -/
theorem not_fills : ¬ FillsBlock Env.simple unitSizes 2 (newWalletManager "m") latestProof := by
  rintro ⟨taken, p', b, s, -, hrun, -⟩
  have hpanics : (fillCaches Env.simple unitSizes 2 latestProof.size latestProof ⟨[], [], [], 0⟩
      (newWalletManager "m")).1.toOption = none := by decide
  rw [hrun] at hpanics
  cases hpanics

end Timbre
