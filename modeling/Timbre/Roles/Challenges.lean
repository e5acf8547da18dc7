/-
  The challenges of a miner before it prepares a block.

  The miner draws up to five of the active deals, without repetition, from a generator that is seeded with
  the hash of the main tail, and takes every deal that has expired.  **Each of these that is stored gets one
  pair, with the proof that has come for it, if one has** (`generateChallenges_spec`).  **The draws come to an
  end if the generator is fair, and no challenge panics if the blocks are small enough and the keys and the
  proofs can be read** (`generateChallenges_returns`).  **So such a miner always gets its pairs, one a deal**
  (`challenges_generated`).
-/
import Timbre.Crypto.Challenge
import Timbre.Lib.UnixTime
import Timbre.Wallet.Blocks

namespace Timbre
namespace Challenges

open Pos (Chall RandZr Config challengeFor)

/-! ## The source -/

/-- `protobuf.ChPrPair`, with what is filled in where no proof has come. -/
structure ProofPair extends ChPrPair where
  sig : Option String
  spid : Address
  dealExpiryTime : Int64
  dealStartTime : Int64
deriving DecidableEq

/-- The generator, `ReceivedChPrPair` and `ChPrPair` of a miner. -/
structure Challenger (σ : Type) where
  rand : σ
  receivedChPrPair : Hash → Option ProofPair
  chPrPair : List ProofPair

/-- `Activedeals`, and the bucket of the deals. -/
structure NodeDeals where
  activedeals : Finset Hash
  dealBucket : Hash → Option Deal

/-- The clock: `NextTickTime` and `time.Now().Unix()`, and `currentTime`, the beginning of the next slot, as
    its Unix seconds and the nanoseconds after them. -/
structure Clock where
  nextTick : Int64
  now : Int64
  currentTime : Int64
  nanos : ℕ

/-- `currentTime.After(time.Unix(expiryTime, 0))`. -/
def Clock.After (clock : Clock) (expiryTime : Int64) : Prop :=
  UnixTime.After clock.currentTime expiryTime ∨ clock.currentTime = expiryTime ∧ 0 < clock.nanos

instance (clock : Clock) (expiryTime : Int64) : Decidable (clock.After expiryTime) := instDecidableOr

/-- What is read from the network: the size of the content of a post, none where it has no metadata, and whether
    `FromProto` of a public key and of a challenge, and `Verify` of a proof, come to an end.  They panic for
    what is missing. -/
structure Reader where
  contentSize : Post → Option ℤ
  publicKey : String → Bool
  challenge : String → Bool
  verify : String → String → String → Bool

def numberOfDealToVerify : ℕ := 5

/-- The deal is stored and has expired by the next tick. -/
def NodeDeals.Expired (nextTick : Int64) (node : NodeDeals) (dealHash : Hash) : Prop :=
  ∃ deal ∈ node.dealBucket dealHash, UnixTime.After nextTick deal.expiryTime

instance decidableExpired (nextTick : Int64) (node : NodeDeals) (dealHash : Hash) :
    Decidable (node.Expired nextTick dealHash) :=
  inferInstanceAs (Decidable (∃ deal ∈ node.dealBucket dealHash, UnixTime.After nextTick deal.expiryTime))

/-- `GetActiveAndExpiredDealsHash`.  The slice has a place for every key of the map, and the places of empty
    keys stay empty. -/
def NodeDeals.getActiveAndExpiredDealsHash (order : MapOrder) (nextTick : Int64) (node : NodeDeals) :
    Option (List Hash × List Hash) :=
  let keys := order.list node.activedeals
  if keys.length = 0 then none
  else
    let dealhashKeys := keys.filter (· ≠ "") ++ List.replicate (keys.count "") ""
    let expiredDeal := keys.filter fun dealHash => dealHash ≠ "" ∧ node.Expired nextTick dealHash
    some (dealhashKeys, expiredDeal)

/-- `HandleSpChallengeProf`. -/
def handleSpChallengeProf {σ : Type} (pair : ProofPair) (q : Challenger σ) : Challenger σ :=
  { q with receivedChPrPair := Function.update q.receivedChPrPair pair.dealhash (some pair) }

section
variable {σ Z : Type} (G : Generator σ) (rand : RandZr σ Z) (cfg : Config) (reader : Reader)
  (encode : Chall Z → String) (clock : Clock) (node : NodeDeals)

/-- The size that the challenge is made for. -/
def dealSize (deal : Deal) : Except Err ℕ :=
  match deal.list.mapM reader.contentSize with
  | none => .error (.panic "invalid memory address or nil pointer dereference")
  | some sizes => .ok (if sizes.sum < 150 then 150 else sizes.sum.toNat)

/-- The time of the pair of a deal. -/
def pairTime (deal : Deal) : Int64 := if clock.After deal.expiryTime then deal.expiryTime else clock.now

/-- The key, the challenge and the proof, if there is one, are read and verified. -/
def Reader.Reads (publicKey : String) (pair : ProofPair) : Prop :=
  reader.publicKey publicKey ∧ reader.challenge pair.challenge ∧
    ∀ proof ∈ pair.proof, reader.verify publicKey pair.challenge proof

instance (publicKey : String) (pair : ProofPair) : Decidable (reader.Reads publicKey pair) :=
  inferInstanceAs (Decidable (_ ∧ _ ∧ ∀ proof ∈ pair.proof, reader.verify publicKey pair.challenge proof))

/-- The pair that is put up where no proof has come. -/
def emptyPair (dealhash : Hash) (deal : Deal) (ch : Chall Z) : ProofPair where
  dealhash := dealhash
  timestamp := clock.now
  challenge := encode ch
  proof := none
  sig := none
  spid := deal.spid
  dealExpiryTime := deal.expiryTime
  dealStartTime := deal.timestamp

/-- `generateChPrPair`.  The pair is put up before it is read; what the verification of the proof says is
    logged. -/
def generateChPrPair (dealhash : Hash) (deal : Deal) : Call (Challenger σ) Err Unit := fun q =>
  match dealSize reader deal with
  | .error e => (.error e, q)
  | .ok contentSize =>
    match challengeFor G rand contentSize cfg 3 q.rand with
    | (.error e, s) => (.error e, { q with rand := s })
    | (.ok ch, s) =>
      let chPrPair := (q.receivedChPrPair dealhash).getD (emptyPair encode clock dealhash deal ch)
      let chPrPair := { chPrPair with timestamp := pairTime clock deal }
      (if reader.Reads deal.publicKey chPrPair then .ok ()
        else .error (.panic "invalid memory address or nil pointer dereference"), {
        rand := s
        receivedChPrPair := Function.update q.receivedChPrPair dealhash none
        chPrPair := q.chPrPair ++ [chPrPair] })

/-- The pair of a deal that is looked up by its hash; none for a deal that is not found. -/
def challengeDeal (dealhash : Hash) : Call (Challenger σ) Err Unit :=
  if dealhash ≠ "" then
    match node.dealBucket dealhash with
    | some deal => generateChPrPair G rand cfg reader encode clock dealhash deal
    | none => pure ()
  else pure ()

/-- The loop over the drawn deals: those that have been issued, or nothing while it draws. -/
def issueDrawn (fuel : ℕ) (dealhashKeys : List Hash) : ℕ → List Hash → Call (Challenger σ) Err (Option (List Hash))
  | 0, issued => pure (some issued)
  | j + 1, issued => do
    match G.draw dealhashKeys issued fuel (← get).rand with
    | none => pure none
    | some (dealhash, s) =>
      modify fun q => { q with rand := s }
      challengeDeal G rand cfg reader encode clock node dealhash
      issueDrawn fuel dealhashKeys j (issued ++ [dealhash])

/-- The loop over the expired deals.  A number is drawn for each, and not used. -/
def issueExpired (dealhashKeys issued : List Hash) : List Hash → Call (Challenger σ) Err Unit
  | [] => pure ()
  | dealhash :: expiredDeal => do
    modify fun q => { q with rand := (G.below dealhashKeys.length q.rand).2 }
    (if dealhash ∉ issued then challengeDeal G rand cfg reader encode clock node dealhash else pure ())
    issueExpired dealhashKeys issued expiredDeal

/-- `GenerateChallenges`, with the generator that the seed gives: false while it draws. -/
def generateChallenges (order : MapOrder) (fuel : ℕ) : Call (Challenger σ) Err Bool := do
  match node.getActiveAndExpiredDealsHash order clock.nextTick with
  | none => return true
  | some (dealhashKeys, expiredDeal) =>
    let dealhashKeys := dealhashKeys.insertionSort (· ≤ ·)
    let expiredDeal := expiredDeal.insertionSort (· ≤ ·)
    let numberOfDealToVerifyL := min numberOfDealToVerify dealhashKeys.length
    match ← issueDrawn G rand cfg reader encode clock node fuel dealhashKeys numberOfDealToVerifyL [] with
    | none => return false
    | some issued =>
      issueExpired G rand cfg reader encode clock node dealhashKeys issued expiredDeal
      return true

end

/-! ## What is issued -/

section
variable {σ Z : Type} {G : Generator σ} {rand : RandZr σ Z} {cfg : Config} {reader : Reader}
  {encode : Chall Z → String} {clock : Clock} {node : NodeDeals} {q q' q₁ : Challenger σ} {dealhash : Hash}
  {hs hs' dealhashKeys issued issued' : List Hash} {fuel j : ℕ}

/-- A deal that is stored, under a key that is not empty. -/
def NodeDeals.Found (node : NodeDeals) (dealhash : Hash) : Prop := dealhash ≠ "" ∧ (node.dealBucket dealhash).isSome

instance decidableFound (node : NodeDeals) (dealhash : Hash) : Decidable (node.Found dealhash) :=
  inferInstanceAs (Decidable (dealhash ≠ "" ∧ (node.dealBucket dealhash).isSome))

/-- The pair of a deal: the one that has come with its proof, or one without a proof; the time is the
    present, or that of the expiry. -/
def IsPairOf (encode : Chall Z → String) (clock : Clock) (node : NodeDeals) (received : Hash → Option ProofPair)
    (dealhash : Hash) (pair : ProofPair) : Prop :=
  ∃ deal ch, node.dealBucket dealhash = some deal ∧
    pair = { (received dealhash).getD (emptyPair encode clock dealhash deal ch) with timestamp := pairTime clock deal }

/-- One pair has been issued for each of the deals, in this order. -/
structure Issued (encode : Chall Z → String) (clock : Clock) (node : NodeDeals) (q q' : Challenger σ)
    (hs : List Hash) : Prop where
  pairs : ∃ new, q'.chPrPair = q.chPrPair ++ new ∧
    List.Forall₂ (IsPairOf encode clock node q.receivedChPrPair) hs new
  received : ∀ h, q'.receivedChPrPair h = if h ∈ hs then none else q.receivedChPrPair h

theorem issued_nil (hpairs : q'.chPrPair = q.chPrPair) (hreceived : q'.receivedChPrPair = q.receivedChPrPair) :
    Issued encode clock node q q' [] :=
  ⟨⟨[], by rw [hpairs, List.append_nil], .nil⟩, fun h => by rw [hreceived]; simp⟩

theorem Issued.append (h : Issued encode clock node q q₁ hs) (h' : Issued encode clock node q₁ q' hs')
    (hdisj : ∀ x ∈ hs', x ∉ hs) : Issued encode clock node q q' (hs ++ hs') := by
  obtain ⟨new, hnew, hall⟩ := h.pairs
  obtain ⟨new', hnew', hall'⟩ := h'.pairs
  refine ⟨⟨new ++ new', by rw [hnew', hnew, List.append_assoc], List.rel_append hall ?_⟩, fun x => ?_⟩
  · -- what had come for a later deal has not been touched
    refine ((List.forall₂_and_left _ _).2 ⟨hdisj, hall'⟩).imp fun x pair hpair => ?_
    obtain ⟨hx, deal, ch, hdeal, heq⟩ := hpair
    rw [h.received, if_neg hx] at heq
    exact ⟨deal, ch, hdeal, heq⟩
  · rw [h'.received, h.received]
    by_cases hx : x ∈ hs
    · simp [hx]
    · simp [hx]

theorem generateChPrPair_issued {deal : Deal} (hdeal : node.dealBucket dealhash = some deal)
    (hrun : generateChPrPair G rand cfg reader encode clock dealhash deal q = (.ok (), q')) :
    Issued encode clock node q q' [dealhash] := by
  unfold generateChPrPair at hrun
  cases hsize : dealSize reader deal with
  | error e =>
    rw [hsize] at hrun
    cases hrun
  | ok size =>
    rw [hsize] at hrun
    dsimp only at hrun
    rcases hch : challengeFor G rand size cfg 3 q.rand with ⟨e | ch, s⟩
    · rw [hch] at hrun
      cases hrun
    · rw [hch] at hrun
      obtain ⟨-, rfl⟩ := Prod.mk.inj hrun
      refine ⟨⟨_, rfl, .cons ⟨deal, ch, hdeal, rfl⟩ .nil⟩, fun h => ?_⟩
      show Function.update q.receivedChPrPair dealhash none h = _
      rw [Function.update_apply]
      simp only [List.mem_singleton]

/-- **A deal that is looked up** gets a pair if it is found. -/
theorem challengeDeal_issued
    (hrun : challengeDeal G rand cfg reader encode clock node dealhash q = (.ok (), q')) :
    Issued encode clock node q q' ([dealhash].filter (node.Found ·)) := by
  unfold challengeDeal at hrun
  by_cases hfound : node.Found dealhash
  · obtain ⟨hne, hsome⟩ := hfound
    obtain ⟨deal, hdeal⟩ := Option.isSome_iff_exists.1 hsome
    rw [if_pos hne, hdeal] at hrun
    rw [List.filter_cons_of_pos (by simpa using ⟨hne, hsome⟩)]
    exact generateChPrPair_issued hdeal hrun
  · rw [List.filter_cons_of_neg (by simpa using hfound)]
    have hsame : q' = q := by
      by_cases hne : dealhash ≠ ""
      · rw [if_pos hne] at hrun
        cases hdeal : node.dealBucket dealhash with
        | none =>
          rw [hdeal] at hrun
          exact (congrArg Prod.snd hrun).symm
        | some deal => exact absurd ⟨hne, by rw [hdeal]; rfl⟩ hfound
      · rw [if_neg hne] at hrun
        exact (congrArg Prod.snd hrun).symm
    rw [hsame]
    exact issued_nil rfl rfl

/-- **The drawn deals** are distinct, and as many as asked for. -/
theorem issueDrawn_spec (hrun : issueDrawn G rand cfg reader encode clock node fuel dealhashKeys j issued q =
    (.ok (some issued'), q')) (hnodup : issued.Nodup) :
    ∃ drawn, issued' = issued ++ drawn ∧ issued'.Nodup ∧ drawn.length = j ∧ (∀ x ∈ drawn, x ∈ dealhashKeys) ∧
      Issued encode clock node q q' (drawn.filter (node.Found ·)) := by
  induction j generalizing issued q with
  | zero =>
    obtain ⟨hissued, rfl⟩ := Prod.mk.inj hrun
    obtain rfl := Option.some.inj (Except.ok.inj hissued)
    exact ⟨[], by simp, hnodup, rfl, by simp, issued_nil rfl rfl⟩
  | succ j ih =>
    rw [issueDrawn, Call.get_bind] at hrun
    cases hdraw : G.draw dealhashKeys issued fuel q.rand with
    | none =>
      rw [hdraw] at hrun
      cases (Prod.mk.inj hrun).1
    | some p =>
      obtain ⟨dealhash, s⟩ := p
      rw [hdraw] at hrun
      obtain ⟨hmem, hfresh⟩ := Generator.draw_spec hdraw
      obtain ⟨u, q₁, hmodify, hrun⟩ := Call.bind_ok hrun
      obtain ⟨v, q₂, hdeal, hrest⟩ := Call.bind_ok hrun
      have hnodup' : (issued ++ [dealhash]).Nodup := by
        rw [← List.concat_eq_append, List.nodup_concat]
        exact ⟨hfresh, hnodup⟩
      obtain ⟨drawn, rfl, hall, hlength, hkeys, hissued⟩ := ih hrest hnodup'
      obtain ⟨-, rfl⟩ := Prod.mk.inj hmodify
      have hdealt : Issued encode clock node { q with rand := s } q₂ ([dealhash].filter (node.Found ·)) :=
        challengeDeal_issued hdeal
      have hone : Issued encode clock node q q₂ ([dealhash].filter (node.Found ·)) := ⟨hdealt.pairs, hdealt.received⟩
      refine ⟨dealhash :: drawn, by simp, hall, by rw [List.length_cons, hlength], ?_, ?_⟩
      · intro x hx
        rcases List.mem_cons.1 hx with rfl | hx
        · exact hmem
        · exact hkeys x hx
      · rw [← List.singleton_append, List.filter_append]
        refine hone.append hissued fun x hx hx' => ?_
        have hx₁ := (List.mem_filter.1 hx).1
        have hx₂ := List.mem_singleton.1 (List.mem_filter.1 hx').1
        rw [hx₂] at hx₁
        exact (List.nodup_append.1 hall).2.2 dealhash (by simp) dealhash hx₁ rfl

/-- **The expired deals** that have not been drawn. -/
theorem issueExpired_spec {expiredDeal : List Hash}
    (hrun : issueExpired G rand cfg reader encode clock node dealhashKeys issued expiredDeal q = (.ok (), q'))
    (hnodup : expiredDeal.Nodup) :
    Issued encode clock node q q' (expiredDeal.filter fun x => x ∉ issued ∧ node.Found x) := by
  induction expiredDeal generalizing q with
  | nil =>
    obtain ⟨-, rfl⟩ := Prod.mk.inj hrun
    exact issued_nil rfl rfl
  | cons dealhash expiredDeal ih =>
    rw [List.nodup_cons] at hnodup
    obtain ⟨u, q₁, hmodify, hrun⟩ := Call.bind_ok hrun
    obtain ⟨v, q₂, hdeal, hrest⟩ := Call.bind_ok hrun
    obtain ⟨-, rfl⟩ := Prod.mk.inj hmodify
    have hdealt : Issued encode clock node { q with rand := (G.below dealhashKeys.length q.rand).2 } q₂
        ([dealhash].filter fun x => x ∉ issued ∧ node.Found x) := by
      by_cases hissued : dealhash ∈ issued
      · rw [if_neg (not_not.2 hissued)] at hdeal
        obtain ⟨-, rfl⟩ := Prod.mk.inj hdeal
        rw [List.filter_cons_of_neg (by simp [hissued])]
        exact issued_nil rfl rfl
      · rw [if_pos hissued] at hdeal
        have hsame : ([dealhash].filter fun x => x ∉ issued ∧ node.Found x) = [dealhash].filter (node.Found ·) := by
          simp [List.filter_cons, hissued]
        rw [hsame]
        exact challengeDeal_issued hdeal
    have hone : Issued encode clock node q q₂ ([dealhash].filter fun x => x ∉ issued ∧ node.Found x) :=
      ⟨hdealt.pairs, hdealt.received⟩
    rw [← List.singleton_append, List.filter_append]
    refine hone.append (ih hrest hnodup.2) fun x hx hx' => ?_
    have hx₁ := (List.mem_filter.1 hx).1
    rw [List.mem_singleton.1 (List.mem_filter.1 hx').1] at hx₁
    exact hnodup.1 hx₁

/-- The active deals, in some order. -/
theorem dealhashKeys_perm (keys : List Hash) :
    (keys.filter (· ≠ "") ++ List.replicate (keys.count "") "").Perm keys := by
  have hempty : keys.filter (fun h => ¬ (h ≠ "")) = List.replicate (keys.count "") "" := by
    rw [← List.filter_eq]
    simp
  have hperm := List.filter_append_perm (fun h : Hash => decide (h ≠ "")) keys
  simp only [← decide_not] at hperm
  rwa [hempty] at hperm

/-- Every proof that has come stands under its deal. -/
def Challenger.Keyed (q : Challenger σ) : Prop := ∀ h pair, q.receivedChPrPair h = some pair → pair.dealhash = h

theorem Challenger.Keyed.handleSpChallengeProf (hq : q.Keyed) (pair : ProofPair) :
    (handleSpChallengeProf pair q).Keyed := by
  intro h p hp
  by_cases hh : h = pair.dealhash
  · rw [hh] at hp ⊢
    obtain rfl : pair = p := by simpa [Challenges.handleSpChallengeProf] using hp
    rfl
  · refine hq h p ?_
    have hsame := Function.update_of_ne hh (some pair) q.receivedChPrPair
    exact hsame.symm.trans hp

theorem IsPairOf.names {received : Hash → Option ProofPair} {pair : ProofPair}
    (h : IsPairOf encode clock node received dealhash pair)
    (hkeyed : ∀ h p, received h = some p → p.dealhash = h) : pair.dealhash = dealhash := by
  obtain ⟨deal, ch, -, rfl⟩ := h
  cases hreceived : received dealhash with
  | none => rfl
  | some p => exact hkeyed dealhash p hreceived

/-- The new pairs name their deals. -/
theorem pairs_name {received : Hash → Option ProofPair} {new : List ProofPair}
    (hkeyed : ∀ h p, received h = some p → p.dealhash = h)
    (hall : List.Forall₂ (IsPairOf encode clock node received) hs new) :
    new.map (fun pair => pair.dealhash) = hs ∧
      ∀ pair ∈ new, IsPairOf encode clock node received pair.dealhash pair := by
  induction hall with
  | nil => exact ⟨rfl, by simp⟩
  | @cons h pair hs new hpair _ ih =>
    have hname := hpair.names hkeyed
    refine ⟨by rw [List.map_cons, hname, ih.1], fun x hx => ?_⟩
    rcases List.mem_cons.1 hx with rfl | hx
    · rwa [hname]
    · exact ih.2 x hx

theorem Issued.keyed (h : Issued encode clock node q q' hs) (hq : q.Keyed) : q'.Keyed := by
  intro x pair hpair
  rw [h.received] at hpair
  split_ifs at hpair
  exact hq x pair hpair

/-- What has been generated, after the deals `drawn` have been drawn: the pairs `new`, behind those that were
    there. -/
structure Generated (encode : Chall Z → String) (clock : Clock) (node : NodeDeals) (q q' : Challenger σ)
    (drawn : List Hash) (new : List ProofPair) : Prop where
  distinct : drawn.Nodup
  number : drawn.length = min numberOfDealToVerify node.activedeals.card
  active : ∀ h ∈ drawn, h ∈ node.activedeals
  pairs : q'.chPrPair = q.chPrPair ++ new
  /-- no deal has two new pairs -/
  once : (new.map fun pair => pair.dealhash).Nodup
  deals : ∀ h, h ∈ new.map (fun pair => pair.dealhash) ↔
    h ∈ node.activedeals ∧ node.Found h ∧ (h ∈ drawn ∨ node.Expired clock.nextTick h)
  each : ∀ pair ∈ new, IsPairOf encode clock node q.receivedChPrPair pair.dealhash pair
  taken : ∀ h, q'.receivedChPrPair h =
    if h ∈ new.map (fun pair => pair.dealhash) then none else q.receivedChPrPair h

/-- **The pairs of a block**: of the drawn deals and the expired ones each that is stored gets one pair. -/
theorem generateChallenges_spec {order : MapOrder} (hkeyed : q.Keyed)
    (hrun : generateChallenges G rand cfg reader encode clock node order fuel q = (.ok true, q')) :
    q'.Keyed ∧ ∃ drawn new, Generated encode clock node q q' drawn new := by
  -- it is enough to name the deals
  suffices hdeals : ∃ drawn hs : List Hash, drawn.Nodup ∧
      drawn.length = min numberOfDealToVerify node.activedeals.card ∧
      (∀ h ∈ drawn, h ∈ node.activedeals) ∧ hs.Nodup ∧
      (∀ h, h ∈ hs ↔ h ∈ node.activedeals ∧ node.Found h ∧ (h ∈ drawn ∨ node.Expired clock.nextTick h)) ∧
      Issued encode clock node q q' hs by
    obtain ⟨drawn, hs, hnodup, hlength, hactive, hhs, hmem, hissued⟩ := hdeals
    obtain ⟨new, hnew, hall⟩ := hissued.pairs
    obtain ⟨hmap, hpairs⟩ := pairs_name hkeyed hall
    refine ⟨hissued.keyed hkeyed, drawn, new, ⟨hnodup, hlength, hactive, hnew, ?_, ?_, hpairs, ?_⟩⟩
    · rwa [hmap]
    · rwa [hmap]
    · rw [hmap]
      exact hissued.received
  have hkeys := order.nodup node.activedeals
  have hcard : (order.list node.activedeals).length = node.activedeals.card := by
    rw [← List.toFinset_card_of_nodup hkeys]
    congr 1
    ext h
    rw [List.mem_toFinset, order.mem]
  unfold generateChallenges NodeDeals.getActiveAndExpiredDealsHash at hrun
  dsimp only at hrun
  by_cases hzero : (order.list node.activedeals).length = 0
  · rw [if_pos hzero] at hrun
    obtain ⟨-, rfl⟩ := Prod.mk.inj hrun
    rw [hcard, Finset.card_eq_zero] at hzero
    rw [hzero]
    exact ⟨[], [], .nil, rfl, by simp, .nil, by simp, issued_nil rfl rfl⟩
  · rw [if_neg hzero] at hrun
    dsimp only at hrun
    generalize hk : (order.list node.activedeals).filter (· ≠ "") ++
      List.replicate ((order.list node.activedeals).count "") "" = dealhashKeys at hrun
    have hperm : (dealhashKeys.insertionSort (· ≤ ·)).Perm (order.list node.activedeals) := by
      rw [← hk]
      exact (List.perm_insertionSort _ _).trans (dealhashKeys_perm _)
    rw [hperm.length_eq, hcard] at hrun
    obtain ⟨issued, q₁, hdrawn, hrun⟩ := Call.bind_ok hrun
    cases issued with
    | none => cases (Prod.mk.inj hrun).1
    | some issued =>
      obtain ⟨u, q₂, hexpired, hrun⟩ := Call.bind_ok hrun
      obtain ⟨-, rfl⟩ := Prod.mk.inj hrun
      obtain ⟨drawn, hsplit, hnodup, hlength, hmem, hissued⟩ := issueDrawn_spec hdrawn .nil
      rw [List.nil_append] at hsplit
      subst hsplit
      generalize he : (order.list node.activedeals).filter (fun h => h ≠ "" ∧ node.Expired clock.nextTick h) =
        expiredDeal at hexpired
      have hsorted := List.perm_insertionSort (· ≤ ·) expiredDeal
      have hnodup' : (expiredDeal.insertionSort (· ≤ ·)).Nodup :=
        hsorted.nodup_iff.2 (he ▸ hkeys.filter _)
      have hrest := issueExpired_spec hexpired hnodup'
      have hactive : ∀ h ∈ issued, h ∈ node.activedeals := fun h hh =>
        (order.mem _ _).1 (hperm.mem_iff.1 (hmem h hh))
      have hexpires : ∀ h, h ∈ expiredDeal.insertionSort (· ≤ ·) ↔
          h ∈ node.activedeals ∧ h ≠ "" ∧ node.Expired clock.nextTick h := by
        intro h
        rw [hsorted.mem_iff, ← he, List.mem_filter, order.mem, decide_eq_true_iff]
      have hapart : ∀ x ∈ (expiredDeal.insertionSort (· ≤ ·)).filter (fun x => x ∉ issued ∧ node.Found x),
          x ∉ issued.filter (node.Found ·) := by
        intro x hx hx'
        have hnot := (List.mem_filter.1 hx).2
        rw [decide_eq_true_iff] at hnot
        exact hnot.1 (List.mem_filter.1 hx').1
      refine ⟨issued, _, hnodup, hlength, hactive, ?_, fun h => ?_, hissued.append hrest hapart⟩
      · rw [List.nodup_append]
        refine ⟨hnodup.filter _, hnodup'.filter _, fun x hx y hy hxy => ?_⟩
        exact hapart y hy (hxy ▸ hx)
      · simp only [List.mem_append, List.mem_filter, decide_eq_true_iff, hexpires]
        constructor
        · rintro (⟨hdrawn, hfound⟩ | ⟨⟨hmem, -, hexp⟩, -, hfound⟩)
          · exact ⟨hactive h hdrawn, hfound, .inl hdrawn⟩
          · exact ⟨hmem, hfound, .inr hexp⟩
        · rintro ⟨hmem, hfound, hcase⟩
          by_cases hdrawn : h ∈ issued
          · exact .inl ⟨hdrawn, hfound⟩
          · have hexp := hcase.resolve_left hdrawn
            exact .inr ⟨⟨hmem, hfound.1, hexp⟩, hdrawn, hfound⟩

/-! ## The draws come to an end -/

/-- The deals, and what has come for them, can be read, and so can the miner's own challenges. -/
structure Readable (reader : Reader) (encode : Chall Z → String) (node : NodeDeals)
    (received : Hash → Option ProofPair) : Prop where
  contentSize : ∀ h deal, node.dealBucket h = some deal → ∀ post ∈ deal.list, (reader.contentSize post).isSome
  publicKey : ∀ h deal, node.dealBucket h = some deal → reader.publicKey deal.publicKey
  own : ∀ ch, reader.challenge (encode ch)
  received : ∀ h deal pair, node.dealBucket h = some deal → received h = some pair → reader.Reads deal.publicKey pair

theorem Issued.readable (h : Issued encode clock node q q' hs)
    (hread : Readable reader encode node q.receivedChPrPair) : Readable reader encode node q'.receivedChPrPair := by
  refine ⟨hread.contentSize, hread.publicKey, hread.own, fun x deal pair hdeal hpair => ?_⟩
  rw [h.received] at hpair
  split_ifs at hpair
  exact hread.received x deal pair hdeal hpair

theorem mapM_isSome {α β : Type} {f : α → Option β} : ∀ {xs : List α}, (∀ x ∈ xs, (f x).isSome) → ∃ ys, xs.mapM f = some ys
  | [], _ => ⟨[], rfl⟩
  | x :: xs, hf => by
    obtain ⟨y, hy⟩ := Option.isSome_iff_exists.1 (hf x (by simp))
    obtain ⟨ys, hys⟩ := mapM_isSome fun x' hx' => hf x' (List.mem_cons_of_mem x hx')
    exact ⟨y :: ys, by rw [List.mapM_cons, hy, hys]; rfl⟩

/-- A deal counts for 150 bytes at least. -/
theorem dealSize_returns {deal : Deal} (hsizes : ∀ post ∈ deal.list, (reader.contentSize post).isSome) :
    ∃ size, dealSize reader deal = .ok size ∧ 150 ≤ size := by
  obtain ⟨sizes, hsizes⟩ := mapM_isSome hsizes
  refine ⟨_, by rw [dealSize, hsizes], ?_⟩
  split_ifs with hlt
  · exact le_rfl
  · omega

variable (G rand clock)

theorem generateChPrPair_returns (hs : 1 ≤ cfg.s) (hN : 1 ≤ cfg.N) (hsmall : 3 * (cfg.s * cfg.N) ≤ 150) {deal : Deal}
    (hread : Readable reader encode node q.receivedChPrPair) (hdeal : node.dealBucket dealhash = some deal) :
    ∃ q', generateChPrPair G rand cfg reader encode clock dealhash deal q = (.ok (), q') := by
  have hsize : 0 < cfg.s * cfg.N := Nat.mul_pos hs hN
  obtain ⟨size, hsizes, hlarge⟩ := dealSize_returns (hread.contentSize dealhash deal hdeal)
  have hblocks : 3 ≤ size / (cfg.s * cfg.N) := (Nat.le_div_iff_mul_le hsize).2 (hsmall.trans hlarge)
  have hiff : (∃ ch s, Pos.challenge G rand (size / (cfg.s * cfg.N)) 3 q.rand = (.ok ch, s)) ↔
    3 ≤ size / (cfg.s * cfg.N) := Pos.challenge_ok_iff
  obtain ⟨ch, s, hch⟩ := hiff.2 hblocks
  have hfor : challengeFor G rand size cfg 3 q.rand = (.ok ch, s) := by
    rw [challengeFor, Pos.getNumberofBlocksforTag, if_neg hsize.ne']
    exact hch
  -- the pair can be read, whether it has come or is put up here
  have hreads : reader.Reads deal.publicKey { (q.receivedChPrPair dealhash).getD
      (emptyPair encode clock dealhash deal ch) with timestamp := pairTime clock deal } := by
    cases hreceived : q.receivedChPrPair dealhash with
    | none => exact ⟨hread.publicKey dealhash deal hdeal, hread.own ch, fun proof hproof => by cases hproof⟩
    | some pair => exact hread.received dealhash deal pair hdeal hreceived
  unfold generateChPrPair
  rw [hsizes]
  dsimp only
  rw [hfor]
  dsimp only
  rw [if_pos hreads]
  exact ⟨_, rfl⟩

theorem challengeDeal_returns (hs : 1 ≤ cfg.s) (hN : 1 ≤ cfg.N) (hsmall : 3 * (cfg.s * cfg.N) ≤ 150)
    (hread : Readable reader encode node q.receivedChPrPair) (dealhash : Hash) :
    ∃ q', challengeDeal G rand cfg reader encode clock node dealhash q = (.ok (), q') ∧
      Readable reader encode node q'.receivedChPrPair := by
  obtain ⟨q', hrun⟩ : ∃ q', challengeDeal G rand cfg reader encode clock node dealhash q = (.ok (), q') := by
    unfold challengeDeal
    split_ifs
    · cases hdeal : node.dealBucket dealhash with
      | none => exact ⟨q, rfl⟩
      | some deal => exact generateChPrPair_returns G rand clock hs hN hsmall hread hdeal
    · exact ⟨q, rfl⟩
  exact ⟨q', hrun, (challengeDeal_issued hrun).readable hread⟩

/-- As long as there are deals left to draw. -/
theorem issueDrawn_returns (hfair : G.Fair) (hs : 1 ≤ cfg.s) (hN : 1 ≤ cfg.N) (hsmall : 3 * (cfg.s * cfg.N) ≤ 150)
    (hkeys : dealhashKeys.Nodup) : ∀ (j : ℕ) (issued : List Hash) (q : Challenger σ),
    Readable reader encode node q.receivedChPrPair → issued.length + j ≤ dealhashKeys.length →
    ∃ least issued' q', Readable reader encode node q'.receivedChPrPair ∧ ∀ fuel ≥ least,
      issueDrawn G rand cfg reader encode clock node fuel dealhashKeys j issued q = (.ok (some issued'), q')
  | 0, issued, q, hread, _ => ⟨0, issued, q, hread, fun _ _ => rfl⟩
  | j + 1, issued, q, hread, hle => by
    obtain ⟨x, hx, hfresh⟩ : ∃ x ∈ dealhashKeys, x ∉ issued := by
      have hcard : issued.toFinset.card < dealhashKeys.toFinset.card := by
        have := List.toFinset_card_le issued
        rw [List.toFinset_card_of_nodup hkeys]
        omega
      obtain ⟨x, hx, hnot⟩ := Finset.exists_mem_notMem_of_card_lt_card hcard
      exact ⟨x, List.mem_toFinset.1 hx, fun h => hnot (List.mem_toFinset.2 h)⟩
    obtain ⟨first, dealhash, s, hdraw⟩ := hfair.exists_draw hx hfresh q.rand
    let drawn : Challenger σ := { q with rand := s }
    have hdrawn : Readable reader encode node drawn.receivedChPrPair := hread
    obtain ⟨q₂, hdeal, hread₂⟩ := challengeDeal_returns G rand clock hs hN hsmall hdrawn dealhash
    obtain ⟨later, issued', q', hread', hlater⟩ := issueDrawn_returns hfair hs hN hsmall hkeys j
      (issued ++ [dealhash]) q₂ hread₂ (by rw [List.length_append, List.length_singleton]; omega)
    refine ⟨max first later, issued', q', hread', fun fuel hfuel => ?_⟩
    have hmodify : (modify fun q => { q with rand := s } : Call (Challenger σ) Err Unit) q = (.ok (), drawn) := rfl
    rw [issueDrawn, Call.get_bind, Generator.draw_mono ((le_max_left _ _).trans hfuel) hdraw]
    exact (Call.bind_of_ok hmodify).trans ((Call.bind_of_ok hdeal).trans (hlater fuel ((le_max_right _ _).trans hfuel)))

theorem issueExpired_returns (hs : 1 ≤ cfg.s) (hN : 1 ≤ cfg.N) (hsmall : 3 * (cfg.s * cfg.N) ≤ 150)
    (dealhashKeys issued : List Hash) : ∀ (expiredDeal : List Hash) (q : Challenger σ),
    Readable reader encode node q.receivedChPrPair →
    ∃ q', issueExpired G rand cfg reader encode clock node dealhashKeys issued expiredDeal q = (.ok (), q')
  | [], q, _ => ⟨q, rfl⟩
  | dealhash :: expiredDeal, q, hread => by
    let drawn : Challenger σ := { q with rand := (G.below dealhashKeys.length q.rand).2 }
    have hdrawn : Readable reader encode node drawn.receivedChPrPair := hread
    obtain ⟨q₂, hdeal, hread₂⟩ : ∃ q₂, (if dealhash ∉ issued then
        challengeDeal G rand cfg reader encode clock node dealhash else pure ()) drawn = (.ok (), q₂) ∧
        Readable reader encode node q₂.receivedChPrPair := by
      split_ifs
      · exact ⟨drawn, rfl, hdrawn⟩
      · exact challengeDeal_returns G rand clock hs hN hsmall hdrawn dealhash
    have hmodify : (modify fun q => { q with rand := (G.below dealhashKeys.length q.rand).2 } :
      Call (Challenger σ) Err Unit) q = (.ok (), drawn) := rfl
    obtain ⟨q', hrest⟩ := issueExpired_returns hs hN hsmall dealhashKeys issued expiredDeal q₂ hread₂
    exact ⟨q', (Call.bind_of_ok hmodify).trans ((Call.bind_of_ok hdeal).trans hrest)⟩

/-- **The challenges are generated**: the draws end, and no challenge panics. -/
theorem generateChallenges_returns (order : MapOrder) (hfair : G.Fair) (hs : 1 ≤ cfg.s) (hN : 1 ≤ cfg.N)
    (hsmall : 3 * (cfg.s * cfg.N) ≤ 150) (hread : Readable reader encode node q.receivedChPrPair) :
    ∃ fuel q', generateChallenges G rand cfg reader encode clock node order fuel q = (.ok true, q') := by
  unfold generateChallenges NodeDeals.getActiveAndExpiredDealsHash
  dsimp only
  split_ifs with hzero
  · exact ⟨0, q, rfl⟩
  · dsimp only
    generalize hk : ((order.list node.activedeals).filter (· ≠ "") ++
      List.replicate ((order.list node.activedeals).count "") "").insertionSort (· ≤ ·) = dealhashKeys
    have hnodup : dealhashKeys.Nodup := by
      rw [← hk, (List.perm_insertionSort _ _).nodup_iff, (dealhashKeys_perm _).nodup_iff]
      exact order.nodup _
    obtain ⟨least, issued, q₁, hread₁, hdrawn⟩ := issueDrawn_returns G rand clock hfair hs hN hsmall hnodup
      (min numberOfDealToVerify dealhashKeys.length) [] q hread (by simp)
    obtain ⟨q', hexpired⟩ := issueExpired_returns G rand clock hs hN hsmall dealhashKeys issued _ q₁ hread₁
    exact ⟨least, q', (Call.bind_of_ok (hdrawn least le_rfl)).trans (Call.bind_of_ok hexpired)⟩

variable (cfg q)

/-- **The challenges of a block are generated, and are what they should be**: the draws end, no challenge asks
    for more blocks than there are, and the drawn and the expired deals get one pair each. -/
theorem challenges_generated (order : MapOrder) (hkeyed : q.Keyed) (hfair : G.Fair) (hs : 1 ≤ cfg.s) (hN : 1 ≤ cfg.N)
    (hsmall : 3 * (cfg.s * cfg.N) ≤ 150) (hread : Readable reader encode node q.receivedChPrPair) :
    (∃ fuel q', generateChallenges G rand cfg reader encode clock node order fuel q = (.ok true, q')) ∧
    ∀ fuel q', generateChallenges G rand cfg reader encode clock node order fuel q = (.ok true, q') →
      q'.Keyed ∧ ∃ drawn new, Generated encode clock node q q' drawn new :=
  ⟨generateChallenges_returns G rand clock order hfair hs hN hsmall hread,
    fun _ _ hrun => generateChallenges_spec hkeyed hrun⟩

end

/-! ## An expired deal and an active one -/

/-- A deal of no posts. -/
def bareDeal (expiryTime : Int64) : Deal := ⟨[], "sp", "", "key", 0, expiryTime⟩

/-- `a` has expired at the time 10, and `b` has not. -/
def twoDeals : NodeDeals :=
  ⟨{"a", "b"}, fun h => if h = "a" then some (bareDeal 5) else if h = "b" then some (bareDeal 100) else none⟩

/-- The key and the challenge must be there. -/
def testReader : Reader := ⟨fun _ => some 0, (· = "key"), (· = "ch"), fun _ _ _ => true⟩

/-- A proof for `a`. -/
def proofOfA : ProofPair := ⟨⟨"a", 3, "ch", some "proof"⟩, some "sig", "sp", 5, 0⟩

/-- The proof has come. -/
def proven : Challenger ℕ := ⟨0, fun h => if h = "a" then some proofOfA else none, []⟩

theorem challenges_generated_twoDeals : ∃ fuel q',
    generateChallenges .counter (fun s => ((s : ℤ), s + 1)) .makeTestConfig testReader (fun _ => "ch")
      ⟨10, 9, 10, 0⟩ twoDeals .sorted fuel proven = (.ok true, q') ∧
    ∃ drawn new, Generated (fun _ : Chall ℤ => "ch") ⟨10, 9, 10, 0⟩ twoDeals proven q' drawn new := by
  have hbucket : ∀ h deal, twoDeals.dealBucket h = some deal → deal = bareDeal 5 ∨ deal = bareDeal 100 := by
    intro h deal hdeal
    simp only [twoDeals] at hdeal
    split_ifs at hdeal
    · exact .inl (Option.some.inj hdeal).symm
    · exact .inr (Option.some.inj hdeal).symm
  have hproven : ∀ h pair, proven.receivedChPrPair h = some pair → h = "a" ∧ pair = proofOfA := by
    intro h pair hpair
    simp only [proven] at hpair
    split_ifs at hpair with ha
    exact ⟨ha, (Option.some.inj hpair).symm⟩
  have hread : Readable testReader (fun _ : Chall ℤ => "ch") twoDeals proven.receivedChPrPair := by
    refine ⟨fun h deal hdeal post hpost => rfl, fun h deal hdeal => ?_, fun _ => rfl, fun h deal pair hdeal hpair => ?_⟩
    · rcases hbucket h deal hdeal with rfl | rfl <;> rfl
    · obtain ⟨-, rfl⟩ := hproven h pair hpair
      rcases hbucket h deal hdeal with rfl | rfl <;> exact ⟨rfl, rfl, fun _ _ => rfl⟩
  have hkeyed : proven.Keyed := by
    intro h pair hpair
    obtain ⟨rfl, rfl⟩ := hproven h pair hpair
    rfl
  obtain ⟨⟨fuel, q', hrun⟩, hspec⟩ := challenges_generated .counter (fun s => ((s : ℤ), s + 1)) .makeTestConfig
    ⟨10, 9, 10, 0⟩ proven .sorted hkeyed Generator.fair_counter (by decide) (by decide) (by decide) hread
  exact ⟨fuel, q', hrun, (hspec fuel q' hrun).2⟩

end Challenges
end Timbre
