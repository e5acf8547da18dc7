/-
  Nonces along runs.

  A transfer, a vote and a candidate transaction are applied only with the nonce that is due
  for the sender, and count it up; everything else that a block does leaves the nonces as
  they are.  A PoDF is checked but not counted, a registration in a genesis block is counted
  but not checked, and the clean-up of a digest block may forget a nonce.  **Without these
  no transaction takes effect twice** (`noReplay_of_run`).
-/
import Timbre.Lib.Numbering
import Timbre.Wallet.Run
import Timbre.Wallet.Undo

namespace Timbre

open Call Numbering

/-- The transactions of a block that are applied. -/
def PbBlock.taken (block : PbBlock) : List Transaction :=
  if block.isGenesis then block.transactions.filter fun tx => tx.type = .becomeCandidate
  else if block.isDigestBlock then []
  else block.transactions

/-- The transactions that are applied in a run. -/
def Event.taken : Event → List Transaction
  | .block b _ => b.taken
  | .outside => []

/-- The entry books on balances only. -/
def Entry.OnBalances : Entry → Prop
  | transaction _ | registered _ => False
  | _ => True

namespace WalletManager

variable {E : Env} {bRound : Int64} {wm wm' w : WalletManager} {a miner : Address} {block : PbBlock}
  {order : MapOrder} {es : List Event} {tx : Transaction} {x : Entry} {xs : List Entry}

def nonces (wm : WalletManager) (a : Address) : UInt64 := (wm.wallet a).nonce

/-- The transaction carries the nonce that its sender is expected to use next, and counts it
    up; all other nonces stay as they are. -/
def CountsUp (tx : Transaction) (wm wm' : WalletManager) : Prop :=
  Due Transaction.senderId Transaction.nonce tx wm.nonces wm'.nonces

/-- The call that applies a transaction of a block. -/
def perform (E : Env) (block : PbBlock) (miner : Address) (tx : Transaction) : WM Unit :=
  if block.isGenesis then applyDelRegTxForGenesis E tx block.roundNum
  else applyTransaction E miner block.roundNum tx

/-- The state in which the first transaction of a block is applied. -/
def started (E : Env) (block : PbBlock) (miner : Address) (wm : WalletManager) : WalletManager :=
  if block.isGenesis then
    ((do checkAndPutWalletByAddress block.minerPublicKey
         setCandidate block.minerPublicKey true : WM Unit) wm).2
  else if block.isDigestBlock then wm
  else (giveBlockReward E block miner (wm.put miner)).2

/-- The transactions of an event are applied one after the other, each with the nonce that
    is due, and nothing else changes a nonce. -/
def Orderly (E : Env) : Event → WalletManager → WalletManager → Prop
  | .block block miner, wm, wm' => (started E block miner wm).nonces = wm.nonces ∧
      ∃ t, Steps (fun tx s s' => perform E block miner tx s = (.ok (), s') ∧ CountsUp tx s s')
        block.taken (started E block miner wm) t ∧ wm'.nonces = t.nonces
  | .outside, wm, wm' => wm'.nonces = wm.nonces

/-- The condition on an event: no PoDF; in a genesis block the nonces that are due; and no
    nonce that the clean-up would forget. -/
def InOrder (wm : WalletManager) : Event → Prop
  | .block block _ =>
    if block.isGenesis then ∀ pre tx post, block.taken = pre ++ tx :: post →
      tx.nonce = wm.nonces tx.senderId + UInt64.ofNat (count Transaction.senderId tx.senderId pre + 1)
    else if block.isDigestBlock then
      ∀ a ∈ wm.keys, a ≠ wm.myAddress → (wm.wallet a).unusedWallet = true → wm.nonces a = 0
    else ∀ tx ∈ block.transactions, tx.type ≠ .podf
  | .outside => True

/-! ## What changes nonces -/

theorem nonces_of_book {e : Book} (h : wm'.book = wm.book + e) (he : ∀ a, (e a).nonce = 0) :
    wm'.nonces = wm.nonces := by
  funext a
  have := congrArg Account.nonce (congrFun h a)
  rwa [Pi.add_apply, Account.nonce_add, he, add_zero] at this

theorem nonces_bump (h : wm'.book = wm.book + Book.bump a 1) :
    wm'.nonces = Function.update wm.nonces a (wm.nonces a + 1) := by
  funext b
  have hb := congrArg Account.nonce (congrFun h b)
  rw [Pi.add_apply, Account.nonce_add, Transaction.nonce_bump] at hb
  refine (hb : wm'.nonces b = _).trans ?_
  by_cases hba : b = a
  · subst hba
    rw [Function.update_self, if_pos rfl]
    rfl
  · rw [Function.update_of_ne hba, if_neg (Ne.symm hba), add_zero]
    rfl

theorem nonce_effect_onBalances (hx : x.OnBalances) (a : Address) :
    (x.effect E bRound miner a).nonce = 0 := by
  cases x with
  | opened | recorded => rfl
  | paid => exact Transaction.nonce_pay _ _ _
  | charged => exact Transaction.nonce_pay _ _ _
  | transaction | registered => exact hx.elim

theorem AllMade.nonces (h : AllMade E bRound miner xs wm wm') (hxs : ∀ x ∈ xs, x.OnBalances) :
    wm'.nonces = wm.nonces :=
  Steps.invariant (I := fun w => w.nonces = wm.nonces) h rfl fun x hx _ _ hs hmade =>
    (nonces_of_book hmade.book (nonce_effect_onBalances (hxs x hx))).trans hs

theorem onBalances_deals {deals : List Deal} :
    ∀ x ∈ deals.flatMap (dealEntries E bRound miner), x.OnBalances := by
  intro x hx
  simp only [List.mem_flatMap, dealEntries, List.mem_append, List.mem_singleton, List.mem_map] at hx
  obtain ⟨deal, -, (rfl | ⟨post, -, rfl⟩) | rfl⟩ := hx <;> trivial

theorem onBalances_pairs : ∀ (t : Times) (pairs : List ChPrPair),
    ∀ x ∈ pairsEntries E t pairs, x.OnBalances
  | _, [], _, hx => by simp [pairsEntries] at hx
  | t, cProof :: pairs, x, hx => by
    unfold pairsEntries at hx
    split at hx
    · simp at hx
    · rename_i deal _
      rw [List.mem_append, pairEntries, List.mem_cons] at hx
      rcases hx with (rfl | hx) | hx
      · trivial
      · split_ifs at hx
        · simp only [paymentEntries, List.mem_append, List.mem_flatMap, List.mem_cons,
            List.not_mem_nil, or_false] at hx
          obtain rfl | ⟨post, -, rfl | rfl⟩ := hx <;> trivial
        · simp at hx
      · exact onBalances_pairs (t.record deal cProof) pairs x hx

theorem Applied.countsUp (h : Applied E bRound miner tx wm wm') (htype : tx.type ≠ .podf) :
    CountsUp tx wm wm' where
  number := h.valid.nonce
  counter := by
    have hord : tx.Ordinary := by
      cases h.valid with
      | plain hp _ =>
        rcases hp with ht | ht | ht <;> simp [Transaction.Ordinary, ht]
      | vote ht _ => simp [Transaction.Ordinary, ht]
      | podf _ ht _ => exact absurd ht htype
    funext b
    have hb := congrArg Account.nonce (congrFun h.book b)
    rw [Pi.add_apply, Account.nonce_add, Transaction.nonce_effect hord] at hb
    refine (hb : wm'.nonces b = _).trans ?_
    by_cases hs : b = tx.senderId
    · subst hs
      rw [Function.update_self, if_pos rfl]
      rfl
    · rw [Function.update_of_ne hs, if_neg (Ne.symm hs), add_zero]
      rfl

/-! ## Blocks -/

theorem nonces_giveBlockReward {t₀ : WalletManager} (hm : miner ∈ wm.keys)
    (h : giveBlockReward E block miner wm = (.ok (), t₀)) : t₀.nonces = wm.nonces :=
  nonces_of_book ((giveBlockReward_spec hm block).ok h).book fun _ => Transaction.nonce_pay _ _ _

/-- An ordinary block without PoDFs. -/
theorem orderly_of_parts {t₀ t₁ t₂ : WalletManager} (hg : block.isGenesis = false)
    (hd : block.isDigestBlock = false)
    (h : BlockApplied E block miner (wm.put miner) t₀ t₁ t₂ wm')
    (hpodf : ∀ tx ∈ block.transactions, tx.type ≠ .podf) :
    Orderly E (.block block miner) wm wm' := by
  have hm : miner ∈ (wm.put miner).keys := Finset.mem_insert_self _ _
  have hm₀ : miner ∈ t₀.keys := ((giveBlockReward_spec hm block).ok h.reward).keys ▸ hm
  have hm₁ : miner ∈ t₁.keys := ((applyTransactions_spec hm₀ _).ok h.transactions).1
  have hstarted : started E block miner wm = t₀ := by
    simp only [started, hg, hd, Bool.false_eq_true, if_false, h.reward]
  have htaken : block.taken = block.transactions := by
    simp only [PbBlock.taken, hg, hd, Bool.false_eq_true, if_false]
  have hreward : t₀.nonces = (wm.put miner).nonces := nonces_giveBlockReward hm h.reward
  rw [Orderly, hstarted, htaken]
  refine ⟨hreward, t₁, ?_, ?_⟩
  · refine Steps.strengthen (forEach_ok h.transactions) (I := fun w => miner ∈ w.keys) hm₀
      fun tx htx s s' hs hcall => ?_
    have happlied := (applyTransaction_spec hs).ok hcall
    exact ⟨happlied.toPosted.mem hs, by simpa [perform, hg] using hcall,
      happlied.countsUp (hpodf tx htx)⟩
  · have hdeals := (applyDeals_spec hm₁ _).ok h.deals
    have hpairs := (applyChPrPair_spec block.roundNum miner _ t₂).ok h.pairs
    exact (hpairs.made.nonces (onBalances_pairs _ _)).trans (hdeals.made.nonces onBalances_deals)

/-- A digest block that forgets no nonce. -/
theorem orderly_of_digest (hgen : block.isGenesis = false)
    (hd : block.isDigestBlock = true) (h : DigestApplied E miner order block (wm.put miner) w wm')
    (hforget : ∀ a ∈ wm.keys, a ≠ wm.myAddress → (wm.wallet a).unusedWallet = true →
      wm.nonces a = 0) : Orderly E (.block block miner) wm wm' := by
  have hstarted : started E block miner wm = wm := by
    simp only [started, hgen, hd, Bool.false_eq_true, if_false, if_true]
  have htaken : block.taken = [] := by
    simp only [PbBlock.taken, hgen, hd, Bool.false_eq_true, if_false, if_true]
  rw [Orderly, hstarted, htaken]
  refine ⟨rfl, wm, .nil _, funext fun a => ?_⟩
  have hreset : wm'.nonces a = (wm.put miner).tidied.nonces a := by
    have hw : w.nonces = (wm.put miner).tidied.nonces := nonces_of_book h.rewarded.book fun b => by
      unfold digestReward
      split_ifs
      · exact Transaction.nonce_pay _ _ _
      · rfl
    exact (congrArg Account.nonce (h.reset.book a)).trans (congrFun hw a)
  rw [hreset]
  by_cases ha : a ∈ (wm.put miner).tidied.keys
  · rw [nonces, wallet_tidied ha]
    rfl
  · rw [nonces, wallet_absent ha]
    by_cases hmem : a ∈ wm.keys
    · obtain ⟨hne, hunused⟩ := (notMem_tidied_iff (Finset.mem_insert_of_mem hmem)).1 ha
      exact (hforget a hmem hne hunused).symm
    · rw [nonces, wallet_absent hmem]

/-- A genesis block with the nonces that are due. -/
theorem orderly_of_genesis (hg : block.isGenesis = true)
    (h : applyGenesis E block wm = (.ok (), wm'))
    (hdue : ∀ pre tx post, block.taken = pre ++ tx :: post → tx.nonce =
      wm.nonces tx.senderId + UInt64.ofNat (count Transaction.senderId tx.senderId pre + 1)) :
    Orderly E (.block block miner) wm wm' := by
  obtain ⟨_, s₀, hput, h⟩ := bind_ok h
  obtain ⟨_, s₁, hset, h⟩ := bind_ok h
  obtain ⟨_, s₂, hregister, hreward⟩ := bind_ok h
  obtain rfl : wm.put block.minerPublicKey = s₀ := congrArg Prod.snd hput
  have hstarted : started E block miner wm = s₁ := by
    rw [started, if_pos hg]
    exact congrArg Prod.snd hset
  have htaken : block.taken = block.transactions.filter fun tx => tx.type = .becomeCandidate := by
    rw [PbBlock.taken, if_pos hg]
  have hm : block.minerPublicKey ∈ (wm.put block.minerPublicKey).keys := Finset.mem_insert_self _ _
  have hs₁ : s₁.nonces = wm.nonces := by
    obtain rfl : _ = s₁ := congrArg Prod.snd hset
    exact nonces_of_book (e := 0) (move_modify (E := E) hm rfl rfl rfl rfl).book fun _ => rfl
  have htypes : ∀ tx ∈ block.taken, tx.type = .becomeCandidate := fun tx htx => by
    rw [htaken] at htx
    simpa using (List.mem_filter.1 htx).2
  rw [← htaken] at hregister
  rw [Orderly, hstarted]
  refine ⟨hs₁, s₂, ?_, ?_⟩
  · have hsteps := due_of_numbers nonces (each_ok hregister) (fun tx htx s s' hcall => ?_)
      fun pre tx post hsplit => hs₁ ▸ hdue pre tx post hsplit
    · simpa only [perform, if_pos hg, CountsUp] using hsteps
    · have hmade := ((applyDelRegTxForGenesis_spec miner (htypes tx htx) s).ok hcall).1
      exact nonces_bump hmade.book
  · have hm₁ : block.minerPublicKey ∈ s₁.keys := by
      obtain rfl : _ = s₁ := congrArg Prod.snd hset
      exact Finset.mem_insert_self _ _
    have hm₂ := ((registrations_spec miner htypes hm₁).ok hregister).1.1
    exact nonces_giveBlockReward hm₂ hreward

theorem Happens.orderly {e : Event} (h : Happens E e wm wm') (hg : wm.Good) (horder : InOrder wm e) :
    Orderly E e wm wm' := by
  cases h with
  | @block block minerAdd _ _ order h =>
    simp only [InOrder] at horder
    by_cases hgen : block.isGenesis = true
    · rw [if_pos hgen] at horder
      unfold checkAndUpdateWalletStates at h
      rw [if_pos hgen] at h
      exact orderly_of_genesis hgen h horder
    · rw [Bool.not_eq_true] at hgen
      by_cases hd : block.isDigestBlock = true
      · obtain ⟨w, hw⟩ := accepted_digest hgen hd (hg.put _).sound.losesNoVotes h
        simp only [hgen, hd, Bool.false_eq_true, if_false, if_true] at horder
        exact orderly_of_digest hgen hd hw horder
      · rw [Bool.not_eq_true] at hd
        simp only [hgen, hd, Bool.false_eq_true, if_false] at horder
        unfold checkAndUpdateWalletStates at h
        simp only [hgen, hd, Bool.false_eq_true, if_false] at h
        obtain ⟨_, s₀, hput, h⟩ := bind_ok h
        obtain rfl : wm.put minerAdd = s₀ := congrArg Prod.snd hput
        obtain ⟨t₀, t₁, t₂, hparts⟩ := applyBlock_parts h
        exact orderly_of_parts hgen hd hparts horder
  | outside => rfl

/-! ## Runs -/

/-- The numbering of the transactions of an event. -/
theorem Orderly.due {e : Event} (h : Orderly E e wm wm') :
    Steps (Due Transaction.senderId Transaction.nonce) e.taken wm.nonces wm'.nonces := by
  cases e with
  | block block minerAdd =>
    obtain ⟨hstarted, t, hsteps, hend⟩ := h
    have hdue : Steps (Due Transaction.senderId Transaction.nonce) block.taken
        (started E block minerAdd wm).nonces t.nonces :=
      Steps.image (F := nonces) (hsteps.mono fun _ _ _ _ h => h.2)
    rwa [hstarted, ← hend] at hdue
  | outside =>
    rw [show wm'.nonces = wm.nonces from h]
    exact .nil _

/-- The numbering of the transactions of a run. -/
theorem due_of_orderly (h : Steps (Orderly E) es wm wm') :
    Steps (Due Transaction.senderId Transaction.nonce) (es.flatMap Event.taken) wm.nonces
      wm'.nonces := by
  have hdue : Steps (fun e => Steps (Due Transaction.senderId Transaction.nonce) e.taken) es
      wm.nonces wm'.nonces := Steps.image (F := nonces) (h.mono fun _ _ _ _ h => h.due)
  exact hdue.flatMap

/-- **Replay protection.**  In a run whose events meet the condition every transaction that
    is applied has the nonce that is due for its sender and counts it up, and no transaction
    is applied twice. -/
theorem noReplay_of_run (E : Env) (es : List Event) (wm wm' : WalletManager) (h₀ : Fresh wm)
    (h : Steps (fun e wm wm' => Happens E e wm wm' ∧ InOrder wm e) es wm wm')
    (hcount : ∀ a, count Transaction.senderId a (es.flatMap Event.taken) ≤ 2 ^ 64) :
    Steps (Orderly E) es wm wm' ∧ (es.flatMap Event.taken).Nodup := by
  have horderly : Steps (Orderly E) es wm wm' := h.strengthen (I := Good) h₀.good
    fun _ _ _ _ hs hx => ⟨hx.1.good hs, hx.1.orderly hs hx.2⟩
  exact ⟨horderly, nodup (due_of_orderly horderly) hcount⟩

/-! ## A transfer, and a PoDF -/

/-- A block with a transfer. -/
def transferBlock : PbBlock := .simple [.simple .transfer "a" 1 100 "b" ""] [] []

theorem noReplay_of_run_transfer :
    Steps (Orderly Env.simple) [.block transferBlock "m"] (newWalletManager "m")
        (afterBlock transferBlock) ∧
      ([Event.block transferBlock "m"].flatMap Event.taken).Nodup := by
  refine noReplay_of_run Env.simple _ _ _ (fresh_newWalletManager "m")
    (.single ⟨happens_afterBlock (by decide), ?_⟩) fun a => ?_
  · intro tx htx
    obtain rfl : tx = .simple .transfer "a" 1 100 "b" "" := List.mem_singleton.1 htx
    decide
  · have hle : count Transaction.senderId a ([Event.block transferBlock "m"].flatMap Event.taken) ≤
        ([Event.block transferBlock "m"].flatMap Event.taken).length := List.countP_le_length
    exact hle.trans (by decide)

/-- A network on which the miner `"m"` has signed two blocks of height 1. -/
def doubleSigned : Env :=
  { Env.simple with
    podfPayload := fun _ => .ok (some (.simple 1 "x" "m"), some (.simple 1 "y" "m")) }

/-- The genesis block of the miner `"m"`. -/
def genesisOfMiner : PbBlock := { PbBlock.simple [] [] [] with height := 0 }

/-- A block with a report of the miner. -/
def podfBlock : PbBlock := .simple [.simple .podf "a" 1 0 "" ""] [] []

theorem run_podf : Run doubleSigned [.block genesisOfMiner "m", .block podfBlock "m"]
    (newWalletManager "m")
    (after doubleSigned podfBlock (after doubleSigned genesisOfMiner (newWalletManager "m"))) :=
  .cons (happens_after (by decide)) (.single (happens_after (by decide)))

/-- A PoDF does not count up the nonce of its sender. -/
theorem not_noReplay : ¬ ∀ (E : Env) (es : List Event) (wm wm' : WalletManager), Fresh wm →
    Run E es wm wm' → Steps (Orderly E) es wm wm' ∧ (es.flatMap Event.taken).Nodup := by
  intro h
  have horderly := (h _ _ _ _ (fresh_newWalletManager "m") run_podf).1
  have hnonce := counter_eq (due_of_orderly horderly) "a"
  revert hnonce
  decide

end WalletManager
end Timbre
