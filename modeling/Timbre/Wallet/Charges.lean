/-
  The charges for deals along runs.

  A deal is validated against the balances of its posters only.  A trace of a run lists the
  deals in the order in which they are charged; **a deal is charged as often as the blocks
  of the run hold a copy of it** (`chargedOnce_iff`).
-/
import Timbre.Wallet.Run

namespace Timbre

open Call

/-- The deals that are charged in an ordinary block. -/
def Event.deals : Event → List Deal
  | .block b _ => if b.isGenesis || b.isDigestBlock then [] else b.deals
  | .outside => []

namespace WalletManager

variable {E : Env} {bRound : Int64} {wm wm' t t' t₀ t₁ t₂ : WalletManager} {miner : Address}
  {block : PbBlock} {order : MapOrder} {es : List Event} {deals : List Deal}

/-- The charge for a deal, with the wallets before it and after it. -/
structure Charge where
  deal : Deal
  before : WalletManager
  after : WalletManager

/-- The rounds of the loop of `applyDeals`. -/
inductive DealTrace (E : Env) (bRound : Int64) (miner : Address) :
    List Deal → List Charge → WalletManager → WalletManager → Prop
  | nil (t : WalletManager) : DealTrace E bRound miner [] [] t t
  | cons {deal : Deal} {deals : List Deal} {cs : List Charge} {t t₁ t' : WalletManager} :
      applyDeal E miner bRound deal t = (.ok (), t₁) → DealTrace E bRound miner deals cs t₁ t' →
      DealTrace E bRound miner (deal :: deals) (⟨deal, t, t₁⟩ :: cs) t t'

/-- A run with all charges for deals. -/
inductive ChargeTrace (E : Env) : List Event → List Charge → WalletManager → WalletManager → Prop
  | nil (wm : WalletManager) : ChargeTrace E [] [] wm wm
  | block {block : PbBlock} {miner : Address} {es : List Event} {cs cs' : List Charge}
      {wm t₀ t₁ t₂ wm₁ wm' : WalletManager} :
      block.isGenesis = false → block.isDigestBlock = false →
      BlockApplied E block miner (wm.put miner) t₀ t₁ t₂ wm₁ →
      DealTrace E block.roundNum miner block.deals cs t₁ t₂ → ChargeTrace E es cs' wm₁ wm' →
      ChargeTrace E (.block block miner :: es) (cs ++ cs') wm wm'
  | other {e : Event} {es : List Event} {cs : List Charge} {wm wm₁ wm' : WalletManager} :
      Happens E e wm wm₁ → e.deals = [] → ChargeTrace E es cs wm₁ wm' →
      ChargeTrace E (e :: es) cs wm wm'

/-- The entries of the deal have been made: every author has paid for every post. -/
def Charge.Paid (E : Env) (c : Charge) : Prop :=
  ∃ bRound miner, AllMade E bRound miner (dealEntries E bRound miner c.deal) c.before c.after

/-- No deal, identified by its hash, is charged for its posts twice. -/
def ChargedOnce (hash : Deal → Hash) (cs : List Charge) : Prop :=
  cs.Pairwise fun c c' => c.deal.list ≠ [] → c'.deal.list ≠ [] → hash c.deal ≠ hash c'.deal

/-- No two copies of a deal with posts stand in the blocks. -/
def NoCopies (hash : Deal → Hash) (es : List Event) : Prop :=
  (es.flatMap Event.deals).Pairwise fun d d' => d.list ≠ [] → d'.list ≠ [] → hash d ≠ hash d'

theorem exists_dealTrace
    (h : Steps (fun deal t t' => applyDeal E miner bRound deal t = (.ok (), t')) deals t t') :
    miner ∈ t.keys → ∃ cs, DealTrace E bRound miner deals cs t t' ∧ ∀ c ∈ cs, c.Paid E := by
  induction h with
  | nil => exact fun _ => ⟨[], .nil _, by simp⟩
  | @cons deal deals t t₁ t' hx _ ih =>
    intro hm
    have hdeal := (applyDeal_spec hm deal).ok hx
    obtain ⟨cs, htrace, hcs⟩ := ih (hdeal.mem hm)
    refine ⟨_, .cons hx htrace, ?_⟩
    simp only [List.mem_cons, forall_eq_or_imp]
    exact ⟨⟨bRound, miner, hdeal.made⟩, hcs⟩

theorem DealTrace.map_deal {cs : List Charge} (h : DealTrace E bRound miner deals cs t t') :
    cs.map Charge.deal = deals := by
  induction h with
  | nil => rfl
  | cons _ _ ih => rw [List.map_cons, ih]

theorem ChargeTrace.map_deal {cs : List Charge} (h : ChargeTrace E es cs wm wm') :
    cs.map Charge.deal = es.flatMap Event.deals := by
  induction h with
  | nil => rfl
  | block hg hd _ hdeals _ ih =>
    rw [List.map_append, hdeals.map_deal, ih, List.flatMap_cons, Event.deals, hg, hd]
    rfl
  | other _ hnone _ ih => rw [ih, List.flatMap_cons, hnone, List.nil_append]

/-- Every run has its trace, and in the trace every author pays. -/
theorem exists_chargeTrace (h : Run E es wm wm') :
    ∃ cs, ChargeTrace E es cs wm wm' ∧ ∀ c ∈ cs, c.Paid E := by
  induction h with
  | nil => exact ⟨[], .nil _, by simp⟩
  | @cons e es s s₁ s' hx _ ih =>
    obtain ⟨cs, htrace, hcs⟩ := ih
    cases hx with
    | @block block minerAdd _ _ order hx =>
      by_cases hord : block.isGenesis = false ∧ block.isDigestBlock = false
      · obtain ⟨hg, hd⟩ := hord
        unfold checkAndUpdateWalletStates at hx
        simp only [hg, hd, Bool.false_eq_true, if_false] at hx
        obtain ⟨_, s₀, hput, hx⟩ := bind_ok hx
        obtain rfl : s.put minerAdd = s₀ := congrArg Prod.snd hput
        obtain ⟨t₀, t₁, t₂, hparts⟩ := applyBlock_parts hx
        have hm : minerAdd ∈ (s.put minerAdd).keys := Finset.mem_insert_self _ _
        have hm₀ : minerAdd ∈ t₀.keys := ((giveBlockReward_spec hm block).ok hparts.reward).keys ▸ hm
        have hm₁ := ((applyTransactions_spec hm₀ _).ok hparts.transactions).1
        obtain ⟨cs₁, hdeals, hcs₁⟩ := exists_dealTrace (forEach_ok hparts.deals) hm₁
        refine ⟨cs₁ ++ cs, .block hg hd hparts hdeals htrace, fun c hc => ?_⟩
        exact (List.mem_append.1 hc).elim (hcs₁ c) (hcs c)
      · refine ⟨cs, .other (.block order hx) ?_ htrace, hcs⟩
        rw [Event.deals, if_pos]
        rcases not_and_or.1 hord with h | h <;> simp [h]
    | outside _ executor node => exact ⟨cs, .other (.outside s executor node) rfl htrace, hcs⟩

theorem ChargeTrace.chargedOnce {cs : List Charge} (h : ChargeTrace E es cs wm wm')
    (hash : Deal → Hash) : ChargedOnce hash cs ↔ NoCopies hash es := by
  rw [NoCopies, ← h.map_deal, List.pairwise_map, ChargedOnce]

/-- **A storage deal is charged as often as the blocks hold a copy of it.**  Every run has a
    trace of charges, in which every author pays; and no deal is charged twice exactly if no
    two deals with posts in the ordinary blocks have the same hash. -/
theorem chargedOnce_iff (E : Env) (hash : Deal → Hash) (es : List Event) (wm wm' : WalletManager)
    (h : Run E es wm wm') :
    (∃ cs, ChargeTrace E es cs wm wm' ∧ ∀ c ∈ cs, c.Paid E) ∧
      ∀ cs, ChargeTrace E es cs wm wm' → (ChargedOnce hash cs ↔ NoCopies hash es) :=
  ⟨exists_chargeTrace h, fun _ htrace => htrace.chargedOnce hash⟩

/-! ## A deal that is charged twice -/

/-- A deal with one post of `"a"`. -/
def dealOfA : Deal :=
  { list := [⟨"a", "a", 100, "", ""⟩], spid := "s", spSig := "", publicKey := "", timestamp := 0,
    expiryTime := 1000 }

/-- A block with some copies of the deal. -/
def copiesBlock (n : ℕ) : PbBlock := .simple [] (List.replicate n dealOfA) []

theorem run_copies : Run Env.simple [.block (copiesBlock 2) "m"] (newWalletManager "m")
    (afterBlock (copiesBlock 2)) := .single (happens_afterBlock (by decide))

theorem chargedOnce_iff_copies : (∃ cs, ChargeTrace Env.simple [.block (copiesBlock 2) "m"] cs
      (newWalletManager "m") (afterBlock (copiesBlock 2)) ∧ ∀ c ∈ cs, c.Paid Env.simple) ∧
    ∀ cs, ChargeTrace Env.simple [.block (copiesBlock 2) "m"] cs (newWalletManager "m")
      (afterBlock (copiesBlock 2)) → (ChargedOnce Deal.spSig cs ↔
        NoCopies Deal.spSig [.block (copiesBlock 2) "m"]) :=
  chargedOnce_iff Env.simple Deal.spSig _ _ _ run_copies

/-- The second copy of a deal is charged again. -/
theorem not_chargedOnce : ¬ ∀ (E : Env) (hash : Deal → Hash) (es : List Event)
    (wm wm' : WalletManager) (cs : List Charge), Fresh wm → ChargeTrace E es cs wm wm' →
    ChargedOnce hash cs := by
  intro h
  obtain ⟨cs, htrace, -⟩ := exists_chargeTrace run_copies
  have honce := h _ Deal.spSig _ _ _ cs (fresh_newWalletManager "m") htrace
  rw [htrace.chargedOnce] at honce
  revert honce
  simp only [NoCopies]
  decide

end WalletManager
end Timbre
