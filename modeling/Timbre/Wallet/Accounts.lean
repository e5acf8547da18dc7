/-
  The accounts behind the wallets, and the vote power that they give to the candidates.

  An account is what a wallet says about its owner: the balance, the nonce and the votes.
  Accounts form a group, and what an operation does to them is the addition of an effect
  (`Shift`).  The vote power of a candidate is kept up to date step by step; `drift` is the
  difference to the sum of the shares that the accounts give to the candidate, and **the
  operations on the wallets leave the drift of every wallet as it is**.
-/
import Mathlib.Data.UInt
import Timbre.Wallet.Blocks
import Timbre.Lib.Poll
import Timbre.Lib.Postings

namespace Timbre

/-- What a wallet says about its owner; also a change of it. -/
@[ext]
structure Account where
  balance : Int64
  nonce : UInt64
  voteLeft : ℤ
  votes : Address → ℤ

namespace Account

instance : Zero Account := ⟨⟨0, 0, 0, 0⟩⟩
instance : Add Account :=
  ⟨fun x y => ⟨x.balance + y.balance, x.nonce + y.nonce, x.voteLeft + y.voteLeft, x.votes + y.votes⟩⟩
instance : Neg Account := ⟨fun x => ⟨-x.balance, -x.nonce, -x.voteLeft, -x.votes⟩⟩

variable (x y : Account)

@[simp] theorem balance_zero : (0 : Account).balance = 0 := rfl
@[simp] theorem nonce_zero : (0 : Account).nonce = 0 := rfl
@[simp] theorem voteLeft_zero : (0 : Account).voteLeft = 0 := rfl
@[simp] theorem votes_zero : (0 : Account).votes = 0 := rfl
@[simp] theorem balance_add : (x + y).balance = x.balance + y.balance := rfl
@[simp] theorem nonce_add : (x + y).nonce = x.nonce + y.nonce := rfl
@[simp] theorem voteLeft_add : (x + y).voteLeft = x.voteLeft + y.voteLeft := rfl
@[simp] theorem votes_add : (x + y).votes = x.votes + y.votes := rfl
@[simp] theorem balance_neg : (-x).balance = -x.balance := rfl
@[simp] theorem nonce_neg : (-x).nonce = -x.nonce := rfl
@[simp] theorem voteLeft_neg : (-x).voteLeft = -x.voteLeft := rfl
@[simp] theorem votes_neg : (-x).votes = -x.votes := rfl

@[simp]
theorem mk_add_mk (b b' : Int64) (n n' : UInt64) (l l' : ℤ) (v v' : Address → ℤ) :
    (⟨b, n, l, v⟩ + ⟨b', n', l', v'⟩ : Account) = ⟨b + b', n + n', l + l', v + v'⟩ := rfl

instance : AddCommGroup Account where
  add_assoc x y z := by ext <;> simp [add_assoc]
  zero_add x := by ext <;> simp
  add_zero x := by ext <;> simp
  add_comm x y := by ext <;> simp [add_comm]
  neg_add_cancel x := by ext <;> simp
  nsmul := nsmulRec
  zsmul := zsmulRec

variable {x y : Account}

/-- No vote is negative, and with what is left to vote they make a hundred percent. -/
structure Sound (x : Account) : Prop where
  nonneg : ∀ c, 0 ≤ x.votes c
  total : ∃ S : Finset Address, (∀ c ∉ S, x.votes c = 0) ∧ ∑ c ∈ S, x.votes c + x.voteLeft = 100

theorem Sound.congr (h : x.Sound) (hv : y.votes = x.votes) (hl : y.voteLeft = x.voteLeft) : y.Sound :=
  ⟨hv ▸ h.nonneg, by simpa only [hv, hl] using h.total⟩

/-- A voter who has everything left to vote has not voted. -/
theorem Sound.votes_eq_zero (h : x.Sound) (hl : x.voteLeft = 100) : x.votes = 0 := by
  obtain ⟨S, hS, hsum⟩ := h.total
  have hzero : ∑ c ∈ S, x.votes c = 0 := by omega
  funext c
  by_cases hc : c ∈ S
  · exact (Finset.sum_eq_zero_iff_of_nonneg fun c _ => h.nonneg c).1 hzero c hc
  · exact hS c hc

theorem Sound.ballot (h : x.Sound) {c : Address} {p : ℤ} (hp : 0 ≤ x.votes c + p) :
    (x + ⟨0, 0, -p, Pi.single c p⟩).Sound := by
  obtain ⟨S, hS, hsum⟩ := h.total
  refine ⟨fun b => ?_, insert c S, fun b hb => ?_, ?_⟩
  · by_cases hb : b = c
    · subst hb
      simpa using hp
    · simpa [hb] using h.nonneg b
  · rw [Finset.mem_insert, not_or] at hb
    simp [hb.1, hS b hb.2]
  · have hx : ∑ b ∈ insert c S, x.votes b = ∑ b ∈ S, x.votes b :=
      (Finset.sum_subset (Finset.subset_insert c S) fun b _ hb => hS b hb).symm
    simp only [votes_add, voteLeft_add, Pi.add_apply, Finset.sum_add_distrib, hx,
      Finset.sum_pi_single', Finset.mem_insert_self, if_true]
    omega

end Account

/-- The accounts of all addresses. -/
abbrev Book : Type := Address → Account

def Wallet.account (w : Wallet) : Account := ⟨w.balance, w.nonce, w.voteLeft, w.voted.get⟩

theorem Wallet.addVotePower_zero (w : Wallet) : w.addVotePower 0 = w := by
  rw [Wallet.addVotePower, UInt64.add_zero]

namespace Book

/-- The effect of adding to a balance. -/
def pay (a : Address) (delta : Int64) : Book := Pi.single a ⟨delta, 0, 0, 0⟩

/-- The effect of adding to a nonce. -/
def bump (a : Address) (n : UInt64) : Book := Pi.single a ⟨0, n, 0, 0⟩

/-- The effect of a vote. -/
def ballot (a c : Address) (percent : ℤ) : Book := Pi.single a ⟨0, 0, -percent, Pi.single c percent⟩

/-- The shares that a candidate gets from all accounts. -/
noncomputable def stake (E : Env) (b : Book) (c : Address) : UInt64 :=
  Poll.tally E.share (fun v => (b v).votes c) fun v => (b v).balance

theorem pay_neg (a : Address) (x : Int64) : pay a (-x) = -pay a x := by
  unfold pay
  rw [← Pi.single_neg]
  congr 1
  ext <;> simp

theorem bump_neg (a : Address) (n : UInt64) : bump a (-n) = -bump a n := by
  unfold bump
  rw [← Pi.single_neg]
  congr 1
  ext <;> simp

theorem ballot_neg (a c : Address) (p : ℤ) : ballot a c (-p) = -ballot a c p := by
  unfold ballot
  rw [← Pi.single_neg]
  congr 1
  ext <;> simp [Pi.single_neg]

/-- The effect leaves all votes as they are. -/
def Voteless (e : Book) : Prop := ∀ a, (e a).votes = 0 ∧ (e a).voteLeft = 0

theorem Voteless.add {e e' : Book} (h : e.Voteless) (h' : e'.Voteless) : (e + e').Voteless := by
  intro a
  simp [h a, h' a]

theorem voteless_single (a : Address) (d : Int64) (n : UInt64) :
    Voteless (Pi.single a ⟨d, n, 0, 0⟩) := by
  intro b
  by_cases hb : b = a
  · subst hb
    simp
  · simp [hb]

theorem voteless_pay (a : Address) (d : Int64) : (pay a d).Voteless := voteless_single a d 0

theorem voteless_bump (a : Address) (n : UInt64) : (bump a n).Voteless := voteless_single a 0 n

end Book

namespace WalletManager

variable {E : Env} {wm wm' wm₁ : WalletManager} {a c : Address} {f : Wallet → Wallet}

/-- The addresses that have a wallet. -/
abbrev keys (wm : WalletManager) : Finset Address := wm.walletByAddress.keys

def book (wm : WalletManager) : Book := fun a => (wm.wallet a).account

/-- How far the vote power of a wallet is from the shares it gets. -/
noncomputable def drift (E : Env) (wm : WalletManager) (c : Address) : UInt64 :=
  (wm.wallet c).votePower - wm.book.stake E c

/-! ## The wallets after an operation -/

theorem wallet_absent (h : a ∉ wm.keys) : wm.wallet a = newWallet := wm.walletByAddress.get_absent a h

@[simp] theorem keys_put : (wm.put a).keys = insert a wm.keys := rfl
@[simp] theorem wallet_put : (wm.put a).wallet = wm.wallet := rfl
@[simp] theorem book_put : (wm.put a).book = wm.book := rfl
@[simp] theorem drift_put : (wm.put a).drift E = wm.drift E := rfl

@[simp]
theorem keys_modifyWallet : (wm.modifyWallet a f).keys = insert a wm.keys := rfl

theorem wallet_modifyWallet :
    (wm.modifyWallet a f).wallet = Function.update wm.wallet a (f (wm.wallet a)) := rfl

@[simp]
theorem wallet_modifyWallet_self : (wm.modifyWallet a f).wallet a = f (wm.wallet a) := by
  rw [wallet_modifyWallet, Function.update_self]

theorem wallet_modifyWallet_of_ne (h : c ≠ a) : (wm.modifyWallet a f).wallet c = wm.wallet c := by
  rw [wallet_modifyWallet, Function.update_of_ne h]

@[simp]
theorem keys_reAssign {voter : Wallet} {d : Int64} : (wm.reAssign E voter d).keys = wm.keys := rfl

/-- Whatever the sign of the change, the vote power changes by the change of the share. -/
theorem wallet_reAssign (voter : Wallet) (d : Int64) (c : Address) :
    (wm.reAssign E voter d).wallet c =
      if c ∈ wm.keys then
        (wm.wallet c).addVotePower
          (E.share (voter.voted.get c) voter.balance -
            E.share (voter.voted.get c) (voter.balance - d))
      else wm.wallet c := by
  unfold reAssign wallet
  dsimp only
  rw [Store.get_mapVals]
  by_cases hc : c ∈ wm.keys
  · rw [if_pos hc, if_pos hc]
    split_ifs with hv hd
    · rfl
    · simp only [Wallet.addVotePower, Wallet.subVotePower]
      congr 1
      grind
    · rw [voter.voted.get_absent c hv, E.share_zero, E.share_zero, sub_self, Wallet.addVotePower_zero]
  · rw [if_neg hc, if_neg hc, wm.walletByAddress.get_absent c hc]

@[simp]
theorem book_reAssign {voter : Wallet} {d : Int64} : (wm.reAssign E voter d).book = wm.book := by
  funext c
  simp only [book, wallet_reAssign]
  split_ifs <;> rfl

@[simp]
theorem keys_credit {d : Int64} : (wm.credit a E d).keys = insert a wm.keys := rfl

@[simp]
theorem keys_debit {d : Int64} : (wm.debit a E d).keys = insert a wm.keys := rfl

theorem debit_eq_credit (wm : WalletManager) (a : Address) (E : Env) (x : Int64) :
    wm.debit a E x = wm.credit a E (-x) := by
  simp only [debit, credit, Int64.sub_eq_add_neg, Int64.zero_add]

theorem wallet_addVotePower (voter : Wallet) (p : ℤ) (cand c : Address) :
    (wm.addVotePower E cand p voter).wallet c =
      if c = cand ∧ c ∈ wm.keys then
        (wm.wallet c).addVotePower
          (E.share (voter.voted.get c) voter.balance - E.share (voter.voted.get c - p) voter.balance)
      else wm.wallet c := by
  unfold addVotePower
  by_cases hcand : cand ∈ wm.keys
  · rw [if_pos hcand]
    by_cases hc : c = cand
    · subst hc
      rw [if_pos ⟨rfl, hcand⟩]
      exact wallet_modifyWallet_self
    · rw [if_neg fun h => hc h.1]
      exact wallet_modifyWallet_of_ne hc
  · rw [if_neg hcand, if_neg]
    rintro ⟨rfl, hc⟩
    exact hcand hc

theorem subVotePower_eq_addVotePower (wm : WalletManager) (E : Env) (cand : Address) (p : ℤ)
    (voter : Wallet) : wm.subVotePower E cand p voter = wm.addVotePower E cand (-p) voter := by
  unfold subVotePower addVotePower
  split_ifs
  · simp only [sub_neg_eq_add]
    congr 1
    funext w
    rw [Wallet.subVotePower, Wallet.addVotePower]
    congr 1
    grind
  · rfl

theorem keys_addVotePower {voter : Wallet} {p : ℤ} :
    (wm.addVotePower E c p voter).keys = wm.keys := by
  unfold addVotePower
  split_ifs with hc
  · exact Finset.insert_eq_of_mem hc
  · rfl

theorem book_addVotePower {voter : Wallet} {p : ℤ} : (wm.addVotePower E c p voter).book = wm.book := by
  funext b
  simp only [book, wallet_addVotePower]
  split_ifs <;> rfl

theorem book_modifyWallet : (wm.modifyWallet a f).book = Function.update wm.book a (f (wm.wallet a)).account := by
  funext b
  by_cases hb : b = a
  · subst hb
    simp [book]
  · simp [book, wallet_modifyWallet_of_ne hb, Function.update_of_ne hb]

/-- A change of a wallet as an effect on the accounts. -/
theorem book_modifyWallet_add {e : Account} (h : (f (wm.wallet a)).account = (wm.wallet a).account + e) :
    (wm.modifyWallet a f).book = wm.book + Pi.single a e := by
  rw [book_modifyWallet, h]
  funext b
  by_cases hb : b = a
  · subst hb
    rw [Function.update_self, Pi.add_apply, Pi.single_eq_same, book]
  · rw [Function.update_of_ne hb, Pi.add_apply, Pi.single_eq_of_ne hb, add_zero]

/-! ## Stakes -/

theorem finite_voters (wm : WalletManager) (c : Address) :
    {v | (wm.book v).votes c ≠ 0}.Finite := by
  refine wm.keys.finite_toSet.subset fun v hv => ?_
  by_contra h
  refine hv ?_
  change (wm.wallet v).voted.get c = 0
  rw [wallet_absent h]
  rfl

/-- The stake of a candidate as a sum over any finite set that holds all wallets. -/
theorem stake_eq_sum {S : Finset Address} (h : wm.keys ⊆ S) (c : Address) :
    wm.book.stake E c = ∑ v ∈ S, E.share ((wm.wallet v).voted.get c) (wm.wallet v).balance := by
  refine Poll.tally_eq_sum E.share_zero fun v hv => ?_
  change (wm.wallet v).voted.get c = 0
  rw [wallet_absent fun hv' => hv (h hv')]
  rfl

/-- When the account of one address changes, a stake changes by the change of its share. -/
theorem stake_change (wm : WalletManager) {b : Book} (h : ∀ v ≠ a, b v = wm.book v) (c : Address) :
    b.stake E c = wm.book.stake E c +
      (E.share ((b a).votes c) (b a).balance -
        E.share ((wm.book a).votes c) (wm.book a).balance) := by
  refine Poll.tally_change E.share_zero (wm.finite_voters c) a (fun v hv => ?_) fun v hv => ?_
  · rw [h v hv]
  · rw [h v hv]

/-- A balance changes, and the wallets are told that it has changed by `t`: their vote power
    is off by the difference. -/
theorem drift_told {t : Int64} (hvoted : (f (wm.wallet a)).voted = (wm.wallet a).voted)
    (hpower : (f (wm.wallet a)).votePower = (wm.wallet a).votePower) (hc : c ∈ insert a wm.keys) :
    ((wm.modifyWallet a f).reAssign E ((wm.modifyWallet a f).wallet a) t).drift E c =
      wm.drift E c + (E.share ((wm.wallet a).voted.get c) (wm.wallet a).balance -
        E.share ((wm.wallet a).voted.get c) ((f (wm.wallet a)).balance - t)) := by
  have hstake : (wm.modifyWallet a f).book.stake E c = _ :=
    stake_change (a := a) wm (fun v hv => by rw [book_modifyWallet, Function.update_of_ne hv]) c
  have hpow : ((wm.modifyWallet a f).wallet c).votePower = (wm.wallet c).votePower := by
    by_cases hca : c = a
    · subst hca
      rw [wallet_modifyWallet_self, hpower]
    · rw [wallet_modifyWallet_of_ne hca]
  have hc' : c ∈ (wm.modifyWallet a f).keys := hc
  rw [drift, drift, book_reAssign, hstake, wallet_reAssign, if_pos hc', Wallet.addVotePower, hpow]
  simp only [wallet_modifyWallet_self, book, Wallet.account, hvoted]
  abel

/-! ## Effects of operations -/

/-- The accounts change by an effect, no wallet is added, and the vote power of every wallet
    changes by what the shares it gets change by. -/
structure Shift (E : Env) (wm wm' : WalletManager) (e : Book) : Prop where
  keys : wm'.keys = wm.keys
  book : wm'.book = wm.book + e
  drift : ∀ c ∈ wm.keys, wm'.drift E c = wm.drift E c

theorem Shift.refl (E : Env) (wm : WalletManager) : Shift E wm wm 0 :=
  ⟨rfl, (add_zero _).symm, fun _ _ => rfl⟩

theorem Shift.trans {e e' : Book} (h : Shift E wm wm₁ e) (h' : Shift E wm₁ wm' e') :
    Shift E wm wm' (e + e') where
  keys := h'.keys.trans h.keys
  book := by rw [h'.book, h.book, add_assoc]
  drift c hc := by rw [h'.drift c (h.keys ▸ hc), h.drift c hc]

/-- One account changes, and every wallet is told of the change of its share. -/
theorem shift_of_votePower {e : Book} (hkeys : wm'.keys = wm.keys) (hbook : wm'.book = wm.book + e)
    (he : ∀ v ≠ a, e v = 0) (hpower : ∀ c ∈ wm.keys, (wm'.wallet c).votePower =
      (wm.wallet c).votePower + (E.share ((wm'.book a).votes c) (wm'.book a).balance -
        E.share ((wm.book a).votes c) (wm.book a).balance)) : Shift E wm wm' e where
  keys := hkeys
  book := hbook
  drift c hc := by
    have hstake : wm'.book.stake E c = _ := stake_change (a := a) wm
      (fun v hv => by rw [hbook, Pi.add_apply, he v hv, add_zero]) c
    rw [WalletManager.drift, WalletManager.drift, hstake, hpower c hc]
    abel

/-- A change of a wallet that its account and its vote power do not see. -/
theorem shift_modify (ha : a ∈ wm.keys) (hacc : (f (wm.wallet a)).account = (wm.wallet a).account)
    (hpow : (f (wm.wallet a)).votePower = (wm.wallet a).votePower) :
    Shift E wm (wm.modifyWallet a f) 0 := by
  have hbook : (wm.modifyWallet a f).book = wm.book := by
    rw [book_modifyWallet, hacc]
    exact Function.update_eq_self _ _
  refine shift_of_votePower (a := a) (Finset.insert_eq_of_mem ha) (by rw [hbook, add_zero])
    (fun _ _ => rfl) fun c _ => ?_
  rw [hbook, sub_self, add_zero]
  by_cases hc : c = a
  · subst hc
    rw [wallet_modifyWallet_self, hpow]
  · rw [wallet_modifyWallet_of_ne hc]

theorem book_credit {d : Int64} : (wm.credit a E d).book = wm.book + Book.pay a d := by
  rw [credit, book_reAssign]
  exact book_modifyWallet_add (by simp [Wallet.account])

theorem shift_credit (ha : a ∈ wm.keys) (d : Int64) :
    Shift E wm (wm.credit a E d) (Book.pay a d) where
  keys := Finset.insert_eq_of_mem ha
  book := book_credit
  drift c hc := by
    have h : (wm.credit a E d).drift E c = _ := drift_told rfl rfl (Finset.mem_insert_of_mem hc)
    rw [h, add_sub_cancel_right, sub_self, add_zero]

theorem shift_debit (ha : a ∈ wm.keys) (d : Int64) :
    Shift E wm (wm.debit a E d) (Book.pay a (-d)) := by
  rw [debit_eq_credit]
  exact shift_credit ha _

theorem shift_nonce (ha : a ∈ wm.keys) {g : UInt64 → UInt64} {n : UInt64} (hg : ∀ k, g k = k + n) :
    Shift E wm (wm.modifyWallet a fun w => { w with nonce := g w.nonce }) (Book.bump a n) := by
  have hbook : (wm.modifyWallet a fun w => { w with nonce := g w.nonce }).book =
      wm.book + Book.bump a n := book_modifyWallet_add (by simp [Wallet.account, hg])
  refine shift_of_votePower (a := a) (Finset.insert_eq_of_mem ha) hbook
    (fun v hv => Pi.single_eq_of_ne hv _) fun c _ => ?_
  rw [hbook]
  by_cases hc : c = a
  · subst hc
    rw [wallet_modifyWallet_self]
    simp [Book.bump, book, Wallet.account]
  · rw [wallet_modifyWallet_of_ne hc]
    simp [Book.bump, book, Wallet.account]

/-- A vote, cast by an address that has a wallet. -/
theorem shift_cast (ha : a ∈ wm.keys) {p : ℤ}
    (hf : f (wm.wallet a) = { wm.wallet a with
      voted := (f (wm.wallet a)).voted, voteLeft := (wm.wallet a).voteLeft - p })
    (hvoted : (f (wm.wallet a)).voted.get =
      Function.update (wm.wallet a).voted.get c ((wm.wallet a).voted.get c + p)) :
    Shift E wm ((wm.modifyWallet a f).addVotePower E c p ((wm.modifyWallet a f).wallet a))
      (Book.ballot a c p) := by
  have hvotes : (f (wm.wallet a)).voted.get = (wm.wallet a).voted.get + Pi.single c p := by
    rw [hvoted]
    funext b
    by_cases hb : b = c
    · subst hb
      simp
    · simp [hb]
  have hbook : ((wm.modifyWallet a f).addVotePower E c p ((wm.modifyWallet a f).wallet a)).book =
      wm.book + Book.ballot a c p := by
    rw [book_addVotePower]
    refine book_modifyWallet_add ?_
    rw [hf]
    simp [Wallet.account, hvotes, sub_eq_add_neg]
  refine shift_of_votePower (a := a) ?_ hbook (fun v hv => Pi.single_eq_of_ne hv _) fun b hb => ?_
  · rw [keys_addVotePower, keys_modifyWallet, Finset.insert_eq_of_mem ha]
  rw [hbook]
  have hpow : ((wm.modifyWallet a f).wallet b).votePower = (wm.wallet b).votePower := by
    by_cases hba : b = a
    · subst hba
      rw [wallet_modifyWallet_self, hf]
    · rw [wallet_modifyWallet_of_ne hba]
  rw [wallet_addVotePower, wallet_modifyWallet_self]
  by_cases hbc : b = c
  · subst hbc
    rw [if_pos ⟨rfl, Finset.mem_insert_of_mem hb⟩, Wallet.addVotePower, hpow, hf]
    simp [Book.ballot, book, Wallet.account, hvotes]
  · rw [if_neg fun h => hbc h.1, hpow]
    simp [Book.ballot, book, Wallet.account, hbc]

theorem shift_castVote (ha : a ∈ wm.keys) (p : ℤ) :
    Shift E wm (wm.castVote a E c p) (Book.ballot a c p) := by
  refine shift_cast ha ?_ ?_
  · unfold Wallet.executeVote Wallet.subVoteLeft
    split_ifs <;> rfl
  · rw [Wallet.subVoteLeft, Wallet.voted_executeVote, Store.get_set]

theorem shift_castUnvote (ha : a ∈ wm.keys) (p : ℤ) :
    Shift E wm (wm.castUnvote a E c p) (Book.ballot a c (-p)) := by
  rw [castUnvote, subVotePower_eq_addVotePower]
  refine shift_cast ha ?_ ?_
  · unfold Wallet.executeUnvote Wallet.addVoteLeft
    rw [sub_neg_eq_add]
    dsimp only
    split_ifs <;> rfl
  · rw [Wallet.addVoteLeft, Wallet.get_voted_executeUnvote, sub_eq_add_neg]

end WalletManager
end Timbre
