/-
  Proofs of storage: key generation, set-up, proof and verification.

  A storage provider answers a challenge with an evaluation at `r` of the polynomial whose
  coefficients combine the challenged blocks, and with the quotient of the division by
  `x - r` in the exponent.

  **The proof made from the output of `setup` is accepted, and no division leaves a remainder**
  (`prove_verify`).
-/
import Timbre.Crypto.Polynomials
import Timbre.Lib.PairingGroup

namespace Timbre.Pos

/-- `xs[i-1]`, for the indices of a challenge, which count from 1. -/
def index1 {α : Type} (xs : List α) : ℕ → Except Err α
  | 0 => .error (.panic "runtime error: index out of range")
  | i + 1 => index xs i

/-- The number that the bytes stand for, the most significant one first. -/
def setBytes (bytes : Bytes) : ℕ := bytes.foldl (fun n b => n * 256 + b.toNat) 0

/-- `fmt.Sprintf("%d", i)`. -/
def decimal (i : ℕ) : Bytes := (toString i).toUTF8.toList

/-! ## Keys, challenges and proofs -/

structure PublicKey (G : Type) where
  v : G
  k : G
  u : G
  gaPow : List G

structure SecretKey (Z : Type) where
  e : Z
  a : Z

structure Chall (Z : Type) where
  r : Z
  rho : Z
  I : List ℕ

structure Proof (G Z : Type) where
  psi : G
  y : Z
  tag : G

variable {G T : Type} [CommGroup G] [CommGroup T] (P : PairingGroup G T)

/-- The loop that fills `gaPow`, from index `i` on for `n` entries; `ai` is its running power
    of `a`. -/
def gaPowLoop (g : G) (a : P.Zr) : ℕ → ℕ → P.Zr → List G
  | _, 0, _ => []
  | 0, n + 1, ai => g :: gaPowLoop g a 1 n ai
  | 1, n + 1, ai => P.powZn g a :: gaPowLoop g a 2 n ai
  | i + 2, n + 1, ai => P.powZn g (ai * a) :: gaPowLoop g a (i + 3) n (ai * a)

/-- `KeyGen`, for its random choices `g`, `a`, `e` and `u`. -/
def keyGen (cfg : Config) (g : G) (a e : P.Zr) (u : G) : PublicKey G × SecretKey P.Zr :=
  let v := P.powZn g e
  let k := P.powZn v a
  ({ v, k, u, gaPow := gaPowLoop P g a 0 cfg.s a }, { e, a })

variable (sha256 : List Bytes → Bytes)

/-- `Setup`: the authentication tags of the message. -/
def setup (M name : Bytes) (pk : PublicKey G) (sk : SecretKey P.Zr) (cfg : Config) :
    Except Err (List G) := do
  let blocks ← process M cfg
  blocks.zipIdx.mapM fun (block, i) => do
    let h := setBytes (sha256 [name, decimal (i + 1)])
    let uh := pk.u ^ h
    let terms ← block.zipIdx.mapM fun (x, j) => do
      let gaj ← index pk.gaPow j
      return gaj ^ setBytes x
    return P.powZn (uh * terms.prod) sk.e

/-- `v[i] = rho^I[i]`, each with its `I[i]`. -/
def powers (ch : Chall P.Zr) : List (ℕ × P.Zr) := ch.I.map fun i => (i, ch.rho ^ i)

def nonZeroRemainder : Err := .panic "Non-zero remainder for polynomial division."

/-- `Prove`: the storage proof for the message in response to the challenge. -/
def prove (M : Bytes) (cfg : Config) (pk : PublicKey G) (tags : List G) (ch : Chall P.Zr) :
    Except Err (Proof G P.Zr) := do
  let v := powers P ch
  let terms ← v.mapM fun (i, vi) => do
    let tag ← index1 tags i
    return P.powZn tag vi
  let blocks ← process M cfg
  let A ← (List.range cfg.s).mapM fun j => do
    let terms ← v.mapM fun (i, vi) => do
      let block ← index1 blocks i
      let mij ← index block j
      return vi * (setBytes mij : P.Zr)
    return terms.sum
  let y := polyEval ch.r A
  match A with
  | [] => throw (.panic "runtime error: index out of range")
  | c :: cs =>
    let (w, remainder) := polyDiv ((c - y) :: cs) ch.r
    if remainder ≠ 0 then throw nonZeroRemainder
    else
      let psi := (pk.gaPow.zipIdx.map fun (gai, i) => P.powZn gai (w.getD i 0)).prod
      return { psi, y, tag := terms.prod }

/-- `Verify`: checks `e(eta, v) * e(psi, k * v^(-r)) == e(tag, g) * e(g^(-y), v)`. -/
def verify [DecidableEq T] (name : Bytes) (pk : PublicKey G) (ch : Chall P.Zr)
    (prf : Proof G P.Zr) : Except Err Bool := do
  let eta := ((powers P ch).map fun (i, vi) =>
    P.powZn pk.u (vi * (setBytes (sha256 [name, decimal i]) : P.Zr))).prod
  let g ← index pk.gaPow 0
  let t1 := P.pair eta pk.v
  let vr := P.powZn pk.v (-ch.r)
  let t2 := P.pair prf.psi (pk.k * vr)
  let t3 := P.pair prf.tag g
  let gy := P.powZn g (-prf.y)
  let t4 := P.pair gy pk.v
  return decide (t1 * t2 = t3 * t4)

/-! ## The keys in closed form -/

variable {P}

theorem gaPowLoop_eq (g : G) (a : P.Zr) : ∀ (n i : ℕ) (ai : P.Zr), ai = a ^ (i - 2 + 1) →
    gaPowLoop P g a i n ai = (List.range' i n).map fun j => P.powZn g (a ^ j)
  | 0, i, _, _ => by cases i with | zero => rfl | succ i => cases i <;> rfl
  | n + 1, 0, ai, h => by
    rw [gaPowLoop, gaPowLoop_eq g a n 1 ai h, List.range'_succ]
    simp
  | n + 1, 1, ai, h => by
    rw [gaPowLoop, gaPowLoop_eq g a n 2 ai h, List.range'_succ]
    simp
  | n + 1, i + 2, ai, h => by
    have hai : ai * a = a ^ (i + 2) := by rw [h, Nat.add_sub_cancel, pow_succ a (i + 1)]
    rw [gaPowLoop, hai, gaPowLoop_eq g a n (i + 3) (a ^ (i + 2)) rfl, List.range'_succ]
    rfl

theorem gaPow_eq (cfg : Config) (g : G) (a : P.Zr) :
    gaPowLoop P g a 0 cfg.s a = (List.range cfg.s).map fun i => P.powZn g (a ^ i) := by
  rw [gaPowLoop_eq g a cfg.s 0 a (by simp), List.range_eq_range']

/-! ## Powers of the key -/

/-- The elements of a block as coefficients. -/
def coefficients (P : PairingGroup G T) (block : List Bytes) : List P.Zr :=
  block.map fun x => (setBytes x : P.Zr)

theorem prod_block (g : G) (a : P.Zr) : ∀ (block : List Bytes) (k : ℕ),
    ((block.zipIdx k).map fun x => P.powZn g (a ^ x.2) ^ setBytes x.1).prod =
      P.powZn g (a ^ k * Horner.eval a (coefficients P block))
  | [], k => by simp [coefficients]
  | x :: block, k => by
    rw [List.zipIdx_cons, List.map_cons, List.prod_cons, prod_block g a block (k + 1),
      PairingGroup.pow_eq_powZn (P := P), PairingGroup.powZn_powZn, ← PairingGroup.powZn_add]
    congr 1
    show _ = a ^ k * (Horner.eval a (coefficients P block) * a + setBytes x)
    ring

theorem prod_range (g : G) (a : P.Zr) {w : List P.Zr} {s : ℕ} (h : w.length ≤ s) :
    (((List.range s).map fun i => P.powZn g (a ^ i)).zipIdx.map fun x =>
      P.powZn x.1 (w.getD x.2 0)).prod = P.powZn g (Horner.eval a w) := by
  have hterms : ((List.range s).map fun i => P.powZn g (a ^ i)).zipIdx.map (fun x =>
      P.powZn x.1 (w.getD x.2 0)) = (List.range s).map fun i => P.powZn g (a ^ i * w.getD i 0) := by
    refine List.ext_getElem (by simp) fun i hi _ => ?_
    simp [PairingGroup.powZn_powZn]
  rw [hterms, ← PairingGroup.powZn_sum, Horner.eval_eq_sum h]
  rfl

/-! ## The runs -/

section
variable {α β : Type}

theorem bind_ne {c : Except Err α} {f : α → Except Err β} {e : Err} (hc : c ≠ .error e)
    (hf : ∀ x, f x ≠ .error e) : (c >>= f) ≠ .error e := by
  cases c with
  | ok x => exact hf x
  | error e' =>
    intro h
    exact hc (by cases h; rfl)

theorem pure_ne {x : α} {e : Err} : (pure x : Except Err α) ≠ .error e := nofun

theorem mapM_ne {f : α → Except Err β} {e : Err} (hf : ∀ x, f x ≠ .error e) :
    ∀ xs : List α, xs.mapM f ≠ .error e
  | [] => nofun
  | x :: xs => by
    rw [List.mapM_cons]
    exact bind_ne (hf x) fun y => bind_ne (mapM_ne hf xs) fun ys => pure_ne

end

theorem index_ne {α : Type} (xs : List α) (i : ℕ) : index xs i ≠ .error nonZeroRemainder := by
  unfold index
  split <;> simp [nonZeroRemainder]

theorem index1_ne {α : Type} (xs : List α) : ∀ i, index1 xs i ≠ .error nonZeroRemainder
  | 0 => by simp [index1, nonZeroRemainder]
  | i + 1 => index_ne xs i

theorem process_ne (M : Bytes) (cfg : Config) : process M cfg ≠ .error nonZeroRemainder := by
  have hslice : ∀ xs lo hi, slice xs lo hi ≠ .error nonZeroRemainder := fun xs lo hi => by
    unfold slice
    split <;> simp [nonZeroRemainder]
  unfold process
  simp only
  split
  · simp [nonZeroRemainder]
  · exact mapM_ne (fun i => mapM_ne (fun j => hslice _ _ _) _) _

/-- The division inside `prove` leaves no remainder, whatever the keys, the tags and the
    challenge are. -/
theorem prove_ne_nonZeroRemainder (M : Bytes) (cfg : Config) (pk : PublicKey G) (tags : List G)
    (ch : Chall P.Zr) : prove P M cfg pk tags ch ≠ .error nonZeroRemainder := by
  refine bind_ne (mapM_ne (fun x => bind_ne (index1_ne _ _) fun _ => pure_ne) _) fun terms => ?_
  refine bind_ne (process_ne M cfg) fun blocks => ?_
  refine bind_ne (mapM_ne (fun j => bind_ne (mapM_ne (fun x => ?_) _) fun _ => pure_ne) _) fun A => ?_
  · exact bind_ne (index1_ne _ _) fun block => bind_ne (index_ne _ _) fun _ => pure_ne
  · cases A with
    | nil => simp [nonZeroRemainder, throw, throwThe, MonadExceptOf.throw]
    | cons c cs => simp [polyDiv_sub, pure, Except.pure]

variable {sha256 : List Bytes → Bytes} {cfg : Config} {M name : Bytes} {g u : G} {a e : P.Zr}
  {blocks : List (List Bytes)} {ch : Chall P.Zr}

/-- The exponent of `u` in the tag of the block with index `i`. -/
def nameHash (sha256 : List Bytes → Bytes) (name : Bytes) (i : ℕ) : ℕ :=
  setBytes (sha256 [name, decimal i])

/-- The value at the secret `a` of the polynomial of the block with index `i`. -/
def blockValue (a : P.Zr) (blocks : List (List Bytes)) (i : ℕ) : P.Zr :=
  Horner.eval a (coefficients P (blocks.getD (i - 1) []))

/-- The tag of the block with index `i`. -/
def tagOf (sha256 : List Bytes → Bytes) (name : Bytes) (g u : G) (a e : P.Zr)
    (blocks : List (List Bytes)) (i : ℕ) : G :=
  P.powZn (u ^ nameHash sha256 name i * P.powZn g (blockValue a blocks i)) e

/-- The terms of one block's tag. -/
theorem block_terms {block : List Bytes} (hblock : block.length = cfg.s) :
    (block.zipIdx.mapM fun x => do
        let gaj ← index (keyGen P cfg g a e u).1.gaPow x.2
        return gaj ^ setBytes x.1 : Except Err (List G)) =
      .ok (block.zipIdx.map fun x => P.powZn g (a ^ x.2) ^ setBytes x.1) := by
  refine mapM_ok fun x hx => ?_
  have hj : x.2 < cfg.s := hblock ▸ List.snd_lt_of_mem_zipIdx hx
  have hgaj : (keyGen P cfg g a e u).1.gaPow = (List.range cfg.s).map fun i => P.powZn g (a ^ i) :=
    gaPow_eq cfg g a
  have hindex : index (keyGen P cfg g a e u).1.gaPow x.2 = .ok (P.powZn g (a ^ x.2)) := by
    rw [hgaj, index_ok (by simpa using hj)]
    simp
  rw [hindex]
  rfl

theorem setup_ok (hprocess : process M cfg = .ok blocks)
    (hlength : ∀ block ∈ blocks, block.length = cfg.s) :
    setup P sha256 M name (keyGen P cfg g a e u).1 (keyGen P cfg g a e u).2 cfg =
      .ok ((List.range blocks.length).map fun i => tagOf sha256 name g u a e blocks (i + 1)) := by
  have htag : ∀ x ∈ blocks.zipIdx, (do
      let terms ← x.1.zipIdx.mapM fun y => do
        let gaj ← index (keyGen P cfg g a e u).1.gaPow y.2
        return gaj ^ setBytes y.1
      return P.powZn (u ^ nameHash sha256 name (x.2 + 1) * terms.prod) e : Except Err G) =
        .ok (tagOf sha256 name g u a e blocks (x.2 + 1)) := by
    intro x hx
    have hget : blocks.getD x.2 [] = x.1 := by
      rw [List.getD_eq_getElem?_getD, List.mk_mem_zipIdx_iff_getElem?.1 hx, Option.getD_some]
    have hmem : x.1 ∈ blocks := List.fst_mem_of_mem_zipIdx hx
    rw [block_terms (hlength _ hmem)]
    show Except.ok (P.powZn (_ * (List.map _ x.1.zipIdx).prod) e) = _
    rw [prod_block, pow_zero, one_mul, tagOf, blockValue, Nat.add_sub_cancel, hget]
  show (process M cfg >>= _) = _
  rw [hprocess]
  refine (mapM_ok htag).trans (congrArg Except.ok ?_)
  exact List.ext_getElem (by simp) fun i hi _ => by simp

/-- The tags are there for every index of a challenge. -/
theorem index1_tags {i : ℕ} (hi : 1 ≤ i ∧ i ≤ blocks.length) :
    index1 ((List.range blocks.length).map fun i => tagOf sha256 name g u a e blocks (i + 1)) i =
      .ok (tagOf sha256 name g u a e blocks i) := by
  obtain ⟨j, rfl⟩ : ∃ j, i = j + 1 := ⟨i - 1, by omega⟩
  rw [index1, index_ok (by simpa using hi.2)]
  simp

theorem index1_blocks {i : ℕ} (hi : 1 ≤ i ∧ i ≤ blocks.length) :
    index1 blocks i = .ok (blocks.getD (i - 1) []) ∧ blocks.getD (i - 1) [] ∈ blocks := by
  obtain ⟨j, rfl⟩ : ∃ j, i = j + 1 := ⟨i - 1, by omega⟩
  have hj : j < blocks.length := hi.2
  have hget : blocks.getD j [] = blocks[j] := by simp [List.getD_eq_getElem?_getD, hj]
  rw [index1, Nat.add_sub_cancel, hget]
  exact ⟨index_ok hj, List.getElem_mem hj⟩

/-- The coefficients that `prove` combines from the challenged blocks. -/
def combined (blocks : List (List Bytes)) (cfg : Config) (ch : Chall P.Zr) : List P.Zr :=
  (List.range cfg.s).map fun j =>
    (ch.I.map fun i => ch.rho ^ i * (coefficients P (blocks.getD (i - 1) [])).getD j 0).sum

theorem eval_combined (hlength : ∀ block ∈ blocks, block.length = cfg.s)
    (hI : ∀ i ∈ ch.I, 1 ≤ i ∧ i ≤ blocks.length) :
    Horner.eval a (combined blocks cfg ch) =
      (ch.I.map fun i => ch.rho ^ i * blockValue a blocks i).sum := by
  rw [combined, Horner.eval_sum]
  refine congrArg List.sum (List.map_congr_left fun i hi => ?_)
  have hblock := hlength _ (index1_blocks (hI i hi)).2
  rw [Horner.eval_range, blockValue, Horner.eval_eq_sum (n := cfg.s), Finset.mul_sum]
  · exact Finset.sum_congr rfl fun j _ => by ring
  · rw [coefficients, List.length_map, hblock]

/-- `A[j]`. -/
theorem combine_ok (hlength : ∀ block ∈ blocks, block.length = cfg.s)
    (hI : ∀ i ∈ ch.I, 1 ≤ i ∧ i ≤ blocks.length) :
    ((List.range cfg.s).mapM fun j => do
        let terms ← (powers P ch).mapM fun x => do
          let block ← index1 blocks x.1
          let mij ← index block j
          return x.2 * (setBytes mij : P.Zr)
        return terms.sum : Except Err (List P.Zr)) = .ok (combined blocks cfg ch) := by
  refine mapM_ok fun j hj => ?_
  have hterms : ∀ x ∈ powers P ch, (do
      let block ← index1 blocks x.1
      let mij ← index block j
      return x.2 * (setBytes mij : P.Zr) : Except Err P.Zr) =
        .ok (x.2 * (coefficients P (blocks.getD (x.1 - 1) [])).getD j 0) := by
    intro x hx
    obtain ⟨i, hi, rfl⟩ := List.mem_map.1 hx
    obtain ⟨hindex, hmem⟩ := index1_blocks (hI i hi)
    have hlt : j < (blocks.getD (i - 1) []).length := by
      rw [hlength _ hmem]
      exact List.mem_range.1 hj
    have hcoeff : (coefficients P (blocks.getD (i - 1) [])).getD j 0 =
        setBytes ((blocks.getD (i - 1) []).get ⟨j, hlt⟩) := by
      rw [coefficients, List.getD_eq_getElem?_getD, List.getElem?_map, List.getElem?_eq_getElem hlt]
      rfl
    rw [hindex]
    show (index (blocks.getD (i - 1) []) j >>= _) = _
    rw [index_ok hlt, hcoeff]
    rfl
  rw [mapM_ok hterms, powers, List.map_map]
  rfl

/-- The proof that `prove` makes from the tags of `setup`. -/
theorem prove_ok (hs : 1 ≤ cfg.s) (hprocess : process M cfg = .ok blocks)
    (hlength : ∀ block ∈ blocks, block.length = cfg.s)
    (hI : ∀ i ∈ ch.I, 1 ≤ i ∧ i ≤ blocks.length) :
    ∃ prf q, prove P M cfg (keyGen P cfg g a e u).1
        ((List.range blocks.length).map fun i => tagOf sha256 name g u a e blocks (i + 1)) ch =
          .ok prf ∧
      prf.tag = (ch.I.map fun i => P.powZn (tagOf sha256 name g u a e blocks i) (ch.rho ^ i)).prod ∧
      prf.psi = P.powZn g q ∧
      (a - ch.r) * q + prf.y = (ch.I.map fun i => ch.rho ^ i * blockValue a blocks i).sum := by
  have htags : ((powers P ch).mapM fun x => do
      let tag ← index1 ((List.range blocks.length).map fun i =>
        tagOf sha256 name g u a e blocks (i + 1)) x.1
      return P.powZn tag x.2 : Except Err (List G)) =
        .ok (ch.I.map fun i => P.powZn (tagOf sha256 name g u a e blocks i) (ch.rho ^ i)) := by
    have hterm : ∀ x ∈ powers P ch, (do
        let tag ← index1 ((List.range blocks.length).map fun i =>
          tagOf sha256 name g u a e blocks (i + 1)) x.1
        return P.powZn tag x.2 : Except Err G) =
          .ok (P.powZn (tagOf sha256 name g u a e blocks x.1) x.2) := by
      intro x hx
      obtain ⟨i, hi, rfl⟩ := List.mem_map.1 hx
      rw [index1_tags (hI i hi)]
      rfl
    rw [mapM_ok hterm, powers, List.map_map]
    rfl
  obtain ⟨c, cs, hA⟩ : ∃ c cs, combined blocks cfg ch = c :: cs := by
    refine List.exists_cons_of_length_pos ?_
    rw [combined, List.length_map, List.length_range]
    exact hs
  have hvalue := eval_combined (a := a) hlength hI
  rw [hA, Horner.eval_suffixes (r := ch.r)] at hvalue
  have hpsi : ((keyGen P cfg g a e u).1.gaPow.zipIdx.map fun x =>
      P.powZn x.1 ((Horner.suffixes ch.r cs).getD x.2 0)).prod =
        P.powZn g (Horner.eval a (Horner.suffixes ch.r cs)) := by
    have hlen : (Horner.suffixes ch.r cs).length ≤ cfg.s := by
      have hA := congrArg List.length hA
      rw [combined, List.length_map, List.length_range, List.length_cons] at hA
      rw [Horner.length_suffixes]
      omega
    rw [← prod_range g a hlen, ← gaPow_eq cfg g a]
    rfl
  refine ⟨{ psi := _, y := _, tag := _ }, _, ?_, rfl, hpsi, hvalue⟩
  show ((_ : Except Err (List G)) >>= _) = _
  rw [htags]
  show (process M cfg >>= _) = _
  rw [hprocess]
  show ((_ : Except Err (List P.Zr)) >>= _) = _
  rw [combine_ok hlength hI, hA]
  show (match polyDiv ((c - polyEval ch.r (c :: cs)) :: cs) ch.r with
    | (w, remainder) =>
      if remainder ≠ 0 then Except.error nonZeroRemainder
      else Except.ok (Proof.mk
        ((keyGen P cfg g a e u).1.gaPow.zipIdx.map fun x : G × ℕ =>
          P.powZn x.1 (w.getD x.2 0)).prod
        (polyEval ch.r (c :: cs)) _) : Except Err (Proof G P.Zr)) = _
  rw [polyDiv_sub, polyEval_eq]
  exact if_neg (not_not.2 rfl)

/-- The two sides that `verify` pairs with `g`. -/
theorem tags_eq {q y : P.Zr}
    (h : (a - ch.r) * q + y = (ch.I.map fun i => ch.rho ^ i * blockValue a blocks i).sum) :
    P.powZn (ch.I.map fun i => P.powZn u (ch.rho ^ i * nameHash sha256 name i)).prod e *
        P.powZn (P.powZn g q) (e * (a - ch.r)) =
      (ch.I.map fun i => P.powZn (tagOf sha256 name g u a e blocks i) (ch.rho ^ i)).prod *
        P.powZn g (-(y * e)) := by
  have htags : (ch.I.map fun i => P.powZn (tagOf sha256 name g u a e blocks i) (ch.rho ^ i)).prod =
      P.powZn (ch.I.map fun i => P.powZn u (ch.rho ^ i * nameHash sha256 name i)).prod e *
        P.powZn g ((ch.I.map fun i => ch.rho ^ i * blockValue a blocks i).sum * e) := by
    rw [← PairingGroup.powZn_powZn, PairingGroup.powZn_sum, ← PairingGroup.mul_powZn,
      ← List.prod_map_mul, PairingGroup.prod_powZn]
    refine congrArg List.prod (List.map_congr_left fun i _ => ?_)
    rw [tagOf, PairingGroup.pow_eq_powZn (P := P), PairingGroup.powZn_powZn,
      PairingGroup.mul_powZn, PairingGroup.mul_powZn]
    simp only [PairingGroup.powZn_powZn]
    congr 2 <;> ring
  rw [htags, ← h, mul_assoc, ← PairingGroup.powZn_add, PairingGroup.powZn_powZn]
  congr 2
  ring

theorem verify_ok [DecidableEq T] {prf : Proof G P.Zr} {q : P.Zr} (hs : 1 ≤ cfg.s)
    (htag : prf.tag =
      (ch.I.map fun i => P.powZn (tagOf sha256 name g u a e blocks i) (ch.rho ^ i)).prod)
    (hpsi : prf.psi = P.powZn g q)
    (hy : (a - ch.r) * q + prf.y = (ch.I.map fun i => ch.rho ^ i * blockValue a blocks i).sum) :
    verify P sha256 name (keyGen P cfg g a e u).1 ch prf = .ok true := by
  have hg : index (keyGen P cfg g a e u).1.gaPow 0 = .ok g := by
    have hgaj : (keyGen P cfg g a e u).1.gaPow = (List.range cfg.s).map fun i => P.powZn g (a ^ i) :=
      gaPow_eq cfg g a
    have hlen : 0 < ((List.range cfg.s).map fun i => P.powZn g (a ^ i)).length := by
      rw [List.length_map, List.length_range]
      exact hs
    rw [hgaj, index_ok hlen]
    simp
  have heta : ((powers P ch).map fun x =>
      P.powZn u (x.2 * (setBytes (sha256 [name, decimal x.1]) : P.Zr))).prod =
        (ch.I.map fun i => P.powZn u (ch.rho ^ i * nameHash sha256 name i)).prod := by
    rw [powers, List.map_map]
    rfl
  -- every pairing is brought to the form `e(_, g)`
  have hv : ∀ x : G, P.pair x (P.powZn g e) = P.pair (P.powZn x e) g := fun x =>
    PairingGroup.pair_powZn
  have hkv : P.powZn (P.powZn g e) a * P.powZn (P.powZn g e) (-ch.r) =
      P.powZn g (e * (a - ch.r)) := by
    rw [PairingGroup.powZn_powZn, PairingGroup.powZn_powZn, ← PairingGroup.powZn_add]
    congr 1
    ring
  show (index (keyGen P cfg g a e u).1.gaPow 0 >>= _) = _
  rw [hg]
  refine congrArg Except.ok (decide_eq_true ?_)
  show P.pair (List.prod _) (P.powZn g e) *
      P.pair prf.psi (P.powZn (P.powZn g e) a * P.powZn (P.powZn g e) (-ch.r)) =
    P.pair prf.tag g * P.pair (P.powZn g (-prf.y)) (P.powZn g e)
  rw [hkv, hv, hv, PairingGroup.pair_powZn, PairingGroup.powZn_powZn, ← P.pair_mul, ← P.pair_mul,
    htag, hpsi, neg_mul, ← tags_eq hy]
  exact congrArg (fun x => P.pair (P.powZn x e * _) g) heta

/-- **Completeness**: the proof made from the output of `setup` is accepted, and the division
    in `prove` never leaves a remainder. -/
theorem prove_verify [DecidableEq T] (P : PairingGroup G T) (sha256 : List Bytes → Bytes)
    (cfg : Config) (hs : 1 ≤ cfg.s) (hN : 1 ≤ cfg.N) (g u : G) (a e : P.Zr) (M name : Bytes) :
    (∃ blocks, process M cfg = .ok blocks ∧
      ∀ ch : Chall P.Zr, (∀ i ∈ ch.I, 1 ≤ i ∧ i ≤ blocks.length) →
        (do
          let (pk, sk) := keyGen P cfg g a e u
          let tags ← setup P sha256 M name pk sk cfg
          let prf ← prove P M cfg pk tags ch
          verify P sha256 name pk ch prf) = .ok true) ∧
    ∀ pk tags ch, prove P M cfg pk tags ch ≠ .error nonZeroRemainder := by
  obtain ⟨blocks, hprocess, hlength⟩ := process_ok (M := M) hs hN
  refine ⟨⟨blocks, hprocess, fun ch hI => ?_⟩, prove_ne_nonZeroRemainder M cfg⟩
  obtain ⟨prf, q, hprove, htag, hpsi, hy⟩ :=
    prove_ok hs hprocess hlength hI
  show (setup P sha256 M name (keyGen P cfg g a e u).1 (keyGen P cfg g a e u).2 cfg >>= _) = _
  rw [setup_ok hprocess hlength]
  show (prove P M cfg (keyGen P cfg g a e u).1 _ ch >>= _) = _
  rw [hprove]
  exact verify_ok hs htag hpsi hy

/-- The integers modulo 5, written as a multiplicative group and paired by their product. -/
def modFive : PairingGroup (Multiplicative (ZMod 5)) (Multiplicative (ZMod 5)) where
  order := 5
  prime := by decide
  pow_order x := by
    have hfive : (5 : ℕ) • x.toAdd = 0 := by
      rw [nsmul_eq_mul, show ((5 : ℕ) : ZMod 5) = 0 from rfl, zero_mul]
    exact congrArg Multiplicative.ofAdd hfive
  pair x y := .ofAdd (x.toAdd * y.toAdd)
  pair_comm x y := congrArg Multiplicative.ofAdd (mul_comm _ _)
  pair_mul x y z := congrArg Multiplicative.ofAdd (add_mul _ _ _)

theorem prove_verify_modFive :
    (∃ blocks, process [7, 0, 3] ⟨2, 1⟩ = .ok blocks ∧
      ∀ ch : Chall modFive.Zr, (∀ i ∈ ch.I, 1 ≤ i ∧ i ≤ blocks.length) →
        (do
          let (pk, sk) := keyGen modFive ⟨2, 1⟩ (.ofAdd 1) (2 : ZMod 5) (3 : ZMod 5) (.ofAdd 4)
          let tags ← setup modFive List.flatten [7, 0, 3] [1] pk sk ⟨2, 1⟩
          let prf ← prove modFive [7, 0, 3] ⟨2, 1⟩ pk tags ch
          verify modFive List.flatten [1] pk ch prf) = .ok true) ∧
    ∀ pk tags ch, prove modFive [7, 0, 3] ⟨2, 1⟩ pk tags ch ≠ .error nonZeroRemainder :=
  prove_verify modFive List.flatten ⟨2, 1⟩ (by decide) (by decide) (.ofAdd 1) (.ofAdd 4)
    (2 : ZMod 5) (3 : ZMod 5) [7, 0, 3] [1]

end Timbre.Pos
