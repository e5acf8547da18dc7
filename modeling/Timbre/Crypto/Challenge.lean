/-
  The challenge for a stored message.

  The verifier draws two elements and shuffles the indices of the full blocks, of which it takes the first
  ones.  **A challenge is made exactly if there are as many full blocks as it asks for, and the owner of the
  message answers it, whatever numbers are drawn** (`challenge_answered`).
-/
import Timbre.Crypto.Pos
import Timbre.Lib.Call
import Timbre.Lib.Draws

namespace Timbre.Pos

/-! ## The source -/

/-- `GetNumberofBlocksforTag`: full blocks only. -/
def getNumberofBlocksforTag (msgSize : ℕ) (cfg : Config) : Except Err ℕ :=
  if cfg.s * cfg.N = 0 then .error (.panic "runtime error: integer divide by zero")
  else .ok (msgSize / (cfg.s * cfg.N))

/-- `NewZr().Rand()` with the source of the generator. -/
abbrev RandZr (σ Z : Type) := σ → Z × σ

/-- `Challenge`: `l` of the indices from 1 to `n`. -/
def challenge {σ Z : Type} (G : Generator σ) (rand : RandZr σ Z) (n l : ℕ) : Call σ Err (Chall Z) := fun s =>
  let r := rand s
  let rho := rand r.2
  let indices := (Array.range n).map (· + 1)
  let shuffled := G.shuffle indices rho.2
  if l ≤ n then (.ok ⟨r.1, rho.1, shuffled.1.toList.take l⟩, shuffled.2)
  else (.error (.panic "runtime error: index out of range"), shuffled.2)

/-- The challenge for a message of this size. -/
def challengeFor {σ Z : Type} (G : Generator σ) (rand : RandZr σ Z) (msgSize : ℕ) (cfg : Config) (l : ℕ) :
    Call σ Err (Chall Z) := fun s =>
  match getNumberofBlocksforTag msgSize cfg with
  | .error e => (.error e, s)
  | .ok n => challenge G rand n l s

/-! ## What a challenge asks for -/

section
variable {σ Z : Type} {G : Generator σ} {rand : RandZr σ Z} {n l : ℕ} {s s' : σ} {ch : Chall Z}

theorem challenge_ok_iff : (∃ ch s', challenge G rand n l s = (.ok ch, s')) ↔ l ≤ n := by
  unfold challenge
  dsimp only
  split_ifs with hle
  · exact iff_of_true ⟨_, _, rfl⟩ hle
  · exact iff_of_false (by simp) hle

/-- **Distinct indices of full blocks**, as many as asked for. -/
theorem challenge_spec (h : challenge G rand n l s = (.ok ch, s')) :
    ch.I.length = l ∧ ch.I.Nodup ∧ ∀ i ∈ ch.I, 1 ≤ i ∧ i ≤ n := by
  have hle := challenge_ok_iff.1 ⟨ch, s', h⟩
  unfold challenge at h
  dsimp only at h
  rw [if_pos hle] at h
  obtain ⟨hch, -⟩ := Prod.mk.inj h
  obtain rfl := Except.ok.inj hch
  have hperm := (G.shuffle_perm ((Array.range n).map (· + 1)) (rand (rand s).2).2).toList
  have hindices : ((Array.range n).map (· + 1)).toList = (List.range n).map (· + 1) := by simp
  rw [hindices] at hperm
  have hnodup : ((List.range n).map (· + 1)).Nodup :=
    List.nodup_range.map fun _ _ => Nat.succ.inj
  refine ⟨?_, (hperm.nodup_iff.2 hnodup).sublist (List.take_sublist l _), fun i hi => ?_⟩
  · rw [List.length_take, hperm.length_eq, List.length_map, List.length_range]
    exact min_eq_left hle
  · obtain ⟨j, hj, rfl⟩ := List.mem_map.1 (hperm.mem_iff.1 (List.mem_of_mem_take hi))
    have := List.mem_range.1 hj
    omega

end

/-! ## The answer -/

section
variable {G T σ : Type} [CommGroup G] [CommGroup T]

/-- A full block is a block. -/
theorem full_le_length {M : Bytes} {cfg : Config} {blocks : List (List Bytes)} (hs : 1 ≤ cfg.s) (hN : 1 ≤ cfg.N)
    (hprocess : process M cfg = .ok blocks) : M.length / (cfg.s * cfg.N) ≤ blocks.length := by
  obtain ⟨pad, -, -, heq⟩ := process_eq M hs hN
  obtain rfl := Except.ok.inj (heq.symm.trans hprocess)
  rw [List.length_map, Chunks.length_pieces, ← ceilDiv_eq (Nat.mul_pos hs hN)]
  split_ifs
  · exact Nat.le_succ _
  · exact le_rfl

/-- **Challenges and their answers**: there is a challenge exactly if the message has `l` full blocks.  It
    asks for `l` distinct ones, and the proof made from the tags of the message is accepted, whatever the
    state of the generator. -/
theorem challenge_answered [DecidableEq T] (P : PairingGroup G T) (sha256 : List Bytes → Bytes)
    (cfg : Config) (hs : 1 ≤ cfg.s) (hN : 1 ≤ cfg.N) (g u : G) (a e : P.Zr) (M name : Bytes)
    (R : Generator σ) (rand : RandZr σ P.Zr) (l : ℕ) (s : σ) :
    ((∃ ch s', challengeFor R rand M.length cfg l s = (.ok ch, s')) ↔ l * (cfg.s * cfg.N) ≤ M.length) ∧
    ∀ ch s', challengeFor R rand M.length cfg l s = (.ok ch, s') → ch.I.length = l ∧ ch.I.Nodup ∧
      (do
        let (pk, sk) := keyGen P cfg g a e u
        let tags ← setup P sha256 M name pk sk cfg
        let prf ← prove P M cfg pk tags ch
        verify P sha256 name pk ch prf) = .ok true := by
  have hsize : 0 < cfg.s * cfg.N := Nat.mul_pos hs hN
  have hfor : challengeFor R rand M.length cfg l s = challenge R rand (M.length / (cfg.s * cfg.N)) l s := by
    rw [challengeFor, getNumberofBlocksforTag, if_neg hsize.ne']
  rw [hfor]
  refine ⟨challenge_ok_iff.trans (Nat.le_div_iff_mul_le hsize), fun ch s' hch => ?_⟩
  obtain ⟨hlength, hnodup, hI⟩ := challenge_spec hch
  obtain ⟨blocks, hprocess, hblocks⟩ := process_ok (M := M) hs hN
  have hfull := full_le_length hs hN hprocess
  obtain ⟨prf, q, hprove, htag, hpsi, hy⟩ := prove_ok hs hprocess hblocks
    fun i hi => ⟨(hI i hi).1, (hI i hi).2.trans hfull⟩
  refine ⟨hlength, hnodup, ?_⟩
  show (setup P sha256 M name (keyGen P cfg g a e u).1 (keyGen P cfg g a e u).2 cfg >>= _) = _
  rw [setup_ok hprocess hblocks]
  show (prove P M cfg (keyGen P cfg g a e u).1 _ ch >>= _) = _
  rw [hprove]
  exact verify_ok hs htag hpsi hy

/-- Two blocks of four bytes in a row. -/
theorem challenge_answered_modFive :
    ((∃ ch s', challengeFor .counter (fun s => ((s : ZMod 5), s + 1)) 4 ⟨2, 1⟩ 2 7 = (.ok ch, s')) ↔
      2 * (2 * 1) ≤ 4) ∧
    ∀ ch s', challengeFor .counter (fun s => ((s : ZMod 5), s + 1)) 4 ⟨2, 1⟩ 2 7 = (.ok ch, s') →
      ch.I.length = 2 ∧ ch.I.Nodup ∧
      (do
        let (pk, sk) := keyGen modFive ⟨2, 1⟩ (.ofAdd 1) (2 : ZMod 5) (3 : ZMod 5) (.ofAdd 4)
        let tags ← setup modFive List.flatten [7, 0, 3, 1] [1] pk sk ⟨2, 1⟩
        let prf ← prove modFive [7, 0, 3, 1] ⟨2, 1⟩ pk tags ch
        verify modFive List.flatten [1] pk ch prf) = .ok true :=
  challenge_answered modFive List.flatten ⟨2, 1⟩ (by decide) (by decide) (.ofAdd 1) (.ofAdd 4)
    (2 : ZMod 5) (3 : ZMod 5) [7, 0, 3, 1] [1] .counter (fun s => ((s : ZMod 5), s + 1)) 2 7

end

end Timbre.Pos
