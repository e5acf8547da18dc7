/-
  The blocks of a message.

  A message is cut into blocks of `s` elements of `N` bytes, the last one padded with zeros.
  **The elements one behind the other are the message and less than a block of zeros**
  (`process_splits`).
-/
import Mathlib.Algebra.Order.Floor.Div
import Mathlib.GroupTheory.GroupAction.Ring
import Timbre.Core.Types
import Timbre.Lib.Chunks

namespace Timbre.Pos

abbrev Bytes := List UInt8

/-- `s` elements in each data block, `N` bytes in each element. -/
structure Config where
  s : ℕ
  N : ℕ

/-- `MakeTestConfig`, from which a node takes its configuration. -/
def Config.makeTestConfig : Config := ⟨4, 8⟩

/-! ## Indexing -/

/-- `xs[i]`. -/
def index {α : Type} (xs : List α) (i : ℕ) : Except Err α :=
  match xs[i]? with
  | some x => .ok x
  | none => .error (.panic "runtime error: index out of range")

/-- `xs[lo:hi]`. -/
def slice (xs : Bytes) (lo hi : ℕ) : Except Err Bytes :=
  if lo ≤ hi ∧ hi ≤ xs.length then .ok ((xs.take hi).drop lo)
  else .error (.panic "runtime error: slice bounds out of range")

section
variable {α β : Type}

theorem index_ok {xs : List α} {i : ℕ} (h : i < xs.length) : index xs i = .ok xs[i] := by
  rw [index, List.getElem?_eq_getElem h]

theorem mapM_ok {f : α → Except Err β} {g : α → β} : ∀ {xs : List α},
    (∀ x ∈ xs, f x = .ok (g x)) → xs.mapM f = .ok (xs.map g)
  | [], _ => rfl
  | x :: xs, h => by
    rw [List.mapM_cons, h x (by simp), mapM_ok fun y hy => h y (List.mem_cons_of_mem x hy)]
    rfl

end

/-! ## Blocks -/

/-- `Process`: divides the message into blocks. -/
def process (M : Bytes) (cfg : Config) : Except Err (List (List Bytes)) :=
  let size := cfg.s * cfg.N
  if size = 0 then .error (.panic "runtime error: integer divide by zero")
  else
    let r := M.length % size
    let n := if r ≠ 0 then M.length / size + 1 else M.length / size
    let pad := if r ≠ 0 then size - r else 0
    let MCopy := M ++ List.replicate pad 0
    (List.range n).mapM fun i => (List.range cfg.s).mapM fun j =>
      slice MCopy (i * size + j * cfg.N) (i * size + (j + 1) * cfg.N)

/-- The number of blocks is the length in blocks, rounded up. -/
theorem ceilDiv_eq {len size : ℕ} (hsize : 0 < size) :
    (if len % size ≠ 0 then len / size + 1 else len / size) = len ⌈/⌉ size := by
  have hdiv := Nat.div_add_mod len size
  have hlt := Nat.mod_lt len hsize
  rw [Nat.ceilDiv_eq_add_pred_div]
  symm
  split_ifs with h
  · refine Nat.div_eq_of_lt_le ?_ ?_
    · rw [Nat.succ_mul, mul_comm]
      omega
    · rw [Nat.succ_mul, Nat.succ_mul, mul_comm]
      omega
  · refine Nat.div_eq_of_lt_le ?_ ?_
    · rw [mul_comm]
      omega
    · rw [Nat.succ_mul, mul_comm]
      omega

/-- The padding. -/
theorem pad_spec (len : ℕ) {size : ℕ} (hsize : 0 < size) :
    ∃ pad, (if len % size ≠ 0 then size - len % size else 0) = pad ∧ pad < size ∧
      len + pad = (len ⌈/⌉ size) * size := by
  have hdiv := Nat.div_add_mod len size
  have hlt := Nat.mod_lt len hsize
  rw [← ceilDiv_eq hsize]
  refine ⟨_, rfl, ?_, ?_⟩
  · split_ifs with h
    · omega
    · exact hsize
  · split_ifs with h
    · rw [Nat.succ_mul, mul_comm]
      omega
    · rw [mul_comm]
      omega

/-- Every slice is in range, and is a piece of a piece. -/
theorem slice_piece {MCopy : Bytes} {s N n i j : ℕ} (hlength : MCopy.length = n * (s * N)) (hi : i < n)
    (hj : j < s) : slice MCopy (i * (s * N) + j * N) (i * (s * N) + (j + 1) * N) =
      .ok (Chunks.piece N (Chunks.piece (s * N) MCopy i) j) := by
  have hrow := Chunks.piece_end (k := s * N) hi
  have hcol := Chunks.piece_end (k := N) hj
  rw [slice, if_pos]
  · rw [Chunks.piece, Chunks.piece, List.drop_take, List.drop_take, List.take_take, List.drop_drop]
    congr 2
    rw [Nat.succ_mul]
    omega
  · rw [Nat.succ_mul, hlength]
    omega

/-- The blocks are the pieces of the padded message, and their elements the pieces of these. -/
theorem process_eq (M : Bytes) {cfg : Config} (hs : 1 ≤ cfg.s) (hN : 1 ≤ cfg.N) :
    ∃ pad < cfg.s * cfg.N,
      (M ++ List.replicate pad 0).length = (M.length ⌈/⌉ (cfg.s * cfg.N)) * (cfg.s * cfg.N) ∧
      process M cfg = .ok ((Chunks.pieces (cfg.s * cfg.N) (M.length ⌈/⌉ (cfg.s * cfg.N))
        (M ++ List.replicate pad 0)).map (Chunks.pieces cfg.N cfg.s)) := by
  have hsize : 0 < cfg.s * cfg.N := Nat.mul_pos hs hN
  obtain ⟨pad, hpad, hlt, hlength⟩ := pad_spec M.length hsize
  have hcopy : (M ++ List.replicate pad (0 : UInt8)).length =
      (M.length ⌈/⌉ (cfg.s * cfg.N)) * (cfg.s * cfg.N) := by
    rw [List.length_append, List.length_replicate, hlength]
  refine ⟨pad, hlt, hcopy, ?_⟩
  rw [process, if_neg hsize.ne', Chunks.pieces, List.map_map]
  dsimp only
  rw [hpad, ceilDiv_eq hsize]
  refine mapM_ok fun i hi => mapM_ok fun j hj => ?_
  exact slice_piece hcopy (List.mem_range.1 hi) (List.mem_range.1 hj)

/-- The message is divided into blocks of `s` elements. -/
theorem process_ok {M : Bytes} {cfg : Config} (hs : 1 ≤ cfg.s) (hN : 1 ≤ cfg.N) :
    ∃ blocks, process M cfg = .ok blocks ∧ ∀ block ∈ blocks, block.length = cfg.s := by
  obtain ⟨pad, -, -, hprocess⟩ := process_eq M hs hN
  refine ⟨_, hprocess, fun block hblock => ?_⟩
  obtain ⟨p, -, rfl⟩ := List.mem_map.1 hblock
  exact Chunks.length_pieces

/-- **`Process` splits the message into full blocks, and adds less than a block of zeros.** -/
theorem process_splits (M : Bytes) (cfg : Config) (hs : 1 ≤ cfg.s) (hN : 1 ≤ cfg.N) :
    ∃ blocks, process M cfg = .ok blocks ∧ blocks.length = M.length ⌈/⌉ (cfg.s * cfg.N) ∧
      (∀ block ∈ blocks, block.length = cfg.s ∧ ∀ x ∈ block, x.length = cfg.N) ∧
      ∃ pad < cfg.s * cfg.N, blocks.flatten.flatten = M ++ List.replicate pad 0 := by
  obtain ⟨pad, hlt, hcopy, hprocess⟩ := process_eq M hs hN
  refine ⟨_, hprocess, ?_, ?_, pad, hlt, ?_⟩
  · rw [List.length_map, Chunks.length_pieces]
  · intro block hblock
    obtain ⟨p, hp, rfl⟩ := List.mem_map.1 hblock
    have hlen : p.length = cfg.s * cfg.N := Chunks.length_of_mem hcopy hp
    exact ⟨Chunks.length_pieces, fun x hx => Chunks.length_of_mem hlen hx⟩
  · have hblocks : ∀ p ∈ Chunks.pieces (cfg.s * cfg.N) (M.length ⌈/⌉ (cfg.s * cfg.N))
        (M ++ List.replicate pad 0), (List.flatten ∘ Chunks.pieces cfg.N cfg.s) p = p := by
      intro p hp
      exact Chunks.flatten_pieces (Chunks.length_of_mem hcopy hp)
    rw [List.flatten_flatten, List.map_map, List.map_congr_left hblocks, List.map_id']
    exact Chunks.flatten_pieces hcopy

theorem process_splits_sevenBytes :
    ∃ blocks, process [1, 2, 3, 4, 5, 6, 7] ⟨2, 2⟩ = .ok blocks ∧ blocks.length = 7 ⌈/⌉ (2 * 2) ∧
      (∀ block ∈ blocks, block.length = 2 ∧ ∀ x ∈ block, x.length = 2) ∧
      ∃ pad < 2 * 2, blocks.flatten.flatten = [1, 2, 3, 4, 5, 6, 7] ++ List.replicate pad 0 :=
  process_splits [1, 2, 3, 4, 5, 6, 7] ⟨2, 2⟩ (by decide) (by decide)

end Timbre.Pos
