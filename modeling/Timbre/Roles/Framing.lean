/-
  The messages of the syncer that put several byte strings into one, with a separator between them.

  **The receiver gets back what has been sent if and only if no separator starts inside a hash or a
  block** (`framing_iff`).
-/
import Timbre.Lib.Separator
import Timbre.Lib.Wire
import Timbre.Wallet.ParseVote

namespace Timbre
namespace Framing

open Wire (Bytes)
open Separator

/-! ## The source -/

/-- `[]byte(" , ")`. -/
def commaSep : Bytes := [32, 44, 32]

/-- `[]byte("timbre")`. -/
def timbreSep : Bytes := [116, 105, 109, 98, 114, 101]

/-- The bytes of a text of ASCII characters. -/
def ascii (s : List Char) : Bytes := s.map fun c => UInt8.ofNat c.toNat

/-- `strconv.Itoa`. -/
def itoa (n : Int64) : Bytes :=
  ascii ((if n.toInt < 0 then ['-'] else []) ++ Nat.toDigits 10 n.toInt.natAbs)

/-- The sign of a number, and the text behind it. -/
def signed : List Char → Bool × List Char
  | '-' :: s => (true, s)
  | '+' :: s => (false, s)
  | s => (false, s)

/-- `strconv.Atoi`. -/
def atoi (s : Bytes) : Except Err Int64 :=
  let (negative, s) := signed (s.map fun b => Char.ofNat b.toNat)
  match ParseVote.digits s with
  | none => .error (.error "invalid syntax")
  | some v =>
    let z : ℤ := if negative then -v else v
    if -2 ^ 63 ≤ z ∧ z < 2 ^ 63 then .ok (Int64.ofInt z) else .error (.error "value out of range")

/-- `createAskMsg`. -/
def createAskMsg (blockHash : Bytes) (n : Int64) : Bytes := blockHash ++ commaSep ++ itoa n

/-- What `handleBlockAsk` takes from the message: the hash and the count. -/
def readAsk (data : Bytes) : Except Err (Bytes × Int64) :=
  match split commaSep data with
  | blockHash :: n :: _ => do
    let z ← atoi n
    return (blockHash, z)
  | _ => .error (.panic "index out of range")

/-- What `handleBlockAsk` sends: the blocks, behind the genesis block if the sync starts from it. -/
def toSend (genesis : Option Bytes) (allBlocks : List Bytes) : Bytes :=
  match genesis with
  | none => commaSep.intercalate allBlocks
  | some tempbytes => tempbytes ++ commaSep ++ commaSep.intercalate allBlocks

/-- What `handleBlockSync` takes from the message. -/
def readBlocks (allBlocks : Bytes) : Except Err (List Bytes) :=
  if allBlocks.length = 0 then .error (.error "Empty block list received")
  else .ok (split commaSep allBlocks)

/-- What `handlBlockChainLongSyncRequest` sends: the tail, the hash of the start block, if one has
    been found, and the genesis block or its hash. -/
def longSyncResponse (mainTail : Bytes) (startHash : Option Bytes) (genesis : Bytes) : Bytes :=
  match startHash with
  | none => mainTail ++ timbreSep ++ genesis
  | some hash => mainTail ++ timbreSep ++ hash ++ timbreSep ++ genesis

/-- What `handlBlockChainLongSyncResponse` takes from the message. -/
def readLongSync (data : Bytes) : List Bytes := split timbreSep data

/-! ## Numbers -/

theorem ofNat_ascii {c : Char} (h : c.toNat < 256) : Char.ofNat (UInt8.ofNat c.toNat).toNat = c := by
  rw [UInt8.toNat_ofNat', Nat.mod_eq_of_lt (by omega), Char.ofNat_toNat]

theorem map_ascii {s : List Char} (h : ∀ c ∈ s, c.toNat < 256) :
    (ascii s).map (fun b => Char.ofNat b.toNat) = s := by
  rw [ascii, List.map_map]
  exact (List.map_congr_left fun c hc => ofNat_ascii (h c hc)).trans (List.map_id s)

theorem digit_bounds {n : ℕ} {c : Char} (hc : c ∈ Nat.toDigits 10 n) : 48 ≤ c.toNat ∧ c.toNat ≤ 57 := by
  have hdigit := Nat.isDigit_of_mem_toDigits (by decide) (by decide) hc
  simpa [Char.isDigit, UInt32.le_iff_toNat_le] using hdigit

/-- **A number reads back as it was written.** -/
theorem atoi_itoa (n : Int64) : atoi (itoa n) = .ok n := by
  have hlo := n.le_toInt
  have hhi := n.toInt_lt
  have hchars : ∀ c ∈ (if n.toInt < 0 then ['-'] else []) ++ Nat.toDigits 10 n.toInt.natAbs, c.toNat < 256 := by
    intro c hc
    rcases List.mem_append.1 hc with hc | hc
    · split_ifs at hc
      · rw [List.mem_singleton.1 hc]
        decide
      · cases hc
    · have := digit_bounds hc
      omega
  have hsigned : signed ((if n.toInt < 0 then ['-'] else []) ++ Nat.toDigits 10 n.toInt.natAbs) =
      (decide (n.toInt < 0), Nat.toDigits 10 n.toInt.natAbs) := by
    split_ifs with hneg
    · simp [signed, hneg]
    · rw [List.nil_append]
      unfold signed
      split
      · rename_i h
        have := digit_bounds (n := n.toInt.natAbs) (c := '-') (by simp [h])
        exact absurd this (by decide)
      · rename_i h
        have := digit_bounds (n := n.toInt.natAbs) (c := '+') (by simp [h])
        exact absurd this (by decide)
      · simp [hneg]
  rw [atoi, itoa, map_ascii hchars, hsigned]
  simp only [ParseVote.digits_toDigits]
  have hz : (if decide (n.toInt < 0) = true then -((n.toInt.natAbs : ℕ) : ℤ) else n.toInt.natAbs) = n.toInt := by
    split_ifs with h <;> simp at h <;> omega
  rw [hz, if_pos ⟨hlo, hhi⟩, Int64.ofInt_toInt]

/-- A number contains no blank. -/
theorem blank_notMem_itoa (n : Int64) : 32 ∉ itoa n := by
  intro h
  obtain ⟨c, hc, hblank⟩ := List.mem_map.1 h
  have hnat : c.toNat % 256 = 32 := by
    rw [← UInt8.toNat_ofNat', hblank]
    rfl
  rcases List.mem_append.1 hc with hc | hc
  · split_ifs at hc
    · rw [List.mem_singleton.1 hc] at hnat
      exact absurd hnat (by decide)
    · cases hc
  · have := digit_bounds hc
    omega

/-! ## Round trips -/

/-- The pieces of a long-sync response. -/
def pieces (mainTail : Bytes) (startHash : Option Bytes) (genesis : Bytes) : List Bytes :=
  mainTail :: startHash.toList ++ [genesis]

/-- The blocks that are sent. -/
def sent (genesis : Option Bytes) (allBlocks : List Bytes) : List Bytes := genesis.toList ++ allBlocks

theorem readAsk_iff (blockHash : Bytes) (n : Int64) :
    readAsk (createAskMsg blockHash n) = .ok (blockHash, n) ↔ Free commaSep commaSep blockHash := by
  have hsep : commaSep ≠ [] := by decide
  rw [createAskMsg, List.append_assoc, ← free_append (itoa n)]
  constructor
  · intro h
    by_contra hfree
    obtain ⟨p, ps, hsplit, hlt⟩ := split_short hsep hfree
    rw [readAsk, hsplit] at h
    cases ps with
    | nil => cases h
    | cons q ps =>
      obtain ⟨z, -, hz⟩ := except_bind_ok h
      obtain rfl : p = blockHash := congrArg Prod.fst (Except.ok.inj hz)
      exact lt_irrefl _ hlt
  · intro hfree
    have hcount : split commaSep (itoa n) = [itoa n] := split_single (free_of_not_mem (blank_notMem_itoa n))
    rw [readAsk, split_piece hsep hfree, hcount]
    show (atoi (itoa n) >>= _) = _
    rw [atoi_itoa]
    rfl

theorem toSend_eq {genesis : Option Bytes} {allBlocks : List Bytes} (h : allBlocks ≠ []) :
    toSend genesis allBlocks = commaSep.intercalate (sent genesis allBlocks) := by
  cases genesis with
  | none => rfl
  | some tempbytes => exact (List.intercalate_cons_of_ne_nil h).symm

/-- The message is empty if it is about one empty block only. -/
theorem toSend_eq_nil {genesis : Option Bytes} {allBlocks : List Bytes} (h : allBlocks ≠ []) :
    toSend genesis allBlocks = [] ↔ genesis = none ∧ allBlocks = [[]] := by
  cases genesis with
  | some tempbytes => simp [toSend, commaSep]
  | none =>
    obtain ⟨first, rest, rfl⟩ := List.exists_cons_of_ne_nil h
    cases rest with
    | nil => simp [toSend, List.intercalate]
    | cons next rest => simp [toSend, List.intercalate_cons_of_ne_nil, commaSep]

/-- Behind the genesis block, an empty list leaves a separator with nothing after it. -/
theorem split_trailing (tempbytes : Bytes) : split commaSep (tempbytes ++ commaSep) ≠ [tempbytes] := by
  have hsep : commaSep ≠ [] := by decide
  intro h
  by_cases hfree : Free commaSep commaSep tempbytes
  · have hpieces : split commaSep (tempbytes ++ (commaSep ++ [])) = tempbytes :: split commaSep [] :=
      split_piece hsep ((free_append [] tempbytes).2 hfree)
    rw [List.append_nil, h] at hpieces
    cases hpieces
  · obtain ⟨p, ps, hsplit, hlt⟩ := split_short hsep hfree
    rw [h] at hsplit
    obtain rfl : tempbytes = p := (List.cons.inj hsplit).1
    exact lt_irrefl _ hlt

theorem readBlocks_iff (genesis : Option Bytes) (allBlocks : List Bytes) :
    readBlocks (toSend genesis allBlocks) = .ok (sent genesis allBlocks) ↔
      allBlocks ≠ [] ∧ (genesis = none → allBlocks ≠ [[]]) ∧ Clean commaSep (sent genesis allBlocks) := by
  simp only [readBlocks, List.length_eq_zero_iff]
  by_cases hblocks : allBlocks = []
  · subst hblocks
    refine iff_of_false (fun h => ?_) fun h => h.1 rfl
    split_ifs at h with hempty
    cases genesis with
    | none => exact hempty rfl
    | some tempbytes =>
      have hsent : toSend (some tempbytes) [] = tempbytes ++ commaSep := List.append_nil _
      exact split_trailing tempbytes (hsent ▸ Except.ok.inj h)
  · have hnil : toSend genesis allBlocks = [] ↔ ¬ (genesis = none → allBlocks ≠ [[]]) := by
      rw [toSend_eq_nil hblocks, Classical.not_imp, not_ne_iff]
    rw [← split_join_iff (by decide), ← toSend_eq hblocks]
    split_ifs with hempty
    · exact iff_of_false (fun h => by cases h) fun h => hnil.1 hempty h.2.1
    · rw [Except.ok.injEq]
      exact ⟨fun hs => ⟨hblocks, not_not.1 (mt hnil.2 hempty), hs⟩, fun h => h.2.2⟩

theorem readLongSync_iff (mainTail : Bytes) (startHash : Option Bytes) (genesis : Bytes) :
    readLongSync (longSyncResponse mainTail startHash genesis) = pieces mainTail startHash genesis ↔
      Clean timbreSep (pieces mainTail startHash genesis) := by
  have hjoin : longSyncResponse mainTail startHash genesis =
      timbreSep.intercalate (pieces mainTail startHash genesis) := by
    cases startHash <;> simp [longSyncResponse, pieces]
  rw [hjoin, readLongSync, split_join_iff (by decide)]

/-- **When the messages come back as they were sent.** -/
theorem framing_iff (blockHash : Bytes) (n : Int64) (first : Option Bytes) (allBlocks : List Bytes) (mainTail : Bytes)
    (startHash : Option Bytes) (genesis : Bytes) :
    (readAsk (createAskMsg blockHash n) = .ok (blockHash, n) ↔ Free commaSep commaSep blockHash) ∧
    (readBlocks (toSend first allBlocks) = .ok (sent first allBlocks) ↔
      allBlocks ≠ [] ∧ (first = none → allBlocks ≠ [[]]) ∧ Clean commaSep (sent first allBlocks)) ∧
    (readLongSync (longSyncResponse mainTail startHash genesis) = pieces mainTail startHash genesis ↔
      Clean timbreSep (pieces mainTail startHash genesis)) :=
  ⟨readAsk_iff blockHash n, readBlocks_iff first allBlocks, readLongSync_iff mainTail startHash genesis⟩

/-- A hash that ends with a blank and a comma runs into the separator behind it. -/
theorem not_framing : readAsk (createAskMsg [7, 32, 44] 10) ≠ .ok ([7, 32, 44], 10) := by
  rw [Ne, readAsk_iff]
  decide

end Framing
end Timbre
