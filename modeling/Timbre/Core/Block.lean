/-
  The content of a block as messages, and its hash.

  The hash is taken of the encodings of the header, the data and the state, one behind the
  other.  Nothing marks where one of them ends: **two blocks with the same hash have the same
  content iff their headers and their data take the same number of bytes** (`sameContent_iff`).
-/
import Timbre.Core.Types
import Timbre.Lib.Wire

namespace Timbre.Protobuf

open Wire (Bytes Field Message marshal)

/-! ## Posts and deals -/

structure PostMetadata where
  pid : Bytes
  contentHash : Bytes
  contentSize : UInt32
  threadHeadPostHash : Bytes
  parentPostHash : Bytes
  authorAddress : Bytes

structure PostParameter where
  maxCost : UInt32

structure PostInfo where
  metadata : Option PostMetadata
  param : Option PostParameter

structure SignedPostInfo where
  info : Option PostInfo
  sig : Bytes
  timestamp : Int64
  timeStampSig : Bytes

structure PublicKey where
  v : Bytes
  k : Bytes
  u : Bytes
  gaPow : List Bytes

structure Deal where
  list : List SignedPostInfo
  spid : Bytes
  spSig : Bytes
  publicKey : Option PublicKey
  timestamp : Int64
  expiryTime : Int64

structure Chall where
  r : Bytes
  rho : Bytes
  I : List Int32

structure Proof where
  psi : Bytes
  y : Bytes
  tag : Bytes

structure ChPrPair where
  challenge : Option Chall
  proof : Option Proof
  sig : Bytes
  spid : Bytes
  dealhash : Bytes
  dealExpiryTime : Int64
  timestamp : Int64
  dealStartTime : Int64

/-! ## Transactions, votes and blocks -/

structure Body where
  senderId : String
  recipientId : String
  decibels : Int64
  timeStamp : Int64
  nonce : UInt64
  payload : Bytes

structure Transaction where
  body : Option Body
  type : String
  payerSig : Bytes

structure Vote where
  id : String
  voteCand : List String
  timeStamp : Int64
  nonce : UInt64
  voterSig : Bytes

structure BlockHeader where
  height : Int64
  timestamp : Int64
  parentHash : Bytes
  minerPublicKey : Bytes
  roundNum : Int64
  hash : Bytes
  chainId : String
  minerSig : Bytes

structure PoDF where
  header1 : Option BlockHeader
  header2 : Option BlockHeader
  timeStamp : Int64
  nonce : UInt64
  publicKey : Bytes
  signature : Bytes

structure BlockData where
  deals : List Deal := []
  transactions : List Transaction := []
  chPrPair : List ChPrPair := []
  votes : List Vote := []
  podfs : List PoDF := []

structure AccState where
  pk : String
  balance : Int64
  votes : List String
  isCandidate : Bool
  podfHeights : List Int64
  nonce : UInt64

structure BlockState where
  accountStates : List AccState := []
  miners : List String := []
  nextRoundMiners : List String := []
  slotsPassed : Int64 := 0
  epoch : Int32 := 0

/-- A block.  A block without a header is met by no function that hashes it. -/
structure Block where
  header : BlockHeader
  data : Option BlockData
  state : Option BlockState

/-! ## Encodings -/

/-- A message whose fields are equal only if the messages are. -/
@[reducible]
def messageOf {α : Type} (fields : α → List Field) (nums : List ℕ) (hnodup : nums.Nodup)
    (hnums : ∀ m, (fields m).map Prod.fst = nums) (hinj : ∀ m m', fields m = fields m' → m = m') :
    Message α where
  fields := fields
  nums := nums
  nums_nodup := hnodup
  fields_nums := hnums
  fields_injective := hinj

theorem nodup_two : [1, 2].Nodup := by decide

instance : Message PostMetadata :=
  messageOf (fun m => [(1, Wire.bytes m.pid), (3, Wire.bytes m.contentHash),
      (4, Wire.uint32 m.contentSize), (6, Wire.bytes m.threadHeadPostHash),
      (7, Wire.bytes m.parentPostHash), (8, Wire.bytes m.authorAddress)])
    [1, 3, 4, 6, 7, 8] (by decide) (fun _ => rfl) fun m m' h => by cases m; cases m'; simpa using h

instance : Message PostParameter :=
  messageOf (fun m => [(1, Wire.uint32 m.maxCost)])
    [1] (by decide) (fun _ => rfl) fun m m' h => by cases m; cases m'; simpa using h

instance : Message PostInfo :=
  messageOf (fun m => [(1, Wire.message m.metadata), (2, Wire.message m.param)])
    [1, 2] nodup_two (fun _ => rfl) fun m m' h => by cases m; cases m'; simpa using h

instance : Message SignedPostInfo :=
  messageOf (fun m => [(1, Wire.message m.info), (2, Wire.bytes m.sig), (3, Wire.int64 m.timestamp),
      (4, Wire.bytes m.timeStampSig)])
    [1, 2, 3, 4] (by decide) (fun _ => rfl) fun m m' h => by cases m; cases m'; simpa using h

instance : Message PublicKey :=
  messageOf (fun m => [(1, Wire.bytes m.v), (2, Wire.bytes m.k), (3, Wire.bytes m.u),
      (4, Wire.repeatedBytes m.gaPow)])
    [1, 2, 3, 4] (by decide) (fun _ => rfl) fun m m' h => by cases m; cases m'; simpa using h

instance : Message Deal :=
  messageOf (fun m => [(1, Wire.repeatedMessage m.list), (2, Wire.bytes m.spid),
      (3, Wire.bytes m.spSig), (4, Wire.message m.publicKey), (5, Wire.int64 m.timestamp),
      (6, Wire.int64 m.expiryTime)])
    [1, 2, 3, 4, 5, 6] (by decide) (fun _ => rfl) fun m m' h => by cases m; cases m'; simpa using h

instance : Message Chall :=
  messageOf (fun m => [(1, Wire.bytes m.r), (2, Wire.bytes m.rho),
      (3, Wire.packed (fun i => i.toInt64.toUInt64.toNat) m.I)])
    [1, 2, 3] (by decide) (fun _ => rfl) fun m m' h => by
      cases m; cases m'
      simpa [Wire.packed_inj fun _ _ => Wire.int32_code_inj] using h

instance : Message Proof :=
  messageOf (fun m => [(1, Wire.bytes m.psi), (2, Wire.bytes m.y), (3, Wire.bytes m.tag)])
    [1, 2, 3] (by decide) (fun _ => rfl) fun m m' h => by cases m; cases m'; simpa using h

instance : Message ChPrPair :=
  messageOf (fun m => [(1, Wire.message m.challenge), (2, Wire.message m.proof),
      (3, Wire.bytes m.sig), (4, Wire.bytes m.spid), (5, Wire.bytes m.dealhash),
      (6, Wire.int64 m.dealExpiryTime), (7, Wire.int64 m.timestamp),
      (8, Wire.int64 m.dealStartTime)])
    [1, 2, 3, 4, 5, 6, 7, 8] (by decide) (fun _ => rfl) fun m m' h => by
      cases m; cases m'; simpa using h

instance : Message Body :=
  messageOf (fun m => [(1, Wire.string m.senderId), (2, Wire.string m.recipientId),
      (3, Wire.int64 m.decibels), (4, Wire.int64 m.timeStamp), (5, Wire.uint64 m.nonce),
      (6, Wire.bytes m.payload)])
    [1, 2, 3, 4, 5, 6] (by decide) (fun _ => rfl) fun m m' h => by cases m; cases m'; simpa using h

instance : Message Transaction :=
  messageOf (fun m => [(1, Wire.message m.body), (2, Wire.string m.type), (3, Wire.bytes m.payerSig)])
    [1, 2, 3] (by decide) (fun _ => rfl) fun m m' h => by cases m; cases m'; simpa using h

instance : Message Vote :=
  messageOf (fun m => [(1, Wire.string m.id), (2, Wire.repeatedString m.voteCand),
      (3, Wire.int64 m.timeStamp), (4, Wire.uint64 m.nonce), (5, Wire.bytes m.voterSig)])
    [1, 2, 3, 4, 5] (by decide) (fun _ => rfl) fun m m' h => by cases m; cases m'; simpa using h

instance : Message BlockHeader :=
  messageOf (fun m => [(1, Wire.int64 m.height), (2, Wire.int64 m.timestamp),
      (3, Wire.bytes m.parentHash), (4, Wire.bytes m.minerPublicKey), (5, Wire.int64 m.roundNum),
      (6, Wire.bytes m.hash), (7, Wire.string m.chainId), (8, Wire.bytes m.minerSig)])
    [1, 2, 3, 4, 5, 6, 7, 8] (by decide) (fun _ => rfl) fun m m' h => by
      cases m; cases m'; simpa using h

instance : Message PoDF :=
  messageOf (fun m => [(1, Wire.message m.header1), (2, Wire.message m.header2),
      (3, Wire.int64 m.timeStamp), (4, Wire.uint64 m.nonce), (5, Wire.bytes m.publicKey),
      (6, Wire.bytes m.signature)])
    [1, 2, 3, 4, 5, 6] (by decide) (fun _ => rfl) fun m m' h => by cases m; cases m'; simpa using h

instance : Message BlockData :=
  messageOf (fun m => [(1, Wire.repeatedMessage m.deals), (2, Wire.repeatedMessage m.transactions),
      (3, Wire.repeatedMessage m.chPrPair), (4, Wire.repeatedMessage m.votes),
      (5, Wire.repeatedMessage m.podfs)])
    [1, 2, 3, 4, 5] (by decide) (fun _ => rfl) fun m m' h => by cases m; cases m'; simpa using h

instance : Message AccState :=
  messageOf (fun m => [(1, Wire.string m.pk), (2, Wire.int64 m.balance),
      (3, Wire.repeatedString m.votes), (4, Wire.bool m.isCandidate),
      (5, Wire.packed (fun h => h.toUInt64.toNat) m.podfHeights), (6, Wire.uint64 m.nonce)])
    [1, 2, 3, 4, 5, 6] (by decide) (fun _ => rfl) fun m m' h => by
      cases m; cases m'
      simpa [Wire.packed_inj fun _ _ h => Wire.toUInt64_injective (UInt64.toNat_inj.1 h)] using h

instance : Message BlockState :=
  messageOf (fun m => [(1, Wire.repeatedMessage m.accountStates), (2, Wire.repeatedString m.miners),
      (3, Wire.repeatedString m.nextRoundMiners), (4, Wire.int64 m.slotsPassed),
      (5, Wire.int32 m.epoch)])
    [1, 2, 3, 4, 5] (by decide) (fun _ => rfl) fun m m' h => by cases m; cases m'; simpa using h

/-! ## Hashes -/

/-- `proto.Marshal` of a pointer to a part of the block. -/
def marshalPart {α : Type} [Message α] (part : String) : Option α → Except String Bytes
  | some m => .ok (marshal m)
  | none => .error ("error marshaling Block " ++ part ++ ": proto: Marshal called with nil")

/-- The header with its hash and its signature set to nil. -/
def BlockHeader.cleared (nilHash nilSig : Bool) (h : BlockHeader) : BlockHeader :=
  { h with hash := if nilHash then [] else h.hash, minerSig := if nilSig then [] else h.minerSig }

namespace Block

/-- `serializeIncBlock`: header, data and state of the block in one string of bytes. -/
def serializeIncBlock (nilHash nilSig : Bool) (b : Block) : Except String Bytes := do
  let headerBytes := marshal (b.header.cleared nilHash nilSig)
  let dataBytes ← marshalPart "data" b.data
  let stateBytes ← marshalPart "state" b.state
  return headerBytes ++ dataBytes ++ stateBytes

variable (sha256 : Bytes → Bytes)

def getValidatingHash (b : Block) : Except String Bytes := do
  let message ← b.serializeIncBlock true true
  return sha256 message

def hasValidHash (b : Block) : Except String Bool := do
  let trueHash ← b.getValidatingHash sha256
  return b.header.hash = trueHash

/-- The bytes hashed for the header. -/
def headerBytes (b : Block) : Bytes := marshal (b.header.cleared true true)

/-- The bytes hashed for the data. -/
def dataBytes (b : Block) : Bytes := (b.data.map marshal).getD []

/-- The headers apart from the signature, the data and the states are equal, a part that is
    missing counting as an empty one. -/
structure SameContent (b b' : Block) : Prop where
  header : b.header.cleared false true = b'.header.cleared false true
  data : b.data.getD {} = b'.data.getD {}
  state : b.state.getD {} = b'.state.getD {}

variable {sha256} {b b' : Block}

theorem hasValidHash_iff : b.hasValidHash sha256 = .ok true ↔
    ∃ data state, b.data = some data ∧ b.state = some state ∧
      b.header.hash = sha256 (b.headerBytes ++ marshal data ++ marshal state) := by
  obtain ⟨header, data, state⟩ := b
  cases data with
  | none => simp [hasValidHash, getValidatingHash, serializeIncBlock, marshalPart, bind, Except.bind]
  | some data =>
    cases state with
    | none => simp [hasValidHash, getValidatingHash, serializeIncBlock, marshalPart, bind, Except.bind]
    | some state =>
      show (.ok (decide (_ = _)) : Except String Bool) = .ok true ↔ _
      simp [headerBytes]

theorem cleared_eq {h h' : BlockHeader} (hcleared : h.cleared true true = h'.cleared true true)
    (hhash : h.hash = h'.hash) : h.cleared false true = h'.cleared false true := by
  have hrestore : ∀ h : BlockHeader, h.cleared false true =
      { h.cleared true true with hash := h.hash } := fun h => rfl
  rw [hrestore h, hrestore h', hcleared, hhash]

/-- **Two valid blocks with the same hash have the same content iff the encodings of their
    headers and of their data have the same lengths.** -/
theorem sameContent_iff (hsha : Function.Injective sha256) (hb : b.hasValidHash sha256 = .ok true)
    (hb' : b'.hasValidHash sha256 = .ok true) (hhash : b.header.hash = b'.header.hash) :
    SameContent b b' ↔
      b.headerBytes.length = b'.headerBytes.length ∧ b.dataBytes.length = b'.dataBytes.length := by
  obtain ⟨data, state, hdata, hstate, hvalid⟩ := hasValidHash_iff.1 hb
  obtain ⟨data', state', hdata', hstate', hvalid'⟩ := hasValidHash_iff.1 hb'
  have hbytes : b.dataBytes = marshal data := by rw [dataBytes, hdata]; rfl
  have hbytes' : b'.dataBytes = marshal data' := by rw [dataBytes, hdata']; rfl
  constructor
  · intro h
    have hheader := congrArg (BlockHeader.cleared true true) h.header
    have hsame := h.data
    rw [hdata, hdata', Option.getD_some, Option.getD_some] at hsame
    refine ⟨congrArg (fun h => (marshal h).length) hheader, ?_⟩
    rw [hbytes, hbytes', hsame]
  · rintro ⟨hheader, hlength⟩
    have hall := hsha (hvalid.symm.trans (hhash.trans hvalid'))
    rw [List.append_assoc, List.append_assoc] at hall
    obtain ⟨hheader, hrest⟩ := List.append_inj hall hheader
    rw [hbytes, hbytes'] at hlength
    obtain ⟨hd, hs⟩ := List.append_inj hrest hlength
    exact {
      header := cleared_eq (Wire.marshal_injective hheader) hhash
      data := by rw [hdata, hdata', Wire.marshal_injective hd]
      state := by rw [hstate, hstate', Wire.marshal_injective hs] }

/-- The block with the hash of its content in its header. -/
def sealed (sha256 : Bytes → Bytes) (b : Block) : Block :=
  { b with header := { b.header with
      hash := sha256 (b.headerBytes ++ b.dataBytes ++ (b.state.map marshal).getD []) } }

theorem hasValidHash_sealed {header : BlockHeader} {data : BlockData} {state : BlockState} :
    (sealed sha256 ⟨header, some data, some state⟩).hasValidHash sha256 = .ok true :=
  hasValidHash_iff.2 ⟨data, state, rfl, rfl, rfl⟩

/-- A header without miner and signature, for concrete blocks. -/
def bareHeader : BlockHeader where
  height := 1
  timestamp := 0
  parentHash := []
  minerPublicKey := []
  roundNum := 2
  hash := []
  chainId := ""
  minerSig := []

/-- A block with one deal and no account states. -/
def dealBlock : Block :=
  sealed id ⟨bareHeader, some { deals := [⟨[], [], [], none, 0, 0⟩] }, some {}⟩

/-- The block with the bytes of the deal moved to the state. -/
def stateBlock : Block :=
  sealed id ⟨bareHeader, some {}, some { accountStates := [⟨"", 0, [], false, [], 0⟩] }⟩

theorem hash_dealBlock : dealBlock.header.hash = stateBlock.header.hash := by
  have hdeal : dealBlock.header.hash =
      marshal (bareHeader.cleared true true) ++ (Wire.record (1, .len []) ++ []) ++ [] := rfl
  have hstate : stateBlock.header.hash =
      marshal (bareHeader.cleared true true) ++ [] ++ (Wire.record (1, .len []) ++ []) := rfl
  rw [hdeal, hstate, List.append_nil, List.append_nil, List.append_nil]

theorem sameContent_iff_dealBlock : SameContent dealBlock stateBlock ↔
    dealBlock.headerBytes.length = stateBlock.headerBytes.length ∧
      dealBlock.dataBytes.length = stateBlock.dataBytes.length :=
  sameContent_iff (fun _ _ h => h) hasValidHash_sealed hasValidHash_sealed
    hash_dealBlock

/-- The bytes of a deal pass for an account state. -/
theorem not_sameContent : ∃ b b' : Block, b.hasValidHash id = .ok true ∧
    b'.hasValidHash id = .ok true ∧ b.header.hash = b'.header.hash ∧ ¬ SameContent b b' := by
  refine ⟨dealBlock, stateBlock, hasValidHash_sealed, hasValidHash_sealed, hash_dealBlock, ?_⟩
  intro h
  exact absurd (congrArg (fun d : BlockData => d.deals.length) h.data) (by decide)

end Block

end Timbre.Protobuf
