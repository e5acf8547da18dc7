/-
  Proofs of double forgery: who signs what, and what a report proves.

  A block is signed over its header followed by the chain id; `ValidateHeaderSign` checks a
  header of a report over the header alone, each under the key that the header itself names.

  **What an accepted report proves is a double forgery iff both headers name one miner**
  (`forgery_iff`).  **The report of a double forgery is accepted iff the chain id is empty**
  (`podf_accepted_iff`), blocks being signed before they carry a signature.
-/
import Timbre.Core.Block
import Timbre.Wallet.Readiness
import Timbre.Wallet.Run

namespace Timbre

open Call WalletManager
open Wire (Bytes)

/-- The header that is signed. -/
def Header.unsigned (h : Header) : Header := { h with minerSig := "" }

def Transaction.unsigned (tx : Transaction) : Transaction := { tx with payerSig := "" }

/-- What signing rests on: the chain id of the node, the signature scheme with its private
    keys `K`, `proto.Marshal` of headers, transaction bodies and payloads, and
    `proto.Unmarshal` of payloads. -/
structure Network (K : Type) where
  chainID : Bytes
  publicKey : K → Address
  signB : K → Bytes → String
  verifyB : Address → Bytes → String → Bool
  marshalHeader : Header → Bytes
  marshalBody : Transaction → Bytes
  marshalPayload : Header → Header → String
  unmarshalPayload : String → Except String (Option Header × Option Header)

namespace Network

variable {K : Type} (N : Network K)

/-- `Block.Sign`, on the header of the block. -/
def sign (k : K) (h : Header) : Header :=
  { h with minerSig := N.signB k (N.marshalHeader h ++ N.chainID) }

/-- `ValidateHeaderSign`.  The header is copied by `Marshal` and `Unmarshal` before its
    signature is set to nil. -/
def validateHeaderSign (h : Header) : Option String :=
  let headerBytes := N.marshalHeader h.unsigned
  if N.verifyB h.minerPublicKey headerBytes h.minerSig = false then some "Sign is not valid"
  else none

/-- `SignTransaction`. -/
def signTransaction (k : K) (tx : Transaction) : String :=
  N.signB k (N.marshalBody tx.unsigned ++ N.chainID)

/-- `HasValidSign`. -/
def hasValidSign (tx : Transaction) : Option String :=
  if N.verifyB tx.senderId (N.marshalBody tx.unsigned ++ N.chainID) tx.payerSig = false then
    some "Failed validation"
  else none

/-- `NewPodf`, made at the time `timeStamp`. -/
def newPodf (h1 h2 : Header) (nonce : UInt64) (k : K) (timeStamp : Int64) : Transaction :=
  let tx : Transaction :=
    { type := .podf, senderId := N.publicKey k, recipientId := "", decibels := 0, timeStamp, nonce,
      payload := N.marshalPayload h1 h2, payerSig := "" }
  { tx with payerSig := N.signTransaction k tx }

/-- The functions that the wallets call, on this network. -/
def env (E : Env) : Env :=
  { E with
    hasValidSign := N.hasValidSign
    podfPayload := N.unmarshalPayload
    validateHeaderSign := N.validateHeaderSign }

/-- Signatures verify on exactly the bytes that were signed, a payload is read back as it was
    written, and the signature of a header is written behind its other fields, if there is
    one. -/
structure Correct : Prop where
  verify : ∀ k m m', N.verifyB (N.publicKey k) m (N.signB k m') = true ↔ m = m'
  payload : ∀ h1 h2, N.unmarshalPayload (N.marshalPayload h1 h2) = .ok (some h1, some h2)
  header : ∀ h, ∃ sig, N.marshalHeader h = N.marshalHeader h.unsigned ++ sig ∧
    (sig = [] ↔ h.minerSig = "")

/-! ## What an accepted report proves -/

/-- The two headers prove that one miner signed different headers of one height. -/
structure Forgery (h1 h2 : Header) : Prop where
  miner : h1.minerPublicKey = h2.minerPublicKey
  height : h1.height = h2.height
  content : h1.unsigned ≠ h2.unsigned
  sign : N.verifyB h1.minerPublicKey (N.marshalHeader h1.unsigned) h1.minerSig = true
  sign' : N.verifyB h1.minerPublicKey (N.marshalHeader h2.unsigned) h2.minerSig = true

variable {N} {E : Env} {bRound : Int64} {podf : Transaction} {wm wm' : WalletManager}
  {h h1 h2 : Header}

theorem validateHeaderSign_iff : N.validateHeaderSign h = none ↔
    N.verifyB h.minerPublicKey (N.marshalHeader h.unsigned) h.minerSig = true := by
  unfold validateHeaderSign
  cases hvalid : N.verifyB h.minerPublicKey (N.marshalHeader h.unsigned) h.minerSig <;>
    simp [hvalid]

/-- `ValidatePodf` accepts exactly the well formed reports that its other checks pass. -/
theorem returns_validatePodf : Returns (validatePodf E podf bRound) wm ↔
    PodfFormed E podf ∧ ∃ h, Reportable E bRound podf wm h := by
  have hspec := (validatePodf_spec E bRound podf wm).and (validatePodf_decides E bRound podf wm)
  constructor
  · rintro ⟨_, wm', hok⟩
    have h := hspec.ok hok
    exact ⟨h.2, h.1.2⟩
  · intro h
    cases hrun : validatePodf E podf bRound wm with
    | mk r wm' =>
      cases r with
      | ok u => exact ⟨u, wm', hrun⟩
      | error e => exact absurd h (hspec.error hrun).2

/-- **The headers of an accepted report prove a double forgery iff they name one miner.** -/
theorem forgery_iff (N : Network K) (E : Env) (podf : Transaction) (bRound : Int64)
    (wm : WalletManager) {h1 h2 : Header}
    (haccepted : Returns (validatePodf (N.env E) podf bRound) wm)
    (hpayload : N.unmarshalPayload podf.payload = .ok (some h1, some h2)) :
    N.Forgery h1 h2 ↔ h1.minerPublicKey = h2.minerPublicKey := by
  obtain ⟨⟨h1', h2', hpayload', hheight, hhash, hsign, hsign'⟩, -⟩ :=
    returns_validatePodf.1 haccepted
  obtain ⟨rfl, rfl⟩ : h1 = h1' ∧ h2 = h2' := by
    have := hpayload.symm.trans hpayload'
    simpa using this
  constructor
  · exact Forgery.miner
  · intro hminer
    refine ⟨hminer, hheight, fun h => hhash ?_, validateHeaderSign_iff.1 hsign, ?_⟩
    · have hfield : h1.unsigned.hash = h2.unsigned.hash := congrArg Header.hash h
      exact hfield
    · rw [hminer]
      exact validateHeaderSign_iff.1 hsign'

/-! ## Reports of double forgeries -/

/-- A registered candidate has signed two different blocks of one height, is not banned and
    has not been reported at that height; the reporter has the nonce and can pay the fee. -/
structure Punishable (N : Network K) (E : Env) (bRound : Int64) (wm : WalletManager) (k reporter : K)
    (nonce : UInt64) (timeStamp : Int64) (a b : Header) : Prop where
  height : a.height = b.height
  differ : a.hash ≠ b.hash
  miner : a.minerPublicKey = N.publicKey k
  miner' : b.minerPublicKey = N.publicKey k
  wallet : N.publicKey k ∈ wm.keys
  candidate : (wm.wallet (N.publicKey k)).isCandidate = true
  notBanned : (wm.wallet (N.publicKey k)).bannedTill < a.height
  notReported : a.height ∉ (wm.wallet (N.publicKey k)).podfHeights
  inOrder : nonce = (wm.wallet (N.publicKey reporter)).nonce + 1
  solvent : txFee (N.env E) (N.newPodf (N.sign k a) (N.sign k b) nonce reporter timeStamp) bRound ≤
    (wm.wallet (N.publicKey reporter)).balance

theorem reportedAt_of_notMem {x : Int64} : ∀ {heights : List Int64}, x ∉ heights →
    reportedAt x heights = false
  | [], _ => rfl
  | y :: heights, h => by
    have hne : ¬ y = x := fun hy => h (hy ▸ List.mem_cons_self)
    rw [reportedAt, if_neg hne, reportedAt_of_notMem fun hmem => h (List.mem_cons_of_mem y hmem),
      ite_self]

/-- What `sign` has signed is what `ValidateHeaderSign` checks. -/
theorem sign_valid_iff (hN : N.Correct) {k : K} {a : Header}
    (hminer : a.minerPublicKey = N.publicKey k) :
    N.validateHeaderSign (N.sign k a) = none ↔ N.chainID = [] ∧ a.minerSig = "" := by
  obtain ⟨sig, hmarshal, hsig⟩ := hN.header a
  have hkey : (N.sign k a).minerPublicKey = N.publicKey k := hminer
  have hbytes : N.marshalHeader (N.sign k a).unsigned = N.marshalHeader a.unsigned := rfl
  rw [validateHeaderSign_iff, hkey, hbytes]
  show N.verifyB _ _ (N.signB k (N.marshalHeader a ++ N.chainID)) = true ↔ _
  rw [hN.verify, hmarshal, List.append_assoc, ← hsig]
  constructor
  · intro h
    have hnil := List.append_eq_nil_iff.1 (List.self_eq_append_right.1 h)
    exact hnil.symm
  · rintro ⟨hchain, hsig⟩
    rw [hchain, hsig, List.append_nil, List.append_nil]

/-- The report of a header that `sign` has signed passes all checks but those of the headers. -/
theorem reportable_newPodf (hN : N.Correct) {k reporter : K} {nonce : UInt64} {timeStamp : Int64}
    {a h2 : Header} (hminer : a.minerPublicKey = N.publicKey k) (hwallet : N.publicKey k ∈ wm.keys)
    (hcandidate : (wm.wallet (N.publicKey k)).isCandidate = true)
    (hban : (wm.wallet (N.publicKey k)).bannedTill < a.height)
    (hreported : a.height ∉ (wm.wallet (N.publicKey k)).podfHeights)
    (hnonce : nonce = (wm.wallet (N.publicKey reporter)).nonce + 1)
    (hfee : txFee (N.env E) (N.newPodf (N.sign k a) h2 nonce reporter timeStamp) bRound ≤
      (wm.wallet (N.publicKey reporter)).balance) :
    Reportable (N.env E) bRound (N.newPodf (N.sign k a) h2 nonce reporter timeStamp) wm
      (N.sign k a) := by
  have hsign : N.hasValidSign (N.newPodf (N.sign k a) h2 nonce reporter timeStamp) = none := by
    have hvalid : N.verifyB (N.newPodf (N.sign k a) h2 nonce reporter timeStamp).senderId
        (N.marshalBody (N.newPodf (N.sign k a) h2 nonce reporter timeStamp).unsigned ++ N.chainID)
        (N.newPodf (N.sign k a) h2 nonce reporter timeStamp).payerSig = true :=
      (hN.verify reporter _ _).2 rfl
    rw [hasValidSign, hvalid]
    rfl
  have hpayload : (N.env E).podfPayload (N.newPodf (N.sign k a) h2 nonce reporter timeStamp).payload =
      .ok (some (N.sign k a), some h2) := hN.payload _ _
  have hkey : (N.sign k a).minerPublicKey = N.publicKey k := hminer
  refine ⟨hsign, by rw [reportedHeader, hpayload], ?_, ?_, hnonce, hfee, ?_, ?_⟩ <;> rw [hkey]
  · exact hwallet
  · exact hcandidate
  · exact hban
  · exact reportedAt_of_notMem fun hmem => hreported (List.mem_reverse.1 hmem)

/-- **The report of a double forgery is accepted iff the chain id is empty**, the two blocks
    having been signed before they carried a signature. -/
theorem podf_accepted_iff {N : Network K} (hN : N.Correct) {E : Env} {bRound : Int64}
    {wm : WalletManager} {k reporter : K} {nonce : UInt64} {timeStamp : Int64} {a b : Header}
    (h : Punishable N E bRound wm k reporter nonce timeStamp a b) :
    Returns (validatePodf (N.env E)
        (N.newPodf (N.sign k a) (N.sign k b) nonce reporter timeStamp) bRound) wm ↔
      N.chainID = [] ∧ a.minerSig = "" ∧ b.minerSig = "" := by
  have hpayload : (N.env E).podfPayload
      (N.newPodf (N.sign k a) (N.sign k b) nonce reporter timeStamp).payload =
        .ok (some (N.sign k a), some (N.sign k b)) := hN.payload _ _
  have hreportable := reportable_newPodf hN h.miner h.wallet h.candidate
    h.notBanned h.notReported h.inOrder h.solvent
  rw [returns_validatePodf]
  constructor
  · rintro ⟨⟨h1, h2, hpayload', -, -, hs1, hs2⟩, -⟩
    obtain ⟨rfl, rfl⟩ : N.sign k a = h1 ∧ N.sign k b = h2 := by
      have := hpayload.symm.trans hpayload'
      simpa using this
    obtain ⟨hchain, ha⟩ := (sign_valid_iff hN h.miner).1 hs1
    exact ⟨hchain, ha, ((sign_valid_iff hN h.miner').1 hs2).2⟩
  · rintro ⟨hchain, ha, hb⟩
    exact ⟨⟨_, _, hpayload, h.height, h.differ, (sign_valid_iff hN h.miner).2 ⟨hchain, ha⟩,
      (sign_valid_iff hN h.miner').2 ⟨hchain, hb⟩⟩, _, hreportable⟩

/-! ## A network -/

/-- The characters whose code points are the bytes. -/
def ofBytes (bytes : Bytes) : String := String.ofList (bytes.map fun b => Char.ofNat b.toNat)

theorem ofBytes_injective : Function.Injective ofBytes := by
  intro m m' h
  have hchar : Function.Injective fun b : UInt8 => Char.ofNat b.toNat := by
    intro b c hbc
    have hvalid : ∀ b : UInt8, (Char.ofNat b.toNat).toNat = b.toNat := fun b => by
      have hlt := b.toNat_lt
      have hchar : b.toNat.isValidChar := .inl (by omega)
      rw [Char.ofNat, dif_pos hchar]
      rfl
    have hnat := congrArg Char.toNat hbc
    rw [hvalid, hvalid] at hnat
    exact UInt8.toNat_inj.1 hnat
  exact List.map_injective_iff.2 hchar (String.ofList_injective h)

/-- The header as the message that is encoded. -/
def toProto (h : Header) : Protobuf.BlockHeader where
  height := h.height
  timestamp := h.timestamp
  parentHash := Wire.utf8 h.parentHash
  minerPublicKey := Wire.utf8 h.minerPublicKey
  roundNum := h.roundNum
  hash := Wire.utf8 h.hash
  chainId := h.chainId
  minerSig := Wire.utf8 h.minerSig

theorem toProto_injective : Function.Injective toProto := by
  intro h h' heq
  cases h
  cases h'
  simpa [toProto, Wire.utf8_injective.eq_iff] using heq

/-- `pb.PodfPayload`. -/
structure PodfPayload where
  header1 : Option Protobuf.BlockHeader
  header2 : Option Protobuf.BlockHeader

instance : Wire.Message PodfPayload :=
  Protobuf.messageOf (fun m => [(1, Wire.message m.header1), (2, Wire.message m.header2)])
    [1, 2] Protobuf.nodup_two (fun _ => rfl) fun m m' h => by cases m; cases m'; simpa using h

def payloadBytes (h1 h2 : Header) : String :=
  ofBytes (Wire.marshal (PodfPayload.mk (some (toProto h1)) (some (toProto h2))))

theorem payloadBytes_inj {h1 h2 h1' h2' : Header} (h : payloadBytes h1 h2 = payloadBytes h1' h2') :
    h1 = h1' ∧ h2 = h2' := by
  have h := Wire.marshal_injective (ofBytes_injective h)
  simpa [toProto_injective.eq_iff] using h

/-- A header is encoded behind its other fields. -/
theorem marshal_toProto (h : Header) : ∃ sig, Wire.marshal (toProto h) =
    Wire.marshal (toProto h.unsigned) ++ sig ∧ (sig = [] ↔ h.minerSig = "") := by
  have hsplit : ∀ h : Header, Wire.marshal (toProto h) = Wire.encode
      [(1, Wire.int64 h.height), (2, Wire.int64 h.timestamp), (3, Wire.bytes (Wire.utf8 h.parentHash)),
        (4, Wire.bytes (Wire.utf8 h.minerPublicKey)), (5, Wire.int64 h.roundNum),
        (6, Wire.bytes (Wire.utf8 h.hash)), (7, Wire.string h.chainId)] ++
      Wire.encode [(8, Wire.bytes (Wire.utf8 h.minerSig))] := fun h => by
    rw [← Wire.encode_append]
    rfl
  have hnosig : Wire.encode [(8, Wire.bytes (Wire.utf8 ""))] = [] := rfl
  refine ⟨Wire.encode [(8, Wire.bytes (Wire.utf8 h.minerSig))], ?_, ?_⟩
  · have hunsigned := hsplit h.unsigned
    rw [show h.unsigned.minerSig = "" from rfl, hnosig, List.append_nil] at hunsigned
    rw [hsplit, hunsigned]
    rfl
  · rw [← hnosig, Wire.encode_eq_iff]
    constructor
    · intro hrecords
      have hnodup : (([(8, Wire.bytes (Wire.utf8 h.minerSig))] : List Wire.Field).map
          Prod.fst).Nodup := List.nodup_singleton 8
      have hnums : ([(8, Wire.bytes (Wire.utf8 h.minerSig))] : List Wire.Field).map Prod.fst =
          ([(8, Wire.bytes (Wire.utf8 ""))] : List Wire.Field).map Prod.fst := rfl
      have hfield := Wire.records_inj hnums hnodup hrecords
      exact Wire.utf8_injective (Wire.bytes_inj.1 (Prod.mk.inj (List.cons.inj hfield).1).2)
    · intro hsig
      rw [hsig]

open Classical in
/-- The headers of a payload. -/
noncomputable def readPayload (payload : String) : Except String (Option Header × Option Header) :=
  if h : ∃ hs : Header × Header, payloadBytes hs.1 hs.2 = payload then
    .ok (some h.choose.1, some h.choose.2)
  else .error "proto: cannot parse invalid wire-format data"

theorem readPayload_payloadBytes (h1 h2 : Header) :
    readPayload (payloadBytes h1 h2) = .ok (some h1, some h2) := by
  have hex : ∃ hs : Header × Header, payloadBytes hs.1 hs.2 = payloadBytes h1 h2 := ⟨(h1, h2), rfl⟩
  obtain ⟨h1', h2'⟩ := payloadBytes_inj hex.choose_spec
  rw [readPayload, dif_pos hex, h1', h2']

/-- A network on which a signature is the key with the bytes that were signed. -/
noncomputable def wireNetwork (chainID : String) : Network Address where
  chainID := Wire.utf8 chainID
  publicKey k := k
  signB k m := k ++ ofBytes m
  verifyB a m sig := sig = a ++ ofBytes m
  marshalHeader h := Wire.marshal (toProto h)
  marshalBody tx := Wire.marshal (Protobuf.Body.mk tx.senderId tx.recipientId tx.decibels
    tx.timeStamp tx.nonce (Wire.utf8 tx.payload))
  marshalPayload := payloadBytes
  unmarshalPayload := readPayload

theorem wireNetwork_correct (chainID : String) : (wireNetwork chainID).Correct where
  verify k m m' := by
    show decide (k ++ ofBytes m' = k ++ ofBytes m) = true ↔ m = m'
    rw [decide_eq_true_iff, String.append_right_inj, ofBytes_injective.eq_iff, eq_comm]
  payload := readPayload_payloadBytes
  header := marshal_toProto

/-- The wallets after a genesis block of the candidate `"m"`. -/
def candidateWallets : WalletManager := afterBlock { PbBlock.simple [] [] [] with height := 0 }

theorem candidateWallets_m : "m" ∈ candidateWallets.keys ∧
    (candidateWallets.wallet "m").isCandidate = true ∧
    (candidateWallets.wallet "m").bannedTill = -1 ∧
    (candidateWallets.wallet "m").podfHeights = [] := by
  decide

theorem candidateWallets_reporter : (candidateWallets.wallet "r").nonce = 0 ∧
    (candidateWallets.wallet "r").balance = baseBalance := by
  decide

/-- The candidate `"m"` signs two blocks of height 1, and `"r"` reports it. -/
theorem punishable_m (chainID : String) : Punishable (wireNetwork chainID) Env.simple 2
    candidateWallets "m" "r" 1 0 (.simple 1 "x" "m") (.simple 1 "y" "m") where
  height := rfl
  differ := by decide
  miner := rfl
  miner' := rfl
  wallet := candidateWallets_m.1
  candidate := candidateWallets_m.2.1
  notBanned := by
    show (candidateWallets.wallet "m").bannedTill < 1
    rw [candidateWallets_m.2.2.1]
    decide
  notReported := by
    show (1 : Int64) ∉ (candidateWallets.wallet "m").podfHeights
    rw [candidateWallets_m.2.2.2]
    exact List.not_mem_nil
  inOrder := by
    show 1 = (candidateWallets.wallet "r").nonce + 1
    rw [candidateWallets_reporter.1]
    rfl
  solvent := by
    show (1 : Int64) ≤ (candidateWallets.wallet "r").balance
    rw [candidateWallets_reporter.2]
    decide

theorem podf_accepted_iff_m :
    Returns (validatePodf ((wireNetwork "1").env Env.simple)
        ((wireNetwork "1").newPodf ((wireNetwork "1").sign "m" (.simple 1 "x" "m"))
          ((wireNetwork "1").sign "m" (.simple 1 "y" "m")) 1 "r" 0) 2) candidateWallets ↔
      (wireNetwork "1").chainID = [] ∧ (Header.simple 1 "x" "m").minerSig = "" ∧
        (Header.simple 1 "y" "m").minerSig = "" :=
  podf_accepted_iff (wireNetwork_correct "1") (punishable_m "1")

/-- With the chain id `"1"` no double forgery can be reported. -/
theorem not_podf_accepted : (wireNetwork "1").Correct ∧
    Punishable (wireNetwork "1") Env.simple 2 candidateWallets "m" "r" 1 0 (.simple 1 "x" "m")
      (.simple 1 "y" "m") ∧
    ¬ Returns (validatePodf ((wireNetwork "1").env Env.simple)
        ((wireNetwork "1").newPodf ((wireNetwork "1").sign "m" (.simple 1 "x" "m"))
          ((wireNetwork "1").sign "m" (.simple 1 "y" "m")) 1 "r" 0) 2) candidateWallets := by
  refine ⟨wireNetwork_correct "1", punishable_m "1", fun haccepted => ?_⟩
  obtain ⟨⟨h1, h2, hpayload, -, -, hsign, -⟩, -⟩ := returns_validatePodf.1 haccepted
  have hread := readPayload_payloadBytes ((wireNetwork "1").sign "m" (.simple 1 "x" "m"))
    ((wireNetwork "1").sign "m" (.simple 1 "y" "m"))
  obtain rfl : (wireNetwork "1").sign "m" (.simple 1 "x" "m") = h1 :=
    Option.some.inj (Prod.mk.inj (Except.ok.inj (hread.symm.trans hpayload))).1
  have hchain : Wire.utf8 "1" = Wire.utf8 "" := ((sign_valid_iff (wireNetwork_correct "1") rfl).1 hsign).1
  exact absurd (Wire.utf8_injective hchain) (by decide)

/-- The report of a block of `"m"` together with a block of `"e"`, each signed by its miner. -/
noncomputable def framing : Transaction :=
  (wireNetwork "").newPodf ((wireNetwork "").sign "m" (.simple 1 "x" "m"))
    ((wireNetwork "").sign "e" (.simple 1 "y" "e")) 1 "r" 0

theorem framing_payload : (wireNetwork "").unmarshalPayload framing.payload =
    .ok (some ((wireNetwork "").sign "m" (.simple 1 "x" "m")),
      some ((wireNetwork "").sign "e" (.simple 1 "y" "e"))) :=
  readPayload_payloadBytes _ _

theorem framing_accepted :
    Returns (validatePodf ((wireNetwork "").env Env.simple) framing 2) candidateWallets := by
  have hN := wireNetwork_correct ""
  have hm := punishable_m ""
  refine returns_validatePodf.2 ⟨⟨_, _, framing_payload, rfl, by decide, ?_, ?_⟩, _,
    reportable_newPodf hN hm.miner hm.wallet hm.candidate hm.notBanned hm.notReported hm.inOrder ?_⟩
  · exact (sign_valid_iff hN (k := "m") (a := .simple 1 "x" "m") rfl).2 ⟨rfl, rfl⟩
  · exact (sign_valid_iff hN (k := "e") (a := .simple 1 "y" "e") rfl).2 ⟨rfl, rfl⟩
  · exact hm.solvent

theorem forgery_iff_framing :
    (wireNetwork "").Forgery ((wireNetwork "").sign "m" (.simple 1 "x" "m"))
        ((wireNetwork "").sign "e" (.simple 1 "y" "e")) ↔
      (Header.simple 1 "x" "m").minerPublicKey = (Header.simple 1 "y" "e").minerPublicKey :=
  forgery_iff (wireNetwork "") Env.simple framing 2 candidateWallets framing_accepted framing_payload

/-- `"m"` is reported for a block that it has not signed. -/
theorem not_forgery : Returns (validatePodf ((wireNetwork "").env Env.simple) framing 2)
      candidateWallets ∧
    ¬ ∃ h1 h2, (wireNetwork "").unmarshalPayload framing.payload = .ok (some h1, some h2) ∧
      (wireNetwork "").Forgery h1 h2 := by
  refine ⟨framing_accepted, ?_⟩
  rintro ⟨h1, h2, hpayload, hforgery⟩
  have hpair := Prod.mk.inj (Except.ok.inj (framing_payload.symm.trans hpayload))
  obtain rfl := Option.some.inj hpair.1
  obtain rfl := Option.some.inj hpair.2
  have hminer : "m" = "e" := hforgery.miner
  exact absurd hminer (by decide)

end Network

end Timbre
