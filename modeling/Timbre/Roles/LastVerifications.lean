/-
  The verification times of expired deals in the database of the node.

  A list of times is stored as the times with eight bytes each and the text `timbre` between them.
  **A list that is added is read back exactly if the deal has no entry yet, the list is not empty
  and no time contains the text** (`lastChVerifications_iff`); an entry that is there stays.  On such
  lists **the bucket is a map that does not overwrite, over all runs** (`TimesOp.runAll_spec`), as the
  wallets take it to be.
-/
import Timbre.Core.Types
import Timbre.Lib.LittleEndian
import Timbre.Lib.Separator
import Timbre.Lib.Store
import Timbre.Storage.Database

namespace Timbre

open Storage (Bytes Database)

/-! ## Times in bytes -/

/-- `PutUint64`. -/
def putUint64 (v : UInt64) : Bytes := LittleEndian.bytes 8 v.toNat

/-- `Uint64`: panics if there are less than eight bytes, and reads the first eight. -/
def uint64 (b : Bytes) : Except Err UInt64 :=
  if b.length < 8 then .error (.panic "runtime error: index out of range")
  else .ok (UInt64.ofNat (LittleEndian.value (b.take 8)))

/-- The bytes of a time. -/
def timeBytes (lstVrf : Int64) : Bytes := putUint64 lstVrf.toUInt64

/-- `timbre`. -/
def timbre : Bytes := [116, 105, 109, 98, 114, 101]

def lastChVerificationTimeBucket (blockchainName : String) : String :=
  blockchainName ++ "-" ++ "LastChVerificationTime-bucket"

/-- The bytes of a list of times. -/
def join (lastVrf : List Int64) : Bytes := timbre.intercalate (lastVrf.map timeBytes)

section
variable (refuses : Bytes → Bytes → Option String) (blockchainName : String)

/-- `AddLastChVerificationsToDb`; an error of the database is lost. -/
def addLastChVerificationsToDb (lastVrf : List Int64) (dealHash : Bytes) : Call Database Err Unit := fun db =>
  (.ok (), (Database.put refuses (lastChVerificationTimeBucket blockchainName) dealHash (join lastVrf) db).2)

/-- `GetLastChVerificationsFromDb`. -/
def getLastChVerificationsFromDb (dealHash : Bytes) : Call Database Err (List Int64) := fun db =>
  match Database.get (lastChVerificationTimeBucket blockchainName) dealHash db with
  | (.error _, db) => (.ok [], db)
  | (.ok dataBytes, db) =>
    ((Separator.split timbre dataBytes).mapM fun lstVrf => (uint64 lstVrf).map UInt64.toInt64, db)

/-- `DeleteLastChVerificationsFromDb`. -/
def deleteLastChVerificationsFromDb (dealHash : Bytes) : Call Database Err Unit := fun db =>
  (.ok (), (Database.delete (lastChVerificationTimeBucket blockchainName) dealHash db).2)

/-- Adds a list, and reads it. -/
def addAndGet (lastVrf : List Int64) (dealHash : Bytes) : Call Database Err (List Int64) := do
  addLastChVerificationsToDb refuses blockchainName lastVrf dealHash
  getLastChVerificationsFromDb blockchainName dealHash

end

variable {b : Bytes} {v : UInt64} {t : Int64}

theorem uint64_eq_ok_iff : uint64 b = .ok v ↔ putUint64 v <+: b := by
  unfold uint64
  constructor
  · intro h
    split_ifs at h with hlt
    have htake : (b.take 8).length = 8 := by
      rw [List.length_take]
      omega
    have hlast := LittleEndian.value_lt (b.take 8)
    have hbytes := LittleEndian.bytes_value (b.take 8)
    rw [htake] at hlast hbytes
    have hvalue : (UInt64.ofNat (LittleEndian.value (b.take 8))).toNat = LittleEndian.value (b.take 8) := by
      rw [UInt64.toNat_ofNat']
      exact Nat.mod_eq_of_lt hlast
    rw [← Except.ok.inj h, putUint64, hvalue, hbytes]
    exact List.take_prefix 8 b
  · rintro ⟨rest, rfl⟩
    have hlength : (putUint64 v).length = 8 := LittleEndian.length_bytes 8 _
    have htake : (putUint64 v ++ rest).take 8 = putUint64 v := by rw [← hlength, List.take_left]
    have hlt : v.toNat < 256 ^ 8 := v.toNat_lt
    rw [if_neg, htake, putUint64, LittleEndian.value_bytes, Nat.mod_eq_of_lt hlt, UInt64.ofNat_toNat]
    rw [List.length_append, hlength]
    omega

theorem time_eq_ok_iff : (uint64 b).map UInt64.toInt64 = .ok t ↔ timeBytes t <+: b := by
  rw [timeBytes, ← uint64_eq_ok_iff]
  constructor
  · intro h
    obtain ⟨v, hv, rfl⟩ := except_map_ok h
    rw [hv, UInt64.toUInt64_toInt64]
  · intro h
    rw [h]
    exact congrArg Except.ok (Int64.toInt64_toUInt64 t)

theorem mapM_eq_ok_iff {α β : Type} {f : α → Except Err β} : ∀ {xs : List α} {ys : List β},
    xs.mapM f = .ok ys ↔ List.Forall₂ (fun y x => f x = .ok y) ys xs
  | [], ys => by
    rw [List.mapM_nil, List.forall₂_nil_right_iff]
    exact ⟨fun h => (Except.ok.inj h).symm, fun h => congrArg Except.ok h.symm⟩
  | x :: xs, ys => by
    rw [List.mapM_cons, List.forall₂_cons_right_iff]
    constructor
    · intro h
      obtain ⟨y, hy, h⟩ := except_bind_ok h
      obtain ⟨zs, hzs, h⟩ := except_bind_ok h
      exact ⟨y, zs, hy, mapM_eq_ok_iff.1 hzs, (Except.ok.inj h).symm⟩
    · rintro ⟨y, zs, hy, hzs, rfl⟩
      rw [hy, mapM_eq_ok_iff.2 hzs]
      rfl

/-! ## What is read back -/

/-- The bytes of the time contain the text between two times. -/
def Spells (t : Int64) : Prop := timbre <:+: timeBytes t

instance : DecidablePred Spells := fun t => inferInstanceAs (Decidable (timbre <:+: timeBytes t))

/-- The text is a number in six of the eight bytes. -/
theorem spells_iff : Spells t ↔ ∃ k ≤ 2, t.toUInt64.toNat / 256 ^ k % 256 ^ 6 = 111541952014708 := by
  have hvalue : LittleEndian.value timbre = 111541952014708 := by decide
  unfold Spells timeBytes putUint64
  rw [LittleEndian.infix_bytes_iff, hvalue]
  constructor
  · rintro ⟨k, hk, h⟩
    exact ⟨k, Nat.le_of_add_le_add_right hk, h⟩
  · rintro ⟨k, hk, h⟩
    exact ⟨k, Nat.add_le_add_right hk 6, h⟩

/-- A time before the number that the text stands for does not contain it. -/
theorem not_spells_of_lt (h : t.toUInt64.toNat < 111541952014708) : ¬ Spells t := by
  rw [spells_iff]
  rintro ⟨k, -, hk⟩
  have hmod := Nat.mod_le (t.toUInt64.toNat / 256 ^ k) (256 ^ 6)
  have hdiv := Nat.div_le_self t.toUInt64.toNat (256 ^ k)
  omega

/-- A list that is split where it has been joined. -/
def Plain (lastVrf : List Int64) : Prop := lastVrf ≠ [] ∧ ∀ t ∈ lastVrf, ¬ Spells t

instance : DecidablePred Plain := fun lastVrf =>
  inferInstanceAs (Decidable (lastVrf ≠ [] ∧ ∀ t ∈ lastVrf, ¬ Spells t))

variable {refuses : Bytes → Bytes → Option String} {blockchainName : String} {db : Database}
  {dealHash dataBytes : Bytes} {lastVrf times : List Int64}

/-- What is read begins the pieces that are stored. -/
theorem get_eq_ok_iff (h : db.entry (lastChVerificationTimeBucket blockchainName) dealHash = some dataBytes) :
    (getLastChVerificationsFromDb blockchainName dealHash db).1 = .ok lastVrf ↔
      List.Forall₂ (· <+: ·) (lastVrf.map timeBytes) (Separator.split timbre dataBytes) := by
  unfold getLastChVerificationsFromDb
  rw [Database.get_ok h]
  dsimp only
  rw [mapM_eq_ok_iff, List.forall₂_map_left_iff]
  simp only [time_eq_ok_iff]

theorem get_of_none (h : db.entry (lastChVerificationTimeBucket blockchainName) dealHash = none) :
    getLastChVerificationsFromDb blockchainName dealHash db = (.ok [], db) := by
  obtain ⟨e, hget⟩ := Database.get_error h
  unfold getLastChVerificationsFromDb
  rw [hget]

theorem timbre_unbordered : Separator.Unbordered timbre := by decide

theorem clean_iff_plain : Separator.Clean timbre (lastVrf.map timeBytes) ↔ Plain lastVrf := by
  rw [Separator.clean_iff_of_unbordered timbre_unbordered (List.cons_ne_nil _ _), ne_eq, List.map_eq_nil_iff,
    List.forall_mem_map]
  rfl

/-- The times are those that are read from what is stored of them if the list is plain. -/
theorem starts_join_iff : List.Forall₂ (· <+: ·) (lastVrf.map timeBytes)
    (Separator.split timbre (join lastVrf)) ↔ Plain lastVrf :=
  (Separator.starts_split_iff (List.cons_ne_nil _ _) _).trans clean_iff_plain

theorem split_join (hplain : Plain times) : Separator.split timbre (join times) = times.map timeBytes :=
  (Separator.split_join_iff (List.cons_ne_nil _ _) _).2 (clean_iff_plain.2 hplain)

theorem timeBytes_prefix_iff {t t' : Int64} : timeBytes t <+: timeBytes t' ↔ t = t' := by
  constructor
  · intro h
    have ht := time_eq_ok_iff.2 h
    rw [time_eq_ok_iff.2 (List.prefix_refl (timeBytes t'))] at ht
    exact (Except.ok.inj ht).symm
  · rintro rfl
    exact List.prefix_refl _

theorem starts_iff : List.Forall₂ (· <+: ·) (lastVrf.map timeBytes) (times.map timeBytes) ↔
    lastVrf = times := by
  rw [List.forall₂_map_left_iff, List.forall₂_map_right_iff]
  simp only [timeBytes_prefix_iff, List.forall₂_eq_eq_eq]

/-- The list is what is read back after it has been added, with the database `db` before. -/
def ReadsBack (refuses : Bytes → Bytes → Option String) (blockchainName : String) (db : Database)
    (lastVrf : List Int64) (dealHash : Bytes) : Prop :=
  match db.entry (lastChVerificationTimeBucket blockchainName) dealHash with
  | some dataBytes => List.Forall₂ (· <+: ·) (lastVrf.map timeBytes) (Separator.split timbre dataBytes)
  | none =>
    if db.Accepts refuses (lastChVerificationTimeBucket blockchainName) dealHash (join lastVrf) then
      Plain lastVrf
    else lastVrf = []

/-- Where a plain list is stored, only that list is read back. -/
theorem readsBack_of_stored (hplain : Plain times)
    (h : db.entry (lastChVerificationTimeBucket blockchainName) dealHash = some (join times)) :
    ReadsBack refuses blockchainName db lastVrf dealHash ↔ lastVrf = times := by
  unfold ReadsBack
  rw [h]
  dsimp only
  rw [split_join hplain, starts_iff]

/-- **Verification times that are added to the database are what is read back**, and reading them
    does not panic, exactly if the deal has no entry, the bucket takes the pair, the list is
    not empty and none of its times contains the text between them; or the list is what the entry
    of the deal already says; or it is empty and nothing is stored. -/
theorem lastChVerifications_iff (refuses : Bytes → Bytes → Option String) (blockchainName : String)
    (db : Database) (lastVrf : List Int64) (dealHash : Bytes) :
    (addAndGet refuses blockchainName lastVrf dealHash db).1 = .ok lastVrf ↔
      ReadsBack refuses blockchainName db lastVrf dealHash := by
  set bucketName := lastChVerificationTimeBucket blockchainName with hbucket
  set db' := (Database.put refuses bucketName dealHash (join lastVrf) db).2 with hdb
  have hentry : db'.entry bucketName dealHash = _ := Database.entry_put_self
  show (getLastChVerificationsFromDb blockchainName dealHash db').1 = .ok lastVrf ↔ _
  unfold ReadsBack
  rw [← hbucket]
  cases hold : db.entry bucketName dealHash with
  | some dataBytes =>
    rw [hold, Option.some_or] at hentry
    exact get_eq_ok_iff hentry
  | none =>
    rw [hold, Option.none_or] at hentry
    dsimp only
    split_ifs at hentry ⊢ with haccepts
    · rw [get_eq_ok_iff hentry, starts_join_iff]
    · rw [get_of_none hentry]
      exact ⟨fun h => (Except.ok.inj h).symm, fun h => congrArg Except.ok h.symm⟩

/-- A database with an empty bucket for the times. -/
def freshDatabase : Database where
  buckets name := if name = lastChVerificationTimeBucket "main" then some fun _ => none else none

/-- Refuses a blank key. -/
def refusesBlank (key _value : Bytes) : Option String := if key = [] then some "key required" else none

/-- The empty list and a time that contains the text are not read back, nor is a list that is added
    to a deal which has one. -/
theorem not_lastChVerifications :
    (addAndGet refusesBlank "main" [] [7] freshDatabase).1 =
      .error (.panic "runtime error: index out of range") ∧
    (addAndGet refusesBlank "main" [111541952014708] [7] freshDatabase).1 =
      .error (.panic "runtime error: index out of range") ∧
    (addAndGet refusesBlank "main" [50] [7] (addAndGet refusesBlank "main" [50, 60] [7] freshDatabase).2).1 =
      .ok [50, 60] := by
  refine ⟨?_, ?_, ?_⟩ <;> decide

/-! ## Runs -/

/-- A request for the times of a deal. -/
inductive TimesOp
  | add (lastVrf : List Int64) (dealHash : Bytes)
  | get (dealHash : Bytes)
  | delete (dealHash : Bytes)

namespace TimesOp

def run (refuses : Bytes → Bytes → Option String) (blockchainName : String) :
    TimesOp → Call Database Err (Option (List Int64))
  | add lastVrf dealHash => do
    addLastChVerificationsToDb refuses blockchainName lastVrf dealHash
    return none
  | get dealHash => do return some (← getLastChVerificationsFromDb blockchainName dealHash)
  | delete dealHash => do
    deleteLastChVerificationsFromDb blockchainName dealHash
    return none

/-- The request to a map that does not overwrite. -/
def refer : TimesOp → Store Bytes ([] : List Int64) → Option (List Int64) × Store Bytes ([] : List Int64)
  | add lastVrf dealHash, m => (none, m.setNew dealHash lastVrf)
  | get dealHash, m => (some (m.get dealHash), m)
  | delete dealHash, m => (none, m.erase dealHash)

def runAll (refuses : Bytes → Bytes → Option String) (blockchainName : String) :
    List TimesOp → Call Database Err (List (Option (List Int64)))
  | [] => pure []
  | op :: ops => do
    let a ← op.run refuses blockchainName
    return a :: (← runAll refuses blockchainName ops)

def referAll : List TimesOp → Store Bytes ([] : List Int64) →
    List (Option (List Int64)) × Store Bytes ([] : List Int64)
  | [], m => ([], m)
  | op :: ops, m =>
    let (a, m) := op.refer m
    let (as, m) := referAll ops m
    (a :: as, m)

/-- The bucket takes the times, and they can be told apart in it. -/
def Safe (refuses : Bytes → Bytes → Option String) : TimesOp → Prop
  | add lastVrf dealHash => Plain lastVrf ∧ refuses dealHash (join lastVrf) = none
  | _ => True

end TimesOp

/-- The bucket holds the lists of the map, and nothing else. -/
structure Holds (blockchainName : String) (db : Database) (m : Store Bytes ([] : List Int64)) : Prop where
  bucket : (db.buckets (lastChVerificationTimeBucket blockchainName)).isSome
  plain : ∀ h ∈ m.keys, Plain (m.get h)
  entry : ∀ h, db.entry (lastChVerificationTimeBucket blockchainName) h =
    if h ∈ m.keys then some (join (m.get h)) else none

variable {m : Store Bytes ([] : List Int64)}

theorem holds_fresh : Holds "main" freshDatabase Store.empty where
  bucket := by decide
  plain h hh := absurd hh (Finset.notMem_empty h)
  entry _ := rfl

/-- Adding a list that can be told apart. -/
theorem Holds.add (h : Holds blockchainName db m) (hplain : Plain lastVrf)
    (haccepts : refuses dealHash (join lastVrf) = none) :
    ∃ db', addLastChVerificationsToDb refuses blockchainName lastVrf dealHash db = (.ok (), db') ∧
      Holds blockchainName db' (m.setNew dealHash lastVrf) := by
  refine ⟨_, rfl, ?_⟩
  by_cases hmem : dealHash ∈ m.keys
  · rw [Store.setNew, if_pos hmem]
    refine ⟨Database.isSome_buckets_put.trans h.bucket, h.plain, fun k => ?_⟩
    have hold := h.entry dealHash
    rw [if_pos hmem] at hold
    rw [Database.entry_put, hold, Option.some_or, ← h.entry k]
    split_ifs with hk
    · rw [hk.2, hold]
    · rfl
  · rw [Store.setNew, if_neg hmem]
    refine ⟨Database.isSome_buckets_put.trans h.bucket, fun k hk => ?_, fun k => ?_⟩
    · rw [Store.get_set, Function.update_apply]
      split_ifs with hne
      · exact hplain
      · exact h.plain k (Finset.mem_of_mem_insert_of_ne hk hne)
    · have hold := h.entry dealHash
      rw [if_neg hmem] at hold
      by_cases hk : k = dealHash
      · subst hk
        rw [Database.entry_put_self, hold, Option.none_or, if_pos ⟨h.bucket, haccepts⟩]
        simp
      · rw [Database.entry_put, if_neg fun hh => hk hh.2, h.entry k]
        simp [hk]

theorem get_snd : (getLastChVerificationsFromDb blockchainName dealHash db).2 = db := by
  cases hentry : db.entry (lastChVerificationTimeBucket blockchainName) dealHash with
  | none => rw [get_of_none hentry]
  | some dataBytes =>
    unfold getLastChVerificationsFromDb
    rw [Database.get_ok hentry]

theorem Holds.get (h : Holds blockchainName db m) (dealHash : Bytes) :
    getLastChVerificationsFromDb blockchainName dealHash db = (.ok (m.get dealHash), db) := by
  have hentry := h.entry dealHash
  split_ifs at hentry with hmem
  · refine Prod.ext ((get_eq_ok_iff hentry).2 ?_) get_snd
    exact starts_join_iff.2 (h.plain dealHash hmem)
  · rw [get_of_none hentry, m.get_absent dealHash hmem]

theorem Holds.delete (h : Holds blockchainName db m) (dealHash : Bytes) :
    ∃ db', deleteLastChVerificationsFromDb blockchainName dealHash db = (.ok (), db') ∧
      Holds blockchainName db' (m.erase dealHash) := by
  refine ⟨_, rfl, Database.isSome_buckets_delete.trans h.bucket, fun k hk => ?_, fun k => ?_⟩
  · obtain ⟨hne, hk⟩ := Finset.mem_erase.1 hk
    rw [Store.get_erase, Function.update_of_ne hne]
    exact h.plain k hk
  · rw [Database.entry_delete, h.entry k]
    by_cases hk : k = dealHash
    · simp [hk]
    · simp [hk]

namespace TimesOp

theorem run_spec (h : Holds blockchainName db m) : ∀ {op : TimesOp}, op.Safe refuses →
    ∃ db', op.run refuses blockchainName db = (.ok (op.refer m).1, db') ∧
      Holds blockchainName db' (op.refer m).2
  | add lastVrf dealHash, hsafe => by
    obtain ⟨db', hcall, hdb'⟩ := h.add hsafe.1 hsafe.2
    exact ⟨db', Call.bind_of_ok hcall, hdb'⟩
  | get dealHash, _ => ⟨db, Call.bind_of_ok (h.get dealHash), h⟩
  | delete dealHash, _ => by
    obtain ⟨db', hcall, hdb'⟩ := h.delete dealHash
    exact ⟨db', Call.bind_of_ok hcall, hdb'⟩

/-- **A run of requests answers as a map of lists that does not overwrite.** -/
theorem runAll_spec : ∀ (ops : List TimesOp) {db : Database} {m : Store Bytes ([] : List Int64)},
    Holds blockchainName db m → (∀ op ∈ ops, op.Safe refuses) →
      ∃ db', runAll refuses blockchainName ops db = (.ok (referAll ops m).1, db') ∧
        Holds blockchainName db' (referAll ops m).2
  | [], db, _, h, _ => ⟨db, rfl, h⟩
  | op :: ops, db, m, h, hsafe => by
    obtain ⟨db₁, hop, hdb₁⟩ := run_spec h (hsafe op List.mem_cons_self)
    obtain ⟨db', hops, hdb'⟩ := runAll_spec ops hdb₁ fun op hop => hsafe op (List.mem_cons_of_mem _ hop)
    refine ⟨db', ?_, hdb'⟩
    rw [runAll, Call.bind_of_ok hop, Call.bind_of_ok hops]
    rfl

end TimesOp
end Timbre
