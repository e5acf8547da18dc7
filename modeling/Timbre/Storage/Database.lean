/-
  The wrapper of the key-value database.

  `Put` never overwrites: **a value stays until its key is deleted** (`entry_put`).  `BatchPut`
  puts its pairs one after the other in one transaction: **they are all put, or none is**
  (`batchPut_spec`).
-/
import Mathlib.Data.List.Nodup
import Timbre.Lib.Call

namespace Timbre.Storage

abbrev Bytes := List UInt8

/-- `%x` of bytes. -/
def hex (key : Bytes) : String :=
  .ofList (key.flatMap fun b => [Nat.digitChar (b.toNat / 16), Nat.digitChar (b.toNat % 16)])

/-- The buckets that have been created, and their keys. -/
structure Database where
  buckets : String → Option (Bytes → Option Bytes)

namespace Database

/-- The value of a key, if the bucket exists and holds it. -/
def entry (db : Database) (bucketName : String) (key : Bytes) : Option Bytes :=
  (db.buckets bucketName).bind fun b => b key

/-- Writes a key of a bucket, or takes it out. -/
def write (db : Database) (bucketName : String) (b : Bytes → Option Bytes) (key : Bytes)
    (value : Option Bytes) : Database :=
  ⟨Function.update db.buckets bucketName (some (Function.update b key value))⟩

/-- `Put`; `refuses` is what the bucket itself has against a pair. -/
def put (refuses : Bytes → Bytes → Option String) (bucketName : String) (key value : Bytes) :
    Call Database String Unit := fun db =>
  match db.buckets bucketName with
  | none => (.error ("put error - bucket " ++ bucketName ++ " does not exist"), db)
  | some b =>
    if (b key).isSome then (.error ("put error - key " ++ hex key ++ " already exists"), db)
    else match refuses key value with
      | some e => (.error e, db)
      | none => (.ok (), db.write bucketName b key (some value))

/-- The loop of `BatchPut`, on the pairs of the bucket. -/
def batchLoop (refuses : Bytes → Bytes → Option String) :
    List (Bytes × Bytes) → (Bytes → Option Bytes) → Except String (Bytes → Option Bytes)
  | [], b => .ok b
  | (key, value) :: pairs, b =>
    if (b key).isSome then .error ("batchput error - key " ++ hex key ++ " already exists")
    else match refuses key value with
      | some e => .error e
      | none => batchLoop refuses pairs (Function.update b key (some value))

/-- `BatchPut`; an error takes back the whole transaction. -/
def batchPut (refuses : Bytes → Bytes → Option String) (bucketName : String) (keys values : List Bytes) :
    Call Database String Unit := fun db =>
  if keys.length ≠ values.length then
    (.error "batchput error - keys and values have different lengths", db)
  else match db.buckets bucketName with
    | none => (.error ("batchput error - bucket " ++ bucketName ++ " does not exist"), db)
    | some b =>
      match batchLoop refuses (keys.zip values) b with
      | .error e => (.error e, db)
      | .ok b' => (.ok (), ⟨Function.update db.buckets bucketName (some b')⟩)

/-- `Get`. -/
def get (bucketName : String) (key : Bytes) : Call Database String Bytes := fun db =>
  match db.buckets bucketName with
  | none => (.error ("get error - bucket " ++ bucketName ++ " does not exist"), db)
  | some b =>
    match b key with
    | none => (.error ("get error - key " ++ hex key ++ " does not exist"), db)
    | some value => (.ok value, db)

/-- `Delete`. -/
def delete (bucketName : String) (key : Bytes) : Call Database String Unit := fun db =>
  match db.buckets bucketName with
  | none => (.error ("Delete error - bucket " ++ bucketName ++ " does not exist"), db)
  | some b => (.ok (), db.write bucketName b key none)

/-- The bucket exists and takes the pair, if the key is not there. -/
def Accepts (refuses : Bytes → Bytes → Option String) (db : Database) (bucketName : String)
    (key value : Bytes) : Prop :=
  (db.buckets bucketName).isSome ∧ refuses key value = none

instance {refuses : Bytes → Bytes → Option String} {db : Database} {bucketName : String} {key value : Bytes} :
    Decidable (db.Accepts refuses bucketName key value) :=
  inferInstanceAs (Decidable (_ ∧ _))

variable {refuses : Bytes → Bytes → Option String} {db : Database} {bucketName name : String}
  {key k value : Bytes} {b : Bytes → Option Bytes}

theorem entry_write (hb : db.buckets bucketName = some b) (v : Option Bytes) :
    (db.write bucketName b key v).entry name k =
      if name = bucketName ∧ k = key then v else db.entry name k := by
  unfold entry write
  dsimp only
  by_cases hname : name = bucketName
  · rw [hname, hb, Function.update_self, Option.bind_some, Option.bind_some, Function.update_apply]
    simp only [true_and]
  · rw [Function.update_of_ne hname, if_neg fun h => hname h.1]

/-- No bucket goes away. -/
theorem isSome_buckets_write (hb : db.buckets bucketName = some b) (v : Option Bytes) :
    ((db.write bucketName b key v).buckets name).isSome = (db.buckets name).isSome := by
  unfold write
  dsimp only
  by_cases hname : name = bucketName
  · rw [hname, hb, Function.update_self]
    rfl
  · rw [Function.update_of_ne hname]

theorem put_ok (hnone : db.entry bucketName key = none) (h : db.Accepts refuses bucketName key value) :
    ∃ b, db.buckets bucketName = some b ∧
      put refuses bucketName key value db = (.ok (), db.write bucketName b key (some value)) := by
  obtain ⟨b, hb⟩ := Option.isSome_iff_exists.1 h.1
  rw [entry, hb, Option.bind_some] at hnone
  refine ⟨b, hb, ?_⟩
  rw [put, hb]
  dsimp only
  rw [hnone, h.2]
  rfl

theorem put_error (h : db.entry bucketName key ≠ none ∨ ¬ db.Accepts refuses bucketName key value) :
    ∃ e, put refuses bucketName key value db = (.error e, db) := by
  unfold put
  cases hb : db.buckets bucketName with
  | none => exact ⟨_, rfl⟩
  | some b =>
    dsimp only
    split_ifs with hpresent
    · exact ⟨_, rfl⟩
    · cases hrefuses : refuses key value with
      | some e => exact ⟨_, rfl⟩
      | none =>
        rw [entry, hb, Option.bind_some] at h
        rcases h with h | h
        · exact absurd (Option.isSome_iff_ne_none.2 h) hpresent
        · exact absurd ⟨by rw [hb]; rfl, hrefuses⟩ h

/-- **A value that is there stays**, and no other key changes. -/
theorem entry_put : (put refuses bucketName key value db).2.entry name k =
    if name = bucketName ∧ k = key then
      (db.entry bucketName key).or (if db.Accepts refuses bucketName key value then some value else none)
    else db.entry name k := by
  by_cases h : db.entry bucketName key = none ∧ db.Accepts refuses bucketName key value
  · obtain ⟨b, hb, hput⟩ := put_ok h.1 h.2
    rw [hput, entry_write hb, h.1, if_pos h.2]
    rfl
  · obtain ⟨e, hput⟩ := put_error (not_and_or.1 h)
    have hsame : (db.entry bucketName key).or
        (if db.Accepts refuses bucketName key value then some value else none) = db.entry bucketName key := by
      cases hentry : db.entry bucketName key with
      | some old => rfl
      | none => exact if_neg fun haccepts => h ⟨hentry, haccepts⟩
    rw [hput, hsame]
    split_ifs with hkey
    · rw [hkey.1, hkey.2]
    · rfl

theorem entry_put_self : (put refuses bucketName key value db).2.entry bucketName key =
    (db.entry bucketName key).or (if db.Accepts refuses bucketName key value then some value else none) := by
  rw [entry_put, if_pos ⟨rfl, rfl⟩]

theorem isSome_buckets_put :
    ((put refuses bucketName key value db).2.buckets name).isSome = (db.buckets name).isSome := by
  by_cases h : db.entry bucketName key = none ∧ db.Accepts refuses bucketName key value
  · obtain ⟨b, hb, hput⟩ := put_ok h.1 h.2
    rw [hput]
    exact isSome_buckets_write hb (some value)
  · obtain ⟨e, hput⟩ := put_error (not_and_or.1 h)
    rw [hput]

theorem entry_delete : (delete bucketName key db).2.entry name k =
    if name = bucketName ∧ k = key then none else db.entry name k := by
  unfold delete
  cases hb : db.buckets bucketName with
  | none =>
    split_ifs with hkey
    · rw [hkey.1, entry, hb]
      rfl
    · rfl
  | some b => exact entry_write hb none

theorem isSome_buckets_delete :
    ((delete bucketName key db).2.buckets name).isSome = (db.buckets name).isSome := by
  unfold delete
  cases hb : db.buckets bucketName with
  | none => rfl
  | some b => exact isSome_buckets_write hb none

theorem get_ok (h : db.entry bucketName key = some value) : get bucketName key db = (.ok value, db) := by
  unfold entry at h
  unfold get
  cases hb : db.buckets bucketName with
  | none => simp [hb] at h
  | some b =>
    rw [hb, Option.bind_some] at h
    simp only [h]

theorem get_error (h : db.entry bucketName key = none) : ∃ e, get bucketName key db = (.error e, db) := by
  unfold entry at h
  unfold get
  cases hb : db.buckets bucketName with
  | none => exact ⟨_, rfl⟩
  | some b =>
    rw [hb, Option.bind_some] at h
    simp only [h]
    exact ⟨_, rfl⟩

/-! ## Batches -/

/-- A batch can be put if its keys are new and no two are equal. -/
def Puttable (refuses : Bytes → Bytes → Option String) (pairs : List (Bytes × Bytes))
    (b : Bytes → Option Bytes) : Prop :=
  (pairs.map Prod.fst).Nodup ∧ ∀ p ∈ pairs, b p.1 = none ∧ refuses p.1 p.2 = none

/-- The bucket with the pairs of a batch. -/
def filled (b : Bytes → Option Bytes) (pairs : List (Bytes × Bytes)) : Bytes → Option Bytes :=
  fun k => (b k).or (pairs.lookup k)

variable {pairs : List (Bytes × Bytes)} {b' : Bytes → Option Bytes} {keys values : List Bytes}

theorem puttable_cons (hkey : b key = none) (hvalue : refuses key value = none) :
    Puttable refuses ((key, value) :: pairs) b ↔
      Puttable refuses pairs (Function.update b key (some value)) := by
  unfold Puttable
  simp only [List.map_cons, List.nodup_cons, List.forall_mem_cons, hkey, hvalue, and_self, true_and]
  constructor
  · rintro ⟨⟨hnew, hnodup⟩, hall⟩
    refine ⟨hnodup, fun p hp => ?_⟩
    have hne : p.1 ≠ key := fun heq => hnew (List.mem_map.2 ⟨p, hp, heq⟩)
    rw [Function.update_of_ne hne]
    exact hall p hp
  · rintro ⟨hnodup, hall⟩
    have hne : ∀ p ∈ pairs, p.1 ≠ key := by
      intro p hp heq
      have h := (hall p hp).1
      rw [heq, Function.update_self] at h
      cases h
    refine ⟨⟨fun hmem => ?_, hnodup⟩, fun p hp => ?_⟩
    · obtain ⟨p, hp, heq⟩ := List.mem_map.1 hmem
      exact hne p hp heq
    · have h := hall p hp
      rwa [Function.update_of_ne (hne p hp)] at h

theorem filled_cons (hkey : b key = none) :
    filled (Function.update b key (some value)) pairs = filled b ((key, value) :: pairs) := by
  funext k
  unfold filled
  by_cases hk : k = key
  · subst hk
    rw [Function.update_self, hkey, List.lookup_cons_self]
    rfl
  · have hlookup : ((key, value) :: pairs).lookup k = pairs.lookup k := by
      rw [List.lookup_cons, beq_false_of_ne hk]
    rw [Function.update_of_ne hk, hlookup]

/-- The loop puts all pairs, or goes wrong. -/
theorem batchLoop_spec (refuses : Bytes → Bytes → Option String) :
    ∀ (pairs : List (Bytes × Bytes)) (b : Bytes → Option Bytes),
    (Puttable refuses pairs b → batchLoop refuses pairs b = .ok (filled b pairs)) ∧
      (¬ Puttable refuses pairs b → ∃ e, batchLoop refuses pairs b = .error e)
  | [], b => by
    refine ⟨fun _ => ?_, fun h => absurd ⟨List.nodup_nil, by simp⟩ h⟩
    rw [batchLoop]
    refine congrArg Except.ok (funext fun k => ?_)
    exact (Option.or_none).symm
  | (key, value) :: pairs, b => by
    rw [batchLoop]
    split_ifs with hpresent
    · have hnot : ¬ Puttable refuses ((key, value) :: pairs) b := fun h => by
        rw [(h.2 _ List.mem_cons_self).1] at hpresent
        cases hpresent
      exact ⟨fun h => absurd h hnot, fun _ => ⟨_, rfl⟩⟩
    have hkey : b key = none := Option.not_isSome_iff_eq_none.1 hpresent
    cases hvalue : refuses key value with
    | some e =>
      have hnot : ¬ Puttable refuses ((key, value) :: pairs) b := fun h => by
        rw [(h.2 _ List.mem_cons_self).2] at hvalue
        cases hvalue
      exact ⟨fun h => absurd h hnot, fun _ => ⟨e, rfl⟩⟩
    | none =>
      obtain ⟨hok, herror⟩ := batchLoop_spec refuses pairs (Function.update b key (some value))
      rw [puttable_cons hkey hvalue]
      exact ⟨fun h => (hok h).trans (congrArg Except.ok (filled_cons hkey)), herror⟩

/-- The bucket exists, there is a value for every key, and the pairs can be put. -/
def Batchable (refuses : Bytes → Bytes → Option String) (db : Database) (bucketName : String)
    (keys values : List Bytes) : Prop :=
  keys.length = values.length ∧
    ∃ b, db.buckets bucketName = some b ∧ Puttable refuses (keys.zip values) b

/-- **A batch is put as a whole**, or leaves the database as it is. -/
theorem batchPut_spec :
    (db.Batchable refuses bucketName keys values → ∃ b, db.buckets bucketName = some b ∧
      batchPut refuses bucketName keys values db =
        (.ok (), ⟨Function.update db.buckets bucketName (some (filled b (keys.zip values)))⟩)) ∧
    (¬ db.Batchable refuses bucketName keys values →
      ∃ e, batchPut refuses bucketName keys values db = (.error e, db)) := by
  unfold batchPut
  constructor
  · rintro ⟨hlength, b, hb, hputtable⟩
    refine ⟨b, hb, ?_⟩
    rw [if_neg (not_not.2 hlength), hb]
    dsimp only
    rw [(batchLoop_spec refuses (keys.zip values) b).1 hputtable]
  · intro h
    split_ifs with hlength
    · exact ⟨_, rfl⟩
    cases hb : db.buckets bucketName with
    | none => exact ⟨_, rfl⟩
    | some b =>
      have hputtable : ¬ Puttable refuses (keys.zip values) b := fun hp => h ⟨not_not.1 hlength, b, hb, hp⟩
      obtain ⟨e, hloop⟩ := (batchLoop_spec refuses (keys.zip values) b).2 hputtable
      dsimp only
      rw [hloop]
      exact ⟨e, rfl⟩

end Database
end Timbre.Storage
