/-
  The wire format of protocol buffers, as generated code writes it: the fields in the order
  of their numbers, each value behind its tag, fields with their default value left out.

  A message is a list of fields, and a field the list of its payloads.  **A message can be
  read back from its encoding** (`marshal_injective`).  Encodings have no end mark:
  **two strings of encodings are equal iff their records are** (`encode_eq_iff`), wherever
  one message ends and the next one starts.
-/
import Mathlib.Data.List.Basic
import Mathlib.Data.List.Nodup
import Mathlib.Logic.Function.Basic
import Mathlib.Tactic.Common

namespace Wire

abbrev Bytes := List UInt8

/-! ## Codes -/

section
variable {α β : Type}

/-- A word of the code can be read off the front of a string. -/
def Delimited (code : α → List β) : Prop :=
  ∀ ⦃x y r s⦄, code x ++ r = code y ++ s → x = y ∧ r = s

theorem Delimited.flatMap_injective {code : α → List β} (h : Delimited code)
    (hne : ∀ x, code x ≠ []) : ∀ {xs ys : List α}, xs.flatMap code = ys.flatMap code → xs = ys
  | [], [], _ => rfl
  | [], y :: ys, he => by
    rw [List.flatMap_nil, List.flatMap_cons] at he
    exact absurd (List.append_eq_nil_iff.1 he.symm).1 (hne y)
  | x :: xs, [], he => by
    rw [List.flatMap_nil, List.flatMap_cons] at he
    exact absurd (List.append_eq_nil_iff.1 he).1 (hne x)
  | x :: xs, y :: ys, he => by
    rw [List.flatMap_cons, List.flatMap_cons] at he
    obtain ⟨rfl, htail⟩ := h he
    rw [h.flatMap_injective hne htail]

end

/-- Seven bits a byte, the lowest first; all bytes but the last have their high bit set. -/
def varint (n : ℕ) : Bytes :=
  if n < 128 then [UInt8.ofNat n] else UInt8.ofNat (n % 128 + 128) :: varint (n / 128)

theorem varint_ne_nil (n : ℕ) : varint n ≠ [] := by
  unfold varint
  split <;> simp

theorem ofNat_inj {m n : ℕ} (hm : m < 256) (hn : n < 256) (h : UInt8.ofNat m = UInt8.ofNat n) :
    m = n := by
  have h := congrArg UInt8.toNat h
  rwa [UInt8.toNat_ofNat', UInt8.toNat_ofNat', Nat.mod_eq_of_lt hm, Nat.mod_eq_of_lt hn] at h

theorem varint_delimited : Delimited varint := by
  intro m n r s h
  induction m using Nat.strongRecOn generalizing n with
  | ind m ih =>
    rw [varint.eq_def m, varint.eq_def n] at h
    split at h <;> split at h <;> rw [List.cons_append, List.cons_append, List.cons.injEq] at h <;>
      have hhead := ofNat_inj (by omega) (by omega) h.1
    · exact ⟨hhead, h.2⟩
    · omega
    · omega
    · obtain ⟨hdiv, htail⟩ := ih (m / 128) (by omega) h.2
      exact ⟨by omega, htail⟩

/-! ## Records -/

inductive Payload where
  | varint : ℕ → Payload
  /-- bytes behind their length -/
  | len : Bytes → Payload

/-- A field number with its payloads: none if the field has its default value, more than one
    if the field is repeated. -/
abbrev Field := ℕ × List Payload

/-- A payload behind its tag. -/
def record : ℕ × Payload → Bytes
  | (num, .varint n) => varint (num * 8) ++ varint n
  | (num, .len bytes) => varint (num * 8 + 2) ++ (varint bytes.length ++ bytes)

theorem record_ne_nil : ∀ r, record r ≠ []
  | (_, .varint _) => by simp [record, varint_ne_nil]
  | (_, .len _) => by simp [record, varint_ne_nil]

theorem record_delimited : Delimited record := by
  rintro ⟨m, p⟩ ⟨n, q⟩ r s h
  cases p <;> cases q <;> simp only [record, List.append_assoc] at h <;>
    obtain ⟨htag, h⟩ := varint_delimited h
  · obtain ⟨rfl, rfl⟩ := varint_delimited h
    obtain rfl : m = n := by omega
    exact ⟨rfl, rfl⟩
  · omega
  · omega
  · obtain ⟨hlength, h⟩ := varint_delimited h
    obtain ⟨rfl, rfl⟩ := List.append_inj h hlength
    obtain rfl : m = n := by omega
    exact ⟨rfl, rfl⟩

def records (fields : List Field) : List (ℕ × Payload) :=
  fields.flatMap fun f => f.2.map fun p => (f.1, p)

def encode (fields : List Field) : Bytes := (records fields).flatMap record

@[simp]
theorem encode_append (fs gs : List Field) : encode (fs ++ gs) = encode fs ++ encode gs := by
  rw [encode, records, List.flatMap_append, List.flatMap_append]
  rfl

theorem encode_eq_iff {fs gs : List Field} : encode fs = encode gs ↔ records fs = records gs :=
  ⟨record_delimited.flatMap_injective record_ne_nil, congrArg (List.flatMap record)⟩

/-- The payloads of the field with number `n` are the records with that number. -/
theorem filter_records {n : ℕ} {p : List Payload} : ∀ {fs : List Field},
    (fs.map Prod.fst).Nodup → (n, p) ∈ fs →
      (records fs).filter (fun r => r.1 = n) = p.map fun x => (n, x)
  | (m, q) :: fs, hnodup, hmem => by
    rw [List.map_cons, List.nodup_cons] at hnodup
    rw [records, List.flatMap_cons, List.filter_append]
    rcases List.mem_cons.1 hmem with heq | hmem
    · obtain ⟨rfl, rfl⟩ := Prod.mk.inj heq
      have hrest : (records fs).filter (fun r => r.1 = n) = [] := by
        refine List.filter_eq_nil_iff.2 fun r hr => ?_
        obtain ⟨f, hf, hr⟩ := List.mem_flatMap.1 hr
        obtain ⟨x, -, rfl⟩ := List.mem_map.1 hr
        rw [decide_eq_true_iff]
        rintro rfl
        exact hnodup.1 (List.mem_map_of_mem (f := Prod.fst) (a := f) hf)
      rw [← records, hrest, List.append_nil, List.filter_eq_self.2]
      intro r hr
      obtain ⟨x, -, rfl⟩ := List.mem_map.1 hr
      simp
    · have hne : m ≠ n := by
        rintro rfl
        exact hnodup.1 (List.mem_map_of_mem (f := Prod.fst) (a := (m, p)) hmem)
      rw [← records, filter_records hnodup.2 hmem, List.filter_eq_nil_iff.2, List.nil_append]
      intro r hr
      obtain ⟨x, -, rfl⟩ := List.mem_map.1 hr
      simpa using hne

theorem records_inj {fs gs : List Field} (hnums : fs.map Prod.fst = gs.map Prod.fst)
    (hnodup : (fs.map Prod.fst).Nodup) (h : records fs = records gs) : fs = gs := by
  have hlength : fs.length = gs.length := by simpa using congrArg List.length hnums
  refine List.ext_getElem hlength fun i hf hg => ?_
  have hnum : fs[i].1 = gs[i].1 := by
    have := List.getElem_of_eq hnums (by simpa using hf)
    simpa using this
  have hfs := filter_records (n := fs[i].1) (p := fs[i].2) hnodup (List.getElem_mem hf)
  have hgs := filter_records (n := gs[i].1) (p := gs[i].2) (hnums ▸ hnodup) (List.getElem_mem hg)
  rw [h, hnum, hgs] at hfs
  exact Prod.ext hnum (List.map_injective_iff.2 (fun _ _ h => (Prod.mk.inj h).2) hfs.symm)

/-! ## Messages -/

/-- A type of messages: its fields, with one number for each field. -/
class Message (α : Type) where
  fields : α → List Field
  nums : List ℕ
  nums_nodup : nums.Nodup
  fields_nums : ∀ m, (fields m).map Prod.fst = nums
  fields_injective : Function.Injective fields

/-- The encoding of a message. -/
def marshal {α : Type} [Message α] (m : α) : Bytes := encode (Message.fields m)

theorem marshal_injective {α : Type} [Message α] : Function.Injective (marshal (α := α)) := by
  intro m m' h
  refine Message.fields_injective (records_inj ?_ ?_ (encode_eq_iff.1 h))
  · rw [Message.fields_nums, Message.fields_nums]
  · rw [Message.fields_nums]
    exact Message.nums_nodup

/-! ## Kinds of fields -/

section
variable {α : Type}

/-- A value that is left out where it is the default. -/
def optional (isDefault : Prop) [Decidable isDefault] (p : Payload) : List Payload :=
  if isDefault then [] else [p]

theorem optional_inj {p p' : Prop} [Decidable p] [Decidable p'] {x y : Payload}
    (h : optional p x = optional p' y) : (p ∧ p') ∨ (¬ p ∧ ¬ p' ∧ x = y) := by
  unfold optional at h
  split at h <;> split at h <;> simp_all

def int64 (x : Int64) : List Payload := optional (x = 0) (.varint x.toUInt64.toNat)

def uint64 (x : UInt64) : List Payload := optional (x = 0) (.varint x.toNat)

def uint32 (x : UInt32) : List Payload := optional (x = 0) (.varint x.toNat)

/-- Extended to 64 bits with its sign. -/
def int32 (x : Int32) : List Payload := optional (x = 0) (.varint x.toInt64.toUInt64.toNat)

def bool (b : Bool) : List Payload := optional (b = false) (.varint 1)

def bytes (b : Bytes) : List Payload := optional (b = []) (.len b)

def utf8 (s : String) : Bytes := s.toUTF8.data.toList

def string (s : String) : List Payload := bytes (utf8 s)

def message [Message α] (m : Option α) : List Payload := m.toList.map fun m => .len (marshal m)

def repeatedMessage [Message α] (ms : List α) : List Payload := ms.map fun m => .len (marshal m)

def repeatedBytes (bs : List Bytes) : List Payload := bs.map .len

def repeatedString (ss : List String) : List Payload := ss.map fun s => .len (utf8 s)

/-- Numbers one behind the other in one payload. -/
def packed (f : α → ℕ) (xs : List α) : List Payload :=
  optional (xs = []) (.len (xs.flatMap fun x => varint (f x)))

theorem toUInt64_injective : Function.Injective Int64.toUInt64 := by
  intro x y h
  rw [← Int64.toInt64_toUInt64 x, h, Int64.toInt64_toUInt64]

@[simp]
theorem int64_inj {x y : Int64} : int64 x = int64 y ↔ x = y := by
  refine ⟨fun h => ?_, congrArg int64⟩
  rcases optional_inj h with ⟨rfl, rfl⟩ | ⟨-, -, h⟩
  · rfl
  · exact toUInt64_injective (UInt64.toNat_inj.1 (Payload.varint.inj h))

@[simp]
theorem uint64_inj {x y : UInt64} : uint64 x = uint64 y ↔ x = y := by
  refine ⟨fun h => ?_, congrArg uint64⟩
  rcases optional_inj h with ⟨rfl, rfl⟩ | ⟨-, -, h⟩
  · rfl
  · exact UInt64.toNat_inj.1 (Payload.varint.inj h)

@[simp]
theorem uint32_inj {x y : UInt32} : uint32 x = uint32 y ↔ x = y := by
  refine ⟨fun h => ?_, congrArg uint32⟩
  rcases optional_inj h with ⟨rfl, rfl⟩ | ⟨-, -, h⟩
  · rfl
  · exact UInt32.toNat_inj.1 (Payload.varint.inj h)

theorem int32_code_inj {x y : Int32} (h : x.toInt64.toUInt64.toNat = y.toInt64.toUInt64.toNat) :
    x = y := by
  have h := congrArg Int64.toInt (toUInt64_injective (UInt64.toNat_inj.1 h))
  rw [Int32.toInt_toInt64, Int32.toInt_toInt64] at h
  exact Int32.toInt_inj.1 h

@[simp]
theorem int32_inj {x y : Int32} : int32 x = int32 y ↔ x = y := by
  refine ⟨fun h => ?_, congrArg int32⟩
  rcases optional_inj h with ⟨rfl, rfl⟩ | ⟨-, -, h⟩
  · rfl
  · exact int32_code_inj (Payload.varint.inj h)

@[simp]
theorem bool_inj {b c : Bool} : bool b = bool c ↔ b = c := by
  cases b <;> cases c <;> simp [bool, optional]

@[simp]
theorem bytes_inj {b c : Bytes} : bytes b = bytes c ↔ b = c := by
  refine ⟨fun h => ?_, congrArg bytes⟩
  rcases optional_inj h with ⟨rfl, rfl⟩ | ⟨-, -, h⟩
  · rfl
  · exact Payload.len.inj h

theorem utf8_injective : Function.Injective utf8 := by
  intro s t h
  have hbytes : s.toUTF8 = t.toUTF8 := ByteArray.ext (Array.toList_inj.1 h)
  exact String.toByteArray_inj.1 hbytes

@[simp]
theorem string_inj {s t : String} : string s = string t ↔ s = t :=
  bytes_inj.trans utf8_injective.eq_iff

theorem len_marshal_injective [Message α] :
    Function.Injective fun m : α => Payload.len (marshal m) :=
  fun _ _ h => marshal_injective (Payload.len.inj h)

@[simp]
theorem message_inj [Message α] {m m' : Option α} : message m = message m' ↔ m = m' := by
  cases m <;> cases m' <;> simp [message, marshal_injective.eq_iff]

@[simp]
theorem repeatedMessage_inj [Message α] {ms ms' : List α} :
    repeatedMessage ms = repeatedMessage ms' ↔ ms = ms' :=
  (List.map_injective_iff.2 len_marshal_injective).eq_iff

@[simp]
theorem repeatedBytes_inj {bs cs : List Bytes} : repeatedBytes bs = repeatedBytes cs ↔ bs = cs :=
  (List.map_injective_iff.2 fun _ _ h => Payload.len.inj h).eq_iff

@[simp]
theorem repeatedString_inj {ss ts : List String} :
    repeatedString ss = repeatedString ts ↔ ss = ts :=
  (List.map_injective_iff.2 fun _ _ h => utf8_injective (Payload.len.inj h)).eq_iff

theorem packed_inj {f : α → ℕ} (hf : Function.Injective f) {xs ys : List α} :
    packed f xs = packed f ys ↔ xs = ys := by
  refine ⟨fun h => ?_, congrArg (packed f)⟩
  rcases optional_inj h with ⟨rfl, rfl⟩ | ⟨-, -, h⟩
  · rfl
  · have hcode : Delimited fun x => varint (f x) := fun x y r s h =>
      ⟨hf (varint_delimited h).1, (varint_delimited h).2⟩
    exact hcode.flatMap_injective (fun x => varint_ne_nil _) (Payload.len.inj h)

end

end Wire
