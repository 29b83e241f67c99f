import Akar.ByteCodec
import Akar.Value

namespace Akar

open ByteCodec List
open Reader (bind_ok)

/-- The errors a column returns; `failed` is whatever the file system reports, and `panicked` a
slice out of range. -/
inductive ColumnError where
  | unexpectedEof (msg : String)
  | invalidData (msg : String)
  | invalidInput (msg : String)
  | outOfMemory (msg : String)
  | failed
  | panicked
  deriving DecidableEq, Repr

def textBytes (s : String) : Bytes := s.toByteArray.data.toList

def fromUtf8Lossy [TextDecoding] (bytes : Bytes) : String :=
  (String.fromUTF8? ⟨bytes.toArray⟩).getD (TextDecoding.replaced bytes)

theorem fromUtf8Lossy_textBytes [TextDecoding] (s : String) : fromUtf8Lossy (textBytes s) = s := by
  have hbytes : (⟨(textBytes s).toArray⟩ : ByteArray) = s.toByteArray := rfl
  have hvalid : String.fromUTF8? s.toByteArray = some s := dif_pos s.isValidUTF8
  rw [fromUtf8Lossy, hbytes, hvalid, Option.getD_some]

def sizedBytes (bytes : Bytes) : Bytes := toLe 4 bytes.length ++ bytes

mutual

def serializeValue : Value → Bytes
  | .null => [0]
  | .bool b => [1, if b then 1 else 0]
  | .int64 x => 2 :: toLe 8 x.toUInt64.toNat
  | .int32 x => 3 :: toLe 4 x.toUInt32.toNat
  | .int16 x => 4 :: toLe 2 x.toUInt16.toNat
  | .int8 x => 5 :: toLe 1 x.toUInt8.toNat
  | .uint64 x => 6 :: toLe 8 x.toNat
  | .uint32 x => 7 :: toLe 4 x.toNat
  | .uint16 x => 8 :: toLe 2 x.toNat
  | .uint8 x => 9 :: toLe 1 x.toNat
  | .int128 x => 10 :: toLe 16 x.toNat
  | .double bits => 11 :: toLe 8 bits.toNat
  | .float bits => 12 :: toLe 4 bits.toNat
  | .string s => 13 :: sizedBytes (textBytes s)
  | .blob bytes => 14 :: sizedBytes bytes
  | .date days => 15 :: toLe 4 days.toUInt32.toNat
  | .timestamp t => 16 :: toLe 8 t.toUInt64.toNat
  | .timestampTz t => 17 :: toLe 8 t.toUInt64.toNat
  | .timestampNs t => 18 :: toLe 8 t.toUInt64.toNat
  | .timestampMs t => 19 :: toLe 8 t.toUInt64.toNat
  | .timestampSec t => 20 :: toLe 8 t.toUInt64.toNat
  | .interval months days micros =>
    21 :: (toLe 4 months.toUInt32.toNat ++ (toLe 4 days.toUInt32.toNat ++ toLe 8 micros.toUInt64.toNat))
  | .internalID tableId offset => 22 :: (toLe 8 tableId.toNat ++ toLe 8 offset.toNat)
  | .list vs => 23 :: (toLe 4 vs.length ++ serializeValues vs)
  | .map kvs => 24 :: (toLe 4 kvs.length ++ serializePairs kvs)
  | .struct fields => 25 :: (toLe 4 fields.length ++ serializeFields fields)
  | .uint128 x => 26 :: toLe 16 x.toNat
  | .json text => 27 :: sizedBytes (textBytes text)
  | .dTime micros => 28 :: toLe 8 micros.toUInt64.toNat
  | .union tag v => 29 :: (sizedBytes (textBytes tag) ++ serializeValue v)
termination_by structural v => v

def serializeValues : List Value → Bytes
  | [] => []
  | v :: vs => serializeValue v ++ serializeValues vs
termination_by structural vs => vs

def serializePair : Value × Value → Bytes
  | (k, v) => serializeValue k ++ serializeValue v
termination_by structural kv => kv

def serializePairs : List (Value × Value) → Bytes
  | [] => []
  | kv :: kvs => serializePair kv ++ serializePairs kvs
termination_by structural kvs => kvs

def serializeField : String × Value → Bytes
  | (name, v) => sizedBytes (textBytes name) ++ serializeValue v
termination_by structural field => field

def serializeFields : List (String × Value) → Bytes
  | [] => []
  | field :: fields => serializeField field ++ serializeFields fields
termination_by structural fields => fields

end

theorem serializeValue_pos (v : Value) : 0 < (serializeValue v).length := by
  cases v <;> exact Nat.succ_pos _

theorem serializeValues_eq (vs : List Value) : serializeValues vs = vs.flatMap serializeValue := by
  induction vs with
  | nil => rfl
  | cons v vs ih =>
    show serializeValue v ++ serializeValues vs = _
    rw [ih, flatMap_cons]

theorem serializePairs_eq (kvs : List (Value × Value)) : serializePairs kvs =
    kvs.flatMap serializePair := by
  induction kvs with
  | nil => rfl
  | cons kv kvs ih =>
    show serializePair kv ++ serializePairs kvs = _
    rw [ih, flatMap_cons]

theorem serializeFields_eq (fields : List (String × Value)) : serializeFields fields =
    fields.flatMap serializeField := by
  induction fields with
  | nil => rfl
  | cons field fields ih =>
    show serializeField field ++ serializeFields fields = _
    rw [ih, flatMap_cons]

theorem length_le_flatMap {α : Type} (write : α → Bytes) {as : List α} {a : α} (h : a ∈ as) :
    (write a).length ≤ (as.flatMap write).length := by
  obtain ⟨before, after, rfl⟩ := append_of_mem h
  rw [flatMap_append, flatMap_cons]
  simp only [length_append]
  omega

theorem serializeValue_list (vs : List Value) :
    serializeValue (.list vs) = 23 :: (toLe 4 vs.length ++ vs.flatMap serializeValue) := by
  rw [← serializeValues_eq]
  rfl

theorem serializeValue_map (kvs : List (Value × Value)) :
    serializeValue (.map kvs) = 24 :: (toLe 4 kvs.length ++ kvs.flatMap serializePair) := by
  rw [← serializePairs_eq]
  rfl

theorem serializeValue_struct (fields : List (String × Value)) :
    serializeValue (.struct fields) =
      25 :: (toLe 4 fields.length ++ fields.flatMap serializeField) := by
  rw [← serializeFields_eq]
  rfl

theorem and_eq_true_of_decide {p : Prop} [Decidable p] {b : Bool} (h : (decide p && b) = true) :
    p ∧ b = true := by
  rw [Bool.and_eq_true, decide_eq_true_eq] at h
  exact h

section Decoding

def eofValue : ColumnError := .unexpectedEof "unexpected EOF reading value"

def fixedPayload (k : Nat) (f : Nat → Value) : Reader ColumnError Value :=
  (Reader.le eofValue k).bind fun n => .pure (f n)

def bytePayload (msg : String) (f : Nat → Value) : Reader ColumnError Value :=
  (Reader.le (.unexpectedEof msg) 1).bind fun n => .pure (f n)

def readSized (msg : String) : Reader ColumnError Bytes :=
  (Reader.le eofValue 4).bind fun len => .exactly (.unexpectedEof msg) len

variable {k n : Nat} {f : Nat → Value} {msg : String}

theorem le_toLe {e : ColumnError} (h : n < 256 ^ k) (rest : Bytes) :
    Reader.le e k (toLe k n ++ rest) = .ok (n, rest) := by
  rw [Reader.le_append, Nat.mod_eq_of_lt h]

theorem fixedPayload_toLe (h : n < 256 ^ k) (rest : Bytes) :
    fixedPayload k f (toLe k n ++ rest) = .ok (f n, rest) := by
  rw [fixedPayload, bind_ok (le_toLe h rest)]
  rfl

theorem bytePayload_toLe (h : n < 256 ^ 1) (rest : Bytes) :
    bytePayload msg f (toLe 1 n ++ rest) = .ok (f n, rest) := by
  rw [bytePayload, bind_ok (le_toLe h rest)]
  rfl

theorem readSized_sizedBytes {bytes : Bytes} (h : bytes.length < 2 ^ 32) (rest : Bytes) :
    readSized msg (sizedBytes bytes ++ rest) = .ok (bytes, rest) := by
  rw [readSized, sizedBytes, append_assoc, bind_ok (le_toLe h _),
    Reader.exactly_append _ _ _ rfl]

variable [TextDecoding]

def readText (msg : String) : Reader ColumnError String :=
  (readSized msg).bind fun bytes => .pure (fromUtf8Lossy bytes)

def hexByte (b : UInt8) : String :=
  String.ofList [Nat.digitChar (b.toNat / 16), Nat.digitChar (b.toNat % 16)]

/-- The payload of a value with the tag `tag`; `nested` reads the values inside it. -/
def readPayload (nested : Reader ColumnError Value) (tag : UInt8) : Reader ColumnError Value :=
  match tag.toNat with
  | 0 => .pure .null
  | 1 => bytePayload "eof reading bool" fun n => .bool (n ≠ 0)
  | 2 => fixedPayload 8 fun n => .int64 (UInt64.ofNat n).toInt64
  | 3 => fixedPayload 4 fun n => .int32 (UInt32.ofNat n).toInt32
  | 4 => fixedPayload 2 fun n => .int16 (UInt16.ofNat n).toInt16
  | 5 => bytePayload "eof reading i8" fun n => .int8 (UInt8.ofNat n).toInt8
  | 6 => fixedPayload 8 fun n => .uint64 (.ofNat n)
  | 7 => fixedPayload 4 fun n => .uint32 (.ofNat n)
  | 8 => fixedPayload 2 fun n => .uint16 (.ofNat n)
  | 9 => bytePayload "eof reading u8" fun n => .uint8 (.ofNat n)
  | 10 => fixedPayload 16 fun n => .int128 (.ofNat 128 n)
  | 11 => fixedPayload 8 fun n => .double (.ofNat n)
  | 12 => fixedPayload 4 fun n => .float (.ofNat n)
  | 13 => (readText "eof reading string data").bind fun s => .pure (.string s)
  | 14 => (readSized "eof reading blob data").bind fun bytes => .pure (.blob bytes)
  | 15 => fixedPayload 4 fun n => .date (UInt32.ofNat n).toInt32
  | 16 => fixedPayload 8 fun n => .timestamp (UInt64.ofNat n).toInt64
  | 17 => fixedPayload 8 fun n => .timestampTz (UInt64.ofNat n).toInt64
  | 18 => fixedPayload 8 fun n => .timestampNs (UInt64.ofNat n).toInt64
  | 19 => fixedPayload 8 fun n => .timestampMs (UInt64.ofNat n).toInt64
  | 20 => fixedPayload 8 fun n => .timestampSec (UInt64.ofNat n).toInt64
  | 21 =>
    (Reader.le eofValue 4).bind fun months => (Reader.le eofValue 4).bind fun days =>
      fixedPayload 8 fun micros =>
        .interval (UInt32.ofNat months).toInt32 (UInt32.ofNat days).toInt32
          (UInt64.ofNat micros).toInt64
  | 22 =>
    (Reader.le eofValue 8).bind fun tableId => fixedPayload 8 fun offset =>
    .internalID (.ofNat tableId) (.ofNat offset)
  | 23 =>
    (Reader.le eofValue 4).bind fun len => (Reader.many nested len).bind fun vs => .pure (.list vs)
  | 24 =>
    (Reader.le eofValue 4).bind fun len =>
      (Reader.many (nested.bind fun k => nested.bind fun v => .pure (k, v)) len).bind fun kvs =>
        .pure (.map kvs)
  | 25 =>
    (Reader.le eofValue 4).bind fun len =>
      (Reader.many ((readText "eof reading struct field name").bind fun name =>
        nested.bind fun v => .pure (name, v))
        len).bind fun fields => .pure (.struct fields)
  | 26 => fixedPayload 16 fun n => .uint128 (.ofNat 128 n)
  | 27 =>
    (readText "eof reading json data").bind fun text rest =>
      match TextDecoding.parseJson text with
      | .ok parsed => .ok (.json parsed, rest)
      | .error e => .error (.invalidData s!"invalid json: {e}")
  | 28 => fixedPayload 8 fun n => .dTime (UInt64.ofNat n).toInt64
  | 29 => (readText "eof reading union tag").bind fun name => nested.bind fun v => .pure (.union name v)
  | _ => fun _ => .error (.invalidData s!"unknown value tag: 0x{hexByte tag}")

/-- `deserialize_value`. A nested value starts at least one byte further on, so as many turns as
there are bytes are enough. -/
def readValue : Nat → Reader ColumnError Value
  | 0, _ => .error (.unexpectedEof "unexpected EOF reading value tag")
  | _ + 1, [] => .error (.unexpectedEof "unexpected EOF reading value tag")
  | fuel + 1, tag :: data => readPayload (readValue fuel) tag data

mutual

/-- The value is written in full: every length fits in 32 bits, and the text of a JSON value is
parsed to that value. -/
def codable : Value → Bool
  | .string s => (textBytes s).length < 2 ^ 32
  | .blob bytes => bytes.length < 2 ^ 32
  | .json text =>
    (textBytes text).length < 2 ^ 32 &&
      match TextDecoding.parseJson text with
      | .ok parsed => parsed = text
      | .error _ => false
  | .union tag v => (textBytes tag).length < 2 ^ 32 && codable v
  | .list vs => vs.length < 2 ^ 32 && codableValues vs
  | .map kvs => kvs.length < 2 ^ 32 && codablePairs kvs
  | .struct fields => fields.length < 2 ^ 32 && codableFields fields
  | _ => true
termination_by structural v => v

def codableValues : List Value → Bool
  | [] => true
  | v :: vs => codable v && codableValues vs
termination_by structural vs => vs

def codablePair : Value × Value → Bool
  | (k, v) => codable k && codable v
termination_by structural kv => kv

def codablePairs : List (Value × Value) → Bool
  | [] => true
  | kv :: kvs => codablePair kv && codablePairs kvs
termination_by structural kvs => kvs

def codableField : String × Value → Bool
  | (name, v) => (textBytes name).length < 2 ^ 32 && codable v
termination_by structural field => field

def codableFields : List (String × Value) → Bool
  | [] => true
  | field :: fields => codableField field && codableFields fields
termination_by structural fields => fields

end

variable {s : String}

theorem readText_sizedBytes (h : (textBytes s).length < 2 ^ 32) (rest : Bytes) :
    readText msg (sizedBytes (textBytes s) ++ rest) = .ok (s, rest) := by
  rw [readText, bind_ok (readSized_sizedBytes h rest), fromUtf8Lossy_textBytes]
  rfl

theorem readValue_cons (fuel : Nat) (tag : UInt8) (data : Bytes) :
    readValue (fuel + 1) (tag :: data) = readPayload (readValue fuel) tag data := rfl

variable {fuel : Nat} {v : Value} {tag : UInt8}

theorem readValue_fixed (htag : ∀ nested, readPayload nested tag = fixedPayload k f) (hn : n < 256 ^ k)
    (hv : f n = v) (rest : Bytes) : readValue (fuel + 1) (tag :: toLe k n ++ rest) = .ok (v, rest) := by
  rw [cons_append, readValue_cons, htag, fixedPayload_toLe hn, hv]

theorem readValue_byte (htag : ∀ nested, readPayload nested tag = bytePayload msg f) (hn : n < 256 ^ 1)
    (hv : f n = v) (rest : Bytes) : readValue (fuel + 1) (tag :: toLe 1 n ++ rest) = .ok (v, rest) := by
  rw [cons_append, readValue_cons, htag, bytePayload_toLe hn, hv]

theorem codableValues_iff (vs : List Value) : codableValues vs = true ↔ ∀ v ∈ vs, codable v = true := by
  induction vs with
  | nil => exact ⟨fun _ => nofun, fun _ => rfl⟩
  | cons v vs ih =>
    have hcons : codableValues (v :: vs) = (codable v && codableValues vs) := rfl
    rw [hcons, Bool.and_eq_true, ih, forall_mem_cons]

theorem codablePairs_iff (kvs : List (Value × Value)) : codablePairs kvs = true ↔ ∀ kv ∈ kvs,
    codablePair kv = true := by
  induction kvs with
  | nil => exact ⟨fun _ => nofun, fun _ => rfl⟩
  | cons kv kvs ih =>
    have hcons : codablePairs (kv :: kvs) = (codablePair kv && codablePairs kvs) := rfl
    rw [hcons, Bool.and_eq_true, ih, forall_mem_cons]

theorem codableFields_iff (fields : List (String × Value)) :
    codableFields fields = true ↔ ∀ field ∈ fields, codableField field = true := by
  induction fields with
  | nil => exact ⟨fun _ => nofun, fun _ => rfl⟩
  | cons field fields ih =>
    have hcons : codableFields (field :: fields) = (codableField field && codableFields fields) := rfl
    rw [hcons, Bool.and_eq_true, ih, forall_mem_cons]

variable {text : String}

theorem readValue_json_text (h : (textBytes text).length < 2 ^ 32) (rest : Bytes) :
    readValue (fuel + 1) (serializeValue (.json text) ++ rest) = match TextDecoding.parseJson text with
      | .ok parsed => .ok (.json parsed, rest)
      | .error e => .error (.invalidData s!"invalid json: {e}") := by
  have htag : readPayload (readValue fuel) 27 = (readText "eof reading json data").bind fun text rest =>
        match TextDecoding.parseJson text with
        | .ok parsed => .ok (.json parsed, rest)
        | .error e => .error (.invalidData s!"invalid json: {e}") := rfl
  have hbytes : serializeValue (.json text) = 27 :: sizedBytes (textBytes text) := rfl
  rw [hbytes, cons_append, readValue_cons, htag, bind_ok (readText_sizedBytes h rest)]

theorem readValue_json (h : codable (.json text) = true) (rest : Bytes) :
    readValue (fuel + 1) (serializeValue (.json text) ++ rest) = .ok (.json text, rest) := by
  obtain ⟨hlen, hparsed⟩ := and_eq_true_of_decide h
  rw [readValue_json_text hlen]
  cases hparse : TextDecoding.parseJson text with
  | error e =>
    rw [hparse] at hparsed
    cases hparsed
  | ok parsed =>
    rw [hparse] at hparsed
    simp only [of_decide_eq_true hparsed]

section Nested

variable {fuel : Nat} {v : Value}

theorem readValue_union {tag : String} (hlen : (textBytes tag).length < 2 ^ 32)
    (hv : ∀ rest, readValue fuel (serializeValue v ++ rest) = .ok (v, rest)) (rest : Bytes) :
    readValue (fuel + 1) (serializeValue (.union tag v) ++ rest) = .ok (.union tag v, rest) := by
  have htag : readPayload (readValue fuel) 29 =
      (readText "eof reading union tag").bind fun name => (readValue fuel).bind fun v =>
        .pure (.union name v) := rfl
  have hbytes : serializeValue (.union tag v) =
      29 :: (sizedBytes (textBytes tag) ++ serializeValue v) := rfl
  rw [hbytes, cons_append, readValue_cons, htag, append_assoc,
    bind_ok (readText_sizedBytes hlen _), bind_ok (hv rest)]
  rfl

def readPair (fuel : Nat) : Reader ColumnError (Value × Value) :=
  (readValue fuel).bind fun k => (readValue fuel).bind fun v => .pure (k, v)

def readField (fuel : Nat) : Reader ColumnError (String × Value) :=
  (readText "eof reading struct field name").bind fun name => (readValue fuel).bind fun v =>
    .pure (name, v)

variable {k : Value}

theorem readPair_serializePair (hk : ∀ rest, readValue fuel (serializeValue k ++ rest) = .ok (k, rest))
    (hv : ∀ rest, readValue fuel (serializeValue v ++ rest) = .ok (v, rest)) (rest : Bytes) :
    readPair fuel (serializePair (k, v) ++ rest) = .ok ((k, v), rest) := by
  have hbytes : serializePair (k, v) = serializeValue k ++ serializeValue v := rfl
  rw [readPair, hbytes, append_assoc, bind_ok (hk _), bind_ok (hv _)]
  rfl

variable {name : String}

theorem readField_serializeField (hname : (textBytes name).length < 2 ^ 32)
    (hv : ∀ rest, readValue fuel (serializeValue v ++ rest) = .ok (v, rest)) (rest : Bytes) :
    readField fuel (serializeField (name, v) ++ rest) = .ok ((name, v), rest) := by
  have hbytes : serializeField (name, v) = sizedBytes (textBytes name) ++ serializeValue v := rfl
  rw [readField, hbytes, append_assoc, bind_ok (readText_sizedBytes hname _),
    bind_ok (hv rest)]
  rfl

section Counted

variable {α : Type} (build : List α → Value) (write : α → Bytes) (item : Reader ColumnError α)
    {tag : UInt8} {xs : List α}
  (hbytes : serializeValue (build xs) = tag :: (toLe 4 xs.length ++ xs.flatMap write))
include hbytes

section

variable (htag : readPayload (readValue fuel) tag =
      (Reader.le eofValue 4).bind fun len => (Reader.many item len).bind fun xs =>
        .pure (build xs)) (hlen : xs.length < 2 ^ 32)
include htag hlen

theorem readValue_counted (rest : Bytes) : readValue (fuel + 1) (serializeValue (build xs) ++ rest) =
      ((Reader.many item xs.length).bind fun xs => .pure (build xs)) (xs.flatMap write ++ rest) := by
  rw [hbytes, cons_append, readValue_cons, htag, append_assoc, bind_ok (le_toLe (k := 4) hlen _)]

theorem readValue_items (hitems : ∀ x ∈ xs, ∀ rest, item (write x ++ rest) = .ok (x, rest))
    (rest : Bytes) :
    readValue (fuel + 1) (serializeValue (build xs) ++ rest) = .ok (build xs, rest) := by
  rw [readValue_counted build write item hbytes htag hlen,
    bind_ok (Reader.many_flatMap hitems rest)]
  rfl

end

omit [TextDecoding] in
theorem length_item_le (hfuel : (serializeValue (build xs)).length ≤ fuel + 1) {x : α} (hx : x ∈ xs) :
    (write x).length ≤ fuel := by
  have hle := length_le_flatMap write hx
  rw [hbytes, length_cons, length_append] at hfuel
  omega

end Counted

omit [TextDecoding]

theorem length_pair_le {kvs : List (Value × Value)}
    (hfuel : (serializeValue (.map kvs)).length ≤ fuel + 1)
    (hkv : (k, v) ∈ kvs) : (serializeValue k).length ≤ fuel ∧ (serializeValue v).length ≤ fuel := by
  have hle := length_item_le .map serializePair (serializeValue_map kvs) hfuel hkv
  have hpair : serializePair (k, v) = serializeValue k ++ serializeValue v := rfl
  rw [hpair, length_append] at hle
  constructor <;> omega

theorem length_field_le {fields : List (String × Value)}
    (hfuel : (serializeValue (.struct fields)).length ≤ fuel + 1)
    (hfield : (name, v) ∈ fields) : (serializeValue v).length ≤ fuel := by
  have hle := length_item_le .struct serializeField (serializeValue_struct fields) hfuel hfield
  have hbytes : serializeField (name, v) = sizedBytes (textBytes name) ++ serializeValue v := rfl
  rw [hbytes, length_append] at hle
  omega

end Nested

theorem readValue_serializeValue (h : codable v = true) (hfuel : (serializeValue v).length ≤ fuel)
    (rest : Bytes) :
    readValue fuel (serializeValue v ++ rest) = .ok (v, rest) := by
  induction fuel generalizing v rest with
  | zero => exact absurd hfuel (Nat.not_le.mpr (serializeValue_pos v))
  | succ fuel ih =>
    cases v with
    | null => rfl
    | bool b => cases b <;> rfl
    | int64 x => exact readValue_fixed (k := 8) (fun _ => rfl) x.toUInt64.toNat_lt (by simp) rest
    | int32 x => exact readValue_fixed (k := 4) (fun _ => rfl) x.toUInt32.toNat_lt (by simp) rest
    | int16 x => exact readValue_fixed (k := 2) (fun _ => rfl) x.toUInt16.toNat_lt (by simp) rest
    | int8 x => exact readValue_byte (fun _ => rfl) x.toUInt8.toNat_lt (by simp) rest
    | uint64 x => exact readValue_fixed (k := 8) (fun _ => rfl) x.toNat_lt (by simp) rest
    | uint32 x => exact readValue_fixed (k := 4) (fun _ => rfl) x.toNat_lt (by simp) rest
    | uint16 x => exact readValue_fixed (k := 2) (fun _ => rfl) x.toNat_lt (by simp) rest
    | uint8 x => exact readValue_byte (fun _ => rfl) x.toNat_lt (by simp) rest
    | int128 x | uint128 x => exact readValue_fixed (k := 16) (fun _ => rfl) x.isLt (by simp) rest
    | double bits => exact readValue_fixed (k := 8) (fun _ => rfl) bits.toNat_lt (by simp) rest
    | float bits => exact readValue_fixed (k := 4) (fun _ => rfl) bits.toNat_lt (by simp) rest
    | string s =>
      have htag : readPayload (readValue fuel) 13 =
          (readText "eof reading string data").bind fun s => .pure (.string s) := rfl
      have hbytes : serializeValue (.string s) = 13 :: sizedBytes (textBytes s) := rfl
      rw [hbytes, cons_append, readValue_cons, htag,
        bind_ok (readText_sizedBytes (of_decide_eq_true h) rest)]
      rfl
    | blob bytes =>
      have htag : readPayload (readValue fuel) 14 =
          (readSized "eof reading blob data").bind fun bytes => .pure (.blob bytes) := rfl
      have hbytes : serializeValue (.blob bytes) = 14 :: sizedBytes bytes := rfl
      rw [hbytes, cons_append, readValue_cons, htag,
        bind_ok (readSized_sizedBytes (of_decide_eq_true h) rest)]
      rfl
    | date days => exact readValue_fixed (k := 4) (fun _ => rfl) days.toUInt32.toNat_lt (by simp) rest
    | timestamp t | timestampTz t | timestampNs t | timestampMs t | timestampSec t =>
      exact readValue_fixed (k := 8) (fun _ => rfl) t.toUInt64.toNat_lt (by simp) rest
    | interval months days micros =>
      have htag : readPayload (readValue fuel) 21 =
          (Reader.le eofValue 4).bind fun months => (Reader.le eofValue 4).bind fun days =>
            fixedPayload 8 fun micros =>
              .interval (UInt32.ofNat months).toInt32 (UInt32.ofNat days).toInt32
                (UInt64.ofNat micros).toInt64 := rfl
      have hbytes : serializeValue (.interval months days micros) =
          21 :: (toLe 4 months.toUInt32.toNat ++
            (toLe 4 days.toUInt32.toNat ++ toLe 8 micros.toUInt64.toNat)) := rfl
      rw [hbytes, cons_append, readValue_cons, htag, append_assoc, append_assoc,
        bind_ok (le_toLe (k := 4) months.toUInt32.toNat_lt _),
          bind_ok (le_toLe (k := 4) days.toUInt32.toNat_lt _),
        fixedPayload_toLe (k := 8) micros.toUInt64.toNat_lt]
      simp
    | internalID tableId offset =>
      have htag : readPayload (readValue fuel) 22 = (Reader.le eofValue 8).bind fun tableId =>
            fixedPayload 8 fun offset => .internalID (.ofNat tableId) (.ofNat offset) := rfl
      have hbytes : serializeValue (.internalID tableId offset) =
          22 :: (toLe 8 tableId.toNat ++ toLe 8 offset.toNat) := rfl
      rw [hbytes, cons_append, readValue_cons, htag, append_assoc,
        bind_ok (le_toLe (k := 8) tableId.toNat_lt _),
          fixedPayload_toLe (k := 8) offset.toNat_lt]
      simp
    | json => exact readValue_json h rest
    | dTime micros =>
      exact readValue_fixed (k := 8) (fun _ => rfl) micros.toUInt64.toNat_lt (by simp) rest
    | union tag v =>
      have hboth := and_eq_true_of_decide h
      refine readValue_union hboth.1 (ih hboth.2 ?_) rest
      have hbytes : serializeValue (.union tag v) =
          29 :: (sizedBytes (textBytes tag) ++ serializeValue v) := rfl
      rw [hbytes, length_cons, length_append] at hfuel
      omega
    | list vs =>
      have hboth := and_eq_true_of_decide h
      exact readValue_items .list serializeValue (readValue fuel) (serializeValue_list vs) rfl hboth.1
        (fun v hv => ih ((codableValues_iff vs).mp hboth.2 v hv)
          (length_item_le .list serializeValue (serializeValue_list vs) hfuel hv)) rest
    | map kvs =>
      have hboth := and_eq_true_of_decide h
      refine readValue_items .map serializePair (readPair fuel) (serializeValue_map kvs) rfl
        hboth.1 ?_ rest
      rintro ⟨k, v⟩ hkv
      have hpair := (Bool.and_eq_true _ _).mp ((codablePairs_iff kvs).mp hboth.2 (k, v) hkv)
      obtain ⟨hk, hv⟩ := length_pair_le hfuel hkv
      exact readPair_serializePair (ih hpair.1 hk) (ih hpair.2 hv)
    | struct fields =>
      have hboth := and_eq_true_of_decide h
      refine readValue_items .struct serializeField (readField fuel) (serializeValue_struct fields)
        rfl hboth.1 ?_ rest
      rintro ⟨name, v⟩ hfield
      have hpair := and_eq_true_of_decide ((codableFields_iff fields).mp hboth.2 (name, v) hfield)
      exact readField_serializeField hpair.1 (ih hpair.2 (length_field_le hfuel hfield))

end Decoding

/-- A cell as it is read from its mirror: null if its bytes cannot be read. -/
def mirrored [TextDecoding] (v : Value) : Value :=
  match readValue (serializeValue v).length (serializeValue v) with
  | .ok (v, _) => v
  | .error _ => .null

end Akar
