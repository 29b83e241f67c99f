import Akar.ValueCodec
import Mathlib.Data.List.DropRight

namespace Akar

open ByteCodec List

inductive CompressionType where
  | uncompressed | constant | oneValue | boolean | integerBitpacking | stringDictionary | float
  | listDelta
  deriving DecidableEq, Repr

inductive PhysicalTypeID where
  | any | bool | int64 | int32 | int16 | int8 | uint64 | uint32 | uint16 | uint8 | int128
  | double | float | interval
  | string | struct | list
  deriving DecidableEq, Repr

/-- The count of the bytes that matter, and those: the zero bytes at the high end go, but one byte
is always taken, so an empty payload is out of range. -/
def compressIntegerImpl (valueBytes : Bytes) : Option Bytes :=
  let significant := (valueBytes.rdropWhile (· = 0)).length
  let used := max significant 1
  if used ≤ valueBytes.length then some (UInt8.ofNat used :: valueBytes.take used) else none

def decompressIntegerImpl (data : Bytes) (originalSize : Nat) : Bytes := match data with
  | [] => replicate originalSize 0
  | count :: bytes =>
    let copy := min (min count.toNat originalSize) bytes.length
    bytes.take copy ++ replicate (originalSize - copy) 0

/-- Integers and floats are packed in the columns of a fixed width of at most 8 bytes. -/
def packs (valueSize : Nat) : Bool := 0 < valueSize && valueSize ≤ 8

def compressSerializedValue (compression : CompressionType) (raw : Bytes) (valueSize : Nat) :
    Option Bytes :=
  match raw with
  | [] => some []
  | tag :: payload =>
    match compression, packs valueSize with
    | .integerBitpacking, true => (compressIntegerImpl payload).map (tag :: ·)
    | .float, true => some (tag :: UInt8.ofNat payload.length :: payload)
    | _, _ => some (tag :: payload)

def decompressSerializedValue (compression : CompressionType) (compressed : Bytes)
    (valueSize : Nat) : Bytes :=
  match compressed with
  | [] => []
  | tag :: stored =>
    match compression, packs valueSize with
    | .integerBitpacking, true => tag :: decompressIntegerImpl stored valueSize
    | .float, true =>
      match stored with
      | [] => [tag]
      | len :: payload => tag :: payload.take (min len.toNat payload.length)
    | _, _ => tag :: stored

variable {bytes : Bytes}

theorem drop_significant {used : Nat} (h : (bytes.rdropWhile (· = 0)).length ≤ used) :
    bytes.drop used = replicate (bytes.length - used) 0 := by
  rw [eq_replicate_iff]
  refine ⟨length_drop, fun b hb => ?_⟩
  have hsplit : bytes.rdropWhile (· = 0) ++ bytes.rtakeWhile (· = 0) = bytes :=
    rdropWhile_append_rtakeWhile
  rw [← hsplit, drop_append, drop_eq_nil_of_le h, nil_append] at hb
  have hzero := mem_rtakeWhile_imp (mem_of_mem_drop hb)
  simpa using hzero

theorem decompress_compressIntegerImpl {packed : Bytes} {size : Nat}
    (h : compressIntegerImpl bytes = some packed)
    (hlen : bytes.length ≤ size) (hsize : size < 256) :
    decompressIntegerImpl packed size = bytes ++ replicate (size - bytes.length) 0 := by
  unfold compressIntegerImpl at h
  simp only [Option.ite_none_right_eq_some, Option.some.injEq] at h
  obtain ⟨hused, rfl⟩ := h
  have hzeros := drop_significant (Nat.le_max_left (bytes.rdropWhile (· = 0)).length 1)
  generalize max (bytes.rdropWhile (· = 0)).length 1 = used at hused hzeros
  have hcount : (UInt8.ofNat used).toNat = used := by
    exact Nat.mod_eq_of_lt (by omega)
  have htake := length_take_of_le hused
  have hcopy : min (min used size) used = used := by omega
  have hpad : size - used = (bytes.length - used) + (size - bytes.length) := by omega
  simp only [decompressIntegerImpl, hcount, htake, hcopy, take_take, Nat.min_self]
  rw [hpad, replicate_add, ← hzeros, ← append_assoc, take_append_drop]

end Akar
