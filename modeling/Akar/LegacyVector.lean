import Akar.DataChunks

namespace Akar

namespace LegacyVector

/-- What `as` makes of floats: truncated to an integer, and rounded to the shorter format. -/
structure FloatCasts where
  doubleToInt64 : UInt64 → Int64
  floatToInt64 : UInt32 → Int64
  doubleToFloat : UInt64 → UInt32

variable (casts : FloatCasts)

def asInt64 : Value → Option Int64
  | .int64 x => some x
  | .int32 x | .date x => some x.toInt64
  | .int16 x => some x.toInt64
  | .int8 x => some x.toInt64
  | .uint64 x => some x.toInt64
  | .uint32 x => some (Int64.ofNat x.toNat)
  | .uint16 x => some (Int64.ofNat x.toNat)
  | .uint8 x => some (Int64.ofNat x.toNat)
  | .double bits => some (casts.doubleToInt64 bits)
  | .float bits => some (casts.floatToInt64 bits)
  | .timestamp t | .timestampNs t | .timestampMs t | .timestampSec t | .timestampTz t | .dTime t =>
    some t
  | _ => none

def asInt32 : Value → Option Int32
  | .int32 x => some x
  | .int16 x => some x.toInt32
  | .int8 x => some x.toInt32
  | .int64 x => some x.toInt32
  | _ => none

def asUInt64 : Value → Option UInt64
  | .uint64 x => some x
  | .int64 x => some x.toUInt64
  | _ => none

def asDouble : Value → Option UInt64
  | .double bits => some bits
  | .float bits => some (UInt64.ofNat (widen bits.toNat))
  | .int64 x => some (UInt64.ofNat (intToDouble x.toInt))
  | _ => none

def asFloat : Value → Option UInt32
  | .float bits => some bits
  | .double bits => some (casts.doubleToFloat bits)
  | _ => none

def asBool : Value → Option Bool
  | .bool b => some b
  | _ => none

/-- A text is stored inline after the byte of its length. -/
def asString : Value → Option String
  | .string s => if s.utf8ByteSize ≤ 255 then some s else none
  | _ => none

/-- The cell of a new vector after `set_value`, read back through `from_legacy` and `get_value`. The
zeroes that a refused value leaves in place are not null, lists come back empty, and a type without
an Arrow array, or with an array of no fields, comes back as null. -/
def cell (t : PhysicalTypeID) (v : Value) : Value := if v.isNull then .null
  else
    match t with
    | .bool => .bool ((asBool v).getD false)
    | .int64 => .int64 ((asInt64 casts v).getD 0)
    | .int32 => .int32 ((asInt32 v).getD 0)
    | .uint64 => .uint64 ((asUInt64 v).getD 0)
    | .double => .double ((asDouble v).getD 0)
    | .float => .float ((asFloat casts v).getD 0)
    | .string => .string ((asString v).getD "")
    | .list => .list []
    | .any | .int16 | .int8 | .uint32 | .uint16 | .uint8 | .int128 | .interval | .struct => .null

/-- The values a vector gives back as they were. -/
def keeps : PhysicalTypeID → Value → Bool
  | _, .null => true
  | .bool, .bool _ | .int64, .int64 _ | .int32, .int32 _ | .uint64, .uint64 _ => true
  | .double, .double _ | .float, .float _ | .list, .list [] => true
  | .string, .string s => s.utf8ByteSize ≤ 255
  | _, _ => false

theorem cell_eq_self_iff {t : PhysicalTypeID} {v : Value} : cell casts t v = v ↔ keeps t v = true := by
  cases v with
  | null => simp [cell, keeps]
  | string s =>
    cases t <;> simp only [cell, keeps, Value.isNull, asString] <;> try simp
    constructor
    · intro h
      by_contra hlong
      rw [if_neg hlong] at h
      subst h
      exact hlong (by decide)
    · intro h
      simp [h]
  | list vs => cases vs <;> cases t <;> simp [cell, keeps, Value.isNull]
  | _ =>
    cases t <;> simp [cell, keeps, Value.isNull, asBool, asInt64, asInt32, asUInt64, asDouble,
    asFloat]

theorem keeps_cell (t : PhysicalTypeID) (v : Value) : keeps t (cell casts t v) = true := by
  unfold cell
  split
  next => rfl
  next =>
    cases t with
    | string =>
      show decide (((asString v).getD "").utf8ByteSize ≤ 255) = true
      unfold asString
      split
      next s _ => by_cases h : s.utf8ByteSize ≤ 255 <;> simp [h]
      next => decide
    | _ => rfl

end LegacyVector

end Akar
