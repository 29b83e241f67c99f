import Mathlib.Algebra.Group.Nat.Defs
import Mathlib.Data.List.Basic

namespace Akar

/-- A dynamically typed cell. Floats are kept as their bits and JSON as its text. -/
inductive Value where
  | null
  | bool (b : Bool)
  | int64 (x : Int64)
  | int32 (x : Int32)
  | int16 (x : Int16)
  | int8 (x : Int8)
  | uint64 (x : UInt64)
  | uint32 (x : UInt32)
  | uint16 (x : UInt16)
  | uint8 (x : UInt8)
  | int128 (x : BitVec 128)
  | double (bits : UInt64)
  | float (bits : UInt32)
  | string (s : String)
  | blob (bytes : List UInt8)
  | date (days : Int32)
  | timestamp (micros : Int64)
  | timestampTz (micros : Int64)
  | timestampNs (t : Int64)
  | timestampMs (t : Int64)
  | timestampSec (t : Int64)
  | interval (months days : Int32) (micros : Int64)
  | internalID (tableId offset : UInt64)
  | uint128 (x : BitVec 128)
  | json (text : String)
  | dTime (micros : Int64)
  | union (tag : String) (v : Value)
  | list (vs : List Value)
  | map (kvs : List (Value × Value))
  | struct (fields : List (String × Value))

inductive LogicalTypeID where
  | any | node | rel | recursiveRel | serial | bool | int64 | int32 | int16 | int8
  | uint64 | uint32 | uint16 | uint8 | int128 | double | float | date | timestamp
  | timestampSec | timestampMs | timestampNs | timestampTz | interval | decimal
  | internalID | uint128 | json | time | string | blob | list | array | struct | map
  | union | uuid
  deriving DecidableEq, Repr

namespace Value

def isNull : Value → Bool
  | null => true
  | _ => false

@[simp] theorem isNull_null : isNull null = true := rfl

/-- The offset reading `replay_data_record` and the edge undo apply to an endpoint. -/
def asU64 : Value → Option UInt64
  | uint64 x => some x
  | int64 x => if 0 ≤ x then some x.toUInt64 else none
  | _ => none

end Value

/-- What the standard library and `serde_json` make of text: the replacement for bytes that are not
UTF-8, and the JSON value read back from its text. -/
class TextDecoding where
  replaced : List UInt8 → String
  parseJson : String → Except String String

/-- Texts rendered by the standard library's `Display` for floats and `Debug` for the remaining
variants. -/
class Rendering extends TextDecoding where
  doubleText : UInt64 → String
  floatText : UInt32 → String
  debugText : Value → String

def pkValueToString [Rendering] : Value → String
  | .null => "null"
  | .bool b => toString b
  | .int64 x => toString x
  | .int32 x => toString x
  | .int16 x => toString x
  | .int8 x => toString x
  | .uint64 x => toString x
  | .uint32 x => toString x
  | .uint16 x => toString x
  | .uint8 x => toString x
  | .double bits => Rendering.doubleText bits
  | .float bits => Rendering.floatText bits
  | .string s => s
  | .date d => "Date(" ++ toString d ++ ")"
  | .timestamp t => "Timestamp(" ++ toString t ++ ")"
  | v => Rendering.debugText v

def beBytes (x : Nat) : Nat → List UInt8
  | 0 => []
  | n + 1 => UInt8.ofNat (x / 256 ^ n) :: beBytes x n

def escapeByte (b : UInt8) : List UInt8 := if b = 0 then [1, 1] else if b = 1 then [1, 2] else [b]

def terminated (bytes : List UInt8) : List UInt8 := bytes.flatMap escapeByte ++ [0]

def signFlipped (bits : Nat) (n : Nat) : List UInt8 :=
  beBytes ((bits + 2 ^ (8 * n - 1)) % 2 ^ (8 * n)) n

def floatOrdered (bits n : Nat) : List UInt8 :=
  if bits / 2 ^ (8 * n - 1) ≠ 0 then beBytes (2 ^ (8 * n) - 1 - bits) n
  else beBytes (bits + 2 ^ (8 * n - 1)) n

/-- `ArtKey::from_value`; `none` for nulls and for the compound types. -/
def artKeyFromValue : Value → Option (List UInt8)
  | .null => none
  | .bool b => some [if b then 1 else 0]
  | .int64 x => some (signFlipped x.toUInt64.toNat 8)
  | .int32 x => some (signFlipped x.toUInt32.toNat 4)
  | .int16 x => some (signFlipped x.toUInt16.toNat 2)
  | .int8 x => some (signFlipped x.toUInt8.toNat 1)
  | .uint64 x => some (beBytes x.toNat 8)
  | .uint32 x => some (beBytes x.toNat 4)
  | .uint16 x => some (beBytes x.toNat 2)
  | .uint8 x => some (beBytes x.toNat 1)
  | .double bits => some (floatOrdered bits.toNat 8)
  | .float bits => some (floatOrdered bits.toNat 4)
  | .string s => some (terminated s.toUTF8.toList)
  | .blob bytes => some (terminated bytes)
  | .date d => some (signFlipped d.toUInt32.toNat 4)
  | .timestamp t | .timestampTz t | .timestampNs t | .timestampMs t | .timestampSec t | .dTime t =>
    some (signFlipped t.toUInt64.toNat 8)
  | .int128 x => some (signFlipped x.toNat 16)
  | .interval months days micros =>
    some (signFlipped months.toUInt32.toNat 4 ++ signFlipped days.toUInt32.toNat 4 ++
      signFlipped micros.toUInt64.toNat 8)
  | .internalID tableId offset => some (beBytes tableId.toNat 8 ++ beBytes offset.toNat 8)
  | .uint128 x => some (beBytes x.toNat 16)
  | .json text => some (terminated text.toUTF8.toList)
  | .union tag v =>
    some (beBytes (tag.utf8ByteSize % 2 ^ 32) 4 ++ tag.toUTF8.toList ++ (artKeyFromValue v).getD [])
  | .list _ | .map _ | .struct _ => none

theorem artKeyFromValue_ne_nil (v : Value) : artKeyFromValue v ≠ some [] := by
  cases v <;> simp [artKeyFromValue, signFlipped, beBytes, floatOrdered, terminated]
  all_goals split <;> simp

end Akar
