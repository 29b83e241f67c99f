import Akar.DataChunks

namespace Akar

open List

/-- `bits as f32` of a double: the nearest float, ties to even. A NaN comes out quiet. -/
def narrowMagnitude (m : Nat) : Nat :=
  if 2047 * 2 ^ 52 < m then 255 * 2 ^ 23 + (m % 2 ^ 52 / 2 ^ 29 ||| 2 ^ 22)
  else
    let exponent := m / 2 ^ 52
    let significand := if exponent = 0 then m else 2 ^ 52 + m % 2 ^ 52
    -- Below the exponent 897 the float is subnormal and loses more bits.
    let dropped := if 897 ≤ exponent then 29 else 29 + (897 - exponent)
    let quotient := significand / 2 ^ dropped
    let rest := significand % 2 ^ dropped
    let roundUp : Bool := 2 ^ dropped < 2 * rest ∨ (2 ^ dropped = 2 * rest ∧ quotient % 2 = 1)
    min (255 * 2 ^ 23) ((exponent - 897) * 2 ^ 23 + quotient + roundUp.toNat)

def narrow (bits : Nat) : Nat :=
  (if FloatFormat.binary64.negative bits then 2 ^ 31 else 0) +
    narrowMagnitude (FloatFormat.binary64.magnitude bits)

example : narrow 0x3FF8000000000000 = 0x3FC00000 ∧ narrow 0xC7F0000000000000 = 0xFF800000 ∧
    narrow 0x36A0000000000000 = 1 ∧ narrow 0x3690000000000000 = 0 := by decide

inductive DataType where
  | boolean | int64 | uint64 | int32 | float64 | float32 | utf8 | binary
  | list (item : DataType)
  | struct (fields : List (String × DataType))
  deriving BEq

section Arrays

variable [Rendering]

def keyName : Value → String
  | .string s => s
  | k => Rendering.debugText k

mutual

def inferSample : Value → DataType
  | .bool _ => .boolean
  | .uint64 _ => .uint64
  | .int32 _ | .uint32 _ => .int32
  | .double _ => .float64
  | .float _ => .float32
  | .string _ | .json _ | .interval .. => .utf8
  | .blob _ => .binary
  | .list vs => .list (inferArrowType vs)
  | .struct entries => .struct (inferFields entries)
  | .map entries => .struct (inferEntries entries)
  | .union _ v => inferSample v
  | _ => .int64

/-- The type of the first value that is not null. -/
def inferArrowType : List Value → DataType
  | [] => .int64
  | v :: vs => if v.isNull then inferArrowType vs else inferSample v

def inferFields : List (String × Value) → List (String × DataType)
  | [] => []
  | (k, v) :: entries => (k, inferSample v) :: inferFields entries

def inferEntries : List (Value × Value) → List (String × DataType)
  | [] => []
  | (k, v) :: entries => (keyName k, inferSample v) :: inferEntries entries

end

theorem exists_of_inferArrowType {values : List Value} (h : inferArrowType values ≠ .int64) :
    ∃ v ∈ values, v.isNull = false := by
  induction values with
  | nil => exact absurd rfl h
  | cons v vs ih =>
    cases hv : v.isNull with
    | false => exact ⟨v, mem_cons_self, hv⟩
    | true =>
      rw [inferArrowType, if_pos hv] at h
      obtain ⟨w, hw, hnull⟩ := ih h
      exact ⟨w, mem_cons_of_mem _ hw, hnull⟩

end Arrays

def listItems : Value → List Value
  | .list vs => vs
  | _ => []

def isKey (name : String) : Value → Bool
  | .string s => s = name
  | _ => false

def fieldValue (name : String) : Value → Value
  | .struct entries => ((entries.find? fun e => e.1 = name).map (·.2)).getD .null
  | .map entries => ((entries.find? fun e => isKey name e.1).map (·.2)).getD .null
  | _ => .null

mutual

/-- The values a value is made of, itself included and nulls not. -/
def Value.nodes : Value → Nat
  | .null => 0
  | .list vs => Value.nodesOf vs + 1
  | .struct entries => Value.fieldNodes entries + 1
  | .map entries => Value.entryNodes entries + 1
  | _ => 1

def Value.nodesOf : List Value → Nat
  | [] => 0
  | v :: vs => v.nodes + Value.nodesOf vs

def Value.fieldNodes : List (String × Value) → Nat
  | [] => 0
  | (_, v) :: entries => v.nodes + Value.fieldNodes entries

def Value.entryNodes : List (Value × Value) → Nat
  | [] => 0
  | (_, v) :: entries => v.nodes + Value.entryNodes entries

end

open Value (nodesOf fieldNodes entryNodes)

theorem Value.nodes_pos {v : Value} (h : v.isNull = false) : 0 < v.nodes := by
  cases v with
  | null => cases h
  | _ => simp [Value.nodes]

theorem nodesOf_append (vs ws : List Value) : nodesOf (vs ++ ws) = nodesOf vs + nodesOf ws := by
  induction vs with
  | nil => simp [nodesOf]
  | cons v vs ih => rw [cons_append, nodesOf, nodesOf, ih, Nat.add_assoc]

theorem nodes_le_fieldNodes {e : String × Value} {entries : List (String × Value)} (h : e ∈ entries) :
    e.2.nodes ≤ fieldNodes entries := by
  induction entries with
  | nil => cases h
  | cons d entries ih =>
    rw [fieldNodes]
    rcases mem_cons.mp h with rfl | h
    · exact Nat.le_add_right ..
    · exact (ih h).trans (Nat.le_add_left ..)

theorem nodes_le_entryNodes {e : Value × Value} {entries : List (Value × Value)} (h : e ∈ entries) :
    e.2.nodes ≤ entryNodes entries := by
  induction entries with
  | nil => cases h
  | cons d entries ih =>
    rw [entryNodes]
    rcases mem_cons.mp h with rfl | h
    · exact Nat.le_add_right ..
    · exact (ih h).trans (Nat.le_add_left ..)

theorem nodesOf_listItems_lt {v : Value} (h : v.isNull = false) : nodesOf (listItems v) < v.nodes := by
  cases v with
  | list vs =>
    rw [listItems, Value.nodes]
    exact Nat.lt_succ_self _
  | _ => exact Value.nodes_pos h

theorem nodes_fieldValue_lt {v : Value} (name : String) (h : v.isNull = false) :
    (fieldValue name v).nodes < v.nodes := by
  cases v with
  | struct entries =>
    rw [fieldValue, Value.nodes]
    cases he : entries.find? fun e => e.1 = name with
    | none => simp [Value.nodes]
    | some e => exact Nat.lt_succ_of_le (nodes_le_fieldNodes (mem_of_find?_eq_some he))
  | map entries =>
    rw [fieldValue, Value.nodes]
    cases he : entries.find? fun e => isKey name e.1 with
    | none => simp [Value.nodes]
    | some e => exact Nat.lt_succ_of_le (nodes_le_entryNodes (mem_of_find?_eq_some he))
  | _ => exact Value.nodes_pos h

/-- Values taken apart one by one have fewer nodes, if there is one that is not null. -/
theorem nodesOf_flatMap_lt {f : Value → List Value} {values : List Value}
    (hnull : nodesOf (f .null) = 0)
    (hf : ∀ v, v.isNull = false → nodesOf (f v) < v.nodes) (h : ∃ v ∈ values, v.isNull = false) :
    nodesOf (values.flatMap f) < nodesOf values := by
  have hle (v : Value) : nodesOf (f v) ≤ v.nodes := by
    cases hv : v.isNull with
    | false => exact (hf v hv).le
    | true => simp [Value.eq_null hv, hnull]
  have hall (vs : List Value) : nodesOf (vs.flatMap f) ≤ nodesOf vs := by
    induction vs with
    | nil => exact le_rfl
    | cons v vs ih =>
      rw [flatMap_cons, nodesOf_append, nodesOf]
      exact Nat.add_le_add (hle v) ih
  obtain ⟨v, hv, hnonnull⟩ := h
  obtain ⟨before, after, rfl⟩ := append_of_mem hv
  have hbefore := hall before
  have hafter := hall after
  have hone := hf v hnonnull
  simp only [flatMap_append, flatMap_cons, nodesOf_append, nodesOf]
  omega

def childValues (values : List Value) : List Value := values.flatMap listItems

def columnValues (name : String) (values : List Value) : List Value := values.map (fieldValue name)

theorem nodesOf_childValues_lt {values : List Value} (h : ∃ v ∈ values, v.isNull = false) :
    nodesOf (childValues values) < nodesOf values :=
  nodesOf_flatMap_lt rfl (fun _ => nodesOf_listItems_lt) h

theorem nodesOf_columnValues_lt {values : List Value} (name : String)
    (h : ∃ v ∈ values, v.isNull = false) :
    nodesOf (columnValues name values) < nodesOf values := by
  rw [columnValues, map_eq_flatMap]
  refine nodesOf_flatMap_lt ?_ (fun v hv => ?_) h
  · simp [nodesOf, fieldValue, Value.nodes]
  · simpa [nodesOf] using nodes_fieldValue_lt name hv

/-- An Arrow array by its type and the values that `convert_arrow_scalar` reads from it. -/
structure ArrowArray where
  dataType : DataType
  cells : List Value

namespace ArrowArray

def boolCell : Value → Value
  | .bool b => .bool b
  | _ => .null

def int64Cell : Value → Value
  | .int64 x => .int64 x
  | .int128 x | .uint128 x => .int64 (Int64.ofBitVec (x.setWidth 64))
  | .int32 x | .date x => .int64 x.toInt64
  | .uint64 x => .int64 x.toInt64
  | .timestamp t | .timestampNs t | .timestampMs t | .timestampSec t | .timestampTz t | .dTime t =>
    .int64 t
  | .internalID _ offset => .int64 offset.toInt64
  | _ => .null

def int32Cell : Value → Value
  | .int32 x => .int32 x
  | .int64 x => .int32 x.toInt32
  | _ => .null

def float64Cell : Value → Value
  | .double bits => .double bits
  | .float bits => .double (UInt64.ofNat (widen bits.toNat))
  | .int64 x => .double (UInt64.ofNat (intToDouble x.toInt))
  | _ => .null

def float32Cell : Value → Value
  | .float bits => .float bits
  | .double bits => .float (UInt32.ofNat (narrow bits.toNat))
  | _ => .null

def utf8Cell : Value → Value
  | .string s => .string s
  | .interval months days micros => .string s!"{months} months {days} days {micros} microseconds"
  | .json text => .string text
  | _ => .null

/-- The children of the array cut at the offsets of its lists. -/
def cutLists : List Value → List Value → List Value
  | [], _ => []
  | .list vs :: values, children =>
    .list (children.take vs.length) :: cutLists values (children.drop vs.length)
  | _ :: values, children => .null :: cutLists values children

def hasFields : Value → Bool
  | .struct _ | .map _ => true
  | _ => false

def structCell (fields : List (String × DataType)) (columns : List ArrowArray) (i : Nat)
    (v : Value) : Value :=
  if hasFields v then .struct (zipWith (fun f c => (f.1, c.cells.getD i .null)) fields
    columns) else .null

def ofNulls (n : Nat) : ArrowArray := ⟨.int64, replicate n .null⟩

theorem length_cutLists (values children : List Value) : (cutLists values children).length =
    values.length := by
  induction values generalizing children with
  | nil => rfl
  | cons v values ih => cases v <;> simp [cutLists, ih]

theorem cutLists_eq_self_iff {values children : List Value}
    (hlen : children.length = (childValues values).length) :
    cutLists values children = values ↔
      (∀ v ∈ values, v.isNull = true ∨ v.kind = .list) ∧ children = childValues values := by
  induction values generalizing children with
  | nil =>
    have hnil : children = [] := length_eq_zero_iff.mp hlen
    simp [cutLists, childValues, hnil]
  | cons v values ih =>
    cases v with
    | list vs =>
      have hrest : (children.drop vs.length).length = (childValues values).length := by
        rw [childValues, flatMap_cons, length_append] at hlen
        rw [length_drop, hlen]
        exact Nat.add_sub_cancel_left ..
      have hsplit : children = vs ++ childValues values ↔
          children.take vs.length = vs ∧ children.drop vs.length = childValues values := by
        constructor
        · rintro rfl
          exact ⟨take_left, drop_left⟩
        · rintro ⟨htake, hdrop⟩
          rw [← take_append_drop vs.length children, htake, hdrop]
      have hchildren : childValues (.list vs :: values) = vs ++ childValues values := rfl
      rw [cutLists, cons.injEq, Value.list.injEq, ih hrest, hchildren, hsplit, forall_mem_cons]
      simp only [Value.kind, or_true, true_and]
      tauto
    | null =>
      have hcut : cutLists (.null :: values) children = .null :: cutLists values children := by
        simp [cutLists]
      rw [hcut, cons.injEq, ih hlen, forall_mem_cons]
      simp only [Value.isNull, true_or, true_and]
      rfl
    | _ => simp [cutLists, Value.isNull, Value.kind]

theorem kind_of_mem_cutLists {values children : List Value} {v : Value}
    (h : v ∈ cutLists values children) :
    v.kind ≠ .map := by
  induction values generalizing children with
  | nil => cases h
  | cons w values ih =>
    cases w with
    | list vs =>
      rcases mem_cons.mp h with rfl | h
      · nofun
      · exact ih h
    | _ =>
      rw [cutLists] at h
      · rcases mem_cons.mp h with rfl | h
        · nofun
        · exact ih h
      · nofun

variable [Rendering]

/-- `arrow_array_from_values`. No value is read back from an array of unsigned integers or of bytes.
A struct array needs a field, and columns of the types of its sample. -/
def arrowArrayFromValues (values : List Value) : ArrowArray :=
  match _h : inferArrowType values with
  | .boolean => ⟨.boolean, values.map boolCell⟩
  | .int64 => ⟨.int64, values.map int64Cell⟩
  | .uint64 => ⟨.uint64, values.map fun _ => .null⟩
  | .int32 => ⟨.int32, values.map int32Cell⟩
  | .float64 => ⟨.float64, values.map float64Cell⟩
  | .float32 => ⟨.float32, values.map float32Cell⟩
  | .utf8 => ⟨.utf8, values.map utf8Cell⟩
  | .binary => ⟨.binary, values.map fun _ => .null⟩
  | .list _ =>
    let child := arrowArrayFromValues (childValues values)
    ⟨.list child.dataType, cutLists values child.cells⟩
  | .struct fields =>
    let columns := fields.map fun f => arrowArrayFromValues (columnValues f.1 values)
    if fields ≠ [] ∧ columns.map (·.dataType) == fields.map (·.2) then
      ⟨.struct fields, values.mapIdx (structCell fields columns)⟩
    else ofNulls values.length
termination_by nodesOf values
decreasing_by
  · exact nodesOf_childValues_lt (exists_of_inferArrowType (by rw [_h]; nofun))
  · exact nodesOf_columnValues_lt _ (exists_of_inferArrowType (by rw [_h]; nofun))

theorem length_cells (values : List Value) : (arrowArrayFromValues values).cells.length =
    values.length := by
  rw [arrowArrayFromValues]
  split
  case h_9 => exact length_cutLists ..
  case h_10 =>
    dsimp only
    split
    · exact length_mapIdx
    · exact length_replicate
  all_goals exact length_map _

/-- An array of lists gives back what is null or a list, if the array of all their items gives those
back. -/
theorem cells_list_iff {values : List Value} {item : DataType}
    (h : inferArrowType values = .list item) :
    (arrowArrayFromValues values).cells = values ↔ (∀ v ∈ values, v.isNull = true ∨ v.kind = .list) ∧
      (arrowArrayFromValues (childValues values)).cells = childValues values := by
  have hcells : (arrowArrayFromValues values).cells =
      cutLists values (arrowArrayFromValues (childValues values)).cells := by
    rw [arrowArrayFromValues]
    split <;> simp_all
  rw [hcells, cutLists_eq_self_iff (length_cells _)]

/-- Nothing is read back as a map. -/
theorem not_map_of_mem_cells {values : List Value} {v : Value}
    (h : v ∈ (arrowArrayFromValues values).cells) :
    v.kind ≠ .map := by
  rw [arrowArrayFromValues] at h
  split at h
  case h_9 => exact kind_of_mem_cutLists h
  case h_10 =>
    dsimp only at h
    split at h
    · obtain ⟨i, hi, rfl⟩ := mem_mapIdx.mp h
      unfold structCell
      split <;> nofun
    · rw [eq_of_mem_replicate h]
      nofun
  all_goals
    obtain ⟨w, -, rfl⟩ := mem_map.mp h
    cases w <;> nofun

end ArrowArray

open ArrowArray

def Value.physicalType : Value → PhysicalTypeID
  | .null => .any
  | .bool _ => .bool
  | .int64 _ | .date _ | .dTime _ => .int64
  | .timestamp _ | .timestampTz _ | .timestampNs _ | .timestampMs _ | .timestampSec _ => .int64
  | .int32 _ => .int32
  | .int16 _ => .int16
  | .int8 _ => .int8
  | .uint64 _ => .uint64
  | .uint32 _ => .uint32
  | .uint16 _ => .uint16
  | .uint8 _ => .uint8
  | .int128 _ | .uint128 _ => .int128
  | .double _ => .double
  | .float _ => .float
  | .interval .. => .interval
  | .string _ | .blob _ | .json _ => .string
  | .list _ => .list
  | .internalID .. | .map _ | .struct _ | .union .. => .struct

def valueInt64 : Value → Value
  | .int64 x => .int64 x
  | .int32 x | .date x => .int64 x.toInt64
  | .timestamp t | .timestampNs t | .timestampMs t | .timestampSec t | .timestampTz t | .dTime t =>
    .int64 t
  | _ => .null

/-- The builders that keep the values of their own kind only. -/
def ownKind (t : PhysicalTypeID) (v : Value) : Value := if t.fits v then v else .null

/-- `build_arrow_from_values`, as the values read back from the vector. -/
def buildArrowFromValues [Rendering] (t : PhysicalTypeID) (values : List Value) : List Value :=
  match t with
  | .int64 => values.map valueInt64
  | .float => values.map float32Cell
  | .bool | .int32 | .double | .string => values.map (ownKind t)
  | .list | .struct => (arrowArrayFromValues values).cells
  | .any | .int16 | .int8 | .uint64 | .uint32 | .uint16 | .uint8 | .int128 | .interval =>
    values.map fun _ => .null

def PhysicalTypeID.built : PhysicalTypeID → Bool
  | .bool | .int64 | .int32 | .double | .float | .string => true
  | _ => false

theorem map_eq_self_iff {f : Value → Value} {values : List Value} : values.map f = values ↔
    ∀ v ∈ values, f v = v := by
  constructor
  · intro h v hv
    exact map_inj_left.mp (h.trans (map_id _).symm) v hv
  · intro h
    exact (map_congr_left h).trans (map_id' _)

section Build

variable [Rendering] {t : PhysicalTypeID} {values : List Value}

theorem length_buildArrowFromValues : (buildArrowFromValues t values).length = values.length := by
  cases t <;> first | exact length_map _ | exact length_cells _

theorem buildArrowFromValues_eq_self_iff (ht : t.built = true) :
    buildArrowFromValues t values = values ↔ ∀ v ∈ values, t.fits v = true := by
  cases t with
  | bool | int64 | int32 | double | float | string =>
    rw [buildArrowFromValues, map_eq_self_iff]
    refine forall₂_congr fun v _ => ?_
    cases v <;> simp [ownKind, valueInt64, float32Cell, PhysicalTypeID.fits, PhysicalTypeID.kind,
      Value.kind, Value.isNull]
  | _ => cases ht

end Build

end Akar
