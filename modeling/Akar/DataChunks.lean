import Akar.Comparison
import Akar.Compression

namespace Akar

open List

namespace PhysicalTypeID

def kind : PhysicalTypeID → ValueKind
  | any => .null
  | bool => .bool
  | int64 => .int64
  | int32 => .int32
  | int16 => .int16
  | int8 => .int8
  | uint64 => .uint64
  | uint32 => .uint32
  | uint16 => .uint16
  | uint8 => .uint8
  | int128 => .int128
  | double => .double
  | float => .float
  | interval => .interval
  | string => .string
  | struct => .struct
  | list => .list

def fits (t : PhysicalTypeID) (v : Value) : Bool := v.isNull || v.kind = t.kind

def readable : PhysicalTypeID → Bool
  | int64 | uint64 | int32 | double | float | bool | string | list | struct => true
  | _ => false

def read (t : PhysicalTypeID) (v : Value) : Value := if t.readable then v else .null

end PhysicalTypeID

theorem Value.eq_null {v : Value} (h : v.isNull = true) : v = .null := by
  cases v <;> first | rfl | cases h

/-- A list of chunks with one schema and no selection vectors, each as its rows. -/
structure DataChunks where
  fieldTypes : List PhysicalTypeID
  fieldNames : List String
  chunks : List (List (List Value))
  typed : ∀ chunk ∈ chunks, ∀ row ∈ chunk, List.Forall₂ (fun t v => t.fits v = true) fieldTypes row

namespace DataChunks

def numFields (b : DataChunks) : Nat := b.fieldTypes.length

def rows (b : DataChunks) : List (List Value) := b.chunks.flatten

def totalRows (b : DataChunks) : Nat := (b.chunks.map List.length).sum

/-- `ChunkAccessor::resolve`: the chunk that holds a global row index, and the row in it. -/
def resolveRow : List (List (List Value)) → Nat → Option (List Value)
  | [], _ => none
  | chunk :: chunks, row =>
    if row < chunk.length then chunk[row]? else resolveRow chunks (row - chunk.length)

def value (b : DataChunks) (col row : Nat) : Value :=
  match b.fieldTypes[col]?, resolveRow b.chunks row with
  | some t, some r => t.read ((r[col]?).getD .null)
  | _, _ => .null

theorem resolveRow_eq (chunks : List (List (List Value))) (row : Nat) :
    resolveRow chunks row = chunks.flatten[row]? := by
  induction chunks generalizing row with
  | nil => rfl
  | cons chunk chunks ih =>
    rw [resolveRow, flatten_cons]
    split
    next h => rw [getElem?_append_left h]
    next h => rw [getElem?_append_right (by omega), ih]

theorem resolveRow_rows (b : DataChunks) (row : Nat) : resolveRow b.chunks row = b.rows[row]? :=
  resolveRow_eq ..

theorem totalRows_eq (b : DataChunks) : b.totalRows = b.rows.length := by
  rw [rows, length_flatten]
  rfl

variable {b : DataChunks} {row : List Value}

theorem row_typed (h : row ∈ b.rows) : Forall₂ (fun t v => t.fits v = true) b.fieldTypes row := by
  obtain ⟨chunk, hchunk, hrow⟩ := mem_flatten.mp h
  exact b.typed chunk hchunk row hrow

variable {col : Nat} {t : PhysicalTypeID}

theorem cell_fits {v : Value} (h : row ∈ b.rows) (ht : b.fieldTypes[col]? = some t)
    (hv : row[col]? = some v) :
    t.fits v = true := by
  have hforall := forall₂_iff_get.mp (row_typed h)
  obtain ⟨hi, rfl⟩ := List.getElem?_eq_some_iff.mp ht
  obtain ⟨hj, rfl⟩ := List.getElem?_eq_some_iff.mp hv
  exact hforall.2 col hi hj

theorem cell_some (h : row ∈ b.rows) (hcol : col < b.numFields) : ∃ v, row[col]? = some v := by
  have hlen := (row_typed h).length_eq
  exact ⟨_, getElem?_eq_getElem (hlen ▸ hcol)⟩

theorem value_of_row {g : Nat} (ht : b.fieldTypes[col]? = some t) (h : b.rows[g]? = some row) :
    b.value col g = t.read ((row[col]?).getD .null) := by
  simp only [value, ht, resolveRow_rows, h]

theorem value_fits (ht : b.fieldTypes[col]? = some t) (g : Nat) :
    b.value col g = .null ∨ t.readable = true ∧ (b.value col g).kind = t.kind := by
  cases h : b.rows[g]? with
  | none => exact .inl (by simp only [value, ht, resolveRow_rows, h])
  | some row =>
    rw [value_of_row ht h, PhysicalTypeID.read]
    split
    next hread =>
      have hmem := mem_of_getElem? h
      obtain ⟨v, hv⟩ := cell_some hmem (List.getElem?_eq_some_iff.mp ht).1
      have hfits := cell_fits hmem ht hv
      rw [hv, Option.getD_some]
      rw [PhysicalTypeID.fits, Bool.or_eq_true, decide_eq_true_eq] at hfits
      exact hfits.imp Value.eq_null fun hkind => ⟨hread, hkind⟩
    next => exact .inl rfl

end DataChunks

end Akar
