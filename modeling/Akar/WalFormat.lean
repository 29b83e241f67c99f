import Akar.ByteCodec

namespace Akar

open ByteCodec List
open Reader (bind_ok)

inductive WalTag where
  | insert | delete | update | updateFsm | columnWrite | localWALData | commit | rollback | checkpoint
  | createTable | dropTable | alterTable | createIndex | dropIndex | createSequence
  deriving DecidableEq, Repr

def WalTag.byte : WalTag → UInt8
  | insert => 73
  | delete => 68
  | update => 85
  | updateFsm => 70
  | columnWrite => 87
  | localWALData => 76
  | commit => 67
  | rollback => 82
  | checkpoint => 75
  | createTable => 84
  | dropTable => 65
  | alterTable => 77
  | createIndex => 78
  | dropIndex => 88
  | createSequence => 81

def WalTag.all : List WalTag :=
  [insert, delete, update, updateFsm, columnWrite, localWALData, commit, rollback, checkpoint,
    createTable, dropTable, alterTable, createIndex, dropIndex, createSequence]

def WalTag.ofByte (b : UInt8) : Option WalTag := WalTag.all.find? (·.byte = b)

@[simp] theorem WalTag.ofByte_byte (t : WalTag) : WalTag.ofByte t.byte = some t := by
  cases t <;> rfl

/-- A log record as it is written, with the serialised payloads left as bytes. -/
inductive FileRecord where
  | insert (tableId : UInt64) (data : Bytes)
  | delete (tableId rowId : UInt64)
  | update (tableId rowId : UInt64) (column : UInt32) (data : Bytes)
  | updateFsm (pageIdx : UInt64) (isFree : Bool)
  | columnWrite (tableId : UInt64) (colId : UInt32) (pageId : UInt64) (data : Bytes)
  | localWALData (data : Bytes)
  | commit (transactionId : UInt64)
  | rollback (transactionId : UInt64)
  | checkpoint
  | createTable (tableId : UInt64)
  | dropTable (tableId : UInt64)
  | alterTable (tableId : UInt64)
  | createIndex (tableId : UInt64)
  | dropIndex (tableId : UInt64)
  | createSequence (tableId : UInt64)
  deriving DecidableEq, Repr

inductive IoError where
  | unexpectedEof
  | invalidData (msg : String)
  deriving DecidableEq, Repr

def le64 (x : UInt64) : Bytes := toLe 8 x.toNat

def le32 (x : UInt32) : Bytes := toLe 4 x.toNat

def leLen (data : Bytes) : Bytes := toLe 4 data.length

@[simp] theorem length_le64 (x : UInt64) : (le64 x).length = 8 := length_toLe ..

@[simp] theorem length_le32 (x : UInt32) : (le32 x).length = 4 := length_toLe ..

@[simp] theorem length_leLen (data : Bytes) : (leLen data).length = 4 := length_toLe ..

namespace FileRecord

def tag : FileRecord → WalTag
  | insert .. => .insert
  | delete .. => .delete
  | update .. => .update
  | updateFsm .. => .updateFsm
  | columnWrite .. => .columnWrite
  | localWALData .. => .localWALData
  | commit .. => .commit
  | rollback .. => .rollback
  | checkpoint => .checkpoint
  | createTable .. => .createTable
  | dropTable .. => .dropTable
  | alterTable .. => .alterTable
  | createIndex .. => .createIndex
  | dropIndex .. => .dropIndex
  | createSequence .. => .createSequence

def data : FileRecord → Bytes
  | insert _ data | update _ _ _ data | columnWrite _ _ _ data | localWALData data => data
  | _ => []

def fields : FileRecord → Bytes
  | insert tableId data => le64 tableId ++ leLen data
  | delete tableId rowId => le64 tableId ++ le64 rowId
  | update tableId rowId column data => le64 tableId ++ le64 rowId ++ le32 column ++ leLen data
  | updateFsm pageIdx isFree => le64 pageIdx ++ [if isFree then 1 else 0]
  | columnWrite tableId colId pageId data => le64 tableId ++ le32 colId ++ le64 pageId ++ leLen data
  | localWALData data => leLen data
  | commit transactionId | rollback transactionId => le64 transactionId
  | checkpoint => []
  | createTable tableId | dropTable tableId | alterTable tableId | createIndex tableId
  | dropIndex tableId
  | createSequence tableId => le64 tableId

def payload (r : FileRecord) : Bytes := r.tag.byte :: r.fields ++ r.data

def Sized (r : FileRecord) : Prop := r.data.length < 2 ^ 32

instance (r : FileRecord) : Decidable r.Sized := inferInstanceAs (Decidable (_ < _))

end FileRecord

def u64 : Reader IoError UInt64 := (Reader.le .unexpectedEof 8).bind fun n => .pure (UInt64.ofNat n)

def u32 : Reader IoError UInt32 := (Reader.le .unexpectedEof 4).bind fun n => .pure (UInt32.ofNat n)

def u8 : Reader IoError UInt8 := (Reader.le .unexpectedEof 1).bind fun n => .pure (UInt8.ofNat n)

def lenData : Reader IoError Bytes :=
  (Reader.le .unexpectedEof 4).bind fun n => .exactly .unexpectedEof n

theorem u64_append (x : UInt64) (rest : Bytes) : u64 (le64 x ++ rest) = .ok (x, rest) := by
  have hx : x.toNat % 256 ^ 8 = x.toNat := Nat.mod_eq_of_lt x.toNat_lt
  rw [u64, le64, bind_ok (Reader.le_append ..), hx]
  simp [Reader.pure]

theorem u32_append (x : UInt32) (rest : Bytes) : u32 (le32 x ++ rest) = .ok (x, rest) := by
  have hx : x.toNat % 256 ^ 4 = x.toNat := Nat.mod_eq_of_lt x.toNat_lt
  rw [u32, le32, bind_ok (Reader.le_append ..), hx]
  simp [Reader.pure]

theorem u8_cons (x : UInt8) (rest : Bytes) : u8 (x :: rest) = .ok (x, rest) := by
  simp [u8, Reader.le, Reader.bind, Reader.exactly, Reader.pure, ofLe]

theorem lenData_cut (data rest : Bytes) :
    lenData (leLen data ++ data ++ rest) =
      .ok (data.take (data.length % 2 ^ 32), data.drop (data.length % 2 ^ 32) ++ rest) := by
  have hle : data.length % 2 ^ 32 ≤ data.length := Nat.mod_le ..
  have hsplit : data ++ rest = data.take (data.length % 2 ^ 32) ++
      (data.drop (data.length % 2 ^ 32) ++ rest) := by
    rw [← append_assoc, take_append_drop]
  rw [lenData, leLen, append_assoc, bind_ok (Reader.le_append ..), hsplit]
  exact Reader.exactly_append _ _ _ (by rw [length_take]; exact Nat.min_eq_left hle)

theorem lenData_append {data : Bytes} (h : data.length < 2 ^ 32) (rest : Bytes) :
    lenData (leLen data ++ data ++ rest) = .ok (data, rest) := by
  rw [lenData_cut, Nat.mod_eq_of_lt h, take_length, drop_length, nil_append]

def hexDigit (n : Nat) : Char := if n < 10 then Char.ofNat (48 + n) else Char.ofNat (87 + n)

def unknownTag (b : UInt8) : IoError :=
  .invalidData ("WAL: unknown record tag byte: 0x" ++
    String.ofList [hexDigit (b.toNat / 16), hexDigit (b.toNat % 16)])

def parseFields : WalTag → Reader IoError FileRecord
  | .insert => u64.bind fun tableId => lenData.bind fun data => .pure (.insert tableId data)
  | .delete => u64.bind fun tableId => u64.bind fun rowId => .pure (.delete tableId rowId)
  | .update =>
    u64.bind fun tableId => u64.bind fun rowId => u32.bind fun column => lenData.bind fun data =>
      .pure (.update tableId rowId column data)
  | .updateFsm => u64.bind fun pageIdx => u8.bind fun isFree => .pure (.updateFsm pageIdx (isFree != 0))
  | .columnWrite =>
    u64.bind fun tableId => u32.bind fun colId => u64.bind fun pageId => lenData.bind fun data =>
      .pure (.columnWrite tableId colId pageId data)
  | .localWALData => lenData.bind fun data => .pure (.localWALData data)
  | .commit => u64.bind fun transactionId => .pure (.commit transactionId)
  | .rollback => u64.bind fun transactionId => .pure (.rollback transactionId)
  | .checkpoint => .pure .checkpoint
  | .createTable => u64.bind fun tableId => .pure (.createTable tableId)
  | .dropTable => u64.bind fun tableId => .pure (.dropTable tableId)
  | .alterTable => u64.bind fun tableId => .pure (.alterTable tableId)
  | .createIndex => u64.bind fun tableId => .pure (.createIndex tableId)
  | .dropIndex => u64.bind fun tableId => .pure (.dropIndex tableId)
  | .createSequence => u64.bind fun tableId => .pure (.createSequence tableId)

def parseRecord (b : UInt8) : Reader IoError FileRecord := fun rest =>
  match WalTag.ofByte b with
  | some tag => parseFields tag rest
  | none => .error (unknownTag b)

variable {r : FileRecord}

theorem parseFields_fields (h : r.Sized) (rest : Bytes) :
    parseFields r.tag (r.fields ++ r.data ++ rest) = .ok (r, rest) := by
  cases r with
  | insert tableId data =>
    have hlen : data.length < 2 ^ 32 := h
    simp only [FileRecord.fields, FileRecord.data, FileRecord.tag, parseFields, append_assoc]
    rw [bind_ok (u64_append ..), ← append_assoc, bind_ok (lenData_append hlen rest)]
    rfl
  | delete =>
    simp only [FileRecord.fields, FileRecord.data, FileRecord.tag, parseFields, append_assoc]
    rw [bind_ok (u64_append ..), bind_ok (u64_append ..)]
    rfl
  | update tableId rowId column data =>
    have hlen : data.length < 2 ^ 32 := h
    simp only [FileRecord.fields, FileRecord.data, FileRecord.tag, parseFields, append_assoc]
    rw [bind_ok (u64_append ..), bind_ok (u64_append ..), bind_ok (u32_append ..),
      ← append_assoc, bind_ok (lenData_append hlen rest)]
    rfl
  | updateFsm pageIdx isFree =>
    simp only [FileRecord.fields, FileRecord.data, FileRecord.tag, parseFields, append_assoc]
    rw [bind_ok (u64_append ..), singleton_append, bind_ok (u8_cons ..)]
    cases isFree <;> rfl
  | columnWrite tableId colId pageId data =>
    have hlen : data.length < 2 ^ 32 := h
    simp only [FileRecord.fields, FileRecord.data, FileRecord.tag, parseFields, append_assoc]
    rw [bind_ok (u64_append ..), bind_ok (u32_append ..), bind_ok (u64_append ..),
      ← append_assoc, bind_ok (lenData_append hlen rest)]
    rfl
  | localWALData data =>
    have hlen : data.length < 2 ^ 32 := h
    simp only [FileRecord.fields, FileRecord.data, FileRecord.tag, parseFields]
    rw [bind_ok (lenData_append hlen rest)]
    rfl
  | checkpoint => rfl
  | commit x | rollback x | createTable x | dropTable x | alterTable x | createIndex x | dropIndex x
  | createSequence =>
    simp only [FileRecord.fields, FileRecord.data, FileRecord.tag, parseFields, append_assoc]
    rw [bind_ok (u64_append ..)]
    rfl

theorem reads_u64 : Reader.Reads (fun _ => True) u64 :=
  (Reader.reads_le _ _).bind fun _ _ => Reader.reads_pure trivial

theorem reads_u32 : Reader.Reads (fun _ => True) u32 :=
  (Reader.reads_le _ _).bind fun _ _ => Reader.reads_pure trivial

theorem reads_u8 : Reader.Reads (fun _ => True) u8 :=
  (Reader.reads_le _ _).bind fun _ _ => Reader.reads_pure trivial

theorem reads_lenData : Reader.Reads (fun data => data.length < 2 ^ 32) lenData := by
  refine (Reader.reads_le _ _).bind fun n hn bs data rest h => ?_
  obtain ⟨hlen, hused⟩ := Reader.reads_exactly _ _ bs data rest h
  exact ⟨hlen ▸ hn, hused⟩

theorem reads_parseFields (t : WalTag) : (parseFields t).Reads fun r => r.tag = t ∧ r.Sized := by
  have hend : ∀ {r : FileRecord}, r.tag = t → r.Sized →
      Reader.Reads (fun r => r.tag = t ∧ r.Sized) (Reader.pure r : Reader IoError FileRecord) :=
    fun ht hs => Reader.reads_pure ⟨ht, hs⟩
  have hnone := Nat.two_pow_pos 32
  cases t with
  | insert => exact reads_u64.bind fun _ _ => reads_lenData.bind fun _ hs => hend rfl hs
  | delete => exact reads_u64.bind fun _ _ => reads_u64.bind fun _ _ => hend rfl hnone
  | update =>
    exact reads_u64.bind fun _ _ => reads_u64.bind fun _ _ => reads_u32.bind fun _ _ =>
      reads_lenData.bind fun _ hs => hend rfl hs
  | updateFsm => exact reads_u64.bind fun _ _ => reads_u8.bind fun _ _ => hend rfl hnone
  | columnWrite =>
    exact reads_u64.bind fun _ _ => reads_u32.bind fun _ _ => reads_u64.bind fun _ _ =>
      reads_lenData.bind fun _ hs => hend rfl hs
  | localWALData => exact reads_lenData.bind fun _ hs => hend rfl hs
  | checkpoint => exact hend rfl hnone
  | commit | rollback | createTable | dropTable | alterTable | createIndex | dropIndex
  | createSequence =>
    exact reads_u64.bind fun _ _ => hend rfl hnone

theorem parseRecord_payload (h : r.Sized) (rest : Bytes) :
    parseRecord r.tag.byte (r.fields ++ r.data ++ rest) = .ok (r, rest) := by
  rw [parseRecord, WalTag.ofByte_byte]
  exact parseFields_fields h rest

end Akar
