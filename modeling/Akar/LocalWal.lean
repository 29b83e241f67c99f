import Akar.Slots
import Akar.WalFormat

namespace Akar

open ByteCodec List WalTag FileRecord

structure LocalWal where
  buffer : Bytes
  count : Nat
  size : Nat

namespace LocalWal

def new : LocalWal := ⟨[], 0, 0⟩

def recordBytes : FileRecord → Bytes
  | .insert tableId data => [WalTag.insert.byte] ++ le64 tableId ++ leLen data ++ data
  | .delete tableId rowId => [WalTag.delete.byte] ++ le64 tableId ++ le64 rowId
  | .update tableId rowId column data =>
    [WalTag.update.byte] ++ le64 tableId ++ le64 rowId ++ le32 column ++ leLen data ++ data
  | .updateFsm pageIdx isFree => [WalTag.updateFsm.byte] ++ le64 pageIdx ++ [if isFree then 1 else 0]
  | .columnWrite tableId colId pageId data =>
    [WalTag.columnWrite.byte] ++ le64 tableId ++ le32 colId ++ le64 pageId ++ leLen data ++ data
  | .localWALData data => [WalTag.localWALData.byte] ++ leLen data ++ data
  | .commit transactionId => [WalTag.commit.byte] ++ le64 transactionId
  | .rollback transactionId => [WalTag.rollback.byte] ++ le64 transactionId
  | .checkpoint => [WalTag.checkpoint.byte]
  | .createTable tableId => [WalTag.createTable.byte] ++ le64 tableId
  | .dropTable tableId => [WalTag.dropTable.byte] ++ le64 tableId
  | .alterTable tableId => [WalTag.alterTable.byte] ++ le64 tableId
  | .createIndex tableId => [WalTag.createIndex.byte] ++ le64 tableId
  | .dropIndex tableId => [WalTag.dropIndex.byte] ++ le64 tableId
  | .createSequence tableId => [WalTag.createSequence.byte] ++ le64 tableId

def recordSize : FileRecord → Nat
  | .insert _ data => 1 + 8 + 4 + data.length
  | .delete _ _ => 1 + 8 + 8
  | .update _ _ _ data => 1 + 8 + 8 + 4 + 4 + data.length
  | .updateFsm _ _ => 1 + 8 + 1
  | .columnWrite _ _ _ data => 1 + 8 + 4 + 8 + 4 + data.length
  | .localWALData data => 1 + 4 + data.length
  | .checkpoint => 1
  | _ => 1 + 8

def writeRecord (w : LocalWal) (r : FileRecord) : LocalWal :=
  ⟨w.buffer ++ recordBytes r, w.count + 1, w.size + recordSize r⟩

def logAll (rs : List FileRecord) : LocalWal := rs.foldl writeRecord new

theorem recordBytes_eq_payload (r : FileRecord) : recordBytes r = r.payload := by
  cases r <;> simp [recordBytes, payload, FileRecord.tag, fields, data]

theorem recordSize_eq_length (r : FileRecord) : recordSize r = (recordBytes r).length := by
  cases r <;> dsimp only [recordBytes, recordSize] <;>
    simp only [length_append, length_singleton, length_le64, length_le32, length_leLen]

/-- The counters of the local log are the number of records and of bytes it holds. -/
theorem logAll_counts (rs : List FileRecord) :
    (logAll rs).count = rs.length ∧ (logAll rs).size = (logAll rs).buffer.length := by
  have hfrom : ∀ w : LocalWal, w.size = w.buffer.length → (rs.foldl writeRecord w).count =
      w.count + rs.length ∧
      (rs.foldl writeRecord w).size = (rs.foldl writeRecord w).buffer.length := by
    induction rs with
    | nil => exact fun w h => ⟨rfl, h⟩
    | cons r rs ih =>
      intro w h
      have hstep : (writeRecord w r).size = (writeRecord w r).buffer.length := by
        simp [writeRecord, h, recordSize_eq_length]
      obtain ⟨hcount, hsize⟩ := ih _ hstep
      have hone : (writeRecord w r).count = w.count + 1 := rfl
      rw [foldl_cons, hcount, hone, length_cons]
      omega
  obtain ⟨hcount, hsize⟩ := hfrom new rfl
  exact ⟨by rw [logAll, hcount]; exact Nat.zero_add _, hsize⟩

theorem logAll_buffer (rs : List FileRecord) : (logAll rs).buffer = rs.flatMap payload := by
  have hfrom : ∀ w : LocalWal, (rs.foldl writeRecord w).buffer = w.buffer ++ rs.flatMap payload := by
    induction rs with
    | nil => simp
    | cons r rs ih =>
      intro w
      rw [foldl_cons, ih, writeRecord, recordBytes_eq_payload, flatMap_cons, append_assoc]
  exact hfrom new

end LocalWal

/-- The kinds `decode_wal_buffer` knows; any other tag ends the decoding. -/
def WalTag.decodable : WalTag → Bool
  | .insert | .delete | .update | .commit => true
  | _ => false

def decodeWalBuffer (buffer : Bytes) : Except IoError (List FileRecord) := match buffer with
  | [] => .ok []
  | b :: rest =>
    match (WalTag.ofByte b).filter (·.decodable) with
    | none => .ok []
    | some tag =>
      match _h : parseFields tag rest with
      | .error e => .error e
      | .ok (r, rest') => (decodeWalBuffer rest').map (r :: ·)
termination_by buffer.length
decreasing_by
  have := (reads_parseFields tag).length_le _h
  rw [List.length_cons]
  omega

variable {b : UInt8} {rest : Bytes} {t : WalTag}

theorem decodeWalBuffer_of_not_decodable (ht : WalTag.ofByte b = some t)
    (h : t.decodable = false) : decodeWalBuffer (b :: rest) = .ok [] := by
  rw [decodeWalBuffer, ht, Option.filter_some_neg (by simpa using h)]

variable {r : FileRecord}

theorem decodeWalBuffer_of_parse {rest' : Bytes}
    (ht : WalTag.ofByte b = some t) (hd : t.decodable = true)
    (h : parseFields t rest = .ok (r, rest')) :
    decodeWalBuffer (b :: rest) = (decodeWalBuffer rest').map (r :: ·) := by
  rw [decodeWalBuffer, ht, Option.filter_some_pos hd]
  split
  next heq => cases heq
  next heq =>
    cases heq
    split
    next he => rw [h] at he; cases he
    next he => rw [h] at he; cases he; rfl

theorem parseFields_decodable (hd : r.tag.decodable = true) (rest : Bytes) :
    ∃ r' rest', parseFields r.tag (r.fields ++ r.data ++ rest) = .ok (r', rest') ∧
      (r' = r → r.Sized) := by
  have hcut : ∀ data : Bytes, data.take (data.length % 2 ^ 32) = data → data.length < 2 ^ 32 := by
    intro data h
    have hlen := congrArg List.length h
    rw [length_take] at hlen
    omega
  cases r with
  | insert tableId data =>
    refine ⟨.insert tableId (data.take (data.length % 2 ^ 32)), data.drop (data.length % 2 ^ 32) ++
      rest, ?_,
      fun h => hcut data (FileRecord.insert.inj h).2⟩
    simp only [fields, FileRecord.data, FileRecord.tag, parseFields, append_assoc]
    rw [Reader.bind_ok (u64_append ..), ← append_assoc, Reader.bind_ok (lenData_cut ..)]
    rfl
  | delete tableId rowId =>
    have hs : (FileRecord.delete tableId rowId).Sized := Nat.two_pow_pos 32
    exact ⟨_, _, parseFields_fields hs rest, fun _ => hs⟩
  | update tableId rowId column data =>
    refine ⟨.update tableId rowId column (data.take (data.length % 2 ^ 32)),
      data.drop (data.length % 2 ^ 32) ++ rest, ?_, fun h => hcut data (FileRecord.update.inj h).2.2.2⟩
    simp only [fields, FileRecord.data, FileRecord.tag, parseFields, append_assoc]
    rw [Reader.bind_ok (u64_append ..), Reader.bind_ok (u64_append ..), Reader.bind_ok (u32_append ..),
      ← append_assoc, Reader.bind_ok (lenData_cut ..)]
    rfl
  | commit transactionId =>
    have hs : (FileRecord.commit transactionId).Sized := Nat.two_pow_pos 32
    exact ⟨_, _, parseFields_fields hs rest, fun _ => hs⟩
  | _ => cases hd

/-- What was logged is decoded again exactly when every record is an insert, a delete, an update or
a commit with data below 4 GiB. -/
theorem decodeWalBuffer_logAll_iff (rs : List FileRecord) :
    decodeWalBuffer (LocalWal.logAll rs).buffer = .ok rs ↔ ∀ r ∈ rs, r.tag.decodable = true ∧
      r.Sized := by
  rw [LocalWal.logAll_buffer]
  induction rs with
  | nil => simp [decodeWalBuffer]
  | cons r rs ih =>
    have hbytes : (r :: rs).flatMap payload =
        r.tag.byte :: (r.fields ++ r.data ++ rs.flatMap payload) := by
      simp [payload]
    rw [hbytes, forall_mem_cons]
    cases hd : r.tag.decodable with
    | false =>
      rw [decodeWalBuffer_of_not_decodable (ofByte_byte _) hd]
      refine iff_of_false nofun fun h => ?_
      cases h.1.1
    | true =>
      obtain ⟨r', rest', hparse, hsized⟩ := parseFields_decodable hd (rs.flatMap payload)
      constructor
      · intro h
        rw [decodeWalBuffer_of_parse (ofByte_byte _) hd hparse] at h
        obtain ⟨rs', hrest, h⟩ := bind_eq_ok.mp h
        obtain ⟨rfl, rfl⟩ := cons.inj (Except.ok.inj h)
        have hs := hsized rfl
        rw [parseFields_fields hs] at hparse
        cases hparse
        exact ⟨⟨rfl, hs⟩, ih.mp hrest⟩
      · rintro ⟨⟨_, hs⟩, hrest⟩
        rw [decodeWalBuffer_of_parse (ofByte_byte _) hd (parseFields_fields hs _), ih.mpr hrest]
        rfl

theorem decodeWalBuffer_drops_after_rollback :
    decodeWalBuffer (LocalWal.logAll [.insert 1 [9], .rollback 7, .delete 1 0]).buffer = .ok
    [.insert 1 [9]] := by
  have hs : (FileRecord.insert 1 [9]).Sized := by decide
  have hread := parseFields_fields hs ([rollback 7, .delete 1 0].flatMap payload)
  have hstop : decodeWalBuffer ([rollback 7, .delete 1 0].flatMap payload) = .ok [] :=
    decodeWalBuffer_of_not_decodable (ofByte_byte .rollback) rfl
  have hdecode := decodeWalBuffer_of_parse (ofByte_byte .insert) rfl hread
  rw [hstop] at hdecode
  exact hdecode

end Akar
