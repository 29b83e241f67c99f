import Akar.WalFormat

namespace Akar

open ByteCodec List Option

def walMagic : Bytes := [65, 75, 65, 82]

def walVersion : Nat := 2

def walHeader : Bytes := walMagic ++ toLe 2 walVersion

/-- A record whose length field stands at `offset`, `none` where the field is cut. -/
def lenAt (offset : Nat) (data : Bytes) : Option Nat :=
  if data.length < offset + 4 then none else some (offset + 4 + ofLe ((data.drop offset).take 4))

def WalTag.payloadLen (data : Bytes) : WalTag → Option Nat
  | .insert => lenAt 9 data
  | .delete => some 17
  | .update | .columnWrite => lenAt 21 data
  | .updateFsm => some 10
  | .localWALData => lenAt 1 data
  | .checkpoint => some 1
  | .commit | .rollback | .createTable | .dropTable | .alterTable | .createIndex | .dropIndex
  | .createSequence =>
    some 9

def payloadLen (data : Bytes) : Option Nat :=
  (data.head?.bind WalTag.ofByte).bind (WalTag.payloadLen data)

/-- The checksum and the bytes of the next record, `none` where the loop breaks. -/
def nextFrame (bytes : Bytes) : Option (UInt32 × Bytes × Bytes) := if bytes.length < 4 then none
  else (payloadLen (bytes.drop 4)).bind fun n =>
    if (bytes.drop 4).length < n then none
    else some (UInt32.ofNat (ofLe (bytes.take 4)), (bytes.drop 4).take n, (bytes.drop 4).drop n)

/-- `parse_record` on a slice of its own: nothing is read from an empty one. -/
def parseSlice (record : Bytes) : Except IoError (List FileRecord) := match record with
  | [] => .ok []
  | b :: rest => (parseRecord b rest).map fun p => [p.1]

variable {n : Nat} {data : Bytes}

theorem lenAt_eq_some {offset : Nat} :
    lenAt offset data = some n ↔ offset + 4 ≤ data.length ∧ n =
      offset + 4 + ofLe ((data.drop offset).take 4) := by
  unfold lenAt
  split
  next h => exact iff_of_false nofun fun hn => absurd hn.1 (by omega)
  next h => simp [eq_comm, Nat.le_of_not_lt h]

theorem lenAt_congr {offset : Nat} {data' : Bytes} (h : lenAt offset data = some n)
    (hlen : offset + 4 ≤ data'.length)
    (heq : data'.take (offset + 4) = data.take (offset + 4)) : lenAt offset data' = some n := by
  obtain ⟨-, hn⟩ := lenAt_eq_some.mp h
  refine lenAt_eq_some.mpr ⟨hlen, ?_⟩
  have hfield : ∀ bs : Bytes, (bs.drop offset).take 4 = (bs.take (offset + 4)).drop offset := by
    intro bs
    rw [drop_take, Nat.add_sub_cancel_left]
  rw [hn, hfield, hfield, heq]

variable {t : WalTag}

section

variable (h : t.payloadLen data = some n)
include h

theorem WalTag.payloadLen_append (rest : Bytes) : t.payloadLen (data ++ rest) = some n := by
  have hfield : ∀ offset, lenAt offset data = some n → lenAt offset (data ++ rest) = some n := by
    intro offset h
    have hlen := (lenAt_eq_some.mp h).1
    exact lenAt_congr h (by rw [length_append]; omega) (take_append_of_le_length hlen)
  cases t <;> first | exact hfield _ h | exact h

theorem WalTag.payloadLen_take (hn : n ≤ data.length) : t.payloadLen (data.take n) = some n := by
  have hfield : ∀ offset, lenAt offset data = some n → lenAt offset (data.take n) = some n := by
    intro offset h
    have hle : offset + 4 ≤ n := by rw [(lenAt_eq_some.mp h).2]; exact Nat.le_add_right ..
    exact lenAt_congr h (by rw [length_take_of_le hn]; exact hle)
      (by rw [take_take, Nat.min_eq_left hle])
  cases t <;> first | exact hfield _ h | exact h

theorem WalTag.payloadLen_pos : 0 < n := by
  have hfield : ∀ offset, lenAt offset data = some n → 0 < n := by
    intro offset h
    rw [(lenAt_eq_some.mp h).2]
    omega
  cases t <;> first | exact hfield _ h | (cases h; decide)

end

theorem payloadLen_eq_some : payloadLen data = some n ↔
    ∃ b rest t, data = b :: rest ∧ WalTag.ofByte b = some t ∧ t.payloadLen data = some n := by
  cases data with
  | nil => simp [payloadLen]
  | cons b rest =>
    rw [payloadLen, head?_cons, bind_some, bind_eq_some_iff]
    constructor
    · rintro ⟨t, ht, hn⟩
      exact ⟨b, rest, t, rfl, ht, hn⟩
    · rintro ⟨b', rest', t, heq, ht, hn⟩
      cases heq
      exact ⟨t, ht, hn⟩

theorem payloadLen_append (h : payloadLen data = some n) (rest : Bytes) :
    payloadLen (data ++ rest) = some n := by
  obtain ⟨b, tail, t, rfl, ht, hn⟩ := payloadLen_eq_some.mp h
  exact payloadLen_eq_some.mpr ⟨b, tail ++ rest, t, rfl, ht, WalTag.payloadLen_append hn rest⟩

theorem payloadLen_take (h : payloadLen data = some n) (hn : n ≤ data.length) :
    payloadLen (data.take n) = some n := by
  obtain ⟨b, tail, t, rfl, ht, hlen⟩ := payloadLen_eq_some.mp h
  have htake : (b :: tail).take n = b :: tail.take (n - 1) := take_cons (WalTag.payloadLen_pos hlen)
  exact payloadLen_eq_some.mpr ⟨b, tail.take (n - 1), t, htake, ht, WalTag.payloadLen_take hlen hn⟩

theorem nextFrame_eq_some {bytes record rest : Bytes} {expected : UInt32} :
    nextFrame bytes = some (expected, record, rest) ↔ ∃ sum : Bytes, sum.length = 4 ∧
      expected = UInt32.ofNat (ofLe sum) ∧ bytes = sum ++ (record ++ rest) ∧ payloadLen record =
        some record.length := by
  unfold nextFrame
  constructor
  · intro h
    split at h
    · cases h
    next hlen =>
      obtain ⟨n, hn, h⟩ := bind_eq_some_iff.mp h
      obtain ⟨hle, h⟩ := ite_none_left_eq_some.mp h
      cases h
      have hle := Nat.le_of_not_lt hle
      refine ⟨bytes.take 4, length_take_of_le (Nat.le_of_not_lt hlen), rfl, ?_, ?_⟩
      · rw [take_append_drop, take_append_drop]
      · rw [length_take_of_le hle]
        exact payloadLen_take hn hle
  · rintro ⟨sum, hsum, rfl, rfl, hrecord⟩
    have hdrop : (sum ++ (record ++ rest)).drop 4 = record ++ rest := hsum ▸ drop_left
    have htake : (sum ++ (record ++ rest)).take 4 = sum := hsum ▸ take_left
    rw [if_neg (by rw [length_append]; omega), hdrop, htake, payloadLen_append hrecord, bind_some,
      if_neg (by rw [length_append]; omega), take_left, drop_left]

theorem nextFrame_length {bytes record rest : Bytes} {expected : UInt32}
    (h : nextFrame bytes = some (expected, record, rest)) : bytes.length =
      4 + record.length + rest.length := by
  obtain ⟨sum, hsum, -, rfl, -⟩ := nextFrame_eq_some.mp h
  rw [length_append, length_append]
  omega

section Crc

variable (crc32 : Bytes → UInt32)

/-- The records of a version 2 file after its header. A record with a wrong checksum is passed
over. -/
def scanV2 (bytes : Bytes) : Except IoError (List FileRecord) := match _h : nextFrame bytes with
  | none => .ok []
  | some (expected, record, rest) =>
    if crc32 record ≠ expected then scanV2 rest
    else match parseSlice record with
      | .error e => .error e
      | .ok rs => (scanV2 rest).map (rs ++ ·)
termination_by bytes.length
decreasing_by
  all_goals
    have := nextFrame_length _h
    omega

end Crc

def parseV1 (bytes : Bytes) : Except IoError (List FileRecord) := match bytes with
  | [] => .ok []
  | b :: tail =>
    match _h : parseRecord b tail with
    | .error e => .error e
    | .ok (r, rest) => (parseV1 rest).map (r :: ·)
termination_by bytes.length
decreasing_by
  unfold parseRecord at _h
  split at _h
  next t _ =>
    have := (reads_parseFields t).length_le _h
    rw [List.length_cons]
    omega
  · cases _h

def IsV2 (bytes : Bytes) : Prop :=
  6 ≤ bytes.length ∧ bytes.take 4 = walMagic ∧ 2 ≤ ofLe ((bytes.drop 4).take 2)

instance (bytes : Bytes) : Decidable (IsV2 bytes) := inferInstanceAs (Decidable (_ ∧ _ ∧ _))

/-- `WAL`; its byte count and its dirty mark play no part in what is written or read. -/
structure WAL where
  records : List FileRecord
  flushedCount : Nat
  needsHeader : Bool

def WAL.new : WAL := ⟨[], 0, true⟩

def loadFromDisk (crc32 : Bytes → UInt32) (file : Option Bytes) : Except IoError WAL := match file with
  | none | some [] => .ok .new
  | some bytes =>
    (if IsV2 bytes then scanV2 crc32 (bytes.drop 6) else parseV1 bytes).map fun records =>
      ⟨records, records.length, false⟩

/-- How the calls of one flush go: `writeFails i n` is an error of the `i`-th `write_all` after `n`
of its bytes. -/
inductive FlushIo where
  | succeeds
  | openFails
  | writeFails (call written : Nat)
  | syncFails
  deriving DecidableEq, Repr

/-- A `WAL` and its file; `synced` counts the bytes of the file that the last good `sync_data`
covered. -/
structure WalOnDisk extends WAL where
  file : Option Bytes
  synced : Nat

namespace WalOnDisk

section Flush

variable (crc32 : Bytes → UInt32)

def new : WalOnDisk := ⟨.new, none, 0⟩

def bytes (s : WalOnDisk) : Bytes := s.file.getD []

def append (s : WalOnDisk) (r : FileRecord) : WalOnDisk := { s with records := s.records ++ [r] }

def recordWrites (r : FileRecord) : List Bytes := [le32 (crc32 r.payload), r.payload]

def writes (s : WalOnDisk) : List Bytes :=
  (if s.needsHeader then [walMagic, toLe 2 walVersion] else []) ++
    (s.records.drop s.flushedCount).flatMap (recordWrites crc32)

/-- Every write went through: the header is not written again and the records count as flushed,
before the sync. -/
def written (s : WalOnDisk) : WalOnDisk := { s with
    flushedCount := s.records.length
    needsHeader := false
    file := some (s.bytes ++ (s.writes crc32).flatten) }

def sync (s : WalOnDisk) : WalOnDisk := { s with synced := s.bytes.length }

/-- The second component tells whether the call returned `Ok`. -/
def flushToDisk (io : FlushIo) (s : WalOnDisk) : WalOnDisk × Bool :=
  if s.records.length ≤ s.flushedCount then (s, true)
  else match io with
    | .openFails => (s, false)
    | .writeFails call n =>
      match (s.writes crc32)[call]? with
      | some w =>
        ({ s with
            -- the mark is cleared after the second of the two header writes
            needsHeader := s.needsHeader && decide (call < 2)
            file := some (s.bytes ++ ((s.writes crc32).take call).flatten ++ w.take n) }, false)
      | none => ((s.written crc32).sync, true)
    | .syncFails => (s.written crc32, false)
    | .succeeds => ((s.written crc32).sync, true)

end Flush

end WalOnDisk

end Akar
