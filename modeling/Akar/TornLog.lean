import Akar.WalFile

namespace Akar

open ByteCodec List Option FileRecord

theorem payloadLen_payload {r : FileRecord} (h : r.Sized) : payloadLen r.payload =
    some r.payload.length := by
  refine payloadLen_eq_some.mpr ⟨r.tag.byte, r.fields ++ r.data, r.tag, rfl, WalTag.ofByte_byte _, ?_⟩
  have hfield : ∀ before data : Bytes, data.length < 2 ^ 32 →
      lenAt before.length (before ++ (leLen data ++ data)) =
        some (before ++ (leLen data ++ data)).length := by
    intro before data hdata
    have hlen := length_leLen data
    refine lenAt_eq_some.mpr ⟨by simp only [length_append]; omega, ?_⟩
    rw [drop_left, ← hlen, take_left, leLen, ofLe_toLe_of_lt hdata]
    simp only [length_append, length_toLe]
    omega
  cases r with
  | insert tableId data =>
    have hread := hfield (WalTag.insert.byte :: le64 tableId) data h
    simpa [payload, fields, FileRecord.data, FileRecord.tag, WalTag.payloadLen] using hread
  | update tableId rowId column data =>
    have hread := hfield (WalTag.update.byte :: (le64 tableId ++ le64 rowId ++ le32 column)) data h
    simpa [payload, fields, FileRecord.data, FileRecord.tag, WalTag.payloadLen] using hread
  | columnWrite tableId colId pageId data =>
    have hread := hfield (WalTag.columnWrite.byte :: (le64 tableId ++ le32 colId ++ le64 pageId)) data h
    simpa [payload, fields, FileRecord.data, FileRecord.tag, WalTag.payloadLen] using hread
  | localWALData data =>
    have hread := hfield [WalTag.localWALData.byte] data h
    simpa [payload, fields, FileRecord.data, FileRecord.tag, WalTag.payloadLen] using hread
  | _ =>
    simp [payload, fields, FileRecord.data, FileRecord.tag, WalTag.payloadLen]

theorem nextFrame_append {bytes record rest : Bytes} {expected : UInt32}
    (h : nextFrame bytes = some (expected, record, rest)) (more : Bytes) :
    nextFrame (bytes ++ more) = some (expected, record, rest ++ more) := by
  obtain ⟨sum, hsum, hexp, rfl, hlen⟩ := nextFrame_eq_some.mp h
  exact nextFrame_eq_some.mpr ⟨sum, hsum, hexp, by simp only [append_assoc], hlen⟩

section Crc

variable {crc32 : Bytes → UInt32} {bytes : Bytes}

theorem scanV2_stop (h : nextFrame bytes = none) : scanV2 crc32 bytes = .ok [] := by
  rw [scanV2]
  split
  · rfl
  next heq => rw [h] at heq; cases heq

theorem scanV2_nil : scanV2 crc32 [] = .ok [] := scanV2_stop rfl

variable {record rest : Bytes}

theorem scanV2_skip {expected : UInt32} (h : nextFrame bytes = some (expected, record, rest))
    (hcrc : crc32 record ≠ expected) : scanV2 crc32 bytes = scanV2 crc32 rest := by
  rw [scanV2]
  split
  next heq => rw [h] at heq; cases heq
  next heq =>
    rw [h] at heq
    cases heq
    exact if_pos hcrc

variable {rs : List FileRecord}

theorem scanV2_parse (h : nextFrame bytes = some (crc32 record, record, rest))
    (hparse : parseSlice record = .ok rs) : scanV2 crc32 bytes = (scanV2 crc32 rest).map (rs ++ ·) := by
  rw [scanV2]
  split
  next heq => rw [h] at heq; cases heq
  next heq =>
    rw [h] at heq
    cases heq
    rw [if_neg (not_not_intro rfl), hparse]

def frame (crc32 : Bytes → UInt32) (r : FileRecord) : Bytes := le32 (crc32 r.payload) ++ r.payload

theorem length_frame (r : FileRecord) : (frame crc32 r).length = 4 + r.payload.length := by
  rw [frame, length_append, length_le32]

variable {r : FileRecord}

theorem nextFrame_frame (h : r.Sized) (rest : Bytes) :
    nextFrame (frame crc32 r ++ rest) = some (crc32 r.payload, r.payload, rest) := by
  refine nextFrame_eq_some.mpr ⟨le32 (crc32 r.payload), length_le32 _, ?_, append_assoc ..,
    payloadLen_payload h⟩
  rw [le32, ofLe_toLe_of_lt (crc32 r.payload).toNat_lt, UInt32.ofNat_toNat]

theorem parseSlice_payload (h : r.Sized) : parseSlice r.payload = .ok [r] := by
  have hparse := parseRecord_payload h []
  rw [append_nil] at hparse
  have hslice : parseSlice r.payload = (parseRecord r.tag.byte (r.fields ++ r.data)).map fun p =>
      [p.1] := rfl
  rw [hslice, hparse]
  rfl

theorem scanV2_frame (h : r.Sized) (rest : Bytes) :
    scanV2 crc32 (frame crc32 r ++ rest) = (scanV2 crc32 rest).map (r :: ·) :=
  scanV2_parse (nextFrame_frame h rest) (parseSlice_payload h)

theorem nextFrame_take_eq_none (h : r.Sized) {j : Nat} (hj : j < (frame crc32 r).length) :
    nextFrame ((frame crc32 r).take j) = none := by
  cases hnext : nextFrame ((frame crc32 r).take j) with
  | none => rfl
  | some found =>
    obtain ⟨expected, record, rest⟩ := found
    have hwhole := nextFrame_append hnext ((frame crc32 r).drop j)
    have hframe : nextFrame (frame crc32 r ++ []) = some (crc32 r.payload, r.payload, []) :=
      nextFrame_frame h []
    rw [append_nil] at hframe
    rw [take_append_drop, hframe] at hwhole
    have hrest : rest ++ (frame crc32 r).drop j = [] := (congrArg (·.2.2) (some.inj hwhole)).symm
    have hdrop := drop_eq_nil_iff.mp (append_eq_nil_iff.mp hrest).2
    omega

theorem scanV2_frames (h : ∀ r ∈ rs, r.Sized) (rest : Bytes) :
    scanV2 crc32 (rs.flatMap (frame crc32) ++ rest) = (scanV2 crc32 rest).map (rs ++ ·) := by
  induction rs with
  | nil =>
    rw [flatMap_nil, nil_append]
    cases scanV2 crc32 rest <;> rfl
  | cons r rs ih =>
    obtain ⟨hr, hrs⟩ := forall_mem_cons.mp h
    rw [flatMap_cons, append_assoc, scanV2_frame hr, ih hrs]
    cases scanV2 crc32 rest <;> rfl

def fileEnd (crc32 : Bytes → UInt32) (rs : List FileRecord) : Nat :=
  6 + (rs.flatMap (frame crc32)).length

/-- The longest part of `rs` from its front that lies within the first `k` bytes of the file. -/
structure LongestWithin (crc32 : Bytes → UInt32) (rs : List FileRecord) (k : Nat)
    (out : List FileRecord) : Prop where
  initial : out <+: rs
  within : out ≠ [] → fileEnd crc32 out ≤ k
  longest : ∀ out', out' <+: rs → fileEnd crc32 out' ≤ k → out'.length ≤ out.length

theorem scanV2_take (h : ∀ r ∈ rs, r.Sized) (j : Nat) :
    ∃ out, scanV2 crc32 ((rs.flatMap (frame crc32)).take j) = .ok out ∧
      LongestWithin crc32 rs (6 + j) out := by
  induction rs generalizing j with
  | nil =>
    rw [flatMap_nil, take_nil]
    refine ⟨[], scanV2_nil, nil_prefix, fun hne => absurd rfl hne, fun out' hout _ => ?_⟩
    rw [prefix_nil.mp hout]
  | cons r rs ih =>
    obtain ⟨hr, hrs⟩ := forall_mem_cons.mp h
    by_cases hj : (frame crc32 r).length ≤ j
    · obtain ⟨out, hscan, hout⟩ := ih hrs (j - (frame crc32 r).length)
      have hsum : ∀ l, fileEnd crc32 (r :: l) = (frame crc32 r).length + fileEnd crc32 l := by
        intro l
        rw [fileEnd, fileEnd, flatMap_cons, length_append]
        omega
      refine ⟨r :: out, ?_, (prefix_cons_inj r).mpr hout.initial, fun _ =>
        ?_, fun out' hinit hend => ?_⟩
      · rw [flatMap_cons, take_append, take_of_length_le hj, scanV2_frame hr, hscan]
        rfl
      · rw [hsum]
        by_cases hne : out = []
        · subst hne
          rw [fileEnd, flatMap_nil, length_nil]
          omega
        · have := hout.within hne
          omega
      · cases out' with
        | nil => exact Nat.zero_le _
        | cons r' out' =>
          obtain ⟨rfl, htail⟩ := cons_prefix_cons.mp hinit
          rw [hsum] at hend
          have := hout.longest out' htail (by omega)
          simpa using this
    · have hj := Nat.lt_of_not_le hj
      refine ⟨[], ?_, nil_prefix, fun hne => absurd rfl hne, fun out' hinit hend => ?_⟩
      · rw [flatMap_cons, take_append_of_le_length hj.le]
        exact scanV2_stop (nextFrame_take_eq_none hr hj)
      · cases out' with
        | nil => exact le_rfl
        | cons =>
          obtain ⟨rfl, -⟩ := cons_prefix_cons.mp hinit
          rw [fileEnd, flatMap_cons, length_append] at hend
          omega

variable {tail : Bytes}

theorem parseV1_error {b : UInt8} {e : IoError} (h : parseRecord b tail = .error e) :
    parseV1 (b :: tail) = .error e := by
  rw [parseV1]
  split
  next heq => rw [h] at heq; cases heq; rfl
  next heq => rw [h] at heq; cases heq

theorem parseV1_cut_magic (h : tail.length < 8) : parseV1 (65 :: tail) = .error .unexpectedEof := by
  have hid : u64 tail = .error .unexpectedEof := by
    rw [u64, Reader.bind, Reader.le_eof h]
  have htag : parseRecord 65 tail = u64.bind (fun tableId => .pure (.dropTable tableId)) tail := rfl
  rw [Reader.bind, hid] at htag
  exact parseV1_error htag

def readRecords (crc32 : Bytes → UInt32) (bytes : Bytes) : Except IoError (List FileRecord) :=
  if IsV2 bytes then scanV2 crc32 (bytes.drop 6) else parseV1 bytes

theorem loadFromDisk_eq (file : Option Bytes) : loadFromDisk crc32 file =
    (readRecords crc32 (file.getD [])).map fun records =>
      ⟨records, records.length, (file.getD []).isEmpty⟩ := by
  have hempty : readRecords crc32 [] = .ok [] := by
    rw [readRecords, if_neg (by decide), parseV1]
  cases file with
  | none =>
    rw [getD_none, hempty]
    rfl
  | some bytes =>
    cases bytes with
    | nil =>
      rw [getD_some, hempty]
      rfl
    | cons => rfl

theorem readRecords_header (body : Bytes) : readRecords crc32 (walHeader ++ body) = scanV2 crc32 body :=
  if_pos ⟨Nat.le_add_left 6 body.length, rfl, show 2 ≤ ofLe [2, 0] by decide⟩

theorem readRecords_cut_header {body : Bytes} {k : Nat} (hpos : 0 < k) (hk : k < 6) :
    readRecords crc32 ((walHeader ++ body).take k) = .error .unexpectedEof := by
  have hcut : (walHeader ++ body).take k = 65 :: (walHeader.drop 1).take (k - 1) := by
    obtain ⟨k, rfl⟩ := Nat.exists_eq_succ_of_ne_zero (Nat.ne_of_gt hpos)
    rw [take_append_of_le_length hk.le]
    rfl
  have hshort : ((walHeader.drop 1).take (k - 1)).length < 5 := by
    rw [length_take]
    omega
  have hv1 : ¬IsV2 (65 :: (walHeader.drop 1).take (k - 1)) := by
    rintro ⟨hlen, -⟩
    rw [length_cons] at hlen
    omega
  rw [hcut, readRecords, if_neg hv1]
  exact parseV1_cut_magic (by omega)

end Crc

namespace WalOnDisk

variable (crc32 : Bytes → UInt32)

def writeBatch (s : WalOnDisk) (batch : List FileRecord) : WalOnDisk :=
  ((batch.foldl append s).flushToDisk crc32 .succeeds).1

def writeBatches (batches : List (List FileRecord)) : WalOnDisk := batches.foldl (writeBatch crc32) new

variable {crc32}

theorem foldl_append (s : WalOnDisk) (batch : List FileRecord) :
    batch.foldl append s = { s with records := s.records ++ batch } := by
  induction batch generalizing s with
  | nil => simp
  | cons r batch ih => rw [foldl_cons, ih, append]; simp

theorem flatten_recordWrites (rs : List FileRecord) :
    (rs.flatMap (recordWrites crc32)).flatten = rs.flatMap (frame crc32) := by
  induction rs with
  | nil => rfl
  | cons r rs ih => simp [ih, recordWrites, frame]

theorem bytes_written (s : WalOnDisk) : (s.written crc32).bytes =
    s.bytes ++ (if s.needsHeader then walHeader else []) ++
      (s.records.drop s.flushedCount).flatMap (frame crc32) := by
  have hheader : (if s.needsHeader then [walMagic, toLe 2 walVersion] else []).flatten =
      if s.needsHeader then walHeader else [] := by
    cases s.needsHeader <;> rfl
  have hbytes : (s.written crc32).bytes = s.bytes ++ (s.writes crc32).flatten := rfl
  rw [hbytes, writes, flatten_append, flatten_recordWrites, hheader, append_assoc]

def added (crc32 : Bytes → UInt32) (needsHeader : Bool) (rs : List FileRecord) : Bytes :=
  (if needsHeader && !rs.isEmpty then walHeader else []) ++ rs.flatMap (frame crc32)

theorem added_true_of_ne_nil {rs : List FileRecord} (h : rs ≠ []) :
    added crc32 true rs = walHeader ++ rs.flatMap (frame crc32) := by
  rw [added, isEmpty_eq_false_iff.mpr h]
  rfl

structure Appended (crc32 : Bytes → UInt32) (s t : WalOnDisk) (rs : List FileRecord) : Prop where
  count : t.flushedCount = t.records.length
  records : t.records = s.records ++ rs
  header : t.needsHeader = (s.needsHeader && rs.isEmpty)
  content : t.bytes = s.bytes ++ added crc32 s.needsHeader rs

variable {s : WalOnDisk}

theorem Appended.refl (h : s.flushedCount = s.records.length) : Appended crc32 s s [] :=
  ⟨h, (append_nil _).symm, (Bool.and_true _).symm, by simp [added]⟩

theorem Appended.trans {t u : WalOnDisk} {rs rs' : List FileRecord} (h : Appended crc32 s t rs)
    (h' : Appended crc32 t u rs') : Appended crc32 s u (rs ++ rs') := by
  refine ⟨h'.count, ?_, ?_, ?_⟩
  · rw [h'.records, h.records, append_assoc]
  · rw [h'.header, h.header, Bool.and_assoc]
    cases rs <;> simp
  · rw [h'.content, h.content, h.header, append_assoc]
    cases rs with
    | nil | cons => simp [added]

theorem appended_writeBatch (h : s.flushedCount = s.records.length) (batch : List FileRecord) :
    Appended crc32 s (s.writeBatch crc32 batch) batch := by
  by_cases hb : batch = []
  · have hnone : s.writeBatch crc32 batch = s := by
      rw [WalOnDisk.writeBatch, hb, foldl_nil, flushToDisk, if_pos h.symm.le]
    rw [hnone, hb]
    exact .refl h
  · have hlen := length_pos_iff.mpr hb
    have hnew : s.writeBatch crc32 batch =
        (({ s with records := s.records ++ batch } : WalOnDisk).written crc32).sync := by
      rw [WalOnDisk.writeBatch, foldl_append, flushToDisk, if_neg (by simp only [length_append]; omega)]
    have hbytes : (({ s with records := s.records ++ batch } : WalOnDisk).written crc32).bytes =
        s.bytes ++ (if s.needsHeader then walHeader else []) ++ batch.flatMap (frame crc32) := by
      rw [bytes_written, h, drop_left]
      rfl
    have hempty : batch.isEmpty = false := by simpa using hb
    rw [hnew]
    refine ⟨rfl, rfl, ?_, hbytes.trans ?_⟩
    · rw [hempty, Bool.and_false]
      rfl
    · rw [added, hempty, Bool.not_false, Bool.and_true, append_assoc]

theorem appended_batches (h : s.flushedCount = s.records.length) (batches : List (List FileRecord)) :
    Appended crc32 s (batches.foldl (writeBatch crc32) s) batches.flatten := by
  induction batches generalizing s with
  | nil => exact .refl h
  | cons batch batches ih =>
    have hbatch : Appended crc32 s (s.writeBatch crc32 batch) batch := appended_writeBatch h batch
    exact hbatch.trans (ih hbatch.count)

/-- Loading the file cut after `k` bytes gives the records before the cut, unless the cut is inside
the header: there the file is taken for one of version 1. -/
theorem loadFromDisk_torn_iff (batches : List (List FileRecord))
    (hs : ∀ r ∈ batches.flatten, r.Sized) (k : Nat)
    (hk : k ≤ (writeBatches crc32 batches).bytes.length) :
    (∃ w, loadFromDisk crc32 (some ((writeBatches crc32 batches).bytes.take k)) = .ok w ∧
      LongestWithin crc32 batches.flatten k w.records) ↔ k = 0 ∨ 6 ≤ k := by
  have hcontent : (writeBatches crc32 batches).bytes = added crc32 true batches.flatten :=
    (appended_batches rfl batches).content
  rw [hcontent] at hk ⊢
  rcases Nat.eq_zero_or_pos k with rfl | hpos
  · refine iff_of_true ⟨.new, rfl, nil_prefix, fun hne => absurd rfl hne, fun out' _ hend => ?_⟩
      (.inl rfl)
    rw [fileEnd] at hend
    omega
  · have hne : batches.flatten ≠ [] := by
      intro hnil
      rw [hnil] at hk
      exact absurd hpos (Nat.not_lt.mpr hk)
    rw [added_true_of_ne_nil hne]
    rcases Nat.lt_or_ge k 6 with hlt | hge
    · refine iff_of_false ?_ (by omega)
      rintro ⟨w, hload, -⟩
      rw [loadFromDisk_eq, getD_some, readRecords_cut_header hpos hlt] at hload
      cases hload
    · refine iff_of_true ?_ (.inr hge)
      obtain ⟨out, hscan, hout⟩ := scanV2_take hs (k - 6)
      rw [Nat.add_sub_cancel' hge] at hout
      have hcut : (walHeader ++ batches.flatten.flatMap (frame crc32)).take k =
          walHeader ++ (batches.flatten.flatMap (frame crc32)).take (k - 6) := by
        rw [take_append, take_of_length_le hge]
        rfl
      refine ⟨⟨out, out.length, false⟩, ?_, hout⟩
      rw [hcut, loadFromDisk_eq, getD_some, readRecords_header, hscan]
      rfl

theorem load_keeps_mark_before_cut : ∃ w,
    loadFromDisk (fun _ => 0)
      (some ((writeBatches (fun _ => 0) [[.checkpoint], [.commit 7]]).bytes.take 20)) = .ok w ∧
      LongestWithin (fun _ => 0) [.checkpoint, .commit 7] 20 w.records :=
  (loadFromDisk_torn_iff [[.checkpoint], [.commit 7]] (by decide) 20 (by decide)).mpr (.inr (by decide))

theorem load_refuses_cut_header :
    loadFromDisk (fun _ => 0) (some ((writeBatches (fun _ => 0) [[.checkpoint]]).bytes.take 3)) =
      .error .unexpectedEof := by
  have hread : readRecords (fun _ => 0) ((writeBatches (fun _ => 0) [[.checkpoint]]).bytes.take 3) =
      .error .unexpectedEof :=
    readRecords_cut_header (by decide) (by decide)
  rw [loadFromDisk_eq, getD_some, hread]
  rfl

def lengthField : WalTag → Option Nat
  | .insert => some 9
  | .update | .columnWrite => some 21
  | .localWALData => some 1
  | _ => none

variable {r : FileRecord} {record sum : Bytes}

structure Spares (r : FileRecord) (record : Bytes) : Prop where
  length : record.length = r.payload.length
  tag : record.head? = r.payload.head?
  field : ∀ offset, lengthField r.tag = some offset → (record.drop offset).take 4 =
    (r.payload.drop offset).take 4

theorem Spares.payloadLen (hs : Spares r record) (h : r.Sized) : payloadLen record =
    some record.length := by
  have hlen := payloadLen_payload h
  have hbyte : r.payload.head? = some r.tag.byte := rfl
  have hsame (offset : Nat) (hfield : lengthField r.tag = some offset) : lenAt offset record =
      lenAt offset r.payload := by
    rw [lenAt, lenAt, hs.length, hs.field offset hfield]
  rw [Akar.payloadLen, hbyte, bind_some, WalTag.ofByte_byte, bind_some] at hlen
  rw [Akar.payloadLen, hs.tag, hbyte, bind_some, WalTag.ofByte_byte, bind_some, hs.length, ← hlen]
  generalize r.tag = t at hsame
  cases t <;> first | rfl | exact hsame _ rfl

def fileWith (crc32 : Bytes → UInt32) (before after : List FileRecord) (place : Bytes) : Bytes :=
  walHeader ++ (before.flatMap (frame crc32) ++ (place ++ after.flatMap (frame crc32)))

/-- A record overwritten under its tag and length is passed over on loading, and it alone. -/
def CostsItself (crc32 : Bytes → UInt32) (before : List FileRecord) (r : FileRecord)
    (after : List FileRecord) : Prop :=
  ∀ record sum, Spares r record → sum.length = 4 → crc32 record ≠ UInt32.ofNat (ofLe sum) →
    loadFromDisk crc32 (some (fileWith crc32 before after (sum ++ record))) =
      .ok ⟨before ++ after, (before ++ after).length, false⟩

section Overwritten

variable {before after : List FileRecord}

theorem bytes_writeBatches {batches : List (List FileRecord)}
    (h : batches.flatten = before ++ r :: after) :
    (writeBatches crc32 batches).bytes = fileWith crc32 before after (frame crc32 r) := by
  have hcontent : (writeBatches crc32 batches).bytes = added crc32 true batches.flatten :=
    (appended_batches rfl batches).content
  rw [hcontent, h, added_true_of_ne_nil (by simp), flatMap_append, flatMap_cons]
  rfl

theorem load_fileWith (h : ∀ r ∈ before, r.Sized) {place : Bytes} {out : List FileRecord}
    (hscan : scanV2 crc32 (place ++ after.flatMap (frame crc32)) = .ok out) :
    loadFromDisk crc32 (some (fileWith crc32 before after place)) =
      .ok ⟨before ++ out, (before ++ out).length, false⟩ := by
  rw [fileWith, loadFromDisk_eq, getD_some, readRecords_header, scanV2_frames h, hscan]
  rfl

theorem costsItself_of_sized (hbefore : ∀ r ∈ before, r.Sized) (hr : r.Sized)
    (hafter : ∀ r ∈ after, r.Sized) :
    CostsItself crc32 before r after := by
  intro record sum hs hsum hcrc
  have hskip := @scanV2_skip crc32 _ record (after.flatMap (frame crc32)) _
    (nextFrame_eq_some.mpr ⟨sum, hsum, rfl, append_assoc .., hs.payloadLen hr⟩) hcrc
  have hlast := @scanV2_frames crc32 after hafter []
  rw [append_nil, scanV2_nil] at hlast
  refine load_fileWith hbefore (hskip.trans (hlast.trans ?_))
  simp only [Except.map, append_nil]

end Overwritten

section Oversize

def withData : FileRecord → Bytes → FileRecord
  | .insert tableId _, data => .insert tableId data
  | .update tableId rowId column _, data => .update tableId rowId column data
  | .columnWrite tableId colId pageId _, data => .columnWrite tableId colId pageId data
  | .localWALData _, data => .localWALData data
  | r, _ => r

variable {d e : Bytes}

theorem toLe_mod (k n : Nat) : toLe k (n % 256 ^ k) = toLe k n := by
  induction k generalizing n with
  | zero => rfl
  | succ k ih =>
    have hbyte : UInt8.ofNat (n % 256 ^ (k + 1)) = UInt8.ofNat n := by
      apply UInt8.toNat_inj.mp
      rw [UInt8.toNat_ofNat', UInt8.toNat_ofNat', Nat.pow_succ']
      exact Nat.mod_mul_right_mod ..
    rw [toLe, toLe, hbyte, Nat.pow_succ', Nat.mod_mul_right_div_self, ih]

theorem leLen_congr (h : d.length % 2 ^ 32 = e.length % 2 ^ 32) : leLen d = leLen e := by
  rw [leLen, leLen, ← toLe_mod 4 d.length, ← toLe_mod 4 e.length]
  exact congrArg (toLe 4) h

theorem fields_withData (hr : ¬r.Sized) (h : d.length % 2 ^ 32 = e.length % 2 ^ 32) :
    (withData r d).tag = r.tag ∧ (withData r d).fields = (withData r e).fields ∧
      (withData r d).data = d := by
  have hlen := leLen_congr h
  cases r <;> first | exact absurd (Nat.two_pow_pos 32) hr | exact ⟨rfl,
    by simp only [withData, fields, hlen], rfl⟩

theorem withData_self (r : FileRecord) : withData r r.data = r := by
  cases r <;> rfl

theorem spares_withData (hr : ¬r.Sized) (hd : d.length = r.data.length) :
    Spares r (withData r d).payload := by
  obtain ⟨htag, hfields, hdata⟩ := fields_withData hr (congrArg (· % 2 ^ 32) hd)
  rw [withData_self] at hfields
  have hpayload : (withData r d).payload = r.tag.byte :: r.fields ++ d := by
    rw [payload, htag, hfields, hdata]
  have hhead : ∀ offset, lengthField r.tag = some offset → offset + 4 ≤
      (r.tag.byte :: r.fields).length := by
    intro offset hoffset
    cases r <;> cases hoffset <;> simp [fields]
  have hfield (tail : Bytes) (offset : Nat) (h : lengthField r.tag = some offset) :
      ((r.tag.byte :: r.fields ++ tail).drop offset).take 4 =
        ((r.tag.byte :: r.fields).drop offset).take 4 := by
    have hle := hhead offset h
    rw [drop_append_of_le_length (by omega), take_append_of_le_length (by rw [length_drop]; omega)]
  refine ⟨by rw [hpayload, payload, length_append, length_append, hd],
    by rw [hpayload]; rfl, fun offset h => ?_⟩
  rw [hpayload, payload, hfield d offset h, hfield r.data offset h]

theorem payload_withData (hr : ¬r.Sized) (h : (d ++ e).length % 2 ^ 32 = d.length % 2 ^ 32) :
    (withData r (d ++ e)).payload = (withData r d).payload ++ e := by
  obtain ⟨htag, hfields, hdata⟩ := fields_withData hr h
  obtain ⟨htag', -, hdata'⟩ := fields_withData hr (d := d) (e := d) rfl
  rw [payload, payload, htag, htag', hfields, hdata, hdata', append_assoc]

theorem exists_other_sum (a b : UInt32) : ∃ sum : Bytes, sum.length = 4 ∧
    a ≠ UInt32.ofNat (ofLe sum) ∧ b ≠ UInt32.ofNat (ofLe sum) := by
  have hother : ∃ u : UInt32, a ≠ u ∧ b ≠ u := by
    -- of three sums, one is neither
    by_contra hnone
    have hall : ∀ u, a = u ∨ b = u := fun u => by
      by_contra h
      exact hnone ⟨u, not_or.mp h⟩
    have h0 := hall 0
    have h1 := hall 1
    have h2 := hall 2
    grind
  obtain ⟨u, hu⟩ := hother
  refine ⟨le32 u, length_le32 u, ?_⟩
  rwa [le32, ofLe_toLe_of_lt u.toNat_lt, UInt32.ofNat_toNat]

variable {before after : List FileRecord}

/-- Overwritten with a record `x` of its own where its length field ends it, an oversize record
gives `x` and hides what comes after it. -/
theorem scanV2_oversize (crc32 : Bytes → UInt32) (hr : ¬r.Sized) {x : FileRecord} (hx : x.Sized)
    (hshort : x.payload.length ≤ 100)
    (rest : Bytes) : ∃ record sum, Spares r record ∧ sum.length = 4 ∧
    crc32 record ≠ UInt32.ofNat (ofLe sum) ∧ scanV2 crc32 (sum ++ record ++ rest) = .ok [x] := by
  have hlong : 2 ^ 32 ≤ r.data.length := Nat.le_of_not_lt hr
  generalize hn : r.data.length = n at hlong
  let d : Bytes := replicate (n % 2 ^ 32) 0
  let zeros : Bytes := replicate (n - n % 2 ^ 32 - (frame crc32 x).length - 5) 0
  let e : Bytes := frame crc32 x ++ ([0, 0, 0, 0, 0] ++ zeros)
  have hd : d.length = n % 2 ^ 32 := length_replicate
  have hde : (d ++ e).length = n := by
    have hframe := @length_frame crc32 x
    simp only [d, e, zeros, length_append, length_replicate, length_cons, length_nil, hframe]
    omega
  have hcut : (withData r (d ++ e)).payload = (withData r d).payload ++ e := by
    apply payload_withData hr
    rw [hde, hd, Nat.mod_mod]
  have hsized : (withData r d).Sized := by
    rw [Sized, (fields_withData hr (d := d) (e := d) rfl).2.2, hd]
    exact Nat.mod_lt _ (Nat.two_pow_pos 32)
  obtain ⟨sum, hsum, hfull, hpart⟩ := exists_other_sum (crc32 (withData r (d ++ e)).payload)
    (crc32 (withData r d).payload)
  refine ⟨_, sum, spares_withData hr (hde.trans hn.symm), hsum, hfull, ?_⟩
  have hskip :=
    @scanV2_skip crc32 (sum ++ (withData r (d ++ e)).payload ++ rest) (withData r d).payload
    (e ++ rest) _
    (nextFrame_eq_some.mpr ⟨sum, hsum, rfl,
      by rw [hcut]; simp only [append_assoc], payloadLen_payload hsized⟩) hpart
  have hstop : nextFrame ([0, 0, 0, 0, 0] ++ (zeros ++ rest)) = none := rfl
  rw [hskip, append_assoc, scanV2_frame hx, append_assoc, scanV2_stop hstop]
  rfl

theorem not_costsItself_of_oversize (hbefore : ∀ r ∈ before, r.Sized) (hr : ¬r.Sized) :
    ¬CostsItself crc32 before r after := by
  intro h
  obtain ⟨x, hx, hshort, hne⟩ : ∃ x : FileRecord, x.Sized ∧ x.payload.length ≤ 100 ∧ [x] ≠ after := by
    by_cases hafter : after = [.checkpoint]
    · exact ⟨.commit 7, by decide, by decide, by rw [hafter]; decide⟩
    · exact ⟨.checkpoint, by decide, by decide, fun h => hafter h.symm⟩
  obtain ⟨record, sum, hs, hsum, hcrc, hscan⟩ :=
    scanV2_oversize crc32 hr hx hshort (after.flatMap (frame crc32))
  have hload := h record sum hs hsum hcrc
  rw [load_fileWith hbefore hscan] at hload
  exact hne (append_cancel_left (congrArg (·.records) (Except.ok.inj hload)))

end Oversize

/-- Each record of a log costs only itself when it is overwritten under its tag and length exactly
when no record is longer than its length field can say. -/
theorem corrupt_record_costs_itself_iff (crc32 : Bytes → UInt32) (batches : List (List FileRecord)) :
    (∀ before r after, batches.flatten = before ++ r :: after →
      (writeBatches crc32 batches).bytes = fileWith crc32 before after (frame crc32 r) ∧
        CostsItself crc32 before r after) ↔
      ∀ r ∈ batches.flatten, r.Sized := by
  constructor
  · intro h
    by_contra hlong
    cases hfind : batches.flatten.find? (fun r => !decide r.Sized) with
    | none =>
      refine hlong fun r hr => ?_
      simpa using find?_eq_none.mp hfind r hr
    | some r =>
      -- the first oversize record: what is before it is read as it was written
      obtain ⟨hr, before, after, hsplit, hbefore⟩ := find?_eq_some_iff_append.mp hfind
      refine not_costsItself_of_oversize (fun r hr => ?_) (by simpa using hr)
        (h before r after hsplit).2
      simpa using hbefore r hr
  · intro h before r after hsplit
    rw [hsplit, forall_mem_append, forall_mem_cons] at h
    exact ⟨bytes_writeBatches hsplit, costsItself_of_sized h.1 h.2.1 h.2.2⟩

def secondByte (record : Bytes) : UInt32 := (record.getD 1 0).toUInt32

theorem corrupt_commit_costs_itself :
    loadFromDisk secondByte
        (some (fileWith secondByte [.checkpoint]
          [.rollback 5] (le32 7 ++ [67, 8, 0, 0, 0, 0, 0, 0, 0]))) =
      .ok ⟨[.checkpoint, .rollback 5], 2, false⟩ := by
  have hs : Spares (.commit 7) [67, 8, 0, 0, 0, 0, 0, 0, 0] := ⟨rfl, rfl, nofun⟩
  have hcosts :=
    (corrupt_record_costs_itself_iff secondByte [[.checkpoint, .commit 7, .rollback 5]]).mpr
    (by decide)
    [.checkpoint] (.commit 7) [.rollback 5] rfl
  exact hcosts.2 _ (le32 7) hs rfl (by decide)


def longRecord : FileRecord := .localWALData (replicate (2 ^ 32) 0)

/-- With only its checksum changed, the long record takes the record after it along. -/
theorem long_record_hides_next :
    Spares longRecord longRecord.payload ∧ 0 ≠ UInt32.ofNat (ofLe [1, 0, 0, 0]) ∧
      loadFromDisk (fun _ => 0)
        (some (fileWith (fun _ => 0) [] [.commit 7] ([1, 0, 0, 0] ++ longRecord.payload))) =
        .ok ⟨[], 0, false⟩ := by
  refine ⟨⟨rfl, rfl, fun _ _ => rfl⟩, by decide, ?_⟩
  have hpayload : longRecord.payload = [76, 0, 0, 0, 0] ++ replicate (2 ^ 32) 0 := by
    rw [longRecord, payload, fields, data, leLen, length_replicate]
    rfl
  have hzeros : replicate (2 ^ 32) (0 : UInt8) = [0, 0, 0, 0, 0] ++ replicate (2 ^ 32 - 5) 0 :=
    (replicate_append_replicate (n := 5) (m := 2 ^ 32 - 5)).symm
  have hfirst (rest : Bytes) := @scanV2_skip (fun _ => 0) _ [76, 0, 0, 0, 0] rest 1
    (nextFrame_eq_some.mpr ⟨[1, 0, 0, 0], rfl, rfl, rfl, rfl⟩) (by decide)
  have hstop (tail : Bytes) : nextFrame ([0, 0, 0, 0, 0] ++ tail) = none := by
    rfl
  rw [fileWith, flatMap_nil, nil_append, loadFromDisk_eq, getD_some, readRecords_header, hpayload,
    append_assoc, append_assoc, hfirst, hzeros, append_assoc, scanV2_stop (hstop _)]
  rfl

end WalOnDisk

end Akar
