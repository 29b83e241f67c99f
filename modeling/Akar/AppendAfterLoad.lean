import Akar.Slots
import Akar.TornLog

namespace Akar

open ByteCodec List

variable {b : UInt8} {tail rest : Bytes} {r : FileRecord}

theorem parseRecord_inv (h : parseRecord b tail = .ok (r, rest)) :
    WalTag.ofByte b = some r.tag ∧ r.Sized ∧ parseFields r.tag tail = .ok (r, rest) := by
  unfold parseRecord at h
  split at h
  next t ht =>
    obtain ⟨⟨rfl, hsized⟩, -⟩ := reads_parseFields t tail r rest h
    exact ⟨ht, hsized, h⟩
  · cases h

theorem parseRecord_append (h : parseRecord b tail = .ok (r, rest)) (more : Bytes) :
    parseRecord b (tail ++ more) = .ok (r, rest ++ more) := by
  obtain ⟨htag, -, hfields⟩ := parseRecord_inv h
  obtain ⟨-, used, rfl, hused⟩ := reads_parseFields _ _ _ _ hfields
  rw [parseRecord, htag, append_assoc]
  exact hused _

theorem parseSlice_inv {record : Bytes} {n : Nat} {rs : List FileRecord}
    (hlen : payloadLen record = some n) (h : parseSlice record = .ok rs) :
    ∃ b tail r rest, record = b :: tail ∧ rs = [r] ∧ parseRecord b tail = .ok (r, rest) ∧
      r.tag.payloadLen record = some n := by
  obtain ⟨b, tail, t, rfl, ht, hn⟩ := payloadLen_eq_some.mp hlen
  have hmap : (parseRecord b tail).map (fun p => [p.1]) = .ok rs := h
  obtain ⟨⟨r, rest⟩, hparse, rfl⟩ := map_eq_ok.mp hmap
  have htag := (parseRecord_inv hparse).1
  rw [ht] at htag
  cases htag
  exact ⟨b, tail, r, rest, rfl, rfl, hparse, hn⟩

section Crc

variable {crc32 : Bytes → UInt32} {bytes rest : Bytes} {rs : List FileRecord} {record : Bytes}
    {expected : UInt32}

theorem scanV2_inv (h : nextFrame bytes = some (expected, record, rest))
    (hok : scanV2 crc32 bytes = .ok rs) :
    (crc32 record ≠ expected ∧ scanV2 crc32 rest = .ok rs) ∨
      ∃ r rs', expected = crc32 record ∧ parseSlice record = .ok [r] ∧ r.Sized ∧
        r.tag.payloadLen record = some record.length ∧ scanV2 crc32 rest = .ok rs' ∧ rs = r :: rs' := by
  by_cases hcrc : crc32 record = expected
  · right
    subst hcrc
    obtain ⟨sum, -, -, -, hlen⟩ := nextFrame_eq_some.mp h
    cases hslice : parseSlice record with
    | error e =>
      rw [scanV2] at hok
      split at hok
      next heq => rw [h] at heq; cases heq
      next heq =>
        rw [h] at heq
        cases heq
        rw [if_neg (not_not_intro rfl), hslice] at hok
        cases hok
    | ok found =>
      obtain ⟨b, tail, r, left, -, rfl, hparse, hn⟩ := parseSlice_inv hlen hslice
      rw [scanV2_parse h hslice] at hok
      obtain ⟨rs', hrest, rfl⟩ := map_eq_ok.mp hok
      exact ⟨r, rs', rfl, rfl, (parseRecord_inv hparse).2.1, hn, hrest, rfl⟩
  · left
    rw [scanV2_skip h hcrc] at hok
    exact ⟨hcrc, hok⟩

variable {r : FileRecord}

theorem scanV2_room (h : scanV2 crc32 bytes = .ok (r :: rs)) :
    ∃ record, r.tag.payloadLen record = some record.length ∧ 4 + record.length ≤ bytes.length := by
  induction hn : bytes.length using Nat.strong_induction_on generalizing bytes with
  | _ n ih =>
    cases hnext : nextFrame bytes with
    | none => rw [scanV2_stop hnext] at h; cases h
    | some found =>
      obtain ⟨expected, record, rest⟩ := found
      have hlength := nextFrame_length hnext
      obtain ⟨-, hrest⟩ | ⟨r', rs', -, -, -, hlen, -, heq⟩ := scanV2_inv hnext h
      · obtain ⟨record', hlen, hroom⟩ := ih rest.length (by omega) hrest rfl
        exact ⟨record', hlen, by omega⟩
      · cases heq
        exact ⟨record, hlen, by omega⟩

theorem scanV2_sized (h : scanV2 crc32 bytes = .ok rs) : ∀ r ∈ rs, r.Sized := by
  induction hn : bytes.length using Nat.strong_induction_on generalizing bytes rs with
  | _ n ih =>
    cases hnext : nextFrame bytes with
    | none => rw [scanV2_stop hnext] at h; cases h; exact nofun
    | some found =>
      obtain ⟨expected, record, rest⟩ := found
      have hlength := nextFrame_length hnext
      obtain ⟨-, hrest⟩ | ⟨r, rs', -, -, hsized, -, hrest, rfl⟩ := scanV2_inv hnext h
      · exact ih rest.length (by omega) hrest rfl
      · exact forall_mem_cons.mpr ⟨hsized, ih rest.length (by omega) hrest rfl⟩

/-- The bytes are whole frames to their end, with right checksums or wrong ones. -/
inductive WholeFrames : Bytes → Prop
  | nil : WholeFrames []
  | cons {bytes record rest : Bytes} {expected : UInt32} : nextFrame bytes = some (expected, record, rest) →
      WholeFrames rest → WholeFrames bytes

variable {tail : Bytes}

theorem WholeFrames.scanV2_append {whole : Bytes} (hw : WholeFrames whole)
    (h : scanV2 crc32 (whole ++ tail) = .ok rs) : ∃ rs₁ rs₂, rs = rs₁ ++ rs₂ ∧ scanV2 crc32 tail =
    .ok rs₂ ∧ ∀ more, scanV2 crc32 (whole ++ more) = (scanV2 crc32 more).map (rs₁ ++ ·) := by
  induction hw generalizing rs with
  | nil =>
    refine ⟨[], rs, rfl, h, fun more => ?_⟩
    rw [nil_append]
    cases scanV2 crc32 more <;> rfl
  | @cons bytes record rest expected hnext _ ih =>
    obtain ⟨hcrc, hrest⟩ | ⟨r, rs', rfl, hslice, -, -, hrest, rfl⟩ :=
      scanV2_inv (nextFrame_append hnext tail) h
    · obtain ⟨rs₁, rs₂, heq, htail, hmore⟩ := ih hrest
      refine ⟨rs₁, rs₂, heq, htail, fun more => ?_⟩
      rw [scanV2_skip (nextFrame_append hnext more) hcrc, hmore]
    · obtain ⟨rs₁, rs₂, rfl, htail, hmore⟩ := ih hrest
      refine ⟨r :: rs₁, rs₂, rfl, htail, fun more => ?_⟩
      rw [scanV2_parse (nextFrame_append hnext more) hslice, hmore]
      cases scanV2 crc32 more <;> rfl

theorem exists_tail (bytes : Bytes) : ∃ whole tail, bytes = whole ++ tail ∧ WholeFrames whole ∧
    nextFrame tail = none := by
  induction hn : bytes.length using Nat.strong_induction_on generalizing bytes with
  | _ n ih =>
    cases hnext : nextFrame bytes with
    | none => exact ⟨[], bytes, rfl, .nil, hnext⟩
    | some found =>
      obtain ⟨expected, record, rest⟩ := found
      have hlength := nextFrame_length hnext
      obtain ⟨whole, tail, rfl, hwhole, htail⟩ := ih rest.length (by omega) rest rfl
      obtain ⟨sum, hsum, hexp, rfl, hlen⟩ := nextFrame_eq_some.mp hnext
      have hfirst : nextFrame (sum ++ (record ++ whole)) = some (expected, record, whole) :=
        nextFrame_eq_some.mpr ⟨sum, hsum, hexp, rfl, hlen⟩
      exact ⟨sum ++ (record ++ whole), tail, by simp only [append_assoc], .cons hfirst hwhole, htail⟩

theorem nextFrame_beyond_tail {more : Bytes} (htail : nextFrame tail = none)
    (h : nextFrame (tail ++ more) = some (expected, record, rest)) : tail.length <
      4 + record.length := by
  by_contra hle
  obtain ⟨sum, hsum, hexp, heq, hlen⟩ := nextFrame_eq_some.mp h
  have hfront : sum ++ record <+: tail ++ more := ⟨rest, by rw [append_assoc, heq]⟩
  have hin := prefix_of_prefix_length_le hfront (prefix_append ..) (by rw [length_append]; omega)
  obtain ⟨left, rfl⟩ := hin
  have hsome := nextFrame_eq_some.mpr ⟨sum, hsum, hexp, append_assoc sum record left, hlen⟩
  rw [htail] at hsome
  cases hsome

theorem scanV2_tail_checkpoint (htail : nextFrame tail = none) (hlong : 5 ≤ tail.length) :
    scanV2 crc32 (tail ++ frame crc32 .checkpoint) ≠ .ok [.checkpoint] := by
  intro h
  have hframe : (frame crc32 .checkpoint).length = 5 := length_frame _
  cases hnext : nextFrame (tail ++ frame crc32 .checkpoint) with
  | none => rw [scanV2_stop hnext] at h; cases h
  | some found =>
    have hbeyond := nextFrame_beyond_tail htail hnext
    have hlength := nextFrame_length hnext
    rw [length_append] at hlength
    obtain ⟨-, hrest⟩ | ⟨r, rs', -, -, -, hlen, -, heq⟩ := scanV2_inv hnext h
    · obtain ⟨record', hlen, hroom⟩ := scanV2_room hrest
      have hone := Option.some.inj hlen
      omega
    · cases heq
      have hone := Option.some.inj hlen
      omega

theorem u64_eq_zero {bs : Bytes} (h : u64 bs = .ok (0, rest)) : ∀ b ∈ bs.take 8, b = 0 := by
  have hbytes : ∀ bs : Bytes, ofLe bs = 0 → ∀ b ∈ bs, b = 0 := by
    intro bs
    induction bs with
    | nil => exact fun _ => nofun
    | cons b bs ih =>
      intro h
      have hparts : b.toNat = 0 ∧ ofLe bs = 0 := by rw [ofLe] at h; omega
      exact forall_mem_cons.mpr ⟨UInt8.toNat.inj hparts.1, ih hparts.2⟩
  by_cases hshort : bs.length < 8
  · simp only [u64, Reader.bind, Reader.le_eof hshort] at h
    cases h
  · have hread : u64 bs = .ok (UInt64.ofNat (ofLe (bs.take 8)), bs.drop 8) := by
      simp only [u64, Reader.le, Reader.bind, Reader.exactly, if_neg hshort, Reader.pure]
    rw [hread] at h
    have hword := congrArg Prod.fst (Except.ok.inj h)
    have hlt : ofLe (bs.take 8) < 2 ^ 64 := by
      have hlt := ofLe_lt (bs.take 8)
      rwa [length_take_of_le (Nat.le_of_not_lt hshort)] at hlt
    have hzero := congrArg UInt64.toNat hword
    rw [UInt64.toNat_ofNat', Nat.mod_eq_of_lt hlt] at hzero
    exact hbytes _ hzero

theorem scanV2_tail_commit (htail : nextFrame tail = none) (hne : tail ≠ [])
    (hshort : tail.length < 5) :
    scanV2 crc32 (tail ++ frame crc32 (.commit 0)) ≠ .ok [.commit 0] := by
  intro h
  have hpos := length_pos_iff.mpr hne
  have hframe : (frame crc32 (.commit 0)).length = 13 := length_frame _
  cases hnext : nextFrame (tail ++ frame crc32 (.commit 0)) with
  | none => rw [scanV2_stop hnext] at h; cases h
  | some found =>
    obtain ⟨expected, record, rest⟩ := found
    have hbeyond := nextFrame_beyond_tail htail hnext
    have hlength := nextFrame_length hnext
    rw [length_append] at hlength
    obtain ⟨-, hrest⟩ | ⟨r, rs', -, hslice, -, hlen, -, heq⟩ := scanV2_inv hnext h
    · obtain ⟨record', hlen, hroom⟩ := scanV2_room hrest
      have hnine := Option.some.inj hlen
      omega
    · cases heq
      obtain ⟨sum, hsum, -, hbytes, hannounced⟩ := nextFrame_eq_some.mp hnext
      obtain ⟨b, word, r', left, rfl, heq, hparse, -⟩ := parseSlice_inv hannounced hslice
      cases heq
      have hword : ∀ x ∈ word.take 8, x = 0 := by
        have hfields : u64.bind (fun id => .pure (.commit id)) word = .ok (FileRecord.commit 0, left) :=
          (parseRecord_inv hparse).2.2
        cases hread : u64 word with
        | error e => simp only [Reader.bind, hread] at hfields; cases hfields
        | ok found =>
          obtain ⟨id, left'⟩ := found
          simp only [Reader.bind, hread, Reader.pure] at hfields
          obtain ⟨hid, -⟩ := Prod.mk.inj (Except.ok.inj hfields)
          rw [FileRecord.commit.inj hid] at hread
          exact u64_eq_zero hread
      have hnine := Option.some.inj hlen
      rw [length_cons] at hnine
      rw [take_of_length_le (by omega)] at hword
      -- the byte after the checksum of the appended frame, seen from both sides
      have hleft : (tail ++ frame crc32 (.commit 0))[tail.length + 4]? = some 67 := by
        rw [getElem?_append_right (Nat.le_add_right ..), Nat.add_sub_cancel_left]
        rfl
      have hright : (tail ++ frame crc32 (.commit 0))[tail.length + 4]? = word[tail.length - 1]? := by
        have hindex : tail.length + 4 - sum.length = tail.length - 1 + 1 := by omega
        rw [hbytes, getElem?_append_right (by omega), hindex, cons_append, getElem?_cons_succ,
          getElem?_append_left (by omega)]
      rw [hleft] at hright
      have hmem := hword 67 (mem_of_getElem? hright.symm)
      cases hmem

variable {b : UInt8}

theorem parseV1_eq (h : parseRecord b tail = .ok (r, rest)) : parseV1 (b :: tail) =
    (parseV1 rest).map (r :: ·) := by
  rw [parseV1]
  split
  next heq => rw [h] at heq; cases heq
  next heq => rw [h] at heq; cases heq; rfl

theorem parseV1_inv (h : parseV1 (b :: tail) = .ok rs) :
    ∃ r rest rs', parseRecord b tail = .ok (r, rest) ∧ parseV1 rest = .ok rs' ∧ rs = r :: rs' := by
  cases hparse : parseRecord b tail with
  | error e => rw [parseV1_error hparse] at h; cases h
  | ok found =>
    obtain ⟨r, rest⟩ := found
    rw [parseV1_eq hparse] at h
    obtain ⟨rs', hrest, rfl⟩ := map_eq_ok.mp h
    exact ⟨r, rest, rs', rfl, hrest, rfl⟩

theorem parseV1_sized (h : parseV1 bytes = .ok rs) : ∀ r ∈ rs, r.Sized := by
  induction rs generalizing bytes with
  | nil => nofun
  | cons r rs ih =>
    cases bytes with
    | nil => rw [parseV1] at h; cases h
    | cons =>
      obtain ⟨r, rest, rs, hr, hrest, hcons⟩ := parseV1_inv h
      cases hcons
      exact forall_mem_cons.mpr ⟨(parseRecord_inv hr).2.1, ih hrest⟩

theorem parseV1_append (h : parseV1 bytes = .ok rs) (more : Bytes) :
    parseV1 (bytes ++ more) = (parseV1 more).map (rs ++ ·) := by
  induction rs generalizing bytes with
  | nil =>
    cases bytes with
    | nil =>
      rw [nil_append]
      cases parseV1 more <;> rfl
    | cons =>
      obtain ⟨r, rest, rs', -, -, heq⟩ := parseV1_inv h
      cases heq
  | cons r rs ih =>
    cases bytes with
    | nil => rw [parseV1] at h; cases h
    | cons =>
      obtain ⟨r', rest, rs', hparse, hrest, heq⟩ := parseV1_inv h
      cases heq
      rw [cons_append, parseV1_eq (parseRecord_append hparse more), ih hrest]
      cases parseV1 more <;> rfl

theorem parseV1_checkpoint_frame : parseV1 (frame crc32 .checkpoint) ≠ .ok [.checkpoint] := by
  intro h
  have hframe : (frame crc32 .checkpoint).length = 5 := length_frame _
  cases hbytes : frame crc32 .checkpoint with
  | nil => rw [hbytes] at hframe; cases hframe
  | cons b tail =>
    rw [hbytes] at h hframe
    obtain ⟨r, rest, rs', hparse, hrest, heq⟩ := parseV1_inv h
    cases heq
    -- the mark has no fields, so the four bytes after its tag are left over
    have hfields : parseFields .checkpoint tail = .ok (.checkpoint, rest) :=
      (parseRecord_inv hparse).2.2
    cases hfields
    cases tail with
    | nil => cases hframe
    | cons =>
      obtain ⟨r, rest, rs', -, -, heq⟩ := parseV1_inv hrest
      cases heq

theorem isV2_append (h : 6 ≤ bytes.length) (more : Bytes) : IsV2 (bytes ++ more) ↔ IsV2 bytes := by
  have hmagic : (bytes ++ more).take 4 = bytes.take 4 := take_append_of_le_length (by omega)
  have hversion : ((bytes ++ more).drop 4).take 2 = (bytes.drop 4).take 2 := by
    rw [drop_append_of_le_length (by omega), take_append_of_le_length (by rw [length_drop]; omega)]
  rw [IsV2, IsV2, hmagic, hversion, length_append]
  exact and_congr_left fun _ => iff_of_true (by omega) h

theorem not_isV2_append (hne : bytes ≠ []) (hv1 : ¬IsV2 bytes) (h : parseV1 bytes = .ok rs)
    (more : Bytes) :
    ¬IsV2 (bytes ++ more) := by
  rcases Nat.lt_or_ge bytes.length 6 with hshort | hlong
  · rintro ⟨-, hmagic, -⟩
    cases bytes with
    | nil => exact hne rfl
    | cons b =>
      have hb : b = 65 := (cons.inj hmagic).1
      rw [length_cons] at hshort
      rw [hb, parseV1_cut_magic (by omega)] at h
      cases h
  · exact fun hv2 => hv1 ((isV2_append hlong more).mp hv2)

theorem map_append_eq_ok {x : Except IoError (List FileRecord)} {rs' : List FileRecord} :
    x.map (rs ++ ·) = .ok (rs ++ rs') ↔ x = .ok rs' := by
  cases x with
  | error => exact iff_of_false nofun nofun
  | ok =>
    constructor
    · intro h
      rw [append_cancel_left (Except.ok.inj h)]
    · rintro ⟨⟩
      rfl

theorem scanV2_frames_iff (rs : List FileRecord) :
    scanV2 crc32 (rs.flatMap (frame crc32)) = .ok rs ↔ ∀ r ∈ rs, r.Sized := by
  refine ⟨scanV2_sized, fun h => ?_⟩
  have hscan : scanV2 crc32 (rs.flatMap (frame crc32) ++ []) = (scanV2 crc32 []).map (rs ++ ·) :=
    scanV2_frames h []
  rw [append_nil, scanV2_nil] at hscan
  rw [hscan]
  exact congrArg _ (append_nil rs)

def Appendable (bytes : Bytes) : Prop := bytes = [] ∨ IsV2 bytes ∧ WholeFrames (bytes.drop 6)

open WalOnDisk in
theorem readRecords_added (hread : readRecords crc32 bytes = .ok rs) (h : Appendable bytes)
    (new : List FileRecord) :
    readRecords crc32 (bytes ++ added crc32 bytes.isEmpty new) = .ok (rs ++ new) ↔ ∀ r ∈ new,
      r.Sized := by
  have hframes : scanV2 crc32 (new.flatMap (frame crc32)) = .ok new ↔ _ := scanV2_frames_iff new
  rw [← hframes]
  rcases h with rfl | ⟨hv2, hwhole⟩
  · have hnil : rs = [] := by
      rw [readRecords, if_neg (by decide), parseV1] at hread
      cases hread
      rfl
    subst hnil
    cases new with
    | nil =>
      rw [flatMap_nil, scanV2_nil]
      exact iff_of_true hread rfl
    | cons => exact iff_of_eq (congrArg (· = _) (readRecords_header _))
  · have hlen := hv2.1
    have hne : bytes.isEmpty = false := by
      cases bytes with
      | nil => cases hlen
      | cons => rfl
    have hadded : added crc32 false new = new.flatMap (frame crc32) := nil_append _
    rw [readRecords, if_pos hv2, ← append_nil (bytes.drop 6)] at hread
    obtain ⟨rs₁, rs₂, rfl, hnil, hmore⟩ := hwhole.scanV2_append hread
    rw [scanV2_nil] at hnil
    cases hnil
    rw [hne, hadded, readRecords, if_pos ((isV2_append hlen _).mpr hv2),
      drop_append_of_le_length hlen, hmore, append_nil]
    exact map_append_eq_ok

open WalOnDisk in
theorem exists_lost (hread : readRecords crc32 bytes = .ok rs) (h : ¬Appendable bytes) :
    ∃ r : FileRecord, r.Sized ∧ readRecords crc32 (bytes ++ added crc32 bytes.isEmpty [r]) ≠ .ok
      (rs ++ [r]) := by
  obtain ⟨hne, hwhole⟩ := not_or.mp h
  have hadded : ∀ r, added crc32 bytes.isEmpty [r] = frame crc32 r := by
    intro r
    rw [added, isEmpty_eq_false_iff.mpr hne, flatMap_singleton]
    rfl
  by_cases hv2 : IsV2 bytes
  · obtain ⟨whole, tail, hsplit, hframes, htail⟩ := exists_tail (bytes.drop 6)
    have htailne : tail ≠ [] := by
      rintro rfl
      rw [append_nil] at hsplit
      exact hwhole ⟨hv2, hsplit ▸ hframes⟩
    rw [readRecords, if_pos hv2, hsplit] at hread
    obtain ⟨rs₁, rs₂, rfl, hnil, hmore⟩ := hframes.scanV2_append hread
    rw [scanV2_stop htail] at hnil
    cases hnil
    have hlost : ∀ r, scanV2 crc32 (tail ++ frame crc32 r) ≠ .ok [r] →
        readRecords crc32 (bytes ++ added crc32 bytes.isEmpty [r]) ≠ .ok (rs₁ ++ [] ++ [r]) := by
      intro r hr heq
      rw [hadded, readRecords, if_pos ((isV2_append hv2.1 _).mpr hv2),
        drop_append_of_le_length hv2.1, hsplit, append_assoc, hmore, append_nil] at heq
      exact hr (map_append_eq_ok.mp heq)
    rcases Nat.lt_or_ge tail.length 5 with hshort | hlong
    · exact ⟨.commit 0, by decide, hlost _ (scanV2_tail_commit htail htailne hshort)⟩
    · exact ⟨.checkpoint, by decide, hlost _ (scanV2_tail_checkpoint htail hlong)⟩
  · rw [readRecords, if_neg hv2] at hread
    refine ⟨.checkpoint, by decide, ?_⟩
    rw [hadded, readRecords, if_neg (not_isV2_append hne hv2 hread _), parseV1_append hread]
    exact fun heq => parseV1_checkpoint_frame (map_append_eq_ok.mp heq)

end Crc

namespace WalOnDisk

variable {crc32 : Bytes → UInt32}

def opened (w : WAL) (file : Option Bytes) : WalOnDisk := ⟨w, file, (file.getD []).length⟩

theorem exists_load_iff (s : WalOnDisk) (rs : List FileRecord) :
    (∃ w, loadFromDisk crc32 s.file = .ok w ∧ w.records = rs) ↔ readRecords crc32 s.bytes = .ok rs := by
  rw [loadFromDisk_eq, ← bytes]
  cases readRecords crc32 s.bytes with
  | error => exact iff_of_false nofun nofun
  | ok =>
    constructor
    · rintro ⟨w, hload, rfl⟩
      cases hload
      rfl
    · rintro ⟨⟩
      exact ⟨_, rfl, rfl⟩

/-- What is appended after a load comes back behind what was loaded exactly when the file was empty
or a header with whole frames: not after a torn tail, and not after a log of version 1. -/
theorem reload_appended_iff {file : Option Bytes} {w : WAL} (h : loadFromDisk crc32 file = .ok w) :
    (∀ batches : List (List FileRecord),
      (∃ w', loadFromDisk crc32 (batches.foldl (writeBatch crc32) (opened w file)).file = .ok w' ∧
        w'.records = w.records ++ batches.flatten) ↔ ∀ r ∈ batches.flatten, r.Sized) ↔
      Appendable (file.getD []) := by
  rw [loadFromDisk_eq] at h
  obtain ⟨rs, hread, rfl⟩ := map_eq_ok.mp h
  have hbytes : ∀ batches : List (List FileRecord),
      (batches.foldl (writeBatch crc32) (opened ⟨rs, rs.length, (file.getD []).isEmpty⟩ file)).bytes =
        file.getD [] ++ added crc32 (file.getD []).isEmpty batches.flatten :=
    fun batches => (appended_batches rfl batches).content
  simp only [exists_load_iff, hbytes]
  constructor
  · intro hall
    by_contra hnot
    obtain ⟨r, hsized, hlost⟩ := exists_lost hread hnot
    exact hlost ((hall [[r]]).mpr (forall_mem_singleton.mpr hsized))
  · exact fun happ batches => readRecords_added hread happ batches.flatten

def markLog : Bytes := walHeader ++ frame (fun _ => 0) .checkpoint

def tornBlob : Bytes := [0, 0, 0, 0, 76, 100, 0, 0, 0]

def tornLog : Bytes := walHeader ++ tornBlob

theorem load_markLog : loadFromDisk (fun _ => 0) (some markLog) = .ok ⟨[.checkpoint], 1, false⟩ := by
  have hscan : scanV2 (fun _ => 0) ([FileRecord.checkpoint].flatMap (frame fun _ => 0)) =
      .ok [.checkpoint] :=
    (scanV2_frames_iff _).mpr (by decide)
  have hread : readRecords (fun _ => 0) markLog = .ok [.checkpoint] :=
    (readRecords_header _).trans hscan
  rw [loadFromDisk_eq, Option.getD_some, hread]
  rfl

/-- What a file of either version gives, torn or not, is written to a new log in any batches and
loads from there. -/
theorem rewritten_log_loads_same {file : Option Bytes} {w : WAL} (h : loadFromDisk crc32 file = .ok w)
    {batches : List (List FileRecord)} (hbatches : batches.flatten = w.records) :
    ∃ w', loadFromDisk crc32 (writeBatches crc32 batches).file = .ok w' ∧ w'.records = w.records := by
  rw [loadFromDisk_eq] at h
  obtain ⟨rs, hread, rfl⟩ := map_eq_ok.mp h
  have hsized : ∀ r ∈ rs, r.Sized := by
    unfold readRecords at hread
    split at hread
    next => exact scanV2_sized hread
    next => exact parseV1_sized hread
  have hempty : readRecords crc32 [] = .ok [] := by rw [readRecords, if_neg (by decide), parseV1]
  rw [exists_load_iff, writeBatches, (appended_batches rfl batches).content, hbatches]
  exact (readRecords_added hempty (.inl rfl) rs).mpr hsized

def commitLog : Bytes := walHeader ++ [FileRecord.commit 7, .checkpoint].flatMap (frame fun _ => 0)

theorem load_commitLog : ∃ w, loadFromDisk (fun _ => 0) (some commitLog) = .ok w ∧ w.records =
    [.commit 7, .checkpoint] := by
  have hread : readRecords (fun _ => 0) commitLog = .ok [.commit 7, .checkpoint] :=
    (readRecords_header _).trans ((scanV2_frames_iff _).mpr (by decide))
  rw [loadFromDisk_eq, Option.getD_some, hread]
  exact ⟨_, rfl, rfl⟩

theorem rewritten_log_loads_same_mark : ∃ w,
    loadFromDisk (fun _ => 0) (writeBatches (fun _ => 0) [[.commit 7], [], [.checkpoint]]).file =
    .ok w ∧ w.records = [.commit 7, .checkpoint] := by
  obtain ⟨w, hload, hrecords⟩ := load_commitLog
  have hbatches : [[.commit 7], [], [.checkpoint]].flatten = w.records := hrecords.symm
  obtain ⟨w', hload', hrecords'⟩ := rewritten_log_loads_same hload hbatches
  exact ⟨w', hload', hrecords'.trans hrecords⟩

theorem appendable_markLog : Appendable markLog := by
  have hnext : nextFrame (frame (fun _ => 0) .checkpoint ++ []) =
      some (0, FileRecord.checkpoint.payload, []) :=
    nextFrame_frame (by decide) []
  exact .inr ⟨by decide, .cons hnext .nil⟩

theorem reload_commit_after_mark : ∃ w,
    loadFromDisk (fun _ => 0) ([[FileRecord.commit 7]].foldl (writeBatch fun _ => 0)
      (opened ⟨[.checkpoint], 1, false⟩ (some markLog))).file = .ok w ∧ w.records =
        [.checkpoint, .commit 7] :=
  ((reload_appended_iff load_markLog).mpr appendable_markLog [[.commit 7]]).mpr (by decide)

theorem load_torn (more : Bytes) (h : more.length < 100) :
    loadFromDisk (fun _ => 0) (some (tornLog ++ more)) = .ok ⟨[], 0, false⟩ := by
  have hnext : nextFrame (tornBlob ++ more) = none := by
    have hblob : payloadLen [76, 100, 0, 0, 0] = some 105 := rfl
    have hlen : payloadLen ((tornBlob ++ more).drop 4) = some 105 := payloadLen_append hblob more
    have hblobLen : (tornBlob ++ more).length = 9 + more.length := length_append
    have hshort : ((tornBlob ++ more).drop 4).length < 105 := by
      rw [length_drop, hblobLen]
      omega
    rw [nextFrame, if_neg (by omega), hlen]
    exact if_pos hshort
  have hread : readRecords (fun _ => 0) (tornLog ++ more) = .ok [] := by
    rw [tornLog, append_assoc, readRecords_header, scanV2_stop hnext]
  have hne : (tornLog ++ more).isEmpty = false := rfl
  rw [loadFromDisk_eq, Option.getD_some, hread, hne]
  rfl

/-- The commit mark flushed behind the torn blob is not read back. -/
theorem reload_loses_commit_after_torn : loadFromDisk (fun _ => 0) (some tornLog) = .ok ⟨[], 0, false⟩ ∧
    loadFromDisk (fun _ => 0) ((opened ⟨[], 0, false⟩ (some tornLog)).writeBatch (fun _ => 0)
      [.commit 7]).file =
      .ok ⟨[], 0, false⟩ :=
  ⟨load_torn [] (by decide), load_torn (frame (fun _ => 0) (.commit 7)) (by decide)⟩

end WalOnDisk

end Akar
