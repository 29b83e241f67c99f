import Akar.ChunkCompression
import Akar.Slots

namespace Akar

open ByteCodec List Option

variable {bytes : Bytes}

theorem exists_compressIntegerImpl (h : 0 < bytes.length) :
    ∃ used body, compressIntegerImpl bytes = some (UInt8.ofNat used :: body) ∧ body.length = used ∧
      used ≤ bytes.length := by
  have hle : (bytes.rdropWhile (· = 0)).length ≤ bytes.length :=
    (List.rdropWhile_prefix _ bytes).length_le
  have hused : max (bytes.rdropWhile (· = 0)).length 1 ≤ bytes.length := by omega
  exact ⟨_, _, if_pos hused, length_take_of_le hused, hused⟩

theorem length_decompressIntegerImpl (data : Bytes) (size : Nat) :
    (decompressIntegerImpl data size).length = size := by
  unfold decompressIntegerImpl
  split
  · exact length_replicate
  · rw [length_append, length_replicate, length_take]
    omega

theorem length_unpackValues_le (size n : Nat) (data : Bytes) : (unpackValues size n data).length ≤
    n * size := by
  induction n generalizing data with
  | zero => exact Nat.zero_le _
  | succ n ih =>
    cases data with
    | nil => exact Nat.zero_le _
    | cons used data =>
      dsimp only [unpackValues]
      split
      · exact Nat.zero_le _
      · have hrest := ih (data.drop (min used.toNat size))
        rw [length_append, length_decompressIntegerImpl, Nat.succ_mul]
        omega

variable {data : Bytes} {size : Nat}

theorem unpackValues_packValues (hpos : 0 < size) (hsize : size < 256) (n : Nat)
    (hdata : data.length = n * size) :
    ∃ packed, packValues size n data = some packed ∧ unpackValues size n packed = data := by
  induction n generalizing data with
  | zero =>
    rw [Nat.zero_mul] at hdata
    exact ⟨[], rfl, (eq_nil_of_length_eq_zero hdata).symm⟩
  | succ n ih =>
    rw [Nat.succ_mul] at hdata
    have hfirst : (data.take size).length = size := length_take_of_le (by omega)
    have hdrop : (data.drop size).length = n * size := by
      rw [length_drop]
      omega
    obtain ⟨rest, hrest, hback⟩ := ih hdrop
    obtain ⟨used, body, hpacked, hbody, hused⟩ := exists_compressIntegerImpl (h := hfirst ▸ hpos)
    have hvalue := decompress_compressIntegerImpl hpacked hfirst.le hsize
    rw [hfirst, Nat.sub_self, replicate_zero, append_nil] at hvalue
    refine ⟨UInt8.ofNat used :: body ++ rest, ?_, ?_⟩
    · rw [packValues, if_neg (by omega), hpacked, hrest]
    · have hcount : (UInt8.ofNat used).toNat = used := by
        exact Nat.mod_eq_of_lt (by omega)
      have hmin : min used size = body.length := by omega
      rw [cons_append, unpackValues, hcount, hmin, if_neg (by rw [length_append]; omega),
        take_left, drop_left, hvalue, hback, take_append_drop]

variable {n : Nat}

theorem decompressIntegerBitpacking_header (hn : n < 2 ^ 32) (packed : Bytes) :
    decompressIntegerBitpacking (chunkHeader n size ++ packed) =
      unpackValues (size % 256) n packed := by
  have hlen := length_toLe 4 n
  have hcount : ofLe (toLe 4 n) = n := ofLe_toLe_of_lt hn
  rw [chunkHeader, cons_append, decompressIntegerBitpacking]
  rw [if_neg (by rw [length_append]; omega), take_left' hlen, drop_left' hlen, hcount,
    UInt8.toNat_ofNat']

theorem toLe_ofLe (bytes : Bytes) : toLe bytes.length (ofLe bytes) = bytes := by
  induction bytes with
  | nil => rfl
  | cons b bytes ih =>
    have hb := b.toNat_lt
    have hhead : UInt8.ofNat (b.toNat + 256 * ofLe bytes) = b := by
      apply UInt8.toNat_inj.mp
      rw [UInt8.toNat_ofNat']
      omega
    have htail : (b.toNat + 256 * ofLe bytes) / 256 = ofLe bytes := by omega
    rw [length_cons, ofLe, toLe, hhead, htail, ih]

section Words

variable {width : Nat}

theorem readWords_lt (n : Nat) (data : Bytes) : ∀ v ∈ readWords width n data, v < 256 ^ width := by
  induction n generalizing data with
  | zero =>
    nofun
  | succ n ih =>
    unfold readWords
    split
    · nofun
    next hlen =>
      rw [forall_mem_cons]
      have hlt := ofLe_lt (data.take width)
      rw [length_take_of_le (Nat.le_of_not_lt hlen)] at hlt
      exact ⟨hlt, ih _⟩

theorem length_readWords {n : Nat} {data : Bytes} (h : data.length = n * width) :
    (readWords width n data).length = n := by
  induction n generalizing data with
  | zero => rfl
  | succ n ih =>
    rw [Nat.succ_mul] at h
    have hdrop : (data.drop width).length = n * width := by
      rw [length_drop]
      omega
    rw [readWords, if_neg (by omega), length_cons, ih hdrop]

theorem length_writeWords (words : List Nat) : (writeWords width words).length =
    words.length * width := by
  induction words with
  | nil => simp [writeWords]
  | cons v words ih =>
    rw [writeWords, flatMap_cons, length_append, length_toLe, length_cons, Nat.succ_mul]
    rw [writeWords] at ih
    omega

variable {words : List Nat}

theorem readWords_writeWords (h : ∀ v ∈ words, v < 256 ^ width) :
    readWords width words.length (writeWords width words) = words := by
  induction words with
  | nil => rfl
  | cons v words ih =>
    rw [forall_mem_cons] at h
    have hlen := length_toLe width v
    have hrest := ih h.2
    rw [writeWords] at hrest
    rw [length_cons, readWords, writeWords, flatMap_cons,
      if_neg (by rw [length_append]; omega), take_left' hlen, drop_left' hlen, ofLe_toLe_of_lt h.1,
        hrest]

theorem writeWords_readWords {n : Nat} {data : Bytes} (h : data.length = n * width) :
    writeWords width (readWords width n data) = data := by
  induction n generalizing data with
  | zero =>
    rw [Nat.zero_mul] at h
    exact (eq_nil_of_length_eq_zero h).symm
  | succ n ih =>
    rw [Nat.succ_mul] at h
    have hdrop : (data.drop width).length = n * width := by
      rw [length_drop]
      omega
    have hfirst : (data.take width).length = width := length_take_of_le (by omega)
    have hword := toLe_ofLe (data.take width)
    rw [hfirst] at hword
    have hrest := ih hdrop
    rw [writeWords] at hrest
    rw [readWords, if_neg (by omega), writeWords, flatMap_cons, hword, hrest, take_append_drop]

theorem wrappingSub_lt (v w : Nat) : wrappingSub width v w < 256 ^ width :=
  Nat.mod_lt _ (Nat.pow_pos (by decide))

theorem wrappingAdd_wrappingSub {v w : Nat} (hv : v < 256 ^ width) (hw : w < 256 ^ width) :
    wrappingAdd width (wrappingSub width v w) w = v := by
  unfold wrappingAdd wrappingSub
  generalize 256 ^ width = b at hv hw
  by_cases hle : w ≤ v
  · have hsub : v + b - w = (v - w) + b := by omega
    rw [hsub, Nat.add_mod_right, Nat.mod_eq_of_lt (show v - w < b by omega),
      Nat.sub_add_cancel hle, Nat.mod_eq_of_lt hv]
  · rw [Nat.mod_eq_of_lt (show v + b - w < b by omega)]
    have hsum : v + b - w + w = v + b := by omega
    rw [hsum, Nat.add_mod_right, Nat.mod_eq_of_lt hv]

theorem sums_deltas {prev : Nat} (hprev : prev < 256 ^ width) (h : ∀ v ∈ words, v < 256 ^ width) :
    sums width prev (deltas width prev words) = words := by
  induction words generalizing prev with
  | nil => rfl
  | cons v words ih =>
    rw [forall_mem_cons] at h
    have hv : wrappingAdd width prev (wrappingSub width v prev) = v := by
      rw [wrappingAdd, Nat.add_comm]
      exact wrappingAdd_wrappingSub h.1 hprev
    rw [deltas, sums, hv, ih h.1 h.2]

theorem deltas_lt (prev : Nat) (words : List Nat) : ∀ d ∈ deltas width prev words, d < 256 ^ width := by
  induction words generalizing prev with
  | nil =>
    nofun
  | cons v words ih =>
    rw [deltas, forall_mem_cons]
    exact ⟨wrappingSub_lt .., ih v⟩

theorem length_deltas (prev : Nat) (words : List Nat) : (deltas width prev words).length =
    words.length := by
  induction words generalizing prev with
  | nil => rfl
  | cons v words ih => rw [deltas, length_cons, ih, length_cons]

end Words

theorem foldl_min_le (first : Nat) (words : List Nat) : words.foldl min first ≤ first := by
  induction words generalizing first with
  | nil => exact le_rfl
  | cons v words ih => exact (ih (min first v)).trans (Nat.min_le_left ..)

theorem padded_of_length {expected : Nat} (h : bytes.length = expected) : padded bytes expected =
    bytes := by
  rw [padded, h, Nat.sub_self, replicate_zero, append_nil]

variable {width : Nat}

theorem decompressFloat_header (hn : n < 2 ^ 32) (hwidth : width < 256)
    (strategy : FloatCompressionStrategy) (payload : Bytes) (expected : Nat) :
    decompressFloat (chunkHeader n width ++ strategy.tag :: payload) expected = match strategy with
      | .raw => padded (payload.take (n * width)) (max expected (n * width))
      | .offset =>
        if payload.length < width ∨ width ≠ 4 ∧ width ≠ 8 then []
        else
          padded (writeWords width
            ((readWords width n (unpackValues width n (payload.drop width))).map fun d =>
            wrappingAdd width d (ofLe (payload.take width)))) (max expected (n * width))
      | .delta =>
        padded (writeWords (if width = 4 then 4 else 8) (sums (if width = 4 then 4 else 8) 0
            (readWords (if width = 4 then 4 else 8) n (unpackValues width n payload))))
              (max expected (n * width)) := by
  have hlen := length_toLe 4 n
  have hcount : ofLe (toLe 4 n) = n := ofLe_toLe_of_lt hn
  have hsize : (UInt8.ofNat width).toNat = width := by
    exact Nat.mod_eq_of_lt hwidth
  have hpayload : (toLe 4 n ++ strategy.tag :: payload).drop 5 = payload := by
    rfl
  rw [chunkHeader, cons_append, decompressFloat, if_neg (by rw [length_append, length_cons]; omega)]
  simp only [hsize, take_left' hlen, hcount, hpayload, drop_left' hlen, head?_cons]
  cases strategy with
  | raw | offset | delta => rfl

theorem decompressFloat_compressFloat (hn : n < 2 ^ 32) (hwidth : width = 4 ∨ width = 8)
    (hdata : data.length = n * width) :
    ∃ chunk, compressFloat data n width = some chunk ∧ chunk.compression = .float ∧
      decompressFloat chunk.data data.length = data := by
  have hpos : 0 < width := by omega
  have hlt : width < 256 := by omega
  have hmax : max data.length (n * width) = data.length := by omega
  have hraw : decompressFloat (chunkHeader n width ++ FloatCompressionStrategy.raw.tag :: data.take
      (n * width))
      data.length = data := by
    rw [decompressFloat_header hn hlt]
    rw [hmax, ← hdata, take_length, take_length, padded_of_length rfl]
  unfold compressFloat
  split
  next => exact ⟨_, rfl, rfl, hraw⟩
  next hsome =>
    have hwords : ∀ v ∈ readWords width n data, v < 256 ^ width := readWords_lt n data
    have hlen := length_readWords hdata
    have hback := writeWords_readWords hdata
    split
    next => exact ⟨_, rfl, rfl, hraw⟩
    next first others heq =>
      rw [heq] at hwords hlen hback
      have hall := forall_mem_cons.mp hwords
      dsimp only
      rw [hlen]
      -- the least word and the two sequences that may be packed in place of the words
      have hmin : others.foldl min first < 256 ^ width := (foldl_min_le ..).trans_lt hall.1
      generalize hm : others.foldl min first = least at hmin
      have hoffsets : ∀ v ∈ (first :: others).map (fun v => wrappingSub width v least), v <
          256 ^ width := by
        intro v hv
        obtain ⟨u, -, rfl⟩ := mem_map.mp hv
        exact wrappingSub_lt ..
      have hdiffs : ∀ v ∈ first :: deltas width first others, v < 256 ^ width :=
        forall_mem_cons.mpr ⟨hall.1, deltas_lt first others⟩
      have hlenOffsets : ((first :: others).map fun v => wrappingSub width v least).length = n := by
        rw [length_map, hlen]
      have hlenDiffs : (first :: deltas width first others).length = n := by
        rw [length_cons, length_deltas, ← hlen, length_cons]
      obtain ⟨offsets, hpackOffsets, hunpackOffsets⟩ := unpackValues_packValues hpos hlt n
        (by rw [length_writeWords, hlenOffsets] : (writeWords width _).length = n * width)
      obtain ⟨diffs, hpackDiffs, hunpackDiffs⟩ := unpackValues_packValues hpos hlt n
        (by rw [length_writeWords, hlenDiffs] :
          (writeWords width (first :: deltas width first others)).length = n * width)
      rw [hpackOffsets, hpackDiffs]
      refine ⟨_, rfl, rfl, ?_⟩
      split
      · exact hraw
      · split
        · rw [decompressFloat_header hn hlt]
          rw [if_neg (by rw [length_append, length_toLe]; omega), take_left' (length_toLe width least),
            drop_left' (length_toLe width least), ofLe_toLe_of_lt hmin, hunpackOffsets]
          have hread := readWords_writeWords hoffsets
          rw [hlenOffsets] at hread
          have hwords' : ((first :: others).map fun v => wrappingSub width v least).map
              (fun d => wrappingAdd width d least) = first :: others := by
            rw [List.map_map]
            have hcongr := map_congr_left fun v hv => wrappingAdd_wrappingSub (hwords v hv) hmin
            exact hcongr.trans (List.map_id _)
          rw [hread, hwords', hback, hmax, padded_of_length rfl]
        · rw [decompressFloat_header hn hlt]
          have hstep : (if width = 4 then 4 else 8) = width := by
            rcases hwidth with rfl | rfl <;> rfl
          have hread := readWords_writeWords hdiffs
          rw [hlenDiffs] at hread
          have hfirst : wrappingAdd width 0 first = first := by
            rw [wrappingAdd, Nat.zero_add, Nat.mod_eq_of_lt hall.1]
          rw [hstep, hunpackDiffs, hread, sums, hfirst, sums_deltas hall.1 hall.2, hback, hmax,
            padded_of_length rfl]

theorem decompressConstant_compressConstant (value : Bytes) (hn : n < 2 ^ 32) :
    decompressConstant (compressConstant (replicate n value).flatten n).data =
      (replicate n value).flatten := by
  have hlen := length_toLe 4 n
  have hcount : ofLe (toLe 4 n) = n := ofLe_toLe_of_lt hn
  have htotal : (replicate n value).flatten.length = n * value.length := by simp
  dsimp only [compressConstant]
  generalize hsize : (if (replicate n value).flatten = [] then 0
    else (replicate n value).flatten.length / max n 1) = size
  rw [decompressConstant, if_neg (by rw [length_append]; omega), take_left' hlen, drop_left' hlen,
    hcount]
  cases n with
  | zero => rfl
  | succ n =>
    have hvalue : (replicate (n + 1) value).flatten.take size = value := by
      have hsize' : size = value.length := by
        rw [← hsize]
        split
        next hnil =>
          rw [hnil, length_nil] at htotal
          rcases Nat.mul_eq_zero.mp htotal.symm with h | h
          · cases h
          · exact h.symm
        next =>
          rw [htotal, Nat.max_eq_left (Nat.succ_pos n), Nat.mul_div_cancel_left _ (Nat.succ_pos n)]
      rw [hsize', replicate_succ, flatten_cons, take_left]
    rw [hvalue]

theorem packByte_eight : ∀ b₀ b₁ b₂ b₃ b₄ b₅ b₆ b₇ : Bool, ∀ k < 8,
    decide (packByte [b₀, b₁, b₂, b₃, b₄, b₅, b₆, b₇] &&& (1 <<< UInt8.ofNat k) ≠ 0) =
      [b₀, b₁, b₂, b₃, b₄, b₅, b₆, b₇][k]?.getD false := by
  decide +kernel

theorem packByte_bit (bits : List Bool) {k : Nat} (hk : k < 8) :
    decide (packByte bits &&& (1 <<< UInt8.ofNat k) ≠ 0) = bits[k]?.getD false := by
  let bit (i : Nat) : Bool := bits[i]?.getD false
  -- only the first eight bits are looked at
  have hfirst : ∀ i < 8, [bit 0, bit 1, bit 2, bit 3, bit 4, bit 5, bit 6, bit 7][i]?.getD false =
      bit i := by
    intro i hi
    have hcases : i = 0 ∨ i = 1 ∨ i = 2 ∨ i = 3 ∨ i = 4 ∨ i = 5 ∨ i = 6 ∨ i = 7 := by omega
    rcases hcases with rfl | rfl | rfl | rfl | rfl | rfl | rfl | rfl <;> rfl
  have hpack : packByte bits = packByte [bit 0, bit 1, bit 2, bit 3, bit 4, bit 5, bit 6, bit 7] := rfl
  rw [hpack, packByte_eight _ _ _ _ _ _ _ _ k hk, hfirst k hk]

theorem decompressBoolean_compressBoolean (h : ∀ b ∈ data, b = 0 ∨ b = 1) :
    decompressBoolean (compressBoolean data data.length).data data.length = some data := by
  have hbit : ∀ i ∈ range data.length,
      ((compressBoolean data data.length).data[i / 8]?.map fun b =>
        if b &&& (1 <<< UInt8.ofNat (i % 8)) ≠ 0 then (1 : UInt8) else 0) = some (data[i]?.getD 0) := by
    intro i hi
    have hlt := mem_range.mp hi
    have hbyte : (compressBoolean data data.length).data[i / 8]? =
        some (packByte ((data.map fun b => decide (b ≠ 0)).drop (8 * (i / 8)))) := by
      dsimp only [compressBoolean]
      rw [take_length, getElem?_map, getElem?_range (by omega)]
      rfl
    have hindex := Nat.div_add_mod i 8
    have hpacked :=
      packByte_bit ((data.map fun b => decide (b ≠ 0)).drop (8 * (i / 8)))
      (Nat.mod_lt i (by decide : 0 < 8))
    rw [getElem?_drop, hindex, getElem?_map, getElem?_eq_getElem hlt, map_some, getD_some] at hpacked
    rw [hbyte, map_some, getElem?_eq_getElem hlt, getD_some]
    rcases h _ (getElem_mem hlt) with hzero | hone
    · rw [hzero] at hpacked ⊢
      rw [if_neg (of_decide_eq_false hpacked)]
    · rw [hone] at hpacked ⊢
      rw [if_pos (of_decide_eq_true hpacked)]
  rw [decompressBoolean, mapM_eq_some_map hbit]
  congr 1
  apply ext_getElem?
  intro i
  rw [getElem?_map]
  by_cases hi : i < data.length
  · rw [getElem?_range hi, map_some, getElem?_eq_getElem hi, getD_some]
  · rw [getElem?_eq_none (by simpa using Nat.le_of_not_lt hi), getElem?_eq_none (Nat.le_of_not_lt hi)]
    rfl

def DictionaryFits (strings : List String) : Prop :=
  strings.length < 2 ^ 32 ∧ ∀ s ∈ strings, (textBytes s).length < 2 ^ 32

theorem readUtf8_append {s : String} (h : (textBytes s).length < 2 ^ 32) (rest : Bytes) :
    readUtf8 (toLe 4 (textBytes s).length ++ textBytes s ++ rest) = .ok (s, rest) := by
  have hbytes : (⟨(textBytes s).toArray⟩ : ByteArray) = s.toByteArray := rfl
  have hvalid : String.fromUTF8? s.toByteArray = some s := dif_pos s.isValidUTF8
  rw [readUtf8, append_assoc, Reader.bind_ok (le_toLe h _),
    Reader.bind_ok (Reader.exactly_append _ _ rest rfl), hbytes]
  simp only [hvalid]

theorem deserializeDictionary_serializeDictionary {strings : List String} (h : DictionaryFits strings) :
    deserializeDictionary (serializeDictionary strings) = .ok strings := by
  have hmany := Reader.many_flatMap (fun s hs rest => readUtf8_append (h.2 s hs) rest) []
  rw [append_nil] at hmany
  rw [deserializeDictionary, serializeDictionary, Reader.bind_ok (le_toLe h.1 _), hmany]
  rfl

def InDomain (compression : CompressionType) (data : Bytes) (n : Nat) : Prop := match compression with
  | .constant => ∃ value, data = (replicate n value).flatten
  | .boolean => data.length = n ∧ ∀ b ∈ data, b = 0 ∨ b = 1
  | .integerBitpacking | .listDelta => ∃ width, 0 < width ∧ data.length = n * width
  | .float => ∃ width, (width = 4 ∨ width = 8) ∧ data.length = n * width
  | .stringDictionary => ∃ strings, DictionaryFits strings ∧ data = serializeDictionary strings
  | .oneValue | .uncompressed => True

def Narrow (compression : CompressionType) (data : Bytes) (n : Nat) : Prop := match compression with
  | .integerBitpacking | .listDelta => n = 0 ∨ data.length < n * 256
  | _ => True

def Lossless (compression : CompressionType) (data : Bytes) (n : Nat) : Prop :=
  ∃ chunk, compress compression data n = some chunk ∧ decompress chunk data.length = some data

variable {compression : CompressionType}

theorem packed_lossless_iff (hc : compression = .integerBitpacking ∨ compression = .listDelta)
    (hn : n < 2 ^ 32) (hwidth : 0 < width) (hdata : data.length = n * width) :
    Lossless compression data n ↔ n = 0 ∨ data.length < n * 256 := by
  have hcompress : compress compression data n =
      compressIntegerBitpacking data n (if n = 0 then 8 else data.length / n) := by
    rcases hc with rfl | rfl <;> rfl
  unfold Lossless
  rw [hcompress]
  by_cases hzero : n = 0
  · subst hzero
    rw [Nat.zero_mul] at hdata
    obtain rfl := eq_nil_of_length_eq_zero hdata
    exact ⟨fun _ => .inl rfl, fun _ => ⟨_, rfl, rfl⟩⟩
  · have hpos := Nat.pos_of_ne_zero hzero
    have hsize : (if n = 0 then 8 else data.length / n) = width := by
      rw [if_neg hzero, hdata, Nat.mul_div_cancel_left _ hpos]
    rw [hsize, compressIntegerBitpacking]
    constructor
    · rintro ⟨chunk, hchunk, hback⟩
      obtain ⟨packed, -, rfl⟩ := map_eq_some_iff.mp hchunk
      -- no more than 255 bytes of each value come back
      have hdecompressed : unpackValues (width % 256) n packed = data := by
        rw [← decompressIntegerBitpacking_header hn]
        exact some.inj hback
      have hlen := length_unpackValues_le (width % 256) n packed
      rw [hdecompressed] at hlen
      have hmod : n * (width % 256) < n * 256 :=
        Nat.mul_lt_mul_of_pos_left (Nat.mod_lt _ (by decide)) hpos
      exact .inr (by omega)
    · intro hnarrow
      have hlt : width < 256 := by
        rcases hnarrow with h | h
        · exact absurd h hzero
        · rw [hdata] at h
          exact Nat.lt_of_mul_lt_mul_left h
      obtain ⟨packed, hpacked, hback⟩ := unpackValues_packValues hwidth hlt n hdata
      refine ⟨_, congrArg _ hpacked, ?_⟩
      show some (decompressIntegerBitpacking _) = _
      rw [decompressIntegerBitpacking_header hn, Nat.mod_eq_of_lt hlt, hback]

theorem lossless_iff (hn : n < 2 ^ 32) (hdomain : InDomain compression data n) :
    Lossless compression data n ↔ Narrow compression data n := by
  cases compression with
  | constant =>
    obtain ⟨value, rfl⟩ := hdomain
    have hback := decompressConstant_compressConstant value hn
    exact ⟨fun _ => trivial, fun _ => ⟨_, rfl, congrArg some hback⟩⟩
  | boolean =>
    obtain ⟨rfl, hbits⟩ := hdomain
    exact ⟨fun _ => trivial, fun _ => ⟨_, rfl, decompressBoolean_compressBoolean hbits⟩⟩
  | integerBitpacking =>
    obtain ⟨width, hwidth, hdata⟩ := hdomain
    exact packed_lossless_iff (.inl rfl) hn hwidth hdata
  | listDelta =>
    obtain ⟨width, hwidth, hdata⟩ := hdomain
    exact packed_lossless_iff (.inr rfl) hn hwidth hdata
  | float =>
    refine ⟨fun _ => trivial, fun _ => ?_⟩
    -- without values the width is taken as 4
    obtain ⟨width, hwidth, hdata, hsize⟩ : ∃ width, (width = 4 ∨ width = 8) ∧ data.length = n * width ∧
        (if n = 0 then 4 else data.length / n) = width := by
      obtain ⟨width, hwidth, hdata⟩ := hdomain
      by_cases hzero : n = 0
      · rw [hzero, Nat.zero_mul] at hdata
        exact ⟨4, .inl rfl, by rw [hzero, Nat.zero_mul, hdata], if_pos hzero⟩
      · refine ⟨width, hwidth, hdata, ?_⟩
        rw [if_neg hzero, hdata, Nat.mul_div_cancel_left _ (Nat.pos_of_ne_zero hzero)]
    obtain ⟨chunk, hchunk, hfloat, hback⟩ := decompressFloat_compressFloat hn hwidth hdata
    refine ⟨chunk, (congrArg (compressFloat data n) hsize).trans hchunk, ?_⟩
    rw [decompress, hfloat]
    exact congrArg some hback
  | stringDictionary =>
    obtain ⟨strings, hfits, rfl⟩ := hdomain
    have hback := deserializeDictionary_serializeDictionary hfits
    refine ⟨fun _ => trivial, fun _ => ⟨_, rfl, ?_⟩⟩
    show some (decompressStringDictionary (compressStringDictionary (serializeDictionary strings)
      n).data) = _
    simp only [compressStringDictionary, hback, decompressStringDictionary]
  | oneValue | uncompressed => exact ⟨fun _ => trivial, fun _ => ⟨_, rfl, rfl⟩⟩

def exactPayload (compression : CompressionType) (valueSize payloadLen : Nat) : Bool :=
  match compression, packs valueSize with
  | .integerBitpacking, true => payloadLen = valueSize
  | .float, true => payloadLen < 256
  | _, _ => true

theorem decompressSerializedValue_iff (compression : CompressionType) (tag : UInt8)
    (payload : Bytes) (valueSize : Nat) :
    (∃ out, compressSerializedValue compression (tag :: payload) valueSize = some out ∧
      decompressSerializedValue compression out valueSize = tag :: payload) ↔
      exactPayload compression valueSize payload.length = true := by
  unfold compressSerializedValue
  dsimp only
  split
  next hpacks =>
    have hsize : 0 < valueSize ∧ valueSize ≤ 8 := by simpa [packs] using hpacks
    have hexact : exactPayload .integerBitpacking valueSize payload.length =
        decide (payload.length = valueSize) := by
      simp only [exactPayload, hpacks]
    rw [hexact, decide_eq_true_eq]
    constructor
    · rintro ⟨out, hout, hback⟩
      obtain ⟨packed, -, rfl⟩ := map_eq_some_iff.mp hout
      have hpayload : decompressIntegerImpl packed valueSize = payload := by
        simpa only [decompressSerializedValue, hpacks, cons.injEq, true_and] using hback
      rw [← hpayload, length_decompressIntegerImpl]
    · intro hlen
      have hpos : 0 < payload.length := by omega
      obtain ⟨used, body, hpacked, -, -⟩ := exists_compressIntegerImpl hpos
      have hback := decompress_compressIntegerImpl hpacked hlen.le (by omega)
      rw [hlen, Nat.sub_self, replicate_zero, append_nil] at hback
      refine ⟨_, congrArg _ hpacked, ?_⟩
      simp only [decompressSerializedValue, hpacks, hback]
  next hpacks =>
    have hback : decompressSerializedValue .float (tag :: UInt8.ofNat payload.length :: payload)
        valueSize =
        tag :: payload.take (min (payload.length % 256) payload.length) := by
      simp [decompressSerializedValue, hpacks]
    have hexact : exactPayload .float valueSize payload.length = decide (payload.length < 256) := by
      simp only [exactPayload, hpacks]
    rw [hexact, decide_eq_true_eq]
    constructor
    · rintro ⟨out, hout, hout'⟩
      obtain rfl := some.inj hout
      rw [hback] at hout'
      have hlen := congrArg List.length (cons.inj hout').2
      rw [length_take] at hlen
      omega
    · intro hlen
      refine ⟨_, rfl, ?_⟩
      rw [hback, Nat.mod_eq_of_lt hlen, Nat.min_self, take_length]
  next hints hfloat =>
    refine ⟨fun hout => ?_, fun hexact => ⟨_, rfl, ?_⟩⟩
    · unfold exactPayload
      split
      next hpacks => exact absurd hpacks (hints rfl)
      next hpacks => exact absurd hpacks (hfloat rfl)
      next => rfl
    · unfold decompressSerializedValue
      dsimp only
      split
      next hpacks => exact absurd hpacks (hints rfl)
      next hpacks => exact absurd hpacks (hfloat rfl)
      next => rfl

/-- Chunks come back as they were, packed ones if their values are narrower than 256 bytes; single
values unless the column packs them at another width, or marks their length in one byte. -/
theorem compression_lossless_iff (compression : CompressionType) :
    (∀ data n, n < 2 ^ 32 → InDomain compression data n →
      (Lossless compression data n ↔ Narrow compression data n)) ∧
      ∀ (v : Value) (valueSize : Nat),
        (∃ out, compressSerializedValue compression (serializeValue v) valueSize = some out ∧
          decompressSerializedValue compression out valueSize = serializeValue v) ↔
          exactPayload compression valueSize ((serializeValue v).length - 1) = true := by
  refine ⟨fun data n hn hdomain => lossless_iff hn hdomain, fun v valueSize => ?_⟩
  obtain ⟨tag, payload, hbytes⟩ := exists_cons_of_length_pos (serializeValue_pos v)
  rw [hbytes]
  exact decompressSerializedValue_iff compression tag payload valueSize

theorem compression_lossless_pair :
    Lossless .integerBitpacking [5, 0, 0, 1] 2 ∧ Lossless .constant [7, 7, 7] 3 :=
  ⟨((compression_lossless_iff .integerBitpacking).1 [5, 0, 0, 1] 2 (by decide)
    ⟨2, by decide, rfl⟩).mpr (.inr (by decide)),
    ((compression_lossless_iff .constant).1 [7, 7, 7] 3 (by decide) ⟨[7], rfl⟩).mpr trivial⟩

/-- A null panics in a packed column, an `Int32` comes back longer and an `Int64` shorter than it
was, and a string of 300 bytes loses all but 48 of its payload's bytes in a float column. -/
theorem packed_values_lost :
    compressSerializedValue .integerBitpacking (serializeValue .null) 8 = none ∧
      (compressSerializedValue .integerBitpacking (serializeValue (.int32 1)) 8).map
        (decompressSerializedValue .integerBitpacking · 8) = some [3, 1, 0, 0, 0, 0, 0, 0, 0] ∧
      (compressSerializedValue .integerBitpacking (serializeValue (.int64 (2 ^ 32 + 1))) 4).map
        (decompressSerializedValue .integerBitpacking · 4) = some [2, 1, 0, 0, 0] ∧
      ((compressSerializedValue .float (serializeValue (.blob (List.replicate 300 7))) 8).map
        (decompressSerializedValue .float · 8)).map List.length = some 49 := by
  decide +kernel

end Akar
