import Akar.ValueCodec

namespace Akar

open ByteCodec List

@[reducible] def lenient : TextDecoding := ⟨fun _ => "", .ok⟩

def fits (v : Value) : Bool := @codable lenient v

variable {α : Type} {out : Bytes} {r : Reader ColumnError α}

theorem read_bind_ok {β : Type} {f : α → Reader ColumnError β} {bs : Bytes} {b : β}
    (h : r.bind f bs = .ok (b, out)) : ∃ a mid, r bs = .ok (a, mid) ∧ f a mid = .ok (b, out) := by
  unfold Reader.bind at h
  split at h
  next a mid heq => exact ⟨a, mid, heq, h⟩
  next => cases h

variable {rest : Bytes}

theorem many_eq_ok {write : α → Bytes} (good : α → Prop) {as : List α}
    (hgood : ∀ a ∈ as, ∀ rest out, r (write a ++ rest) = .ok (a, out) → good a)
    (hback : ∀ a ∈ as, good a → ∀ rest, r (write a ++ rest) = .ok (a, rest))
    (h : Reader.many r as.length (as.flatMap write ++ rest) = .ok (as, out)) : ∀ a ∈ as, good a := by
  induction as generalizing out with
  | nil =>
    nofun
  | cons a as ih =>
    rw [flatMap_cons, append_assoc, length_cons, Reader.many] at h
    obtain ⟨a', mid, ha, h⟩ := read_bind_ok h
    obtain ⟨as', last, has, h⟩ := read_bind_ok h
    have heq : a' = a ∧ as' = as := by
      have hcons := Except.ok.inj h
      exact cons.inj (Prod.mk.inj hcons).1
    obtain ⟨rfl, rfl⟩ := heq
    have hfirst := hgood a' mem_cons_self _ _ ha
    -- the element is read back exactly, so the others start where they were written
    rw [hback a' mem_cons_self hfirst] at ha
    obtain rfl := (Prod.mk.inj (Except.ok.inj ha)).2
    have hothers := ih (forall_mem_cons.mp hgood).2
      (forall_mem_cons.mp hback).2 has
    rw [forall_mem_cons]
    exact ⟨hfirst, hothers⟩

theorem and_eq_true_intro {p : Prop} [Decidable p] {b : Bool} (hp : p) (hb : b = true) :
    (decide p && b) = true := by
  rw [hb, decide_eq_true hp]
  rfl

variable {text : String}

theorem fits_json (hlen : (textBytes text).length < 2 ^ 32) : fits (.json text) = true :=
  and_eq_true_intro hlen (decide_eq_true rfl)

section Decoding

variable [TextDecoding]

def deserializeValue (data : Bytes) : Except ColumnError (Value × Bytes) := readValue data.length data

/-- The loop of `deserialize_values_from_bytes`: missing values are null, and after one that cannot
be read so are all the others. -/
def decodeValues : Nat → Bytes → List Value
  | 0, _ => []
  | n + 1, [] => .null :: decodeValues n []
  | n + 1, tag :: data =>
    match deserializeValue (tag :: data) with
    | .ok (v, rest) => v :: decodeValues n rest
    | .error _ => replicate (n + 1) .null

def deserializeValuesFromBytes (data : Bytes) (expectedCount : Nat) : List Value :=
  if data.isEmpty ∨ expectedCount = 0 then [] else decodeValues expectedCount data

variable {fuel : Nat}

theorem codable_json_of_read (hlen : (textBytes text).length < 2 ^ 32)
    (h : readValue (fuel + 1) (serializeValue (.json text) ++ rest) = .ok (.json text, out)) :
      codable (.json text) = true := by
  rw [readValue_json_text hlen] at h
  show (decide _ && _) = true
  rw [Bool.and_eq_true]
  refine ⟨decide_eq_true hlen, ?_⟩
  cases hparse : TextDecoding.parseJson text with
  | error e =>
    rw [hparse] at h
    cases h
  | ok parsed =>
    rw [hparse] at h
    have hvalue := (Prod.mk.inj (Except.ok.inj h)).1
    exact decide_eq_true (Value.json.inj hvalue)

theorem many_of_read (build : List α → Value) (write : α → Bytes) (item : Reader ColumnError α)
    {tag : UInt8}
    {xs : List α} (hbytes : serializeValue (build xs) = tag :: (toLe 4 xs.length ++ xs.flatMap write))
    (htag : readPayload (readValue fuel) tag =
      (Reader.le eofValue 4).bind fun len => (Reader.many item len).bind fun xs => .pure (build xs))
    (hlen : xs.length < 2 ^ 32) (hinj : ∀ ys zs, build ys = build zs → ys = zs)
    (h : readValue (fuel + 1) (serializeValue (build xs) ++ rest) = .ok (build xs, out)) :
    ∃ mid, Reader.many item xs.length (xs.flatMap write ++ rest) = .ok (xs, mid) := by
  rw [readValue_counted build write item hbytes htag hlen] at h
  obtain ⟨ys, mid, hys, h⟩ := read_bind_ok h
  obtain rfl := hinj _ _ (Prod.mk.inj (Except.ok.inj h)).1
  exact ⟨mid, hys⟩

variable {v : Value}

theorem codable_of_read (hfits : fits v = true) (hfuel : (serializeValue v).length ≤ fuel)
    (h : readValue fuel (serializeValue v ++ rest) = .ok (v, out)) : codable v = true := by
  induction fuel generalizing v rest out with
  | zero => exact absurd hfuel (Nat.not_le.mpr (serializeValue_pos v))
  | succ fuel ih =>
    cases v with
    | string | blob => exact hfits
    | json => exact codable_json_of_read (and_eq_true_of_decide hfits).1 h
    | union tag v =>
      have hboth := and_eq_true_of_decide hfits
      have hbytes : serializeValue (.union tag v) =
          29 :: (sizedBytes (textBytes tag) ++ serializeValue v) := rfl
      have htag : readPayload (readValue fuel) 29 =
          (readText "eof reading union tag").bind fun name => (readValue fuel).bind fun v =>
            .pure (.union name v) := rfl
      rw [hbytes, cons_append, readValue_cons, htag, append_assoc,
        Reader.bind_ok (readText_sizedBytes hboth.1 _)] at h
      rw [hbytes, length_cons, length_append] at hfuel
      obtain ⟨v', mid, hv, h⟩ := read_bind_ok h
      have hvalue := (Value.union.inj (Prod.mk.inj (Except.ok.inj h)).1).2
      rw [hvalue] at hv
      exact and_eq_true_intro hboth.1 (ih hboth.2 (by omega) hv)
    | list vs =>
      have hboth := and_eq_true_of_decide hfits
      obtain ⟨_, hvs⟩ := many_of_read .list serializeValue (readValue fuel)
        (serializeValue_list vs) rfl hboth.1
        (fun _ _ => Value.list.inj) h
      have hlen {v : Value} (hv : v ∈ vs) :=
        length_item_le .list serializeValue (serializeValue_list vs) hfuel hv
      have hall := many_eq_ok (fun v => codable v = true)
        (fun v hv rest out hread => ih ((@codableValues_iff lenient vs).mp hboth.2 v hv) (hlen hv)
          hread)
        (fun v hv hgood rest => readValue_serializeValue hgood (hlen hv) rest) hvs
      exact and_eq_true_intro hboth.1 ((codableValues_iff vs).mpr hall)
    | map kvs =>
      have hboth := and_eq_true_of_decide hfits
      obtain ⟨_, hkvs⟩ := many_of_read .map serializePair (readPair fuel) (serializeValue_map kvs)
        rfl hboth.1
        (fun _ _ => Value.map.inj) h
      have hall := many_eq_ok (fun kv => codablePair kv = true)
        (fun kv hkv rest out hread => by
          obtain ⟨k, v⟩ := kv
          have hpair :=
            (Bool.and_eq_true _ _).mp ((@codablePairs_iff lenient kvs).mp hboth.2 (k, v) hkv)
          obtain ⟨hklen, hvlen⟩ := length_pair_le hfuel hkv
          have hsplit : serializePair (k, v) = serializeValue k ++ serializeValue v := rfl
          rw [hsplit, append_assoc] at hread
          obtain ⟨k', mid, hk, hread⟩ := read_bind_ok hread
          obtain ⟨v', last, hv, hread⟩ := read_bind_ok hread
          obtain ⟨rfl, rfl⟩ := Prod.mk.inj (Prod.mk.inj (Except.ok.inj hread)).1
          have hkey := ih hpair.1 hklen hk
          rw [readValue_serializeValue hkey hklen] at hk
          obtain rfl := (Prod.mk.inj (Except.ok.inj hk)).2
          exact (Bool.and_eq_true _ _).mpr ⟨hkey, ih hpair.2 hvlen hv⟩)
        (fun kv hkv hgood rest => by
          obtain ⟨k, v⟩ := kv
          have hpair := (Bool.and_eq_true _ _).mp hgood
          obtain ⟨hklen, hvlen⟩ := length_pair_le hfuel hkv
          exact readPair_serializePair (readValue_serializeValue hpair.1 hklen)
            (readValue_serializeValue hpair.2 hvlen) rest) hkvs
      exact and_eq_true_intro hboth.1 ((codablePairs_iff kvs).mpr hall)
    | struct fields =>
      have hboth := and_eq_true_of_decide hfits
      obtain ⟨_, hfields⟩ := many_of_read .struct serializeField (readField fuel)
        (serializeValue_struct fields) rfl hboth.1
        (fun _ _ => Value.struct.inj) h
      have hall := many_eq_ok (fun field => codableField field = true)
        (fun field hfield rest out hread => by
          obtain ⟨name, v⟩ := field
          have hpair :=
            and_eq_true_of_decide ((@codableFields_iff lenient fields).mp hboth.2 (name, v) hfield)
          have hsplit : serializeField (name, v) = sizedBytes (textBytes name) ++
              serializeValue v := rfl
          rw [readField, hsplit, append_assoc, Reader.bind_ok (readText_sizedBytes hpair.1 _)] at hread
          obtain ⟨v', last, hv, hread⟩ := read_bind_ok hread
          obtain rfl := (Prod.mk.inj (Prod.mk.inj (Except.ok.inj hread)).1).2
          exact and_eq_true_intro hpair.1 (ih hpair.2 (length_field_le hfuel hfield) hv))
        (fun field hfield hgood rest => by
          obtain ⟨name, v⟩ := field
          have hpair := and_eq_true_of_decide hgood
          exact readField_serializeField hpair.1
            (readValue_serializeValue hpair.2 (length_field_le hfuel hfield)) rest) hfields
      exact and_eq_true_intro hboth.1 ((codableFields_iff fields).mpr hall)
    | _ => rfl

theorem deserializeValue_append (h : codable v = true) (rest : Bytes) :
    deserializeValue (serializeValue v ++ rest) = .ok (v, rest) := by
  have hlen : (serializeValue v).length ≤ (serializeValue v ++ rest).length := by simp
  rw [deserializeValue, readValue_serializeValue h hlen]

theorem deserializeValue_json_refused {e : String} (hlen : (textBytes text).length < 2 ^ 32)
    (hparse : TextDecoding.parseJson text = .error e) :
    deserializeValue (serializeValue (.json text)) = .error (.invalidData s!"invalid json: {e}") := by
  have htext : readText "eof reading json data" _ = _ := readText_sizedBytes hlen []
  rw [append_nil] at htext
  show (readText "eof reading json data").bind _ _ = _
  rw [Reader.bind_ok htext]
  simp only [hparse]

variable {vs : List Value}

theorem decodeValues_flatMap (h : ∀ v ∈ vs, codable v = true) :
    decodeValues vs.length (vs.flatMap serializeValue) = vs := by
  induction vs with
  | nil => rfl
  | cons v vs ih =>
    rw [forall_mem_cons] at h
    have hread := deserializeValue_append h.1 (vs.flatMap serializeValue)
    rw [length_cons, flatMap_cons]
    -- a value has at least its tag
    obtain ⟨tag, data, hdata⟩ := exists_cons_of_length_pos (serializeValue_pos v)
    rw [hdata, cons_append] at hread ⊢
    rw [decodeValues, hread]
    show v :: decodeValues vs.length (vs.flatMap serializeValue) = v :: vs
    rw [ih h.2]

theorem deserializeValuesFromBytes_flatMap (h : ∀ v ∈ vs, codable v = true) :
    deserializeValuesFromBytes (vs.flatMap serializeValue) vs.length = vs := by
  unfold deserializeValuesFromBytes
  split
  next hempty =>
    cases vs with
    | nil => rfl
    | cons v =>
      have hpos := serializeValue_pos v
      rcases hempty with hempty | hempty
      · rw [flatMap_cons, List.isEmpty_iff, append_eq_nil_iff] at hempty
        rw [hempty.1] at hpos
        cases hpos
      · cases hempty
  next => exact decodeValues_flatMap h

/-- Values of fitting lengths are read back, one by one and as a list, with exactly their bytes
consumed, if their JSON texts parse to what they were printed from. -/
theorem values_roundTrip_iff (vs : List Value) (hfits : ∀ v ∈ vs, fits v = true) :
    ((∀ v ∈ vs, ∀ rest, deserializeValue (serializeValue v ++ rest) = .ok (v, rest)) ∧
      deserializeValuesFromBytes (vs.flatMap serializeValue) vs.length = vs) ↔ ∀ v ∈ vs,
        codable v = true := by
  constructor
  · intro h v hv
    have hread := h.1 v hv []
    have hlen : (serializeValue v).length ≤ (serializeValue v ++ []).length := by simp
    exact codable_of_read (hfits v hv) hlen hread
  · intro h
    exact ⟨fun v hv => deserializeValue_append (h v hv), deserializeValuesFromBytes_flatMap h⟩

end Decoding

def nesting (depth : Nat) (inString escaped : Bool) : List Char → Nat
  | [] => depth
  | c :: cs =>
    if inString then
      if escaped then nesting depth true false cs
      else if c = '\\' then nesting depth true true cs
      else nesting depth (c ≠ '"') false cs
    else if c = '"' then nesting depth true false cs
    else if c = '[' ∨ c = '\x7b' then max depth (nesting (depth + 1) false false cs)
    else if c = ']' ∨ c = '\x7d' then max depth (nesting (depth - 1) false false cs)
    else nesting depth false false cs

/-- The parser gives up at the 128th level; a text that `serde_json` printed is otherwise taken as
it is. -/
@[reducible] def recursionLimited : TextDecoding where
  replaced _ := ""
  parseJson text :=
    if 128 ≤ nesting 0 false false text.toList then .error
      "recursion limit exceeded at line 1 column 128" else .ok text

def nestedArrays : Nat → String
  | 0 => ""
  | n + 1 => "[" ++ nestedArrays n ++ "]"

theorem length_textBytes_nestedArrays (n : Nat) : (textBytes (nestedArrays n)).length = 2 * n := by
  show (nestedArrays n).utf8ByteSize = 2 * n
  induction n with
  | zero => rfl
  | succ n ih =>
    have hopen : "[".utf8ByteSize = 1 := rfl
    have hclose : "]".utf8ByteSize = 1 := rfl
    rw [nestedArrays, String.utf8ByteSize_append, String.utf8ByteSize_append, ih, hopen, hclose]
    omega

theorem toList_nestedArrays (n : Nat) : ∃ rest, (nestedArrays n).toList = replicate n '[' ++ rest := by
  induction n with
  | zero => exact ⟨_, rfl⟩
  | succ n ih =>
    obtain ⟨rest, hrest⟩ := ih
    rw [nestedArrays, String.toList_append, String.toList_append, hrest, replicate_succ]
    simp

theorem le_nesting (depth : Nat) (inString escaped : Bool) (cs : List Char) :
    depth ≤ nesting depth inString escaped cs := by
  induction cs generalizing depth inString escaped with
  | nil => exact le_rfl
  | cons c cs ih =>
    unfold nesting
    split
    · split
      · exact ih ..
      · split
        · exact ih ..
        · exact ih ..
    · split
      · exact ih ..
      · split
        · exact Nat.le_max_left ..
        · split
          · exact Nat.le_max_left ..
          · exact ih ..

theorem le_nesting_replicate (n depth : Nat) (cs : List Char) :
    depth + n ≤ nesting depth false false (replicate n '[' ++ cs) := by
  induction n generalizing depth with
  | zero => exact le_nesting ..
  | succ n ih =>
    have hdeeper := ih (depth + 1)
    have hopen : nesting depth false false (replicate (n + 1) '[' ++ cs) =
        max depth (nesting (depth + 1) false false (replicate n '[' ++ cs)) := rfl
    omega

section Limited

attribute [local instance] recursionLimited

theorem values_roundTrip_nested :
    deserializeValuesFromBytes
      ([Value.list [.map [(.string "a", .double 0)], .null], .json "[1]"].flatMap serializeValue) 2 =
      [Value.list [.map [(.string "a", .double 0)], .null], .json "[1]"] :=
  ((values_roundTrip_iff [Value.list [.map [(.string "a", .double 0)], .null], .json "[1]"]
    (by decide)).mpr (by decide)).2

theorem deep_json_lost :
    fits (.json (nestedArrays 128)) = true ∧
      deserializeValue (serializeValue (.json (nestedArrays 128))) =
        .error (.invalidData "invalid json: recursion limit exceeded at line 1 column 128") := by
  have hlen : (textBytes (nestedArrays 128)).length < 2 ^ 32 := by
    rw [length_textBytes_nestedArrays]
    decide
  have hdeep : 128 ≤ nesting 0 false false (nestedArrays 128).toList := by
    obtain ⟨rest, hrest⟩ := toList_nestedArrays 128
    rw [hrest]
    exact le_nesting_replicate 128 0 rest
  exact ⟨fits_json hlen, deserializeValue_json_refused hlen (if_pos hdeep)⟩

end Limited

end Akar
