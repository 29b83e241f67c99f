import Akar.KeyMirror

namespace Akar

open List

theorem beBytes_length (x n : Nat) : (beBytes x n).length = n := by
  induction n with
  | zero => rfl
  | succ n ih => rw [beBytes, length_cons, ih]

variable {x n : Nat}

theorem beBytes_mod {m : Nat} (h : m ≤ n) : beBytes (x % 256 ^ n) m = beBytes x m := by
  induction m with
  | zero => rfl
  | succ m ih =>
    have hdigit : UInt8.ofNat (x % 256 ^ n / 256 ^ m) = UInt8.ofNat (x / 256 ^ m) := by
      apply UInt8.toNat_inj.mp
      have hpow : 256 ^ n = 256 ^ m * (256 * 256 ^ (n - m - 1)) := by
        rw [← Nat.pow_succ', ← Nat.pow_add]
        congr 1
        omega
      rw [UInt8.toNat_ofNat', UInt8.toNat_ofNat', hpow, Nat.mod_mul_right_div_self,
        Nat.mod_mul_right_mod]
    rw [beBytes, beBytes, hdigit, ih (by omega)]

theorem beBytes_lt {y : Nat} (hy : y < 256 ^ n) (h : x < y) : beBytes x n < beBytes y n := by
  induction n generalizing x y with
  | zero =>
    omega
  | succ n ih =>
    have hpos : 0 < 256 ^ n := Nat.pow_pos (by omega)
    have hytop : y / 256 ^ n < 256 := by
      apply Nat.div_lt_of_lt_mul
      rwa [← Nat.pow_succ]
    have hle : x / 256 ^ n ≤ y / 256 ^ n := Nat.div_le_div_right h.le
    rw [beBytes, beBytes, cons_lt_cons_iff]
    rcases Nat.lt_or_eq_of_le hle with hlt | heq
    · left
      rw [UInt8.lt_iff_toNat_lt, UInt8.toNat_ofNat', UInt8.toNat_ofNat']
      rw [Nat.mod_eq_of_lt hytop, Nat.mod_eq_of_lt (by omega)]
      exact hlt
    · right
      refine ⟨by rw [heq], ?_⟩
      have hrest : x % 256 ^ n < y % 256 ^ n := by
        have hx := Nat.div_add_mod x (256 ^ n)
        have hy := Nat.div_add_mod y (256 ^ n)
        rw [heq] at hx
        omega
      have hlt := ih (Nat.mod_lt y hpos) hrest
      rwa [beBytes_mod (Nat.le_refl n), beBytes_mod (Nat.le_refl n)] at hlt

variable {i : Int}

theorem flipped_rank {w bits : Nat} (hw : 0 < w) (hb : bits < 2 ^ w)
    (hi : i = if 2 * bits < 2 ^ w then (bits : Int) else bits - 2 ^ w) :
    ((bits + 2 ^ (w - 1)) % 2 ^ w : Nat) = i + 2 ^ (w - 1) := by
  have hpow : 2 ^ w = 2 * 2 ^ (w - 1) := by
    rw [← Nat.pow_succ']
    congr 1
    omega
  have hpowInt : (2 : Int) ^ w = 2 * 2 ^ (w - 1) := by exact_mod_cast hpow
  have hcast : ((2 ^ (w - 1) : Nat) : Int) = 2 ^ (w - 1) := by norm_cast
  split at hi
  · rw [Nat.mod_eq_of_lt (by omega)]
    omega
  · rw [Nat.mod_eq_sub_mod (by omega), Nat.mod_eq_of_lt (by omega)]
    omega

theorem escapeByte_cases (b : UInt8) : b ≤ 1 ∧ escapeByte b = [1, b + 1] ∨ 1 < b ∧ escapeByte b =
    [b] := by
  rw [escapeByte]
  split
  next hb => exact .inl (by simp [hb])
  next hb0 =>
    split
    next hb => exact .inl (by simp [hb])
    next hb1 =>
      refine .inr ⟨?_, rfl⟩
      grind

theorem escapeByte_lt {a b : UInt8} (h : a < b) (l m : List UInt8) : escapeByte a ++ l <
    escapeByte b ++ m := by
  obtain ⟨ha, hesc⟩ | ⟨ha, hesc⟩ := escapeByte_cases a
  · obtain ⟨hb, hesc'⟩ | ⟨hb, hesc'⟩ := escapeByte_cases b
    · have hnext : a + 1 < b + 1 := by grind
      rw [hesc, hesc']
      exact cons_lt_cons_iff.mpr (.inr ⟨rfl, cons_lt_cons_iff.mpr (.inl hnext)⟩)
    · rw [hesc, hesc']
      exact cons_lt_cons_iff.mpr (.inl hb)
  · obtain ⟨hb, -⟩ | ⟨hb, hesc'⟩ := escapeByte_cases b
    · exact absurd (UInt8.lt_trans ha h) (UInt8.not_lt.mpr hb)
    · rw [hesc, hesc']
      exact cons_lt_cons_iff.mpr (.inl h)

theorem nil_terminated_lt (b : UInt8) (bytes : List UInt8) : terminated [] <
    terminated (b :: bytes) := by
  rw [terminated_cons]
  obtain ⟨-, hesc⟩ | ⟨hb, hesc⟩ := escapeByte_cases b
  · rw [hesc]
    exact cons_lt_cons_iff.mpr (.inl (by decide))
  · rw [hesc]
    exact cons_lt_cons_iff.mpr (.inl (UInt8.lt_trans (by decide) hb))

variable {m l : List UInt8}

theorem terminated_lt (h : l < m) : terminated l < terminated m := by
  induction l generalizing m with
  | nil =>
    cases m with
    | nil => exact absurd h (Std.lt_irrefl)
    | cons b m => exact nil_terminated_lt b m
  | cons a l ih =>
    cases m with
    | nil => cases h
    | cons =>
      rw [terminated_cons, terminated_cons]
      rcases cons_lt_cons_iff.mp h with hab | ⟨rfl, hrest⟩
      · exact escapeByte_lt hab _ _
      · exact append_left_lt (ih hrest)

inductive KeyKind where
  | int64 | int32 | int16 | int8 | int128 | uint64 | uint32 | uint16 | uint8 | uint128 | string
  deriving DecidableEq

namespace Value

def keyKind : Value → Option KeyKind
  | .int64 _ => some .int64
  | .int32 _ => some .int32
  | .int16 _ => some .int16
  | .int8 _ => some .int8
  | .int128 _ => some .int128
  | .uint64 _ => some .uint64
  | .uint32 _ => some .uint32
  | .uint16 _ => some .uint16
  | .uint8 _ => some .uint8
  | .uint128 _ => some .uint128
  | .string _ => some .string
  | _ => none

def intKey : Value → Option Int
  | .int64 x => some x.toInt
  | .int32 x => some x.toInt
  | .int16 x => some x.toInt
  | .int8 x => some x.toInt
  | .int128 x => some x.toInt
  | .uint64 x => some x.toNat
  | .uint32 x => some x.toNat
  | .uint16 x => some x.toNat
  | .uint8 x => some x.toNat
  | .uint128 x => some x.toNat
  | _ => none

def textKey : Value → Option (List UInt8)
  | .string s => some s.toUTF8.toList
  | _ => none

def KeyLt (v w : Value) : Prop :=
  (∃ i ∈ v.intKey, ∃ j ∈ w.intKey, i < j) ∨ ∃ s ∈ v.textKey, ∃ t ∈ w.textKey, s < t

def KeyLe (v w : Value) : Prop :=
  (∃ i ∈ v.intKey, ∃ j ∈ w.intKey, i ≤ j) ∨ ∃ s ∈ v.textKey, ∃ t ∈ w.textKey, s ≤ t

end Value

namespace KeyKind

def width : KeyKind → Nat
  | .int64 | .uint64 => 8
  | .int32 | .uint32 => 4
  | .int16 | .uint16 => 2
  | .int8 | .uint8 => 1
  | .int128 | .uint128 => 16
  | .string => 0

def shift : KeyKind → Nat
  | .int64 => 2 ^ 63
  | .int32 => 2 ^ 31
  | .int16 => 2 ^ 15
  | .int8 => 2 ^ 7
  | .int128 => 2 ^ 127
  | _ => 0

end KeyKind

/-- How the keys of one type are encoded: an integer by its rank among the numbers of the type, a
string by its bytes with a terminator. -/
inductive Encodes (kind : KeyKind) (v : Value) (bytes : List UInt8) : Prop where
  | int (i : Int) (rank : Nat) : v.intKey = some i → kind ≠ .string → (rank : Int) = i + kind.shift →
      rank < 256 ^ kind.width → bytes = beBytes rank kind.width → Encodes kind v bytes
  | text (l : List UInt8) : v.textKey = some l → kind = .string → bytes = terminated l → Encodes kind v bytes

theorem encodes_signed {v : Value} {w : Nat} (kind : KeyKind) (x : BitVec w)
    (hkey : v.intKey = some x.toInt)
    (hkind : kind ≠ .string) (hw : w = 8 * kind.width) (hpos : 0 < w)
    (hshift : kind.shift = 2 ^ (w - 1)) :
    Encodes kind v (signFlipped x.toNat kind.width) := by
  have hflip := flipped_rank hpos x.isLt (BitVec.toInt_eq_toNat_cond x)
  refine .int x.toInt ((x.toNat + 2 ^ (w - 1)) % 2 ^ w) hkey hkind ?_ ?_ ?_
  · rw [hflip, hshift]
    norm_cast
  · have hpow : 256 ^ kind.width = 2 ^ w := by rw [hw, Nat.pow_mul]
    rw [hpow]
    exact Nat.mod_lt _ (Nat.pow_pos (by omega))
  · rw [signFlipped, ← hw]

theorem encodes_unsigned {v : Value} (kind : KeyKind) (hkey : v.intKey = some (x : Int))
    (hkind : kind ≠ .string) (hx : x < 256 ^ kind.width) (hshift : kind.shift = 0) :
    Encodes kind v (beBytes x kind.width) :=
  .int x x hkey hkind (by rw [hshift]; simp) hx rfl

theorem exists_encodes {v : Value} {kind : KeyKind} (h : v.keyKind = some kind) :
    ∃ bytes, artKeyFromValue v = some bytes ∧ Encodes kind v bytes := by
  cases v with
  | int64 x => cases h; exact ⟨_, rfl, encodes_signed .int64 x.toBitVec rfl nofun rfl (by decide) rfl⟩
  | int32 x => cases h; exact ⟨_, rfl, encodes_signed .int32 x.toBitVec rfl nofun rfl (by decide) rfl⟩
  | int16 x => cases h; exact ⟨_, rfl, encodes_signed .int16 x.toBitVec rfl nofun rfl (by decide) rfl⟩
  | int8 x => cases h; exact ⟨_, rfl, encodes_signed .int8 x.toBitVec rfl nofun rfl (by decide) rfl⟩
  | int128 x => cases h; exact ⟨_, rfl, encodes_signed .int128 x rfl nofun rfl (by decide) rfl⟩
  | uint64 x => cases h; exact ⟨_, rfl, encodes_unsigned .uint64 rfl nofun x.toNat_lt rfl⟩
  | uint32 x => cases h; exact ⟨_, rfl, encodes_unsigned .uint32 rfl nofun x.toNat_lt rfl⟩
  | uint16 x => cases h; exact ⟨_, rfl, encodes_unsigned .uint16 rfl nofun x.toNat_lt rfl⟩
  | uint8 x => cases h; exact ⟨_, rfl, encodes_unsigned .uint8 rfl nofun x.toNat_lt rfl⟩
  | uint128 x => cases h; exact ⟨_, rfl, encodes_unsigned .uint128 rfl nofun x.isLt rfl⟩
  | string => cases h; exact ⟨_, rfl, .text _ rfl rfl rfl⟩
  | _ => cases h

variable {a b : List UInt8} {kind : KeyKind} {v w : Value}

/-- How two keys stand: which is the smaller, when they are equal, and that the second does not go
on past the first. -/
structure KeysStand (lt eq : Prop) (a b : List UInt8) : Prop where
  lt : a < b ↔ lt
  eq : a = b ↔ eq
  whole : a <+: b → a = b

namespace KeysStand

variable {p q e e' : Prop}

theorem of_total (h : p ∨ e ∨ q) (hp : p → a < b) (he : e → a = b) (hq : q → b < a)
    (hwhole : a <+: b → a = b) :
    KeysStand p e a b := by
  refine ⟨⟨fun hab => ?_, hp⟩, ⟨fun hab => ?_, he⟩, hwhole⟩
  · rcases h with h | h | h
    · exact h
    · exact absurd (he h ▸ hab) Std.lt_irrefl
    · exact absurd (Std.lt_trans hab (hq h)) Std.lt_irrefl
  · rcases h with h | h | h
    · exact absurd (hab ▸ hp h) Std.lt_irrefl
    · exact h
    · exact absurd (hab ▸ hq h) Std.lt_irrefl

theorem number {y : Nat} (hx : x < 256 ^ n) (hy : y < 256 ^ n) :
    KeysStand (x < y) (x = y) (beBytes x n) (beBytes y n) :=
  of_total (Nat.lt_trichotomy x y) (beBytes_lt hy) (congrArg (beBytes · n)) (beBytes_lt hx)
    fun h => h.eq_of_length (by rw [beBytes_length, beBytes_length])

theorem text : KeysStand (l < m) (l = m) (terminated l) (terminated m) :=
  of_total (Std.lt_trichotomy l m) terminated_lt (congrArg terminated) terminated_lt
    fun h => congrArg terminated (eq_of_terminated h)

theorem append_lt_append_iff {s t : List UInt8} (hlen : l.length = m.length) : l ++ s < m ++ t ↔
    l < m ∨ l = m ∧ s < t := by
  induction l generalizing m with
  | nil =>
    cases length_eq_zero_iff.mp hlen.symm
    simp
  | cons a l ih =>
    cases m with
    | nil => cases hlen
    | cons b m =>
      rw [cons_append, cons_append, cons_lt_cons_iff, cons_lt_cons_iff, ih (Nat.succ.inj hlen),
        cons.injEq]
      tauto

theorem append (h : KeysStand p e a b) (h' : KeysStand q e' l m) (hlen : a.length = b.length) :
    KeysStand (p ∨ e ∧ q) (e ∧ e') (a ++ l) (b ++ m) where
  lt := by rw [append_lt_append_iff hlen, h.lt, h.eq, h'.lt]
  eq := by
    rw [← h.eq, ← h'.eq]
    exact ⟨fun hab => append_inj hab hlen, fun hab => by rw [hab.1, hab.2]⟩
  whole hp := by
    have hfirst := prefix_of_prefix_length_le ((prefix_append ..).trans hp) (prefix_append ..) hlen.le
    obtain rfl := hfirst.eq_of_length hlen
    rw [h'.whole ((prefix_append_right_inj a).mp hp)]

end KeysStand

namespace Value

theorem textKey_of_intKey (h : v.intKey = some i) : v.textKey = none := by
  cases v <;> first | rfl | cases h

theorem intKey_of_textKey (h : v.textKey = some l) : v.intKey = none := by
  cases v <;> first | rfl | cases h

theorem eq_of_keys (hv : v.keyKind = some kind) (hw : w.keyKind = some kind)
    (h : v.intKey = w.intKey ∧ v.textKey = w.textKey) : v = w := by
  cases v <;> cases hv <;> cases w <;> cases hw
  case string => rw [ByteCodec.toUTF8_toList_inj (Option.some.inj h.2)]
  all_goals simpa [intKey, Int64.toInt_inj, Int32.toInt_inj, Int16.toInt_inj, Int8.toInt_inj,
    BitVec.toInt_inj,
    UInt64.toNat_inj, UInt32.toNat_inj, UInt16.toNat_inj, UInt8.toNat_inj, BitVec.toNat_inj] using h.1

end Value

open Value

namespace Encodes

section

variable (ha : Encodes kind v a)
include ha

theorem stand (hb : Encodes kind w b) : KeysStand (v.KeyLt w) (v.intKey = w.intKey ∧ v.textKey =
    w.textKey) a b := by
  cases ha with
  | int i rank hi hkind hr hbound ha =>
    cases hb with
    | int j rank' hj _ hr' hbound' hb =>
      have hlt : v.KeyLt w ↔ rank < rank' := by
        simp [KeyLt, hi, hj, textKey_of_intKey hi]
        omega
      have heq : v.intKey = w.intKey ∧ v.textKey = w.textKey ↔ rank = rank' := by
        simp [hi, hj, textKey_of_intKey hi, textKey_of_intKey hj]
        omega
      rw [hlt, heq, ha, hb]
      exact .number hbound hbound'
    | text l _ hkind' => exact absurd hkind' hkind
  | text l hl hkind ha =>
    cases hb with
    | int j rank' _ hkind' => exact absurd hkind hkind'
    | text m hm _ hb =>
      have hlt : v.KeyLt w ↔ l < m := by simp [KeyLt, hl, hm, intKey_of_textKey hl]
      have heq : v.intKey = w.intKey ∧ v.textKey = w.textKey ↔ l = m := by
        simp [hl, hm, intKey_of_textKey hl, intKey_of_textKey hm]
      rw [hlt, heq, ha, hb]
      exact .text

theorem lt_iff (hb : Encodes kind w b) : a < b ↔ v.KeyLt w := (ha.stand hb).lt

theorem keyLe_iff : v.KeyLe w ↔ v.KeyLt w ∨ v.intKey = w.intKey ∧ v.textKey = w.textKey := by
  cases ha with
  | int i _ hi =>
    cases hj : w.intKey with
    | none => simp [KeyLe, KeyLt, hi, hj, textKey_of_intKey hi]
    | some j =>
      simp [KeyLe, KeyLt, hi, hj, textKey_of_intKey hi, textKey_of_intKey hj, Int.le_iff_lt_or_eq]
  | text l hl =>
    cases hm : w.textKey with
    | none => simp [KeyLe, KeyLt, hl, hm, intKey_of_textKey hl]
    | some m =>
      simp [KeyLe, KeyLt, hl, hm, intKey_of_textKey hl, intKey_of_textKey hm, Std.le_iff_lt_or_eq]

theorem le_iff (hb : Encodes kind w b) : a ≤ b ↔ v.KeyLe w := by
  rw [ha.keyLe_iff, Std.le_iff_lt_or_eq, (ha.stand hb).lt, (ha.stand hb).eq]

end

end Encodes

inductive SameKeyType : Value → Value → Prop where
  | kind {kind : KeyKind} {v w : Value} : v.keyKind = some kind → w.keyKind = some kind → SameKeyType v w
  | blob (l m : List UInt8) : SameKeyType (.blob l) (.blob m)
  | interval (m d : Int32) (u : Int64) (m' d' : Int32) (u' : Int64) : SameKeyType (.interval m d u) (.interval m' d' u')

/-- Blobs compare by their bytes, intervals by months, then days, then microseconds. -/
def Smaller : Value → Value → Prop
  | .blob l, .blob m => l < m
  | .interval m d u, .interval m' d' u' => (Value.int32 m).KeyLt (.int32 m') ∨
      m = m' ∧ ((Value.int32 d).KeyLt (.int32 d') ∨ d = d' ∧ (Value.int64 u).KeyLt (.int64 u'))
  | v, w => v.KeyLt w

theorem keys_stand_of_kind (hv : v.keyKind = some kind) (hw : w.keyKind = some kind) :
    ∃ a b, artKeyFromValue v = some a ∧ artKeyFromValue w = some b ∧
      KeysStand (v.KeyLt w) (v = w) a b := by
  obtain ⟨a, ha, hea⟩ := exists_encodes hv
  obtain ⟨b, hb, heb⟩ := exists_encodes hw
  have hstand := hea.stand heb
  refine ⟨a, b, ha, hb, hstand.lt, ⟨fun heq => eq_of_keys hv hw (hstand.eq.mp heq), ?_⟩, hstand.whole⟩
  rintro rfl
  exact Option.some.inj (ha.symm.trans hb)

/-- The keys of the values of one type are ordered as the values are, and none is a proper prefix of
another. -/
theorem artKeys_keep_order (h : SameKeyType v w) : ∃ a b, artKeyFromValue v = some a ∧
    artKeyFromValue w = some b ∧ (a < b ↔ Smaller v w) ∧ (a = b ↔ v = w) ∧ (a <+: b → a = b) := by
  have hstand : ∃ a b, artKeyFromValue v = some a ∧ artKeyFromValue w = some b ∧
      KeysStand (Smaller v w) (v = w) a b := by
    cases h with
    | kind hv hw =>
      have hsmaller : Smaller v w = v.KeyLt w := by cases v <;> first | rfl | cases hv
      rw [hsmaller]
      exact keys_stand_of_kind hv hw
    | blob l m =>
      rw [Value.blob.injEq]
      exact ⟨_, _, rfl, rfl, .text⟩
    | interval m d u m' d' u' =>
      obtain ⟨_, _, ⟨⟩, ⟨⟩, hmonths⟩ := @keys_stand_of_kind _ (.int32 m) (.int32 m') rfl rfl
      obtain ⟨_, _, ⟨⟩, ⟨⟩, hdays⟩ := @keys_stand_of_kind _ (.int32 d) (.int32 d') rfl rfl
      obtain ⟨_, _, ⟨⟩, ⟨⟩, hmicros⟩ := @keys_stand_of_kind _ (.int64 u) (.int64 u') rfl rfl
      have hlen (x y : Int32) : (signFlipped x.toUInt32.toNat 4).length =
          (signFlipped y.toUInt32.toNat 4).length := by
        rw [signFlipped, signFlipped, beBytes_length, beBytes_length]
      have hkeys := hmonths.append (hdays.append hmicros (hlen d d')) (hlen m m')
      rw [← append_assoc, ← append_assoc, Value.int32.injEq, Value.int32.injEq,
        Value.int64.injEq] at hkeys
      rw [Value.interval.injEq]
      exact ⟨_, _, rfl, rfl, hkeys⟩
  obtain ⟨a, b, ha, hb, hkeys⟩ := hstand
  exact ⟨a, b, ha, hb, hkeys.lt, hkeys.eq, hkeys.whole⟩

theorem artKeys_keep_order_months : ∃ a b, artKeyFromValue (.interval 1 0 5) = some a ∧
    artKeyFromValue (.interval 1 1 (-5)) = some b ∧ a < b := by
  obtain ⟨a, b, ha, hb, hlt, -⟩ := artKeys_keep_order (.interval 1 0 5 1 1 (-5))
  exact ⟨a, b, ha, hb, hlt.mpr (.inr ⟨rfl, .inl (.inl ⟨0, rfl, 1, rfl, by decide⟩)⟩)⟩

end Akar
