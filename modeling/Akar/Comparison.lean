import Akar.ByteCodec
import Akar.FloatBits
import Akar.Slots
import Akar.Value
import Mathlib.Data.List.Lex

namespace Akar

open Int

open FloatFormat (binary32 binary64)

inductive ValueKind where
  | null | bool | int64 | int32 | int16 | int8 | uint64 | uint32 | uint16 | uint8 | int128
  | double | float | string
  | blob | date | timestamp | timestampTz | timestampNs | timestampMs | timestampSec | interval
  | internalID
  | uint128 | json | dTime | union | list | map | struct
  deriving DecidableEq, Repr

namespace Value

def kind : Value → ValueKind
  | null => .null
  | bool _ => .bool
  | int64 _ => .int64
  | int32 _ => .int32
  | int16 _ => .int16
  | int8 _ => .int8
  | uint64 _ => .uint64
  | uint32 _ => .uint32
  | uint16 _ => .uint16
  | uint8 _ => .uint8
  | int128 _ => .int128
  | double _ => .double
  | float _ => .float
  | string _ => .string
  | blob _ => .blob
  | date _ => .date
  | timestamp _ => .timestamp
  | timestampTz _ => .timestampTz
  | timestampNs _ => .timestampNs
  | timestampMs _ => .timestampMs
  | timestampSec _ => .timestampSec
  | interval _ _ _ => .interval
  | internalID _ _ => .internalID
  | uint128 _ => .uint128
  | json _ => .json
  | dTime _ => .dTime
  | union _ _ => .union
  | list _ => .list
  | map _ => .map
  | struct _ => .struct

def floatEq (f : FloatFormat) (a b : Nat) : Bool := !f.isNaN a && !f.isNaN b && f.rank a = f.rank b

mutual

/-- The derived `PartialEq`: variants and payloads agree, floats as IEEE 754 compares them. -/
def partialEq : Value → Value → Bool
  | null, null => true
  | bool a, bool b => a = b
  | int64 a, int64 b => a = b
  | int32 a, int32 b => a = b
  | int16 a, int16 b => a = b
  | int8 a, int8 b => a = b
  | uint64 a, uint64 b => a = b
  | uint32 a, uint32 b => a = b
  | uint16 a, uint16 b => a = b
  | uint8 a, uint8 b => a = b
  | int128 a, int128 b => a = b
  | double a, double b => floatEq binary64 a.toNat b.toNat
  | float a, float b => floatEq binary32 a.toNat b.toNat
  | string a, string b => a = b
  | blob a, blob b => a = b
  | date a, date b => a = b
  | timestamp a, timestamp b => a = b
  | timestampTz a, timestampTz b => a = b
  | timestampNs a, timestampNs b => a = b
  | timestampMs a, timestampMs b => a = b
  | timestampSec a, timestampSec b => a = b
  | interval m d u, interval m' d' u' => m = m' ∧ d = d' ∧ u = u'
  | internalID t o, internalID t' o' => t = t' ∧ o = o'
  | uint128 a, uint128 b => a = b
  | json a, json b => a = b
  | dTime a, dTime b => a = b
  | union tag v, union tag' w => tag = tag' && partialEq v w
  | list vs, list ws => partialEqAll vs ws
  | map kvs, map kvs' => partialEqPairs kvs kvs'
  | struct fields, struct fields' => partialEqFields fields fields'
  | _, _ => false
termination_by structural v => v

def partialEqAll : List Value → List Value → Bool
  | [], [] => true
  | v :: vs, w :: ws => partialEq v w && partialEqAll vs ws
  | _, _ => false
termination_by structural vs => vs

def partialEqPairs : List (Value × Value) → List (Value × Value) → Bool
  | [], [] => true
  | (k, v) :: kvs, (k', v') :: kvs' => partialEq k k' && partialEq v v' && partialEqPairs kvs kvs'
  | _, _ => false
termination_by structural kvs => kvs

def partialEqFields : List (String × Value) → List (String × Value) → Bool
  | [], [] => true
  | (name, v) :: fields, (name', v') :: fields' =>
    name = name' && partialEq v v' && partialEqFields fields fields'
  | _, _ => false
termination_by structural fields => fields

end

example : partialEq (.list [.null, .double 0]) (.list [.null, .double 0x8000000000000000]) =
  true := by decide

def integerToI128 : Value → Option Int
  | int64 x => some x.toInt
  | int32 x => some x.toInt
  | int16 x => some x.toInt
  | int8 x => some x.toInt
  | uint64 x => some x.toNat
  | uint32 x => some x.toNat
  | uint16 x => some x.toNat
  | uint8 x => some x.toNat
  | _ => none

/-- `numeric_to_f64`, as bits; the narrow signed integers are not among its cases. -/
def numericToF64 : Value → Option Nat
  | int64 x => some (intToDouble x.toInt)
  | double x => some x.toNat
  | float x => some (widen x.toNat)
  | int32 x => some (intToDouble x.toInt)
  | uint64 x => some (natToDouble x.toNat)
  | uint32 x => some (natToDouble x.toNat)
  | uint16 x => some (natToDouble x.toNat)
  | uint8 x => some (natToDouble x.toNat)
  | _ => none

end Value

open Value

/-- The rest of `values_equal`, once neither `==` nor the NaN rules have answered. -/
def promotedEqual (a b : Value) : Bool := match integerToI128 a, integerToI128 b with
  | some x, some y => x = y
  | _, _ =>
    match numericToF64 a, numericToF64 b with
    | some x, some y => x = y || (binary64.isNaN x && binary64.isNaN y)
    | _, _ => false

def valuesEqual (a b : Value) : Bool := if partialEq a b then true
  else
    match a, b with
    | .double x, .double y => binary64.isNaN x.toNat && binary64.isNaN y.toNat
    | .float x, .float y => binary32.isNaN x.toNat && binary32.isNaN y.toNat
    | _, _ => promotedEqual a b

def doubleCmp (a b : Nat) : Ordering := if binary64.isNaN a then if binary64.isNaN b then .eq else .gt
  else if binary64.isNaN b then .lt
  else compareOfLessAndEq (binary64.rank a) (binary64.rank b)

def compareValues (a b : Value) : Except String Ordering := match a, b with
  | .int64 x, .int64 y => .ok (compareOfLessAndEq x.toInt y.toInt)
  | .int32 x, .int32 y => .ok (compareOfLessAndEq x.toInt y.toInt)
  | .int16 x, .int16 y => .ok (compareOfLessAndEq x.toInt y.toInt)
  | .int8 x, .int8 y => .ok (compareOfLessAndEq x.toInt y.toInt)
  | .uint64 x, .uint64 y => .ok (compareOfLessAndEq x.toNat y.toNat)
  | .uint32 x, .uint32 y => .ok (compareOfLessAndEq x.toNat y.toNat)
  | .uint16 x, .uint16 y => .ok (compareOfLessAndEq x.toNat y.toNat)
  | .uint8 x, .uint8 y => .ok (compareOfLessAndEq x.toNat y.toNat)
  | .double x, .double y => .ok (doubleCmp x.toNat y.toNat)
  | .float x, .float y => .ok (doubleCmp (widen x.toNat) (widen y.toNat))
  | .string x, .string y => .ok (compareOfLessAndEq x.toUTF8.toList y.toUTF8.toList)
  | .bool x, .bool y => .ok (compareOfLessAndEq x.toNat y.toNat)
  | .date x, .date y => .ok (compareOfLessAndEq x.toInt y.toInt)
  | .timestamp x, .timestamp y => .ok (compareOfLessAndEq x.toInt y.toInt)
  | .int64 x, .double y => .ok (doubleCmp (intToDouble x.toInt) y.toNat)
  | .double x, .int64 y => .ok (doubleCmp x.toNat (intToDouble y.toInt))
  | .float x, .double y => .ok (doubleCmp (widen x.toNat) y.toNat)
  | .double x, .float y => .ok (doubleCmp x.toNat (widen y.toNat))
  | .float x, .int64 y => .ok (doubleCmp (widen x.toNat) (intToDouble y.toInt))
  | .int64 x, .float y => .ok (doubleCmp (intToDouble x.toInt) (widen y.toNat))
  | _, _ =>
    match integerToI128 a, integerToI128 b with
    | some x, some y => .ok (compareOfLessAndEq x y)
    | _, _ => .error "Cannot compare types"

/-- The comparison operators; `=` and `==`, `<>` and `!=` are two spellings of one. -/
inductive ComparisonOp where
  | eq | notEq | lt | lte | gt | gte
  deriving DecidableEq, Repr

def ComparisonOp.test : ComparisonOp → Ordering → Bool
  | .eq, o => o = .eq
  | .notEq, o => o ≠ .eq
  | .lt, o => o = .lt
  | .lte, o => o ≠ .gt
  | .gt, o => o = .gt
  | .gte, o => o ≠ .lt

def evaluateComparison (op : ComparisonOp) (a b : Value) : Except String Bool := match op with
  | .eq => .ok (valuesEqual a b)
  | .notEq => .ok (!valuesEqual a b)
  | .lt => (compareValues a b).map (ComparisonOp.lt.test ·)
  | .lte => (compareValues a b).map (ComparisonOp.lte.test ·)
  | .gt => (compareValues a b).map (ComparisonOp.gt.test ·)
  | .gte => (compareValues a b).map (ComparisonOp.gte.test ·)

/-- The comparison runs through the Arrow kernels where the operands have one array type, and
through the scalar function otherwise or where no kernel is asked. -/
inductive EvalPath where
  | kernel | scalar
  deriving DecidableEq, Repr

namespace Value

def floatKey (f : FloatFormat) (bits : Nat) : Option (List Int) :=
  if f.isNaN bits then none else some [f.rank bits]

/-- Values of one variant compare as these keys; a NaN and a value of an unordered variant have
none. -/
def sortKey : Value → Option (List Int)
  | bool b => some [b.toNat]
  | int64 x => some [x.toInt]
  | int32 x => some [x.toInt]
  | int16 x => some [x.toInt]
  | int8 x => some [x.toInt]
  | uint64 x => some [x.toNat]
  | uint32 x => some [x.toNat]
  | uint16 x => some [x.toNat]
  | uint8 x => some [x.toNat]
  | int128 x => some [x.toInt]
  | uint128 x => some [x.toNat]
  | double x => floatKey binary64 x.toNat
  | float x => floatKey binary32 x.toNat
  | string s => some (s.toUTF8.toList.map fun b => (b.toNat : Int))
  | date x => some [x.toInt]
  | timestamp x => some [x.toInt]
  | timestampTz x => some [x.toInt]
  | timestampNs x => some [x.toInt]
  | timestampMs x => some [x.toInt]
  | timestampSec x => some [x.toInt]
  | internalID tableId offset => some [tableId.toNat, offset.toNat]
  | _ => none

/-- The order of the comparison kernels: as `sortKey`, but total on floats. -/
def kernelKey : Value → Option (List Int)
  | bool b => some [b.toNat]
  | int64 x => some [x.toInt]
  | int32 x => some [x.toInt]
  | int16 x => some [x.toInt]
  | int8 x => some [x.toInt]
  | uint64 x => some [x.toNat]
  | double x => some [binary64.totalRank x.toNat]
  | float x => some [binary32.totalRank x.toNat]
  | string s => some (s.toUTF8.toList.map fun b => (b.toNat : Int))
  | _ => none

def kernelCmp (a b : Value) : Option Ordering := if a.kind = b.kind then
    match a.kernelKey, b.kernelKey with
    | some x, some y => some (compareOfLessAndEq x y)
    | _, _ => none
  else none

def evaluate (path : EvalPath) (op : ComparisonOp) (v c : Value) : Except String (Option Bool) :=
  match path, kernelCmp v c with
  | .kernel, some o => .ok (some (op.test o))
  | _, _ => if v.isNull || c.isNull then .ok none else (evaluateComparison op v c).map some

def oppositeZeros : Value → Value → Bool
  | double x, double y => binary64.isZero x.toNat && binary64.isZero y.toNat && x ≠ y
  | float x, float y => binary32.isZero x.toNat && binary32.isZero y.toNat && x ≠ y
  | _, _ => false

end Value

def ValueKind.ordered : ValueKind → Bool
  | .null | .blob | .interval | .json | .dTime | .union | .list | .map | .struct => false
  | _ => true

section Order

variable {α β : Type} [LT α] [LT β] [DecidableLT α] [DecidableLT β] [DecidableEq α] [DecidableEq β]

theorem compareOfLessAndEq_congr {a b : α} {c d : β} (hlt : a < b ↔ c < d) (heq : a = b ↔ c = d) :
    compareOfLessAndEq a b = compareOfLessAndEq c d := by
  unfold compareOfLessAndEq
  simp only [hlt, heq]

theorem compare_singleton (x y : Int) : compareOfLessAndEq [x] [y] = compareOfLessAndEq x y := by
  apply compareOfLessAndEq_congr
  · rw [List.cons_lt_cons_iff]
    simp
  · simp

theorem compare_natCast (x y : Nat) : compareOfLessAndEq [(x : Int)] [(y : Int)] =
    compareOfLessAndEq x y := by
  rw [compare_singleton]
  exact compareOfLessAndEq_congr ofNat_lt ofNat_inj

theorem compare_eq_iff (x y : List Int) : compareOfLessAndEq x y = .eq ↔ x = y :=
  compareOfLessAndEq_eq_eq le_refl not_le

theorem compare_gt_iff (x y : List Int) : compareOfLessAndEq x y = .gt ↔ y < x :=
  compareOfLessAndEq_eq_gt le_antisymm le_total not_le x y

theorem compare_bytes (l m : List UInt8) :
    compareOfLessAndEq (l.map fun b => (b.toNat : Int)) (m.map fun b => (b.toNat : Int)) =
      compareOfLessAndEq l m := by
  apply compareOfLessAndEq_congr
  · induction l generalizing m with
    | nil => cases m <;> simp
    | cons a l ih =>
      cases m with
      | nil => simp
      | cons =>
        simp only [List.map_cons, List.cons_lt_cons_iff, ih, ofNat_lt, ofNat_inj, UInt8.toNat_inj]
        rfl
  · rw [List.map_inj_right]
    intro a b hab
    exact UInt8.toNat_inj.mp (ofNat_inj.mp hab)

end Order

namespace Value

variable {a b : Value} {x y : List Int} {f : FloatFormat} {n : Nat}

theorem floatKey_eq_some (h : floatKey f n = some x) : f.isNaN n = false ∧ x = [f.rank n] := by
  unfold floatKey at h
  split at h
  · cases h
  next hnan => exact ⟨by simpa using hnan, (Option.some.inj h).symm⟩

theorem floatKey_eq_none (h : floatKey f n = none) : f.isNaN n = true := by
  unfold floatKey at h
  split at h
  · assumption
  · cases h

variable {m : Nat}

theorem doubleCmp_numbers (hm : binary64.isNaN m = false) (hn : binary64.isNaN n = false) :
    doubleCmp m n = compareOfLessAndEq (binary64.rank m) (binary64.rank n) := by
  simp [doubleCmp, hm, hn]

theorem compare_widen (m n : Nat) :
    compareOfLessAndEq (binary64.rank (widen m)) (binary64.rank (widen n)) =
      compareOfLessAndEq (binary32.rank m) (binary32.rank n) := by
  rw [rank_widen, rank_widen]
  have hmono : StrictMono widenRank := fun _ _ => widenRank_lt
  exact compareOfLessAndEq_congr hmono.lt_iff_lt hmono.injective.eq_iff

variable {o : Ordering}

section

variable (hk : a.kind = b.kind) (ha : a.sortKey = some x) (hb : b.sortKey = some y)
include hk ha hb

theorem compareValues_eq (h : compareValues a b = .ok o) : o = compareOfLessAndEq x y := by
  cases a <;> cases b <;> (try cases hk)
  case double.double.refl m n =>
    obtain ⟨hm, rfl⟩ := floatKey_eq_some ha
    obtain ⟨hn, rfl⟩ := floatKey_eq_some hb
    rw [compare_singleton, ← doubleCmp_numbers hm hn]
    exact (Except.ok.inj h).symm
  case float.float.refl m n =>
    obtain ⟨hm, rfl⟩ := floatKey_eq_some ha
    obtain ⟨hn, rfl⟩ := floatKey_eq_some hb
    have hwiden := doubleCmp_numbers (isNaN_widen m.toNat ▸ hm) (isNaN_widen n.toNat ▸ hn)
    rw [compare_singleton, ← compare_widen, ← hwiden]
    exact (Except.ok.inj h).symm
  case string.string.refl =>
    cases ha
    cases hb
    cases h
    exact (compare_bytes _ _).symm
  -- what is left are the integers, and the variants without a key or without a comparison
  all_goals
    first
    | cases ha; cases hb; cases h; exact (compare_singleton _ _).symm
    | cases ha; cases hb; cases h; exact (compare_natCast _ _).symm
    | cases ha; done
    | cases h

theorem valuesEqual_eq : valuesEqual a b = decide (x = y) := by
  cases a <;> cases b <;> (try cases hk)
  case double.double.refl m n =>
    obtain ⟨hm, rfl⟩ := floatKey_eq_some ha
    obtain ⟨hn, rfl⟩ := floatKey_eq_some hb
    simp [valuesEqual, partialEq, floatEq, hm, hn]
  case float.float.refl m n =>
    obtain ⟨hm, rfl⟩ := floatKey_eq_some ha
    obtain ⟨hn, rfl⟩ := floatKey_eq_some hb
    simp [valuesEqual, partialEq, floatEq, hm, hn]
  case bool.bool.refl p q =>
    cases ha
    cases hb
    cases p <;> cases q <;> rfl
  case string.string.refl s t =>
    cases ha
    cases hb
    have hbytes : (s.toUTF8.toList.map fun u => (u.toNat : Int)) =
        t.toUTF8.toList.map (fun u => (u.toNat : Int)) ↔
        s = t := by
      rw [List.map_inj_right fun u v huv => UInt8.toNat_inj.mp (ofNat_inj.mp huv)]
      exact ⟨ByteCodec.toUTF8_toList_inj, fun h => by rw [h]⟩
    simp only [hbytes]
    simp [valuesEqual, partialEq, promotedEqual, integerToI128, numericToF64]
  all_goals
    first
    | cases ha; done
    | cases ha
      cases hb
      simp [valuesEqual, partialEq, promotedEqual, integerToI128, numericToF64, Int64.toInt_inj,
        Int32.toInt_inj,
        Int16.toInt_inj, Int8.toInt_inj, UInt64.toNat_inj, UInt32.toNat_inj, UInt16.toNat_inj,
          UInt8.toNat_inj,
        BitVec.toInt_inj, BitVec.toNat_inj]

end

theorem eq_double (h : a.kind = .double) : ∃ m, a = double m := by
  cases a <;> cases h
  exact ⟨_, rfl⟩

theorem eq_float (h : a.kind = .float) : ∃ m, a = float m := by
  cases a <;> cases h
  exact ⟨_, rfl⟩

section

variable (hk : a.kind = b.kind) (ha : a.sortKey = some x) (hb : b.sortKey = none)
include hk ha hb

theorem float_of_sortKey : (∃ m n, a = double m ∧ b = double n) ∨ ∃ m n, a = float m ∧ b = float n := by
  have hkind : b.kind = .double ∨ b.kind = .float ∨ b.kind.ordered = false := by
    cases b <;> first | cases hb; done | simp [kind, ValueKind.ordered]
  have hordered : a.kind.ordered = true := by
    cases a <;> first | rfl | cases ha
  rcases hkind with hb' | hb' | hb'
  · obtain ⟨m, rfl⟩ := eq_double (hk.trans hb')
    obtain ⟨n, rfl⟩ := eq_double hb'
    exact .inl ⟨m, n, rfl, rfl⟩
  · obtain ⟨m, rfl⟩ := eq_float (hk.trans hb')
    obtain ⟨n, rfl⟩ := eq_float hb'
    exact .inr ⟨m, n, rfl, rfl⟩
  · rw [hk, hb'] at hordered
    cases hordered

theorem valuesEqual_nan : valuesEqual a b = false := by
  rcases float_of_sortKey hk ha hb with ⟨m, n, rfl, rfl⟩ | ⟨m, n, rfl, rfl⟩
  · obtain ⟨hm, rfl⟩ := floatKey_eq_some ha
    simp [valuesEqual, partialEq, floatEq, hm, floatKey_eq_none hb]
  · obtain ⟨hm, rfl⟩ := floatKey_eq_some ha
    simp [valuesEqual, partialEq, floatEq, hm, floatKey_eq_none hb]

end

theorem compare_totalRank (ha : floatKey f m = some x) (hb : floatKey f n = some y)
    (hzero : f.isZero m = true → f.isZero n = true → m = n) :
    compareOfLessAndEq [f.totalRank m] [f.totalRank n] = compareOfLessAndEq x y := by
  obtain ⟨hm, rfl⟩ := floatKey_eq_some ha
  obtain ⟨hn, rfl⟩ := floatKey_eq_some hb
  rw [compare_singleton, compare_singleton]
  have heq : f.rank m = f.rank n → f.totalRank m = f.totalRank n := fun h =>
    FloatFormat.totalRank_eq h fun hzm hzn => by rw [hzero hzm hzn]
  have hlt : f.rank m < f.rank n → f.totalRank m < f.totalRank n := FloatFormat.totalRank_lt
  have hgt : f.rank n < f.rank m → f.totalRank n < f.totalRank m := FloatFormat.totalRank_lt
  apply compareOfLessAndEq_congr <;> omega

theorem compare_totalRank_nan (ha : floatKey f m = some x) (hb : floatKey f n = none) :
    compareOfLessAndEq [f.totalRank m] [f.totalRank n] ≠ .eq := by
  have hne := FloatFormat.totalRank_ne_of_isNaN (floatKey_eq_some ha).1 (floatKey_eq_none hb)
  rw [compare_singleton]
  unfold compareOfLessAndEq
  split <;> exact Ordering.noConfusion

theorem kernelCmp_eq_some (h : kernelCmp a b = some o) :
    a.kind = b.kind ∧ ∃ s t, a.kernelKey = some s ∧ b.kernelKey = some t ∧ o =
      compareOfLessAndEq s t := by
  obtain ⟨hk, h⟩ := Option.ite_none_right_eq_some.mp h
  split at h
  next s t hs ht => exact ⟨hk, s, t, hs, ht, (Option.some.inj h).symm⟩
  next => cases h

theorem kernelKey_eq (hd : a.kind ≠ .double) (hf : a.kind ≠ .float) (h : a.kernelKey = some x) :
    a.sortKey = some x := by
  cases a <;> first | exact h | exact absurd rfl hd | exact absurd rfl hf | cases h

theorem kernelCmp_eq (ha : a.sortKey = some x) (hb : b.sortKey = some y)
    (hzero : oppositeZeros a b = false)
    (h : kernelCmp a b = some o) : o = compareOfLessAndEq x y := by
  obtain ⟨hk, s, t, hs, ht, rfl⟩ := kernelCmp_eq_some h
  by_cases hd : a.kind = .double
  · obtain ⟨m, rfl⟩ := eq_double hd
    obtain ⟨n, rfl⟩ := eq_double (hk.symm.trans hd)
    cases hs
    cases ht
    apply compare_totalRank ha hb
    intro hm hn
    have hbits : m = n := by simpa [oppositeZeros, hm, hn] using hzero
    rw [hbits]
  · by_cases hf : a.kind = .float
    · obtain ⟨m, rfl⟩ := eq_float hf
      obtain ⟨n, rfl⟩ := eq_float (hk.symm.trans hf)
      cases hs
      cases ht
      apply compare_totalRank ha hb
      intro hm hn
      have hbits : m = n := by simpa [oppositeZeros, hm, hn] using hzero
      rw [hbits]
    · have hx := kernelKey_eq hd hf hs
      have hy := kernelKey_eq (hk ▸ hd) (hk ▸ hf) ht
      rw [Option.some.inj (hx.symm.trans ha), Option.some.inj (hy.symm.trans hb)]

theorem kernelCmp_nan (ha : a.sortKey = some x) (hb : b.sortKey = none)
    (h : kernelCmp a b = some o) : o ≠ .eq := by
  obtain ⟨hk, s, t, hs, ht, rfl⟩ := kernelCmp_eq_some h
  rcases float_of_sortKey hk ha hb with ⟨m, n, rfl, rfl⟩ | ⟨m, n, rfl, rfl⟩
  · cases hs
    cases ht
    exact compare_totalRank_nan ha hb
  · cases hs
    cases ht
    exact compare_totalRank_nan ha hb

theorem isNull_of_sortKey (h : a.sortKey = some x) : a.isNull = false := by
  cases a with
  | null => cases h
  | _ => rfl

theorem isNull_congr (h : a.kind = b.kind) : a.isNull = b.isNull := by
  have hkind (v : Value) : v.isNull = decide (v.kind = .null) := by
    cases v <;> rfl
  rw [hkind, hkind, h]

variable {path : EvalPath} {op : ComparisonOp}

theorem test_eq (x y : List Int) : ComparisonOp.eq.test (compareOfLessAndEq x y) = decide (x = y) :=
  decide_eq_decide.mpr (compare_eq_iff x y)

section

variable (hk : a.kind = b.kind) (ha : a.sortKey = some x)
include hk ha

theorem evaluateComparison_test (hb : b.sortKey = some y) (h : evaluateComparison op a b = .ok true) :
    op.test (compareOfLessAndEq x y) = true := by
  have hcmp {g : Ordering → Bool} (h : (compareValues a b).map g = .ok true) :
      g (compareOfLessAndEq x y) = true := by
    obtain ⟨o, ho, h⟩ := map_eq_ok.mp h
    rw [← compareValues_eq hk ha hb ho]
    exact h
  cases op with
  | eq =>
    rw [test_eq, ← valuesEqual_eq hk ha hb]
    exact Except.ok.inj h
  | notEq =>
    have hne := Except.ok.inj h
    rw [valuesEqual_eq hk ha hb, ← test_eq] at hne
    simpa [ComparisonOp.test] using hne
  | lt | lte | gt | gte => exact hcmp h

theorem test_of_evaluate (hb : b.sortKey = some y) (hzero : path = .kernel → oppositeZeros a b = false)
    (h : evaluate path op a b = .ok (some true)) : op.test (compareOfLessAndEq x y) = true := by
  unfold evaluate at h
  split at h
  next o ho =>
    rw [← kernelCmp_eq ha hb (hzero rfl) ho]
    simpa using h
  next =>
    rw [← isNull_congr hk, isNull_of_sortKey ha] at h
    obtain ⟨r, hc, h⟩ := map_eq_ok.mp h
    cases h
    exact evaluateComparison_test hk ha hb hc

theorem evaluate_nan (hb : b.sortKey = none) : evaluate path .eq a b ≠ .ok (some true) := by
  unfold evaluate
  split
  next o ho =>
    have hne := kernelCmp_nan ha hb ho
    simp [ComparisonOp.test, hne]
  next =>
    rw [← isNull_congr hk, isNull_of_sortKey ha]
    simp [evaluateComparison, valuesEqual_nan hk ha hb, Except.map]

end

theorem evaluate_null (h : a.isNull = true) : evaluate path op a b ≠ .ok (some true) := by
  cases a with
  | null =>
    unfold evaluate
    split
    next o ho =>
      unfold kernelCmp at ho
      split at ho <;> cases ho
    next => simp
  | _ => cases h

end Value

end Akar
