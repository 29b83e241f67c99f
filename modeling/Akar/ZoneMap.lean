import Akar.Comparison
import Akar.Runs
import Akar.UpdateInfo
import Mathlib.Tactic.Order

namespace Akar

open Value (evaluate)

inductive ZoneMapCheckResult where
  | alwaysScan | skipScan
  deriving DecidableEq, Repr

structure ColumnChunkStats where
  min : Option Value
  max : Option Value
  guaranteedNoNulls : Bool
  guaranteedAllNulls : Bool

/-- `value_cmp`: values of one ordered variant, NaN apart. -/
def valueCmp (a b : Value) : Option Ordering := if a.kind = b.kind then
    match a.sortKey, b.sortKey with
    | some x, some y => some (compareOfLessAndEq x y)
    | _, _ => none
  else none

namespace ColumnChunkStats

def new (min max : Option Value) : ColumnChunkStats := ⟨min, max, true, false⟩

def update (stats : ColumnChunkStats) (val : Value) : ColumnChunkStats :=
  if val.isNull then { stats with guaranteedNoNulls := false }
  else
    match stats.min, stats.max with
    | some min, some max =>
      { stats with
        guaranteedAllNulls := false
        min := if valueCmp val min = some .lt then some val else some min
        max := if valueCmp val max = some .gt then some val else some max }
    | _, _ => { stats with guaranteedAllNulls := false, min := some val, max := some val }

end ColumnChunkStats

def cannotMatch (toMin toMax : Option Ordering) : ComparisonOp → Bool
  | .eq => !((toMin = some .gt || toMin = some .eq) && (toMax = some .lt || toMax = some .eq))
  | .notEq => toMin = some .eq && toMax = some .eq
  | .gt => toMax = some .gt || toMax = some .eq
  | .gte => toMax = some .gt
  | .lt => toMin = some .lt || toMin = some .eq
  | .lte => toMin = some .lt

def checkConstantPredicate (min max constant : Value) (op : ComparisonOp) : ZoneMapCheckResult :=
  if cannotMatch (valueCmp constant min) (valueCmp constant max) op then .skipScan else .alwaysScan

def checkZoneMap (stats : ColumnChunkStats) (op : ComparisonOp) (constant : Value) :
    ZoneMapCheckResult :=
  match stats.min, stats.max with
  | some min, some max =>
    if min.kind = max.kind ∧ min.kind = constant.kind ∧ min.kind.ordered then
      checkConstantPredicate min max constant op
    else .alwaysScan
  | _, _ => .alwaysScan

/-- `is_null` is true for `IS NULL` and false for `IS NOT NULL`. -/
def checkNullZoneMap (stats : ColumnChunkStats) (isNull : Bool) : ZoneMapCheckResult :=
  if isNull then if stats.guaranteedNoNulls then .skipScan else .alwaysScan
  else if stats.guaranteedAllNulls then .skipScan else .alwaysScan

structure ZonedChunk extends ColumnChunk where
  stats : ColumnChunkStats

inductive ChunkCall where
  | append (value : Value)
  | setValue (idx : Nat) (value : Value)

def ChunkCall.value : ChunkCall → Value
  | append value => value
  | setValue _ value => value

variable {c d : ZonedChunk} {call : ChunkCall} {path : EvalPath} {v w : Value}

namespace ZonedChunk

def withCapacity (capacity : Nat) : ZonedChunk where
  values := []
  capacity := capacity
  updateInfo := none
  stats := .new none none

def append (c : ZonedChunk) (value : Value) : ZonedChunk :=
  { c with values := c.values ++ [value], stats := c.stats.update value }

def setValue (c : ZonedChunk) (idx : Nat) (value : Value) : Except StorageError ZonedChunk :=
  if c.values.length ≤ idx then
    .error (.page s!"ColumnChunk index {idx} out of bounds (len={c.values.length})")
  else .ok { c with values := c.values.set idx value, stats := c.stats.update value }

def step (c : ZonedChunk) : ChunkCall → Option ZonedChunk
  | .append value => some (c.append value)
  | .setValue idx value => some ((c.setValue idx value).toOption.getD c)

end ZonedChunk

/-- A value the statistics can take in: of the variant of the bounds, and no NaN. Bounds of an
unordered variant are never used. -/
def ColumnChunkStats.Fits (stats : ColumnChunkStats) (v : Value) : Prop :=
  v.isNull = true ∨ match stats.min with
    | none => v.kind.ordered = true → v.sortKey.isSome = true
    | some min => min.kind.ordered = true → v.kind = min.kind ∧ v.sortKey.isSome = true

instance (stats : ColumnChunkStats) (v : Value) : Decidable (stats.Fits v) := match stats with
  | ⟨none, _, _, _⟩ =>
    inferInstanceAs (Decidable (v.isNull = true ∨ (v.kind.ordered = true → v.sortKey.isSome = true)))
  | ⟨some min, _, _, _⟩ =>
    inferInstanceAs
      (Decidable (v.isNull = true ∨
        (min.kind.ordered = true → v.kind = min.kind ∧ v.sortKey.isSome = true)))

/-- Both bounds are of the variant of the value and enclose it, or they are of no use. -/
inductive ColumnChunkStats.Encloses (stats : ColumnChunkStats) (v : Value) : Prop where
  | unordered (min max : Value) : stats.min = some min → stats.max = some max → min.kind.ordered = false →
    stats.Encloses v
  | between (min max : Value) (lo key hi : List Int) : stats.min = some min → stats.max = some max →
    min.kind = v.kind → max.kind = v.kind → min.sortKey = some lo → v.sortKey = some key →
      max.sortKey = some hi →
    lo ≤ key → key ≤ hi → stats.Encloses v

section Bounds

variable {stats : ColumnChunkStats} {v w c min max : Value} {x y k : List Int} {op : ComparisonOp}

theorem valueCmp_of_keys (hk : v.kind = w.kind) (hv : v.sortKey = some x) (hw : w.sortKey = some y) :
    valueCmp v w = some (compareOfLessAndEq x y) := by
  simp [valueCmp, hk, hv, hw]

theorem valueCmp_eq_none (h : v.sortKey = none ∨ w.sortKey = none) : valueCmp v w = none := by
  unfold valueCmp
  split
  · rcases h with h | h
    · rw [h]
    · rw [h]
      cases v.sortKey <;> rfl
  · rfl

theorem sortKey_of_unordered (h : v.kind.ordered = false) : v.sortKey = none := by
  cases v <;> first | rfl | cases h

theorem ordered_of_sortKey (h : v.sortKey = some x) : v.kind.ordered = true := by
  by_contra hno
  rw [sortKey_of_unordered (by simpa using hno)] at h
  cases h

theorem test_of_cannotMatch {lo key hi kc : List Int} (hlo : lo ≤ key) (hhi : key ≤ hi)
    (h : cannotMatch (some (compareOfLessAndEq kc lo)) (some (compareOfLessAndEq kc hi)) op = true) :
    op.test (compareOfLessAndEq key kc) = false := by
  cases op <;>
    simp only [cannotMatch, ComparisonOp.test, Option.some.injEq, compareOfLessAndEq_eq_lt,
      compare_eq_iff, compare_gt_iff,
      Bool.not_eq_true', Bool.or_eq_true, Bool.and_eq_true, Bool.and_eq_false_iff, Bool.or_eq_false_iff,
      decide_eq_true_eq, decide_eq_false_iff_not, ne_eq, not_not] at h ⊢
  case eq => rcases h with ⟨h, h'⟩ | ⟨h, h'⟩ <;> order
  case lt => rcases h with h | h <;> order
  case gt => rcases h with h | h <;> order
  all_goals order

namespace ColumnChunkStats

theorem update_null (h : v.isNull = true) : stats.update v =
    { stats with guaranteedNoNulls := false } := if_pos h

section

variable (h : v.isNull = false)
include h

theorem update_bounds (hmin : stats.min = some min) (hmax : stats.max = some max) :
    (stats.update v).min = (if valueCmp v min = some .lt then some v else some min) ∧
      (stats.update v).max = if valueCmp v max = some .gt then some v else some max := by
  simp [update, h, hmin, hmax]

theorem update_first (hmin : stats.min = none) : (stats.update v).min = some v ∧
    (stats.update v).max = some v := by
  simp [update, h, hmin]

section

variable (hmin : stats.min = some min) (hmax : stats.max = some max)
include hmin hmax

theorem lower_update (hk : v.kind = min.kind) (hv : v.sortKey = some k) (hlo : min.sortKey = some x) :
    ∃ min' x', (stats.update v).min = some min' ∧ min'.kind = min.kind ∧ min'.sortKey = some x' ∧
      x' ≤ x ∧ x' ≤ k := by
  rw [(update_bounds h hmin hmax).1, valueCmp_of_keys hk hv hlo]
  by_cases hlt : k < x
  · rw [if_pos (congrArg some (compareOfLessAndEq_eq_lt.mpr hlt))]
    exact ⟨v, k, rfl, hk, hv, le_of_lt hlt, le_refl k⟩
  · rw [if_neg fun heq => hlt (compareOfLessAndEq_eq_lt.mp (Option.some.inj heq))]
    exact ⟨min, x, rfl, rfl, hlo, le_refl x, le_of_not_gt hlt⟩

theorem upper_update (hk : v.kind = max.kind) (hv : v.sortKey = some k) (hhi : max.sortKey = some y) :
    ∃ max' y', (stats.update v).max = some max' ∧ max'.kind = max.kind ∧ max'.sortKey = some y' ∧
      y ≤ y' ∧ k ≤ y' := by
  rw [(update_bounds h hmin hmax).2, valueCmp_of_keys hk hv hhi]
  by_cases hgt : y < k
  · rw [if_pos (congrArg some ((compare_gt_iff k y).mpr hgt))]
    exact ⟨v, k, rfl, hk, hv, le_of_lt hgt, le_refl k⟩
  · rw [if_neg fun heq => hgt ((compare_gt_iff k y).mp (Option.some.inj heq))]
    exact ⟨max, y, rfl, rfl, hhi, le_refl y, le_of_not_gt hgt⟩

theorem unordered_update (ho : min.kind.ordered = false) : (stats.update v).Encloses w := by
  obtain ⟨hmin', hmax'⟩ := update_bounds h hmin hmax
  rw [valueCmp_eq_none (.inr (sortKey_of_unordered ho)), if_neg nofun] at hmin'
  split at hmax'
  · exact .unordered _ _ hmin' hmax' ho
  · exact .unordered _ _ hmin' hmax' ho

end

end

theorem Fits.of_ordered (hfits : stats.Fits v) (h : v.isNull = false) (hmin : stats.min = some min)
    (ho : min.kind.ordered = true) : v.kind = min.kind ∧ ∃ k, v.sortKey = some k := by
  unfold Fits at hfits
  rw [h, hmin] at hfits
  obtain ⟨hk, hkey⟩ := hfits.resolve_left Bool.false_ne_true ho
  exact ⟨hk, Option.isSome_iff_exists.mp hkey⟩

theorem Encloses.update (hw : stats.Encloses w) (hfits : stats.Fits v) :
    (stats.update v).Encloses w := by
  cases hnull : v.isNull with
  | true =>
    rw [update_null hnull]
    cases hw with
    | unordered min max hmin hmax ho => exact .unordered min max hmin hmax ho
    | between min max lo key hi hmin hmax hk hk' hlo hkey hhi hle hle' =>
      exact .between min max lo key hi hmin hmax hk hk' hlo hkey hhi hle hle'
  | false =>
    cases hw with
    | unordered min max hmin hmax ho => exact unordered_update hnull hmin hmax ho
    | between min max lo key hi hmin hmax hk hk' hlo hkey hhi hle hle' =>
      obtain ⟨hv, k, hvk⟩ := hfits.of_ordered hnull hmin (ordered_of_sortKey hlo)
      obtain ⟨min', lo', hmin', hkind, hlo', hbelow, _⟩ := lower_update hnull hmin hmax hv hvk hlo
      obtain ⟨max', hi', hmax', hkind', hhi', habove, _⟩ :=
        upper_update hnull hmin hmax (hv.trans (hk.trans hk'.symm)) hvk hhi
      exact .between min' max' lo' key hi' hmin' hmax' (hkind.trans hk) (hkind'.trans hk') hlo'
        hkey hhi'
        (le_trans hbelow hle) (le_trans hle' habove)

def Bounded (stats : ColumnChunkStats) : Prop :=
  stats.min = none ∧ stats.max = none ∨ ∃ min, stats.min = some min ∧ stats.Encloses min

theorem Bounded.encloses_update (hb : stats.Bounded) (hfits : stats.Fits v) (hnull : v.isNull = false) :
    (stats.update v).Encloses v := by
  rcases hb with ⟨hmin, -⟩ | ⟨min, hmin, henc⟩
  · obtain ⟨hmin', hmax'⟩ := update_first hnull hmin
    cases ho : v.kind.ordered with
    | false => exact .unordered v v hmin' hmax' ho
    | true =>
      unfold Fits at hfits
      rw [hnull, hmin] at hfits
      obtain ⟨k, hk⟩ := Option.isSome_iff_exists.mp (hfits.resolve_left Bool.false_ne_true ho)
      exact .between v v k k k hmin' hmax' rfl rfl hk hk hk (le_refl k) (le_refl k)
  · cases henc with
    | unordered _ max hmin hmax ho => exact unordered_update hnull hmin hmax ho
    | between m max lo key hi hm hmax hk hk' hlo hkey hhi =>
      obtain rfl := Option.some.inj (hm.symm.trans hmin)
      obtain ⟨hv, k, hvk⟩ := hfits.of_ordered hnull hmin (ordered_of_sortKey hlo)
      obtain ⟨min', lo', hmin', hkind, hlo', _, hbelow⟩ := lower_update hnull hmin hmax hv hvk hlo
      obtain ⟨max', hi', hmax', hkind', hhi', _, habove⟩ :=
        upper_update hnull hmin hmax (hv.trans hk'.symm) hvk hhi
      exact .between min' max' lo' k hi' hmin' hmax' (hkind.trans hv.symm)
        (hkind'.trans (hk'.trans hv.symm)) hlo' hvk
        hhi' hbelow habove

theorem Bounded.update (hb : stats.Bounded) (hfits : stats.Fits v) : (stats.update v).Bounded := by
  cases hnull : v.isNull with
  | true =>
    rw [update_null hnull]
    rcases hb with hb | ⟨min, hmin, henc⟩
    · exact .inl hb
    · have henc' := henc.update hfits
      rw [update_null hnull] at henc'
      exact .inr ⟨min, hmin, henc'⟩
  | false =>
    right
    have hself := hb.encloses_update hfits hnull
    rcases hb with ⟨hmin, -⟩ | ⟨min, hmin, henc⟩
    · exact ⟨v, (update_first hnull hmin).1, hself⟩
    · have hmax : ∃ max, stats.max = some max := by
        cases henc with
        | unordered _ max _ hmax => exact ⟨max, hmax⟩
        | between _ max _ _ _ _ hmax => exact ⟨max, hmax⟩
      obtain ⟨max, hmax⟩ := hmax
      have hmin' := (update_bounds hnull hmin hmax).1
      split at hmin'
      · exact ⟨v, hmin', hself⟩
      · exact ⟨min, hmin', henc.update hfits⟩

theorem cannotMatch_of_skip (h : checkConstantPredicate min max c op = .skipScan) :
    cannotMatch (valueCmp c min) (valueCmp c max) op = true := by
  unfold checkConstantPredicate at h
  split at h
  · assumption
  · cases h

theorem Encloses.not_selected (hv : stats.Encloses v)
    (hzero : path = .kernel → v.oppositeZeros c = false)
    (hskip : checkZoneMap stats op c = .skipScan) : evaluate path op v c ≠ .ok (some true) := by
  unfold checkZoneMap at hskip
  split at hskip
  next min max hmin hmax =>
    split at hskip
    next hkinds =>
      obtain ⟨hkm, hkc, ho⟩ := hkinds
      cases hv with
      | unordered m _ hm _ hno =>
        rw [Option.some.inj (hm.symm.trans hmin), ho] at hno
        cases hno
      | between m m' lo key hi hm hm' hk hk' hlo hkey hhi hle hle' =>
        obtain rfl := Option.some.inj (hm.symm.trans hmin)
        obtain rfl := Option.some.inj (hm'.symm.trans hmax)
        have hmatch := cannotMatch_of_skip hskip
        cases hc : c.sortKey with
        | none =>
          -- a NaN constant skips for `=` only
          rw [valueCmp_eq_none (.inl hc), valueCmp_eq_none (.inl hc)] at hmatch
          cases op with
          | eq => exact Value.evaluate_nan (hk.symm.trans hkc) hkey hc
          | _ => cases hmatch
        | some kc =>
          rw [valueCmp_of_keys hkc.symm hc hlo, valueCmp_of_keys (hkc.symm.trans hkm) hc hhi] at hmatch
          intro htrue
          have htest := Value.test_of_evaluate (hk.symm.trans hkc) hkey hc hzero htrue
          rw [test_of_cannotMatch hle hle' hmatch] at htest
          cases htest
    next => cases hskip
  next => cases hskip

end ColumnChunkStats

end Bounds

namespace ZonedChunk

structure Covered (c : ZonedChunk) : Prop where
  bounds : c.stats.Bounded
  values : ∀ v ∈ c.values, v.isNull = true ∨ c.stats.Encloses v
  noNulls : c.stats.guaranteedNoNulls = true → ∀ v ∈ c.values, v.isNull = false
  allNulls : c.stats.guaranteedAllNulls = false

theorem guaranteedNoNulls_update (stats : ColumnChunkStats) (v : Value) :
    (stats.update v).guaranteedNoNulls = (stats.guaranteedNoNulls && !v.isNull) := by
  unfold ColumnChunkStats.update
  split
  next h => simp [h]
  next h => split <;> simp [h]

theorem Covered.write {values : List Value} (h : c.Covered) (hfits : c.stats.Fits v)
    (hvalues : ∀ w ∈ values, w ∈ c.values ∨ w = v) :
    Covered { c with values := values, stats := c.stats.update v } where
  bounds := h.bounds.update hfits
  values := by
    intro w hw
    rcases hvalues w hw with hold | rfl
    · exact (h.values w hold).imp_right fun henc => henc.update hfits
    · cases hnull : w.isNull with
      | true => exact .inl rfl
      | false => exact .inr (h.bounds.encloses_update hfits hnull)
  noNulls := by
    intro hflag w hw
    rw [guaranteedNoNulls_update, Bool.and_eq_true] at hflag
    rcases hvalues w hw with hold | rfl
    · exact h.noNulls hflag.1 w hold
    · simpa using hflag.2
  allNulls := by
    unfold ColumnChunkStats.update
    split
    · exact h.allNulls
    · split <;> rfl

def Uniform (c : ZonedChunk) (call : ChunkCall) : Prop := c.stats.Fits call.value

instance (c : ZonedChunk) (call : ChunkCall) : Decidable (c.Uniform call) :=
  inferInstanceAs (Decidable (c.stats.Fits call.value))

theorem Covered.step (h : c.Covered) (hu : c.Uniform call) (hd : c.step call = some d) : d.Covered := by
  cases call with
  | append =>
    obtain rfl := Option.some.inj hd
    apply h.write hu
    intro w hw
    exact (List.mem_append.mp hw).imp_right List.mem_singleton.mp
  | setValue =>
    obtain rfl := Option.some.inj hd
    unfold setValue
    split
    · exact h
    · apply h.write hu
      intro w hw
      exact List.mem_or_eq_of_mem_set hw

theorem Covered.not_selected {op : ComparisonOp} {constant : Value} (h : c.Covered)
    (hzero : path = .kernel → ∀ v ∈ c.values, v.oppositeZeros constant = false)
    (hskip : checkZoneMap c.stats op constant = .skipScan) :
    ∀ v ∈ c.values, evaluate path op v constant ≠ .ok (some true) := by
  intro v hv
  rcases h.values v hv with hnull | henc
  · exact Value.evaluate_null hnull
  · exact henc.not_selected (fun hp => hzero hp v hv) hskip

theorem Covered.null_not_selected {isNull : Bool} (h : c.Covered)
    (hskip : checkNullZoneMap c.stats isNull = .skipScan) : ∀ v ∈ c.values, v.isNull ≠ isNull := by
  intro v hv
  unfold checkNullZoneMap at hskip
  cases isNull with
  | true =>
    have hflag : c.stats.guaranteedNoNulls = true := by
      by_contra hno
      simp [hno] at hskip
    simp [h.noNulls hflag v hv]
  | false => simp [h.allNulls] at hskip

end ZonedChunk

end Akar
