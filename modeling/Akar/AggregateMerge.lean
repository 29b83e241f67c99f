import Akar.Comparison

namespace Akar

open List

namespace Aggregate

inductive AggregateFunction where
  | count | countStar | sum | min | max | avg | collect
  deriving DecidableEq

/-- Double arithmetic on bit patterns: sums, `as f64` and quotients by a count. -/
structure DoubleOps where
  add : UInt64 → UInt64 → UInt64
  ofInt64 : Int64 → UInt64
  div : UInt64 → Nat → UInt64

inductive AggValueState where
  | count (n : Nat)
  | sum (v : Value)
  | min (v : Value)
  | max (v : Value)
  | avg (sum : Value) (count : Nat)
  | collect (items : List Value)

section Source

variable (ops : DoubleOps)

def addValuesForAgg : Value → Value → Value
  | .int64 x, .int64 y => .int64 (x + y)
  | .double x, .double y => .double (ops.add x y)
  | .int64 x, .double y => .double (ops.add (ops.ofInt64 x) y)
  | .double x, .int64 y => .double (ops.add x (ops.ofInt64 y))
  | a, _ => a

def compares (op : ComparisonOp) (a b : Value) : Bool :=
  match evaluateComparison op a b with
  | .ok r => r
  | .error _ => false

def isZero : Value → Bool
  | .int64 x => x = 0
  | _ => false

namespace AggValueState

def new : AggregateFunction → AggValueState
  | .count | .countStar => count 0
  | .sum => sum .null
  | .min => min .null
  | .max => max .null
  | .avg => avg (.int64 0) 0
  | .collect => collect []

def update (s : AggValueState) (v : Value) : AggValueState :=
  if v.isNull then s
  else
    match s with
    | count n => count (n + 1)
    | sum current => sum (if current.isNull then v else addValuesForAgg ops current v)
    | min current => min (if current.isNull || compares .lt v current then v else current)
    | max current => max (if current.isNull || compares .gt v current then v else current)
    | avg t n => avg (if isZero t then v else addValuesForAgg ops t v) (n + 1)
    | collect items => collect (items ++ [v])

def merge : AggValueState → AggValueState → AggValueState
  | count a, count b => count (a + b)
  | sum a, sum b => sum (if a.isNull then b else if b.isNull then a else addValuesForAgg ops a b)
  | min a, min b => min (if b.isNull then a else if a.isNull || compares .lt b a then b else a)
  | max a, max b => max (if b.isNull then a else if a.isNull || compares .gt b a then b else a)
  | avg s m, avg t n =>
    if n = 0 then avg s m else avg (if m = 0 then t else addValuesForAgg ops s t) (m + n)
  | collect a, collect b => collect (a ++ b)
  | s, _ => s

def finalize : AggValueState → Value
  | count n => .int64 (Int64.ofNat n)
  | sum v | min v | max v => v
  | avg t n =>
    if n = 0 then .null
    else
      match t with
      | .int64 s => .double (ops.div (ops.ofInt64 s) n)
      | .double s => .double (ops.div s n)
      | v => v
  | collect items => .list items

def fed (f : AggregateFunction) (vals : List Value) : AggValueState := vals.foldl (update ops) (new f)

end AggValueState

end Source

open AggValueState

variable {ops : DoubleOps} {f : AggregateFunction}

theorem compares_lt (x y : Int64) : compares .lt (.int64 x) (.int64 y) =
    decide (x.toInt < y.toInt) := by
  simp only [compares, evaluateComparison, compareValues, Except.map, ComparisonOp.test,
    compareOfLessAndEq]
  split
  next h => simp [h]
  next h => split <;> simp [h]

theorem compares_gt (x y : Int64) : compares .gt (.int64 x) (.int64 y) =
    decide (-x.toInt < -y.toInt) := by
  simp only [compares, evaluateComparison, compareValues, Except.map, ComparisonOp.test,
    compareOfLessAndEq]
  split
  next h => simp [Int.lt_asymm h]
  next h => split <;> simp <;> omega

section Totals

variable {α : Type} {g : α → α → α} {l m : List α}

def total (g : α → α → α) (l : List α) : Option α := l.foldl (fun o x => Option.merge g o (some x)) none

theorem total_concat (l : List α) (x : α) : total g (l ++ [x]) =
    Option.merge g (total g l) (some x) := by
  rw [total, foldl_append]
  rfl

theorem total_append [Std.Associative g] (l m : List α) :
    total g (l ++ m) = Option.merge g (total g l) (total g m) := by
  induction m using reverseRecOn with
  | nil =>
    rw [append_nil]
    cases total g l <;> rfl
  | append_singleton m x ih =>
    have hassoc : Std.Associative (Option.merge g) := inferInstance
    rw [← append_assoc, total_concat, total_concat, ih, hassoc.assoc]

theorem total_comm [Std.Associative g] [Std.Commutative g] (l m : List α) : total g (l ++ m) =
    total g (m ++ l) := by
  have hcomm : Std.Commutative (Option.merge g) := inferInstance
  rw [total_append, total_append, hcomm.comm]

def pickLess (key : α → Int) (a v : α) : α := if key v < key a then v else a

variable {key : α → Int}

instance : Std.Associative (pickLess key) where
  assoc a b c := by
    unfold pickLess
    split_ifs <;> first | rfl | omega

theorem pickLess_comm (hkey : Function.Injective key) : Std.Commutative (pickLess key) where
  comm a b := by
    unfold pickLess
    split_ifs with h1 h2 h2
    · omega
    · rfl
    · rfl
    · exact hkey (by omega)

end Totals

def held : Option Int64 → Value
  | some x => .int64 x
  | none => .null

def stateOf (f : AggregateFunction) (l : List Int64) : AggValueState :=
  match f with
  | .count | .countStar => .count l.length
  | .sum => .sum (held (total (· + ·) l))
  | .min => .min (held (total (pickLess Int64.toInt) l))
  | .max => .max (held (total (pickLess fun x => -x.toInt) l))
  | .avg => .avg (.int64 ((total (· + ·) l).getD 0)) l.length
  | .collect => .collect (l.map .int64)

theorem held_pick {key : Int64 → Int} {op : ComparisonOp}
    (hop : ∀ x y, compares op (.int64 x) (.int64 y) = decide (key x < key y)) (o p : Option Int64) :
    (if (held p).isNull then held o else if (held o).isNull || compares op (held p)
      (held o) then held p else held o) =
      held (Option.merge (pickLess key) o p) := by
  cases o with
  | none => cases p <;> rfl
  | some a =>
    cases p with
    | none => rfl
    | some v =>
      simp only [held, Value.isNull, hop, Option.merge_some_some, pickLess]
      by_cases h : key v < key a <;> simp [h]

theorem held_sum (o p : Option Int64) :
    (if (held o).isNull then held p else if (held p).isNull then held o else addValuesForAgg ops
      (held o) (held p)) =
      held (Option.merge (· + ·) o p) := by
  cases o <;> cases p <;> rfl

theorem getD_merge (o p : Option Int64) : (Option.merge (· + ·) o p).getD 0 = o.getD 0 + p.getD 0 := by
  cases o <;> cases p <;> simp

theorem update_stateOf (l : List Int64) (x : Int64) : (stateOf f l).update ops (.int64 x) =
    stateOf f (l ++ [x]) := by
  cases f with
  | count | countStar => simp [stateOf, update, Value.isNull]
  | collect => simp [stateOf, update, Value.isNull]
  | sum =>
    rw [stateOf, stateOf, total_concat]
    exact congrArg AggValueState.sum (held_sum _ (some x))
  | min =>
    rw [stateOf, stateOf, total_concat]
    exact congrArg AggValueState.min (held_pick compares_lt _ (some x))
  | max =>
    rw [stateOf, stateOf, total_concat]
    exact congrArg AggValueState.max (held_pick compares_gt _ (some x))
  | avg =>
    rw [stateOf, stateOf, total_concat, getD_merge, length_append]
    by_cases h : (total (· + ·) l).getD 0 =
      0 <;> simp [update, Value.isNull, isZero, addValuesForAgg, h]

theorem merge_stateOf (l m : List Int64) : (stateOf f l).merge ops (stateOf f m) =
    stateOf f (l ++ m) := by
  cases f with
  | count | countStar => simp [stateOf, AggValueState.merge]
  | collect => simp [stateOf, AggValueState.merge]
  | sum =>
    rw [stateOf, stateOf, stateOf, total_append]
    exact congrArg AggValueState.sum (held_sum _ _)
  | min =>
    rw [stateOf, stateOf, stateOf, total_append]
    exact congrArg AggValueState.min (held_pick compares_lt _ _)
  | max =>
    rw [stateOf, stateOf, stateOf, total_append]
    exact congrArg AggValueState.max (held_pick compares_gt _ _)
  | avg =>
    rw [stateOf, stateOf, stateOf, total_append, getD_merge, length_append]
    cases m with
    | nil => simp [AggValueState.merge, total]
    | cons => cases l <;> simp [AggValueState.merge, addValuesForAgg, total]

theorem stateOf_comm (hf : f ≠ .collect) (l m : List Int64) : stateOf f (l ++ m) =
    stateOf f (m ++ l) := by
  have hmin := pickLess_comm fun x y h => Int64.toInt_inj.mp h
  have hmax := pickLess_comm fun x y h => Int64.toInt_inj.mp (Int.neg_inj.mp h)
  cases f with
  | count | countStar => simp [stateOf, Nat.add_comm]
  | collect => exact absurd rfl hf
  | sum | min | max => rw [stateOf, total_comm]; rfl
  | avg => simp only [stateOf, total_comm l m, length_append, Nat.add_comm]

def IntOrNull (v : Value) : Prop := v = .null ∨ ∃ x, v = .int64 x

def int64s (vals : List Value) : List Int64 :=
  vals.filterMap fun v => match v with | .int64 x => some x | _ => none

theorem int64s_append (xs ys : List Value) : int64s (xs ++ ys) = int64s xs ++ int64s ys :=
  filterMap_append

theorem fed_eq {vals : List Value} (h : ∀ v ∈ vals, IntOrNull v) : fed ops f vals =
    stateOf f (int64s vals) := by
  induction vals using reverseRecOn with
  | nil => cases f <;> rfl
  | append_singleton vals v ih =>
    have hrest := ih (forall_mem_append.mp h).1
    rw [fed, foldl_append, ← fed, hrest, int64s_append, foldl_cons, foldl_nil]
    rcases h v (mem_append_right _ mem_cons_self) with rfl | ⟨x, rfl⟩
    · exact congrArg (stateOf f) (append_nil _).symm
    · exact update_stateOf _ x

inductive IntKind where
  | int64 | int32 | int16 | int8 | uint64 | uint32 | uint16 | uint8 | int128 | uint128
  deriving DecidableEq, Repr

def kind : Value → Option IntKind
  | .int64 _ => some .int64
  | .int32 _ => some .int32
  | .int16 _ => some .int16
  | .int8 _ => some .int8
  | .uint64 _ => some .uint64
  | .uint32 _ => some .uint32
  | .uint16 _ => some .uint16
  | .uint8 _ => some .uint8
  | .int128 _ => some .int128
  | .uint128 _ => some .uint128
  | _ => none

/-- The aggregate looks at every value of the kind: only INT64 is added up, and the 128-bit integers
are not compared. -/
def combines : AggregateFunction → IntKind → Bool
  | .sum, .int64 | .avg, .int64 => true
  | .sum, _ | .avg, _ => false
  | .min, .int128 | .min, .uint128 | .max, .int128 | .max, .uint128 => false
  | _, _ => true

def present (vals : List Value) : List Value := vals.filter (!·.isNull)

def OfKind (k : IntKind) (vals : List Value) : Prop := ∀ v ∈ vals, v = .null ∨ kind v = some k

/-- Partial states merge in either order to what one state gives; `COLLECT` merged the other way has
the same items. -/
def MergesRight (ops : DoubleOps) (f : AggregateFunction) (xs ys : List Value) : Prop :=
  ((fed ops f xs).merge ops (fed ops f ys)).finalize ops = (fed ops f (xs ++ ys)).finalize ops ∧
    (f ≠ .collect →
      ((fed ops f ys).merge ops (fed ops f xs)).finalize ops = (fed ops f (xs ++ ys)).finalize ops) ∧
    (f = .collect → ∃ l m, ((fed ops f ys).merge ops (fed ops f xs)).finalize ops = .list l ∧
      (fed ops f (xs ++ ys)).finalize ops = .list m ∧ l.Perm m)

section Kinds

variable {k : IntKind} {vals xs ys l m : List Value} {v : Value}

theorem present_append (xs ys : List Value) : present (xs ++ ys) = present xs ++ present ys :=
  filter_append ..

theorem isNull_of_kind (h : kind v = some k) : v.isNull = false := by
  cases v <;> first | rfl | cases h

theorem OfKind.append (hxs : OfKind k xs) (hys : OfKind k ys) : OfKind k (xs ++ ys) :=
  forall_mem_append.mpr ⟨hxs, hys⟩

theorem OfKind.present (h : OfKind k vals) : ∀ v ∈ present vals, kind v = some k := by
  intro v hv
  obtain ⟨hv, hnull⟩ := mem_filter.mp hv
  rcases h v hv with rfl | hv
  · cases hnull
  · exact hv

theorem fed_concat (vals : List Value) (v : Value) : fed ops f (vals ++ [v]) =
    (fed ops f vals).update ops v := by
  rw [fed, foldl_append]
  rfl

/-- A description of the states is kept by `update` on values that are there. -/
theorem fed_of_update {S : List Value → AggValueState} (hnew : AggValueState.new f = S [])
    (hupdate : ∀ l v, (∀ w ∈ l, kind w = some k) → kind v = some k →
      (S l).update ops v = S (l ++ [v])) (h : OfKind k vals) : fed ops f vals = S (present vals) := by
  induction vals using reverseRecOn with
  | nil => exact hnew
  | append_singleton vals v ih =>
    obtain ⟨hvals, hv⟩ := forall_mem_append.mp h
    rw [fed_concat, ih hvals, present_append]
    rcases hv v mem_cons_self with rfl | hv
    · exact congrArg S (append_nil _).symm
    · have hone : Aggregate.present [v] = [v] := by simp [Aggregate.present, isNull_of_kind hv]
      rw [hone, hupdate _ _ (OfKind.present hvals) hv]

theorem mergesRight_of_state {S : List Value → AggValueState} (hf : f ≠ .collect)
    (hfed : ∀ {vals}, OfKind k vals → fed ops f vals = S (present vals))
    (hmerge : ∀ {l m}, (∀ v ∈ l, kind v = some k) → (∀ v ∈ m, kind v = some k) →
      (S l).merge ops (S m) = S (l ++ m)) (hxs : OfKind k xs) (hys : OfKind k ys) :
    MergesRight ops f xs ys ↔
      (S (present ys ++ present xs)).finalize ops = (S (present xs ++ present ys)).finalize ops := by
  rw [MergesRight, hfed hxs, hfed hys, hfed (hxs.append hys), hmerge hxs.present hys.present,
    hmerge hys.present hxs.present, present_append]
  exact ⟨fun h => h.2.1 hf, fun h => ⟨rfl, fun _ => h, fun hf' => absurd hf' hf⟩⟩

theorem mergesRight_count (hf : f = .count ∨ f = .countStar) (hxs : OfKind k xs) (hys : OfKind k ys) :
    MergesRight ops f xs ys := by
  have hnew : AggValueState.new f = .count 0 := by rcases hf with rfl | rfl <;> rfl
  have hfed {vals} (h : OfKind k vals) : fed ops f vals = .count (present vals).length := by
    refine fed_of_update (S := fun l => .count l.length) hnew (fun l v _ hv => ?_) h
    simp [update, isNull_of_kind hv]
  have hne : f ≠ .collect := by rcases hf with rfl | rfl <;> decide
  refine (mergesRight_of_state (S := fun l => .count l.length) hne hfed (fun _ _ => ?_) hxs hys).mpr ?_
  · simp [AggValueState.merge]
  · simp [Nat.add_comm]

theorem mergesRight_collect (hxs : OfKind k xs) (hys : OfKind k ys) :
    MergesRight ops .collect xs ys := by
  have hfed {vals} (h : OfKind k vals) : fed ops .collect vals = .collect (present vals) := by
    refine fed_of_update (S := .collect) rfl (fun l v _ hv => ?_) h
    simp [update, isNull_of_kind hv]
  rw [MergesRight, hfed hxs, hfed hys, hfed (hxs.append hys), present_append]
  exact ⟨rfl, fun h => absurd rfl h, fun _ => ⟨_, _, rfl, rfl, perm_append_comm⟩⟩

section Least

variable {key : Value → Int} {op : ComparisonOp}

theorem total_least (key : Value → Int) (hl : l ≠ []) :
    ∃ v ∈ l, total (pickLess key) l = some v ∧ ∀ w ∈ l, key v ≤ key w := by
  induction l using reverseRecOn with
  | nil => exact absurd rfl hl
  | append_singleton l w ih =>
    rw [total_concat]
    by_cases hnil : l = []
    · subst hnil
      exact ⟨w, by simp, rfl, by simp⟩
    · obtain ⟨v, hv, htotal, hleast⟩ := ih hnil
      rw [htotal, Option.merge_some_some, pickLess]
      by_cases h : key w < key v
      · rw [if_pos h]
        refine ⟨w, by simp, rfl, fun x hx => ?_⟩
        rcases mem_append.mp hx with hx | hx
        · exact (h.trans_le (hleast x hx)).le
        · rw [mem_singleton.mp hx]
      · rw [if_neg h]
        refine ⟨v, mem_append_left _ hv, rfl, fun x hx => ?_⟩
        rcases mem_append.mp hx with hx | hx
        · exact hleast x hx
        · rw [mem_singleton.mp hx]
          omega

theorem total_pickLess_comm (hkey : ∀ v w, kind v = some k → kind w = some k → key v = key w → v = w)
    (hl : ∀ v ∈ l, kind v = some k) (hm : ∀ v ∈ m, kind v = some k) :
    total (pickLess key) (m ++ l) = total (pickLess key) (l ++ m) := by
  by_cases hnil : l ++ m = []
  · obtain ⟨rfl, rfl⟩ := append_eq_nil_iff.mp hnil
    rfl
  · have hnil' : m ++ l ≠ [] := fun h => hnil (perm_nil.mp (h ▸ perm_append_comm))
    obtain ⟨v, hv, htotal, hleast⟩ := total_least key hnil
    obtain ⟨w, hw, htotal', hleast'⟩ := total_least key hnil'
    have hvw := hleast w (perm_append_comm.mem_iff.mp hw)
    have hwv := hleast' v (perm_append_comm.mem_iff.mp hv)
    have hkinds : ∀ v ∈ l ++ m, kind v = some k := forall_mem_append.mpr ⟨hl, hm⟩
    rw [htotal, htotal',
      hkey v w (hkinds v hv) (hkinds w (perm_append_comm.mem_iff.mp hw)) (Int.le_antisymm hvw hwv)]

theorem pick_merge (hop : ∀ v w, kind v = some k → kind w = some k → compares op v w =
    decide (key v < key w))
    {o p : Option Value} (ho : ∀ v ∈ o, kind v = some k) (hp : ∀ v ∈ p, kind v = some k) :
    (if (p.getD .null).isNull then o.getD .null
      else if (o.getD .null).isNull || compares op (p.getD .null) (o.getD .null) then p.getD .null
      else o.getD .null) = (Option.merge (pickLess key) o p).getD .null := by
  cases p with
  | none => cases o <;> rfl
  | some v =>
    have hv := hp v rfl
    cases o with
    | none => simp [isNull_of_kind hv]
    | some a =>
      have ha := ho a rfl
      simp only [Option.getD_some, isNull_of_kind hv, isNull_of_kind ha, hop v a hv ha,
        Option.merge_some_some, pickLess]
      by_cases h : key v < key a <;> simp [h]

theorem total_kind (key : Value → Int) (hl : ∀ v ∈ l, kind v = some k) :
    ∀ v ∈ total (pickLess key) l, kind v = some k := by
  intro v hv
  by_cases hnil : l = []
  · subst hnil
    cases hv
  · obtain ⟨w, hw, htotal, -⟩ := total_least key hnil
    rw [htotal] at hv
    cases hv
    exact hl _ hw

/-- `MIN` and `MAX` pick the least value under a key, where the comparison of two values compares
their keys. -/
theorem mergesRight_pick (key : Value → Int) {state : Value → AggValueState} (hf : f ≠ .collect)
    (hnew : AggValueState.new f = state .null) (hupdate : ∀ a v, v.isNull = false →
      (state a).update ops v = state (if a.isNull || compares op v a then v else a))
    (hmerge : ∀ a b, (state a).merge ops (state b) =
      state (if b.isNull then a else if a.isNull || compares op b a then b else a))
    (hop : ∀ v w, kind v = some k → kind w = some k → compares op v w = decide (key v < key w))
    (hkey : ∀ v w, kind v = some k → kind w = some k → key v = key w → v = w)
    (hxs : OfKind k xs) (hys : OfKind k ys) : MergesRight ops f xs ys := by
  have hfed {vals} (h : OfKind k vals) :
      fed ops f vals = state ((total (pickLess key) (present vals)).getD .null) := by
    refine fed_of_update (S := fun l => state ((total (pickLess key) l).getD .null)) hnew
      (fun l v hl hv => ?_) h
    have hsome : ∀ w ∈ some v, kind w = some k := by simpa using hv
    have hpick := pick_merge hop (total_kind key hl) hsome
    rw [Option.getD_some, isNull_of_kind hv, if_neg Bool.false_ne_true] at hpick
    rw [hupdate _ _ (isNull_of_kind hv), total_concat, ← hpick]
  refine (mergesRight_of_state (S := fun l => state ((total (pickLess key) l).getD .null)) hf hfed
    (fun hl hm => ?_) hxs hys).mpr ?_
  · rw [hmerge, total_append, pick_merge hop (total_kind key hl) (total_kind key hm)]
  · rw [total_pickLess_comm hkey hxs.present hys.present]

end Least

section Comparable

def key (v : Value) : Int := (Value.integerToI128 v).getD 0

theorem compareValues_kind {a b : Value} (hk : combines .min k = true) (ha : kind a = some k)
    (hb : kind b = some k) :
    compareValues a b = .ok (compareOfLessAndEq (key a) (key b)) := by
  cases a <;> cases ha <;> cases hk <;> cases b <;> cases hb
  all_goals first | rfl | simp [compareValues, key, Value.integerToI128, compareOfLessAndEq]

theorem compares_lt_kind {a b : Value} (hk : combines .min k = true) (ha : kind a = some k)
    (hb : kind b = some k) :
    compares .lt a b = decide (key a < key b) := by
  simp only [compares, evaluateComparison, compareValues_kind hk ha hb, Except.map, ComparisonOp.test,
    compareOfLessAndEq]
  split
  next h => simp [h]
  next h => split <;> simp [h]

theorem compares_gt_kind {a b : Value} (hk : combines .min k = true) (ha : kind a = some k)
    (hb : kind b = some k) :
    compares .gt a b = decide (-key a < -key b) := by
  simp only [compares, evaluateComparison, compareValues_kind hk ha hb, Except.map, ComparisonOp.test,
    compareOfLessAndEq]
  split
  next h => simp [Int.lt_asymm h]
  next h => split <;> simp <;> omega

theorem key_inj {a b : Value} (hk : combines .min k = true) (ha : kind a = some k)
    (hb : kind b = some k) (h : key a = key b) : a = b := by
  cases a <;> cases ha <;> cases hk <;> cases b <;> cases hb
  all_goals simpa [key, Value.integerToI128, Int64.toInt_inj, Int32.toInt_inj, Int16.toInt_inj,
    Int8.toInt_inj, UInt64.toNat_inj, UInt32.toNat_inj, UInt16.toNat_inj, UInt8.toNat_inj] using h

theorem mergesRight_min (hk : combines .min k = true) (hxs : OfKind k xs) (hys : OfKind k ys) :
    MergesRight ops .min xs ys :=
  mergesRight_pick key nofun rfl (fun a v hv => by simp [update, hv]) (fun _ _ => rfl)
    (fun _ _ => compares_lt_kind hk) (fun _ _ => key_inj hk) hxs hys

theorem mergesRight_max (hk : combines .min k = true) (hxs : OfKind k xs) (hys : OfKind k ys) :
    MergesRight ops .max xs ys :=
  mergesRight_pick (fun v => -key v) nofun rfl (fun a v hv => by simp [update, hv]) (fun _ _ => rfl)
    (fun _ _ => compares_gt_kind hk) (fun v w hv hw h => key_inj hk hv hw (Int.neg_inj.mp h)) hxs hys

end Comparable

section First

/-- The state of an aggregate that keeps the first value it sees. -/
def firstOf (f : AggregateFunction) (l : List Value) : AggValueState :=
  match f with
  | .sum => .sum (l.head?.getD .null)
  | .min => .min (l.head?.getD .null)
  | .max => .max (l.head?.getD .null)
  | .avg => .avg (l.head?.getD (.int64 0)) l.length
  | .count | .countStar | .collect => .collect l

theorem not_int64 (hc : combines f k = false) (hf : f = .sum ∨ f = .avg) : k ≠ .int64 := by
  rintro rfl
  rcases hf with rfl | rfl <;> cases hc

theorem is_wide (hc : combines f k = false) (hf : f = .min ∨ f = .max) : k = .int128 ∨ k =
    .uint128 := by
  rcases hf with rfl | rfl <;> cases k <;> simp [combines] at hc ⊢

theorem addValues_first {a b : Value} (hk : k ≠ .int64) (ha : kind a = some k) (hb : kind b = some k) :
    addValuesForAgg ops a b = a := by
  cases a <;> first | rfl | (cases ha; exact absurd rfl hk) | cases ha

theorem compares_wide {a b : Value} {op : ComparisonOp} (hop : op = .lt ∨ op = .gt)
    (hk : k = .int128 ∨ k = .uint128) (ha : kind a = some k) : compares op a b = false := by
  rcases hk with rfl | rfl <;> cases a <;> cases ha
  all_goals rcases hop with rfl | rfl <;> cases b <;> rfl

theorem firstOf_update (hc : combines f k = false) (hl : ∀ v ∈ l, kind v = some k)
    (hv : kind v = some k) : (firstOf f l).update ops v = firstOf f (l ++ [v]) := by
  have hnull := isNull_of_kind hv
  cases l with
  | nil => cases f <;> simp [firstOf, update, hnull, isZero]
  | cons a l =>
    have ha := hl a mem_cons_self
    have hanull := isNull_of_kind ha
    cases f with
    | count | countStar | collect => cases hc
    | sum => simp [firstOf, update, hnull, hanull, addValues_first (not_int64 hc (.inl rfl)) ha hv]
    | min => simp [firstOf, update, hnull, hanull, compares_wide (.inl rfl) (is_wide hc (.inl rfl)) hv]
    | max => simp [firstOf, update, hnull, hanull, compares_wide (.inr rfl) (is_wide hc (.inr rfl)) hv]
    | avg =>
      have hk := not_int64 hc (.inr rfl)
      have hzero : isZero a = false := by
        cases a <;> first | rfl | exact absurd (Option.some.inj ha).symm hk
      simp [firstOf, update, hnull, hzero, addValues_first hk ha hv]

theorem firstOf_merge (hc : combines f k = false) (hl : ∀ v ∈ l, kind v = some k)
    (hm : ∀ v ∈ m, kind v = some k) : (firstOf f l).merge ops (firstOf f m) = firstOf f (l ++ m) := by
  cases l with
  | nil =>
    cases m with
    | nil => cases f <;> simp [firstOf, AggValueState.merge]
    | cons b m =>
      have hb := isNull_of_kind (hm b mem_cons_self)
      cases f <;> simp [firstOf, AggValueState.merge, hb]
  | cons a l =>
    have ha := hl a mem_cons_self
    have hanull := isNull_of_kind ha
    cases m with
    | nil => cases f <;> simp [firstOf, AggValueState.merge, hanull]
    | cons b m =>
      have hb := hm b mem_cons_self
      have hbnull := isNull_of_kind hb
      cases f with
      | count | countStar | collect => cases hc
      | sum =>
        simp [firstOf, AggValueState.merge, hanull, hbnull,
        addValues_first (not_int64 hc (.inl rfl)) ha hb]
      | min =>
        simp [firstOf, AggValueState.merge, hanull, hbnull,
        compares_wide (.inl rfl) (is_wide hc (.inl rfl)) hb]
      | max =>
        simp [firstOf, AggValueState.merge, hanull, hbnull,
        compares_wide (.inr rfl) (is_wide hc (.inr rfl)) hb]
      | avg =>
        simp +arith [firstOf, AggValueState.merge, addValues_first (not_int64 hc (.inr rfl)) ha hb]

theorem firstOf_finalize (hc : combines f k = false) (hl : ∀ v ∈ l, kind v = some k) :
    (firstOf f l).finalize ops = l.head?.getD .null := by
  cases f with
  | count | countStar | collect => cases hc
  | sum | min | max => rfl
  | avg =>
    cases l with
    | nil => rfl
    | cons a l =>
      have ha := hl a mem_cons_self
      have hk := not_int64 hc (.inr rfl)
      cases a <;> cases ha <;> first | exact absurd rfl hk | rfl

theorem head_comm (hl : ∀ v ∈ l, kind v = some k) (hm : ∀ v ∈ m, kind v = some k) :
    (m ++ l).head?.getD .null = (l ++ m).head?.getD .null ↔ l = [] ∨ m = [] ∨ l.head? = m.head? := by
  cases l with
  | nil => simp
  | cons a l =>
    cases m with
    | nil => simp
    | cons b m => simp [eq_comm]

/-- An aggregate that keeps the first value merges right when both sides start with the same one, or
one is empty. -/
theorem mergesRight_first (hc : combines f k = false) (hxs : OfKind k xs) (hys : OfKind k ys) :
    MergesRight ops f xs ys ↔
      present xs = [] ∨ present ys = [] ∨ (present xs).head? = (present ys).head? := by
  have hf : f ≠ .collect := by
    rintro rfl
    cases hc
  have hnew : AggValueState.new f = firstOf f [] := by cases f <;> first | rfl | cases hc
  have hboth := forall_mem_append.mpr ⟨hxs.present, hys.present⟩
  have hboth' := forall_mem_append.mpr ⟨hys.present, hxs.present⟩
  rw [mergesRight_of_state hf (fun h => fed_of_update hnew (fun _ _ => firstOf_update hc) h)
    (firstOf_merge hc) hxs hys, firstOf_finalize hc hboth, firstOf_finalize hc hboth',
    head_comm hxs.present hys.present]

end First

theorem mergesRight_int64 (hxs : OfKind .int64 xs) (hys : OfKind .int64 ys) (hf : f ≠ .collect) :
    MergesRight ops f xs ys := by
  have hint {vals} (h : OfKind .int64 vals) : ∀ v ∈ vals, IntOrNull v := by
    intro v hv
    rcases h v hv with rfl | hk
    · exact .inl rfl
    · cases v <;> first | exact .inr ⟨_, rfl⟩ | cases hk
  rw [MergesRight, fed_eq (hint hxs), fed_eq (hint hys), fed_eq (hint (hxs.append hys)), merge_stateOf,
    merge_stateOf, int64s_append]
  exact ⟨rfl, fun hf => by rw [stateOf_comm hf], fun h => absurd h hf⟩

end Kinds

/-- Partial states over nulls and integers of one kind merge right exactly when the aggregate looks
at every value of the kind, or a side has none, or both sides start with the same one. -/
theorem merge_correct_iff (ops : DoubleOps) (f : AggregateFunction) (k : IntKind) (xs ys : List Value)
    (hxs : OfKind k xs) (hys : OfKind k ys) :
    MergesRight ops f xs ys ↔
      (combines f k = true ∨ present xs = [] ∨ present ys = [] ∨ (present xs).head? =
        (present ys).head?) := by
  cases hc : combines f k with
  | false => simp [mergesRight_first hc hxs hys]
  | true =>
    simp only [true_or, iff_true]
    cases f with
    | count => exact mergesRight_count (.inl rfl) hxs hys
    | countStar => exact mergesRight_count (.inr rfl) hxs hys
    | collect => exact mergesRight_collect hxs hys
    | min => exact mergesRight_min hc hxs hys
    | max =>
      have hk : combines .min k = true := by cases k <;> first | rfl | cases hc
      exact mergesRight_max hk hxs hys
    | sum | avg =>
      have hk : k = .int64 := by cases k <;> first | rfl | cases hc
      subst hk
      exact mergesRight_int64 hxs hys nofun

def noDoubles : DoubleOps := ⟨fun x _ => x, fun _ => 0, fun x _ => x⟩

theorem merge_correct_zero : MergesRight noDoubles .sum [.int64 3, .int64 (-3)] [.null, .int64 5] ∧
    ¬MergesRight noDoubles .avg [.int32 3, .int32 4] [.null, .int32 5] := by
  constructor
  · exact (merge_correct_iff _ _ .int64 _ _ (by simp [OfKind, kind]) (by simp [OfKind, kind])).mpr
      (.inl rfl)
  · rw [merge_correct_iff _ _ .int32 _ _ (by simp [OfKind, kind]) (by simp [OfKind, kind])]
    simp [combines, present, Value.isNull]

theorem sum_int32_not_merged :
    ((fed noDoubles .sum [.int32 2]).merge noDoubles (fed noDoubles .sum [.int32 1])).finalize
      noDoubles = .int32 2 ∧
      (fed noDoubles .sum ([.int32 1] ++ [.int32 2])).finalize noDoubles = .int32 1 :=
  ⟨rfl, rfl⟩

section Schedules

variable {parts done : List (List Value)}

/-- `merge_all_shards` for one group: its first state is kept, and the others are merged into it.
The source does this under each key of its map in turn, and no group reads the states of another. -/
def mergeAllShards (ops : DoubleOps) : List AggValueState → Option AggValueState
  | [] => none
  | first :: rest => some (rest.foldl (merge ops) first)

theorem merge_parts (h : ∀ part ∈ parts, ∀ v ∈ part, IntOrNull v) (l : List Int64) :
    (parts.map (fed ops f)).foldl (merge ops) (stateOf f l) =
      stateOf f (l ++ parts.flatMap int64s) := by
  induction parts generalizing l with
  | nil => simp
  | cons part parts ih =>
    have hrest := ih (forall_mem_cons.mp h).2 (l ++ int64s part)
    rw [map_cons, foldl_cons, fed_eq (forall_mem_cons.mp h).1, merge_stateOf, hrest, flatMap_cons,
      append_assoc]

theorem stateOf_perm (hf : f ≠ .collect) (h : done.Perm parts) :
    stateOf f (done.flatMap int64s) = stateOf f (parts.flatMap int64s) := by
  have hmerge := @merge_stateOf noDoubles f
  induction h with
  | nil => rfl
  | cons part _ ih => rw [flatMap_cons, flatMap_cons, ← hmerge, ih, hmerge]
  | swap p q parts =>
    simp only [flatMap_cons]
    rw [← append_assoc, ← hmerge, stateOf_comm hf, hmerge, append_assoc]
  | trans _ _ ih₁ ih₂ => rw [ih₁, ih₂]

/-- However the rows of a group are split, its states merge to what one pass gives, in whatever
order they are `done`; those of `COLLECT` in the order of the parts. -/
theorem merge_schedule_independent (h : ∀ part ∈ parts, ∀ v ∈ part, IntOrNull v) (hne : parts ≠ [])
    (hdone : done.Perm parts) (hf : f ≠ .collect ∨ done = parts) :
    mergeAllShards ops (done.map (fed ops f)) = some (fed ops f parts.flatten) := by
  have hparts : ∀ part ∈ done, ∀ v ∈ part, IntOrNull v := fun part hp => h part (hdone.mem_iff.mp hp)
  have hall : ∀ v ∈ parts.flatten, IntOrNull v := by
    intro v hv
    obtain ⟨part, hpart, hv⟩ := mem_flatten.mp hv
    exact h part hpart v hv
  have hmerged : mergeAllShards ops (done.map (fed ops f)) =
      some (stateOf f (done.flatMap int64s)) := by
    cases done with
    | nil => exact absurd hdone.nil_eq.symm hne
    | cons part rest =>
      obtain ⟨hpart, hrest⟩ := forall_mem_cons.mp hparts
      rw [map_cons, mergeAllShards, fed_eq hpart, merge_parts hrest, flatMap_cons]
  have hflat : int64s parts.flatten = parts.flatMap int64s := filterMap_flatten
  rw [hmerged, fed_eq hall, hflat]
  rcases hf with hf | rfl
  · rw [stateOf_perm hf hdone]
  · rfl

theorem merge_schedule_independent_swapped :
    mergeAllShards noDoubles ([[.null, .int64 5], [.int64 3]].map (fed noDoubles .avg)) =
      some (fed noDoubles .avg [[.int64 3], [.null, .int64 5]].flatten) :=
  merge_schedule_independent (by simp [IntOrNull]) (by simp) (.swap ..) (.inl (by decide))

end Schedules

end Aggregate

end Akar
