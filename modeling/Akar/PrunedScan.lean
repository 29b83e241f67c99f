import Akar.ZoneMap

namespace Akar

open List Option

open Value (evaluate)

structure ZonedGroup where
  startOffset : Nat
  numNodes : Nat
  columns : List ZonedChunk

structure ZonePredicate where
  col : Nat
  op : ComparisonOp
  constant : Value

variable {g : ZonedGroup} {groups : List ZonedGroup} {numCols : Nat} {p : ZonePredicate}
    {path : EvalPath}

namespace ZonedGroup

def getValue (g : ZonedGroup) (row col : Nat) : Option Value := (g.columns[col]?).bind (·.values[row]?)

def rows (g : ZonedGroup) (numCols : Nat) : List (Nat × List Value) :=
  (range g.numNodes).map fun row =>
    (g.startOffset + row, (range numCols).map fun col => (g.getValue row col).getD .null)

def skipped (g : ZonedGroup) (p : ZonePredicate) : Bool :=
  (g.columns[p.col]?).any fun chunk => checkZoneMap chunk.stats p.op p.constant = .skipScan

def toColumnMajorDataWithPredicateAndIds (groups : List ZonedGroup) (numCols : Nat)
    (predicate : Option ZonePredicate) :
    List (Nat × List Value) :=
  groups.flatMap fun g => if predicate.any g.skipped then [] else g.rows numCols

end ZonedGroup

namespace ZonePredicate

variable {rows : List (Nat × List Value)}

def result (p : ZonePredicate) (path : EvalPath) (row : Nat × List Value) :
    Except String (Option Bool) :=
  evaluate path p.op ((row.2[p.col]?).getD .null) p.constant

def selected (p : ZonePredicate) (path : EvalPath) (row : Nat × List Value) : Bool :=
  match p.result path row with
  | .ok (some true) => true
  | _ => false

def firstError (p : ZonePredicate) (path : EvalPath) (rows : List (Nat × List Value)) : Option String :=
  rows.findSome? fun row =>
    match p.result path row with
    | .error e => some e
    | .ok _ => none

/-- A row whose comparison fails counts as null; the filter fails if that leaves nothing but
nulls. -/
def filterRows (p : ZonePredicate) (path : EvalPath) (rows : List (Nat × List Value)) :
    Except String (List (Nat × List Value)) :=
  let allNull := rows.all fun row => (p.result path row).toOption.getD none = none
  match p.firstError path rows with
  | some e => if allNull then .error e else .ok (rows.filter (p.selected path))
  | none => .ok (rows.filter (p.selected path))

def rowsOf (r : Except String (List (Nat × List Value))) : List (Nat × List Value) := r.toOption.getD []

theorem selected_iff (row : Nat × List Value) : p.selected path row = true ↔ p.result path row =
    .ok (some true) := by
  unfold selected
  split
  next h => simp [h]
  next h => simpa using h

theorem rowsOf_filterRows : rowsOf (p.filterRows path rows) = rows.filter (p.selected path) := by
  unfold filterRows
  simp only
  split
  · split
    next hall =>
      -- nothing but nulls: no row passes
      rw [rowsOf, filter_eq_nil_iff.mpr]
      · rfl
      · intro row hrow hsel
        have hnull := all_eq_true.mp hall row hrow
        rw [selected_iff] at hsel
        simp [hsel, Except.toOption] at hnull
    · rfl
  · rfl

end ZonePredicate

namespace ZonedGroup

theorem cell_cases {chunk : ZonedChunk} {row : Nat × List Value}
    (hchunk : g.columns[p.col]? = some chunk) (hrow : row ∈ g.rows numCols) :
    (row.2[p.col]?).getD .null = .null ∨ (row.2[p.col]?).getD .null ∈ chunk.values := by
  obtain ⟨r, -, rfl⟩ := mem_map.mp hrow
  rw [getElem?_map]
  by_cases hcol : p.col < numCols
  · rw [getElem?_range hcol, map_some, getD_some, getValue, hchunk, bind_some]
    cases hv : chunk.values[r]? with
    | none => exact .inl rfl
    | some v => exact .inr (mem_of_getElem? hv)
  · rw [getElem?_eq_none (by simpa using hcol)]
    exact .inl rfl

/-- The column of the predicate holds what its chunk's statistics cover, and no zero that only the
kernels tell from the constant. -/
def Prunable (g : ZonedGroup) (path : EvalPath) (p : ZonePredicate) : Prop :=
  ∀ chunk, g.columns[p.col]? = some chunk →
    chunk.Covered ∧ (path = .kernel → ∀ v ∈ chunk.values, v.oppositeZeros p.constant = false)

theorem filter_rows_skipped (h : g.Prunable path p) (hskip : g.skipped p = true) :
    (g.rows numCols).filter (p.selected path) = [] := by
  unfold skipped at hskip
  cases hchunk : g.columns[p.col]? with
  | none =>
    rw [hchunk] at hskip
    cases hskip
  | some chunk =>
    rw [hchunk, any_some, decide_eq_true_eq] at hskip
    obtain ⟨hcov, hzero⟩ := h chunk hchunk
    rw [filter_eq_nil_iff]
    intro row hrow hsel
    rw [ZonePredicate.selected_iff, ZonePredicate.result] at hsel
    rcases cell_cases hchunk hrow with hnull | hmem
    · rw [hnull] at hsel
      exact Value.evaluate_null rfl hsel
    · exact hcov.not_selected hzero hskip _ hmem hsel

theorem filter_scan (h : ∀ g ∈ groups, g.Prunable path p) :
    (toColumnMajorDataWithPredicateAndIds groups numCols (some p)).filter (p.selected path) =
      (toColumnMajorDataWithPredicateAndIds groups numCols none).filter (p.selected path) := by
  unfold toColumnMajorDataWithPredicateAndIds
  induction groups with
  | nil => rfl
  | cons g groups ih =>
    have hg := h g (mem_cons_self ..)
    have hrest := ih (forall_mem_cons.mp h).2
    rw [flatMap_cons, flatMap_cons, filter_append, filter_append, hrest]
    congr 1
    split
    next hskip => exact (filter_rows_skipped hg hskip).symm
    next => rfl

end ZonedGroup

def ZonedChunk.FilledUniformly (chunk : ZonedChunk) : Prop :=
  ∃ capacity calls, Meets ZonedChunk.step ZonedChunk.Uniform (.withCapacity capacity) calls ∧
    run ZonedChunk.step (.withCapacity capacity) calls = some chunk

theorem ZonedChunk.FilledUniformly.covered {chunk : ZonedChunk} (h : chunk.FilledUniformly) :
    chunk.Covered := by
  obtain ⟨capacity, calls, hm, hrun⟩ := h
  exact run_keeps (fun s a t hs ha ht => hs.step ha ht) hrun hm ⟨.inl ⟨rfl, rfl⟩, nofun, fun _ =>
    nofun, rfl⟩

/-- A chunk of values of one type, NaN apart, is skipped only if none satisfies the predicate; so a
pruned and a full scan leave the same rows after the filter. -/
theorem zone_maps_lose_no_row (path : EvalPath) :
    (∀ chunk : ZonedChunk, chunk.FilledUniformly →
      (∀ op constant, (path = .kernel → ∀ v ∈ chunk.values, v.oppositeZeros constant = false) →
        checkZoneMap chunk.stats op constant = .skipScan →
        ∀ v ∈ chunk.values, evaluate path op v constant ≠ .ok (some true)) ∧
      ∀ isNull, checkNullZoneMap chunk.stats isNull = .skipScan → ∀ v ∈ chunk.values,
    v.isNull ≠ isNull) ∧ ∀ (groups : List ZonedGroup) (numCols : Nat) (p : ZonePredicate),
      (∀ g ∈ groups, ∀ chunk, g.columns[p.col]? = some chunk →
        chunk.FilledUniformly ∧ (path = .kernel → ∀ v ∈ chunk.values, v.oppositeZeros p.constant =
          false)) →
      ZonePredicate.rowsOf
          (p.filterRows path (ZonedGroup.toColumnMajorDataWithPredicateAndIds groups numCols
            (some p))) =
        ZonePredicate.rowsOf
          (p.filterRows path (ZonedGroup.toColumnMajorDataWithPredicateAndIds groups numCols
            none)) := by
  constructor
  · intro chunk hfilled
    have hcov := hfilled.covered
    exact ⟨fun op constant hzero hskip => hcov.not_selected hzero hskip, fun isNull hskip =>
      hcov.null_not_selected hskip⟩
  · intro groups numCols p hgroups
    rw [ZonePredicate.rowsOf_filterRows, ZonePredicate.rowsOf_filterRows]
    apply ZonedGroup.filter_scan
    intro g hg chunk hchunk
    obtain ⟨hfilled, hzero⟩ := hgroups g hg chunk hchunk
    exact ⟨hfilled.covered, hzero⟩

theorem zone_maps_lose_no_row_numbers :
    ∃ chunk, run ZonedChunk.step (.withCapacity 4096)
    [.append .null, .append (.int64 7), .setValue 1 (.int64 3)] = some chunk ∧
      checkZoneMap chunk.stats .gt (.int64 7) = .skipScan ∧
      ∀ v ∈ chunk.values, evaluate .scalar .gt v (.int64 7) ≠ .ok (some true) := by
  have hm : Meets ZonedChunk.step ZonedChunk.Uniform (.withCapacity 4096)
      [.append .null, .append (.int64 7), .setValue 1 (.int64 3)] := meets_of_check (by decide)
  refine ⟨_, rfl, by decide, ?_⟩
  exact ((zone_maps_lose_no_row .scalar).1 _ ⟨4096, _, hm, rfl⟩).1 .gt (.int64 7) nofun (by decide)

/-- The second value is of another type than the first, so the bounds leave it out, but it equals
the constant. -/
theorem skipped_row_matches :
    ∃ chunk, run ZonedChunk.step (.withCapacity 4096) [.append (.int64 1), .append (.int32 5)] =
    some chunk ∧ checkZoneMap chunk.stats .eq (.int64 5) = .skipScan ∧ .int32 5 ∈ chunk.values ∧
      (∀ path, evaluate path .eq (.int32 5) (.int64 5) = .ok (some true)) ∧
      ∀ path, ZonePredicate.filterRows ⟨0, .eq, .int64 5⟩ path
          (ZonedGroup.toColumnMajorDataWithPredicateAndIds
            [⟨0, 2, [chunk]⟩] 1 (some ⟨0, .eq, .int64 5⟩)) = .ok [] ∧
        ZonePredicate.filterRows ⟨0, .eq, .int64 5⟩ path
          (ZonedGroup.toColumnMajorDataWithPredicateAndIds [⟨0, 2, [chunk]⟩] 1 none) = .ok
    [(1, [.int32 5])] := by
  refine ⟨_, rfl, by decide, by simp [ZonedChunk.append, ZonedChunk.withCapacity], ?_, ?_⟩
  · intro path
    cases path <;> rfl
  · intro path
    cases path <;> exact ⟨rfl, rfl⟩

end Akar
