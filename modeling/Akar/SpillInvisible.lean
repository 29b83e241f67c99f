import Akar.SpillTable

namespace Akar

open List Option

theorem VersionInfo.reset_eq_new (vi : VersionInfo) : vi.reset = .new := by
  have hvectors : vi.vectors.map VectorVersionInfo.reset =
      replicate (nodeGroupSize / vectorSize) VectorVersionInfo.new := by
    rw [← vi.covers]
    exact map_const ..
  unfold VersionInfo.reset VersionInfo.new
  congr

namespace GroupInfo

def Overflows (g : GroupInfo) (numCols held more : Nat) : Prop :=
  numCols ≠ 0 ∧ more ≠ 0 ∧ g.shouldSpill (held + more - 1) = true

theorem shouldSpill_mono {g : GroupInfo} {m n : Nat} (hmn : m ≤ n) (h : g.shouldSpill m = true) :
    g.shouldSpill n = true := by
  unfold GroupInfo.shouldSpill at h ⊢
  cases hs : g.spiller with
  | none => simp [hs] at h
  | some threshold =>
    simp only [hs, any_some, ne_eq, decide_eq_true_eq] at h ⊢
    omega

def Blank (g : GroupInfo) : Prop := ∀ vi ∈ g.versionInfo, vi = .new

theorem Blank.map_reset {i : GroupInfo} (h : Blank i) : i.versionInfo.map (·.reset) =
    i.versionInfo := by
  cases hvi : i.versionInfo with
  | none => rfl
  | some vi => rw [map_some, vi.reset_eq_new, h vi hvi]

end GroupInfo

variable {numCols : Nat} {txnId : Option Nat}

namespace SpillGroup

theorem column_eq {rows : List (List Value)} {numCols c r : Nat}
    (hwide : ∀ row ∈ rows, row.length = numCols) (hc : c < numCols) :
    (rows.filterMap (·[c]?))[r]? = (rows[r]?).bind (·[c]?) ∧ (rows.filterMap (·[c]?)).length =
      rows.length := by
  have hcells : rows.filterMap (·[c]?) = rows.map fun row => (row[c]?).getD .null := by
    rw [← filterMap_eq_map]
    apply filterMap_congr
    intro row hrow
    have hlt : c < row.length := by rw [hwide row hrow]; exact hc
    simp [hlt]
  rw [hcells, getElem?_map, length_map]
  refine ⟨?_, rfl⟩
  cases hr : rows[r]? with
  | none => rfl
  | some row =>
    have hlt : c < row.length := by rw [hwide row (mem_of_getElem? hr)]; exact hc
    simp [hlt]

variable [SpillText]

section Files

variable {numCols : Nat} {rows : List (List Value)}

theorem parseLines_toLine (h : ∀ row ∈ rows, Survives row) :
    parseLines (rows.map SpillText.toLine) = .ok rows := by
  induction rows with
  | nil => rfl
  | cons row rows ih =>
    have hrow : SpillText.fromLine (SpillText.toLine row) = .ok row := h row mem_cons_self
    have hrest := ih (forall_mem_cons.mp h).2
    simp only [map_cons, parseLines, hrow, hrest]
    rfl

theorem restoreColumns_toLine (hcols : numCols ≠ 0) (hwide : ∀ row ∈ rows, row.length = numCols)
    (hsurvive : ∀ row ∈ rows, Survives row) : restoreColumns (rows.map SpillText.toLine) numCols =
      .ok rows := by
  unfold restoreColumns
  rw [parseLines_toLine hsurvive]
  have hnum : (rows.filterMap (·[0]?)).length = rows.length := (column_eq (r := 0) hwide (by omega)).2
  simp only [Except.map, if_neg hcols, hnum, Except.ok.injEq]
  apply ext_getElem (by simp)
  intro r _ hr
  have hlen := hwide _ (getElem_mem hr)
  apply ext_getElem (by simp [hlen])
  intro c hc _
  have hc' : c < numCols := by simpa using hc
  have hlt : c < rows[r].length := by omega
  simp [(column_eq hwide hc').1, hr, hlt]

theorem restoreFiles_flatten {files : List (List SpillText.Line)} (hcols : numCols ≠ 0)
    (h : files.flatten = rows.map SpillText.toLine) (hwide : ∀ row ∈ rows, row.length = numCols)
    (hsurvive : ∀ row ∈ rows, Survives row) : restoreFiles numCols files = .ok rows := by
  induction files generalizing rows with
  | nil =>
    have hnil := map_eq_nil_iff.mp h.symm
    rw [hnil]
    rfl
  | cons file files ih =>
    obtain ⟨first, rest, rfl, rfl, hrest⟩ := map_eq_append_iff.mp h.symm
    have hfirst := restoreColumns_toLine hcols (forall_mem_append.mp hwide).1
      (forall_mem_append.mp hsurvive).1
    have hothers := ih hrest.symm (forall_mem_append.mp hwide).2
      (forall_mem_append.mp hsurvive).2
    simp only [restoreFiles, hfirst, hothers]
    rfl

end Files

def withoutSpiller (g : SpillGroup) : SpillGroup := { g with spiller := none }

@[simp] theorem withoutSpiller_stored (g : SpillGroup) : g.withoutSpiller.stored = g.stored := rfl

@[simp] theorem withoutSpiller_visible (g : SpillGroup) : g.withoutSpiller.visible = g.visible := rfl

theorem withoutSpiller_enableFor (g : SpillGroup) (txnId : Option Nat) :
    (g.enableFor txnId).withoutSpiller = g.withoutSpiller.enableFor txnId := by
  unfold enableFor
  split <;> rfl

@[simp] theorem enableFor_rows (g : SpillGroup) (txnId : Option Nat) : (g.enableFor txnId).rows =
    g.rows := by
  unfold enableFor
  split <;> rfl

@[simp] theorem enableFor_spillFiles (g : SpillGroup) (txnId : Option Nat) :
    (g.enableFor txnId).spillFiles = g.spillFiles := by
  unfold enableFor
  split <;> rfl

@[simp] theorem enableFor_spiller (g : SpillGroup) (txnId : Option Nat) :
    (g.enableFor txnId).spiller = g.spiller := by
  unfold enableFor
  split <;> rfl

@[simp] theorem enableFor_none (g : SpillGroup) : g.enableFor none = g := rfl

def pushRow (g : SpillGroup) (row : List Value) (txnId : Option Nat) : SpillGroup := { g with
    rows := g.rows ++ [row]
    versionInfo := g.versionInfo.map fun vi =>
      match txnId with
      | some txn => vi.insert txn g.rows.length
      | none => vi }

theorem appendRowWithTxn_of_fits {g : SpillGroup} {numCols : Nat} {row : List Value}
    {txnId : Option Nat} (h : ¬(numCols ≠ 0 ∧ g.shouldSpill g.rows.length = true)) :
    g.appendRowWithTxn numCols row txnId = g.pushRow row txnId := by
  unfold appendRowWithTxn
  rw [if_neg h]
  rfl

theorem appendRowWithTxn_withoutSpiller (g : SpillGroup) (numCols : Nat) (row : List Value)
    (txnId : Option Nat) :
    g.withoutSpiller.appendRowWithTxn numCols row txnId = (g.pushRow row txnId).withoutSpiller := by
  apply appendRowWithTxn_of_fits
  intro hspill
  exact Bool.noConfusion hspill.2

/-- The rows `more` pass through a group that holds `held` unnoticed: they never take it above the
threshold, or there are no version records to lose and every row comes back from its spill file. -/
def Quiet (g : GroupInfo) (numCols : Nat) (txnId : Option Nat) (held more : List (List Value)) : Prop :=
  ¬g.Overflows numCols held.length more.length ∨ txnId = none ∧ g.Blank ∧ ∀ row ∈ held ++ more,
    Survives row

/-- The group `g` and its twin `u` while `more` is still to come: `out` is what `g` has spilled. -/
inductive Tracks (numCols : Nat) (txnId : Option Nat) : SpillGroup → SpillGroup →
    List (List Value) → Prop
  | fits {g : SpillGroup} {more : List (List Value)} (hfiles : g.spillFiles = [])
      (hfits : ¬g.Overflows numCols g.rows.length more.length) :
        Tracks numCols txnId g g.withoutSpiller more
  | spills {g : SpillGroup} {more : List (List Value)} (out : List (List Value)) (hcols : numCols ≠ 0)
      (htxn : txnId = none) (hblank : g.Blank) (hfiles : g.spillFiles.flatten =
        out.map SpillText.toLine)
      (hsurvive : ∀ row ∈ out ++ g.rows ++ more, Survives row) :
      Tracks numCols txnId g { g.withoutSpiller with rows := out ++ g.rows, spillFiles := [] } more

variable {g u : SpillGroup} {row : List Value} {more : List (List Value)}

theorem Quiet.tracks (h : Quiet g.toGroupInfo numCols txnId g.rows more) (hfiles : g.spillFiles = []) :
    Tracks numCols txnId (g.enableFor txnId) (g.withoutSpiller.enableFor txnId) more := by
  rw [← withoutSpiller_enableFor]
  by_cases hover : g.Overflows numCols g.rows.length more.length
  · obtain ⟨rfl, hblank, hsurvive⟩ := h.resolve_left (not_not.mpr hover)
    have htwin : g.withoutSpiller =
        { g.withoutSpiller with rows := [] ++ g.rows, spillFiles := [] } := by
      rw [nil_append, ← hfiles]
      rfl
    rw [enableFor_none, htwin]
    exact .spills [] hover.1 rfl hblank (by rw [hfiles]; rfl) hsurvive
  · refine .fits (by rw [enableFor_spillFiles, hfiles]) ?_
    unfold GroupInfo.Overflows GroupInfo.shouldSpill at hover ⊢
    rwa [enableFor_rows, enableFor_spiller]

theorem pushRow_none (g : SpillGroup) (row : List Value) : g.pushRow row none =
    { g with rows := g.rows ++ [row] } := by
  unfold pushRow
  congr
  exact map_id' ..

theorem Tracks.append (h : Tracks numCols txnId g u (row :: more)) :
    Tracks numCols txnId (g.appendRowWithTxn numCols row txnId)
      (u.appendRowWithTxn numCols row txnId) more := by
  cases h with
  | fits hfiles hfits =>
    have hstays : ¬(numCols ≠ 0 ∧ g.shouldSpill g.rows.length = true) := by
      rintro ⟨hcols, hspill⟩
      refine hfits ⟨hcols, by simp, GroupInfo.shouldSpill_mono ?_ hspill⟩
      rw [length_cons]
      omega
    rw [appendRowWithTxn_withoutSpiller, appendRowWithTxn_of_fits hstays]
    refine .fits hfiles ?_
    rintro ⟨hcols, -, hspill⟩
    refine hfits ⟨hcols, by simp, GroupInfo.shouldSpill_mono ?_ hspill⟩
    simp only [pushRow, length_append, length_cons, length_nil]
    omega
  | spills out hcols htxn hblank hfiles hsurvive =>
    subst htxn
    have htwin : ∀ rows : List (List Value),
        SpillGroup.appendRowWithTxn { g.withoutSpiller with rows := rows, spillFiles := [] }
          numCols row none =
          { g.withoutSpiller with rows := rows ++ [row], spillFiles := [] } := by
      intro rows
      have hpush :=
        appendRowWithTxn_withoutSpiller { g with rows := rows, spillFiles := [] } numCols row none
      rw [pushRow_none] at hpush
      exact hpush
    rw [htwin]
    by_cases hspill : g.shouldSpill g.rows.length = true
    · -- an empty group is never above a threshold, so there are rows to write out
      have hrows : g.rows ≠ [] := by
        intro hnil
        rw [hnil] at hspill
        unfold GroupInfo.shouldSpill at hspill
        cases hs : g.spiller <;> simp [hs] at hspill
      have happend : g.appendRowWithTxn numCols row none =
          { g with rows := [row], spillFiles := g.spillFiles ++ [g.rows.map SpillText.toLine] } := by
        unfold appendRowWithTxn
        rw [if_pos ⟨hcols, hspill⟩, spillAndClear, if_neg (by simpa using hrows), hblank.map_reset]
        exact pushRow_none ..
      rw [happend]
      refine .spills (out ++ g.rows) hcols rfl hblank ?_ ?_
      · simp [hfiles]
      · simpa using hsurvive
    · rw [appendRowWithTxn_of_fits fun hs => hspill hs.2, pushRow_none, append_assoc]
      refine .spills out hcols rfl hblank hfiles ?_
      simpa using hsurvive

/-- The restore of `g` succeeds and leaves it as its twin is, apart from the spiller. -/
structure Restores (numCols : Nat) (g u : SpillGroup) : Prop where
  ok : (g.restoreSpilled numCols).1 = .ok ()
  twin : (g.restoreSpilled numCols).2.withoutSpiller = u
  wide : ∀ row ∈ u.rows, row.length = numCols
  settled : u.spillFiles = []

theorem Restores.eq (h : Restores numCols g u) :
    ∃ g', g.restoreSpilled numCols = (.ok (), g') ∧ g'.withoutSpiller = u :=
  ⟨_, Prod.ext h.ok rfl, h.twin⟩

theorem restoreSpilled_of_settled (hfiles : g.spillFiles = []) : g.restoreSpilled numCols =
    (.ok (), g) := by
  unfold restoreSpilled
  rw [if_pos (by simp [hfiles])]

theorem restores_of_settled (hfiles : g.spillFiles = [])
    (hwide : ∀ row ∈ g.rows, row.length = numCols) :
    Restores numCols g g.withoutSpiller := by
  have hrestore : g.restoreSpilled numCols = (.ok (), g) := restoreSpilled_of_settled hfiles
  exact ⟨by rw [hrestore], by rw [hrestore], hwide, hfiles⟩

theorem Tracks.restores (h : Tracks numCols txnId g u more)
    (hwide : ∀ row ∈ u.rows, row.length = numCols) :
    Restores numCols g u := by
  cases h with
  | fits hfiles _ => exact restores_of_settled hfiles hwide
  | spills out hcols _ hblank hfiles hsurvive =>
    have hout : ∀ row ∈ out, row.length = numCols := (forall_mem_append.mp hwide).1
    have hback : ∀ row ∈ out, Survives row := fun row hrow =>
      hsurvive row (mem_append_left _ (mem_append_left _ hrow))
    have hread := restoreFiles_flatten hcols hfiles hout hback
    have hrestore : ∃ g', g.restoreSpilled numCols = (.ok (), g') ∧
        g'.withoutSpiller = { g.withoutSpiller with rows := out ++ g.rows, spillFiles := [] } := by
      unfold restoreSpilled
      by_cases hnone : g.spillFiles = []
      · have hnil : out = [] := by simpa [hnone] using hfiles.symm
        subst hnil
        refine ⟨g, if_pos (by simp [hnone]), ?_⟩
        rw [nil_append, ← hnone]
        rfl
      · rw [if_neg (by simpa using hnone), hread, hblank.map_reset]
        exact ⟨_, rfl, rfl⟩
    obtain ⟨g', hg', htwin⟩ := hrestore
    exact ⟨by rw [hg'], by rw [hg', htwin], hwide, rfl⟩

end SpillGroup

namespace SpillTable

open SpillGroup

variable [SpillText]

def withoutSpiller (t : SpillTable) : SpillTable :=
  { t with spiller := none, groups := t.groups.map SpillGroup.withoutSpiller }

/-- Between calls no spill file is pending, and every row has a cell for every column. -/
def AtRest (t : SpillTable) : Prop :=
  ∀ g ∈ t.groups, g.spillFiles = [] ∧ ∀ row ∈ g.rows, row.length = t.columns.length

theorem withRoom_withoutSpiller (t : SpillTable) :
    t.withoutSpiller.withRoom =
      (t.withRoom.1.map SpillGroup.withoutSpiller, t.withRoom.2.withoutSpiller) := by
  unfold withRoom withoutSpiller
  rw [getLast?_map]
  cases t.groups.getLast? with
  | none => rfl
  | some g =>
    have hfull : g.withoutSpiller.isFull = g.isFull := rfl
    simp only [map_some, hfull]
    split
    · rfl
    · rw [← map_dropLast]

theorem withRoom_mem (t : SpillTable) :
    (∀ g ∈ t.withRoom.1, g ∈ t.groups) ∧
      (t.withRoom.2 ∈ t.groups ∨ t.withRoom.2 = .new t.numRows t.spiller) := by
  unfold withRoom
  cases hlast : t.groups.getLast? with
  | none => simp
  | some g =>
    dsimp only
    split
    · exact ⟨fun _ h => h, .inr rfl⟩
    · exact ⟨fun _ h => mem_of_mem_dropLast h, .inl (mem_of_getLast? hlast)⟩

theorem remaining_pos (t : SpillTable) : 0 < t.withRoom.2.remaining := by
  have hnew : 0 < (SpillGroup.new t.numRows t.spiller).remaining := Nat.zero_lt_succ _
  unfold withRoom
  cases t.groups.getLast? with
  | none => exact hnew
  | some g =>
    dsimp only
    split
    · exact hnew
    next hfull =>
      have hlt : g.rows.length < nodeGroupSize := by simpa [isFull] using hfull
      exact Nat.sub_pos_of_lt hlt

variable {t : SpillTable}

theorem AtRest.withRoom (h : t.AtRest) :
    (∀ g ∈ t.withRoom.1, Restores t.columns.length g g.withoutSpiller) ∧ t.withRoom.2.spillFiles = [] ∧
      ∀ row ∈ t.withRoom.2.rows, row.length = t.columns.length := by
  obtain ⟨hdone, hcurrent⟩ := t.withRoom_mem
  refine ⟨fun g hg => ?_, ?_⟩
  · obtain ⟨hfiles, hwide⟩ := h g (hdone g hg)
    exact restores_of_settled hfiles hwide
  · rcases hcurrent with hmem | hnew
    · exact h _ hmem
    · rw [hnew]
      exact ⟨rfl, nofun⟩

variable {gs us : List SpillGroup}

theorem restoreGroups_of_restores (h : Forall₂ (Restores numCols) gs us) :
    ∃ gs', restoreGroups numCols gs = (.ok (), gs') ∧ gs'.map SpillGroup.withoutSpiller = us := by
  induction h with
  | nil => exact ⟨[], rfl, rfl⟩
  | @cons g u gs us hg _ ih =>
    obtain ⟨g', hg', htwin⟩ := hg.eq
    obtain ⟨gs', hgs', htwins⟩ := ih
    refine ⟨g' :: gs', ?_, by rw [map_cons, htwin, htwins]⟩
    simp only [restoreGroups, hg', hgs']

theorem restoreGroups_twins (h : Forall₂ (Restores numCols) gs us) :
    restoreGroups numCols us = (.ok (), us) := by
  induction h with
  | nil => rfl
  | cons hg _ ih =>
    simp only [restoreGroups, restoreSpilled_of_settled hg.settled, ih]

/-- Every group a batch of `rows` reaches stays quiet: the one with `room`, and the new ones after
it. -/
def QuietRows (t : SpillTable) (txnId : Option Nat) (rows : List (List Value)) : Prop :=
  Quiet t.withRoom.2.toGroupInfo t.columns.length txnId t.withRoom.2.rows
    (rows.take t.withRoom.2.remaining) ∧
    ∀ k, Quiet ⟨none, t.spiller⟩ t.columns.length txnId []
      ((rows.drop (t.withRoom.2.remaining + k * nodeGroupSize)).take nodeGroupSize)

variable {g u : SpillGroup}

theorem appendRow_wide {row : List Value} {more : List (List Value)}
    (h : Tracks numCols txnId g u more) (hwide : ∀ r ∈ u.rows, r.length = numCols)
    (hrow : row.length = numCols) :
    ∀ r ∈ (u.appendRowWithTxn numCols row txnId).rows, r.length = numCols := by
  have hrows : (u.appendRowWithTxn numCols row txnId).rows = u.rows ++ [row] := by
    rw [appendRowWithTxn_of_fits]
    · rfl
    · intro hspill
      cases h <;> exact Bool.noConfusion hspill.2
  intro r hr
  rw [hrows] at hr
  rcases mem_append.mp hr with hr | hr
  · exact hwide r hr
  · rw [mem_singleton.mp hr]
    exact hrow

variable {rows : List (List Value)}

theorem appendRows_restores {done udone : List SpillGroup} {room : Nat} (offset : Nat)
    (hdone : Forall₂ (Restores t.columns.length) done udone)
    (hcurrent : Tracks t.columns.length txnId g u (rows.take room))
    (hnew : ∀ k, Quiet ⟨none, t.spiller⟩ t.columns.length txnId []
      ((rows.drop (room + k * nodeGroupSize)).take nodeGroupSize))
    (hu : ∀ row ∈ u.rows, row.length = t.columns.length)
    (hrows : ∀ row ∈ rows, row.length = t.columns.length) :
    Forall₂ (Restores t.columns.length) (t.appendRows txnId done g room offset rows)
      (t.withoutSpiller.appendRows txnId udone u room offset rows) := by
  have hsnoc : ∀ {done udone : List SpillGroup} {g u : SpillGroup} {more : List (List Value)},
      Forall₂ (Restores t.columns.length) done udone → Tracks t.columns.length txnId g u more →
      (∀ row ∈ u.rows, row.length = t.columns.length) →
      Forall₂ (Restores t.columns.length) (done ++ [g]) (udone ++ [u]) := by
    intro done udone g u more hdone hcurrent hu
    exact rel_append hdone (.cons (hcurrent.restores hu) .nil)
  induction rows generalizing done udone g u room offset with
  | nil => exact hsnoc hdone hcurrent hu
  | cons row rows ih =>
    have hrow := hrows row mem_cons_self
    have hrest : ∀ r ∈ rows, r.length = t.columns.length := (forall_mem_cons.mp hrows).2
    cases room with
    | zero =>
      -- the group is full, and the next one starts with this row
      have hquiet := hnew 0
      have htracks := hquiet.tracks (g := .new offset t.spiller) rfl
      have hempty : ∀ r ∈ ((SpillGroup.new offset none).enableFor txnId).rows, r.length =
          t.columns.length := by
        rw [enableFor_rows]
        nofun
      refine ih (offset + 1) (hsnoc hdone hcurrent hu) htracks.append ?_
        (appendRow_wide htracks hempty hrow) hrest
      intro k
      have hk := hnew (k + 1)
      have hshift : 0 + (k + 1) * nodeGroupSize = (nodeGroupSize - 1 + k * nodeGroupSize) + 1 := by
        simp only [nodeGroupSize]
        omega
      rwa [hshift, drop_succ_cons] at hk
    | succ =>
      refine ih (offset + 1) hdone hcurrent.append ?_ (appendRow_wide hcurrent hu hrow) hrest
      intro k
      have hk := hnew k
      rwa [Nat.succ_add, drop_succ_cons] at hk

theorem settled_of_restores (h : Forall₂ (Restores numCols) gs us) :
    ∀ u ∈ us, u.spillFiles = [] ∧ ∀ row ∈ u.rows, row.length = numCols := by
  induction h with
  | nil => nofun
  | cons hg _ ih =>
    exact forall_mem_cons.mpr ⟨⟨hg.settled, hg.wide⟩, ih⟩

theorem QuietRows.start (hq : t.QuietRows txnId rows) (h : t.AtRest) :
    Forall₂ (Restores t.columns.length) t.withRoom.1 t.withoutSpiller.withRoom.1 ∧
      Tracks t.columns.length txnId (t.withRoom.2.enableFor txnId)
    (t.withoutSpiller.withRoom.2.enableFor txnId) (rows.take t.withRoom.2.remaining) ∧
      ∀ row ∈ (t.withoutSpiller.withRoom.2.enableFor txnId).rows, row.length = t.columns.length := by
  obtain ⟨hdone, hfiles, hwide⟩ := h.withRoom
  rw [withRoom_withoutSpiller]
  refine ⟨?_, hq.1.tracks hfiles, ?_⟩
  · rw [forall₂_map_right_iff]
    exact forall₂_same.mpr hdone
  · rw [enableFor_rows]
    exact hwide

section

variable [Rendering]

def accepted (t : SpillTable) : InsertCall → List (List Value)
  | .row values _ =>
    match NodeTable.checkedRow t.toNodeSchema values with
    | .ok row => if (t.duplicate (t.keyOf row)).isSome then [] else [row]
    | .error _ => []
  | .batch batch _ =>
    match t.checkBatch 0 batch, NodeTable.coerceRows t.columns batch with
    | .ok (), .ok rows => rows
    | _, _ => []

def QuietCall (t : SpillTable) (c : InsertCall) : Prop := t.QuietRows c.txn (t.accepted c)

structure Alike (t : SpillTable) (c : InsertCall) : Prop where
  result : (t.withoutSpiller.call c).1 = (t.call c).1
  twin : (t.withoutSpiller.call c).2 = (t.call c).2.withoutSpiller
  atRest : (t.call c).2.AtRest

variable {c : InsertCall}

theorem alike_of_failed (result : Except InsertError Nat) (h : t.AtRest)
    (hcall : t.call c = (result, t))
    (htwin : t.withoutSpiller.call c = (result, t.withoutSpiller)) : Alike t c := by
  refine ⟨?_, ?_, ?_⟩
  · rw [hcall, htwin]
  · rw [hcall, htwin]
  · rw [hcall]
    exact h

variable {rows : List (List Value)}

theorem alike_of_stored {n numRows : Nat} {gs us : List SpillGroup}
    (hcall : t.call c = (.ok n, index { t with groups := gs, numRows := numRows } t.numRows rows))
    (htwin : t.withoutSpiller.call c =
      (.ok n, index { t.withoutSpiller with groups := us, numRows := numRows } t.numRows rows))
    (hgroups : gs.map SpillGroup.withoutSpiller = us)
    (hrest : ∀ u ∈ us, u.spillFiles = [] ∧ ∀ row ∈ u.rows, row.length = t.columns.length) :
      Alike t c := by
  subst hgroups
  refine ⟨?_, ?_, ?_⟩
  · rw [hcall, htwin]
  · rw [hcall, htwin]
    rfl
  · rw [hcall]
    intro g hg
    have hmem : g.withoutSpiller ∈ gs.map SpillGroup.withoutSpiller := mem_map_of_mem hg
    have hg' := hrest _ hmem
    exact hg'

theorem alike_row {values : List Value} (h : t.AtRest) (hq : t.QuietCall (.row values txnId)) :
    Alike t (.row values txnId) := by
  cases hrow : NodeTable.checkedRow t.toNodeSchema values with
  | error e =>
    have hrow' : NodeTable.checkedRow t.withoutSpiller.toNodeSchema values = .error e := hrow
    apply alike_of_failed (.error (.storage e)) h
    · simp only [call, insertRowWithTxn, hrow]
    · simp only [call, insertRowWithTxn, hrow']
  | ok row =>
    have hrow' : NodeTable.checkedRow t.withoutSpiller.toNodeSchema values = .ok row := hrow
    cases hdup : t.duplicate (t.keyOf row) with
    | some key =>
      have hdup' : t.withoutSpiller.duplicate (t.withoutSpiller.keyOf row) = some key := hdup
      apply alike_of_failed (.error (.storage (t.duplicateError key))) h
      · simp only [call, insertRowWithTxn, hrow, hdup]
      · simp only [call, insertRowWithTxn, hrow', hdup']
        rfl
    | none =>
      have hdup' : t.withoutSpiller.duplicate (t.withoutSpiller.keyOf row) = none := hdup
      have hrows : t.accepted (.row values txnId) = [row] := by simp [accepted, hrow, hdup]
      have hquiet : t.QuietRows txnId [row] := by rw [← hrows]; exact hq
      obtain ⟨hdone, htracks, hwide⟩ := hquiet.start h
      rw [take_of_length_le t.remaining_pos] at htracks
      have hcurrent :=
        htracks.append.restores (appendRow_wide htracks hwide (NodeTable.checkedRow_length hrow))
      have hgroups := rel_append hdone (.cons hcurrent .nil)
      obtain ⟨g', hg', htwin⟩ := hcurrent.eq
      have hcall : t.call (.row values txnId) =
          (.ok t.numRows, index { t with groups := t.withRoom.1 ++ [g'], numRows := t.numRows + 1 }
            t.numRows [row]) := by
        simp only [call, insertRowWithTxn, hrow, hdup, hg']
      refine alike_of_stored hcall ?_ ?_ (settled_of_restores hgroups)
      · have hstays : ((t.withoutSpiller.withRoom.2.enableFor txnId).appendRowWithTxn
            t.withoutSpiller.columns.length row txnId).restoreSpilled
              t.withoutSpiller.columns.length = (.ok (), _) :=
          restoreSpilled_of_settled hcurrent.settled
        simp only [call, insertRowWithTxn, hrow', hdup', hstays]
        rfl
      · rw [map_append, map_singleton, htwin, withRoom_withoutSpiller]

theorem checkBatch_withoutSpiller (i : Nat) (batch : List (List Value)) :
    t.withoutSpiller.checkBatch i batch = t.checkBatch i batch := by
  induction batch generalizing i with
  | nil => rfl
  | cons row batch ih =>
    simp only [checkBatch, ih]
    rfl

variable {batch : List (List Value)}

theorem coerceRows_wide {i : Nat} (hcheck : t.checkBatch i batch = .ok ())
    (h : NodeTable.coerceRows t.columns batch = .ok rows) : ∀ row ∈ rows, row.length =
      t.columns.length := by
  induction batch generalizing i rows with
  | nil =>
    cases h
    intro row hrow
    cases hrow
  | cons values batch ih =>
    obtain ⟨hlen, hcheck⟩ := reject_ok hcheck
    obtain ⟨_, hcheck⟩ := reject_ok hcheck
    split at hcheck
    · cases hcheck
    · simp only [NodeTable.coerceRows] at h
      obtain ⟨row, hrow, h⟩ := bind_eq_ok.mp h
      obtain ⟨rest, hrest, rfl⟩ := map_eq_ok.mp h
      have hwide := NodeTable.coerceValuesToColumns_length hrow
      exact forall_mem_cons.mpr ⟨by omega, ih hcheck hrest⟩

theorem alike_batch (h : t.AtRest) (hq : t.QuietCall (.batch batch txnId)) :
    Alike t (.batch batch txnId) := by
  by_cases hempty : batch.isEmpty = true
  · apply alike_of_failed (.ok 0) h
    · simp only [call, insertRowsBatchWithTxn, if_pos hempty]
    · simp only [call, insertRowsBatchWithTxn, if_pos hempty]
  cases hcheck : t.checkBatch 0 batch with
  | error e =>
    have hcheck' := (checkBatch_withoutSpiller 0 batch).trans hcheck
    apply alike_of_failed (.error (.storage e)) h
    · simp only [call, insertRowsBatchWithTxn, if_neg hempty, hcheck]
    · simp only [call, insertRowsBatchWithTxn, if_neg hempty, hcheck']
  | ok =>
    have hcheck' := (checkBatch_withoutSpiller 0 batch).trans hcheck
    cases hcoerce : NodeTable.coerceRows t.columns batch with
    | error e =>
      have hcoerce' : NodeTable.coerceRows t.withoutSpiller.columns batch = .error e := hcoerce
      apply alike_of_failed (.error (.storage e)) h
      · simp only [call, insertRowsBatchWithTxn, if_neg hempty, hcheck, hcoerce]
      · simp only [call, insertRowsBatchWithTxn, if_neg hempty, hcheck', hcoerce']
    | ok rows =>
      have hcoerce' : NodeTable.coerceRows t.withoutSpiller.columns batch = .ok rows := hcoerce
      have hrows : t.accepted (.batch batch txnId) = rows := by simp only [accepted, hcheck, hcoerce]
      have hquiet : t.QuietRows txnId rows := by rw [← hrows]; exact hq
      obtain ⟨hdone, htracks, hwide⟩ := hquiet.start h
      have hroom : (t.withRoom.2.enableFor txnId).remaining = t.withRoom.2.remaining := by
        rw [remaining, enableFor_rows, remaining]
      have hroom' : (t.withoutSpiller.withRoom.2.enableFor txnId).remaining =
          t.withRoom.2.remaining := by
        rw [remaining, enableFor_rows, withRoom_withoutSpiller]
        rfl
      have hgroups :=
        appendRows_restores t.numRows hdone htracks hquiet.2 hwide (coerceRows_wide hcheck hcoerce)
      obtain ⟨gs, hgs, htwins⟩ := restoreGroups_of_restores hgroups
      have hcall : t.call (.batch batch txnId) = (.ok rows.length,
            index { t with groups := gs, numRows := t.numRows + rows.length } t.numRows rows) := by
        simp only [call, insertRowsBatchWithTxn, if_neg hempty, hcheck, hcoerce, hroom, hgs]
      refine alike_of_stored hcall ?_ htwins (settled_of_restores hgroups)
      have hstays : restoreGroups t.withoutSpiller.columns.length
          (t.withoutSpiller.appendRows txnId t.withoutSpiller.withRoom.1
            (t.withoutSpiller.withRoom.2.enableFor txnId)
            t.withRoom.2.remaining t.withoutSpiller.numRows rows) = (.ok (), _) :=
              restoreGroups_twins hgroups
      simp only [call, insertRowsBatchWithTxn, if_neg hempty, hcheck', hcoerce', hroom', hstays]
      rfl

theorem alike (h : t.AtRest) (hq : t.QuietCall c) : Alike t c := by
  cases c with
  | row => exact alike_row h hq
  | batch => exact alike_batch h hq

theorem run_twin {calls : List InsertCall} {t' : SpillTable} (hrun : run step t calls = some t')
    (hm : Meets step QuietCall t calls) (h : t.AtRest) : run step t.withoutSpiller calls =
      some t'.withoutSpiller := by
  induction calls generalizing t with
  | nil =>
    cases hrun
    rfl
  | cons c calls ih =>
    obtain ⟨v, hv, hrest⟩ := run_cons_eq_some.mp hrun
    obtain rfl := some.inj hv
    have hc := alike h hm.1
    have hstep : step t.withoutSpiller c = some (t.call c).2.withoutSpiller := by rw [step, hc.twin]
    exact run_cons_eq_some.mpr ⟨_, hstep, ih hrest (hm.2 _ hv) hc.atRest⟩

/-- Inserts that keep every group quiet leave the same rows at the same offsets, visible to the same
snapshots, as in the table without a spiller. -/
theorem spilling_invisible (t t' : SpillTable) (calls : List InsertCall) (hrest : t.AtRest)
    (hrun : run step t calls = some t') (hm : Meets step QuietCall t calls) :
    ∃ u, run step t.withoutSpiller calls = some u ∧ t'.stored = u.stored ∧
      ∀ snapshotTs commitHistory, t'.visible snapshotTs commitHistory =
        u.visible snapshotTs commitHistory := by
  refine ⟨t'.withoutSpiller, run_twin hrun hm hrest, ?_, ?_⟩
  · simp [stored, withoutSpiller, flatMap_map]
  · intro snapshotTs commitHistory
    simp [visible, withoutSpiller, flatMap_map]

end

end SpillTable

namespace SpillTable

section Tables

attribute [local instance] Rendering.blank

local instance verbatim : SpillText := ⟨List Value, id, .ok⟩

def numbers (threshold : Nat) : SpillTable :=
  .new ⟨0, "n", [⟨"x", .int64, false⟩], noPrimaryKey⟩ none (some threshold)

theorem spilling_invisible_numbers :
    ∃ t u, run step (numbers 64)
    [.row [.int64 1] none, .batch [[.int64 2], [.int64 3], [.int64 4]] none] = some t ∧
      run step (numbers 64).withoutSpiller
        [.row [.int64 1] none, .batch [[.int64 2], [.int64 3], [.int64 4]] none] = some u ∧
      t.stored = u.stored ∧ t.visible 0 (fun _ => none) = u.visible 0 fun _ => none := by
  have hquiet : ∀ (t : SpillTable) (c : InsertCall), c.txn = none → t.withRoom.2.versionInfo =
      none → t.QuietCall c := by
    intro t c htxn hnone
    refine ⟨.inr ⟨htxn, ?_, fun _ _ => rfl⟩, fun k => .inr ⟨htxn, nofun, fun _ _ => rfl⟩⟩
    rw [GroupInfo.Blank, hnone]
    nofun
  have hm : Meets step QuietCall (numbers 64) [.row [.int64 1] none,
      .batch [[.int64 2], [.int64 3], [.int64 4]] none] := by
    refine ⟨hquiet _ _ rfl rfl, fun t ht => ⟨?_, fun _ _ => trivial⟩⟩
    obtain rfl := some.inj ht
    exact hquiet _ _ rfl rfl
  obtain ⟨u, hu, hstored, hvisible⟩ := spilling_invisible (numbers 64) _ _ nofun rfl hm
  exact ⟨_, u, rfl, hu, hstored, hvisible 0 _⟩

/-- The second insert of a transaction spills the first row and drops both version records: both
rows of a transaction that never committed are visible. -/
theorem spilled_rows_visible :
    ∃ t u, run step (numbers 1) [.row [.int64 1] (some 5), .row [.int64 2] (some 5)] = some t ∧
      run step (numbers 1).withoutSpiller [.row [.int64 1] (some 5), .row [.int64 2] (some 5)] =
        some u ∧
      t.stored = u.stored ∧ t.visible 0 (fun _ => none) = [0, 1] ∧ u.visible 0 (fun _ => none) = [] :=
  ⟨_, _, rfl, rfl, rfl, by decide, by decide⟩

end Tables

end SpillTable

end Akar
