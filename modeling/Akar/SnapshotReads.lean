import Akar.Runs
import Akar.TableWrites
import Akar.VersionInfo

namespace Akar

open List Option NodeTable

/-- What a node group keeps besides its rows: the version records, and the memory threshold of the
spiller it was created with. -/
structure GroupInfo where
  versionInfo : Option VersionInfo
  spiller : Option Nat

namespace GroupInfo

def isRowVisible (g : GroupInfo) (localRow snapshotTs : Nat) (commitHistory : Nat → Option Nat) :
    Bool :=
  match g.versionInfo with
  | some vi => vi.isVisible localRow snapshotTs commitHistory
  | none => true

def inserter (g : GroupInfo) (localRow : Nat) : Option Nat := g.versionInfo.bind (·.inserter localRow)

def deleter (g : GroupInfo) (localRow : Nat) : Option Nat := g.versionInfo.bind (·.deleter localRow)

/-- `should_spill` on a first column of `numValues` cells, estimated at 64 bytes each. -/
def shouldSpill (g : GroupInfo) (numValues : Nat) : Bool :=
  g.spiller.any fun threshold => threshold ≠ 0 ∧ threshold < numValues * 64

def enableVersionInfo (g : GroupInfo) : GroupInfo :=
  { g with versionInfo := some (g.versionInfo.getD .new) }

/-- `append_row_with_txn` and `restore_spilled`. A spill writes the rows out, the restore reads them
back, and each drops every version record of the group. The rows are taken to come back as they were
written out; what the files do to them is the matter of `SpillTable`. -/
def appendRowWithTxn (g : GroupInfo) (numCols numNodes : Nat) (txnId : Option Nat) : GroupInfo :=
  if numCols ≠ 0 ∧ g.shouldSpill numNodes then { g with versionInfo := g.versionInfo.map (·.reset) }
  else
    { g with versionInfo := g.versionInfo.map fun vi =>
        match txnId with
        | some txn => vi.insert txn numNodes
        | none => vi }

def deleteRowWithTxn (g : GroupInfo) (localRow : Nat) (txnId : Option Nat) : GroupInfo :=
  { g with versionInfo := g.versionInfo.map fun vi =>
      match txnId with
      | some txn => vi.delete txn localRow
      | none => vi.removeInsert localRow }

theorem isRowVisible_eq (g : GroupInfo) (localRow ts : Nat) (history : Nat → Option Nat) :
    g.isRowVisible localRow ts history =
      (!(g.deleter localRow).any (isTxnCommittedBefore · ts history) &&
        (g.inserter localRow).all (isTxnCommittedBefore · ts history)) := by
  unfold isRowVisible inserter deleter
  cases g.versionInfo with
  | none => rfl
  | some vi => exact vi.isVisible_eq localRow ts history

end GroupInfo

/-- A node table with the version records of its groups: group `g` holds the rows from `4096 * g`
on. -/
structure VersionedTable extends NodeTable where
  groups : List GroupInfo
  spiller : Option Nat
  grouped : groups.length = (rows.length + (nodeGroupSize - 1)) / nodeGroupSize

namespace VersionedTable

def groupOf (row : Nat) : Nat := row / nodeGroupSize

def localRow (row : Nat) : Nat := row % nodeGroupSize

def isRowVisible (t : VersionedTable) (row snapshotTs : Nat) (commitHistory : Nat → Option Nat) :
    Bool :=
  (t.groups[groupOf row]?).all (·.isRowVisible (localRow row) snapshotTs commitHistory)

def getValueWithSnapshot (t : VersionedTable) (row col : Nat) (snapshotTs : Option Nat)
    (commitHistory : Nat → Option Nat) : Option Value :=
  if t.columns.length ≤ col ∨ t.numRows ≤ row then none
  else if snapshotTs.any fun ts => !t.isRowVisible row ts commitHistory then none
  -- the chunk's own snapshot read walks its update chain and then returns the base value
  else (t.rows[row]?).bind (·[col]?)

def visibleAt (t : VersionedTable) (row snapshotTs : Nat) (commitHistory : Nat → Option Nat) : Bool :=
  row < t.numRows && t.isRowVisible row snapshotTs commitHistory

def inserter (t : VersionedTable) (row : Nat) : Option Nat :=
  (t.groups[groupOf row]?).bind (·.inserter (localRow row))

def groupsWithRoom (t : VersionedTable) : List GroupInfo :=
  if localRow t.numRows = 0 then t.groups ++ [⟨none, t.spiller⟩] else t.groups

def nextSpills (t : VersionedTable) : Bool :=
  t.columns.length ≠ 0 && (t.groupsWithRoom[groupOf t.numRows]?).any
    (·.shouldSpill (localRow t.numRows))

theorem groupsWithRoom_length (t : VersionedTable) :
    t.groupsWithRoom.length = (t.rows.length + 1 + (nodeGroupSize - 1)) / nodeGroupSize := by
  have hg := t.grouped
  unfold groupsWithRoom
  split
  next hfull =>
    rw [length_append, length_singleton, hg]
    simp only [localRow, NodeTable.numRows, nodeGroupSize] at hfull ⊢
    omega
  next hfull =>
    rw [hg]
    simp only [localRow, NodeTable.numRows, nodeGroupSize] at hfull ⊢
    omega

section

variable [Rendering]

def insertRowWithTxn (t : VersionedTable) (values : List Value) (txnId : Option Nat) :
    Except StorageError (Nat × VersionedTable) :=
  match h : t.insertRow values with
  | .error e => .error e
  | .ok (row, t') =>
    .ok (row,
      { toNodeTable := t'
        groups := t.groupsWithRoom.modify (groupOf t.numRows) fun g =>
          (if txnId.isSome then g.enableVersionInfo else g).appendRowWithTxn t.columns.length
            (localRow t.numRows) txnId
        spiller := t.spiller
        grouped := by
          obtain ⟨row, hrow, -, -, rfl⟩ := NodeTable.insertRow_eq_ok h
          rw [List.length_modify, t.groupsWithRoom_length]
          simp })

def updateCell (t : VersionedTable) (row col : Nat) (value : Value) :
    Except StorageError VersionedTable :=
  match h : t.toNodeTable.updateCell row col value with
  | .error e => .error e
  | .ok t' =>
    .ok { t with
      toNodeTable := t'
      grouped := by
        obtain ⟨_, _, rfl⟩ := NodeTable.updateCell_eq_ok h
        simpa using t.grouped }

def deleteRowWithTxn (t : VersionedTable) (row : Nat) (txnId : Option Nat) :
    Except StorageError VersionedTable :=
  match h : t.deleteRow row with
  | .error e => .error e
  | .ok t' =>
    .ok { t with
      toNodeTable := t'
      groups := t.groups.modify (groupOf row) (·.deleteRowWithTxn (localRow row) txnId)
      grouped := by
        obtain ⟨_, _, rfl⟩ := NodeTable.deleteRow_eq_ok h
        simpa using t.grouped }

end

section Records

variable {gs : List GroupInfo} {record : GroupInfo → Nat → Option Nat} {n r : Nat}

def recordAt (gs : List GroupInfo) (record : GroupInfo → Nat → Option Nat) (row : Nat) : Option Nat :=
  (gs[groupOf row]?).bind (record · (localRow row))

theorem recordAt_modify {f : GroupInfo → GroupInfo} {v : GroupInfo → Option Nat}
    (hf : ∀ g, gs[groupOf n]? = some g → ∀ l, record (f g) l = if l =
      localRow n then v g else record g l) :
    recordAt (gs.modify (groupOf n) f) record r = if r =
      n then (gs[groupOf n]?).bind v else recordAt gs record r := by
  unfold recordAt
  rw [getElem?_modify]
  by_cases hr : r = n
  · subst hr
    cases hg : gs[groupOf r]? with
    | none => simp
    | some g => simp [hf g hg]
  · rw [if_neg hr]
    cases hg : gs[groupOf r]? with
    | none => simp
    | some g =>
      by_cases hsame : groupOf n = groupOf r
      · have hl : localRow r ≠ localRow n := fun hl => hr (Nat.ext_div_mod hsame.symm hl)
        simp [hsame, hf g (hsame ▸ hg), hl]
      · simp [hsame]

variable {t : VersionedTable}

theorem recordAt_groupsWithRoom (hnone : ∀ g l, g.versionInfo = none → record g l = none) :
    recordAt t.groupsWithRoom record r = recordAt t.groups record r := by
  unfold groupsWithRoom
  split
  · unfold recordAt
    rw [getElem?_append]
    split
    · rfl
    next hge =>
      rw [getElem?_eq_none (by omega : t.groups.length ≤ groupOf r), getElem?_singleton]
      split
      · exact hnone _ _ rfl
      · rfl
  · rfl

theorem localRow_lt (r : Nat) : localRow r < nodeGroupSize := Nat.mod_lt _ (by decide)

theorem recordAt_deleteRowWithTxn (gs : List GroupInfo) (r txn row : Nat) :
    recordAt (gs.modify (groupOf r) (·.deleteRowWithTxn (localRow r) (some txn)))
    GroupInfo.inserter row = recordAt gs GroupInfo.inserter row ∧
      recordAt (gs.modify (groupOf r) (·.deleteRowWithTxn (localRow r) (some txn)))
        GroupInfo.deleter row =
        if row = r then (gs[groupOf r]?).bind fun g => g.versionInfo.map fun _ => txn
        else recordAt gs GroupInfo.deleter row := by
  constructor
  · rw [recordAt_modify (v := (·.inserter (localRow r)))]
    · split
      next hr => rw [hr, recordAt]
      next => rfl
    · intro g _ l
      have hsame : (g.deleteRowWithTxn (localRow r) (some txn)).inserter l = g.inserter l := by
        unfold GroupInfo.inserter GroupInfo.deleteRowWithTxn
        cases g.versionInfo <;> simp
      rw [hsame]
      split
      next hl => rw [hl]
      next => rfl
  · refine recordAt_modify fun g _ l => ?_
    unfold GroupInfo.deleter GroupInfo.deleteRowWithTxn
    cases g.versionInfo with
    | none => simp
    | some => simp [VersionInfo.deleter_delete (localRow_lt r)]

def appended (t : VersionedTable) (txn : Nat) : List GroupInfo :=
  t.groupsWithRoom.modify (groupOf t.numRows) fun g =>
    g.enableVersionInfo.appendRowWithTxn t.columns.length (localRow t.numRows) (some txn)

theorem recordAt_append_of_not_spills (h : t.nextSpills = false) (txn row : Nat) :
    recordAt (t.appended txn) GroupInfo.inserter row =
        (if row = t.numRows then some txn else recordAt t.groups GroupInfo.inserter row) ∧
      recordAt (t.appended txn) GroupInfo.deleter row = recordAt t.groups GroupInfo.deleter row := by
  have hstays : ∀ g, t.groupsWithRoom[groupOf t.numRows]? = some g →
      ¬(t.columns.length ≠ 0 ∧ g.enableVersionInfo.shouldSpill (localRow t.numRows) = true) := by
    intro g hg hspill
    have hsame : g.shouldSpill (localRow t.numRows) = true := hspill.2
    simp [nextSpills, hg, hsame, hspill.1] at h
  obtain ⟨g₀, hg₀⟩ : ∃ g, t.groupsWithRoom[groupOf t.numRows]? = some g := by
    have hlt : groupOf t.numRows < t.groupsWithRoom.length := by
      rw [groupsWithRoom_length]
      simp only [groupOf, NodeTable.numRows, nodeGroupSize]
      omega
    exact ⟨_, getElem?_eq_getElem hlt⟩
  constructor
  · rw [appended, recordAt_modify (v := fun _ => some txn), hg₀, recordAt_groupsWithRoom]
    · rfl
    · intro g l hnone
      simp [GroupInfo.inserter, hnone]
    · intro g hg l
      rw [GroupInfo.appendRowWithTxn, if_neg (hstays g hg)]
      simp only [GroupInfo.inserter, GroupInfo.enableVersionInfo, map_some, bind_some,
        VersionInfo.inserter_insert (localRow_lt t.numRows)]
      cases g.versionInfo <;> simp
  · rw [appended, recordAt_modify (v := (·.deleter (localRow t.numRows))), hg₀]
    · have hnone : ∀ (g : GroupInfo) l, g.versionInfo = none → g.deleter l = none := by
        intro g l hnone
        simp [GroupInfo.deleter, hnone]
      rw [← recordAt_groupsWithRoom (t := t) hnone]
      split
      next hr => rw [hr, recordAt, hg₀]
      next => rfl
    · intro g hg l
      rw [GroupInfo.appendRowWithTxn, if_neg (hstays g hg)]
      have hsame : (g.versionInfo.getD .new).deleter l = g.deleter l := by
        unfold GroupInfo.deleter
        cases g.versionInfo <;> simp
      simp only [GroupInfo.deleter, GroupInfo.enableVersionInfo, map_some, bind_some,
        VersionInfo.deleter_insert] at hsame ⊢
      rw [hsame]
      split
      next hl => rw [hl]
      next => rfl

theorem recordAt_append_of_spills (h : t.nextSpills = true) (txn : Nat) :
    recordAt (t.appended txn) GroupInfo.inserter t.numRows = none ∧
      recordAt (t.appended txn) GroupInfo.deleter t.numRows = none := by
  simp only [nextSpills, Bool.and_eq_true, decide_eq_true_eq] at h
  obtain ⟨hcols, hspill⟩ := h
  unfold recordAt appended
  rw [getElem?_modify]
  cases hg : t.groupsWithRoom[groupOf t.numRows]? with
  | none => simp
  | some g =>
    rw [hg, any_some] at hspill
    have hspills : t.columns.length ≠ 0 ∧ g.enableVersionInfo.shouldSpill (localRow t.numRows) = true :=
      ⟨by simpa using hcols, hspill⟩
    simp only [Option.map_eq_map, map_some, ↓reduceIte, bind_some]
    rw [GroupInfo.appendRowWithTxn, if_pos hspills]
    simp [GroupInfo.inserter, GroupInfo.deleter, GroupInfo.enableVersionInfo]

end Records

variable {history : Nat → Option Nat} {t t' : VersionedTable}

section Views

variable {r c n ts txn : Nat}

theorem isRowVisible_eq (t : VersionedTable) (row ts : Nat) (history : Nat → Option Nat) :
    t.isRowVisible row ts history =
      (!(recordAt t.groups GroupInfo.deleter row).any (isTxnCommittedBefore · ts history) &&
        (recordAt t.groups GroupInfo.inserter row).all (isTxnCommittedBefore · ts history)) := by
  unfold isRowVisible recordAt
  cases t.groups[groupOf row]? with
  | none => rfl
  | some g => exact g.isRowVisible_eq _ ts history

theorem getValueWithSnapshot_eq (t : VersionedTable) (row col ts : Nat) (history : Nat → Option Nat) :
    t.getValueWithSnapshot row col (some ts) history =
      if t.visibleAt row ts history then t.getValue row col else none := by
  unfold getValueWithSnapshot visibleAt NodeTable.getValue
  by_cases hr : row < t.numRows
  · cases hv : t.isRowVisible row ts history <;> simp [hr, hv]
  · simp [hr, show t.numRows ≤ row by omega]

structure SameView (ts : Nat) (history : Nat → Option Nat) (t t' : VersionedTable) : Prop where
  rows : ∀ row, t'.visibleAt row ts history = t.visibleAt row ts history
  cells : ∀ row, t.visibleAt row ts history = true → ∀ col,
    t'.getValueWithSnapshot row col (some ts) history = t.getValueWithSnapshot row col (some ts) history

theorem SameView.refl (t : VersionedTable) : SameView ts history t t := ⟨fun _ => rfl, fun _ _ _ => rfl⟩

theorem SameView.trans {t'' : VersionedTable} (h : SameView ts history t t')
    (h' : SameView ts history t' t'') :
    SameView ts history t t'' where
  rows := fun row => (h'.rows row).trans (h.rows row)
  cells := fun row hv col => (h'.cells row ((h.rows row).trans hv) col).trans (h.cells row hv col)

theorem SameView.symm (h : SameView ts history t t') : SameView ts history t' t where
  rows := fun row => (h.rows row).symm
  cells := fun row hv col => (h.cells row ((h.rows row).symm.trans hv) col).symm

theorem sameView_iff :
    SameView ts history t t' ↔ ∀ row, t'.visibleAt row ts history = t.visibleAt row ts history ∧
      (t.visibleAt row ts history = true → ∀ col, t'.getValue row col = t.getValue row col) := by
  constructor
  · intro h row
    refine ⟨h.rows row, fun hv col => ?_⟩
    have hcell := h.cells row hv col
    rwa [getValueWithSnapshot_eq, getValueWithSnapshot_eq, if_pos hv,
      if_pos ((h.rows row).trans hv)] at hcell
  · intro h
    refine ⟨fun row => (h row).1, fun row hv col => ?_⟩
    rw [getValueWithSnapshot_eq, getValueWithSnapshot_eq, if_pos hv, if_pos ((h row).1.trans hv)]
    exact (h row).2 hv col

variable {value : Value}

theorem updateCell_eq_ok (h : t.updateCell r c value = .ok t') :
    c < t.columns.length ∧ r < t.numRows ∧ t'.toNodeTable = t.setCell r c value ∧ t'.groups =
      t.groups := by
  unfold updateCell at h
  split at h
  · cases h
  next heq =>
    cases h
    obtain ⟨hc, hr, rfl⟩ := NodeTable.updateCell_eq_ok heq
    exact ⟨hc, hr, rfl, rfl⟩

theorem sameView_updateCell_iff (h : t.updateCell r c value = .ok t') :
    SameView ts history t t' ↔ (t.visibleAt r ts history = true → t.getValue r c = some value) := by
  obtain ⟨hc, hr, htable, hgroups⟩ := updateCell_eq_ok h
  have hrows : t'.numRows = t.numRows := by simp [NodeTable.numRows, htable]
  have hvis : ∀ row, t'.visibleAt row ts history = t.visibleAt row ts history := by
    intro row
    simp only [visibleAt, isRowVisible, hgroups, hrows]
  have hcell : ∀ row col, t'.getValue row col = if row = r ∧ col =
      c then some value else t.getValue row col := by
    intro row col
    rw [htable]
    exact getValue_setCell hr hc
  rw [sameView_iff]
  constructor
  · intro hsame hv
    have := (hsame r).2 hv c
    rw [hcell, if_pos ⟨rfl, rfl⟩] at this
    exact this.symm
  · intro hsame row
    refine ⟨hvis row, fun hv col => ?_⟩
    rw [hcell]
    split
    next heq =>
      obtain ⟨rfl, rfl⟩ := heq
      exact (hsame hv).symm
    next => rfl

end Views

section Writes

variable [Rendering] {r n ts txn : Nat} {values : List Value} {txnId : Option Nat}

theorem deleteRowWithTxn_eq_ok (h : t.deleteRowWithTxn r txnId = .ok t') :
    ∃ cells, t.rows[r]? = some cells ∧ t'.toNodeTable = t.buryRow r cells ∧
      t'.groups = t.groups.modify (groupOf r) (·.deleteRowWithTxn (localRow r) txnId) := by
  unfold deleteRowWithTxn at h
  split at h
  · cases h
  next heq =>
    cases h
    obtain ⟨cells, hcells, rfl⟩ := NodeTable.deleteRow_eq_ok heq
    exact ⟨cells, hcells, rfl, rfl⟩

omit [Rendering] in
theorem inserter_of_visibleAt (hv : t.visibleAt r ts history = true) :
    (t.inserter r).all (isTxnCommittedBefore · ts history) = true := by
  have hinserter : recordAt t.groups GroupInfo.inserter r = t.inserter r := rfl
  simp only [visibleAt, isRowVisible_eq, Bool.and_eq_true, hinserter] at hv
  exact hv.2.2

section

variable (hlater : isTxnCommittedBefore txn ts history = false)
    (h : t.deleteRowWithTxn r (some txn) = .ok t')
include hlater h

theorem visibleAt_deleteRow (row : Nat) :
    t'.visibleAt row ts history =
      if row = r then (t.inserter r).all (isTxnCommittedBefore · ts history) else t.visibleAt row
        ts history := by
  obtain ⟨cells, hcells, htable, hgroups⟩ := deleteRowWithTxn_eq_ok h
  have hr : r < t.numRows := lt_length_of_getElem? hcells
  have hrows : t'.numRows = t.numRows := by simp [NodeTable.numRows, htable]
  obtain ⟨hins, hdel⟩ := recordAt_deleteRowWithTxn t.groups r txn row
  by_cases hne : row = r
  · subst hne
    have hinserter : recordAt t.groups GroupInfo.inserter row = t.inserter row := rfl
    simp only [visibleAt, isRowVisible_eq, hgroups, hrows, hins, hdel, hinserter, hr, decide_true,
      Bool.true_and, ↓reduceIte]
    cases t.groups[groupOf row]? with
    | none => rfl
    | some g => cases hvi : g.versionInfo <;> simp [hlater, hvi]
  · simp only [visibleAt, isRowVisible_eq, hgroups, hrows, hins, hdel, if_neg hne]

theorem sameView_deleteRow_iff :
    SameView ts history t t' ↔ (t.inserter r).any (!isTxnCommittedBefore · ts history) = true ∨
        t.visibleAt r ts history = true ∧ ∀ col, col < t.columns.length → t.getValue r col =
          some .null := by
  have hcell : ∀ row col, t'.getValue row col =
      if row = r ∧ col < t.columns.length then some .null else t.getValue row col := by
    obtain ⟨cells, hcells, htable, _⟩ := deleteRowWithTxn_eq_ok h
    intro row col
    rw [htable]
    exact getValue_buryRow hcells
  have hself := visibleAt_deleteRow hlater h r
  rw [if_pos rfl] at hself
  have hnot : (t.inserter r).any (!isTxnCommittedBefore · ts history) =
      !(t.inserter r).all (isTxnCommittedBefore · ts history) := by
    cases t.inserter r <;> rfl
  rw [sameView_iff, hnot]
  constructor
  · intro hsame
    by_cases hins : (t.inserter r).all (isTxnCommittedBefore · ts history) = true
    · have hv : t.visibleAt r ts history = true := by rw [← (hsame r).1, hself, hins]
      refine .inr ⟨hv, fun col hcol => ?_⟩
      have hnull := (hsame r).2 hv col
      rw [hcell, if_pos ⟨rfl, hcol⟩] at hnull
      exact hnull.symm
    · exact .inl (by simpa using hins)
  · intro hspare row
    by_cases hne : row = r
    · subst hne
      rcases hspare with hins | ⟨hv, hnull⟩
      · have hout : (t.inserter row).all (isTxnCommittedBefore · ts history) = false := by
          simpa using hins
        have hv : t.visibleAt row ts history = false := by
          by_contra hv
          rw [inserter_of_visibleAt (by simpa using hv)] at hout
          cases hout
        rw [hself, hout, hv]
        exact ⟨rfl, nofun⟩
      · rw [hself, inserter_of_visibleAt hv, hv]
        refine ⟨rfl, fun _ col => ?_⟩
        rw [hcell]
        split
        next hin => exact (hnull col hin.2).symm
        next => rfl
    · refine ⟨?_, fun _ col => ?_⟩
      · rw [visibleAt_deleteRow hlater h, if_neg hne]
      · rw [hcell, if_neg fun h => hne h.1]

end

theorem insertRowWithTxn_error_iff {e : StorageError} :
    t.insertRowWithTxn values txnId = .error e ↔ t.insertRow values = .error e := by
  unfold insertRowWithTxn
  split
  next heq => rw [heq, Except.error.injEq, Except.error.injEq]
  next heq => exact iff_of_false nofun fun he => nomatch heq.symm.trans he

theorem sameView_insertRow_iff (hlater : isTxnCommittedBefore txn ts history = false)
    (h : t.insertRowWithTxn values (some txn) = .ok (n, t')) :
    SameView ts history t t' ↔ t.nextSpills = false := by
  obtain ⟨row, hrow, htable, hgroups⟩ : ∃ row hrow, t'.toNodeTable = t.appendRow row hrow ∧
    t'.groups = t.appended txn := by
    unfold insertRowWithTxn at h
    split at h
    · cases h
    next heq =>
      cases h
      obtain ⟨row, hrow, -, -, rfl⟩ := NodeTable.insertRow_eq_ok heq
      exact ⟨row, checkedRow_length hrow, rfl, rfl⟩
  have hrows : t'.numRows = t.numRows + 1 := by simp [NodeTable.numRows, htable]
  have hnew : t.visibleAt t.numRows ts history = false := by simp [visibleAt]
  have hold : ∀ r, r < t.numRows → ∀ col, t'.getValue r col = t.getValue r col := by
    intro r hr col
    rw [htable]
    exact getValue_appendRow hr
  cases hspill : t.nextSpills with
  | false =>
    have hrec := recordAt_append_of_not_spills hspill txn
    refine iff_of_true (sameView_iff.mpr fun r => ?_) rfl
    by_cases hr : r = t.numRows
    · subst hr
      rw [hnew]
      refine ⟨?_, nofun⟩
      simp only [visibleAt, isRowVisible_eq, hgroups, (hrec _).1, ↓reduceIte, all_some, hlater,
        Bool.and_false]
    · have hlt : decide (r < t'.numRows) = decide (r < t.numRows) := by
        exact decide_eq_decide.mpr (by omega)
      refine ⟨?_, fun hv => hold r ?_⟩
      · simp only [visibleAt, isRowVisible_eq, hgroups, (hrec r).1, (hrec r).2, if_neg hr, hlt]
      · simp only [visibleAt, Bool.and_eq_true, decide_eq_true_eq] at hv
        exact hv.1
  | true =>
    refine iff_of_false (fun hsame => ?_) (by simp)
    have hshows : t'.visibleAt t.numRows ts history = true := by
      obtain ⟨hins, hdel⟩ := recordAt_append_of_spills hspill txn
      simp [visibleAt, isRowVisible_eq, hgroups, hins, hdel, hrows]
    rw [hsame.rows, hnew] at hshows
    cases hshows

end Writes

end VersionedTable

/-- The writes on a node table, with the transaction they are recorded for: `update_cell` is not
told. -/
inductive TxnWrite where
  | insertRow (values : List Value) (txnId : Nat)
  | updateCell (row col : Nat) (value : Value)
  | deleteRow (row txnId : Nat)

def TxnWrite.After (ts : Nat) (history : Nat → Option Nat) : TxnWrite → Prop
  | .insertRow _ txnId | .deleteRow _ txnId => isTxnCommittedBefore txnId ts history = false
  | .updateCell .. => True

def LaterWrite (ts : Nat) (history : Nat → Option Nat) : Type := { w : TxnWrite // w.After ts history }

namespace VersionedTable

section Isolation

variable [Rendering] {t t' : VersionedTable} {ts : Nat} {history : Nat → Option Nat}

def apply (t : VersionedTable) : TxnWrite → VersionedTable
  | .insertRow values txnId =>
    match t.insertRowWithTxn values (some txnId) with
    | .ok (_, t') => t'
    | .error _ => t
  | .updateCell row col value =>
    match t.updateCell row col value with
    | .ok t' => t'
    | .error _ => t
  | .deleteRow row txnId =>
    match t.deleteRowWithTxn row (some txnId) with
    | .ok t' => t'
    | .error _ => t

def step (t : VersionedTable) (w : LaterWrite ts history) : Option VersionedTable := some (t.apply w.1)

/-- What the snapshot sees stays: no insert spills, no update changes a cell of a row in view, and a
delete hits a row whose inserter is not seen, or one in view that is null already. -/
def Spares (ts : Nat) (history : Nat → Option Nat) (t : VersionedTable) : TxnWrite → Prop
  | .insertRow values _ => t.nextSpills = false ∨ ∃ e, t.insertRow values = .error e
  | .updateCell row col value =>
    t.visibleAt row ts history = true → col < t.columns.length → t.getValue row col = some value
  | .deleteRow row _ =>
    row < t.numRows → (t.inserter row).any (!isTxnCommittedBefore · ts history) = true ∨
      t.visibleAt row ts history = true ∧ ∀ col, col < t.columns.length → t.getValue row col =
        some .null

theorem sameView_apply_iff {w : TxnWrite} (hw : w.After ts history) :
    SameView ts history t (t.apply w) ↔ t.Spares ts history w := by
  cases w with
  | insertRow values txnId =>
    simp only [apply, Spares]
    cases h : t.insertRowWithTxn values (some txnId) with
    | error e =>
      exact iff_of_true (.refl t) (.inr ⟨e, insertRowWithTxn_error_iff.mp h⟩)
    | ok res =>
      rw [sameView_insertRow_iff hw h]
      refine ⟨.inl, fun hspare => hspare.resolve_right ?_⟩
      rintro ⟨e, he⟩
      cases h.symm.trans (insertRowWithTxn_error_iff.mpr he)
  | updateCell row col value =>
    simp only [apply, Spares]
    cases h : t.updateCell row col value with
    | error e =>
      refine iff_of_true (.refl t) fun hv hc => ?_
      have hr : row < t.numRows := by
        simp only [visibleAt, Bool.and_eq_true, decide_eq_true_eq] at hv
        exact hv.1
      unfold updateCell at h
      split at h
      next heq => rw [updateCell_ok hc hr] at heq; cases heq
      next => cases h
    | ok t' =>
      rw [sameView_updateCell_iff h]
      have hc := (updateCell_eq_ok h).1
      exact ⟨fun hs hv _ => hs hv, fun hs hv => hs hv hc⟩
  | deleteRow row txnId =>
    simp only [apply, Spares]
    cases h : t.deleteRowWithTxn row (some txnId) with
    | error e =>
      refine iff_of_true (.refl t) fun hr => ?_
      obtain ⟨cells, hcells⟩ := exists_row hr
      unfold deleteRowWithTxn at h
      split at h
      next heq => rw [deleteRow_ok hcells] at heq; cases heq
      next => cases h
    | ok t' =>
      obtain ⟨cells, hcells, _⟩ := deleteRowWithTxn_eq_ok h
      have hr := lt_length_of_getElem? hcells
      rw [sameView_deleteRow_iff hw h]
      exact ⟨fun hs _ => hs, fun hs => hs hr⟩

theorem run_step_total (t : VersionedTable) (ws : List (LaterWrite ts history)) : ∃ t',
    run step t ws = some t' := by
  induction ws generalizing t with
  | nil => exact ⟨t, rfl⟩
  | cons w ws ih => exact ih (t.apply w.1)

/-- However later writers continue, the snapshot keeps its view all along exactly when every write
spares it. -/
theorem snapshot_isolated_iff (t : VersionedTable) (ws : List (LaterWrite ts history)) :
    (∀ pre post t', ws = pre ++ post → run step t pre = some t' → SameView ts history t t') ↔
      Meets step (fun t w => t.Spares ts history w.1) t ws := by
  obtain ⟨u, hu⟩ := run_step_total t ws
  refine meets_iff_holds_throughout (fun _ => True) (SameView ts history t) (fun _ _ _ _ _ =>
    trivial) ?_ hu trivial
    (.refl t)
  intro t₁ w t₂ _ hview hstep
  cases hstep
  rw [← sameView_apply_iff w.2]
  exact ⟨hview.symm.trans, hview.trans⟩

end Isolation

end VersionedTable

section People

attribute [local instance] Rendering.blank

open VersionedTable

def firstCommit : Nat → Option Nat := fun txnId => if txnId = 1 then some 1 else none

def people : VersionedTable :=
  (VersionedTable.mk person [] none rfl).apply (.insertRow [.string "ann", .uint64 30] 1)

def passingRow : List (LaterWrite 1 firstCommit) :=
  [⟨.insertRow [.string "bob", .uint64 40] 2, rfl⟩, ⟨.updateCell 1 1 (.uint64 41), trivial⟩,
    ⟨.deleteRow 1 2, rfl⟩]

theorem snapshot_isolated_from_passing_row :
    ∃ t', run step people passingRow = some t' ∧ SameView 1 firstCommit people t' := by
  refine ⟨_, rfl, (snapshot_isolated_iff people passingRow).mpr ?_ passingRow [] _
    (append_nil _).symm rfl⟩
  refine ⟨.inl rfl, fun t₁ h₁ => ?_⟩
  cases h₁
  refine ⟨nofun, fun t₂ h₂ => ?_⟩
  cases h₂
  exact ⟨fun _ => .inl rfl, fun t₃ h₃ => trivial⟩

theorem snapshot_sees_later_writes :
    people.visibleAt 0 1 firstCommit = true ∧ people.getValueWithSnapshot 0 1 (some 1)
      firstCommit = some (.uint64 30) ∧
      (people.apply (.updateCell 0 1 (.uint64 31))).getValueWithSnapshot 0 1 (some 1) firstCommit =
        some (.uint64 31) ∧
      (people.apply (.deleteRow 0 2)).getValueWithSnapshot 0 1 (some 1) firstCommit = some .null :=
  ⟨rfl, rfl, rfl, rfl⟩

end People

end Akar
