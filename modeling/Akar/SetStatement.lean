import Akar.SetOperator

namespace Akar

open List Option

namespace SetStatement

structure BoundItem where
  var : String
  tableId : Nat
  item : SetItem

/-- A group of items that becomes one operator: the table, the variable of its first item, and the
items. -/
abbrev Group := Nat × String × List SetItem

def addItem (groups : List Group) (it : BoundItem) : List Group :=
  match groups.findIdx? fun g => g.1 = it.tableId with
  | some k => groups.modify k fun g => (g.1, g.2.1, g.2.2 ++ [it.item])
  | none => groups ++ [(it.tableId, it.var, [it.item])]

def planSet (items : List BoundItem) : List Group := items.foldl addItem []

variable [Rendering] in
def runSet (emitCount : Bool) (items : List BoundItem) (s : Effects) (input : List Chunk) :
    Except String (Effects × List Chunk) :=
  (planSet items).foldlM (fun (st : Effects × List Chunk) g =>
    executeSet g.1 (some g.2.1) emitCount g.2.2 st.1 st.2)
    (s, input)

section Specification

variable (cat : TableCatalog) (tables : String → Option Nat) (input : List Chunk)

def cellAt (tableId row col : Nat) : Option Value := (cat.tables tableId).bind (·.cell row col)

def boundRow (c : Chunk) (var : String) (row : Nat) : Option Nat :=
  (c.names.findIdx? (· = .property var "_id")).bind fun col => c.address col row

def boundRows (var : String) : List (Nat × (Nat × Nat)) :=
  ((range input.length).zip input).flatMap fun (ci, c) =>
    (range c.rows.length).filterMap fun row => (boundRow c var row).map fun r => (r, (ci, row))

def pipelineValue (at' : Nat × Nat) (name : String) : Value :=
  ((input[at'.1]?).bind fun c => (c.names.findIdx? (· = .bare name)).map fun col =>
    c.cell col at'.2).getD .null

/-- A read on the bindings of an input row: a property of a matched node or edge is a stored cell,
of any other variable a key of its value. -/
def boundRead (at' : Nat × Nat) : Read → Value
  | .var x => pipelineValue input at' x
  | .property x p =>
    match tables x with
    | none => mapPropertyValue (pipelineValue input at' x) p
    | some tableId =>
      (((input[at'.1]?).bind fun c => boundRow c x at'.2).bind fun r =>
        (cat.tables tableId).bind fun t =>
        (t.columns.findIdx? fun c => c.name = p).bind fun col => t.cell r col).getD .null

structure Assignment where
  tableId : Nat
  row : Nat
  column : Nat
  value : Value

/-- What a `SET` has to write: each item, for every row that binds its variable, to that row. -/
def assignments (items : List BoundItem) : List Assignment :=
  items.flatMap fun it => (boundRows input it.var).map fun (r, at') =>
    ⟨it.tableId, r, ((cat.tables it.tableId).map it.item.column).getD it.item.columnIdx,
      it.item.value.compute (it.item.value.reads.map (boundRead cat tables input at'))⟩

def afterWrites (held : Option Value) (as : List Assignment) (tableId row col : Nat) : Option Value :=
  as.foldl (fun v a => if a.tableId = tableId ∧ a.row = row ∧ a.column =
    col then some a.value else v) held

end Specification

def Writable (t : Table) (row col : Nat) : Prop := col < t.columns.length ∧ match t with
  | .node t => row < t.numRows
  | .rel t => t.settable row = true

/-- What a read needs to be found in the chunk of the target rows: it is a property of the target
itself, an array of the column's type gives back the cells of these rows, and no column is called
like the target. -/
def Own [Rendering] (t : Table) (var : String) (input : List Chunk) (rows : List Nat) : Read → Prop
  | .property x p => x = var ∧
      (∃ k, (t.columns.findIdx? fun c => c.name = p) = some k ∧ oldColumn t rows k =
        storedColumn t rows k) ∧
      (∀ c ∈ t.columns, c.name ≠ var) ∧ ∀ c ∈ input, .bare var ∉ c.names
  | .var _ => False

section Cells

variable {s : Effects} {tableId row col : Nat} {v : Value} {t : Table}

theorem setCellAt_node {t : NodeTable} (ht : s.catalog.tables tableId = some (.node t))
    (hw : Writable (.node t) row col) :
    t.updateCell row col v = .ok (t.setCell row col v) ∧
      setCellAt tableId s row col v = ⟨s.catalog.set tableId (.node (t.setCell row col v)),
        s.undos ++ [.update tableId row col (t.cellUndo row col)], s.records ++
    [.update tableId row col (serializeValues [v])], s.written ++ [(tableId, row)]⟩ := by
  have hok : t.updateCell row col v = .ok (t.setCell row col v) := NodeTable.updateCell_ok hw.1 hw.2
  exact ⟨hok, by simp only [setCellAt, ht, hok]⟩

theorem setCellAt_edge {t : RelTable} (ht : s.catalog.tables tableId = some (.rel t))
    (hw : Writable (.rel t) row col) :
    t.updateCell row col v = .ok (t.setCell row col v) ∧
      setCellAt tableId s row col v = ⟨s.catalog.set tableId (.rel (t.setCell row col v)),
        s.undos ++ [.update tableId row col (t.edgeCellUndo row col)], s.records ++
    [.update tableId row col (serializeValues [v])], s.written ++ [(tableId, row)]⟩ := by
  obtain ⟨hcol, hsettable⟩ := hw
  have hlt : row < t.edges.length := by
    by_contra hge
    simp [RelTable.settable, getElem?_eq_none (Nat.le_of_not_lt hge)] at hsettable
  have hok : t.updateCell row col v = .ok (t.setCell row col v) := RelTable.updateCell_ok hcol hlt
  exact ⟨hok, by simp only [setCellAt, ht, hok, hsettable, if_true]⟩

theorem setCellAt_spec (ht : s.catalog.tables tableId = some t) (hw : Writable t row col) :
    ∃ t', (setCellAt tableId s row col v).catalog = s.catalog.set tableId t' ∧ t'.columns = t.columns ∧
      (∀ r c, t'.cell r c = if r = row ∧ c = col then some v else t.cell r c) ∧
      ∀ r c, Writable t r c → Writable t' r c := by
  cases t with
  | node t =>
    refine ⟨.node (t.setCell row col v), ?_, rfl, fun r c => NodeTable.getValue_setCell hw.2 hw.1, ?_⟩
    · rw [(setCellAt_node ht hw).2]
    · rintro r c ⟨hc, hr⟩
      refine ⟨hc, ?_⟩
      show r < (t.setCell row col v).numRows
      rw [NodeTable.numRows, NodeTable.setCell_rows, length_modify]
      exact hr
  | rel t =>
    have hsettable : t.settable row = true := hw.2
    have hedge : ∃ e, t.edges[row]? = some e := by
      cases he : t.edges[row]? with
      | none =>
        rw [RelTable.settable, he] at hsettable
        cases hsettable
      | some e => exact ⟨e, rfl⟩
    obtain ⟨e, he⟩ := hedge
    have hwidth := t.width e (mem_of_getElem? he)
    refine ⟨.rel (t.setCell row col v), ?_, rfl, fun r c => ?_, ?_⟩
    · rw [(setCellAt_edge ht hw).2]
    · show ((t.setCell row col v).edges[r]?).bind (·.props[c]?) = _
      by_cases hr : r = row
      · subst hr
        have hcol' : col < e.props.length := hwidth ▸ hw.1
        by_cases hc : c = col
        · subst hc
          simp [he, hcol']
        · simp [he, hc, Ne.symm hc, Table.cell]
      · simp [hr, Ne.symm hr, Table.cell]
    · rintro r c ⟨hc, hr⟩
      refine ⟨hc, ?_⟩
      show (t.setCell row col v).settable r = true
      have hr' : t.settable r = true := hr
      rw [RelTable.settable] at hr' ⊢
      rw [RelTable.setCell_edges, getElem?_modify]
      by_cases hrow' : row = r
      · subst hrow'
        rw [he] at hr' ⊢
        simpa using hr'
      · simpa [hrow'] using hr'

theorem setCells_spec {cells : List (Nat × Nat × Value)} (ht : s.catalog.tables tableId = some t)
    (hw : ∀ cell ∈ cells, Writable t cell.1 cell.2.1) (i r c : Nat) :
    cellAt (setCells tableId s cells).catalog i r c =
      afterWrites (cellAt s.catalog i r c) (cells.map fun (row, col, v) => ⟨tableId, row, col, v⟩)
        i r c := by
  induction cells generalizing s t with
  | nil => rfl
  | cons cell cells ih =>
    obtain ⟨row, col, v⟩ := cell
    obtain ⟨t', hcat, -, hcells, hwritable⟩ := @setCellAt_spec s tableId row col v t ht
      (hw _ mem_cons_self)
    have ht' : (setCellAt tableId s row col v).catalog.tables tableId = some t' := by
      rw [hcat]
      exact TableCatalog.set_tables_self ..
    have hrest := ih ht' fun cell hcell =>
      hwritable _ _ (hw cell (mem_cons_of_mem _ hcell))
    have hstep : setCells tableId s ((row, col, v) :: cells) =
        setCells tableId (setCellAt tableId s row col v) cells := rfl
    rw [hstep, hrest, map_cons, afterWrites, afterWrites, foldl_cons]
    rw [hcat, cellAt]
    by_cases hi : i = tableId
    · subst hi
      rw [TableCatalog.set_tables_self, bind_some, hcells, cellAt, ht, bind_some]
      simp [eq_comm]
    · rw [TableCatalog.set_tables_ne hi, if_neg fun h => hi h.1.symm]
      rfl

end Cells

section Snapshot

/-- A chunk with columns added at the end, none of them an address or named like a column that is
there. -/
structure Widens (c c' : Chunk) (input : List Chunk) : Prop where
  names : ∃ extra, c'.names = c.names ++ extra ∧ ∀ n ∈ extra, (∃ d ∈ input, n ∈ d.names) ∧ n ∉ c.names ∧
    (n.qualifier.isSome = true → .bare n.base ∉ c.names)
  rows : c'.rows.length = c.rows.length
  cells : ∀ (i : Nat), ∀ row ∈ c.rows[i]?, ∃ tail, c'.rows[i]? = some (row ++ tail)

variable [Rendering] {input : List Chunk} {sources : List (Nat × Nat)} {old : Chunk} {c : Chunk}

theorem Widens.push (h : Widens old c input) (hlen : old.rows.length = sources.length)
    {name : FieldName} (hin : ∃ d ∈ input, name ∈ d.names) (hnew : name ∉ old.names)
    (hbase : name.qualifier.isSome = true → .bare name.base ∉ old.names) (ci col : Nat) (d : Chunk) :
    Widens old (appendColumn ci d sources c (col, name)) input := by
  obtain ⟨extra, hnames, hextra⟩ := h.names
  refine ⟨⟨extra ++ [name], by rw [appendColumn, hnames, append_assoc], ?_⟩, ?_, ?_⟩
  · exact forall_mem_append.mpr ⟨hextra, forall_mem_singleton.mpr ⟨hin, hnew, hbase⟩⟩
  · rw [appendColumn, length_zipWith, length_buildArrowFromValues, length_map, h.rows, hlen,
      Nat.min_self]
  · intro i row hrow
    obtain ⟨tail, htail⟩ := h.cells i row hrow
    have hi : i < sources.length := hlen ▸ lt_length_of_getElem? hrow
    rw [appendColumn, getElem?_zipWith, htail,
      getElem?_eq_getElem (by rwa [length_buildArrowFromValues, length_map])]
    simp

variable {col : Nat}

omit [Rendering] in
theorem mem_appendedColumns {names : List FieldName} {n : FieldName}
    (h : (col, n) ∈ appendedColumns names c) : n ∈ c.names ∧ n ∉ names ∧
      (n.qualifier.isSome = true → .bare n.base ∉ names) := by
  unfold appendedColumns at h
  rw [mem_filter] at h
  obtain ⟨hmem, hcond⟩ := h
  simp only [Bool.and_eq_true, Bool.not_eq_true', Bool.and_eq_false_iff, contains_eq_mem,
    decide_eq_false_iff_not] at hcond
  refine ⟨(of_mem_zip hmem).2, hcond.1.2, fun hq => ?_⟩
  rcases hcond.2 with h | h
  · rw [hq] at h
    cases h
  · exact h

theorem widens_pipeline (hlen : old.rows.length = sources.length) :
    Widens old (appendPipelineColumns old input sources) input := by
  have hchunk : ∀ (ci : Nat) (d : Chunk) (columns : List (Nat × FieldName)) (c : Chunk),
      (∀ q ∈ columns, (∃ d ∈ input, q.2 ∈ d.names) ∧ q.2 ∉ old.names ∧
        (q.2.qualifier.isSome = true → .bare q.2.base ∉ old.names)) →
      Widens old c input → Widens old (columns.foldl (appendColumn ci d sources) c) input := by
    intro ci d columns
    induction columns with
    | nil => exact fun c _ h => h
    | cons q columns ih =>
      intro c hq h
      obtain ⟨hin, hnew, hbase⟩ := hq q mem_cons_self
      exact ih _ (forall_mem_cons.mp hq).2 (h.push hlen hin hnew hbase ci q.1 d)
  have hall : ∀ (l : List (Nat × Chunk)) (c : Chunk), (∀ p ∈ l, p.2 ∈ input) → Widens old c input →
      Widens old (l.foldl (fun s p =>
        (appendedColumns s.names p.2).foldl (appendColumn p.1 p.2 sources) s) c) input := by
    intro l
    induction l with
    | nil => exact fun c _ h => h
    | cons p l ih =>
      intro c hl h
      refine ih _ (forall_mem_cons.mp hl).2 (hchunk p.1 p.2 _ c ?_ h)
      intro q hq
      obtain ⟨hmem, hnew, hbase⟩ := mem_appendedColumns hq
      obtain ⟨extra, hnames, -⟩ := h.names
      rw [hnames] at hnew hbase
      exact ⟨⟨p.2, hl p mem_cons_self, hmem⟩, fun hold => hnew (mem_append_left _ hold),
        fun hqual hold => hbase hqual (mem_append_left _ hold)⟩
  exact hall _ old (fun p hp => (of_mem_zip hp).2)
    ⟨⟨[], by simp, by simp⟩, rfl, fun i row hrow => ⟨[], by simpa using hrow⟩⟩

variable {i : Nat}

omit [Rendering] in
theorem Widens.cell_eq (h : Widens old c input) {row : List Value}
    (hrow : old.rows[i]? = some row) (hcol : col < row.length) : c.cell col i = row[col] := by
  obtain ⟨tail, htail⟩ := h.cells i row hrow
  rw [Chunk.cell, htail, bind_some, getElem?_append_left hcol, getElem?_eq_getElem hcol]
  rfl

variable {p : String} {k : Nat}

omit [Rendering] in
theorem findIdx?_bare {cols : List ColumnDefinition} {extra : List FieldName}
    (h : (cols.findIdx? fun c => c.name = p) = some k) :
    ((cols.map fun c => FieldName.bare c.name) ++ extra).findIdx? (· = .bare p) = some k := by
  rw [findIdx?_append, findIdx?_map]
  have hsame :
      (cols.findIdx? ((fun n => decide (n = FieldName.bare p)) ∘ fun c => FieldName.bare c.name)) =
      some k := by
    rw [← h]
    congr 1
    funext c
    simp [FieldName.bare]
  rw [hsame]
  rfl

theorem read_own {t : Table} {var : String} {rows : List Nat} {r : Nat}
    (hlen : rows.length = sources.length)
    (hown : Own t var input rows (.property var p))
    (hk : (t.columns.findIdx? fun c => c.name = p) = some k) (hr : rows[i]? = some r) :
    (appendPipelineColumns (buildOldRowChunk t rows) input sources).read i (.property var p) =
      some ((t.cell r k).getD .null) := by
  obtain ⟨-, ⟨k', hk', hkept⟩, hcols, hinput⟩ := hown
  obtain rfl : k = k' := Option.some.inj (hk.symm.trans hk')
  have hwide :
      Widens (buildOldRowChunk t rows) (appendPipelineColumns (buildOldRowChunk t rows) input
      sources) input :=
    widens_pipeline (by rw [buildOldRowChunk, length_map, length_range, hlen])
  generalize appendPipelineColumns (buildOldRowChunk t rows) input sources = c at hwide
  obtain ⟨extra, hnames, hextra⟩ := hwide.names
  have hkp : .bare p ∈ (buildOldRowChunk t rows).names := by
    obtain ⟨hlt, hname, -⟩ := findIdx?_eq_some_iff_getElem.mp hk
    have hname : (t.columns[k]).name = p := by simpa using hname
    exact mem_map.mpr ⟨t.columns[k], getElem_mem hlt, by rw [hname]⟩
  have hqualified : c.names.findIdx? (· = .property var p) = none := by
    rw [findIdx?_eq_none_iff, hnames]
    intro n hn
    rw [decide_eq_false_iff_not]
    rintro rfl
    rcases mem_append.mp hn with hn | hn
    · obtain ⟨_, -, hbad⟩ := mem_map.mp hn
      cases hbad
    · exact (hextra _ hn).2.2 rfl hkp
  have hvar : c.names.findIdx? (· = .bare var) = none := by
    rw [findIdx?_eq_none_iff, hnames]
    intro n hn
    rw [decide_eq_false_iff_not]
    rintro rfl
    rcases mem_append.mp hn with hn | hn
    · obtain ⟨col, hcol, hname⟩ := mem_map.mp hn
      exact hcols col hcol (by simpa [FieldName.bare] using hname)
    · obtain ⟨d, hd, hmem⟩ := (hextra _ hn).1
      exact hinput d hd hmem
  have hbare : c.names.findIdx? (· = .bare p) = some k := by
    rw [hnames]
    exact findIdx?_bare hk
  have hlt : k < t.columns.length := (findIdx?_eq_some_iff_getElem.mp hk).1
  have hrow : (buildOldRowChunk t rows).rows[i]? =
      some ((range t.columns.length).map fun col => (oldColumn t rows col).getD i .null) := by
    rw [buildOldRowChunk, getElem?_map, getElem?_range (lt_length_of_getElem? hr)]
    rfl
  simp only [Chunk.read, hqualified, hvar, hbare, map_none, getD_none, any_nil, Bool.false_eq_true,
    if_false]
  rw [hwide.cell_eq hrow (by simpa using hlt)]
  simp [hkept, storedColumn, hr]

end Snapshot

section Statement

variable {cat : TableCatalog} {tables : String → Option Nat} {input : List Chunk}
    {items : List BoundItem}
  {var : String} {tableId : Nat} {t : Table}

def OneTarget (var : String) (tableId : Nat) (items : List BoundItem) : Prop :=
  items ≠ [] ∧ ∀ it ∈ items, it.var = var ∧ it.tableId = tableId

theorem planSet_one (h : OneTarget var tableId items) : planSet items =
    [(tableId, var, items.map (·.item))] := by
  obtain ⟨hne, hall⟩ := h
  obtain ⟨first, rest, rfl⟩ := exists_cons_of_ne_nil hne
  have hfold : ∀ (rest : List BoundItem) (done : List SetItem),
      (∀ it ∈ rest, it.var = var ∧ it.tableId = tableId) →
      rest.foldl addItem [(tableId, var, done)] = [(tableId, var, done ++ rest.map (·.item))] := by
    intro rest
    induction rest with
    | nil => intro done _; simp
    | cons it rest ih =>
      intro done hrest
      have hstep : addItem [(tableId, var, done)] it = [(tableId, var, done ++ [it.item])] := by
        simp [addItem, (hrest it mem_cons_self).2, findIdx?_cons]
      rw [foldl_cons, hstep, ih _ (forall_mem_cons.mp hrest).2]
      simp
  have hfirst := hall first mem_cons_self
  have hstart : addItem [] first = [(tableId, var, [first.item])] := by
    simp [addItem, hfirst.1, hfirst.2]
  rw [planSet, foldl_cons, hstart, hfold _ _ (forall_mem_cons.mp hall).2]
  simp

theorem targets_eq (hid : ∀ c ∈ input, .property var "_id" ∈ c.names) : targets (some var) input =
    boundRows input var := by
  apply flatMap_congr
  rintro ⟨ci, c⟩ hp
  have hc : c ∈ input := (of_mem_zip hp).2
  obtain ⟨k, hk⟩ : ∃ k, c.names.findIdx? (· = .property var "_id") = some k := by
    rw [← isSome_iff_exists, findIdx?_isSome, List.any_eq_true]
    exact ⟨_, hid c hc, by simp⟩
  have hcol : c.rowIdColumnIndexFor (some var) = some k := by
    simp [Chunk.rowIdColumnIndexFor, hk]
  simp only [hcol, boundRow, hk, getD_some, bind_some]

variable {p : Nat × (Nat × Nat)}

theorem mem_boundRows (h : p ∈ boundRows input var) :
    ∃ c, input[p.2.1]? = some c ∧ boundRow c var p.2.2 = some p.1 := by
  obtain ⟨⟨ci, c⟩, hmem, hp⟩ := mem_flatMap.mp h
  obtain ⟨row, -, hrow⟩ := mem_filterMap.mp hp
  obtain ⟨r, hr, rfl⟩ := map_eq_some_iff.mp hrow
  obtain ⟨k, hk, hpair⟩ := mem_iff_getElem.mp hmem
  rw [getElem_zip, getElem_range] at hpair
  obtain ⟨rfl, rfl⟩ := Prod.mk.inj hpair
  exact ⟨_, getElem?_eq_getElem _, hr⟩

theorem eval_own [Rendering] (ht : cat.tables tableId = some t)
    (htables : tables var = some tableId) {e : Expr}
    (hown : ∀ read ∈ e.reads, Own t var input ((boundRows input var).map (·.1)) read) {i : Nat}
    (hp : (boundRows input var)[i]? = some p) :
    (appendPipelineColumns (buildOldRowChunk t ((boundRows input var).map (·.1))) input
        ((boundRows input var).map (·.2))).eval i e =
      some (e.compute (e.reads.map (boundRead cat tables input p.2))) := by
  have hreads :
      e.reads.mapM
      ((appendPipelineColumns (buildOldRowChunk t ((boundRows input var).map (·.1))) input
      ((boundRows input var).map (·.2))).read i) =
        some (e.reads.map (boundRead cat tables input p.2)) := by
    apply mapM_eq_some_map
    intro read hread
    cases read with
    | var => exact absurd (hown _ hread) id
    | property =>
      have hread := hown _ hread
      obtain ⟨rfl, ⟨k, hk, -⟩, -, -⟩ := id hread
      obtain ⟨c, hc, hrow⟩ := mem_boundRows (mem_of_getElem? hp)
      rw [read_own (by simp) hread hk (by rw [getElem?_map, hp]; rfl)]
      simp [boundRead, htables, hc, hrow, ht, hk]
  rw [Chunk.eval, hreads]
  rfl

theorem mapM_range {α : Type} {l : List α} {f : Nat → Option Value} {g : α → Value}
    (h : ∀ i a, l[i]? = some a → f i = some (g a)) : (range l.length).mapM f = some (l.map g) := by
  have hrange : l.map g = (range l.length).map fun i => ((l[i]?).map g).getD .null := by
    apply ext_getElem
    · simp
    · intro i hi _
      have hlt : i < l.length := by simpa using hi
      simp [hlt]
  rw [hrange]
  apply mapM_eq_some_map
  intro i hi
  have ha := getElem?_eq_getElem (mem_range.mp hi)
  rw [h i _ ha, ha]
  rfl

/-- What an item assigns to a bound row. -/
def assigned (cat : TableCatalog) (tables : String → Option Nat) (input : List Chunk)
    (it : BoundItem) (p : Nat × (Nat × Nat)) : Value :=
  it.item.value.compute (it.item.value.reads.map (boundRead cat tables input p.2))

theorem values_own [Rendering] (ht : cat.tables tableId = some t)
    (htables : tables var = some tableId) {items : List BoundItem}
    (hown : ∀ it ∈ items, ∀ read ∈ it.item.value.reads,
      Own t var input ((boundRows input var).map (·.1)) read) :
    ((items.map (·.item)).mapM fun item => (range (boundRows input var).length).mapM fun i =>
      (appendPipelineColumns (buildOldRowChunk t ((boundRows input var).map (·.1))) input
        ((boundRows input var).map (·.2))).eval i item.value) =
      some (items.map fun it => (boundRows input var).map (assigned cat tables input it)) := by
  rw [mapM_map]
  exact (mapM_eq_some_map fun it hit => mapM_range fun i p hp =>
    eval_own ht htables (hown it hit) hp).trans rfl

def setAge (var : String) (age : Int64) : BoundItem := ⟨var, 0, ⟨"age", 0, ⟨[], fun _ => .int64 age⟩⟩⟩

def annBob : TableCatalog := socialWith [newPerson "ann" 30, newPerson "bob" 40]

def pair : Chunk := ⟨[.property "a" "_id", .property "b" "_id"], [[.int64 0, .int64 1]]⟩

/-- `SET b.age = CASE b.name WHEN 'bob' THEN 50 END` -/
def setAgeOfBob : BoundItem :=
  ⟨"b", 0, ⟨"age", 0, ⟨[.property "b" "name"],
    fun vs => if (vs.headD .null).partialEq (.string "bob") then .int64 50 else .null⟩⟩⟩

end Statement

end SetStatement

end Akar
