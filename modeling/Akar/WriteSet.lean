import Akar.StatementUndo
import Akar.MergeOperators

namespace Akar

open List Option

section Model

variable [Rendering]

def idChunk (name : FieldName) (ids : List Nat) (input : List Chunk) (sources : List (Nat × Nat)) :
    Chunk :=
  appendPipelineColumns ⟨[name], ids.map fun r => [.int64 (Int64.ofNat r)]⟩ input sources

def applyOn (sets : List (Nat × List SetItem)) (name : FieldName) (rows : List (Nat × (Nat × Nat)))
    (input : List Chunk) (s : Effects) : Except String Effects :=
  if rows = [] then .ok s
  else sets.foldlM (fun s p => (executeSet p.1 none false p.2 s
    [idChunk name (rows.map (·.1)) input (rows.map (·.2))]).map (·.1)) s

structure MergePattern where
  props : Properties
  onMatch : List (Nat × List SetItem)
  onCreate : List (Nat × List SetItem)

def outcomes (created : Bool) (ms : List (Merged Nat)) (sources : List (Nat × Nat)) :
    List (Nat × (Nat × Nat)) :=
  ((ms.zip sources).filter fun p => p.1.isCreated = created).map fun p => (p.1.get, p.2)

def MergePattern.finish (m : MergePattern) (tableId : Nat) (name : FieldName) (t : Table)
    (values : List (List Value))
    (ms : List (Merged Nat)) (input : List Chunk) (sources : List (Nat × Nat)) (s : Effects) :
      Except String Effects := do
  let created := (outcomes true ms sources).map (·.1)
  let s₁ : Effects := ⟨s.catalog.set tableId t, s.undos ++ created.map (.insert tableId ·),
    s.records ++ values.map (.insert tableId <| serializeValues ·), s.written ++
      created.map fun r => (tableId, r)⟩
  let s₂ ← applyOn m.onMatch name (outcomes false ms sources) input s₁
  applyOn m.onCreate name (outcomes true ms sources) input s₂

def inputSources (input : List Chunk) : List (Nat × Nat) :=
  ((range input.length).zip input).flatMap fun (ci, c) =>
    (range c.rows.length).map fun row => (ci, row)

def mergeChunks (input : List Chunk) : List Chunk := if input = [] then [⟨[], [[.int64 0]]⟩] else input

def createdValues (props : Properties) (columns : List ColumnDefinition) (rows : List InputRow)
    (ms : List (Merged Nat)) : List (List Value) :=
  (rows.zip ms).filterMap fun p =>
    if p.2.isCreated then (NodeTable.newValues props p.1 columns).toOption else none

def executeMerge (tableId : Nat) (m : MergePattern) (s : Effects) (input : List Chunk) :
    Except String (Effects × List Chunk) :=
  match s.catalog.getNodeTable tableId with
  | none => .error "Table not found for MERGE"
  | some t =>
    match t.merge m.props input with
    | .error e => .error e
    | .ok (t', ms) =>
      let values := createdValues m.props t.columns (mergeInput input) ms
      let chunks := mergeChunks input
      match m.finish tableId (.bare "_id") (.node t') values ms chunks (inputSources chunks) s with
      | .error e => .error e
      | .ok s' =>
        let post := (s'.catalog.tables tableId).getD (.node t')
        let out :=
          appendPipelineColumns (buildOldRowChunk post (ms.map (·.get))) chunks
          (inputSources chunks)
        .ok (s', [⟨out.names ++ [.bare "_id"],
          List.zipWith (fun row m => row ++ [.int64 (Int64.ofNat m.get)]) out.rows ms⟩])

/-- One chunk of `PhysicalMergeRel::execute`; `adj` is the adjacency before the first chunk. -/
def mergeRelChunk (tableId : Nat) (edgeVar srcVar dstVar : String) (m : MergePattern)
    (adj : UInt64 → List (UInt64 × Nat)) (s : Effects) (c : Chunk) : Except String (Effects × Chunk) :=
  match s.catalog.getRelTable tableId with
  | none => .error "Rel table not found"
  | some t =>
    match boundEdges srcVar dstVar c with
    | .error e => .error e
    | .ok rows =>
      match mergeAll (fun t x => t.matchCandidate m.props x (adj x.src)) (RelTable.createEdge m.props) t rows with
      | .error e => .error e
      | .ok (t', ms) =>
        let values := ((rows.zip ms).filter (·.2.isCreated)).map fun p =>
          .uint64 p.1.src :: .uint64 p.1.dst :: t.newProps p.1.toInputRow m.props
        let sources := rows.map fun x => (0, x.row)
        (m.finish tableId (.property edgeVar "_id") (.rel t') values ms [c] sources s).map fun s' =>
          (s', idChunk (.property edgeVar "_id") (ms.map (·.get)) [c] sources)

def mergeRelChunks (tableId : Nat) (edgeVar srcVar dstVar : String) (m : MergePattern)
    (adj : UInt64 → List (UInt64 × Nat)) (s : Effects) : List Chunk →
      Except String (Effects × List Chunk)
  | [] => .ok (s, [])
  | c :: cs =>
    match mergeRelChunk tableId edgeVar srcVar dstVar m adj s c with
    | .error e => .error e
    | .ok (s₁, out) =>
      (mergeRelChunks tableId edgeVar srcVar dstVar m adj s₁ cs).map fun p => (p.1, out :: p.2)

def executeMergeRel (tableId : Nat) (edgeVar srcVar dstVar : String) (m : MergePattern) (s : Effects)
    (input : List Chunk) : Except String (Effects × List Chunk) :=
  if input.all fun c => c.rows.isEmpty then .ok (s, input)
  else
    match s.catalog.getRelTable tableId with
    | none => .error "Rel table not found"
    | some t => mergeRelChunks tableId edgeVar srcVar dstVar m t.fwdAdj s input

def Chunk.idRows (c : Chunk) (col : Nat) : List Nat :=
  (range c.rows.length).filterMap (c.address col)

def recordSetWrites (tableId : Nat) (result : List Chunk) : List (Nat × Nat) :=
  result.head?.toList.flatMap fun c =>
    (c.idRows ((c.names.findIdx? FieldName.isId).getD 0)).map fun r => (tableId, r)

def recordDeleteWrites (tableId : Nat) (result : List Chunk) : List (Nat × Nat) :=
  result.head?.toList.flatMap fun c => (c.idRows 0).map fun r => (tableId, r)

/-- The ids are in the first column named as one, and else in the second column, if there is one. -/
def insertedIds (c : Chunk) : List Nat := match c.names.findIdx? FieldName.isId with
  | some col => c.idRows col
  | none => if 1 < (c.rows.headD []).length then c.idRows 1 else []

def recordInsertWrites (tableId : Nat) (result : List Chunk) : List (Nat × Nat) :=
  result.head?.toList.flatMap fun c => (insertedIds c).map fun r => (tableId, r)

inductive PlannedWrite where
  | set (tableId : Nat) (target : Option String) (emitCount : Bool) (items : List SetItem)
  | delete (tableId : Nat) (detaching : Bool) (target : Option String)
  | merge (tableId : Nat) (m : MergePattern)
  | mergeRel (tableId : Nat) (edgeVar srcVar dstVar : String) (m : MergePattern)

def PlannedWrite.run (relIds : List Nat) (s : Effects) (input : List Chunk) :
    PlannedWrite → Except String (Effects × List (Nat × Nat))
  | .set tableId target emitCount items =>
    (executeSet tableId target emitCount items s input).map fun p => (p.1, recordSetWrites tableId p.2)
  | .delete tableId detaching target =>
    (executeDelete relIds tableId detaching target s input).map fun p =>
      (p.1, recordDeleteWrites tableId p.2)
  | .merge tableId m =>
    (executeMerge tableId m s input).map fun p => (p.1, recordInsertWrites tableId p.2)
  | .mergeRel tableId edgeVar srcVar dstVar m =>
    (executeMergeRel tableId edgeVar srcVar dstVar m s input).map fun p =>
      (p.1, recordInsertWrites tableId p.2)

/-- A write with the Extend operators of the MATCH before it, each with its rel table and the chunks
it gave. -/
structure PlannedStatement where
  extended : List (Nat × List Chunk)
  write : PlannedWrite

/-- An Extend hands over rows as an insert does, though it writes none. -/
def PlannedStatement.run (relIds : List Nat) (s : Effects) (input : List Chunk)
    (stmt : PlannedStatement) :
    Except String (Effects × List (Nat × Nat)) :=
  (stmt.write.run relIds s input).map fun p =>
    (p.1, (stmt.extended.flatMap fun ex => recordInsertWrites ex.1 ex.2) ++ p.2)

end Model

variable {r : Nat}

theorem toNat_ofNat (h : r < 2 ^ 64) : (Int64.ofNat r).toUInt64.toNat = r := by
  show (BitVec.ofNat 64 r).toNat = r
  rw [BitVec.toNat_ofNat, Nat.mod_eq_of_lt h]

variable {c : Chunk} {col : Nat} {ids : List Nat}

theorem mem_idRows (hlen : c.rows.length = ids.length)
    (hcell : ∀ i r, ids[i]? = some r → c.cell col i = .int64 (Int64.ofNat r))
    (hfit : ∀ r ∈ ids, r < 2 ^ 64) :
    r ∈ c.idRows col ↔ r ∈ ids := by
  have haddr : ∀ i < ids.length, c.address col i = ids[i]? := by
    intro i hi
    have hr := getElem?_eq_getElem hi
    simp only [Chunk.address, hcell i _ hr, hr]
    rw [toNat_ofNat (hfit _ (getElem_mem hi))]
  rw [Chunk.idRows, mem_filterMap, hlen, mem_iff_getElem?]
  constructor
  · rintro ⟨i, hi, hr⟩
    exact ⟨i, by rw [← haddr i (mem_range.mp hi), hr]⟩
  · rintro ⟨i, hr⟩
    have hi := (List.getElem?_eq_some_iff.mp hr).1
    exact ⟨i, mem_range.mpr hi, by rw [haddr i hi, hr]⟩

theorem mem_lastIds {names : List FieldName} (hnames : c.names = names ++ [.bare "_id"])
    (hid : ∀ n ∈ names, n.isId = false) (hlen : c.rows.length = ids.length)
    (hrows : ∀ (i r : Nat), ids[i]? = some r → ∃ row, c.rows[i]? =
      some (row ++ [Value.int64 (Int64.ofNat r)]) ∧
      row.length = names.length) (hfit : ∀ r ∈ ids, r < 2 ^ 64) :
    c.names.findIdx? FieldName.isId = some names.length ∧ ∀ r, r ∈ c.idRows names.length ↔ r ∈ ids := by
  constructor
  · rw [hnames, findIdx?_append, findIdx?_eq_none_iff.mpr hid]
    simp [FieldName.isId, FieldName.bare]
  · intro r
    refine mem_idRows hlen (fun i r hr => ?_) hfit
    obtain ⟨row, hrow, hwidth⟩ := hrows i r hr
    simp [Chunk.cell, hrow, ← hwidth]

structure Tidy (c : Chunk) : Prop where
  names : ∀ n ∈ c.names, n.isId = false
  width : ∀ row ∈ c.rows, row.length = c.names.length

variable {sources : List (Nat × Nat)}

theorem Tidy.appendColumn [Rendering] {d : Chunk} {ci : Nat} {name : FieldName} (h : Tidy c)
    (hname : name.isId = false) : Tidy (appendColumn ci d sources c (col, name)) where
  names := by
    exact forall_mem_append.mpr ⟨h.names, forall_mem_singleton.mpr hname⟩
  width := by
    intro row hrow
    obtain ⟨i, hi, rfl⟩ := mem_iff_getElem.mp hrow
    simp only [Akar.appendColumn, getElem_zipWith, length_append, length_singleton]
    rw [h.width _ (getElem_mem _)]

variable {input : List Chunk}

theorem Tidy.pipeline [Rendering] (h : Tidy c) :
    Tidy (appendPipelineColumns c input sources) := by
  unfold appendPipelineColumns
  generalize (range input.length).zip input = l
  have hchunk : ∀ (p : Nat × Chunk) (columns : List (Nat × FieldName)),
      (∀ q ∈ columns, q.2.isId = false) →
      ∀ c, Tidy c → Tidy (columns.foldl (Akar.appendColumn p.1 p.2 sources) c) := by
    intro p columns
    induction columns with
    | nil => exact fun _ c h => h
    | cons q columns ih =>
      intro hcols c h
      exact ih (forall_mem_cons.mp hcols).2 _ (h.appendColumn (hcols q mem_cons_self))
  induction l generalizing c with
  | nil => exact h
  | cons p l ih =>
    refine ih (hchunk p _ (fun q hq => ?_) c h)
    have hadded := (mem_filter.mp hq).2
    simp only [Bool.and_eq_true, Bool.not_eq_true'] at hadded
    exact hadded.1.1

variable {t : Table} {rows : List Nat}

theorem tidy_old [Rendering] (h : ∀ c ∈ t.columns, c.name ≠ "_id") :
    Tidy (buildOldRowChunk t rows) where
  names := by
    intro n hn
    obtain ⟨c, hc, rfl⟩ := mem_map.mp hn
    exact decide_eq_false (h c hc)
  width := by
    intro row hrow
    obtain ⟨r, _, rfl⟩ := mem_map.mp hrow
    simp [buildOldRowChunk]

theorem tidy_rows [Rendering]
    (h : ∀ c ∈ t.columns, c.name ≠ "_id") (hlen : rows.length = sources.length) :
    Tidy (appendPipelineColumns (buildOldRowChunk t rows) input sources) ∧
      (appendPipelineColumns (buildOldRowChunk t rows) input sources).rows.length = rows.length := by
  have hwide : SetStatement.Widens (buildOldRowChunk t rows)
      (appendPipelineColumns (buildOldRowChunk t rows) input sources)
      input := SetStatement.widens_pipeline (by simpa [buildOldRowChunk] using hlen)
  exact ⟨(tidy_old h).pipeline, by rw [hwide.rows]; simp [buildOldRowChunk]⟩

def Exact (registered written : List (Nat × Nat)) : Prop := ∀ w, w ∈ registered ↔ w ∈ written

theorem mem_registered {tableId : Nat} {ids' : List Nat} (h : ∀ r, r ∈ ids ↔ r ∈ ids') (w : Nat × Nat) :
    w ∈ ids.map (fun r => (tableId, r)) ↔ w ∈ ids'.map fun r => (tableId, r) := by
  simp [h]

section Recorded

variable {α : Type} {c : Chunk} {xs : List α} {i : α → Nat} {lead : List FieldName}
    {h : List Value} {out : Chunk}
  (htidy : Tidy c) (hlen : c.rows.length = xs.length) (hfit : ∀ x ∈ xs, i x < 2 ^ 64)
  (hlead : ∀ n ∈ lead, n.isId = false) (hhead : h.length = lead.length)
  (hnames : out.names = (lead ++ c.names) ++ [.bare "_id"])
  (hrows : out.rows = List.zipWith (fun row x => (h ++ row) ++ [Value.int64 (Int64.ofNat (i x))])
    c.rows xs)
include htidy hlen hfit hlead hhead hnames hrows

theorem mem_recorded :
    out.names.findIdx? FieldName.isId = some (lead ++ c.names).length ∧
      ∀ r, r ∈ out.idRows (lead ++ c.names).length ↔ r ∈ xs.map i := by
  have hall := forall_mem_append.mpr ⟨hlead, htidy.names⟩
  refine mem_lastIds hnames hall (by simp [hrows, hlen]) (fun k r hr => ?_) fun r hr => ?_
  · rw [getElem?_map] at hr
    obtain ⟨x, hx, rfl⟩ := map_eq_some_iff.mp hr
    have hk : k < c.rows.length := hlen ▸ (List.getElem?_eq_some_iff.mp hx).1
    refine ⟨h ++ c.rows[k], ?_, ?_⟩
    · rw [hrows, getElem?_zipWith, hx, getElem?_eq_getElem hk]
    · rw [length_append, length_append, htidy.width _ (getElem_mem hk), hhead]
  · obtain ⟨x, hx, rfl⟩ := mem_map.mp hr
    exact hfit x hx

theorem mem_recordSetWrites {tableId : Nat} (w : Nat × Nat) :
    w ∈ recordSetWrites tableId [out] ↔ w ∈ (xs.map i).map fun r => (tableId, r) := by
  obtain ⟨hidx, hmem⟩ := mem_recorded htidy hlen hfit hlead hhead hnames hrows
  simp only [recordSetWrites, head?_cons, toList_some, flatMap_cons, flatMap_nil, append_nil, hidx,
    getD_some]
  exact mem_registered hmem w

end Recorded

theorem mem_recordInsertWrites {α : Type} {tableId : Nat} {xs : List α} {i : α → Nat} {out : Chunk}
    (htidy : Tidy c) (hlen : c.rows.length = xs.length) (hfit : ∀ x ∈ xs, i x < 2 ^ 64)
    (hnames : out.names = c.names ++ [.bare "_id"])
    (hrows : out.rows = List.zipWith (fun row x => row ++ [Value.int64 (Int64.ofNat (i x))]) c.rows xs)
    (w : Nat × Nat) : w ∈ recordInsertWrites tableId [out] ↔ w ∈ (xs.map i).map fun r =>
      (tableId, r) := by
  obtain ⟨hidx, hmem⟩ := @mem_recorded α c xs i [] [] out htidy hlen hfit (forall_mem_nil _) rfl
    hnames hrows
  simp only [recordInsertWrites, insertedIds, head?_cons, toList_some, flatMap_cons, flatMap_nil,
    append_nil, hidx]
  exact mem_registered hmem w

variable {s : Effects} {tableId : Nat}

section Set

open SetStatement

variable {t : Table}

theorem setCellAt_written {row col : Nat} {v : Value} (ht : s.catalog.tables tableId = some t)
    (hw : Writable t row col) : (setCellAt tableId s row col v).written = s.written ++
    [(tableId, row)] := by
  cases t with
  | node => rw [(setCellAt_node ht hw).2]
  | rel => rw [(setCellAt_edge ht hw).2]

theorem setCells_written {cells : List (Nat × Nat × Value)} (ht : s.catalog.tables tableId = some t)
    (hw : ∀ cell ∈ cells, Writable t cell.1 cell.2.1) :
    (setCells tableId s cells).written = s.written ++ (cells.map (·.1)).map (fun r => (tableId, r)) ∧
      ∃ t', (setCells tableId s cells).catalog.tables tableId = some t' ∧ t'.columns = t.columns := by
  induction cells generalizing s t with
  | nil => exact ⟨(append_nil _).symm, t, ht, rfl⟩
  | cons cell cells ih =>
    obtain ⟨row, col, v⟩ := cell
    have hcell := hw _ mem_cons_self
    obtain ⟨t₁, hcat, hcols, _, hkeeps⟩ := setCellAt_spec (v := v) ht hcell
    have ht₁ : (setCellAt tableId s row col v).catalog.tables tableId = some t₁ := by
      rw [hcat]
      exact TableCatalog.set_tables_self ..
    obtain ⟨hwritten, t', ht', hcols'⟩ := ih ht₁ fun c hc => hkeeps _ _ (hw c (mem_cons_of_mem _ hc))
    refine ⟨?_, t', ht', hcols'.trans hcols⟩
    show (setCells tableId (setCellAt tableId s row col v) cells).written = _
    rw [hwritten, setCellAt_written ht hcell, append_assoc]
    rfl

theorem mapM_length {α β : Type} {f : α → Option β} {l : List α} {bs : List β}
    (h : l.mapM f = some bs) :
    bs.length = l.length := by
  induction l generalizing bs with
  | nil =>
    cases h
    rfl
  | cons a l ih =>
    rw [mapM_cons] at h
    obtain ⟨b, _, h⟩ := bind_eq_some_iff.mp h
    obtain ⟨bs', hbs', h⟩ := bind_eq_some_iff.mp h
    cases h
    simp [ih hbs']

variable {items : List SetItem}

theorem mem_cells {values : List (List Value)} {rows : List Nat} {f : SetItem → Nat → Option Value}
    (hvalues : items.mapM (fun item => (range rows.length).mapM (f item)) = some values)
    (hitems : items ≠ []) (r : Nat) :
    r ∈ ((items.zip values).flatMap fun (item, vs) => (rows.zip vs).map fun (row, v) =>
      (row, item.column t, v)).map
      (·.1) ↔ r ∈ rows := by
  constructor
  · intro hr
    obtain ⟨cell, hcell, rfl⟩ := mem_map.mp hr
    obtain ⟨⟨item, vs⟩, _, hcell⟩ := mem_flatMap.mp hcell
    obtain ⟨⟨row, v⟩, hrow, rfl⟩ := mem_map.mp hcell
    exact (of_mem_zip hrow).1
  · intro hr
    cases items with
    | nil => exact absurd rfl hitems
    | cons item =>
      rw [mapM_cons] at hvalues
      obtain ⟨vs, hvs, hvalues⟩ := bind_eq_some_iff.mp hvalues
      obtain ⟨rest, _, hvalues⟩ := bind_eq_some_iff.mp hvalues
      cases hvalues
      have hlen : vs.length = rows.length := by rw [mapM_length hvs, length_range]
      obtain ⟨i, hi, rfl⟩ := mem_iff_getElem.mp hr
      refine mem_map.mpr ⟨(rows[i], item.column t, vs[i]), ?_, rfl⟩
      refine mem_flatMap.mpr ⟨(item, vs), by simp, mem_map.mpr ⟨(rows[i], vs[i]), ?_, rfl⟩⟩
      rw [← getElem_zip (h := by simp [hlen, hi])]
      exact getElem_mem _

variable {target : Option String} {input : List Chunk}

theorem targets_lt {x : Nat × (Nat × Nat)}
    (hx : x ∈ targets target input) : x.1 < 2 ^ 64 := by
  obtain ⟨⟨ci, c⟩, _, hx⟩ := mem_flatMap.mp hx
  obtain ⟨row, _, hx⟩ := mem_filterMap.mp hx
  obtain ⟨r, hr, rfl⟩ := map_eq_some_iff.mp hx
  unfold Chunk.address at hr
  split at hr
  next y _ =>
    cases hr
    exact y.toUInt64.toNat_lt
  · cases hr

theorem executeSet_exact [Rendering] {emitCount : Bool} {out : List Chunk}
    {s' : Effects} (hs : s.written = []) (htargets : TargetsExist s.catalog tableId target items input)
    (hitems : items ≠ []) (hcols : ∀ t, s.catalog.tables tableId = some t → ∀ c ∈ t.columns,
      c.name ≠ "_id")
    (hempty : targets target input = [] → emitCount = false)
    (h : executeSet tableId target emitCount items s input = .ok (s', out)) :
    Exact (recordSetWrites tableId out) s'.written := by
  unfold executeSet at h
  simp only at h
  split at h
  next hnone =>
    rw [hempty hnone] at h
    cases h
    intro w
    simp [recordSetWrites, hs]
  · split at h
    · cases h
    next t ht =>
      split at h
      · cases h
      next values hvalues =>
        cases h
        obtain ⟨hwritten, t', ht', hcolumns⟩ := setCells_written ht (htargets.writable ht values)
        rw [hwritten, hs, nil_append, ht', getD_some]
        rw [show (range (targets target input).length) =
          range ((targets target input).map (·.1)).length by
          rw [length_map]] at hvalues
        have hcells := mem_cells (t := t) hvalues hitems
        obtain ⟨htidy, hlen⟩ := @tidy_rows ((targets target input).map (·.2)) input t'
          ((targets target input).map (·.1))
          _ (hcolumns ▸ hcols t ht) (by simp)
        rw [length_map] at hlen
        intro w
        rw [mem_registered hcells]
        exact mem_recordSetWrites (i := Prod.fst) (h := [_]) htidy hlen (fun x hx => targets_lt hx)
          (forall_mem_singleton.mpr rfl) rfl rfl rfl w

end Set

section Delete

variable {relIds rows : List Nat}

theorem deleteRows_written [Rendering] {t : Table} (ht : s.catalog.tables tableId = some t)
    (h : t.Deletes rows) : (deleteRows tableId s rows).written = s.written ++ rows.map fun r =>
      (tableId, r) := by
  induction rows generalizing s t with
  | nil => exact (append_nil _).symm
  | cons row rows ih =>
    obtain ⟨t', ht', h'⟩ := deleteAt_deletes ht h
    have hone : (deleteAt tableId s row).written = s.written ++ [(tableId, row)] := by
      cases t with
      | node t =>
        have hlt := h row mem_cons_self
        obtain ⟨t₁, _, _, hdel⟩ := deleteAt_node ht (getElem?_eq_getElem hlt)
        rw [hdel]
      | rel =>
        obtain ⟨e, he, hel⟩ := RelTable.liveAt_iff.mp (h.2 row mem_cons_self)
        rw [(deleteAt_edge ht he hel).2]
    show (deleteRows tableId (deleteAt tableId s row) rows).written = _
    rw [ih ht' h', hone, append_assoc]
    rfl

theorem incidentEdges_noIncident {cat : TableCatalog} (h : NoIncident cat relIds tableId rows) :
    cat.incidentEdges relIds tableId rows = [] := by
  rw [TableCatalog.incidentEdges, flatMap_eq_nil_iff]
  intro id hid
  cases ht : cat.getRelTable id with
  | none => rfl
  | some t =>
    have hrows : rows.flatMap (t.incident tableId) = [] :=
      flatMap_eq_nil_iff.mpr fun row hrow => h id hid t ht row hrow
    simp [hrows]

theorem mem_recordDeleteWrites {n : Nat} (hn : n < 2 ^ 64) (w : Nat × Nat) :
    w ∈ recordDeleteWrites tableId [⟨[], replicate n [.int64 (Int64.ofNat n)]⟩] ↔
      w ∈ (replicate n n).map fun r => (tableId, r) := by
  have hmem (r : Nat) : r ∈ Chunk.idRows ⟨[], replicate n [.int64 (Int64.ofNat n)]⟩ 0 ↔
      r ∈ replicate n n := by
    refine mem_idRows (by simp) (fun i r hr => ?_) fun r hr => (mem_replicate.mp hr).2 ▸ hn
    obtain ⟨hi, rfl⟩ := List.getElem?_eq_some_iff.mp hr
    rw [length_replicate] at hi
    simp [Chunk.cell, hi]
  simp only [recordDeleteWrites, head?_cons, toList_some, flatMap_cons, flatMap_nil, append_nil]
  exact mem_registered hmem w

theorem executeDelete_exact [Rendering] {detaching : Bool} {target : Option String}
    {input out : List Chunk} {s' : Effects}
    (hs : s.written = []) (hrows : DeletesExist s.catalog relIds tableId detaching target input)
    (hcount : ∀ x ∈ targets target input, x.1 = (targets target input).length)
    (h : executeDelete relIds tableId detaching target s input = .ok (s', out)) :
    Exact (recordDeleteWrites tableId out) s'.written := by
  unfold executeDelete at h
  simp only at h
  split at h
  · cases h
    intro w
    rw [hs]
    cases input with
    | nil => simp [recordDeleteWrites]
    | cons => simp [recordDeleteWrites, Chunk.idRows]
  next hne =>
    split at h
    · cases h
    next t ht =>
      split at h
      · cases h
      · cases h
        -- without edges to take along, DETACH changes neither the tables nor what was written
        have hsame : ∃ s₁ : Effects, (if ((s.catalog.getNodeTable tableId).isSome && detaching) =
            true then
            detach relIds tableId ((targets target input).map (·.1)) s else s) = s₁ ∧
            s₁.catalog = s.catalog ∧ s₁.written = [] := by
          split
          next hd =>
            have hno := hrows.2 (Bool.and_eq_true_iff.mp hd).2
            exact ⟨_, rfl, detach_noIncident hno, by simp [detach, incidentEdges_noIncident hno, hs]⟩
          · exact ⟨s, rfl, rfl, hs⟩
        obtain ⟨s₁, hs₁, hcat, hwritten⟩ := hsame
        rw [hs₁]
        have hdeleted := deleteRows_written (s := s₁) (hcat ▸ ht) (hrows.1 t ht)
        rw [hdeleted, hwritten, nil_append, length_map, length_map, length_nil, Nat.sub_zero]
        have hfit : (targets target input).length < 2 ^ 64 := by
          obtain ⟨x, hx⟩ := exists_mem_of_ne_nil _ (fun heq => hne (by rw [heq]; rfl) :
            targets target input ≠ [])
          exact hcount x hx ▸ targets_lt hx
        have hall : (targets target input).map (·.1) =
            replicate (targets target input).length (targets target input).length :=
          eq_replicate_iff.mpr ⟨by simp, fun r hr => by
            obtain ⟨x, hx, rfl⟩ := mem_map.mp hr
            exact hcount x hx⟩
        rw [hall]
        exact mem_recordDeleteWrites hfit

end Delete

section Merge

variable {m : MergePattern} {input : List Chunk}

def MergePattern.Bare (m : MergePattern) : Prop := m.onMatch = [] ∧ m.onCreate = []

theorem applyOn_nil [Rendering] (name : FieldName) (rows : List (Nat × (Nat × Nat)))
    (input : List Chunk) (s : Effects) :
    applyOn [] name rows input s = .ok s := by
  unfold applyOn
  split <;> rfl

variable {ms : List (Merged Nat)} {sources : List (Nat × Nat)}

theorem outcomes_created (hlen : sources.length = ms.length)
    (hall : ∀ x ∈ ms, x.isCreated = true) : (outcomes true ms sources).map (·.1) = ms.map (·.get) := by
  have hkeep : (ms.zip sources).filter (fun p => p.1.isCreated = true) = ms.zip sources :=
    filter_eq_self.mpr fun p hp => decide_eq_true (hall p.1 (of_mem_zip hp).1)
  rw [outcomes, hkeep, List.map_map]
  have hfst : ((fun x : Nat × (Nat × Nat) => x.1) ∘ fun p : Merged Nat × (Nat × Nat) =>
      (p.1.get, p.2)) =
      Merged.get ∘ Prod.fst := rfl
  rw [hfst, ← List.map_map, map_fst_zip hlen.symm.le]

variable {name : FieldName} {s' : Effects}

theorem finish_written [Rendering] {t : Table} {values : List (List Value)}
    (hs : s.written = []) (hm : m.Bare)
    (hlen : sources.length = ms.length) (hall : ∀ x ∈ ms, x.isCreated = true)
    (h : m.finish tableId name t values ms input sources s = .ok s') :
    s'.written = (ms.map (·.get)).map (fun r => (tableId, r)) ∧ s'.catalog.tables tableId = some t := by
  simp only [MergePattern.finish, hm.1, hm.2, applyOn_nil, bind, Except.bind, Except.ok.injEq] at h
  subst h
  exact ⟨by simp only [hs, nil_append, outcomes_created hlen hall], TableCatalog.set_tables_self ..⟩

theorem inputSources_length (input : List Chunk) : (inputSources (mergeChunks input)).length =
    (mergeInput input).length := by
  have hsum (cs : List Chunk) : (inputSources cs).length = (cs.map fun c => c.rows.length).sum := by
    have hzip : ((range cs.length).zip cs).map (fun p => p.2.rows.length) = cs.map fun c =>
        c.rows.length := by
      have hsnd : (fun p : Nat × Chunk => p.2.rows.length) =
          (fun c : Chunk => c.rows.length) ∘ Prod.snd := rfl
      rw [hsnd, ← List.map_map, map_snd_zip (by simp)]
    simp only [inputSources, length_flatMap, length_map, length_range]
    exact congrArg List.sum hzip
  rw [hsum]
  simp [mergeInput, mergeChunks, length_flatMap]

variable {out : List Chunk}

theorem executeMerge_exact [Rendering] (hs : s.written = []) (hm : m.Bare)
    (hnew : ∀ t t' ms, s.catalog.getNodeTable tableId = some t → t.merge m.props input = .ok (t', ms) →
      (∀ x ∈ ms, x.isCreated = true ∧ x.get < 2 ^ 64) ∧ ∀ c ∈ t'.columns, c.name ≠ "_id")
    (h : executeMerge tableId m s input = .ok (s', out)) :
      Exact (recordInsertWrites tableId out) s'.written := by
  unfold executeMerge at h
  split at h
  · cases h
  next t ht =>
    split at h
    · cases h
    next t' ms hmerge =>
      obtain ⟨hall, hcols⟩ := hnew t t' ms ht hmerge
      simp only at h
      split at h
      · cases h
      next s₁ hfinish =>
        cases h
        have hlen : (inputSources (mergeChunks input)).length = ms.length := by
          rw [inputSources_length, mergeAll_length hmerge]
        obtain ⟨hwritten, htable⟩ := finish_written hs hm hlen (fun x hx => (hall x hx).1) hfinish
        rw [hwritten, htable, getD_some]
        obtain ⟨htidy, hrows⟩ := @tidy_rows (inputSources (mergeChunks input)) (mergeChunks input)
          (.node t') (ms.map (·.get))
          _ hcols (by simp [hlen])
        rw [length_map] at hrows
        intro w
        exact mem_recordInsertWrites htidy hrows (fun x hx => (hall x hx).2) rfl rfl w

theorem mem_recordInsertWrites_first [Rendering] {ids : List Nat} {input : List Chunk}
    (hname : name.isId = true) (hlen : sources.length = ids.length)
    (hfit : ∀ r ∈ ids, r < 2 ^ 64) (w : Nat × Nat) :
    w ∈ recordInsertWrites tableId [idChunk name ids input sources] ↔ w ∈ ids.map fun r =>
      (tableId, r) := by
  have hwide : SetStatement.Widens ⟨[name], ids.map fun r => [.int64 (Int64.ofNat r)]⟩
      (idChunk name ids input sources) input := SetStatement.widens_pipeline (by simp [hlen])
  have hidx : (idChunk name ids input sources).names.findIdx? FieldName.isId = some 0 := by
    obtain ⟨extra, hnames, _⟩ := hwide.names
    rw [hnames]
    simp [findIdx?_cons, hname]
  have hmem (r : Nat) : r ∈ (idChunk name ids input sources).idRows 0 ↔ r ∈ ids := by
    refine mem_idRows ?_ (fun i r hr => ?_) hfit
    · rw [hwide.rows]
      simp
    · have hrow : (ids.map fun r => [Value.int64 (Int64.ofNat r)])[i]? =
          some [.int64 (Int64.ofNat r)] := by simp [hr]
      exact hwide.cell_eq hrow (by simp)
  simp only [recordInsertWrites, insertedIds, head?_cons, toList_some, flatMap_cons, flatMap_nil,
    append_nil, hidx]
  exact mem_registered hmem w

theorem executeMergeRel_exact [Rendering] {edgeVar srcVar dstVar : String} {c : Chunk}
    (hs : s.written = []) (hm : m.Bare)
    (hnew : ∀ t rows t' ms, s.catalog.getRelTable tableId = some t → boundEdges srcVar dstVar c =
      .ok rows →
      t.mergeRows m.props rows = .ok (t', ms) → ∀ x ∈ ms, x.isCreated = true ∧ x.get < 2 ^ 64)
    (h : executeMergeRel tableId edgeVar srcVar dstVar m s [c] = .ok (s', out)) :
    Exact (recordInsertWrites tableId out) s'.written := by
  unfold executeMergeRel at h
  split at h
  next hempty =>
    cases h
    have hrows : c.rows = [] := by simpa using hempty
    intro w
    have hids : insertedIds c = [] := by
      unfold insertedIds
      split <;> simp [Chunk.idRows, hrows]
    simp [recordInsertWrites, hids, hs]
  · split at h
    · cases h
    next t ht =>
      simp only [mergeRelChunks] at h
      split at h
      · cases h
      next s₁ o hchunk =>
        cases h
        unfold mergeRelChunk at hchunk
        simp only [ht] at hchunk
        split at hchunk
        · cases hchunk
        next rows hrows =>
          split at hchunk
          · cases hchunk
          next t' ms hmerge =>
            have hall := hnew t rows t' ms ht hrows hmerge
            obtain ⟨s₂, hfinish, heq⟩ := map_eq_ok.mp hchunk
            cases heq
            have hlen : (rows.map fun x => (0, x.row)).length = ms.length := by
              rw [length_map, mergeAll_length hmerge]
            obtain ⟨hwritten, _⟩ := finish_written hs hm hlen (fun x hx => (hall x hx).1) hfinish
            rw [hwritten]
            intro w
            refine mem_recordInsertWrites_first rfl (by rw [hlen, length_map]) (fun r hr => ?_) w
            obtain ⟨x, hx, rfl⟩ := mem_map.mp hr
            exact (hall x hx).2

end Merge

section Statements

variable [Rendering]

def PlannedWrite.Tracked (relIds : List Nat) (cat : TableCatalog) (input : List Chunk) :
    PlannedWrite → Prop
  | .set tableId target emitCount items =>
    TargetsExist cat tableId target items input ∧ items ≠ [] ∧
      (targets target input = [] → emitCount = false) ∧
      ∀ t, cat.tables tableId = some t → ∀ c ∈ t.columns, c.name ≠ "_id"
  | .delete tableId detaching target =>
    DeletesExist cat relIds tableId detaching target input ∧
      ∀ x ∈ targets target input, x.1 = (targets target input).length
  | .merge tableId m =>
    m.Bare ∧ ∀ t t' ms, cat.getNodeTable tableId = some t → t.merge m.props input = .ok (t', ms) →
      (∀ x ∈ ms, x.isCreated = true ∧ x.get < 2 ^ 64) ∧ ∀ c ∈ t'.columns, c.name ≠ "_id"
  | .mergeRel tableId _ srcVar dstVar m =>
    m.Bare ∧ ∃ c, input = [c] ∧ ∀ t rows t' ms, cat.getRelTable tableId = some t →
      boundEdges srcVar dstVar c = .ok rows → t.mergeRows m.props rows = .ok (t', ms) →
        ∀ x ∈ ms, x.isCreated = true ∧ x.get < 2 ^ 64

theorem write_registers_written {relIds : List Nat} {cat : TableCatalog} {input : List Chunk}
    {stmt : PlannedWrite}
    {s' : Effects} {registered : List (Nat × Nat)} (hstmt : stmt.Tracked relIds cat input)
    (h : stmt.run relIds ⟨cat, [], [], []⟩ input = .ok (s', registered)) :
      Exact registered s'.written := by
  cases stmt with
  | set =>
    obtain ⟨⟨s₁, out⟩, hrun, heq⟩ := map_eq_ok.mp h
    cases heq
    obtain ⟨htargets, hitems, hempty, hcols⟩ := hstmt
    exact executeSet_exact rfl htargets hitems hcols hempty hrun
  | delete =>
    obtain ⟨⟨s₁, out⟩, hrun, heq⟩ := map_eq_ok.mp h
    cases heq
    exact executeDelete_exact rfl hstmt.1 hstmt.2 hrun
  | merge =>
    obtain ⟨⟨s₁, out⟩, hrun, heq⟩ := map_eq_ok.mp h
    cases heq
    exact executeMerge_exact rfl hstmt.1 hstmt.2 hrun
  | mergeRel =>
    obtain ⟨⟨s₁, out⟩, hrun, heq⟩ := map_eq_ok.mp h
    cases heq
    obtain ⟨hm, c, rfl, hnew⟩ := hstmt
    exact executeMergeRel_exact rfl hm hnew hrun

end Statements

section Social

attribute [local instance] Rendering.blank

def setAges : PlannedWrite := .set 0 (some "p") false [⟨"age", 1, ⟨[], fun _ => .uint64 1⟩⟩]

def personChunks : List Chunk :=
  [⟨[.property "p" "_id"], [[.int64 0]]⟩, ⟨[.property "p" "_id"], [[.int64 1]]⟩]

end Social

end Akar
