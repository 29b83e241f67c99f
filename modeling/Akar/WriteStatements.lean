import Akar.SetOperator

namespace Akar

section Delete

variable [Rendering]

namespace RelTable

def incident (t : RelTable) (tableId row : Nat) : List Nat :=
  (if t.srcTableId = tableId then (t.fwdAdj (.ofNat row)).map (·.2) else []) ++
    if t.dstTableId = tableId then (t.revAdj (.ofNat row)).map (·.2) else []

def deleteEdges (t : RelTable) (edges : List Nat) : RelTable :=
  edges.foldl (fun t i => (t.deleteEdge i).toOption.getD t) t

end RelTable

namespace TableCatalog

/-- `has_incident_edges`; `relIds` are the rel tables of the catalog, in the order it iterates over
them. -/
def hasIncidentEdges (cat : TableCatalog) (relIds : List Nat) (tableId row : Nat) : Bool :=
  relIds.any fun id => (cat.getRelTable id).any fun t => !(t.incident tableId row).isEmpty

def detachFrom (tableId row : Nat) (cat : TableCatalog) (relId : Nat) : TableCatalog :=
  match cat.getRelTable relId with
  | some t => cat.set relId (.rel (t.deleteEdges (t.incident tableId row)))
  | none => cat

def detachNode (relIds : List Nat) (tableId : Nat) (cat : TableCatalog) (row : Nat) : TableCatalog :=
  relIds.foldl (detachFrom tableId row) cat

/-- The edges that a `DETACH DELETE` logs, table by table, before it removes any. -/
def incidentEdges (cat : TableCatalog) (relIds : List Nat) (tableId : Nat) (rows : List Nat) :
    List (Nat × Nat) :=
  relIds.flatMap fun id => (cat.getRelTable id).toList.flatMap fun t =>
    (rows.flatMap (t.incident tableId)).map fun edge => (id, edge)

end TableCatalog

/-- One row of `PhysicalDelete`: the undo record goes out before the delete is tried. -/
def deleteAt (tableId : Nat) (s : Effects) (row : Nat) : Effects := match s.catalog.tables tableId with
  | some (.node t) =>
    let undos := s.undos ++ [.delete tableId row (t.rowUndo row)]
    match t.deleteRow row with
    | .ok t' => ⟨s.catalog.set tableId (.node t'), undos, s.records ++ [.delete tableId row],
        s.written ++ [(tableId, row)]⟩
    | .error _ => { s with undos }
  | some (.rel t) =>
    let undos := s.undos ++ [.delete tableId row (t.edgeUndo row)]
    match t.deleteEdge row with
    | .ok t' => ⟨s.catalog.set tableId (.rel t'), undos, s.records ++ [.delete tableId row],
        s.written ++ [(tableId, row)]⟩
    | .error _ => { s with undos }
  | none => s

def deleteRows (tableId : Nat) (s : Effects) (rows : List Nat) : Effects :=
  rows.foldl (deleteAt tableId) s

/-- The edges of `DETACH DELETE`: they are logged, but there is no undo record for them. -/
def detach (relIds : List Nat) (tableId : Nat) (rows : List Nat) (s : Effects) : Effects :=
  let edges := s.catalog.incidentEdges relIds tableId rows
  { s with
    catalog := rows.foldl (TableCatalog.detachNode relIds tableId) s.catalog
    records := s.records ++ edges.map fun e => .delete e.1 e.2
    written := s.written ++ edges }

/-- `PhysicalDelete::execute`. The output has the number of deleted rows in each of as many rows. -/
def executeDelete (relIds : List Nat) (tableId : Nat) (detaching : Bool) (target : Option String)
    (s : Effects) (input : List Chunk) : Except String (Effects × List Chunk) :=
  let rows := (targets target input).map (·.1)
  if rows = [] then .ok (s, input.map fun c => ⟨c.names, []⟩)
  else
    match s.catalog.tables tableId with
    | none => .error "table not found for DELETE"
    | some _ =>
      let isNode := (s.catalog.getNodeTable tableId).isSome
      match rows.find? fun row => isNode && !detaching && s.catalog.hasIncidentEdges relIds tableId row with
      | some row =>
        .error s!"Cannot delete node {row} because it has incident edges (use DETACH DELETE)"
      | none =>
        let s₁ := if isNode && detaching then detach relIds tableId rows s else s
        let s' := deleteRows tableId s₁ rows
        let deleted := s'.written.length - s₁.written.length
        .ok (s', [⟨[], List.replicate deleted [.int64 (Int64.ofNat deleted)]⟩])

end Delete

section Inline

variable [Rendering]

/-- A property of an inline pattern: its constant value, and whether it is written as a literal. -/
structure ConstantProperty where
  name : String
  value : Value
  literal : Bool

/-- `serials` puts the next values of the sequences for the nulls in SERIAL columns. -/
structure InlineNode where
  var : Option String
  tableId : Nat
  properties : List ConstantProperty
  serials : List Value → List Value

structure InlineEdge where
  tableId : Nat
  srcVar : String
  dstVar : String
  properties : List ConstantProperty

structure InlinePattern where
  node : Option InlineNode
  edge : Option InlineEdge

def patternValues (columns : List ColumnDefinition) (props : List ConstantProperty) : List Value :=
  props.foldl (fun values p =>
    ((columns.findIdx? fun c => c.name = p.name).map fun col => values.set col p.value).getD values)
    (columns.map fun _ => .null)

structure InlineState where
  effects : Effects
  rows : String → Option Nat
  tableIds : String → Option Nat

def InlineState.bind (s : InlineState) (effects : Effects) (var : String) (row tableId : Nat) :
    InlineState :=
  ⟨effects, Function.update s.rows var (some row), Function.update s.tableIds var (some tableId)⟩

def insertInline (s : Effects) (tableId filed : Nat) (t : NodeTable) (values : List Value) :
    Except String (Effects × Nat) :=
  match t.insertRow values with
  | .error e => .error e.text
  | .ok (row, t') => .ok (⟨s.catalog.set tableId (.node t'), s.undos ++ [.insert filed row],
      s.records ++ [.insert filed (serializeValues values)], s.written ++ [(tableId, row)]⟩, row)

def createNode (s : InlineState) (p : InlinePattern) : Except String InlineState := match p.node with
  | none => .ok s
  | some n =>
    match s.effects.catalog.getNodeTable n.tableId with
    | none => .error "Table not found in storage"
    | some t =>
      match insertInline s.effects n.tableId n.tableId t (n.serials (patternValues t.columns n.properties)) with
      | .error e => .error e
      | .ok (effects, row) =>
        match n.var with
        | some v => .ok (s.bind effects v row n.tableId)
        | none => .ok { s with effects }

def edgeEnds (s : InlineState) (e : InlineEdge) (t : RelTable) : Except String (UInt64 × UInt64) :=
  match s.rows e.srcVar, s.rows e.dstVar with
  | some src, some dst =>
    if s.tableIds e.srcVar = some t.srcTableId ∧ s.tableIds e.dstVar =
      some t.dstTableId then .ok (.ofNat src, .ofNat dst)
    else .error "the endpoints are from other tables"
  | none, _ => .error s!"source node '{e.srcVar}' has no row"
  | _, none => .error s!"destination node '{e.dstVar}' has no row"

def insertEdge (s : InlineState) (tableId : Nat) (t : RelTable) (src dst : UInt64)
    (values : List Value) :
    Except String InlineState :=
  match t.insertRel src dst values with
  | .error e => .error e.text
  | .ok t' => .ok { s with effects := ⟨s.effects.catalog.set tableId (.rel t'),
      s.effects.undos ++ [.insert tableId t.edges.length],
      s.effects.records ++ [.insert tableId (serializeValues (.uint64 src :: .uint64 dst :: values))],
      s.effects.written ++ [(tableId, t.edges.length)]⟩ }

/-- Pass 2 of an inline CREATE or MERGE: a MERGE makes no edge where one joins the nodes already,
and takes literal properties only. -/
def createEdge (merging : Bool) (s : InlineState) (p : InlinePattern) : Except String InlineState :=
  match p.edge with
  | none => .ok s
  | some e =>
    match s.effects.catalog.getRelTable e.tableId with
    | none => .error "Rel table not found in storage"
    | some t =>
      match edgeEnds s e t with
      | .error msg => .error msg
      | .ok (src, dst) =>
        if merging && (t.fwdAdj src).any (·.1 = dst) then .ok s
        else insertEdge s e.tableId t src dst
          (patternValues t.columns (if merging then e.properties.filter (·.literal) else e.properties))

def passes (nodes edges : InlineState → InlinePattern → Except String InlineState)
    (patterns : List InlinePattern) (s : Effects) : Except String Effects := do
  let s₁ ← patterns.foldlM nodes ⟨s, fun _ => none, fun _ => none⟩
  let s₂ ← patterns.foldlM edges s₁
  return s₂.effects

def inlineCreate (patterns : List InlinePattern) (s : Effects) : Except String Effects :=
  passes createNode (createEdge false) patterns s

def updateInline (tableId filed row : Nat) (s : Effects) (item : Nat × Value) : Except String Effects :=
  match s.catalog.getNodeTable tableId with
  | none => .ok s
  | some t =>
    match t.updateCell row item.1 item.2 with
    | .error e => .error s!"MERGE ON MATCH SET: {e.text}"
    | .ok t' =>
      .ok ⟨s.catalog.set tableId (.node t'), s.undos ++
      [.update filed row item.1 (t.cellUndo row item.1)],
        s.records ++ [.update filed row item.1 (serializeValues [item.2])], s.written ++
          [(tableId, row)]⟩

structure InlineMerge where
  tableId : Nat
  patterns : List InlinePattern
  onMatch : List (Nat × Value)
  onCreate : List (Nat × Value)

def InlineMerge.values (m : InlineMerge) (n : InlineNode) (t : NodeTable) : List Value :=
  (if n.tableId = m.tableId then m.onCreate else []).foldl (fun values item => values.set item.1 item.2)
    (patternValues t.columns n.properties)

def InlineNode.existing (n : InlineNode) (t : NodeTable) : Option Nat :=
  (n.properties.find? fun p => (t.columns[t.primaryKeyColumn]?).any fun c => c.name =
    p.name).bind fun p =>
    t.lookupByPk p.value

def InlineMerge.matchItems (m : InlineMerge) (n : InlineNode) : List (Nat × Value) :=
  if n.tableId = m.tableId then m.onMatch else []

/-- Pass 1 of an inline MERGE. A node is looked up by its primary key, and what is written about it
is recorded under the table of the first pattern. -/
def InlineMerge.node (m : InlineMerge) (s : InlineState) (p : InlinePattern) :
    Except String InlineState :=
  match p.node with
  | none => .ok s
  | some n =>
    match s.effects.catalog.getNodeTable n.tableId with
    | none => .error "Table not found in storage"
    | some t =>
      match n.existing t with
      | some row =>
        match (m.matchItems n).foldlM (updateInline n.tableId m.tableId row) s.effects with
        | .error e => .error e
        | .ok effects => .ok (s.bind effects (n.var.getD "") row n.tableId)
      | none =>
        match insertInline s.effects n.tableId m.tableId t (m.values n t) with
        | .error e => .error e
        | .ok (effects, row) => .ok (s.bind effects (n.var.getD "") row n.tableId)

def inlineMerge (m : InlineMerge) (s : Effects) : Except String Effects :=
  passes m.node (createEdge true) m.patterns s

end Inline

inductive WriteStatement where
  | set (tableId : Nat) (target : Option String) (emitCount : Bool) (items : List SetItem) (input : List Chunk)
  | delete (tableId : Nat) (detaching : Bool) (target : Option String) (input : List Chunk)
  | create (patterns : List InlinePattern)
  | merge (m : InlineMerge)

variable [Rendering] in
def WriteStatement.execute (relIds : List Nat) (s : Effects) : WriteStatement → Except String Effects
  | .set tableId target emitCount items input =>
    (executeSet tableId target emitCount items s input).map (·.1)
  | .delete tableId detaching target input =>
    (executeDelete relIds tableId detaching target s input).map (·.1)
  | .create patterns => inlineCreate patterns s
  | .merge m => inlineMerge m s

end Akar
