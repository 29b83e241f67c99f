import Akar.SetOperator
import Akar.MatchOrCreate

namespace Akar

namespace Chunk

/-- `evaluate_expression_for_row` on a property or a variable: what is not there reads as null. -/
def readForRow (c : Chunk) (row : Nat) : Read → Value
  | .var x => ((c.names.findIdx? (· = .bare x)).map fun col => c.cell col row).getD .null
  | .property x p =>
    match c.names.findIdx? (· = .property x p) with
    | some col => c.cell col row
    | none =>
      match c.names.findIdx? (· = .bare x) with
      | some col => mapPropertyValue (c.cell col row) p
      | none => ((c.names.findIdx? (· = .bare p)).map fun col => c.cell col row).getD .null

def evalForRow (c : Chunk) (row : Nat) (e : Expr) : Value := e.compute (e.reads.map (c.readForRow row))

end Chunk

abbrev Properties := List (String × Expr)

def Properties.find (props : Properties) (name : String) : Option Expr := props.reverse.lookup name

structure InputRow where
  chunk : Chunk
  row : Nat

def InputRow.eval (x : InputRow) (e : Expr) : Value := x.chunk.evalForRow x.row e

/-- The rows of the input in turn. Without a pipeline MERGE runs once, on a row of its own. -/
def mergeInput (input : List Chunk) : List InputRow :=
  (if input = [] then [⟨[], [[.int64 0]]⟩] else input).flatMap fun c =>
    (List.range c.rows.length).map fun row => ⟨c, row⟩

namespace NodeTable

variable [Rendering]

def pkProperty (t : NodeTable) (props : Properties) (x : InputRow) : Option Value :=
  (t.columns[t.primaryKeyColumn]?).bind fun c => (props.find c.name).map x.eval

def scanFor (t : NodeTable) (col : Nat) (v : Value) : Option Nat :=
  (List.range t.numRows).find? fun row => (t.getValue row col).any (·.partialEq v)

/-- The match phase of `PhysicalMerge`: by primary key, or else by the first property alone. -/
def matchRow (props : Properties) (t : NodeTable) (x : InputRow) : Option Nat :=
  match t.pkProperty props x with
  | some v => t.lookupByPk v
  | none =>
    props.head?.bind fun p =>
      (t.columns.findIdx? fun c => c.name = p.1).bind fun col => t.scanFor col (x.eval p.2)

def newValue (props : Properties) (x : InputRow) (c : ColumnDefinition) : Except String Value :=
  match props.find c.name with
  | some e => .ok (x.eval e)
  | none =>
    if c.isPrimaryKey then .error s!"MERGE CREATE requires primary key '{c.name}'" else .ok .null

def newValues (props : Properties) (x : InputRow) : List ColumnDefinition → Except String (List Value)
  | [] => .ok []
  | c :: cs => do
    let v ← newValue props x c
    let vs ← newValues props x cs
    return v :: vs

/-- The create phase. The retry after a duplicate key is for one inserted by another transaction
since the match phase: otherwise the index has just called the key free. -/
def createRow (props : Properties) (t : NodeTable) (x : InputRow) : Except String (NodeTable × Nat) :=
  match newValues props x t.columns with
  | .error e => .error e
  | .ok values =>
    match t.insertRow values with
    | .error e => .error s!"MERGE CREATE failed: {e.text}"
    | .ok (row, t') => .ok (t', row)

def mergeRows (props : Properties) (t : NodeTable) (rows : List InputRow) :
    Except String (NodeTable × List (Merged Nat)) :=
  mergeAll (fun t x => .ok (matchRow props t x)) (createRow props) t rows

def merge (props : Properties) (t : NodeTable) (input : List Chunk) :
    Except String (NodeTable × List (Merged Nat)) :=
  t.mergeRows props (mergeInput input)

end NodeTable

structure BoundEdge extends InputRow where
  src : UInt64
  dst : UInt64

def InputRow.bound (x : InputRow) (srcCol dstCol : Nat) : Option BoundEdge :=
  match x.chunk.cell srcCol x.row, x.chunk.cell dstCol x.row with
  | .int64 src, .int64 dst => some ⟨x, src.toUInt64, dst.toUInt64⟩
  | _, _ => none

def boundEdges (srcVar dstVar : String) (c : Chunk) : Except String (List BoundEdge) :=
  match c.names.findIdx? (· = .property srcVar "_id"), c.names.findIdx? (· = .property dstVar "_id") with
  | none, _ => .error s!"Bound node '{srcVar}' not found in MERGE input."
  | _, none => .error s!"Bound node '{dstVar}' not found in MERGE input."
  | some s, some d =>
    .ok ((List.range c.rows.length).filterMap fun row => InputRow.bound ⟨c, row⟩ s d)

namespace RelTable

def propsMatch (t : RelTable) (edgeIdx : Nat) (x : InputRow) : Properties → Except String Bool
  | [] => .ok true
  | (name, e) :: props =>
    match t.columns.findIdx? fun c => c.name = name with
    | none => .error s!"Rel column '{name}' not found"
    | some col =>
      if (x.eval e).partialEq ((t.getEdgeProperties edgeIdx)[col]?.getD .null) then t.propsMatch
        edgeIdx x props
      else .ok false

/-- The first candidate that leads to the bound node and has the properties. -/
def matchCandidate (t : RelTable) (props : Properties) (x : BoundEdge) : List (UInt64 × Nat) →
    Except String (Option Nat)
  | [] => .ok none
  | (dst, edgeIdx) :: cs =>
    if dst = x.dst then
      match t.propsMatch edgeIdx x.toInputRow props with
      | .error e => .error e
      | .ok true => .ok (some edgeIdx)
      | .ok false => t.matchCandidate props x cs
    else t.matchCandidate props x cs

def setProp (t : RelTable) (x : InputRow) (values : List Value) (p : String × Expr) : List Value :=
  match t.columns.findIdx? fun c => c.name = p.1 with
  | some col => values.set col (x.eval p.2)
  | none => values

/-- The properties of a new edge: null but for the pattern's, the later of two winning. -/
def newProps (t : RelTable) (x : InputRow) (props : Properties) : List Value :=
  props.foldl (t.setProp x) (t.columns.map fun _ => .null)

def createEdge (props : Properties) (t : RelTable) (x : BoundEdge) : Except String (RelTable × Nat) :=
  match t.insertRel x.src x.dst (t.newProps x.toInputRow props) with
  | .error e => .error s!"MERGE CREATE edge failed: {e.text}"
  | .ok t' => .ok (t', t.edges.length)

/-- The loop of `PhysicalMergeRel::execute` over all rows: the candidates come from the adjacency
before the loop, their properties from the table as it is. -/
def mergeRows (props : Properties) (t : RelTable) (rows : List BoundEdge) :
    Except String (RelTable × List (Merged Nat)) :=
  mergeAll (fun t' x => t'.matchCandidate props x (t.fwdAdj x.src)) (createEdge props) t rows

end RelTable

end Akar
