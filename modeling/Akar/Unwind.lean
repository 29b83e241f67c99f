import Akar.ArrowArray
import Akar.Tables

namespace Akar.Unwind

open List ArrowArray

/-- The expressions an UNWIND evaluates; every other one counts as a null, or as an empty list. -/
inductive Expression where
  | null
  | bool (b : Bool)
  | integer (i : Int64)
  | float (bits : UInt64)
  | string (s : String)
  | list (items : List Expression)
  | map (items : List (String × Expression))
  | other

mutual

def exprToValue : Expression → Value
  | .null | .other => .null
  | .bool b => .bool b
  | .integer i => .int64 i
  | .float bits => .double bits
  | .string s => .string s
  | .list items => .list (exprsToValues items)
  | .map items => .map (pairsToValues items)

def exprsToValues : List Expression → List Value
  | [] => []
  | e :: es => exprToValue e :: exprsToValues es

def pairsToValues : List (String × Expression) → List (Value × Value)
  | [] => []
  | (k, e) :: es => (.string k, exprToValue e) :: pairsToValues es

end

def evaluateUnwindExpr : Expression → List Value
  | .list items => exprsToValues items
  | _ => []

/-- `store_value_in_vector` and back, for a value of the type of its column. -/
def carried : Value → Except String Value
  | .string s =>
    if 255 < s.utf8ByteSize then
      .error s!"Cannot store string of {s.utf8ByteSize} bytes: inline string storage limit is 255 bytes"
    else .ok (.string s)
  | .bool b => .ok (.bool b)
  | .int64 v => .ok (.int64 v)
  | .uint64 v => .ok (.uint64 v)
  | .int32 v => .ok (.int32 v)
  | .double v => .ok (.double v)
  | .float v => .ok (.float v)
  | _ => .ok .null

structure Chunk where
  fieldNames : List String
  fieldTypes : List PhysicalTypeID
  rows : List (List Value)

structure OutChunk where
  fieldNames : List String
  rows : List (List Value)

def carriedRow (c : Chunk) (row : List Value) : Except String (List Value) :=
  (List.zipWith PhysicalTypeID.read c.fieldTypes row).mapM carried

def unwindRow (variableName : String) (elements : List Value) (c : Chunk) (row : List Value) :
    Except String OutChunk :=
  (carriedRow c row).map fun vs => ⟨c.fieldNames ++ [variableName], elements.map fun e => vs ++ [e]⟩

def unwound (elements : List Value) (input : List Chunk) : List (List Value) :=
  input.flatMap fun c => c.rows.flatMap fun row => elements.map fun e => row ++ [e]

section Rows

variable {variableName : String} {elements stored : List Value} {c : Chunk}

theorem map_append_inj {vs row : List Value} (hne : elements ≠ []) :
    (stored.map fun e => vs ++ [e]) = (elements.map fun e => row ++ [e]) ↔ vs = row ∧ stored =
      elements := by
  constructor
  · intro h
    induction elements generalizing stored with
    | nil => exact absurd rfl hne
    | cons e elements ih =>
      obtain ⟨s, stored, rfl⟩ : ∃ s rest, stored = s :: rest := by
        cases stored with
        | nil => cases h
        | cons s rest => exact ⟨s, rest, rfl⟩
      obtain ⟨hhead, htail⟩ := cons.inj h
      obtain ⟨rfl, hs⟩ := append_inj' hhead rfl
      refine ⟨rfl, ?_⟩
      rw [(cons.inj hs).1]
      cases elements with
      | nil => rw [map_eq_nil_iff.mp htail]
      | cons => rw [(ih (by simp) htail).2]
  · rintro ⟨rfl, rfl⟩
    rfl

/-- The rows of a chunk come out as they should, and nothing is left to come, exactly when every row
is carried and, if there is one, the column holds the elements. -/
theorem mapM_unwindRow_iff {rows rest : List (List Value)} (hne : elements ≠ [])
    (hlen : stored.length = elements.length) :
    (∃ out, rows.mapM (unwindRow variableName stored c) = .ok out ∧
        out.flatMap (·.rows) = (rows.flatMap fun row => elements.map fun e => row ++ [e]) ++ rest) ↔
      (∀ row ∈ rows, carriedRow c row = .ok row) ∧ (rows = [] ∨ stored = elements) ∧ rest = [] := by
  induction rows with
  | nil => simp [pure, Except.pure, eq_comm]
  | cons row rows ih =>
    rw [mapM_cons, unwindRow, flatMap_cons, append_assoc, forall_mem_cons]
    cases hrow : carriedRow c row with
    | error e => simp [Except.map, bind, Except.bind]
    | ok vs =>
      have hsplit (out : List OutChunk) : (stored.map fun e => vs ++ [e]) ++ out.flatMap (·.rows) =
          (elements.map fun e => row ++ [e]) ++
            ((rows.flatMap fun row => elements.map fun e => row ++ [e]) ++ rest) ↔
          (vs = row ∧ stored = elements) ∧
            out.flatMap (·.rows) = (rows.flatMap fun row => elements.map fun e => row ++ [e]) ++
              rest := by
        rw [← map_append_inj hne]
        exact ⟨fun h => append_inj h (by simp [hlen]), fun ⟨h₁, h₂⟩ => by rw [h₁, h₂]⟩
      cases hrows : rows.mapM (unwindRow variableName stored c) with
      | error e =>
        rw [hrows] at ih
        simp only [reduceCtorEq, false_and, exists_false, false_iff] at ih
        simp only [Except.map, bind, Except.bind, reduceCtorEq, false_and, exists_false, false_iff]
        rintro ⟨⟨-, hall⟩, hstored, hrest⟩
        exact ih ⟨hall, .inr (hstored.resolve_left id), hrest⟩
      | ok out =>
        rw [hrows] at ih
        simp only [Except.ok.injEq, exists_eq_left'] at ih
        simp only [Except.map, bind, Except.bind, pure, Except.pure, Except.ok.injEq, exists_eq_left',
          flatMap_cons, hsplit, ih, reduceCtorEq, false_or]
        tauto

theorem fieldNames_of_mem {rows : List (List Value)} {out : List OutChunk} {d : OutChunk}
    (h : rows.mapM (unwindRow variableName stored c) = .ok out) (hd : d ∈ out) :
    d.fieldNames = c.fieldNames ++ [variableName] := by
  induction rows generalizing out with
  | nil =>
    cases h
    cases hd
  | cons row rows ih =>
    rw [mapM_cons, unwindRow] at h
    cases hrow : carriedRow c row with
    | error => simp [hrow, Except.map, bind, Except.bind] at h
    | ok vs =>
      cases hrows : rows.mapM (unwindRow variableName stored c) with
      | error => simp [hrow, hrows, Except.map, bind, Except.bind] at h
      | ok rest =>
        simp only [hrow, hrows, Except.map, bind, Except.bind, pure, Except.pure, Except.ok.injEq] at h
        subst h
        rcases mem_cons.mp hd with rfl | hd
        · rfl
        · exact ih hrows hd

end Rows

section Operator

variable [Rendering]

/-- What the column of the variable holds of the elements: its type is that of the first one. -/
def elementColumn (elements : List Value) : List Value :=
  buildArrowFromValues (elements.headD .null).physicalType elements

theorem length_elementColumn (elements : List Value) : (elementColumn elements).length =
    elements.length :=
  length_buildArrowFromValues

def execute (variableName : String) (expression : Expression) (input : List Chunk) :
    Except String (List OutChunk) :=
  match evaluateUnwindExpr expression with
  | [] => .ok []
  | first :: items =>
    let elements := elementColumn (first :: items)
    match input with
    | [] => .ok [⟨[variableName], elements.map fun e => [e]⟩]
    | c :: _ => c.rows.mapM (unwindRow variableName elements c)

variable {items : List Value}

theorem elementColumn_lists {vs : List Value} :
    elementColumn (.list vs :: items) = .list vs :: items ↔
      (∀ v ∈ items, v.isNull = true ∨ v.kind = .list) ∧
      (arrowArrayFromValues (childValues (.list vs :: items))).cells =
        childValues (.list vs :: items) := by
  have htype : inferArrowType (.list vs :: items) = .list (inferArrowType vs) := by
    simp [inferArrowType, inferSample, Value.isNull]
  show (arrowArrayFromValues _).cells = _ ↔ _
  rw [cells_list_iff htype, forall_mem_cons]
  simp [Value.kind]

/-- Maps come out of the column as structs. -/
theorem elementColumn_maps {kvs : List (Value × Value)} :
    elementColumn (.map kvs :: items) ≠ .map kvs :: items := by
  intro h
  have hmem : Value.map kvs ∈ (arrowArrayFromValues (.map kvs :: items)).cells := by
    show _ ∈ elementColumn (.map kvs :: items)
    rw [h]
    exact mem_cons_self
  exact not_map_of_mem_cells hmem rfl

end Operator

def ages (rows : List Int64) : Chunk := ⟨["age"], [.int64], rows.map fun v => [.int64 v]⟩

def oneTwo : Expression := .list [.integer 1, .integer 2]

end Akar.Unwind
