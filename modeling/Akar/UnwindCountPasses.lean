import Akar.Unwind

namespace Akar.Unwind.Passes

open List

/-- An argument of an aggregate, a computed one by what its evaluation gives on a chunk. -/
inductive Argument where
  | star
  | variable (name : String)
  | property (base prop : String)
  | nestedProperty (prop : String)
  | computed (values : Chunk → Except String (PhysicalTypeID × List Value))

structure AggregateCall where
  name : String
  args : List Argument

/-- A flat plan's operator over expressions from `ε`; what no pass looks into by what it does to
chunks, also an aggregate that is not a count of all rows. -/
inductive LogicalOperator (ε : Type) where
  | unwind (name : String) (expression : ε)
  | scanRel (tableId : Nat)
  | countRelTable (tableId : Nat)
  | aggregate (calls : List AggregateCall) (groupBy : List ε) (run : List Chunk → Except String (List Chunk))
  | other (run : List Chunk → Except String (List Chunk))

/-- The expressions as an UNWIND sees them, the numbers the standard library parses, and the edges
with their stored number. -/
structure Database (ε : Type) where
  expression : ε → Expression
  parseUsize : String → Option Nat
  edges : Nat → List Chunk
  numRows : Nat → Int64

section Counting

variable (parseUsize : String → Option Nat)

def endingWith (names : List String) (suffix : String) : Option Nat :=
  names.findIdx? fun n => suffix.toList <:+ n.toList

def resolveNameToCol (name : String) (names : List String) : Option Nat :=
  (names.findIdx? (· = name)) <|> ((parseUsize name).filter (· < names.length)) <|> endingWith
    names ("." ++ name)

def resolveAggCol (names : List String) : List Argument → Option Nat
  | [] | .star :: _ => none
  | .variable name :: args => resolveNameToCol parseUsize name names <|> resolveAggCol names args
  | .property base prop :: args =>
    (names.findIdx? (· = base ++ "." ++ prop)) <|> endingWith names ("." ++ prop) <|> resolveAggCol
      names args
  | .nestedProperty _ :: args | .computed _ :: args => resolveAggCol names args

def computedColumn : String := "__akar_agg_arg_0"

def appendComputed (values : Chunk → Except String (PhysicalTypeID × List Value)) (c : Chunk) :
    Except String Chunk :=
  (values c).map fun (t, vs) =>
    ⟨c.fieldNames ++ [computedColumn], c.fieldTypes ++ [t], zipWith (fun row v => row ++ [v]) c.rows vs⟩

namespace AggregateCall

variable (a : AggregateCall)

def distinct : Bool := "_DISTINCT".toList <:+ a.name.toList

def base : List Char := if a.distinct then a.name.toList.take (a.name.length - 9) else a.name.toList

def isStar : Argument → Bool
  | .star => true
  | _ => false

def countsStar : Bool :=
  (a.base = "COUNT".toList ∧ a.args.any isStar) ∨ a.base.map Char.toUpper = "COUNT(*)".toList

def column (col : Nat) (input : List Chunk) : List Value :=
  (input.flatMap (·.rows)).filterMap fun row => (row[col]?).filter (!·.isNull)

def unseen (seen : List Value) (v : Value) : List Value :=
  if seen.any (·.partialEq v) then seen else seen ++ [v]

/-- The rows, the non-null values of a column, or the distinct ones of those that can be read. -/
def counted (args : List Argument) (input : List Chunk) : Nat :=
  match if a.countsStar then none else resolveAggCol parseUsize (input.head?.toList.flatMap (·.fieldNames)) args with
  | none => (input.flatMap (·.rows)).length
  | some col =>
    if a.distinct then
      ((column col (input.map fun c =>
        { c with rows := c.rows.map (zipWith PhysicalTypeID.read c.fieldTypes) })).foldl
        unseen []).length
    else (column col input).length

/-- The number a scalar count gives. A computed argument becomes a column first. -/
def count (input : List Chunk) : Except String Nat := match a.args with
  | [.computed values] =>
    (input.mapM (appendComputed values)).map (a.counted parseUsize [.variable computedColumn])
  | args => .ok (a.counted parseUsize args input)

def outputName : String :=
  let name := String.ofList a.base
  if name = "COUNT" ∧ a.args.any isStar then "COUNT(*)"
  else match a.args with
    | [.variable v] => s!"{name}({v})"
    | [.property b p] => s!"{name}({b}.{p})"
    | [.nestedProperty p] => s!"{name}({p})"
    | [.star] => s!"{name}(*)"
    | _ => name

end AggregateCall

end Counting

section Passes

variable [Rendering] {ε : Type} (db : Database ε)

def items (e : ε) : List Value := evaluateUnwindExpr (db.expression e)

def columnType (first : Value) : PhysicalTypeID := match first.physicalType with
  | .list => .list
  | .struct => .struct
  | t => if t.built then t else .int64

/-- `PhysicalUnwind`: the types are those of the first chunk, and that of the column of the
elements. -/
def physicalUnwind (name : String) (e : ε) (input : List Chunk) : Except String (List Chunk) := do
  let out ← Unwind.execute name (db.expression e) input
  let types := input.head?.toList.flatMap (·.fieldTypes) ++ (items db e).head?.toList.map columnType
  return out.map fun c => ⟨c.fieldNames, types, c.rows⟩

def physicalCountRelTable (tableId : Nat) : List Chunk :=
  [⟨[], [.int64], [[.int64 (db.numRows tableId)]]⟩]

/-- The call of an aggregate that counts all rows: one function, named like a count, and no
groups. -/
def counts (calls : List AggregateCall) (groupBy : List ε) : Option AggregateCall :=
  match calls, groupBy with
  | [a], [] => if "COUNT".toList <:+: a.name.toList.map Char.toUpper then some a else none
  | _, _ => none

def physicalCount (a : AggregateCall) (input : List Chunk) : Except String (List Chunk) :=
  (a.count db.parseUsize input).map fun n => [⟨[a.outputName], [.int64], [[.int64 (.ofNat n)]]⟩]

def LogicalOperator.execute (input : List Chunk) : LogicalOperator ε → Except String (List Chunk)
  | unwind x e => physicalUnwind db x e input
  | scanRel t => .ok (db.edges t)
  | countRelTable t => .ok (physicalCountRelTable db t)
  | aggregate calls gs run =>
    match counts calls gs with
    | some a => physicalCount db a input
    | none => run input
  | other run => run input

def execute (ops : List (LogicalOperator ε)) (input : List Chunk) : Except String (List Chunk) :=
  ops.foldlM (LogicalOperator.execute db) input

def unwindDedup [DecidableEq ε] : Option (String × ε) → List (LogicalOperator ε) →
    List (LogicalOperator ε)
  | _, [] => []
  | last, .unwind x e :: ops =>
    if last = some (x, e) then unwindDedup last ops else .unwind x e :: unwindDedup (some (x, e)) ops
  | _, op :: ops => op :: unwindDedup none ops

def countRelTable : List (LogicalOperator ε) → List (LogicalOperator ε)
  | [] => []
  | .scanRel t :: .aggregate calls gs run :: ops =>
    (if (counts calls gs).isSome then .countRelTable t else .scanRel t) :: .aggregate calls gs
      run :: countRelTable ops
  | op :: ops => op :: countRelTable ops

/-- Only an empty list is unwound into one variable twice in a row. -/
def UnwindsOnce : Option (String × ε) → List (LogicalOperator ε) → Prop
  | _, [] => True
  | last, .unwind x e :: ops => (last = some (x, e) → items db e = []) ∧ UnwindsOnce (some (x, e)) ops
  | _, _ :: ops => UnwindsOnce none ops

/-- A count over edges gives the number that it gives over the one row with their number. -/
def CountsAlike : List (LogicalOperator ε) → Prop
  | [] => True
  | .scanRel t :: .aggregate calls gs _ :: ops =>
    (∀ a ∈ counts calls gs, a.count db.parseUsize (physicalCountRelTable db t) =
      a.count db.parseUsize (db.edges t)) ∧
      CountsAlike ops
  | _ :: ops => CountsAlike ops

variable {db} {ops : List (LogicalOperator ε)} {x : String} {e : ε} {input : List Chunk}

omit [Rendering] in
/-- Without a computed argument no column is found in the row with the number of the edges, and it
counts as one. -/
theorem count_physicalCountRelTable {a : AggregateCall} (t : Nat)
    (ha : ∀ values, a.args ≠ [.computed values]) :
    a.count db.parseUsize (physicalCountRelTable db t) = .ok 1 := by
  have hnone (args : List Argument) : resolveAggCol db.parseUsize [] args = none := by
    induction args with
    | nil => rfl
    | cons arg args ih => cases arg <;> simp [resolveAggCol, resolveNameToCol, endingWith, ih]
  have hcounted (args : List Argument) :
      a.counted db.parseUsize args (physicalCountRelTable db t) = 1 := by
    have hcol : (if a.countsStar then none else
        resolveAggCol db.parseUsize
          ((physicalCountRelTable db t).head?.toList.flatMap (·.fieldNames)) args) = none := by
      split
      · rfl
      · exact hnone args
    unfold AggregateCall.counted
    rw [hcol]
    rfl
  unfold AggregateCall.count
  split
  next values h => exact absurd h (ha values)
  next => rw [hcounted]

theorem physicalUnwind_empty (h : items db e = []) : physicalUnwind db x e input = .ok [] := by
  unfold items at h
  simp only [physicalUnwind, Unwind.execute, h]
  rfl

/-- A second UNWIND adds a column, or makes rows out of none. -/
theorem physicalUnwind_again {out : List Chunk} (h : physicalUnwind db x e input = .ok out) :
    physicalUnwind db x e out = .ok out ↔ items db e = [] := by
  constructor
  · intro hagain
    by_contra hne
    obtain ⟨first, rest, hitems⟩ := exists_cons_of_ne_nil hne
    unfold items at hitems
    cases out with
    | nil =>
      simp [physicalUnwind, Unwind.execute, hitems, bind, Except.bind, pure, Except.pure] at hagain
    | cons c cs =>
      simp only [physicalUnwind, Unwind.execute, hitems] at hagain
      cases hrows : c.rows.mapM (unwindRow x (elementColumn (first :: rest)) c) with
      | error => simp [hrows, bind, Except.bind] at hagain
      | ok rows =>
        simp only [hrows, bind, Except.bind, pure, Except.pure, Except.ok.injEq] at hagain
        obtain ⟨d, rows, rfl⟩ : ∃ d rest, rows = d :: rest := by
          cases rows with
          | nil => cases hagain
          | cons d rest => exact ⟨d, rest, rfl⟩
        have hnames : d.fieldNames = c.fieldNames := congrArg Chunk.fieldNames (cons.inj hagain).1
        rw [fieldNames_of_mem hrows mem_cons_self] at hnames
        simpa using congrArg List.length hnames
  · intro hempty
    rw [physicalUnwind_empty hempty] at h
    obtain rfl := Except.ok.inj h
    exact physicalUnwind_empty hempty

variable {op : LogicalOperator ε}

theorem execute_cons :
    execute db (op :: ops) input = (op.execute db input).bind (execute db ops) :=
  foldlM_cons

theorem execute_cons_congr {ops' : List (LogicalOperator ε)}
    (h : ∀ out, op.execute db input = .ok out → execute db ops' out = execute db ops out) :
    execute db (op :: ops') input = execute db (op :: ops) input := by
  rw [execute_cons, execute_cons]
  cases hop : op.execute db input with
  | error => rfl
  | ok out => exact h out hop

/-- The invariant of the loop: an empty list that was unwound last has left no chunks. -/
theorem execute_unwindDedup [DecidableEq ε] {last : Option (String × ε)} (h : UnwindsOnce db last ops)
    (hlast : ∀ p ∈ last, items db p.2 = [] → input = []) :
    execute db (unwindDedup last ops) input = execute db ops input := by
  induction ops generalizing last input with
  | nil => rfl
  | cons op ops ih =>
    cases op with
    | unwind x e =>
      obtain ⟨honce, hrest⟩ := h
      rw [unwindDedup]
      split
      next hsame =>
        have hempty := honce hsame
        obtain rfl := hlast (x, e) hsame hempty
        rw [ih (hsame ▸ hrest) hlast, execute_cons, LogicalOperator.execute,
          physicalUnwind_empty hempty]
        rfl
      next =>
        refine execute_cons_congr fun out hout => ih hrest fun p hp hempty => ?_
        cases hp
        rw [LogicalOperator.execute, physicalUnwind_empty hempty] at hout
        exact (Except.ok.inj hout).symm
    | scanRel | countRelTable | aggregate | other => exact execute_cons_congr fun _ _ => ih h nofun

theorem execute_countRelTable (h : CountsAlike db ops) :
    execute db (countRelTable ops) input = execute db ops input := by
  induction ops using countRelTable.induct generalizing input with
  | case1 => rfl
  | case2 t calls gs run ops ih =>
    rw [countRelTable]
    split
    next hcounts =>
      obtain ⟨a, ha⟩ := Option.isSome_iff_exists.mp hcounts
      show execute db (.aggregate calls gs run :: countRelTable ops) (physicalCountRelTable db t) =
        execute db (.aggregate calls gs run :: ops) (db.edges t)
      rw [execute_cons_congr fun _ _ => ih h.2, execute_cons, execute_cons]
      simp only [LogicalOperator.execute, ha, physicalCount, h.1 a ha]
    next => exact execute_cons_congr fun _ _ => execute_cons_congr fun _ _ => ih h.2
  | case3 op ops hpair ih =>
    rw [CountsAlike] at h
    · rw [countRelTable]
      · exact execute_cons_congr fun _ _ => ih h
      · exact hpair
    · exact hpair

end Passes

def twoEdges : Database (List Int64) :=
  ⟨fun e => .list (e.map .integer), fun _ => none, fun t => if t = 0 then [ages [1, 2]] else [ages [7]],
    fun t => if t = 0 then 2 else 1⟩

def countStar : LogicalOperator (List Int64) := .aggregate [⟨"COUNT", [.star]⟩] [] .ok

end Akar.Unwind.Passes
