import Akar.ArtNode

namespace Akar

def commonPrefixLen : List UInt8 → List UInt8 → Nat
  | a :: path, b :: key => if a = b then commonPrefixLen path key + 1 else 0
  | _, _ => 0

namespace ArtNode

def newLeaf (path : List UInt8) (rowOffset : Nat) : ArtNode :=
  { newNode4.addOffset rowOffset with path := path }

/-- The node below a split: the rest of the path, with the children and offsets of the node that is
split. -/
def existingChild (node : ArtNode) (common : Nat) : ArtNode := node.allOffsets.foldl addOffset
    ⟨node.path.drop (common + 1), [], [], Children.transfer node.children.pairs (.node4 [])⟩

/-- `split_node`, which reads the byte of the key after the common part and panics if there is
none. -/
def splitNode (node : ArtNode) (common : Nat) (key : List UInt8) (rowOffset : Nat) : Option ArtNode :=
  match node.path[common]?, key[common]? with
  | some existingByte, some newByte =>
    some ⟨node.path.take common, [], [],
      (node.children.clear.insert existingByte (node.existingChild common)).insert newByte
        (newLeaf (key.drop (common + 1)) rowOffset)⟩
  | _, _ => none

variable {node child : ArtNode} {b : UInt8}

theorem sizeOf_child (h : node.children.get b = some child) :
    sizeOf child < sizeOf node := by
  have hlt := Children.sizeOf_lt_of_get h
  cases node
  simp only [mk.sizeOf_spec] at *
  omega

theorem sizeOf_ordered (h : (b, child) ∈ node.children.ordered) :
    sizeOf child < sizeOf node := by
  have hlt := Children.sizeOf_lt_of_ordered h
  cases node
  simp only [mk.sizeOf_spec] at *
  omega

/-- `insert_internal`; `none` is a panic. -/
def insertInternal (node : ArtNode) (key : List UInt8) (rowOffset numEntries : Nat) :
    Option (ArtNode × Nat) :=
  let common := commonPrefixLen node.path key
  if common < node.path.length then
    (node.splitNode common key rowOffset).map fun node => (node, numEntries + 1)
  else
    match key.drop node.path.length with
    | [] => some (node.addOffset rowOffset, numEntries + 1)
    | byte :: rest =>
      match hchild : node.children.get byte with
      | none =>
        some ({ node with children := node.children.insert byte (newLeaf rest rowOffset) },
          numEntries + 1)
      | some child =>
        match insertInternal child rest rowOffset numEntries with
        | some (child, numEntries) =>
          some ({ node with children := node.children.set byte child }, numEntries)
        | none => none
termination_by node
decreasing_by exact sizeOf_child hchild

def eraseInternal (node : ArtNode) (key : List UInt8) (rowOffset : Nat) : ArtNode × Bool :=
  if node.path <+: key then
    match key.drop node.path.length with
    | [] => node.removeOffset rowOffset
    | byte :: rest =>
      match _hchild : node.children.get byte with
      | none => (node, false)
      | some child =>
        let result := eraseInternal child rest rowOffset
        ({ node with children := node.children.set byte result.1 }, result.2)
  else (node, false)
termination_by node
decreasing_by exact sizeOf_child _hchild

/-- The loop of `lookup`: the node at which the key ends. -/
def find (node : ArtNode) (key : List UInt8) : Option ArtNode := if node.path <+: key then
    match key.drop node.path.length with
    | [] => some node
    | byte :: rest =>
      match _hchild : node.children.get byte with
      | none => none
      | some child => find child rest
  else none
termination_by node
decreasing_by exact sizeOf_child _hchild

end ArtNode

def satisfiesLower : List UInt8 → List UInt8 → Bool → Bool
  | [], [], inclusive => inclusive
  | [], _ :: _, _ => false
  | _ :: _, [], _ => true
  | a :: key, b :: lower, inclusive =>
    if a < b then false else if b < a then true else satisfiesLower key lower inclusive

def satisfiesUpper : List UInt8 → List UInt8 → Bool → Bool
  | [], [], inclusive => inclusive
  | [], _ :: _, _ => true
  | _ :: _, [], _ => false
  | a :: key, b :: upper, inclusive =>
    if b < a then false else if a < b then true else satisfiesUpper key upper inclusive

structure RangeQuery where
  lower : Option (List UInt8)
  lowerInclusive : Bool
  upper : Option (List UInt8)
  upperInclusive : Bool
  maxResults : Nat

namespace RangeQuery

def satisfiesLowerBound (q : RangeQuery) (key : List UInt8) : Bool := match q.lower with
  | none => true
  | some lower => satisfiesLower key lower q.lowerInclusive

def satisfiesUpperBound (q : RangeQuery) (key : List UInt8) : Bool := match q.upper with
  | none => true
  | some upper => satisfiesUpper key upper q.upperInclusive

def push (q : RangeQuery) (offsets results : List Nat) : List Nat :=
  offsets.foldl (fun results offset => if q.maxResults ≤
    results.length then results else results ++ [offset]) results

end RangeQuery

def ArtNode.collectRange (q : RangeQuery) (node : ArtNode) (key : List UInt8)
    (results : List Nat) : List Nat :=
  if q.maxResults ≤ results.length then results
  else
    let here := key ++ node.path
    let results :=
      if node.hasOffsets && q.satisfiesLowerBound here && q.satisfiesUpperBound here then q.push
        node.allOffsets results
      else results
    node.children.ordered.attach.foldl
      (fun results entry =>
        if q.maxResults ≤ results.length then results
        else if q.satisfiesUpperBound (here ++ [entry.1.1]) then
          collectRange q entry.1.2 (here ++ [entry.1.1]) results
        else results)
      results
termination_by node
decreasing_by exact sizeOf_ordered entry.2

structure ArtPrimaryKeyIndex where
  root : ArtNode
  numEntries : Nat

namespace ArtPrimaryKeyIndex

def new : ArtPrimaryKeyIndex := ⟨.newNode4, 0⟩

def len (ix : ArtPrimaryKeyIndex) : Nat := ix.numEntries

def insert (ix : ArtPrimaryKeyIndex) (key : List UInt8) (rowOffset : Nat) : Option ArtPrimaryKeyIndex :=
  if key = [] then some ix
  else (ix.root.insertInternal key rowOffset ix.numEntries).map fun result => ⟨result.1, result.2⟩

def lookup (ix : ArtPrimaryKeyIndex) (key : List UInt8) : Option Nat :=
  if key = [] then none else (ix.root.find key).bind (·.allOffsets.head?)

def delete (ix : ArtPrimaryKeyIndex) (key : List UInt8) (rowOffset : Nat) : ArtPrimaryKeyIndex :=
  if key = [] then ix
  else
    let result := ix.root.eraseInternal key rowOffset
    ⟨result.1, if result.2 then ix.numEntries - 1 else ix.numEntries⟩

def rangeScan (ix : ArtPrimaryKeyIndex) (q : RangeQuery) : List Nat := ix.root.collectRange q [] []

end ArtPrimaryKeyIndex

end Akar
