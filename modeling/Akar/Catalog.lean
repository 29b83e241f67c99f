import Akar.Compression

namespace Akar

open Function

structure CatalogColumn where
  name : String
  logicalType : LogicalTypeID
  isPrimaryKey : Bool
  compression : CompressionType
  defaultValue : Option (List UInt8)
  deriving DecidableEq, Repr

inductive IndexType where
  | hash
  | art
  deriving DecidableEq, Repr

structure SecondaryIndexEntry where
  name : String
  column : String
  indexType : IndexType
  deriving DecidableEq, Repr

structure NodeTableEntry where
  tableId : Nat
  name : String
  columns : List CatalogColumn
  primaryKeyColumn : Nat
  indexType : Option IndexType
  indexName : Option String
  indexColumn : Option String
  secondaryIndexes : List SecondaryIndexEntry
  deriving DecidableEq, Repr

structure RelTableEntry where
  tableId : Nat
  name : String
  srcTableId : Nat
  dstTableId : Nat
  columns : List CatalogColumn
  deriving DecidableEq, Repr

structure VectorIndexEntry where
  indexId : Nat
  name : String
  tableName : String
  columnName : String
  metric : String
  dimensions : Nat
  deriving DecidableEq, Repr

structure SequenceEntry where
  sequenceId : Nat
  name : String
  startValue : Int
  increment : Int
  minValue : Int
  maxValue : Int
  cycle : Bool
  deriving DecidableEq, Repr

structure ForeignTableEntry where
  tableId : Nat
  name : String
  columns : List CatalogColumn
  sourceType : String
  deriving DecidableEq, Repr

structure ScalarMacroEntry where
  macroId : Nat
  name : String
  positionalArgs : List String
  defaultArgs : List (String × String)
  expression : String
  deriving DecidableEq, Repr

structure FtsIndexEntry where
  name : String
  tableName : String
  columnName : String
  deriving DecidableEq, Repr

inductive CatalogEntry where
  | nodeTable (t : NodeTableEntry)
  | relTable (t : RelTableEntry)
  | vectorIndex (v : VectorIndexEntry)
  | sequence (s : SequenceEntry)
  | foreign (f : ForeignTableEntry)
  | scalarMacro (m : ScalarMacroEntry)
  deriving DecidableEq, Repr

namespace CatalogEntry

def name : CatalogEntry → String
  | nodeTable t => t.name
  | relTable t => t.name
  | vectorIndex v => v.name
  | sequence s => s.name
  | foreign f => f.name
  | scalarMacro m => m.name

def tableId : CatalogEntry → Nat
  | nodeTable t => t.tableId
  | relTable t => t.tableId
  | vectorIndex v => v.indexId
  | sequence s => s.sequenceId
  | foreign f => f.tableId
  | scalarMacro m => m.macroId

def columns : CatalogEntry → List CatalogColumn
  | nodeTable t => t.columns
  | relTable t => t.columns
  | foreign f => f.columns
  | vectorIndex _ | sequence _ | scalarMacro _ => []

def rename (newName : String) : CatalogEntry → CatalogEntry
  | nodeTable t => nodeTable { t with name := newName }
  | relTable t => relTable { t with name := newName }
  | vectorIndex v => vectorIndex { v with name := newName }
  | sequence s => sequence { s with name := newName }
  | foreign f => foreign { f with name := newName }
  | scalarMacro m => scalarMacro { m with name := newName }

end CatalogEntry

inductive CatalogError where
  | notFound (message : String)
  | alreadyExists (message : String)
  | columnNotFound (table column : String)
  | columnAlreadyExists (table column : String)
  | invalidOperation (message : String)
  deriving DecidableEq, Repr

inductive CatalogResult where
  | created (tableId : Nat)
  | dropped (tableId : Nat)
  | notFound
  | alreadyExists
  deriving DecidableEq, Repr

class CaseMapping where
  toUppercase : String → String
  toLowercase : String → String

structure Catalog where
  entries : Nat → Option CatalogEntry
  nameToId : String → Option Nat
  nextId : Nat
  version : Nat
  ftsIndexes : String → Option FtsIndexEntry
  /-- By lower-case name, with the id, the name and the type it stands for. -/
  typeAliases : String → Option (Nat × String × String)

def usizeMax : Nat := 2 ^ 64 - 1

def primaryKeyPosition (columns : List CatalogColumn) : Nat :=
  (columns.findIdx? (·.isPrimaryKey)).getD usizeMax

def eqIgnoreAsciiCase (a b : String) : Bool := a.toList.map Char.toLower = b.toList.map Char.toLower

namespace Catalog

def new : Catalog := ⟨fun _ => none, fun _ => none, 0, 0, fun _ => none, fun _ => none⟩

def bumpVersion (cat : Catalog) : Catalog := { cat with version := cat.version + 1 }

def bumped (r : Catalog × CatalogResult) : Catalog × CatalogResult := match r.2 with
  | .created _ | .dropped _ => (r.1.bumpVersion, r.2)
  | .notFound | .alreadyExists => r

/-- What every `create_*` shares: the next id, filed under the key unless the key is taken. -/
def createEntry (cat : Catalog) (key : String) (entry : Nat → CatalogEntry) : Catalog × CatalogResult :=
  if (cat.nameToId key).isSome then (cat, .alreadyExists)
  else
    ({ cat with
        entries := update cat.entries cat.nextId (some (entry cat.nextId))
        nameToId := update cat.nameToId key (some cat.nextId)
        nextId := cat.nextId + 1 },
      .created cat.nextId)

/-- What every `drop_*` shares; the kind of the entry is not looked at. -/
def dropEntry (cat : Catalog) (key : String) : Catalog × CatalogResult := match cat.nameToId key with
  | some id =>
    ({ cat with
        entries := update cat.entries id none
        nameToId := update cat.nameToId key none },
      .dropped id)
  | none => (cat, .notFound)

def createNodeTable (cat : Catalog) (name : String) (columns : List CatalogColumn) :
    Catalog × CatalogResult :=
  bumped (cat.createEntry name fun id =>
    .nodeTable ⟨id, name, columns, primaryKeyPosition columns, none, none, none, []⟩)

def createRelTable (cat : Catalog) (name : String) (srcTableId dstTableId : Nat)
    (columns : List CatalogColumn) :
    Catalog × CatalogResult :=
  bumped (cat.createEntry name fun id => .relTable ⟨id, name, srcTableId, dstTableId, columns⟩)

def createVectorIndex (cat : Catalog) (name tableName columnName metric : String)
    (dimensions : Nat) : Catalog × CatalogResult :=
  -- the name is looked at before the table
  if (cat.nameToId name).isNone ∧ (cat.nameToId tableName).isNone then (cat, .notFound)
  else cat.createEntry name fun id => .vectorIndex ⟨id, name, tableName, columnName, metric, dimensions⟩

def registerFtsIndex (cat : Catalog) (name tableName columnName : String) :
    Except CatalogError Catalog :=
  if (cat.ftsIndexes name).isSome then .error
    (.invalidOperation ("FTS index '" ++ name ++ "' already exists"))
  else .ok { cat with ftsIndexes := update cat.ftsIndexes name (some ⟨name, tableName, columnName⟩) }

def createSequence (cat : Catalog) (name : String) (startValue increment minValue maxValue : Int)
    (cycle : Bool) :
    Catalog × CatalogResult :=
  bumped (cat.createEntry name fun id => .sequence ⟨id, name, startValue, increment, minValue,
    maxValue, cycle⟩)

def createMacro [CaseMapping] (cat : Catalog) (name : String) (positionalArgs : List String)
    (defaultArgs : List (String × String)) (expression : String) : Catalog × CatalogResult :=
  bumped (cat.createEntry (CaseMapping.toUppercase name) fun id =>
    .scalarMacro ⟨id, name, positionalArgs, defaultArgs, expression⟩)

def createForeignTable (cat : Catalog) (name : String) (columns : List CatalogColumn)
    (sourceType : String) :
    Catalog × CatalogResult :=
  cat.createEntry name fun id => .foreign ⟨id, name, columns, sourceType⟩

def createTypeAlias [CaseMapping] (cat : Catalog) (name typeName : String) :
    Except CatalogError Catalog :=
  let key := CaseMapping.toLowercase name
  if (cat.typeAliases key).isSome then .error (.alreadyExists ("type alias '" ++ name ++ "'"))
  else
    .ok ({ cat with
      typeAliases := update cat.typeAliases key (some (cat.nextId, name, typeName))
      nextId := cat.nextId + 1 }).bumpVersion

def dropTable (cat : Catalog) (name : String) : Catalog × CatalogResult := bumped (cat.dropEntry name)

def dropSequence (cat : Catalog) (name : String) : Catalog × CatalogResult := cat.dropEntry name

def dropMacro [CaseMapping] (cat : Catalog) (name : String) : Catalog × CatalogResult :=
  cat.dropEntry (CaseMapping.toUppercase name)

def dropForeignTable (cat : Catalog) (name : String) : Catalog × CatalogResult := cat.dropEntry name

def getEntryByName (cat : Catalog) (name : String) : Option CatalogEntry :=
  (cat.nameToId name).bind cat.entries

/-- An edit of the entry behind the name; a failed edit leaves the catalog as it was. -/
def editEntry (cat : Catalog) (tableName : String)
    (edit : CatalogEntry → Except CatalogError CatalogEntry) :
    Except CatalogError Catalog :=
  match cat.nameToId tableName with
  | none => .error (.notFound ("Table '" ++ tableName ++ "' not found"))
  | some id =>
    match cat.entries id with
    | none => .error (.notFound ("Table '" ++ tableName ++ "' not found"))
    | some entry =>
      match edit entry with
      | .ok edited => .ok { cat with entries := update cat.entries id (some edited) }
      | .error e => .error e

/-- An edit of the columns of a node or rel table; `does` names it for the entries that have
none. -/
def editColumns (does : String) (edit : List CatalogColumn → Except CatalogError (List CatalogColumn)) :
    CatalogEntry → Except CatalogError CatalogEntry
  | .nodeTable t => (edit t.columns).map fun columns => .nodeTable { t with columns := columns }
  | .relTable t => (edit t.columns).map fun columns => .relTable { t with columns := columns }
  | .vectorIndex _ => .error (.invalidOperation ("Cannot " ++ does ++ " a vector index"))
  | .sequence _ => .error (.invalidOperation ("Cannot " ++ does ++ " a sequence"))
  | .foreign _ => .error (.invalidOperation ("Cannot " ++ does ++ " a foreign table"))
  | .scalarMacro _ => .error (.invalidOperation ("Cannot " ++ does ++ " a macro"))

def pushColumn (tableName : String) (column : CatalogColumn) (columns : List CatalogColumn) :
    Except CatalogError (List CatalogColumn) :=
  if columns.any fun c => eqIgnoreAsciiCase c.name column.name then .error
    (.columnAlreadyExists tableName column.name)
  else .ok (columns ++ [column])

def addColumn (cat : Catalog) (tableName : String) (column : CatalogColumn) :
    Except CatalogError Catalog :=
  cat.editEntry tableName (editColumns "add column to" (pushColumn tableName column))

def removeColumn (tableName columnName : String) (columns : List CatalogColumn) :
    Except CatalogError (List CatalogColumn) :=
  match columns.findIdx? (·.name = columnName) with
  | some pos => .ok (columns.eraseIdx pos)
  | none => .error (.columnNotFound tableName columnName)

def dropColumn (cat : Catalog) (tableName columnName : String) : Except CatalogError Catalog :=
  cat.editEntry tableName (editColumns "drop column from" (removeColumn tableName columnName))

def renameFirst (oldName newName : String) : List CatalogColumn → List CatalogColumn
  | [] => []
  | c :: columns =>
    if c.name = oldName then { c with name := newName } :: columns else c :: renameFirst oldName
    newName columns

def renameColumn (cat : Catalog) (tableName oldName newName : String) : Except CatalogError Catalog :=
  cat.editEntry tableName fun entry =>
    if ¬entry.columns.any (·.name = oldName) then .error (.columnNotFound tableName oldName)
    else if entry.columns.any (·.name = newName) then .error (.columnAlreadyExists tableName newName)
    else editColumns "rename column on" (fun columns => .ok (renameFirst oldName newName columns)) entry

def createIndex (cat : Catalog) (tableName indexName : String) (indexType : IndexType)
    (columnName : String) (ifNotExists : Bool) : Except CatalogError Catalog :=
  cat.editEntry tableName fun entry =>
    match entry with
    | .nodeTable t =>
      if ¬t.columns.any (·.name = columnName) then .error (.columnNotFound tableName columnName)
      else if (t.columns[t.primaryKeyColumn]?).map (·.name) = some columnName then
        .error (.invalidOperation ("Cannot create index on primary key column '" ++ columnName ++
          "'. Secondary indexes must be on non-PK properties."))
      else
        match t.secondaryIndexes.find? (·.name = indexName) with
        | some existing =>
          if ifNotExists then .ok entry
          else .error (.invalidOperation ("Index '" ++ indexName ++
            "' already exists on table '" ++ tableName ++
            "' (column '" ++ existing.column ++ "')"))
        | none =>
          match t.secondaryIndexes.find? (·.column = columnName) with
          | some existing =>
            if ifNotExists then .ok entry
            else .error (.invalidOperation ("Column '" ++ columnName ++ "' of table '" ++ tableName ++
              "' is already indexed by '" ++ existing.name ++ "'"))
          | none =>
            .ok (.nodeTable
            { t with secondaryIndexes := t.secondaryIndexes ++ [⟨indexName, columnName, indexType⟩] })
    | _ => .error (.invalidOperation ("Table '" ++ tableName ++ "' is not a node table"))

def dropIndex (cat : Catalog) (tableName indexName : String) : Except CatalogError Catalog :=
  cat.editEntry tableName fun entry =>
    match entry with
    | .nodeTable t =>
      let kept := t.secondaryIndexes.filter (·.name ≠ indexName)
      if kept.length ≠ t.secondaryIndexes.length then .ok
        (.nodeTable { t with secondaryIndexes := kept })
      else if t.indexName = some indexName then
        .ok (.nodeTable { t with indexType := none, indexName := none, indexColumn := none })
      else .error (.notFound ("Index '" ++ indexName ++ "' not found on table '" ++ tableName ++ "'"))
    | _ => .error (.invalidOperation ("Table '" ++ tableName ++ "' is not a node table"))

def moveEntry (cat : Catalog) (id : Nat) (entry : CatalogEntry) (oldName newName : String) :
    Catalog := { cat with
    entries := update cat.entries id (some (entry.rename newName))
    nameToId := update (update cat.nameToId oldName none) newName (some id) }

def renameTable (cat : Catalog) (oldName newName : String) : Except CatalogError Catalog :=
  match cat.nameToId oldName with
  | none => .error (.notFound ("Table '" ++ oldName ++ "' not found"))
  | some id =>
    if (cat.nameToId newName).isSome then .error
      (.alreadyExists ("Table '" ++ newName ++ "' already exists"))
    else
      match cat.entries id with
      | some (.vectorIndex _) => .error (.invalidOperation "Use rename method for vector indexes")
      | some entry => .ok (cat.moveEntry id entry oldName newName)
      | none => .error (.notFound "Table not found")

/-- `rename`, which takes vector indexes too. -/
def rename (cat : Catalog) (oldName newName : String) : Catalog × CatalogResult :=
  match cat.nameToId oldName with
  | none => (cat, .notFound)
  | some id =>
    if (cat.nameToId newName).isSome then (cat, .alreadyExists)
    else
      match cat.entries id with
      | some entry => (cat.moveEntry id entry oldName newName, .created id)
      | none =>
        ({ cat with nameToId := update (update cat.nameToId oldName none) newName (some id) }, .created id)

/-- Called by `ATTACH`: the entry brings its own id and name, and neither is looked up. -/
def addForeignEntry (cat : Catalog) (entry : ForeignTableEntry) : Catalog := { cat with
    nameToId := update cat.nameToId entry.name (some entry.tableId)
    entries := update cat.entries entry.tableId (some (.foreign entry))
    nextId := cat.nextId + 1 }

def removeForeignEntry (cat : Catalog) (attached : String) : Except CatalogError Catalog :=
  match cat.nameToId attached with
  | none => .error (.notFound ("Attached database '" ++ attached ++ "' not found"))
  | some id =>
    match cat.entries id with
    | some (.foreign _) =>
      .ok { cat with
        nameToId := update cat.nameToId attached none
        entries := update cat.entries id none }
    | _ => .error (.invalidOperation ("'" ++ attached ++ "' is not an attached database"))

end Catalog

inductive CatalogCall where
  | createNodeTable (name : String) (columns : List CatalogColumn)
  | createRelTable (name : String) (srcTableId dstTableId : Nat) (columns : List CatalogColumn)
  | createVectorIndex (name tableName columnName metric : String) (dimensions : Nat)
  | registerFtsIndex (name tableName columnName : String)
  | createSequence (name : String) (startValue increment minValue maxValue : Int) (cycle : Bool)
  | createMacro (name : String) (positionalArgs : List String) (defaultArgs : List (String × String)) (expression : String)
  | createForeignTable (name : String) (columns : List CatalogColumn) (sourceType : String)
  | createTypeAlias (name typeName : String)
  | dropTable (name : String)
  | dropSequence (name : String)
  | dropMacro (name : String)
  | dropForeignTable (name : String)
  | addColumn (tableName : String) (column : CatalogColumn)
  | dropColumn (tableName columnName : String)
  | renameColumn (tableName oldName newName : String)
  | createIndex (tableName indexName : String) (indexType : IndexType) (columnName : String) (ifNotExists : Bool)
  | dropIndex (tableName indexName : String)
  | renameTable (oldName newName : String)
  | rename (oldName newName : String)
  | addForeignEntry (entry : ForeignTableEntry)
  | removeForeignEntry (attached : String)

namespace Catalog

def accepted (cat : Catalog) : Except CatalogError Catalog → Catalog
  | .ok next => next
  | .error _ => cat

def call [CaseMapping] (cat : Catalog) : CatalogCall → Catalog
  | .createNodeTable name columns => (cat.createNodeTable name columns).1
  | .createRelTable name srcTableId dstTableId columns =>
    (cat.createRelTable name srcTableId dstTableId columns).1
  | .createVectorIndex name tableName columnName metric dimensions =>
    (cat.createVectorIndex name tableName columnName metric dimensions).1
  | .registerFtsIndex name tableName columnName =>
    cat.accepted (cat.registerFtsIndex name tableName columnName)
  | .createSequence name startValue increment minValue maxValue cycle =>
    (cat.createSequence name startValue increment minValue maxValue cycle).1
  | .createMacro name positionalArgs defaultArgs expression =>
    (cat.createMacro name positionalArgs defaultArgs expression).1
  | .createForeignTable name columns sourceType => (cat.createForeignTable name columns sourceType).1
  | .createTypeAlias name typeName => cat.accepted (cat.createTypeAlias name typeName)
  | .dropTable name => (cat.dropTable name).1
  | .dropSequence name => (cat.dropSequence name).1
  | .dropMacro name => (cat.dropMacro name).1
  | .dropForeignTable name => (cat.dropForeignTable name).1
  | .addColumn tableName column => cat.accepted (cat.addColumn tableName column)
  | .dropColumn tableName columnName => cat.accepted (cat.dropColumn tableName columnName)
  | .renameColumn tableName oldName newName => cat.accepted (cat.renameColumn tableName oldName newName)
  | .createIndex tableName indexName indexType columnName ifNotExists =>
    cat.accepted (cat.createIndex tableName indexName indexType columnName ifNotExists)
  | .dropIndex tableName indexName => cat.accepted (cat.dropIndex tableName indexName)
  | .renameTable oldName newName => cat.accepted (cat.renameTable oldName newName)
  | .rename oldName newName => (cat.rename oldName newName).1
  | .addForeignEntry entry => cat.addForeignEntry entry
  | .removeForeignEntry attached => cat.accepted (cat.removeForeignEntry attached)

end Catalog

end Akar
