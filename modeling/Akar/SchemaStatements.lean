import Akar.CatalogConsistency
import Akar.NodeTable

namespace Akar

open List Function Catalog

structure SchemaStore where
  nextTableId : Nat
  nodeNameToId : String → Option Nat
  nodeTables : Nat → Option NodeSchema

namespace SchemaStore

def new : SchemaStore := ⟨0, fun _ => none, fun _ => none⟩

def getNodeTableByName (store : SchemaStore) (name : String) : Option NodeSchema :=
  (store.nodeNameToId name).bind store.nodeTables

def createNodeTable (store : SchemaStore) (name : String) (columns : List ColumnDefinition) :
    SchemaStore where
  nextTableId := store.nextTableId + 1
  nodeNameToId := update store.nodeNameToId name (some store.nextTableId)
  nodeTables := update store.nodeTables store.nextTableId
    (some ⟨store.nextTableId, name, columns, (columns.findIdx? (·.isPrimaryKey)).getD noPrimaryKey⟩)

def dropNodeTable (store : SchemaStore) (name : String) : SchemaStore :=
  match store.nodeNameToId name with
  | some id =>
    { store with
      nodeNameToId := update store.nodeNameToId name none
      nodeTables := update store.nodeTables id none }
  | none => store

def widen (t : NodeSchema) (column : ColumnDefinition) : NodeSchema :=
  if t.columns.any fun c =>
    eqIgnoreAsciiCase c.name column.name then t else { t with columns := t.columns ++ [column] }

def addColumn (store : SchemaStore) (tableName : String) (column : ColumnDefinition) : SchemaStore :=
  match store.nodeNameToId tableName with
  | some id =>
    { store with nodeTables := update store.nodeTables id ((store.nodeTables id).map (widen · column)) }
  | none => store

end SchemaStore

inductive SchemaStatement where
  | createNodeTable (name : String) (columns : List (String × LogicalTypeID × CompressionType)) (primaryKey : String)
      (ifNotExists : Bool)
  | addColumn (tableName name : String) (logicalType : LogicalTypeID)
  | dropColumn (tableName name : String)
  | renameColumn (tableName oldName newName : String)
  | renameTable (tableName newName : String)
  | dropTable (name : String)

structure SchemaState where
  catalog : Catalog
  store : SchemaStore

namespace SchemaState

def new : SchemaState := ⟨.new, .new⟩

def catalogColumns (columns : List (String × LogicalTypeID × CompressionType))
    (primaryKey : String) : List CatalogColumn :=
  columns.map fun c => ⟨c.1, c.2.1, c.1 = primaryKey, c.2.2, none⟩

def columnDefinitions (columns : List CatalogColumn) : List ColumnDefinition :=
  columns.map fun c => ⟨c.name, c.logicalType, c.isPrimaryKey⟩

def serialName (tableName columnName : String) : String := tableName ++ "_" ++ columnName ++ "_serial"

def createSerialSequence (tableName : String) (cat : Catalog) (column : CatalogColumn) : Catalog :=
  if column.logicalType =
    .serial then (cat.createSequence (serialName tableName column.name) 0 1 0 (2 ^ 63 - 1)
    false).1 else cat

def createStored (db : SchemaState) (name : String) (columns : List CatalogColumn) : SchemaState where
  catalog := columns.foldl (createSerialSequence name) db.catalog
  store := db.store.createNodeTable name (columnDefinitions columns)

def serialColumns (cat : Catalog) (name : String) : List String :=
  (range cat.nextId).flatMap fun id =>
    match cat.entries id with
    | some (.nodeTable t) =>
      if t.name = name then (t.columns.filter (·.logicalType = .serial)).map (·.name) else []
    | _ => []

def dropStored (db : SchemaState) (name : String) : SchemaState where
  catalog := (((serialColumns db.catalog name).foldl (fun cat c =>
    (cat.dropSequence (serialName name c)).1) db.catalog).dropTable name).1
  store := db.store.dropNodeTable name

/-- One statement through the connection. The binder edits the catalog for `CREATE` and `DROP TABLE`
before the check that may refuse them: `refused` is a read-only database or an open transaction. -/
def execute (db : SchemaState) (refused : Bool) : SchemaStatement → SchemaState
  | .createNodeTable name columns primaryKey ifNotExists =>
    let bound := catalogColumns columns primaryKey
    if name = "" ∨ bound = [] ∨ ¬bound.any (·.isPrimaryKey) then db
    else
      let created := db.catalog.createNodeTable name bound
      if created.2 = .alreadyExists ∧ ¬ifNotExists then db
      else
        let db : SchemaState := { db with catalog := created.1 }
        if refused then db
        else if ifNotExists ∧ (db.store.getNodeTableByName name).isSome then db
        else db.createStored name bound
  | .addColumn tableName name logicalType =>
    if refused then db
    else
      match db.catalog.addColumn tableName ⟨name, logicalType, false, .uncompressed, none⟩ with
      | .ok catalog => ⟨catalog, db.store.addColumn tableName ⟨name, logicalType, false⟩⟩
      | .error _ => db
  | .dropColumn tableName name =>
    if refused then db else { db with catalog := db.catalog.accepted (db.catalog.dropColumn tableName name) }
  | .renameColumn tableName oldName newName =>
    -- the binder compares the new name without regard to case
    if refused ∨ ((db.catalog.getEntryByName tableName).map fun e =>
      e.columns.any (eqIgnoreAsciiCase ·.name newName)) = some true
    then db
    else { db with catalog := db.catalog.accepted (db.catalog.renameColumn tableName oldName newName) }
  | .renameTable tableName newName =>
    if refused then db else { db with catalog := db.catalog.accepted (db.catalog.renameTable tableName newName) }
  | .dropTable name =>
    let dropped := db.catalog.dropTable name
    if dropped.2 = .notFound then db
    else
      let db : SchemaState := { db with catalog := dropped.1 }
      if refused then db else db.dropStored name

def step (db : SchemaState) (s : SchemaStatement × Bool) : Option SchemaState :=
  some (db.execute s.2 s.1)

/-- Every node table of the catalog is the storage's table of that name and id, and both list the
same columns in the same order. -/
def Agrees (db : SchemaState) : Prop := ∀ id t, db.catalog.entries id = some (.nodeTable t) →
    ∃ s, db.store.nodeTables id = some s ∧ db.store.getNodeTableByName t.name = some s ∧
      s.columns.map (·.name) = t.columns.map (·.name)

def Careful (_ : SchemaState) (s : SchemaStatement × Bool) : Prop := match s.1 with
  | .createNodeTable _ columns _ _ => s.2 = false ∧ ∀ c ∈ columns, c.2.1 ≠ .serial
  | .dropTable _ => s.2 = false
  | .addColumn .. => True
  | .dropColumn .. | .renameColumn .. | .renameTable .. => s.2 = true

def catalogView (cat : Catalog) (id : Nat) : Option (String × List String) :=
  (cat.entries id).map fun e => (e.name, e.columns.map (·.name))

def storeView (store : SchemaStore) (id : Nat) : Option (String × List String) :=
  (store.nodeTables id).map fun s => (s.name, s.columns.map (·.name))

structure Mirrored (db : SchemaState) : Prop where
  consistent : db.catalog.Consistent
  nodes : ∀ id e, db.catalog.entries id = some e → ∃ t, e = .nodeTable t
  nextId : db.catalog.nextId = db.store.nextTableId
  names : db.catalog.nameToId = db.store.nodeNameToId
  views : ∀ id, catalogView db.catalog id = storeView db.store id

section Steps

variable {db : SchemaState} {name tableName : String}

theorem mirrored_new : new.Mirrored where
  consistent := consistent_new
  nodes id e h := by cases h
  nextId := rfl
  names := rfl
  views _ := rfl

variable {id : Nat}

theorem Mirrored.stored (h : db.Mirrored) {e : CatalogEntry} (he : db.catalog.entries id = some e) :
    ∃ s, db.store.nodeTables id = some s ∧ s.name = e.name ∧ s.columns.map (·.name) =
      e.columns.map (·.name) := by
  have hview := h.views id
  unfold catalogView storeView at hview
  rw [he] at hview
  cases hs : db.store.nodeTables id with
  | none =>
    rw [hs] at hview
    cases hview
  | some s =>
    rw [hs] at hview
    have hpair := Option.some.inj hview
    exact ⟨s, rfl, (congrArg Prod.fst hpair).symm, (congrArg Prod.snd hpair).symm⟩

theorem Mirrored.agrees (h : db.Mirrored) : db.Agrees := by
  intro id t ht
  obtain ⟨s, hs, -, hcolumns⟩ := h.stored ht
  refine ⟨s, hs, ?_, hcolumns⟩
  have hnamed : db.catalog.nameToId t.name = some id := h.consistent.named id _ ht
  unfold SchemaStore.getNodeTableByName
  rw [← h.names, hnamed]
  exact hs

variable {columns : List CatalogColumn} {cat : Catalog}

theorem foldl_createSerialSequence (h : ∀ c ∈ columns, c.logicalType ≠ .serial) :
    columns.foldl (createSerialSequence name) cat = cat := by
  induction columns with
  | nil => rfl
  | cons c columns ih =>
    rw [forall_mem_cons] at h
    rw [foldl_cons]
    unfold createSerialSequence
    rw [if_neg h.1]
    exact ih h.2

theorem names_columnDefinitions : (columnDefinitions columns).map (·.name) = columns.map (·.name) := by
  unfold columnDefinitions
  rw [map_map]
  rfl

theorem Mirrored.create (h : db.Mirrored) (hfree : db.catalog.nameToId name = none) :
    SchemaState.Mirrored ⟨(db.catalog.createNodeTable name columns).1,
      db.store.createNodeTable name (columnDefinitions columns)⟩ := by
  have hcreated : db.catalog.createEntry name
      (fun id => .nodeTable ⟨id, name, columns, primaryKeyPosition columns, none, none, none, []⟩) =
      ({ db.catalog with
          entries := update db.catalog.entries db.catalog.nextId
            (some (.nodeTable ⟨db.catalog.nextId, name, columns, primaryKeyPosition columns, none,
              none, none, []⟩))
          nameToId := update db.catalog.nameToId name (some db.catalog.nextId)
          nextId := db.catalog.nextId + 1 }, .created db.catalog.nextId) := by
    unfold createEntry
    rw [hfree]
    rfl
  have hconsistent : (db.catalog.createNodeTable name columns).1.Consistent := by
    refine Consistent.bumped (h.consistent.createEntry (fun _ => rfl) (fun _ => rfl) fun id t ht => ?_)
    cases ht
    rfl
  unfold createNodeTable at hconsistent ⊢
  rw [hcreated] at hconsistent ⊢
  constructor
  · exact hconsistent
  · intro id e he
    change update db.catalog.entries db.catalog.nextId _ id = some e at he
    rw [update_apply] at he
    split at he
    · exact ⟨_, (Option.some.inj he).symm⟩
    · exact h.nodes id e he
  · exact congrArg (· + 1) h.nextId
  · show update db.catalog.nameToId name (some db.catalog.nextId) =
      update db.store.nodeNameToId name (some db.store.nextTableId)
    rw [h.names, h.nextId]
  · intro id
    show (update db.catalog.entries db.catalog.nextId _ id).map _ =
      (update db.store.nodeTables db.store.nextTableId _ id).map _
    rw [← h.nextId]
    by_cases hid : id = db.catalog.nextId
    · subst hid
      rw [update_self, update_self]
      exact congrArg (fun names => some (name, names)) names_columnDefinitions.symm
    · rw [update_of_ne hid, update_of_ne hid]
      exact h.views id

theorem serialColumns_dropped (h : cat.Consistent) (hname : cat.nameToId name = none) :
    serialColumns cat name = [] := by
  refine flatMap_eq_nil_iff.mpr fun id _ => ?_
  split
  next t ht =>
    refine if_neg fun heq => ?_
    have hnamed := h.named id _ ht
    change cat.nameToId t.name = some id at hnamed
    rw [heq, hname] at hnamed
    cases hnamed
  next => rfl

theorem dropStored_catalog {store : SchemaStore} (h : cat.Consistent)
    (hname : cat.nameToId name = none) :
    SchemaState.dropStored ⟨cat, store⟩ name = ⟨cat, store.dropNodeTable name⟩ := by
  unfold dropStored
  rw [serialColumns_dropped h hname, foldl_nil]
  have hdrop : (cat.dropTable name).1 = cat := by
    unfold dropTable dropEntry
    rw [hname]
    rfl
  rw [hdrop]

theorem Mirrored.drop (h : db.Mirrored) (hid : db.catalog.nameToId name = some id) :
    SchemaState.Mirrored (SchemaState.dropStored ⟨(db.catalog.dropTable name).1, db.store⟩ name) := by
  have hdropped : (db.catalog.dropTable name).1 = ({ db.catalog with
      entries := update db.catalog.entries id none
      nameToId := update db.catalog.nameToId name none } : Catalog).bumpVersion := by
    unfold dropTable dropEntry
    rw [hid]
    rfl
  have hconsistent : (db.catalog.dropTable name).1.Consistent := h.consistent.dropEntry.bumped
  have hnone : (db.catalog.dropTable name).1.nameToId name = none := by
    rw [hdropped]
    exact update_self ..
  have hstore : db.store.dropNodeTable name = { db.store with
      nodeNameToId := update db.store.nodeNameToId name none
      nodeTables := update db.store.nodeTables id none } := by
    unfold SchemaStore.dropNodeTable
    rw [← h.names, hid]
  rw [dropStored_catalog hconsistent hnone, hstore]
  refine ⟨hconsistent, ?_, ?_, ?_, ?_⟩
  · intro k e he
    rw [hdropped] at he
    change update db.catalog.entries id none k = some e at he
    rw [update_apply] at he
    split at he
    · cases he
    · exact h.nodes k e he
  · rw [hdropped]
    exact h.nextId
  · rw [hdropped]
    show update db.catalog.nameToId name none = update db.store.nodeNameToId name none
    rw [h.names]
  · intro k
    rw [hdropped]
    show (update db.catalog.entries id none k).map _ = (update db.store.nodeTables id none k).map _
    by_cases hk : k = id
    · subst hk
      rw [update_self, update_self]
      rfl
    · rw [update_of_ne hk, update_of_ne hk]
      exact h.views k

theorem any_name_congr {definitions : List ColumnDefinition} {p : String → Bool}
    (h : definitions.map (·.name) = columns.map (·.name)) : (definitions.any fun c => p c.name) =
      columns.any fun c => p c.name := by
  have hd : (definitions.any fun c => p c.name) = (definitions.map (·.name)).any p := by rw [any_map]; rfl
  have hc : (columns.any fun c => p c.name) = (columns.map (·.name)).any p := by rw [any_map]; rfl
  rw [hd, hc, h]

theorem Mirrored.addColumn (h : db.Mirrored) {column : String} {logicalType : LogicalTypeID}
    (hadd : db.catalog.addColumn tableName ⟨column, logicalType, false, .uncompressed, none⟩ =
      .ok cat) :
    SchemaState.Mirrored ⟨cat, db.store.addColumn tableName ⟨column, logicalType, false⟩⟩ := by
  have hconsistent : cat.Consistent := by
    have hadded : (db.catalog.accepted (db.catalog.addColumn tableName
        ⟨column, logicalType, false, .uncompressed, none⟩)).Consistent := h.consistent.addColumn nofun
    rw [hadd] at hadded
    exact hadded
  unfold Catalog.addColumn editEntry at hadd
  split at hadd
  next => cases hadd
  next id hid =>
    split at hadd
    next => cases hadd
    next e he =>
      obtain ⟨t, rfl⟩ := h.nodes id e he
      obtain ⟨s, hs, hname, hcolumns⟩ := h.stored he
      have hedit : editColumns "add column to"
          (pushColumn tableName ⟨column, logicalType, false, .uncompressed, none⟩) (.nodeTable t) =
          (pushColumn tableName ⟨column, logicalType, false, .uncompressed, none⟩ t.columns).map
            fun columns => .nodeTable { t with columns := columns } := rfl
      rw [hedit] at hadd
      unfold pushColumn at hadd
      split at hadd
      next hpush =>
        -- the storage's columns have the names that the catalog compared with
        split at hpush
        next => cases hpush
        next hnew =>
          cases hpush
          cases hadd
          have hwiden : SchemaStore.widen s ⟨column, logicalType, false⟩ =
              { s with columns := s.columns ++ [⟨column, logicalType, false⟩] } := by
            unfold SchemaStore.widen
            rw [any_name_congr (p := fun n => eqIgnoreAsciiCase n column) hcolumns]
            exact if_neg hnew
          have hstore : db.store.addColumn tableName ⟨column, logicalType, false⟩ = { db.store with
              nodeTables := update db.store.nodeTables id
                (some { s with columns := s.columns ++ [⟨column, logicalType, false⟩] }) } := by
            have hid' : db.store.nodeNameToId tableName = some id := h.names ▸ hid
            unfold SchemaStore.addColumn
            rw [hid']
            dsimp only
            rw [hs, Option.map_some, hwiden]
          rw [hstore]
          refine ⟨hconsistent, ?_, h.nextId, h.names, ?_⟩
          · intro k e hk
            change update db.catalog.entries id _ k = some e at hk
            rw [update_apply] at hk
            split at hk
            · exact ⟨_, (Option.some.inj hk).symm⟩
            · exact h.nodes k e hk
          · intro k
            show (update db.catalog.entries id _ k).map _ = (update db.store.nodeTables id _ k).map _
            by_cases hki : k = id
            · subst hki
              rw [update_self, update_self, Option.map_some, Option.map_some]
              show some (t.name, (t.columns ++ [_]).map _) = some (s.name, (s.columns ++ [_]).map _)
              rw [map_append, map_append, hcolumns, hname]
              rfl
            · rw [update_of_ne hki, update_of_ne hki]
              exact h.views k
      next => cases hadd

theorem Mirrored.createNodeTable [CaseMapping] (h : db.Mirrored)
    {columns : List (String × LogicalTypeID × CompressionType)}
    (hserial : ∀ c ∈ columns, c.2.1 ≠ .serial) (name primaryKey : String) (ifNotExists : Bool) :
    (db.execute false (.createNodeTable name columns primaryKey ifNotExists)).Mirrored := by
  have hbound : ∀ c ∈ catalogColumns columns primaryKey, c.logicalType ≠ .serial := by
    intro c hc
    obtain ⟨c', hc', rfl⟩ := mem_map.mp hc
    exact hserial c' hc'
  unfold SchemaState.execute
  dsimp only
  split
  next => exact h
  next =>
    cases hname : db.catalog.nameToId name with
    | none =>
      have hfree : (db.store.getNodeTableByName name).isSome = false := by
        unfold SchemaStore.getNodeTableByName
        rw [← h.names, hname]
        rfl
      have hcreated : (db.catalog.createNodeTable name (catalogColumns columns primaryKey)).2 =
          .created db.catalog.nextId := by
        unfold Catalog.createNodeTable createEntry
        rw [hname]
        rfl
      rw [if_neg (by rw [hcreated]; simp), if_neg (by simp), if_neg (by simp [hfree])]
      unfold createStored
      rw [foldl_createSerialSequence hbound]
      exact h.create hname
    | some id =>
      obtain ⟨e, he, -⟩ := h.consistent.filed name id hname
      obtain ⟨s, hs, -⟩ := h.stored he
      have hfound : (db.store.getNodeTableByName name).isSome = true := by
        unfold SchemaStore.getNodeTableByName
        rw [← h.names, hname]
        show (db.store.nodeTables id).isSome = true
        rw [hs]
        rfl
      have hsame : db.catalog.createNodeTable name (catalogColumns columns primaryKey) =
          (db.catalog, .alreadyExists) := by
        unfold Catalog.createNodeTable createEntry
        rw [hname]
        rfl
      rw [hsame]
      split
      next => exact h
      next hifNot =>
        have hif : ifNotExists = true := by simpa using hifNot
        rw [if_neg (by simp), if_pos ⟨hif, hfound⟩]
        exact h

theorem Mirrored.dropTable [CaseMapping] (h : db.Mirrored) (name : String) :
    (db.execute false (.dropTable name)).Mirrored := by
  unfold SchemaState.execute
  dsimp only
  split
  next => exact h
  next hfound =>
    cases hname : db.catalog.nameToId name with
    | none =>
      refine absurd ?_ hfound
      unfold Catalog.dropTable dropEntry
      rw [hname]
      rfl
    | some id =>
      exact h.drop hname

theorem Mirrored.execute [CaseMapping] (h : db.Mirrored) {s : SchemaStatement × Bool}
    (hs : db.Careful s) :
    (db.execute s.2 s.1).Mirrored := by
  obtain ⟨statement, refused⟩ := s
  cases statement with
  | createNodeTable name columns primaryKey ifNotExists =>
    obtain ⟨hrefused, hserial⟩ := hs
    subst hrefused
    exact h.createNodeTable hserial name primaryKey ifNotExists
  | addColumn =>
    unfold SchemaState.execute
    dsimp only
    split
    next => exact h
    next =>
      split
      next catalog hadd => exact h.addColumn hadd
      next => exact h
  | dropColumn | renameTable =>
    cases hs
    exact h
  | renameColumn =>
    subst hs
    exact h
  | dropTable name =>
    subst hs
    exact h.dropTable name

end Steps

/-- Catalog and storage describe the same tables after any careful run of statements. -/
theorem schemas_agree (statements : List (SchemaStatement × Bool)) {db : SchemaState}
    (hrun : run step new statements = some db)
    (hm : Meets step Careful new statements) : db.Agrees := by
  have hmirrored : db.Mirrored := by
    refine run_keeps (fun s a t hs ha ht => ?_) hrun hm mirrored_new
    cases ht
    exact @Mirrored.execute s uncased hs a ha
  exact hmirrored.agrees

def plainSession : List (SchemaStatement × Bool) :=
  [(.createNodeTable "T" [("id", .int64, .uncompressed), ("a", .string, .uncompressed)] "id" false,
    false), (.createNodeTable "U" [("id", .int64, .uncompressed)] "id" true, false),
    (.addColumn "T" "b" .string, false), (.dropTable "U", false)]

theorem schemas_agree_plain : ∃ db, run step new plainSession = some db ∧ db.Agrees := by
  refine ⟨_, rfl, schemas_agree plainSession rfl ?_⟩
  refine ⟨⟨rfl, by decide⟩, fun db hdb => ?_⟩
  cases hdb
  refine ⟨⟨rfl, by decide⟩, fun db hdb => ?_⟩
  cases hdb
  refine ⟨trivial, fun db hdb => ?_⟩
  cases hdb
  exact ⟨rfl, fun _ _ => trivial⟩

/-- A dropped column stays in the storage, and the next one added stands behind it there. -/
theorem dropped_column_stays :
    ∃ db, run step new
        [(.createNodeTable "T" [("id", .int64, .uncompressed), ("a", .string, .uncompressed)] "id"
          false, false),
          (.dropColumn "T" "a", false), (.addColumn "T" "b" .string, false)] = some db ∧
      catalogView db.catalog 0 = some ("T", ["id", "b"]) ∧ storeView db.store 0 =
        some ("T", ["id", "a", "b"]) ∧ ¬db.Agrees := by
  refine ⟨_, rfl, rfl, rfl, fun h => ?_⟩
  obtain ⟨s, hs, -, hcolumns⟩ := h 0 _ rfl
  cases hs
  revert hcolumns
  decide

end SchemaState

end Akar
