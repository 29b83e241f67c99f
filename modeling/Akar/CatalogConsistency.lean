import Akar.Catalog
import Akar.Runs
import Akar.Slots

namespace Akar

open List Function

def CatalogEntry.KeyPlaced (e : CatalogEntry) : Prop :=
  ∀ t, e = .nodeTable t → t.primaryKeyColumn = primaryKeyPosition t.columns

namespace Catalog

/-- Entries and names are inverse to each other, ids are below the next one and stand in one entry,
and keys are placed. -/
structure Consistent (cat : Catalog) : Prop where
  named : ∀ id e, cat.entries id = some e → cat.nameToId e.name = some id
  filed : ∀ name id, cat.nameToId name = some id → ∃ e, cat.entries id = some e ∧ e.name = name
  below : ∀ id e, cat.entries id = some e → e.tableId = id ∧ id < cat.nextId
  placed : ∀ id e, cat.entries id = some e → e.KeyPlaced

theorem consistent_new : new.Consistent where
  named id e h := by cases h
  filed name id h := by cases h
  below id e h := by cases h
  placed id e h := by cases h

section Steps

variable {cat cat' : Catalog} {key name oldName newName tableName : String} {id : Nat}
    {e e' : CatalogEntry}

theorem Consistent.of_maps (h : cat.Consistent) (hentries : cat'.entries = cat.entries)
    (hnames : cat'.nameToId = cat.nameToId)
    (hnext : cat.nextId ≤ cat'.nextId) : cat'.Consistent where
  named := by
    rw [hentries, hnames]
    exact h.named
  filed := by
    rw [hentries, hnames]
    exact h.filed
  below id e he := by
    rw [hentries] at he
    obtain ⟨hid, hlt⟩ := h.below id e he
    exact ⟨hid, hlt.trans_le hnext⟩
  placed := by
    rw [hentries]
    exact h.placed

theorem Consistent.bumped {r : Catalog × CatalogResult} (h : r.1.Consistent) :
    (bumped r).1.Consistent := by
  unfold Catalog.bumped
  split
  · exact h.of_maps rfl rfl le_rfl
  · exact h.of_maps rfl rfl le_rfl
  · exact h
  · exact h

theorem Consistent.insert (h : cat.Consistent) (hfree : cat.nameToId e.name = none)
    (hid : e.tableId = cat.nextId)
    (hplaced : e.KeyPlaced) (hentries : cat'.entries = update cat.entries cat.nextId (some e))
    (hnames : cat'.nameToId = update cat.nameToId e.name (some cat.nextId))
    (hnext : cat'.nextId = cat.nextId + 1) :
    cat'.Consistent := by
  have hcases (id : Nat) (e' : CatalogEntry) (he : cat'.entries id = some e') :
      id = cat.nextId ∧ e' = e ∨ id ≠ cat.nextId ∧ cat.entries id = some e' := by
    rw [hentries] at he
    exact update_some_eq_some he
  constructor
  · intro id e' he
    rcases hcases id e' he with ⟨rfl, rfl⟩ | ⟨-, he⟩
    · rw [hnames, update_self]
    · have hold := h.named id e' he
      have hne : e'.name ≠ e.name := by
        intro heq
        rw [heq, hfree] at hold
        cases hold
      rw [hnames, update_of_ne hne]
      exact hold
  · intro name id hname
    rw [hnames] at hname
    rw [update_apply] at hname
    split at hname
    next hk =>
      subst hk
      cases hname
      exact ⟨e, by rw [hentries, update_self], rfl⟩
    · obtain ⟨e', he', hn⟩ := h.filed name id hname
      have hlt := (h.below id e' he').2
      exact ⟨e', by rw [hentries, update_of_ne hlt.ne, he'], hn⟩
  · intro id e' he
    rw [hnext]
    rcases hcases id e' he with ⟨rfl, rfl⟩ | ⟨-, he⟩
    · exact ⟨hid, Nat.lt_succ_self _⟩
    · obtain ⟨hid', hlt⟩ := h.below id e' he
      exact ⟨hid', Nat.lt_succ_of_lt hlt⟩
  · intro id e' he
    rcases hcases id e' he with ⟨rfl, rfl⟩ | ⟨-, he⟩
    · exact hplaced
    · exact h.placed id e' he

theorem Consistent.createEntry {entry : Nat → CatalogEntry} (h : cat.Consistent)
    (hname : ∀ id, (entry id).name = key)
    (hid : ∀ id, (entry id).tableId = id) (hplaced : ∀ id, (entry id).KeyPlaced) :
      (cat.createEntry key entry).1.Consistent := by
  unfold Catalog.createEntry
  split
  next => exact h
  next hfree =>
    refine h.insert (e := entry cat.nextId) ?_ (hid _) (hplaced _) rfl ?_ rfl
    · rw [hname]
      exact Option.not_isSome_iff_eq_none.mp hfree
    · rw [hname]

theorem Consistent.erase (h : cat.Consistent) (hid : cat.nameToId key = some id)
    (hentries : cat'.entries = update cat.entries id none)
    (hnames : cat'.nameToId = update cat.nameToId key none) (hnext : cat'.nextId = cat.nextId) :
      cat'.Consistent := by
  have hcases : ∀ k e, cat'.entries k = some e → k ≠ id ∧ cat.entries k = some e := by
    intro k e he
    rw [hentries] at he
    rw [update_apply] at he
    split at he
    · cases he
    next hk =>
      exact ⟨hk, he⟩
  constructor
  · intro k e he
    obtain ⟨hk, he⟩ := hcases k e he
    have hold := h.named k e he
    have hne : e.name ≠ key := by
      intro heq
      rw [heq, hid] at hold
      exact hk (Option.some.inj hold).symm
    rw [hnames, update_of_ne hne]
    exact hold
  · intro name k hname
    rw [hnames] at hname
    rw [update_apply] at hname
    split at hname
    · cases hname
    next hn =>
      obtain ⟨e, he, hname'⟩ := h.filed name k hname
      have hne : k ≠ id := by
        rintro rfl
        obtain ⟨e', he', hkey⟩ := h.filed key k hid
        rw [he] at he'
        cases he'
        exact hn (hname'.symm.trans hkey)
      exact ⟨e, by rw [hentries, update_of_ne hne, he], hname'⟩
  · intro k e he
    rw [hnext]
    exact h.below k e (hcases k e he).2
  · intro k e he
    exact h.placed k e (hcases k e he).2

theorem Consistent.dropEntry (h : cat.Consistent) : (cat.dropEntry key).1.Consistent := by
  unfold Catalog.dropEntry
  split
  next id hid => exact h.erase hid rfl rfl rfl
  next => exact h

theorem Consistent.editEntry {edit : CatalogEntry → Except CatalogError CatalogEntry}
    (h : cat.Consistent) (hedit : ∀ e e', cat.getEntryByName tableName = some e → edit e = .ok e' →
      e'.name = e.name ∧ e'.tableId = e.tableId ∧ (e.KeyPlaced → e'.KeyPlaced)) :
    (cat.accepted (cat.editEntry tableName edit)).Consistent := by
  unfold Catalog.editEntry
  split
  next => exact h
  next id hid =>
    split
    next => exact h
    next entry hentry =>
      split
      next edited hok =>
        have hget : cat.getEntryByName tableName = some entry := by
          unfold getEntryByName
          rw [hid]
          exact hentry
        obtain ⟨hname, hsame, hkey⟩ := hedit entry edited hget hok
        constructor
        · intro k e he
          rcases update_some_eq_some he with ⟨rfl, rfl⟩ | ⟨-, he⟩
          · rw [hname]
            exact h.named k entry hentry
          · exact h.named k e he
        · intro name k hn
          obtain ⟨e, he, hen⟩ := h.filed name k hn
          show ∃ e, update cat.entries id (some edited) k = some e ∧ e.name = name
          by_cases hk : k = id
          · subst hk
            rw [hentry] at he
            cases he
            exact ⟨edited, update_self .., hname.trans hen⟩
          · exact ⟨e, by rw [update_of_ne hk, he], hen⟩
        · intro k e he
          rcases update_some_eq_some he with ⟨rfl, rfl⟩ | ⟨-, he⟩
          · rw [hsame]
            exact h.below k entry hentry
          · exact h.below k e he
        · intro k e he
          rcases update_some_eq_some he with ⟨rfl, rfl⟩ | ⟨-, he⟩
          · exact hkey (h.placed k entry hentry)
          · exact h.placed k e he
      next => exact h

theorem rename_name : (e.rename newName).name = newName := by cases e <;> rfl

theorem rename_tableId : (e.rename newName).tableId = e.tableId := by cases e <;> rfl

theorem rename_keyPlaced (h : e.KeyPlaced) : (e.rename newName).KeyPlaced := by
  intro t ht
  cases e with
  | nodeTable t' =>
    cases ht
    exact h t' rfl
  | relTable _ | vectorIndex _ | sequence _ | foreign _ | scalarMacro _ => cases ht

theorem Consistent.moveEntry (h : cat.Consistent) (hid : cat.nameToId oldName = some id)
    (he : cat.entries id = some e)
    (hfree : cat.nameToId newName = none) : (cat.moveEntry id e oldName newName).Consistent := by
  constructor
  · intro k e' he'
    show update (update cat.nameToId oldName none) newName (some id) e'.name = some k
    rcases update_some_eq_some he' with ⟨rfl, rfl⟩ | ⟨hk, he'⟩
    · rw [rename_name, update_self]
    · have hold := h.named k e' he'
      have hnew : e'.name ≠ newName := by
        intro heq
        rw [heq, hfree] at hold
        cases hold
      have hold' : e'.name ≠ oldName := by
        intro heq
        rw [heq, hid] at hold
        exact hk (Option.some.inj hold).symm
      rw [update_of_ne hnew, update_of_ne hold']
      exact hold
  · intro name k hname
    change update (update cat.nameToId oldName none) newName (some id) name = some k at hname
    show ∃ e', update cat.entries id (some (e.rename newName)) k = some e' ∧ e'.name = name
    rw [update_apply] at hname
    split at hname
    next hn =>
      subst hn
      cases hname
      exact ⟨_, update_self .., rename_name⟩
    · rw [update_apply] at hname
      split at hname
      · cases hname
      next ho =>
        obtain ⟨e', he', hen⟩ := h.filed name k hname
        have hk : k ≠ id := by
          rintro rfl
          obtain ⟨e'', he'', hold⟩ := h.filed oldName k hid
          rw [he'] at he''
          cases he''
          exact ho (hen.symm.trans hold)
        exact ⟨e', by rw [update_of_ne hk, he'], hen⟩
  · intro k e' he'
    rcases update_some_eq_some he' with ⟨rfl, rfl⟩ | ⟨-, he'⟩
    · rw [rename_tableId]
      exact h.below k e he
    · exact h.below k e' he'
  · intro k e' he'
    rcases update_some_eq_some he' with ⟨rfl, rfl⟩ | ⟨-, he'⟩
    · exact rename_keyPlaced (h.placed k e he)
    · exact h.placed k e' he'

end Steps

section Columns

variable {columns columns' : List CatalogColumn} {column : CatalogColumn} {e e' : CatalogEntry}
    {does : String}

theorem keyPlaced_of_not_nodeTable (h : ∀ t, e ≠ .nodeTable t) : e.KeyPlaced :=
  fun t ht => absurd ht (h t)

theorem nodeTable_keeps {t t' : NodeTableEntry} (hname : t'.name = t.name)
    (hid : t'.tableId = t.tableId)
    (hcolumns : t'.columns = t.columns) (hkey : t'.primaryKeyColumn = t.primaryKeyColumn) :
    (CatalogEntry.nodeTable t').name = (CatalogEntry.nodeTable t).name ∧
      (CatalogEntry.nodeTable t').tableId = (CatalogEntry.nodeTable t).tableId ∧
      ((CatalogEntry.nodeTable t).KeyPlaced → (CatalogEntry.nodeTable t').KeyPlaced) := by
  refine ⟨hname, hid, fun hplaced t'' ht'' => ?_⟩
  cases ht''
  rw [hkey, hcolumns]
  exact hplaced t rfl

theorem editColumns_keeps {edit : List CatalogColumn → Except CatalogError (List CatalogColumn)}
    (hedit : ∀ t columns', e = .nodeTable t → edit t.columns = .ok columns' →
      primaryKeyPosition columns' = primaryKeyPosition t.columns)
    (h : editColumns does edit e = .ok e') :
    e'.name = e.name ∧ e'.tableId = e.tableId ∧ (e.KeyPlaced → e'.KeyPlaced) := by
  cases e with
  | nodeTable t =>
    change (edit t.columns).map _ = _ at h
    obtain ⟨columns', hcolumns, rfl⟩ := map_eq_ok.mp h
    refine ⟨rfl, rfl, fun hplaced t' ht' => ?_⟩
    cases ht'
    exact (hplaced t rfl).trans (hedit t columns' rfl hcolumns).symm
  | relTable t =>
    change (edit t.columns).map _ = _ at h
    obtain ⟨columns', hcolumns, rfl⟩ := map_eq_ok.mp h
    exact ⟨rfl, rfl, nofun⟩
  | vectorIndex _ | sequence _ | foreign _ | scalarMacro _ => cases h

theorem primaryKeyPosition_append
    (h : column.isPrimaryKey = false ∨ ∃ c ∈ columns, c.isPrimaryKey = true) :
    primaryKeyPosition (columns ++ [column]) = primaryKeyPosition columns := by
  unfold primaryKeyPosition
  rw [findIdx?_append]
  cases hfind : columns.findIdx? (·.isPrimaryKey) with
  | some i => rfl
  | none =>
    have hnone := findIdx?_eq_none_iff.mp hfind
    rcases h with h | ⟨c, hc, hkey⟩
    · simp [h]
    · rw [hnone c hc] at hkey
      cases hkey

theorem primaryKeyPosition_eraseIdx {p : Nat}
    (h : ∀ q, columns.findIdx? (·.isPrimaryKey) = some q → q < p) :
    primaryKeyPosition (columns.eraseIdx p) = primaryKeyPosition columns := by
  refine congrArg (Option.getD · usizeMax) ?_
  induction columns generalizing p with
  | nil => rfl
  | cons c columns ih =>
    rw [findIdx?_cons] at h
    cases hc : c.isPrimaryKey with
    | true =>
      rw [if_pos hc] at h
      obtain ⟨p, rfl⟩ := Nat.exists_eq_succ_of_ne_zero (Nat.ne_of_gt (h 0 rfl))
      rw [eraseIdx_cons_succ, findIdx?_cons, findIdx?_cons, if_pos hc, if_pos hc]
    | false =>
      have hfalse : ¬c.isPrimaryKey = true := by rw [hc]; decide
      rw [if_neg hfalse] at h
      cases p with
      | zero =>
        -- nothing is flagged
        cases hfind : columns.findIdx? (·.isPrimaryKey) with
        | some q =>
          rw [hfind] at h
          exact absurd (h (q + 1) rfl) (Nat.not_lt_zero _)
        | none => rw [eraseIdx_cons_zero, findIdx?_cons, if_neg hfalse, hfind]; rfl
      | succ =>
        rw [eraseIdx_cons_succ, findIdx?_cons, findIdx?_cons, if_neg hfalse, if_neg hfalse, ih]
        intro q hq
        rw [hq] at h
        exact Nat.lt_of_succ_lt_succ (h (q + 1) rfl)

theorem primaryKeyPosition_renameFirst {oldName newName : String} :
    primaryKeyPosition (renameFirst oldName newName columns) = primaryKeyPosition columns := by
  refine congrArg (Option.getD · usizeMax) ?_
  induction columns with
  | nil => rfl
  | cons c columns ih =>
    unfold renameFirst
    split
    next => rfl
    next => rw [findIdx?_cons, findIdx?_cons, ih]

end Columns

section Edits

variable {cat : Catalog} (h : cat.Consistent)
include h

theorem Consistent.addColumn {tableName : String} {column : CatalogColumn}
    (hkey : column.isPrimaryKey = true → ∀ t, cat.getEntryByName tableName = some (.nodeTable t) →
      ∃ c ∈ t.columns, c.isPrimaryKey = true) :
    (cat.accepted (cat.addColumn tableName column)).Consistent := by
  refine h.editEntry fun e e' hget hedit => editColumns_keeps (fun t columns' ht hpush => ?_) hedit
  subst ht
  obtain ⟨_, hpush⟩ := reject_ok hpush
  cases hpush
  refine primaryKeyPosition_append ?_
  cases hflag : column.isPrimaryKey with
  | false => exact .inl rfl
  | true => exact .inr (hkey hflag t hget)

theorem Consistent.dropColumn {tableName columnName : String}
    (hkey : ∀ t, cat.getEntryByName tableName = some (.nodeTable t) →
      ∀ p q, t.columns.findIdx? (·.name = columnName) = some p →
        t.columns.findIdx? (·.isPrimaryKey) = some q → q < p) :
    (cat.accepted (cat.dropColumn tableName columnName)).Consistent := by
  refine h.editEntry fun e e' hget hedit => editColumns_keeps (fun t columns' ht hremove => ?_) hedit
  subst ht
  unfold removeColumn at hremove
  split at hremove
  next p hp =>
    cases hremove
    exact primaryKeyPosition_eraseIdx fun q hq => hkey t hget p q hp hq
  next => cases hremove

theorem Consistent.renameColumn {tableName oldName newName : String} :
    (cat.accepted (cat.renameColumn tableName oldName newName)).Consistent := by
  refine h.editEntry fun e e' hget hedit => ?_
  obtain ⟨_, hedit⟩ := reject_ok hedit
  obtain ⟨_, hedit⟩ := reject_ok hedit
  refine editColumns_keeps (fun t columns' ht hrename => ?_) hedit
  cases hrename
  exact primaryKeyPosition_renameFirst

theorem Consistent.createIndex {tableName indexName columnName : String} {indexType : IndexType}
    {ifNotExists : Bool} :
    (cat.accepted (cat.createIndex tableName indexName indexType columnName
      ifNotExists)).Consistent := by
  refine h.editEntry fun e e' hget hedit => ?_
  cases e with
  | nodeTable =>
    dsimp only at hedit
    obtain ⟨_, hedit⟩ := reject_ok hedit
    obtain ⟨_, hedit⟩ := reject_ok hedit
    split at hedit
    next =>
      split at hedit
      next => cases hedit; exact ⟨rfl, rfl, id⟩
      next => cases hedit
    next =>
      split at hedit
      next =>
        split at hedit
        next => cases hedit; exact ⟨rfl, rfl, id⟩
        next => cases hedit
      next => cases hedit; exact nodeTable_keeps rfl rfl rfl rfl
  | relTable _ | vectorIndex _ | sequence _ | foreign _ | scalarMacro _ => cases hedit

theorem Consistent.dropIndex {tableName indexName : String} :
    (cat.accepted (cat.dropIndex tableName indexName)).Consistent := by
  refine h.editEntry fun e e' hget hedit => ?_
  cases e with
  | nodeTable =>
    dsimp only at hedit
    split at hedit
    next => cases hedit; exact nodeTable_keeps rfl rfl rfl rfl
    next =>
      split at hedit
      next => cases hedit; exact nodeTable_keeps rfl rfl rfl rfl
      next => cases hedit
  | relTable _ | vectorIndex _ | sequence _ | foreign _ | scalarMacro _ => cases hedit

theorem Consistent.renameTable {oldName newName : String} :
    (cat.accepted (cat.renameTable oldName newName)).Consistent := by
  unfold Catalog.renameTable
  split
  next => exact h
  next id hid =>
    split
    next => exact h
    next hfree =>
      split
      next => exact h
      next entry _ hentry => exact h.moveEntry hid hentry (Option.not_isSome_iff_eq_none.mp hfree)
      next => exact h

theorem Consistent.rename {oldName newName : String} : (cat.rename oldName newName).1.Consistent := by
  unfold Catalog.rename
  split
  next => exact h
  next id hid =>
    split
    next => exact h
    next hfree =>
      split
      next entry hentry => exact h.moveEntry hid hentry (Option.not_isSome_iff_eq_none.mp hfree)
      next hnone =>
        obtain ⟨e, he, -⟩ := h.filed oldName id hid
        rw [hnone] at he
        cases he

theorem Consistent.removeForeignEntry {attached : String} :
    (cat.accepted (cat.removeForeignEntry attached)).Consistent := by
  unfold Catalog.removeForeignEntry
  split
  next => exact h
  next id hid =>
    split
    next => exact h.erase hid rfl rfl rfl
    next => exact h

end Edits

section Runs

variable [CaseMapping]

/-- What keeps a call from breaking the catalog's records. -/
def Careful (cat : Catalog) : CatalogCall → Prop
  | .addColumn tableName column =>
    column.isPrimaryKey = true → ∀ t, cat.getEntryByName tableName = some (.nodeTable t) →
      ∃ c ∈ t.columns, c.isPrimaryKey = true
  | .dropColumn tableName columnName =>
    ∀ t, cat.getEntryByName tableName = some (.nodeTable t) → ∀ p q,
      t.columns.findIdx? (·.name = columnName) = some p →
      t.columns.findIdx? (·.isPrimaryKey) = some q → q < p
  | .addForeignEntry entry => cat.nameToId entry.name = none ∧ entry.tableId = cat.nextId
  | .createMacro name _ _ _ => CaseMapping.toUppercase name = name
  | _ => True

theorem Consistent.call {cat : Catalog} {c : CatalogCall} (h : cat.Consistent) (hc : cat.Careful c) :
    (cat.call c).Consistent := by
  cases c with
  | createNodeTable =>
    show (Catalog.bumped (cat.createEntry _ _)).1.Consistent
    refine Consistent.bumped (h.createEntry (fun _ => rfl) (fun _ => rfl) fun id t ht => ?_)
    cases ht
    rfl
  | createRelTable | createSequence =>
    show (Catalog.bumped (cat.createEntry _ _)).1.Consistent
    exact Consistent.bumped
      (h.createEntry (fun _ => rfl) (fun _ => rfl) fun _ => keyPlaced_of_not_nodeTable nofun)
  | createVectorIndex =>
    change (Catalog.createVectorIndex ..).1.Consistent
    unfold createVectorIndex
    split
    next => exact h
    next =>
      exact h.createEntry (fun _ => rfl) (fun _ => rfl) fun _ => keyPlaced_of_not_nodeTable nofun
  | registerFtsIndex =>
    change (cat.accepted (cat.registerFtsIndex ..)).Consistent
    unfold registerFtsIndex
    split
    next => exact h
    next => exact h.of_maps rfl rfl le_rfl
  | createMacro =>
    show (Catalog.bumped (cat.createEntry _ _)).1.Consistent
    refine Consistent.bumped
      (h.createEntry (fun _ => ?_) (fun _ => rfl) fun _ => keyPlaced_of_not_nodeTable nofun)
    exact Eq.symm hc
  | createForeignTable =>
    show (cat.createEntry _ _).1.Consistent
    exact h.createEntry (fun _ => rfl) (fun _ => rfl) fun _ => keyPlaced_of_not_nodeTable nofun
  | createTypeAlias =>
    change (cat.accepted (cat.createTypeAlias ..)).Consistent
    unfold createTypeAlias
    dsimp only
    split
    next => exact h
    next => exact h.of_maps rfl rfl (Nat.le_succ _)
  | dropTable => exact h.dropEntry.bumped
  | dropSequence name | dropMacro name | dropForeignTable name => exact h.dropEntry
  | addColumn => exact h.addColumn hc
  | dropColumn => exact h.dropColumn hc
  | renameColumn => exact h.renameColumn
  | createIndex => exact h.createIndex
  | dropIndex => exact h.dropIndex
  | renameTable => exact h.renameTable
  | rename => exact h.rename
  | addForeignEntry entry =>
    refine h.insert (e := .foreign entry) hc.1 hc.2 (keyPlaced_of_not_nodeTable nofun) ?_ ?_ rfl
    · rw [← hc.2]
      rfl
    · rw [← hc.2]
      rfl
  | removeForeignEntry => exact h.removeForeignEntry

def step (cat : Catalog) (c : CatalogCall) : Option Catalog := some (cat.call c)

/-- Every careful run of catalog calls leaves the maps of the catalog consistent. -/
theorem catalog_consistent (calls : List CatalogCall) {cat : Catalog}
    (hrun : run step new calls = some cat)
    (hm : Meets step Careful new calls) : cat.Consistent := by
  refine run_keeps (fun s c t hs hc ht => ?_) hrun hm consistent_new
  cases ht
  exact hs.call hc

end Runs

def keyColumn (name : String) : CatalogColumn := ⟨name, .int64, true, .uncompressed, none⟩

def plainColumn (name : String) : CatalogColumn := ⟨name, .string, false, .uncompressed, none⟩

@[reducible] def uncased : CaseMapping := ⟨id, id⟩

def tidySession : List CatalogCall :=
  [.createNodeTable "T" [keyColumn "id", plainColumn "a"], .dropColumn "T" "a"]

theorem catalog_consistent_tidy : ∃ cat, run (@step uncased) new tidySession = some cat ∧
    cat.Consistent := by
  refine ⟨_, rfl, @catalog_consistent uncased tidySession _ rfl ⟨trivial, fun cat hcat => ?_⟩⟩
  cases hcat
  refine ⟨fun t ht p q hp hq => ?_, fun _ _ => trivial⟩
  cases ht
  cases hp
  cases hq
  decide

theorem dropped_column_shifts_key :
    ∃ cat, run (@step uncased) new [.createNodeTable "T" [plainColumn "a", keyColumn "id"],
      .dropColumn "T" "a"] = some cat ∧
      cat.entries 0 = some (.nodeTable ⟨0, "T", [keyColumn "id"], 1, none, none, none, []⟩) ∧
        ¬cat.Consistent := by
  refine ⟨_, rfl, rfl, fun h => ?_⟩
  have hplaced := h.placed 0 _ rfl _ rfl
  revert hplaced
  decide

end Catalog

end Akar
