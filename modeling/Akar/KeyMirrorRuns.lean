import Akar.KeyMirror

namespace Akar

open List Option

inductive NodeAction where
  | write (op : WriteOp)
  | insertRowsBatch (batch : List (List Value))
  | loadPersistedRows (rows : List (List Value))
  | createArtIndex
  | dropArtIndex

namespace NodeTable

variable {K : Set Value} {t t' : NodeTable} {i : Nat} {v : Value}

theorem liveAt_iff (hpk : t.hasPk = true) :
    (∃ row, t.liveAt i = some row ∧ t.pkOf row = some v) ↔ (t.rows[i]?).bind t.liveKey = some v := by
  rw [bind_eq_some_iff]
  refine exists_congr fun row => ?_
  rw [liveAt, filter_eq_some_iff, t.liveKey_eq_some row hpk, and_assoc]

theorem key_of_liveAt (hpk : t.hasPk = true) {row : List Value} (h : t.liveAt i = some row) :
    ∃ v, t.pkOf row = some v ∧ (t.rows[i]?).bind t.liveKey = some v := by
  obtain ⟨hrow, hlive⟩ := filter_eq_some_iff.mp h
  obtain ⟨v, hv⟩ := t.exists_liveKey row hpk hlive
  exact ⟨v, ((t.liveKey_eq_some row hpk).mp hv).2, by rw [hrow]; exact hv⟩

variable [Rendering]

/-- A failing call leaves rows and indexes as they are, except a load: it has dropped the rows when
it finds one of the wrong width, and the table is not modelled from there. -/
def act (t : NodeTable) : NodeAction → Option NodeTable
  | .write op => some (((t.write t.tableId op).map (·.table)).getD t)
  | .insertRowsBatch batch => some (((t.insertRowsBatch batch).toOption.map (·.2)).getD t)
  | .loadPersistedRows rows => (t.loadPersistedRows rows).toOption
  | .createArtIndex => some (t.createArtIndex.toOption.getD t)
  | .dropArtIndex => some t.dropArtIndex

/-- The keys a call stores are from `K`, no two of one call alike, and it changes no primary key in
place. -/
def StoresKeys (K : Set Value) (t : NodeTable) : NodeAction → Prop
  | .write (.insertRow values) =>
    ∀ row, checkedRow t.toNodeSchema values = .ok row → ∀ v, t.liveKey row = some v → v ∈ K
  | .write (.updateCell r c v) => t.Agrees r c v
  | .write _ => True
  | .insertRowsBatch batch =>
    ∀ rows, coerceRows t.columns batch = .ok rows → KeyedRows K t.toNodeSchema rows
  | .loadPersistedRows rows =>
    (∀ row ∈ rows, row.length = t.columns.length) ∧ KeyedRows K t.toNodeSchema rows
  | .createArtIndex => ArtKeys K
  | .dropArtIndex => True

theorem Indexed.write {op : WriteOp} {w : Written NodeTable} {tableId : Nat} (h : t.Indexed K)
    (hK : TextKeys K)
    (hok : t.StoresKeys K (.write op)) (hw : t.write tableId op = some w) : w.table.Indexed K := by
  cases writes_of_write hw with
  | insertRow values row hrow hfresh =>
    have hlen : ∀ r ∈ [row], r.length = t.columns.length := by
      intro r hr
      rw [mem_singleton.mp hr]
      exact checkedRow_length hrow
    -- a single insert is a batch of one row
    refine h.appendRows hK hlen (keyedRows_singleton (hok row hrow)) fun r hr => ?_
    rw [mem_singleton.mp hr]
    exact hfresh
  | updateCell => exact h.setCell hok
  | deleteRow r row hrow => exact h.buryRow hrow

theorem Indexed.insertRowsBatch {batch : List (List Value)} {n : Nat} (h : t.Indexed K)
    (hK : TextKeys K)
    (hok : t.StoresKeys K (.insertRowsBatch batch)) (ht : t.insertRowsBatch batch = .ok (n, t')) :
      t'.Indexed K := by
  unfold NodeTable.insertRowsBatch at ht
  split at ht
  · cases ht
    exact h
  · split at ht
    · cases ht
    next hcheck =>
      split at ht
      · cases ht
      next rows hrows =>
        cases ht
        exact h.appendRows hK _ (hok rows hrows) fun row hrow =>
          (coerceRows_checked hcheck hrows row hrow).2

theorem Indexed.act {a : NodeAction} (h : t.Indexed K) (hK : TextKeys K) (hok : t.StoresKeys K a)
    (ht : t.act a = some t') : t'.Indexed K := by
  cases a with
  | write op =>
    cases ht
    cases hw : t.write t.tableId op with
    | none => exact h
    | some w => exact h.write hK hok hw
  | insertRowsBatch batch =>
    cases ht
    cases hb : t.insertRowsBatch batch with
    | error e => exact h
    | ok p => exact h.insertRowsBatch hK hok hb
  | loadPersistedRows rows =>
    obtain ⟨hw, hrows⟩ := hok
    have hload : t.loadPersistedRows rows = .ok (t.loaded rows hw) := dif_pos hw
    simp only [NodeTable.act, hload] at ht
    cases ht
    exact h.loaded hK hw hrows
  | createArtIndex =>
    cases ht
    cases hc : t.createArtIndex with
    | error e => exact h
    | ok t₁ => exact h.createArtIndex hok hc
  | dropArtIndex =>
    cases ht
    exact h.dropArtIndex

/-- What the indexes are for: no two live rows have one key, a lookup answers with the live row that
has the key, and an ART index holds the same pairs. -/
structure KeysExact (K : Set Value) (t : NodeTable) : Prop where
  unique : ∀ i j row row', t.liveAt i = some row → t.liveAt j = some row' → t.pkOf row =
    t.pkOf row' → i = j
  lookup : ∀ v ∈ K, ∀ i, t.lookupByPk v = some i ↔ ∃ row, t.liveAt i = some row ∧ t.pkOf row = some v
  art : ∀ art ∈ t.artIndex,
    (∀ v ∈ K, ∃ key, artKeyFromValue v = some key ∧ art.offsets key = (t.lookupByPk v).toList) ∧
      ∀ key, art.offsets key ≠ [] → ∃ v ∈ K, artKeyFromValue v = some key

theorem Indexed.lookupByPk_iff (h : t.Indexed K) (hK : TextKeys K) (hv : v ∈ K) :
    t.lookupByPk v = some i ↔ (t.rows[i]?).bind t.liveKey = some v := by
  refine h.hash.look_iff (f := fun v => some (pkValueToString v)) (fun row => ?_) rfl fun row hrow
    w hw htext => ?_
  · rw [NodeSchema.keyOf_eq]
    cases t.liveKey row <;> rfl
  · exact hK.2 (h.keys row hrow w hw) hv (some.inj htext)

theorem Indexed.keysExact (h : t.Indexed K) (hK : TextKeys K) (hpk : t.hasPk = true) :
    t.KeysExact K := by
  refine ⟨?_, ?_, ?_⟩
  · intro i j row row' hi hj heq
    obtain ⟨v, hv, hki⟩ := key_of_liveAt hpk hi
    obtain ⟨w, hw, hkj⟩ := key_of_liveAt hpk hj
    rw [hv, hw] at heq
    cases heq
    exact h.keyedRows.distinct v i j hki hkj
  · intro v hv i
    rw [h.lookupByPk_iff hK hv, liveAt_iff hpk]
  · intro art hart
    obtain ⟨hA, look, hlook, hoff⟩ := h.art art hart
    refine ⟨fun v hv => ?_, fun key hne => ?_⟩
    · obtain ⟨key, hkey⟩ := isSome_iff_exists.mp (hA.encoded v hv)
      refine ⟨key, hkey, ?_⟩
      rw [hoff]
      congr 1
      ext i
      rw [h.lookupByPk_iff hK hv]
      refine hlook.look_iff (t.artKeyOf_eq ·) hkey fun row hrow w hw hbytes => ?_
      exact hA.distinct (h.keys row hrow w hw) hv (hbytes.trans hkey.symm)
    · rw [hoff] at hne
      cases hl : look key with
      | none => rw [hl] at hne; exact absurd rfl hne
      | some i =>
        obtain ⟨row, hrow, hk⟩ := key_mem ((hlook key i).mp hl)
        rw [NodeSchema.artKeyOf_eq] at hk
        obtain ⟨v, hv, hbytes⟩ := bind_eq_some_iff.mp hk
        exact ⟨v, h.keys row hrow v hv, hbytes⟩

end NodeTable

inductive CatalogAction where
  | node (tableId : Nat) (a : NodeAction)
  | rollback (records : List UndoRecord)

namespace TableCatalog

variable [Rendering] {K : Nat → Set Value} {cat cat' : TableCatalog}

def callStep (cat : TableCatalog) : CatalogAction → Option TableCatalog
  | .node tableId a =>
    (cat.getNodeTable tableId).bind fun t => (t.act a).map fun t' => cat.set tableId (.node t')
  | .rollback records => some (cat.undoAll records.reverse)

def undoStep (cat : TableCatalog) (u : UndoRecord) : Option TableCatalog := (cat.undo u).toOption

def UndoAgrees (cat : TableCatalog) (u : UndoRecord) : Prop :=
  ∀ t, cat.getNodeTable u.tableId = some t → t.UndoAgrees u

/-- A call stores only keys from its table's key set, no two of one batch or load alike, and neither
it nor an undo record changes a primary key in place. -/
def StoresKeys (K : Nat → Set Value) (cat : TableCatalog) : CatalogAction → Prop
  | .node tableId a => ∀ t, cat.getNodeTable tableId = some t → t.StoresKeys (K tableId) a
  | .rollback records => Meets undoStep UndoAgrees cat records.reverse

def Indexed (K : Nat → Set Value) (cat : TableCatalog) : Prop :=
  ∀ tableId t, cat.getNodeTable tableId = some t → t.Indexed (K tableId)

theorem Indexed.set {tableId : Nat} {t : Table} (h : cat.Indexed K)
    (ht : ∀ n, t = .node n → n.Indexed (K tableId)) :
    (cat.set tableId t).Indexed K := by
  intro id n hn
  rw [getNodeTable_eq_some] at hn
  by_cases hid : id = tableId
  · subst hid
    simp only [TableCatalog.set_tables_self, some.injEq] at hn
    exact ht n hn
  · simp only [TableCatalog.set_tables_ne hid] at hn
    exact h id n (getNodeTable_eq_some.mpr hn)

theorem Indexed.undo {u : UndoRecord} (h : cat.Indexed K) (hu : cat.UndoAgrees u)
    (hcat : cat.undo u = .ok cat') : cat'.Indexed K := by
  unfold TableCatalog.undo at hcat
  split at hcat
  next t ht =>
    cases t with
    | node t =>
      have hget := getNodeTable_eq_some.mpr ht
      cases hundo : t.undo u with
      | error e => simp [Table.undo, hundo, Except.map] at hcat
      | ok t' =>
        simp only [Table.undo, hundo, Except.map, Except.ok.injEq] at hcat
        subst hcat
        refine h.set fun n hn => ?_
        cases hn
        exact (h _ t hget).undo (hu t hget) hundo
    | rel =>
      cases hcat
      exact h.set nofun
  next => cases hcat; exact h

theorem Indexed.undoAll {us : List UndoRecord} (h : cat.Indexed K)
    (hus : Meets undoStep UndoAgrees cat us) :
    (cat.undoAll us).Indexed K := by
  induction us generalizing cat with
  | nil => exact h
  | cons u us ih =>
    rw [TableCatalog.undoAll]
    cases hu : cat.undo u with
    | error e => exact h
    | ok cat₁ => exact ih (h.undo hus.1 hu) (hus.2 cat₁ (congrArg Except.toOption hu))

theorem Indexed.callStep {a : CatalogAction} (h : cat.Indexed K) (hK : ∀ tableId, TextKeys (K tableId))
    (hok : cat.StoresKeys K a) (hstep : cat.callStep a = some cat') : cat'.Indexed K := by
  cases a with
  | node tableId =>
    obtain ⟨t, ht, hstep⟩ := bind_eq_some_iff.mp hstep
    obtain ⟨t', ht', rfl⟩ := map_eq_some_iff.mp hstep
    refine h.set fun n hn => ?_
    cases hn
    exact (h tableId t ht).act (hK tableId) (hok t ht) ht'
  | rollback =>
    cases hstep
    exact h.undoAll hok

end TableCatalog

section Social

attribute [local instance] Rendering.blank

theorem social_new : ∀ tableId t, social.getNodeTable tableId = some t → ∃ id name columns, t =
    .new id name columns := by
  intro tableId t ht
  rw [TableCatalog.getNodeTable_eq_some] at ht
  simp only [social] at ht
  split at ht
  · cases ht
    exact ⟨_, _, _, rfl⟩
  · split at ht <;> cases ht

def personCalls : List CatalogAction :=
  [.node 0 .createArtIndex, .node 0 (.write (.insertRow [.string "ann", .uint64 30])),
    .node 0 (.insertRowsBatch [[.string "bob", .uint64 31], [.string "cid", .uint64 32]]),
    .node 0 (.write (.updateCell 0 1 (.uint64 40))), .node 0 (.write (.deleteRow 1)),
      .rollback [.insert 0 2],
    .node 0 (.loadPersistedRows [[.string "dan", .uint64 5]])]

theorem stringKey_person {name : String} {age v : Value}
    (h : person.liveKey [.string name, age] = some v) :
    v ∈ stringKeys := by
  cases h
  exact ⟨name, rfl⟩

theorem personCalls_storesKeys :
    Meets TableCatalog.callStep (TableCatalog.StoresKeys fun _ => stringKeys) social personCalls := by
  refine ⟨fun _ _ => artKeys_string, fun c hc => ?_⟩
  obtain rfl := some.inj hc
  refine ⟨fun t ht row hrow v hv => ?_, fun c hc => ?_⟩
  · obtain rfl := some.inj ht
    obtain rfl := Except.ok.inj hrow
    exact stringKey_person hv
  obtain rfl := some.inj hc
  refine ⟨fun t ht rows hrows => ?_, fun c hc => ?_⟩
  · obtain rfl := some.inj ht
    obtain rfl := Except.ok.inj hrows
    refine (NodeTable.keyedRows_singleton fun v hv => stringKey_person hv).append
      (NodeTable.keyedRows_singleton fun v hv => stringKey_person hv) fun a ha b hb v hva hvb => ?_
    rw [mem_singleton.mp ha] at hva
    rw [mem_singleton.mp hb] at hvb
    cases hva
    exact absurd (Value.string.inj (some.inj hvb)) (by decide)
  obtain rfl := some.inj hc
  refine ⟨fun t ht hpk => ?_, fun c hc => ?_⟩
  · obtain rfl := some.inj ht
    cases hpk
  obtain rfl := some.inj hc
  refine ⟨fun _ _ => trivial, fun c hc => ?_⟩
  obtain rfl := some.inj hc
  refine ⟨⟨fun _ _ => trivial, fun _ _ => trivial⟩, fun c hc => ?_⟩
  obtain rfl := some.inj hc
  refine ⟨fun t ht => ?_, fun _ _ => trivial⟩
  obtain rfl := some.inj ht
  refine ⟨fun row hrow => ?_, NodeTable.keyedRows_singleton fun v hv => stringKey_person hv⟩
  rw [mem_singleton.mp hrow]
  rfl

end Social

end Akar
