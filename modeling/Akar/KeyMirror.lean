import Akar.ArtMultimap
import Akar.ByteCodec
import Akar.KeyedIndex
import Akar.NodeRollback
import Akar.Runs

namespace Akar

open List Option NodeSchema

def TextKeys [Rendering] (K : Set Value) : Prop :=
  (∀ v ∈ K, v.isNull = false) ∧ Set.InjOn pkValueToString K

/-- The keys a radix tree takes: one that is a proper part of another at its start makes
`split_node` panic. -/
structure ArtKeys (K : Set Value) : Prop where
  encoded : ∀ v ∈ K, (artKeyFromValue v).isSome
  distinct : Set.InjOn artKeyFromValue K
  prefixFree : ArtPrimaryKeyIndex.PrefixFree { key | ∃ v ∈ K, artKeyFromValue v = some key }

variable {l m : List UInt8}

theorem escapeByte_append {a b : UInt8} (h : escapeByte a ++ l = escapeByte b ++ m) : a = b ∧ l =
    m := by
  grind [escapeByte]

theorem terminated_cons (b : UInt8) (bytes : List UInt8) :
    terminated (b :: bytes) = escapeByte b ++ terminated bytes := by
  rw [terminated, flatMap_cons, append_assoc]
  rfl

theorem escapeByte_append_ne {b : UInt8} : escapeByte b ++ l ≠ 0 :: m := by
  grind [escapeByte]

/-- Escaping makes the terminated encodings prefix-free. -/
theorem eq_of_terminated (h : terminated l <+: terminated m) : l = m := by
  obtain ⟨t, ht⟩ := h
  induction l generalizing m with
  | nil =>
    cases m with
    | nil => rfl
    | cons b m =>
      rw [terminated_cons] at ht
      exact absurd ht.symm escapeByte_append_ne
  | cons a l ih =>
    cases m with
    | nil =>
      rw [terminated_cons, append_assoc] at ht
      exact absurd ht escapeByte_append_ne
    | cons =>
      rw [terminated_cons, terminated_cons, append_assoc] at ht
      obtain ⟨rfl, hrest⟩ := escapeByte_append ht
      rw [ih hrest]

def stringKeys : Set Value := Set.range Value.string

theorem textKeys_string [Rendering] : TextKeys stringKeys := by
  refine ⟨?_, ?_⟩
  · rintro _ ⟨s, rfl⟩
    rfl
  · rintro _ ⟨s, rfl⟩ _ ⟨s', rfl⟩ h
    exact congrArg Value.string h

/-- String keys never run into one another in the tree. -/
theorem artKeys_string : ArtKeys stringKeys := by
  refine ⟨?_, ?_, ?_⟩
  · rintro _ ⟨s, rfl⟩
    rfl
  · rintro _ ⟨s, rfl⟩ _ ⟨s', rfl⟩ h
    have hbytes := eq_of_terminated ⟨[], (append_nil _).trans (some.inj h)⟩
    rw [ByteCodec.toUTF8_toList_inj hbytes]
  · rintro _ ⟨_, ⟨s, rfl⟩, ⟨⟩⟩ _ ⟨_, ⟨s', rfl⟩, ⟨⟩⟩ hprefix
    rw [eq_of_terminated hprefix]

open ArtPrimaryKeyIndex in
/-- The radix tree files such keys without a panic. -/
theorem ArtKeys.run {K : Set Value} (h : ArtKeys K) {ops : List ArtOp}
    (hops : ∀ key rowOffset, ArtOp.insert key rowOffset ∈ ops → ∃ v ∈ K, artKeyFromValue v = some key) :
    ∃ ix, Akar.run ArtPrimaryKeyIndex.step new ops = some ix ∧ ix.Files (ArtOp.stored ops) := by
  have hmeets := (pathsTo_new _).meets h.prefixFree hops
  obtain ⟨ix, hrun⟩ := isSome_iff_exists.mp ((run_isSome_iff files_new).mpr hmeets)
  exact ⟨ix, hrun, files_new.run hrun⟩

namespace ArtIndex

def Mirrors {α : Type} (key : α → Option (List UInt8)) (l : List α) (ix : ArtIndex) : Prop :=
  ∃ look, Akar.Mirrors key l look ∧ ∀ k, ix.offsets k = (look k).toList

variable {α : Type} {key : α → Option (List UInt8)} {l : List α} {ix : ArtIndex} {a : α} {i : Nat}
    {g : α → α}

theorem mirrors_empty : empty.Mirrors key [] := ⟨_, mirrors_nil, fun _ => rfl⟩

theorem Mirrors.modify (h : ix.Mirrors key l) (hg : ∀ a, l[i]? = some a → key (g a) = key a) :
    ix.Mirrors key (l.modify i g) := by
  obtain ⟨look, hl, ho⟩ := h
  exact ⟨look, hl.modify hg, ho⟩

theorem Mirrors.file {m : List α} (h : ix.Mirrors key l) (hne : key a ≠ some [])
    (hd : Distinct key (l ++ a :: m)) :
    (ix.file (key a) l.length).Mirrors key (l ++ [a]) := by
  obtain ⟨look, hl, ho⟩ := h
  refine ⟨_, hl.concat fun k hk => hl.look_none_of_distinct hd hk, fun k => ?_⟩
  rw [offsets_file _ hne, ho k]
  split
  next hk => rw [hl.look_none_of_distinct hd hk]; rfl
  next => rfl

theorem Mirrors.unfile (h : ix.Mirrors key l) (hne : key a ≠ some []) (hi : l[i]? = some a)
    (hg : key (g a) = none) :
    (ix.unfile (key a) i).Mirrors key (l.modify i g) := by
  obtain ⟨look, hl, ho⟩ := h
  refine ⟨_, hl.erase hi hg, fun k => ?_⟩
  rw [offsets_unfile _ hne, ho k]
  split
  next hk =>
    have hlook : look k = some i := (hl k i).mpr (by rw [hi]; exact hk)
    simp [hlook]
  next => rfl

end ArtIndex

namespace NodeSchema

variable (t : NodeSchema) (row : List Value)

def liveKey : Option Value := (t.pkOf row).filter (!·.isNull)

theorem keyOf_eq [Rendering] : t.keyOf row = (t.liveKey row).map pkValueToString := rfl

theorem artKeyOf_eq : t.artKeyOf row = (t.liveKey row).bind artKeyFromValue := by
  unfold artKeyOf liveKey
  cases t.pkOf row with
  | none => rfl
  | some v => cases v <;> rfl

theorem liveKey_eq_some (hpk : t.hasPk = true) {v : Value} :
    t.liveKey row = some v ↔ t.live row = true ∧ t.pkOf row = some v := by
  constructor
  · intro h
    obtain ⟨hv, hnull⟩ := filter_eq_some_iff.mp h
    exact ⟨by simp [live, hpk, hv, hnull], hv⟩
  · rintro ⟨hlive, hv⟩
    refine filter_eq_some_iff.mpr ⟨hv, ?_⟩
    simpa [live, hpk, hv] using hlive

theorem exists_liveKey (hpk : t.hasPk = true) (hlive : t.live row = true) : ∃ v, t.liveKey row =
    some v := by
  unfold live at hlive
  rw [if_pos hpk] at hlive
  cases hv : t.pkOf row with
  | none => rw [hv] at hlive; cases hlive
  | some v =>
    rw [hv] at hlive
    exact ⟨v, filter_eq_some_iff.mpr ⟨hv, hlive⟩⟩

end NodeSchema

namespace NodeTable

variable {K : Set Value} {s : NodeSchema} {t : NodeTable} {l rows : List (List Value)}
    {row : List Value}
  {r c : Nat} {v : Value}

structure KeyedRows (K : Set Value) (s : NodeSchema) (rows : List (List Value)) : Prop where
  keys : ∀ row ∈ rows, ∀ v, s.liveKey row = some v → v ∈ K
  distinct : Distinct s.liveKey rows

theorem keyedRows_singleton (h : ∀ v, s.liveKey row = some v → v ∈ K) :
    KeyedRows K s [row] := by
  refine ⟨fun r hr => ?_, fun k i j hi hj => ?_⟩
  · rw [mem_singleton.mp hr]
    exact h
  · obtain ⟨_, ha, _⟩ := bind_eq_some_iff.mp hi
    obtain ⟨_, hb, _⟩ := bind_eq_some_iff.mp hj
    have hi0 := lt_length_of_getElem? ha
    have hj0 := lt_length_of_getElem? hb
    rw [length_singleton] at hi0 hj0
    omega

theorem KeyedRows.append (h : KeyedRows K s l) (h' : KeyedRows K s rows)
    (hnew : ∀ a ∈ l, ∀ b ∈ rows, ∀ v, s.liveKey a = some v → s.liveKey b ≠ some v) :
      KeyedRows K s (l ++ rows) := by
  exact ⟨forall_mem_append.mpr ⟨h.keys, h'.keys⟩, h.distinct.append h'.distinct hnew⟩

theorem KeyedRows.distinct_artKeyOf (h : KeyedRows K s rows) (hA : ArtKeys K) :
    Distinct s.artKeyOf rows := by
  refine h.distinct.of_key fun a ha b hb bytes hba hbb => ?_
  rw [artKeyOf_eq] at hba hbb
  obtain ⟨v, hv, hbv⟩ := bind_eq_some_iff.mp hba
  obtain ⟨w, hw, hbw⟩ := bind_eq_some_iff.mp hbb
  cases hA.distinct (h.keys a ha v hv) (h.keys b hb w hw) (hbv.trans hbw.symm)
  exact ⟨v, hv, hw⟩

theorem mirrors_artRows {ix : ArtIndex} (h : ix.Mirrors s.artKeyOf l)
    (hd : Distinct s.artKeyOf (l ++ rows)) :
    (artRows s l.length rows ix).Mirrors s.artKeyOf (l ++ rows) := by
  induction rows generalizing l ix with
  | nil => rw [append_nil]; exact h
  | cons row rows ih =>
    have hrest := ih (h.file (artKeyOf_ne_nil s row) hd) (by simpa using hd)
    simpa [artRows] using hrest

def Agrees (t : NodeTable) (r c : Nat) (v : Value) : Prop :=
  c = t.primaryKeyColumn → ∀ old, t.getValue r c = some old → v = old

theorem Agrees.pkOf_set (h : t.Agrees r c v) (hrow : t.rows[r]? = some row) :
    t.pkOf (row.set c v) = t.pkOf row := by
  unfold NodeSchema.pkOf
  split
  · by_cases hc : c = t.primaryKeyColumn
    · rw [← hc, getElem?_set_self']
      cases hold : row[c]? with
      | none => rfl
      | some old => rw [h hc old (by rw [getValue_of_row hrow, hold])]; rfl
    · rw [getElem?_set_ne hc]
  · rfl

/-- A cell update fails or is `setCell` at a cell of the table. -/
theorem updateCell_cases (t : NodeTable) (r c : Nat) (v : Value) :
    (∃ e, t.updateCell r c v = .error e) ∨
      c < t.columns.length ∧ r < t.numRows ∧ t.updateCell r c v = .ok (t.setCell r c v) := by
  by_cases hc : t.columns.length ≤ c
  · exact .inl ⟨_, if_pos hc⟩
  · by_cases hr : t.numRows ≤ r
    · exact .inl ⟨_, by unfold updateCell; rw [if_neg hc, if_pos hr]⟩
    · exact .inr ⟨by omega, by omega, updateCell_ok (by omega) (by omega)⟩

variable [Rendering]

theorem KeyedRows.distinct_keyOf (h : KeyedRows K s rows) (hK : TextKeys K) :
    Distinct s.keyOf rows := by
  refine h.distinct.of_key fun a ha b hb text hta htb => ?_
  obtain ⟨v, hv, rfl⟩ := map_eq_some_iff.mp hta
  obtain ⟨w, hw, heq⟩ := map_eq_some_iff.mp htb
  cases hK.2 (h.keys a ha v hv) (h.keys b hb w hw) heq.symm
  exact ⟨v, hv, hw⟩

theorem mirrors_indexRows {ix : HashIndex} (h : Mirrors s.keyOf l ix.lookup)
    (hd : Distinct s.keyOf (l ++ rows)) :
    Mirrors s.keyOf (l ++ rows) (indexRows s l.length rows ix).lookup := by
  induction rows generalizing l ix with
  | nil => rw [append_nil]; exact h
  | cons row rows ih =>
    have hfile : Mirrors s.keyOf (l ++ [row]) (ix.file (s.keyOf row) l.length).lookup := by
      rw [funext (ix.lookup_file (s.keyOf row) l.length)]
      exact h.concat fun k hk => h.look_none_of_distinct hd hk
    have hrest := ih hfile (by simpa using hd)
    simpa [indexRows] using hrest

/-- The indexes hold the keys of the live rows, all of them from `K`, and nothing else. -/
structure Indexed (K : Set Value) (t : NodeTable) : Prop where
  keys : ∀ row ∈ t.rows, ∀ v, t.liveKey row = some v → v ∈ K
  hash : Mirrors t.keyOf t.rows t.hashIndex.lookup
  art : ∀ art ∈ t.artIndex, ArtKeys K ∧ art.Mirrors t.artKeyOf t.rows

theorem indexed_new (tableId : Nat) (name : String) (columns : List ColumnDefinition) :
    (NodeTable.new tableId name columns).Indexed K where
  keys := nofun
  hash := mirrors_nil
  art := nofun

namespace Indexed

theorem keyedRows (h : t.Indexed K) : KeyedRows K t.toNodeSchema t.rows := by
  refine ⟨h.keys, h.hash.distinct.of_key fun a _ b _ v hva hvb => ?_⟩
  exact ⟨pkValueToString v, by rw [keyOf_eq, hva]; rfl, by rw [keyOf_eq, hvb]; rfl⟩

theorem appendRows (h : t.Indexed K) (hK : TextKeys K)
    (hw : ∀ row ∈ rows, row.length = t.columns.length) (hrows : KeyedRows K t.toNodeSchema rows)
    (hfresh : ∀ row ∈ rows, ∀ key, t.keyOf row = some key → t.hashIndex.lookup key = none) :
    (t.appendRows rows hw).Indexed K := by
  have hall : KeyedRows K t.toNodeSchema (t.rows ++ rows) := by
    refine h.keyedRows.append hrows fun a ha b hb v hva hvb => ?_
    have htext : t.keyOf b = some (pkValueToString v) := by rw [keyOf_eq, hvb]; rfl
    refine h.hash.ne_of_look_none (hfresh b hb _ htext) ha ?_
    rw [keyOf_eq, hva]
    rfl
  refine ⟨hall.keys, mirrors_indexRows h.hash (hall.distinct_keyOf hK), ?_⟩
  intro art hart
  obtain ⟨art₀, h₀, rfl⟩ := map_eq_some_iff.mp hart
  obtain ⟨hA, hm⟩ := h.art art₀ h₀
  exact ⟨hA, mirrors_artRows hm (hall.distinct_artKeyOf hA)⟩

theorem loaded (h : t.Indexed K) (hK : TextKeys K) (hw : ∀ row ∈ rows, row.length = t.columns.length)
    (hrows : KeyedRows K t.toNodeSchema rows) : (t.loaded rows hw).Indexed K := by
  refine ⟨hrows.keys, mirrors_indexRows (l := []) mirrors_nil (hrows.distinct_keyOf hK), ?_⟩
  intro art hart
  obtain ⟨art₀, h₀, rfl⟩ := map_eq_some_iff.mp hart
  obtain ⟨hA, _⟩ := h.art art₀ h₀
  exact ⟨hA, mirrors_artRows (l := []) ArtIndex.mirrors_empty (hrows.distinct_artKeyOf hA)⟩

omit [Rendering] in
theorem liveKey_nullRow (s : NodeSchema) (row : List Value) : s.liveKey (nullRow row) = none := by
  unfold NodeSchema.liveKey NodeSchema.pkOf nullRow
  rw [getElem?_map]
  split
  · cases row[s.primaryKeyColumn]? <;> rfl
  · rfl

theorem buryRow (h : t.Indexed K) (hrow : t.rows[r]? = some row) : (t.buryRow r row).Indexed K := by
  have hdead := liveKey_nullRow t.toNodeSchema
  refine ⟨?_, ?_, ?_⟩
  · refine forall_mem_modify h.keys fun row _ v hv => ?_
    cases (hdead row).symm.trans hv
  · show Mirrors t.keyOf (t.rows.modify r nullRow) (t.hashIndex.unfile (t.keyOf row)).lookup
    rw [funext (t.hashIndex.lookup_unfile (t.keyOf row))]
    exact h.hash.erase hrow (by rw [keyOf_eq, hdead]; rfl)
  · intro art hart
    obtain ⟨art₀, h₀, rfl⟩ := map_eq_some_iff.mp hart
    obtain ⟨hA, hm⟩ := h.art art₀ h₀
    exact ⟨hA, hm.unfile (artKeyOf_ne_nil _ _) hrow (by rw [artKeyOf_eq, hdead]; rfl)⟩

theorem createArtIndex {t' : NodeTable} (h : t.Indexed K) (hA : ArtKeys K)
    (ht : t.createArtIndex = .ok t') :
    t'.Indexed K := by
  obtain ⟨_, ht⟩ := reject_ok ht
  cases ht
  refine ⟨h.keys, h.hash, ?_⟩
  intro art hart
  cases hart
  exact ⟨hA, mirrors_artRows (l := []) ArtIndex.mirrors_empty (h.keyedRows.distinct_artKeyOf hA)⟩

theorem dropArtIndex (h : t.Indexed K) : t.dropArtIndex.Indexed K := ⟨h.keys, h.hash, nofun⟩

end Indexed

theorem Indexed.setCell (h : t.Indexed K) (ha : t.Agrees r c v) : (t.setCell r c v).Indexed K := by
  have hlive : ∀ row, t.rows[r]? = some row → t.liveKey (row.set c v) = t.liveKey row := by
    intro row hrow
    unfold NodeSchema.liveKey
    rw [ha.pkOf_set hrow]
  refine ⟨?_, h.hash.modify ?_, ?_⟩
  · intro row hrow w hw
    obtain ⟨j, hj⟩ := key_of_mem hrow hw
    obtain ⟨row', hrow', hw'⟩ := key_mem ((key_modify hlive j).symm.trans hj)
    exact h.keys row' hrow' w hw'
  · intro row hrow
    exact congrArg (Option.map pkValueToString) (hlive row hrow)
  · intro art hart
    obtain ⟨hA, hm⟩ := h.art art hart
    refine ⟨hA, hm.modify fun row hrow => ?_⟩
    rw [artKeyOf_eq, artKeyOf_eq, hlive row hrow]

theorem Indexed.restoreCells {values : List Value} (h : t.Indexed K)
    (ha : ∀ j v, values[j]? = some v → t.Agrees r (c + j) v) :
      (t.restoreCells r c values).Indexed K := by
  induction values generalizing t c with
  | nil => exact h
  | cons v values ih =>
    have hrest : ∀ j w, values[j]? = some w → t.Agrees r (c + 1 + j) w := by
      intro j w hw
      rw [show c + 1 + j = c + (j + 1) by omega]
      exact ha (j + 1) w hw
    rw [NodeTable.restoreCells]
    rcases t.updateCell_cases r c v with ⟨e, he⟩ | ⟨hc, hr, hok⟩
    · rw [he]
      exact ih h hrest
    · rw [hok]
      refine ih (h.setCell (ha 0 v rfl)) fun j w hw hpk old hold => ?_
      -- a later cell still has the value it had
      refine hrest j w hw hpk old ?_
      rwa [Except.toOption, getD_some, getValue_setCell hr hc, if_neg (by omega)] at hold

def UndoAgrees (t : NodeTable) (u : UndoRecord) : Prop := match u.undoType with
  | .update =>
    ∀ v, (deserializeValuesFromBytes u.oldData 1).head? = some v → t.Agrees u.rowId u.column v
  | .insert => True
  | .delete =>
    ∀ c v, (deserializeValuesFromBytes u.oldData t.columns.length)[c]? = some v →
    t.Agrees u.rowId c v

/-- Undoing a record that agrees with the keys keeps both indexes in step with the rows. -/
theorem Indexed.undo {u : UndoRecord} {t' : NodeTable} (h : t.Indexed K) (hu : t.UndoAgrees u)
    (ht : t.undo u = .ok t') : t'.Indexed K := by
  unfold NodeTable.undo at ht
  unfold UndoAgrees at hu
  split at ht
  next hty =>
    rw [hty] at hu
    split at ht
    next v hv =>
      rcases t.updateCell_cases u.rowId u.column v with ⟨e, he⟩ | ⟨_, _, hok⟩
      · rw [he] at ht
        cases ht
      · rw [hok] at ht
        cases ht
        exact h.setCell (hu v hv)
    next => cases ht; exact h
  next hty =>
    cases ht
    unfold NodeTable.deleteRow
    split
    next => exact h
    next row hrow => exact h.buryRow hrow
  next hty =>
    cases ht
    rw [hty] at hu
    refine h.restoreCells fun j v hv => ?_
    rw [Nat.zero_add]
    exact hu j v hv

end NodeTable

end Akar
