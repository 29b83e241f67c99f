import Akar.ArtMultimap
import Akar.KeyEncoding

namespace Akar

open List Option NodeTable

structure ArtTable where
  table : NodeTable
  art : Option ArtPrimaryKeyIndex

inductive RowCall where
  | insertRow (values : List Value)
  | insertRowsBatch (batch : List (List Value))
  | deleteRow (rowIdx : Nat)
  | createArtIndex

namespace ArtTable

def fileRow (s : NodeSchema) (ix : ArtPrimaryKeyIndex) (rowIdx : Nat) (row : List Value) :
    Option ArtPrimaryKeyIndex :=
  match s.artKeyOf row with
  | some key => ix.insert key rowIdx
  | none => some ix

/-- The rows are filed one by one; `none` is a panic. -/
def fileRows (s : NodeSchema) : Nat → List (List Value) → ArtPrimaryKeyIndex → Option ArtPrimaryKeyIndex
  | _, [], ix => some ix
  | i, row :: rows, ix => (fileRow s ix i row).bind (fileRows s (i + 1) rows)

def appended (t : ArtTable) (table : NodeTable) : Option ArtTable := match t.art with
  | none => some ⟨table, none⟩
  | some ix =>
    (fileRows table.toNodeSchema t.table.numRows (table.rows.drop t.table.numRows)
      ix).map fun ix => ⟨table, some ix⟩

def unfileRow (s : NodeSchema) (rowIdx : Nat) (row : List Value) (ix : ArtPrimaryKeyIndex) :
    ArtPrimaryKeyIndex :=
  match s.artKeyOf row with
  | some key => ix.delete key rowIdx
  | none => ix

/-- A call that returns an error changes nothing. -/
def step [Rendering] (t : ArtTable) : RowCall → Option ArtTable
  | .insertRow values =>
    match t.table.insertRow values with
    | .error _ => some t
    | .ok (_, table) => t.appended table
  | .insertRowsBatch batch =>
    match t.table.insertRowsBatch batch with
    | .error _ => some t
    | .ok (_, table) => t.appended table
  | .deleteRow rowIdx =>
    match t.table.deleteRow rowIdx, t.table.rows[rowIdx]? with
    | .ok table, some row => some ⟨table, t.art.map (unfileRow t.table.toNodeSchema rowIdx row)⟩
    | _, _ => some t
  | .createArtIndex =>
    match t.table.createArtIndex with
    | .error _ => some t
    | .ok table => (fileRows t.table.toNodeSchema 0 t.table.rows .new).map fun ix => ⟨table, some ix⟩

def lookupByPkRange (t : ArtTable) (lower : Option Value) (lowerInclusive : Bool) (upper : Option Value)
    (upperInclusive : Bool) (maxResults : Nat) : List Nat :=
  match t.art with
  | some ix =>
    ix.rangeScan ⟨lower.bind artKeyFromValue, lowerInclusive, upper.bind artKeyFromValue,
      upperInclusive, maxResults⟩
  | none => []

def storedFrom (s : NodeSchema) : Nat → List (List Value) → List (List UInt8 × Nat)
  | _, [] => []
  | i, row :: rows => ((s.artKeyOf row).map fun key => (key, i)).toList ++ storedFrom s (i + 1) rows

variable {s : NodeSchema} {rows : List (List Value)} {row : List Value} {key : List UInt8} {i j r : Nat}

theorem mem_storedFrom : (key, j) ∈ storedFrom s i rows ↔ ∃ n, j = i + n ∧
    (rows[n]?).bind s.artKeyOf = some key := by
  induction rows generalizing i with
  | nil => simp [storedFrom]
  | cons row rows ih =>
    rw [storedFrom, mem_append, ih]
    constructor
    · rintro (h | ⟨n, rfl, h⟩)
      · refine ⟨0, ?_⟩
        cases hkey : s.artKeyOf row with
        | none => rw [hkey] at h; cases h
        | some k =>
          rw [hkey] at h
          obtain ⟨rfl, rfl⟩ : key = k ∧ j = i := by simpa using h
          exact ⟨rfl, hkey⟩
      · exact ⟨n + 1, by omega, h⟩
    · rintro ⟨n, rfl, h⟩
      cases n with
      | zero =>
        left
        have hkey : s.artKeyOf row = some key := h
        simp [hkey]
      | succ n => exact .inr ⟨n, by omega, h⟩

theorem storedFrom_append (s : NodeSchema) (i : Nat) (l m : List (List Value)) :
    storedFrom s i (l ++ m) = storedFrom s i l ++ storedFrom s (i + l.length) m := by
  induction l generalizing i with
  | nil => rfl
  | cons row l ih =>
    have hindex : i + 1 + l.length = i + (l.length + 1) := by omega
    rw [cons_append, storedFrom, storedFrom, ih, append_assoc, length_cons, hindex]

variable {f : List Value → List Value}

theorem storedFrom_modify (hrow : rows[r]? = some row) (hf : s.artKeyOf (f row) = none) :
    storedFrom s i (rows.modify r f) = match s.artKeyOf row with
      | some key => (storedFrom s i rows).erase (key, i + r)
      | none => storedFrom s i rows := by
  induction rows generalizing i r with
  | nil => cases hrow
  | cons row' rows ih =>
    cases r with
    | zero =>
      cases hrow
      rw [modify_zero_cons, storedFrom, storedFrom, hf]
      cases hkey : s.artKeyOf row with
      | none => rfl
      | some key => simp
    | succ r =>
      have hindex : i + 1 + r = i + (r + 1) := by omega
      have ih' := ih (i := i + 1) (r := r) hrow
      rw [hindex] at ih'
      rw [modify_succ_cons, storedFrom, storedFrom, ih']
      cases s.artKeyOf row with
      | none => rfl
      | some =>
        -- an earlier row has an earlier offset
        cases s.artKeyOf row' with
        | none | some => simp

def encodings (kind : KeyKind) : Set (List UInt8) := {key | ∃ v, Encodes kind v key}

def KeysOf (kind : KeyKind) (s : NodeSchema) (rows : List (List Value)) : Prop :=
  ∀ row ∈ rows, ∀ v, s.liveKey row = some v → v.keyKind = some kind

variable {kind : KeyKind} {t t' : ArtTable}

theorem KeysOf.encodes (h : KeysOf kind s rows) (hrow : row ∈ rows) (hkey : s.artKeyOf row = some key) :
    ∃ v, s.liveKey row = some v ∧ Encodes kind v key := by
  rw [NodeSchema.artKeyOf_eq] at hkey
  obtain ⟨v, hv, hbytes⟩ := bind_eq_some_iff.mp hkey
  obtain ⟨bytes, hbytes', henc⟩ := exists_encodes (h row hrow v hv)
  cases hbytes.symm.trans hbytes'
  exact ⟨v, hv, henc⟩

def Holds (kind : KeyKind) (ix : ArtPrimaryKeyIndex) (stored : List (List UInt8 × Nat)) : Prop :=
  ix.Files stored ∧ ix.PathsTo (encodings kind)

theorem holds_new (kind : KeyKind) : Holds kind .new [] :=
  ⟨ArtPrimaryKeyIndex.files_new, ArtPrimaryKeyIndex.pathsTo_new _⟩

variable {ix : ArtPrimaryKeyIndex} {stored : List (List UInt8 × Nat)}

theorem Holds.fileRow (h : Holds kind ix stored) (hrow : KeysOf kind s [row])
    (i : Nat) :
    ∃ ix', ArtTable.fileRow s ix i row = some ix' ∧
      Holds kind ix' (stored ++ ((s.artKeyOf row).map fun key => (key, i)).toList) := by
  unfold ArtTable.fileRow
  cases hkey : s.artKeyOf row with
  | none => exact ⟨ix, rfl, by simpa using h⟩
  | some key =>
    obtain ⟨v, _, henc⟩ := hrow.encodes mem_cons_self hkey
    have hmem : key ∈ encodings kind := ⟨v, henc⟩
    have hne : key ≠ [] := fun heq => artKeyOf_ne_nil s row (hkey.trans (congrArg some heq))
    have haccept := h.2.accepts (fun _ ⟨_, hv⟩ _ ⟨_, hw⟩ => (hv.stand hw).whole) hmem i
    obtain ⟨ix', hix'⟩ :=
      isSome_iff_exists.mp ((ArtPrimaryKeyIndex.step_isSome_iff h.1.valid).mpr haccept)
    refine ⟨ix', hix', ?_, h.2.step (fun k off heq => by cases heq; exact hmem) hix'⟩
    have hfiles := h.1.step hix'
    rw [ArtOp.file, if_neg hne] at hfiles
    exact hfiles

theorem Holds.fileRows (h : Holds kind ix stored) (hrows : KeysOf kind s rows)
    (i : Nat) : ∃ ix', ArtTable.fileRows s i rows ix = some ix' ∧
      Holds kind ix' (stored ++ storedFrom s i rows) := by
  induction rows generalizing ix stored i with
  | nil => exact ⟨ix, rfl, by simpa [storedFrom] using h⟩
  | cons row rows ih =>
    have hrow : KeysOf kind s [row] := fun r hr => hrows r (mem_singleton.mp hr ▸ mem_cons_self)
    obtain ⟨ix₁, hix₁, h₁⟩ := h.fileRow hrow i
    obtain ⟨ix', hix', h'⟩ := ih h₁ (forall_mem_cons.mp hrows).2 (i + 1)
    refine ⟨ix', ?_, ?_⟩
    · rw [ArtTable.fileRows, hix₁]
      exact hix'
    · rw [storedFrom, ← append_assoc]
      exact h'

structure Filed (kind : KeyKind) (t : ArtTable) : Prop where
  keys : KeysOf kind t.table.toNodeSchema t.table.rows
  art : ∀ ix ∈ t.art, Holds kind ix (storedFrom t.table.toNodeSchema 0 t.table.rows)

def StoresKind (kind : KeyKind) (t : ArtTable) : RowCall → Prop
  | .insertRow values => ∀ row, NodeTable.checkedRow t.table.toNodeSchema values = .ok row →
      KeysOf kind t.table.toNodeSchema [row]
  | .insertRowsBatch batch => ∀ rows, NodeTable.coerceRows t.table.columns batch = .ok rows →
      KeysOf kind t.table.toNodeSchema rows
  | .deleteRow _ => True
  | .createArtIndex => True

theorem Filed.appended {table : NodeTable} (h : t.Filed kind)
    (hschema : table.toNodeSchema = t.table.toNodeSchema)
    (hrows : table.rows = t.table.rows ++ rows) (hkeys : KeysOf kind t.table.toNodeSchema rows) :
    ∃ t', t.appended table = some t' ∧ t'.Filed kind := by
  have hdrop : table.rows.drop t.table.numRows = rows := by
    rw [hrows, NodeTable.numRows, drop_left]
  have hall : KeysOf kind table.toNodeSchema table.rows := by
    rw [hschema, hrows]
    exact forall_mem_append.mpr ⟨h.keys, hkeys⟩
  unfold ArtTable.appended
  cases hart : t.art with
  | none =>
    refine ⟨_, rfl, hall, ?_⟩
    intro ix hix
    cases hix
  | some ix =>
    obtain ⟨ix', hix', hholds⟩ := (h.art ix hart).fileRows hkeys t.table.numRows
    refine ⟨⟨table, some ix'⟩, ?_, hall, ?_⟩
    · simp [hdrop, hschema, hix']
    · intro ix₁ hix₁
      cases hix₁
      rw [hschema, hrows, storedFrom_append, Nat.zero_add]
      exact hholds

theorem Holds.unfileRow (h : Holds kind ix (storedFrom s 0 rows))
    (hrow : rows[r]? = some row) (hf : s.artKeyOf (f row) = none) :
    Holds kind (ArtTable.unfileRow s r row ix) (storedFrom s 0 (rows.modify r f)) := by
  rw [storedFrom_modify hrow hf, Nat.zero_add]
  unfold ArtTable.unfileRow
  cases hkey : s.artKeyOf row with
  | none => exact h
  | some key =>
    have hne : key ≠ [] := fun heq => artKeyOf_ne_nil s row (hkey.trans (congrArg some heq))
    have hstep : ix.step (.delete key r) = some (ix.delete key r) := rfl
    have hpaths : (ix.delete key r).PathsTo (encodings kind) := by
      refine h.2.step ?_ hstep
      nofun
    refine ⟨?_, hpaths⟩
    have hfiles := h.1.step hstep
    rw [ArtOp.file, if_neg hne] at hfiles
    exact hfiles

theorem Filed.step [Rendering] {a : RowCall} (h : t.Filed kind) (hok : t.StoresKind kind a) :
    ∃ t', t.step a = some t' ∧ t'.Filed kind := by
  cases a with
  | insertRow values =>
    rw [ArtTable.step]
    cases hins : t.table.insertRow values with
    | error e => exact ⟨t, rfl, h⟩
    | ok result =>
      obtain ⟨n, t'⟩ := result
      obtain ⟨row, hrow, -, rfl, rfl⟩ := NodeTable.insertRow_eq_ok hins
      exact h.appended (appendRow_toNodeSchema ..) (appendRow_rows ..) (hok row hrow)
  | insertRowsBatch batch =>
    rw [ArtTable.step]
    cases hins : t.table.insertRowsBatch batch with
    | error e => exact ⟨t, rfl, h⟩
    | ok result =>
      unfold NodeTable.insertRowsBatch at hins
      split at hins
      next =>
        cases hins
        have hnil : t.table.rows = t.table.rows ++ [] := (append_nil _).symm
        exact h.appended rfl hnil nofun
      next =>
        split at hins
        · cases hins
        next =>
          split at hins
          · cases hins
          next rows hrows =>
            cases hins
            exact h.appended rfl rfl (hok rows hrows)
  | deleteRow rowIdx =>
    rw [ArtTable.step, NodeTable.deleteRow]
    cases hrow : t.table.rows[rowIdx]? with
    | none => exact ⟨t, rfl, h⟩
    | some row =>
      have hnull (row : List Value) : t.table.artKeyOf (NodeTable.nullRow row) = none := by
        rw [NodeSchema.artKeyOf_eq, Indexed.liveKey_nullRow]
        rfl
      refine ⟨_, rfl, ?_, ?_⟩
      · show KeysOf kind t.table.toNodeSchema (t.table.rows.modify rowIdx NodeTable.nullRow)
        refine forall_mem_modify h.keys fun row _ v hv => ?_
        rw [Indexed.liveKey_nullRow] at hv
        cases hv
      · intro ix hix
        obtain ⟨ix₀, hix₀, rfl⟩ := map_eq_some_iff.mp hix
        exact (h.art ix₀ hix₀).unfileRow hrow (hnull row)
  | createArtIndex =>
    rw [ArtTable.step]
    cases hcreate : t.table.createArtIndex with
    | error e => exact ⟨t, rfl, h⟩
    | ok table =>
      have hsame : table.toNodeSchema = t.table.toNodeSchema ∧ table.rows = t.table.rows := by
        obtain ⟨_, hcreate⟩ := reject_ok hcreate
        cases hcreate
        exact ⟨rfl, rfl⟩
      obtain ⟨ix', hix', hholds⟩ := (holds_new kind).fileRows h.keys 0
      refine ⟨⟨table, some ix'⟩, ?_, ?_, ?_⟩
      · rw [hix']
        rfl
      · rw [hsame.1, hsame.2]
        exact h.keys
      · intro ix hix
        cases hix
        rw [hsame.1, hsame.2]
        exact hholds

theorem Filed.run [Rendering] {calls : List RowCall} (h : t.Filed kind)
    (hok : Meets ArtTable.step (StoresKind kind) t calls) :
    ∃ t', run ArtTable.step t calls = some t' ∧ t'.Filed kind := by
  induction calls generalizing t with
  | nil => exact ⟨t, rfl, h⟩
  | cons a calls ih =>
    obtain ⟨t₁, hstep, h₁⟩ := h.step hok.1
    obtain ⟨t', hrun, h'⟩ := ih h₁ (hok.2 t₁ hstep)
    exact ⟨t', run_cons_eq_some.mpr ⟨t₁, hstep, hrun⟩, h'⟩

def InBounds (lower : Option Value) (lowerInclusive : Bool) (upper : Option Value)
    (upperInclusive : Bool) (v : Value) : Prop :=
  (∀ l ∈ lower, if lowerInclusive then l.KeyLe v else l.KeyLt v) ∧
    ∀ u ∈ upper, if upperInclusive then v.KeyLe u else v.KeyLt u

/-- The offsets of the live rows with a key within the bounds, each once and in ascending order of
the keys. -/
structure RangeAnswer (t : NodeTable) (within : Value → Prop) (offsets : List Nat) : Prop where
  nodup : offsets.Nodup
  mem : ∀ i, i ∈ offsets ↔ ∃ row v, t.liveAt i = some row ∧ t.pkOf row = some v ∧ within v
  ascending : offsets.Pairwise fun i j => ∀ row row' v w, t.liveAt i = some row → t.liveAt j =
    some row' →
    t.pkOf row = some v → t.pkOf row' = some w → v.KeyLe w

variable {lower upper : Option Value} {lowerInclusive upperInclusive : Bool} {maxResults : Nat}
    {v : Value}

variable {q : RangeQuery}

theorem lowerBound_iff (hq : q.lower = lower.bind artKeyFromValue)
    (hlower : ∀ l ∈ lower, l.keyKind = some kind) (hkey : Encodes kind v key) :
    q.satisfiesLowerBound key = true ↔ ∀ l ∈ lower, if q.lowerInclusive then l.KeyLe v else l.KeyLt
      v := by
  unfold RangeQuery.satisfiesLowerBound
  rw [hq]
  cases lower with
  | none => simp
  | some l =>
    obtain ⟨bytes, hbytes, henc⟩ := exists_encodes (hlower l rfl)
    simp only [bind_some, hbytes, mem_def, some.injEq, forall_eq', satisfiesLower_iff]
    cases q.lowerInclusive with
    | false => simpa using henc.lt_iff hkey
    | true =>
      simp only [true_and, if_true]
      rw [← henc.le_iff hkey, Std.le_iff_lt_or_eq]

theorem upperBound_iff (hq : q.upper = upper.bind artKeyFromValue)
    (hupper : ∀ u ∈ upper, u.keyKind = some kind) (hkey : Encodes kind v key) :
    q.satisfiesUpperBound key = true ↔ ∀ u ∈ upper, if q.upperInclusive then v.KeyLe u else v.KeyLt
      u := by
  unfold RangeQuery.satisfiesUpperBound
  rw [hq]
  cases upper with
  | none => simp
  | some u =>
    obtain ⟨bytes, hbytes, henc⟩ := exists_encodes (hupper u rfl)
    simp only [bind_some, hbytes, mem_def, some.injEq, forall_eq', satisfiesUpper_iff]
    cases q.upperInclusive with
    | false => simpa using hkey.lt_iff henc
    | true =>
      simp only [true_and, if_true]
      rw [← hkey.le_iff henc, Std.le_iff_lt_or_eq]

theorem nodup_storedFrom (s : NodeSchema) (i : Nat) (rows : List (List Value)) :
    ((storedFrom s i rows).map (·.2)).Nodup := by
  induction rows generalizing i with
  | nil => exact nodup_nil
  | cons row rows ih =>
    rw [storedFrom]
    cases s.artKeyOf row with
    | none => exact ih (i + 1)
    | some =>
      refine nodup_cons.mpr ⟨?_, ih (i + 1)⟩
      intro hmem
      obtain ⟨⟨key', j⟩, hj, heq⟩ := mem_map.mp hmem
      obtain ⟨n, hn, -⟩ := mem_storedFrom.mp hj
      have hi : j = i := heq
      omega

theorem length_storedFrom_le (s : NodeSchema) (i : Nat) (rows : List (List Value)) :
    (storedFrom s i rows).length ≤ rows.length := by
  induction rows generalizing i with
  | nil => exact Nat.le_refl 0
  | cons row rows ih =>
    have hrest := ih (i + 1)
    rw [storedFrom, length_append, length_cons]
    cases s.artKeyOf row with
    | none =>
      simp only [map_none, toList_none, length_nil]
      omega
    | some =>
      simp only [map_some, toList_some, length_singleton]
      omega

theorem hasPk_of_pkOf (h : s.pkOf row = some v) : s.hasPk = true := by
  obtain ⟨hpk, h⟩ := ite_none_right_eq_some.mp h
  exact hpk

theorem Filed.rangeAnswer (h : t.Filed kind) (hart : t.art = some ix)
    (hlower : ∀ l ∈ lower, l.keyKind = some kind)
    (hupper : ∀ u ∈ upper, u.keyKind = some kind) (hmax : t.table.numRows ≤ maxResults) :
    RangeAnswer t.table (InBounds lower lowerInclusive upper upperInclusive)
      (t.lookupByPkRange lower lowerInclusive upper upperInclusive maxResults) := by
  set stored := storedFrom t.table.toNodeSchema 0 t.table.rows with hstored
  set q : RangeQuery :=
    ⟨lower.bind artKeyFromValue, lowerInclusive, upper.bind artKeyFromValue, upperInclusive,
      maxResults⟩ with hq
  have hperm : (byKey stored).Perm stored := mergeSort_perm stored _
  -- an entry of the index is a live row with its encoded key
  have hentry (e : List UInt8 × Nat) (he : e ∈ byKey stored) :
      ∃ row v, t.table.liveAt e.2 = some row ∧ t.table.pkOf row = some v ∧ Encodes kind v e.1 := by
    obtain ⟨n, hn, hkey⟩ := mem_storedFrom.mp (hperm.mem_iff.mp he)
    obtain rfl : e.2 = n := by omega
    obtain ⟨row, hrow, hkey⟩ := bind_eq_some_iff.mp hkey
    obtain ⟨v, hv, henc⟩ := h.keys.encodes (mem_of_getElem? hrow) hkey
    have hpk := hasPk_of_pkOf (filter_eq_some_iff.mp hv).1
    obtain ⟨hlive, hpkv⟩ := (t.table.liveKey_eq_some row hpk).mp hv
    exact ⟨row, v, filter_eq_some_iff.mpr ⟨hrow, hlive⟩, hpkv, henc⟩
  have hin (v : Value) (key : List UInt8) (henc : Encodes kind v key) :
      q.inRange key = true ↔ InBounds lower lowerInclusive upper upperInclusive v := by
    unfold RangeQuery.inRange InBounds
    rw [Bool.and_eq_true, lowerBound_iff rfl hlower henc, upperBound_iff rfl hupper henc]
  have hscan : t.lookupByPkRange lower lowerInclusive upper upperInclusive maxResults =
      ((byKey stored).filter fun e => q.inRange e.1).map (·.2) := by
    have hlen : (((byKey stored).filter fun e => q.inRange e.1).map (·.2)).length ≤ maxResults := by
      have hle := length_storedFrom_le t.table.toNodeSchema 0 t.table.rows
      have hfilter := length_filter_le (fun e => q.inRange e.1) (byKey stored)
      rw [hperm.length_eq] at hfilter
      rw [length_map]
      exact hfilter.trans (hle.trans hmax)
    rw [lookupByPkRange, hart]
    show ix.rangeScan q = _
    rw [(h.art ix hart).1.rangeScan q, take_of_length_le hlen]
  rw [hscan]
  refine ⟨?_, fun i => ?_, ?_⟩
  · have hnodup :=
      (hperm.map (·.2)).nodup_iff.mpr (nodup_storedFrom t.table.toNodeSchema 0 t.table.rows)
    exact hnodup.sublist (filter_sublist.map _)
  · rw [List.mem_map]
    constructor
    · rintro ⟨e, he, rfl⟩
      obtain ⟨hmem, hrange⟩ := mem_filter.mp he
      obtain ⟨row, v, hrow, hv, henc⟩ := hentry e hmem
      exact ⟨row, v, hrow, hv, (hin v e.1 henc).mp hrange⟩
    · rintro ⟨row, v, hrow, hv, hbounds⟩
      obtain ⟨hrow', hlive⟩ := filter_eq_some_iff.mp hrow
      have hkey := (t.table.liveKey_eq_some row (hasPk_of_pkOf hv)).mpr ⟨hlive, hv⟩
      obtain ⟨bytes, hbytes, henc⟩ := exists_encodes (h.keys row (mem_of_getElem? hrow') v hkey)
      have hmem : (bytes, i) ∈ stored := by
        refine mem_storedFrom.mpr ⟨i, by omega, ?_⟩
        rw [hrow', bind_some, NodeSchema.artKeyOf_eq, hkey]
        exact hbytes
      exact ⟨(bytes, i), mem_filter.mpr ⟨hperm.mem_iff.mpr hmem, (hin v bytes henc).mpr hbounds⟩, rfl⟩
  · apply pairwise_map.mpr
    have hsorted := ((pairwise_byKey stored).imp_of_mem (S := fun a b => ∀ row row' v w,
      t.table.liveAt a.2 = some row → t.table.liveAt b.2 = some row' → t.table.pkOf row = some v →
        t.table.pkOf row' = some w → v.KeyLe w) ?_)
    · exact hsorted.sublist filter_sublist
    · intro a b ha hb hle row row' v w hrow hrow' hv hw
      obtain ⟨row₁, v₁, hrow₁, hv₁, henc₁⟩ := hentry a ha
      obtain ⟨row₂, v₂, hrow₂, hv₂, henc₂⟩ := hentry b hb
      cases hrow.symm.trans hrow₁
      cases hrow'.symm.trans hrow₂
      cases hv.symm.trans hv₁
      cases hw.symm.trans hv₂
      exact (henc₁.le_iff henc₂).mp hle

variable [Rendering]

end ArtTable

section Numbers

attribute [local instance] Rendering.blank

def numbers : ArtTable := ⟨NodeTable.new 0 "numbers" [⟨"id", .int32, true⟩], none⟩

def numbersCalls : List RowCall := [.insertRow [.int32 1], .createArtIndex]

theorem keysOf_int32 {s : NodeSchema} {x : Int32} (h : s.pkOf [.int32 x] = some (.int32 x)) :
    ArtTable.KeysOf .int32 s [[.int32 x]] := by
  intro r hr v hv
  rw [mem_singleton.mp hr, NodeSchema.liveKey, h] at hv
  cases hv
  rfl

theorem numbersCalls_storesKind : Meets ArtTable.step (ArtTable.StoresKind .int32) numbers
    numbersCalls := by
  refine ⟨fun row hrow => ?_, fun _ _ => ⟨trivial, fun _ _ => trivial⟩⟩
  obtain rfl := Except.ok.inj hrow
  exact keysOf_int32 rfl

theorem numbersCalls_end {t : ArtTable} (hrun : run ArtTable.step numbers numbersCalls = some t) :
    t.table.rows = [[.int32 1]] ∧ t.table.toNodeSchema = numbers.table.toNodeSchema ∧
      t.art.isSome = true := by
  obtain ⟨t₁, hinsert, hrest⟩ := run_cons_eq_some.mp hrun
  obtain rfl := some.inj hinsert
  obtain ⟨t₂, hcreate, hnil⟩ := run_cons_eq_some.mp hrest
  obtain rfl := some.inj hnil
  obtain ⟨ix, -, rfl⟩ := map_eq_some_iff.mp hcreate
  exact ⟨rfl, rfl, rfl⟩

def moreCalls : List RowCall := [.insertRow [.int32 1], .insertRow [.int32 3], .createArtIndex]

theorem moreCalls_storesKind : Meets ArtTable.step (ArtTable.StoresKind .int32) numbers moreCalls := by
  refine ⟨fun row hrow => ?_, fun t₁ h₁ =>
    ⟨fun row hrow => ?_, fun _ _ => ⟨trivial, fun _ _ => trivial⟩⟩⟩
  · obtain rfl := Except.ok.inj hrow
    exact keysOf_int32 rfl
  · obtain rfl := some.inj h₁
    obtain rfl := Except.ok.inj hrow
    exact keysOf_int32 rfl

theorem moreCalls_end {t : ArtTable} (hrun : run ArtTable.step numbers moreCalls = some t) :
    t.table.rows = [[.int32 1], [.int32 3]] ∧ t.table.toNodeSchema = numbers.table.toNodeSchema ∧
      t.art.isSome = true := by
  obtain ⟨t₁, hinsert, hrest⟩ := run_cons_eq_some.mp hrun
  obtain rfl := some.inj hinsert
  obtain ⟨t₂, hinsert, hrest⟩ := run_cons_eq_some.mp hrest
  obtain rfl := some.inj hinsert
  obtain ⟨t₃, hcreate, hnil⟩ := run_cons_eq_some.mp hrest
  obtain rfl := some.inj hnil
  obtain ⟨ix, -, rfl⟩ := map_eq_some_iff.mp hcreate
  exact ⟨rfl, rfl, rfl⟩

end Numbers

end Akar
