import Akar.NodeTable
import Akar.VersionInfo

namespace Akar

open List Option

/-- The JSON text a replaced value is kept as, and what the parser makes of it. Not every value
survives. -/
class JsonText where
  toVec : Value → List UInt8
  fromSlice : List UInt8 → Option Value

/-- A version node: the update that took effect at `version` replaced the value written in
`data`. -/
structure VectorUpdateInfo where
  version : Nat
  data : List UInt8

/-- The version chains of a column chunk, one for each vector, newest node first. -/
structure UpdateInfo where
  vectors : List (List VectorUpdateInfo)

namespace UpdateInfo

def new (totalRows : Nat) : UpdateInfo :=
  ⟨replicate ((totalRows + (vectorSize - 1)) / vectorSize) []⟩

def vectorIdx (row : Nat) : Nat := row % 2 ^ 32 / vectorSize

def appendUpdate (ui : UpdateInfo) (row version : Nat) (data : List UInt8) : UpdateInfo :=
  ⟨(ui.vectors ++ replicate (vectorIdx row + 1 - ui.vectors.length) []).modify (vectorIdx row)
    (⟨version, data⟩ :: ·)⟩

def walk (snapshotTs : Nat) : Option VectorUpdateInfo → List VectorUpdateInfo → Option VectorUpdateInfo
  | prev, [] => prev
  | prev, current :: rest =>
    if current.version ≤ snapshotTs then prev else walk snapshotTs (some current) rest

def getVersion (ui : UpdateInfo) (row snapshotTs : Nat) : Option (List UInt8) :=
  match ui.vectors[vectorIdx row]? with
  | some chain => (walk snapshotTs none chain).map (·.data)
  | none => none

def chain (ui : UpdateInfo) (row : Nat) : List VectorUpdateInfo := (ui.vectors[vectorIdx row]?).getD []

def oldestUnseen (ts : Nat) (chain : List VectorUpdateInfo) : Option VectorUpdateInfo :=
  (chain.takeWhile (ts < ·.version)).getLast?

variable {ui : UpdateInfo} {row r ts version : Nat} {data : List UInt8}

theorem oldestUnseen_cons (n : VectorUpdateInfo) (chain : List VectorUpdateInfo) :
    oldestUnseen ts (n :: chain) = if n.version ≤ ts then none else (oldestUnseen ts chain).or
      (some n) := by
  unfold oldestUnseen
  split
  next h =>
    rw [takeWhile_cons_of_neg (by simpa using h)]
    rfl
  next h =>
    rw [takeWhile_cons_of_pos (by simpa using h)]
    cases chain.takeWhile (ts < ·.version) with
    | nil => rfl
    | cons => rw [getLast?_cons_cons, getLast?_cons]; rfl

theorem walk_eq (prev : Option VectorUpdateInfo) (chain : List VectorUpdateInfo) :
    walk ts prev chain = (oldestUnseen ts chain).or prev := by
  induction chain generalizing prev with
  | nil => rfl
  | cons n chain ih =>
    rw [walk, oldestUnseen_cons]
    split
    · rfl
    · rw [ih]
      cases oldestUnseen ts chain <;> rfl

theorem getVersion_eq (ui : UpdateInfo) (row ts : Nat) :
    ui.getVersion row ts = (oldestUnseen ts (ui.chain row)).map (·.data) := by
  unfold getVersion chain
  cases ui.vectors[vectorIdx row]? with
  | none => rfl
  | some => simp [walk_eq]

theorem chain_appendUpdate (ui : UpdateInfo) (row version : Nat) (data : List UInt8) (r : Nat) :
    (ui.appendUpdate row version data).chain r =
      if vectorIdx r = vectorIdx row then ⟨version, data⟩ :: ui.chain r else ui.chain r := by
  -- a missing vector and an empty one have the same chain
  have hpad : ∀ n i : Nat, ((ui.vectors ++ replicate n [])[i]?).getD [] = (ui.vectors[i]?).getD [] := by
    intro n i
    rw [getElem?_append]
    split
    · rfl
    next hge =>
      rw [getElem?_eq_none (by omega : ui.vectors.length ≤ i), getElem?_replicate]
      split <;> rfl
  unfold chain appendUpdate
  rw [getElem?_modify]
  by_cases hv : vectorIdx r = vectorIdx row
  · rw [if_pos hv, hv, ← hpad (vectorIdx row + 1 - ui.vectors.length)]
    have hlt : vectorIdx row <
        (ui.vectors ++ replicate (vectorIdx row + 1 - ui.vectors.length) []).length := by
      rw [length_append, length_replicate]
      omega
    rw [getElem?_eq_getElem hlt]
    simp
  · rw [if_neg hv, ← hpad (vectorIdx row + 1 - ui.vectors.length) (vectorIdx r)]
    simp [Ne.symm hv]

end UpdateInfo

structure ColumnChunk where
  values : List Value
  capacity : Nat
  updateInfo : Option UpdateInfo

namespace ColumnChunk

variable [JsonText]

def enableUpdateInfo (c : ColumnChunk) : ColumnChunk :=
  { c with updateInfo := some (c.updateInfo.getD (.new c.capacity)) }

def setValueWithVersion (c : ColumnChunk) (idx : Nat) (value : Value) (version : Nat) :
    Except StorageError ColumnChunk :=
  match c.values[idx]? with
  | none => .error (.page s!"ColumnChunk index {idx} out of bounds (len={c.values.length})")
  | some old =>
    .ok { c with
      values := c.values.set idx value
      updateInfo := c.updateInfo.map (·.appendUpdate idx version (JsonText.toVec old)) }

def getValueOwnedWithSnapshot (c : ColumnChunk) (idx : Nat) (snapshotTs : Option Nat) : Option Value :=
  match c.values[idx]? with
  | none => none
  | some base =>
    match snapshotTs with
    | none => some base
    | some ts =>
      match (c.updateInfo.bind (·.getVersion idx ts)).bind JsonText.fromSlice with
      | some old => some old
      | none => some base

end ColumnChunk

structure VersionedSet where
  row : Nat
  value : Value
  version : Nat

namespace ColumnChunk

section Spec

variable {c : ColumnChunk} {us : List VersionedSet} {u : VersionedSet} {r ts : Nat}

def valueAfter (c : ColumnChunk) (us : List VersionedSet) (r : Nat) : Option Value :=
  (c.values[r]?).map ((us.filter (·.row = r)).foldl fun _ u => u.value)

def valueAt (c : ColumnChunk) (us : List VersionedSet) (r ts : Nat) : Option Value :=
  c.valueAfter (us.filter (·.version ≤ ts)) r

def touches (c : ColumnChunk) (r : Nat) (u : VersionedSet) : Bool :=
  u.row < c.values.length && UpdateInfo.vectorIdx u.row = UpdateInfo.vectorIdx r

theorem valueAfter_concat :
    c.valueAfter (us ++ [u]) r = if u.row = r then (c.values[r]?).map fun _ =>
      u.value else c.valueAfter us r := by
  unfold valueAfter
  split
  next h => simp [h]
  next h => simp [h]

theorem valueAt_concat (h : ts < u.version) : c.valueAt (us ++ [u]) r ts = c.valueAt us r ts := by
  unfold valueAt
  rw [filter_append, filter_cons_of_neg (by simpa using h), filter_nil, append_nil]

theorem valueAfter_eq_none_iff : c.valueAfter us r = none ↔ c.values.length ≤ r := by
  simp [valueAfter]

theorem valueAt_eq_valueAfter (h : ∀ u ∈ us, u.row = r → u.version ≤ ts) : c.valueAt us r ts =
    c.valueAfter us r := by
  unfold valueAt valueAfter
  have hsame : (us.filter (·.version ≤ ts)).filter (·.row = r) = us.filter (·.row = r) := by
    rw [List.filter_filter]
    refine filter_congr fun u hu => ?_
    by_cases hr : u.row = r
    · simp [hr, h u hu hr]
    · simp [hr]
  rw [hsame]

end Spec

section Run

variable [JsonText] {c : ColumnChunk} {us : List VersionedSet} {u : VersionedSet} {r ts : Nat}
    {ui : UpdateInfo}

def set (c : ColumnChunk) (u : VersionedSet) : ColumnChunk :=
  match c.setValueWithVersion u.row u.value u.version with
  | .ok c' => c'
  | .error _ => c

def setAll (c : ColumnChunk) (us : List VersionedSet) : ColumnChunk := us.foldl set c

theorem setAll_concat : c.setAll (us ++ [u]) = (c.setAll us).set u := by
  simp [setAll]

theorem set_values (c : ColumnChunk) (u : VersionedSet) : (c.set u).values =
    c.values.set u.row u.value := by
  unfold set setValueWithVersion
  cases h : c.values[u.row]? with
  | none => exact (set_eq_of_length_le (List.getElem?_eq_none_iff.mp h)).symm
  | some old => rfl

theorem set_updateInfo (c : ColumnChunk) (u : VersionedSet) :
    (c.set u).updateInfo = c.updateInfo.map fun ui =>
      match c.values[u.row]? with
      | some old => ui.appendUpdate u.row u.version (JsonText.toVec old)
      | none => ui := by
  unfold set setValueWithVersion
  cases c.values[u.row]? with
  | none => simp
  | some => rfl

theorem setAll_get (c : ColumnChunk) (us : List VersionedSet) (r : Nat) :
    (c.setAll us).values[r]? = c.valueAfter us r := by
  induction us using List.reverseRecOn with
  | nil => simp [setAll, valueAfter]
  | append_singleton us u ih =>
    rw [setAll_concat, set_values, valueAfter_concat, getElem?_set]
    have hlen : (c.setAll us).values.length ≤ r ↔ c.values.length ≤ r := by
      rw [← List.getElem?_eq_none_iff, ih, valueAfter_eq_none_iff]
    by_cases hr : u.row = r
    · subst hr
      simp only [↓reduceIte]
      by_cases hlt : u.row < c.values.length
      · rw [if_pos (by omega), getElem?_eq_getElem hlt, map_some]
      · rw [if_neg (by omega), getElem?_eq_none (by omega), map_none]
    · rw [if_neg hr, if_neg hr, ih]

/-- The text a snapshot finds for row `r`: of a version older than all updates, if no update in the
vector is up to the snapshot, or the value the first newer update replaced. -/
def standIn (c : ColumnChunk) (ui : UpdateInfo) (us : List VersionedSet) (r ts : Nat) :
    Option (List UInt8) :=
  (if us.any fun u => c.touches r u && u.version ≤ ts then none
    else (UpdateInfo.oldestUnseen ts (ui.chain r)).map (·.data)).or
    ((us.find? fun u => c.touches r u && ts < u.version).bind fun u =>
      (c.valueAt us u.row ts).map JsonText.toVec)

theorem standIn_concat_of_not_touches (hu : c.touches r u = false)
    (hnew : ∀ w ∈ us, w.version < u.version) :
    c.standIn ui (us ++ [u]) r ts = c.standIn ui us r ts := by
  unfold standIn
  simp only [any_append, any_cons, hu, Bool.false_and, any_nil, Bool.or_false, find?_append,
    find?_cons_of_neg, find?_nil, or_none, Bool.false_eq_true, not_false_eq_true]
  cases hfind : us.find? fun u => c.touches r u && ts < u.version with
  | none => rfl
  | some w =>
    have hts : ts < w.version := by
      have := find?_some hfind
      simp only [Bool.and_eq_true, decide_eq_true_eq] at this
      exact this.2
    have hw := hnew w (mem_of_find?_eq_some hfind)
    rw [bind_some, bind_some, valueAt_concat (by omega)]

theorem standIn_concat_of_touches (hu : c.touches r u = true) (hnew : ∀ w ∈ us, w.version < u.version) :
    c.standIn ui (us ++ [u]) r ts = if u.version ≤ ts then none
      else (c.standIn ui us r ts).or ((c.valueAfter us u.row).map JsonText.toVec) := by
  by_cases hts : u.version ≤ ts
  · have hnone : us.find? (fun u => c.touches r u && ts < u.version) = none := by
      rw [find?_eq_none]
      intro w hw
      have := hnew w hw
      simp only [Bool.and_eq_true, decide_eq_true_eq, not_and]
      omega
    unfold standIn
    simp [hu, hts, ↓reduceIte, hnone]
  · have hlt : ts < u.version := by omega
    unfold standIn
    simp only [any_append, any_cons, hu, hts, decide_false, Bool.and_false, any_nil, Bool.or_false,
      find?_append, Option.or_assoc]
    cases hfind : us.find? fun u => c.touches r u && ts < u.version with
    | some w =>
      have hrow : ∃ v, c.valueAt us w.row ts = some v := by
        have := find?_some hfind
        simp only [touches, Bool.and_eq_true, decide_eq_true_eq] at this
        rw [← ne_none_iff_exists', valueAt, Ne, valueAfter_eq_none_iff]
        omega
      obtain ⟨v, hv⟩ := hrow
      simp [valueAt_concat hlt, hv]
    | none =>
      -- no update in the vector is newer, so all those of the row count at the snapshot
      have hall : c.valueAt us u.row ts = c.valueAfter us u.row := by
        refine valueAt_eq_valueAfter fun w hw hrow => ?_
        have := find?_eq_none.mp hfind w hw
        simp only [touches, hrow, Bool.and_eq_true, decide_eq_true_eq, not_and] at this hu
        omega
      simp [hu, hlt, valueAt_concat hlt, hall]

theorem oldestUnseen_setAll (hui : c.updateInfo = some ui)
    (hinc : us.Pairwise (·.version < ·.version)) :
    ∃ ui', (c.setAll us).updateInfo = some ui' ∧
      (UpdateInfo.oldestUnseen ts (ui'.chain r)).map (·.data) = c.standIn ui us r ts := by
  induction us using List.reverseRecOn with
  | nil => exact ⟨ui, hui, by simp [standIn]⟩
  | append_singleton us u ih =>
    obtain ⟨hus, _, hlast⟩ := pairwise_append.mp hinc
    have hnew : ∀ w ∈ us, w.version < u.version := fun w hw => hlast w hw u (mem_singleton_self u)
    obtain ⟨ui', hui', hstand⟩ := ih hus
    have hold := setAll_get c us u.row
    rw [setAll_concat, set_updateInfo, hui', map_some, hold]
    refine ⟨_, rfl, ?_⟩
    cases hv : c.valueAfter us u.row with
    | none =>
      have hout : c.touches r u = false := by
        rw [valueAfter_eq_none_iff] at hv
        simp only [touches, Bool.and_eq_false_iff, decide_eq_false_iff_not]
        omega
      rw [standIn_concat_of_not_touches hout hnew]
      exact hstand
    | some old =>
      have hrow : u.row < c.values.length := by
        by_contra hge
        rw [valueAfter_eq_none_iff.mpr (by omega)] at hv
        cases hv
      rw [UpdateInfo.chain_appendUpdate]
      by_cases hvec : UpdateInfo.vectorIdx r = UpdateInfo.vectorIdx u.row
      · have hin : c.touches r u = true := by simp [touches, hrow, hvec]
        rw [if_pos hvec, standIn_concat_of_touches hin hnew, UpdateInfo.oldestUnseen_cons, ← hstand, hv]
        split
        · rfl
        · cases UpdateInfo.oldestUnseen ts (ui'.chain r) <;> rfl
      · have hout : c.touches r u = false := by simp [touches, Ne.symm hvec]
        rw [if_neg hvec, standIn_concat_of_not_touches hout hnew]
        exact hstand

/-- What stands in for the row at the snapshot reads as its own value. Where no text stands in, or
it does not parse, the last value is read instead. -/
def ReadsOwn (c : ColumnChunk) (us : List VersionedSet) (r ts : Nat) : Prop :=
  ∀ v, c.valueAt us r ts = some v →
    match c.updateInfo.bind (c.standIn · us r ts) with
    | some text =>
      JsonText.fromSlice text = some v ∨ JsonText.fromSlice text = none ∧ c.valueAfter us r = some v
    | none => c.valueAfter us r = some v

theorem getVersion_setAll (hinc : us.Pairwise (·.version < ·.version)) :
    ((c.setAll us).updateInfo.bind (·.getVersion r ts)) = c.updateInfo.bind (c.standIn · us r ts) := by
  cases hui : c.updateInfo with
  | none =>
    have hnone : (c.setAll us).updateInfo = none := by
      induction us using List.reverseRecOn with
      | nil => exact hui
      | append_singleton us u ih =>
        rw [setAll_concat, set_updateInfo, ih (pairwise_append.mp hinc).1]
        rfl
    rw [hnone]
    rfl
  | some ui =>
    obtain ⟨ui', hui', hstand⟩ := @oldestUnseen_setAll _ c us r ts ui hui hinc
    rw [hui', bind_some, bind_some, UpdateInfo.getVersion_eq, hstand]

/-- A snapshot read returns the value the row had at the snapshot exactly under `ReadsOwn`. -/
theorem getValueOwnedWithSnapshot_eq_valueAt_iff (hinc : us.Pairwise (·.version < ·.version)) :
    (c.setAll us).getValueOwnedWithSnapshot r (some ts) = c.valueAt us r ts ↔ c.ReadsOwn us r ts := by
  unfold getValueOwnedWithSnapshot ReadsOwn
  rw [setAll_get]
  dsimp only
  rw [getVersion_setAll hinc]
  cases hbase : c.valueAfter us r with
  | none =>
    have hout : c.valueAt us r ts = none := by
      rw [valueAfter_eq_none_iff] at hbase
      exact valueAfter_eq_none_iff.mpr hbase
    simp [hout]
  | some base =>
    obtain ⟨v, hv⟩ : ∃ v, c.valueAt us r ts = some v := by
      have hin : ¬c.values.length ≤ r := fun h => by
        rw [valueAfter_eq_none_iff.mpr h] at hbase
        cases hbase
      rw [← ne_none_iff_exists', valueAt, Ne, valueAfter_eq_none_iff]
      exact hin
    simp only [hv, some.injEq, forall_eq']
    cases c.updateInfo.bind (c.standIn · us r ts) with
    | none => simp
    | some text => cases hread : JsonText.fromSlice text <;> simp [hread]

end Run

section Bytes

@[reducible] def bytesText : JsonText where
  toVec
    | .uint8 b => [b]
    | _ => []
  fromSlice
    | [b] => some (.uint8 b)
    | _ => none

attribute [local instance] bytesText

def pair : ColumnChunk := ColumnChunk.enableUpdateInfo ⟨[.uint8 10, .uint8 20], 4096, none⟩

theorem reads_replaced_value_of_first_update :
    (pair.setAll [⟨1, .uint8 21, 5⟩, ⟨0, .uint8 11, 6⟩]).getValueOwnedWithSnapshot 1 (some 3) =
      some (.uint8 20) := by
  refine (getValueOwnedWithSnapshot_eq_valueAt_iff ?_).mpr ?_
  · exact pairwise_pair.mpr (by decide)
  · intro v hv
    cases hv
    exact .inl rfl

theorem reads_replaced_value_of_other_row :
    (pair.setAll [⟨0, .uint8 11, 5⟩]).getValueOwnedWithSnapshot 1 (some 3) = some (.uint8 10) ∧
      pair.valueAt [⟨0, .uint8 11, 5⟩] 1 3 = some (.uint8 20) :=
  ⟨rfl, rfl⟩

end Bytes

end ColumnChunk

end Akar
