import Akar.NodeRollback
import Akar.RelRollback
import Akar.Runs

namespace Akar

open List Option NodeTable RelTable

/-- What the undo of some writes does not give back: hash keys and ART entries that are gone, and
adjacency entries that are there once too often. -/
structure Loss where
  keys : List String
  entries : List UInt8 → List Nat
  fwd : UInt64 → List (UInt64 × Nat)
  rev : UInt64 → List (UInt64 × Nat)

def Loss.none : Loss := ⟨[], fun _ => [], fun _ => [], fun _ => []⟩

def Loss.append (l l' : Loss) : Loss :=
  ⟨l.keys ++ l'.keys, fun key => l.entries key ++ l'.entries key, fun n => l.fwd n ++ l'.fwd n,
    fun n => l.rev n ++ l'.rev n⟩

namespace Table

def touched [Rendering] (t : Table) (op : WriteOp) : Loss := match t with
  | .node t => ⟨t.touchedKey op, t.touchedArt op, fun _ => [], fun _ => []⟩
  | .rel t =>
    ⟨[], fun _ => [], RelTable.relinked Edge.src Edge.dst t op,
      RelTable.relinked Edge.dst Edge.src t op⟩

def Reverted (s t : Table) (loss : Loss) : Prop := match s, t with
  | .node s, .node t => s.Reverted t loss.keys loss.entries
  | .rel s, .rel t => s.Reverted t loss.fwd loss.rev
  | _, _ => False

def Restored [Rendering] (s t : Table) : Prop := match s, t with
  | .node s, .node t => s.Restored t
  | .rel s, .rel t => s.Restored t
  | _, _ => False

def Linked : Table → Prop
  | .node _ => True
  | .rel t => t.Linked

/-- Nothing in `loss` is about a key or entry the indexes of `t` hold, or about a live edge of
`t`. -/
def Unharmed (t : Table) (loss : Loss) : Prop := match t with
  | .node t =>
    (∀ key ∈ loss.keys, t.hashIndex.lookup key = none) ∧
      ∀ art ∈ t.artIndex, ∀ key, ∀ n ∈ loss.entries key, n ∉ art.offsets key
  | .rel t =>
    (∀ n, ∀ p ∈ loss.fwd n, t.liveAt p.2 = false) ∧ ∀ n, ∀ p ∈ loss.rev n, t.liveAt p.2 = false

variable {s t : Table} {tableId : Nat} {op : WriteOp} {loss loss' : Loss}

theorem reverted_refl (t : Table) : t.Reverted t .none := by
  cases t with
  | node t | rel t => exact t.reverted_refl

theorem unharmed_none (t : Table) : t.Unharmed .none := by
  cases t <;> simp [Unharmed, Loss.none]

theorem unharmed_append : t.Unharmed (loss.append loss') ↔ t.Unharmed loss ∧ t.Unharmed loss' := by
  cases t with
  | node t | rel t =>
    simp only [Unharmed, Loss.append, mem_append, or_imp, forall_and]
    tauto

variable [Rendering] {w : Written Table}

theorem Reverted.undo_write (hw : t.write tableId op = some w) (hsaved : t.Saved op)
    (h : s.Reverted w.table loss) :
    ∃ s', s.undo w.undo = .ok s' ∧ s'.Reverted t ((t.touched op).append loss) := by
  cases t with
  | node =>
    obtain ⟨w', hw', rfl⟩ := map_eq_some_iff.mp hw
    cases s with
    | rel => cases h
    | node =>
      obtain ⟨s', hs', hr⟩ := NodeTable.Reverted.undo_write (NodeTable.writes_of_write hw') hsaved h
      exact ⟨.node s', by simp [undo, hs', Except.map], hr⟩
  | rel =>
    obtain ⟨w', hw', rfl⟩ := map_eq_some_iff.mp hw
    cases s with
    | node => cases h
    | rel => exact ⟨_, rfl, RelTable.Reverted.undo_write (RelTable.writes_of_write hw') hsaved h⟩

theorem Linked.write (h : t.Linked) (hw : t.write tableId op = some w) : w.table.Linked := by
  cases t with
  | node =>
    obtain ⟨w', _, rfl⟩ := map_eq_some_iff.mp hw
    trivial
  | rel =>
    obtain ⟨w', hw', rfl⟩ := map_eq_some_iff.mp hw
    exact Linked.write h (RelTable.writes_of_write hw')

theorem Reverted.restored_iff (h : s.Reverted t loss) (hl : t.Linked) : s.Restored t ↔
    t.Unharmed loss := by
  cases t with
  | node =>
    cases s with
    | rel => cases h
    | node => exact NodeTable.Reverted.restored_iff h
  | rel =>
    cases s with
    | node => cases h
    | rel => exact RelTable.Reverted.restored_iff h hl

def Kept (t₀ t : Table) : Prop := match t₀, t with
  | .node t₀, .node t =>
    (∀ key, t.hashIndex.lookup key = none → t₀.hashIndex.lookup key = none) ∧ t₀.numRows ≤ t.numRows
  | .rel _, .rel _ => True
  | _, _ => False

/-- Deleting slot `r` of `t` takes no key or entry that the indexes of `t₀` held, and does not
delete a second time an edge that was live in `t₀`. -/
def Spares (t₀ t : Table) (r : Nat) : Prop := match t₀, t with
  | .node t₀, .node t =>
    ∀ row ∈ t.rows[r]?, (∀ key ∈ t.keyOf row, t₀.hashIndex.lookup key = none) ∧
      ∀ art ∈ t₀.artIndex, ∀ key ∈ t.artKeyOf row, r ∉ art.offsets key
  | .rel t₀, .rel t => ∀ e ∈ t.edges[r]?, e.src = noOffset → t₀.liveAt r = false
  | _, _ => False

variable {t₀ : Table}

theorem Kept.spares_iff (h : t₀.Kept t) (r : Nat) :
    t₀.Unharmed (t.touched (.deleteRow r)) ↔ t₀.Spares t r := by
  cases t with
  | node t =>
    cases t₀ with
    | rel => cases h
    | node =>
      cases hrow : t.rows[r]? with
      | none =>
        simp [Unharmed, Spares, touched, NodeTable.touchedKey, NodeTable.touchedArt,
        NodeTable.touchedRow, hrow]
      | some row =>
        simp only [Unharmed, Spares, touched, NodeTable.touchedKey, NodeTable.touchedArt,
          NodeTable.touchedRow, hrow,
          map_some, bind_some, mem_toList, mem_def, some.injEq, forall_eq',
          ArtIndex.entry]
        refine and_congr_right fun _ => forall₂_congr fun art _ => forall_congr' fun key => ?_
        by_cases hk : t.artKeyOf row = some key <;> simp [hk]
  | rel t =>
    cases t₀ with
    | node => cases h
    | rel =>
      cases he : t.edges[r]? with
      | none => simp [Unharmed, Spares, touched, RelTable.relinked, he]
      | some e =>
        by_cases hdead : e.src = noOffset
        · simp only [Unharmed, Spares, touched, relinked_dead _ _ he hdead, he, mem_def,
            some.injEq, forall_eq', hdead, true_imp_iff]
          constructor
          · intro hh
            simpa using hh.1 noOffset (e.dst, r) (by simp)
          · intro hl
            constructor <;> intro n p hp <;> split at hp <;> simp_all
        · simp [Unharmed, Spares, touched, relinked_live _ _ he hdead, he, hdead]

theorem Kept.unharmed_insertRow {t₀ t : NodeTable} {values row : List Value}
    (h : Kept (.node t₀) (.node t)) (hrow : NodeTable.checkedRow t.toNodeSchema values = .ok row)
    (hfresh : ∀ key, t.keyOf row = some key → t.hashIndex.lookup key = none) :
    Unharmed (.node t₀) (touched (.node t) (.insertRow values)) := by
  have htouched : t.touchedRow (.insertRow values) = some (row, t.numRows) := by
    simp [NodeTable.touchedRow, hrow, Except.toOption]
  constructor
  · intro key hkey
    simp only [touched, NodeTable.touchedKey, htouched, bind_some, mem_toList] at hkey
    exact h.1 key (hfresh key hkey)
  · intro art hart key n hn hmem
    simp only [touched, NodeTable.touchedArt, htouched, ArtIndex.entry] at hn
    have hlt : n < t₀.numRows := t₀.filed art hart key n hmem
    have hle := h.2
    split at hn
    · rw [mem_singleton] at hn
      omega
    · cases hn

theorem Kept.write (h : t₀.Kept t) (hw : t.write tableId op = some w)
    (hdel : ∀ r, op = .deleteRow r → t₀.Spares t r) : t₀.Kept w.table ∧ t₀.Unharmed (t.touched op) := by
  have hdel' (r : Nat) (hop : op = .deleteRow r) : t₀.Unharmed (t.touched (.deleteRow r)) :=
    (h.spares_iff r).mpr (hdel r hop)
  cases t with
  | node =>
    cases t₀ with
    | rel => cases h
    | node =>
      obtain ⟨w', hw', rfl⟩ := map_eq_some_iff.mp hw
      cases NodeTable.writes_of_write hw' with
      | insertRow values row hrow hfresh =>
        refine ⟨⟨fun key hkey => ?_, ?_⟩, h.unharmed_insertRow hrow hfresh⟩
        · rw [appendRow_hashIndex, HashIndex.lookup_file] at hkey
          split at hkey
          · cases hkey
          · exact h.1 key hkey
        · have := h.2
          simp only [NodeTable.numRows, appendRow_rows, length_append] at this ⊢
          omega
      | updateCell =>
        refine ⟨⟨h.1, ?_⟩, ?_⟩
        · simpa [NodeTable.numRows] using h.2
        · simp [Unharmed, touched, NodeTable.touchedKey, NodeTable.touchedArt, NodeTable.touchedRow]
      | deleteRow r row hrow =>
        have hun := hdel' r rfl
        refine ⟨⟨fun key hkey => ?_, ?_⟩, hun⟩
        · rw [buryRow_hashIndex, HashIndex.lookup_unfile] at hkey
          split at hkey
          next heq =>
            apply hun.1
            simp [touched, NodeTable.touchedKey, NodeTable.touchedRow, hrow, heq]
          next => exact h.1 key hkey
        · simpa [NodeTable.numRows] using h.2
  | rel =>
    cases t₀ with
    | node => cases h
    | rel =>
      obtain ⟨w', hw', rfl⟩ := map_eq_some_iff.mp hw
      refine ⟨trivial, ?_⟩
      cases RelTable.writes_of_write hw' with
      | insertRel | updateCell => simp [Unharmed, touched, RelTable.relinked]
      | deleteLive r e _ _ | deleteDead r e _ _ => exact hdel' r rfl

end Table

namespace TableCatalog

def Reverted (cat' cat : TableCatalog) (loss : Nat → Loss) : Prop :=
  ∀ i, Option.Rel (fun s t => s.Reverted t (loss i)) (cat'.tables i) (cat.tables i)

theorem reverted_refl (cat : TableCatalog) : cat.Reverted cat fun _ => .none := by
  intro i
  cases cat.tables i with
  | none => exact .none
  | some t => exact .some t.reverted_refl

def Kept (cat₀ cat : TableCatalog) : Prop := ∀ i, Option.Rel Table.Kept (cat₀.tables i) (cat.tables i)

theorem kept_refl (cat : TableCatalog) : cat.Kept cat := by
  intro i
  cases cat.tables i with
  | none => exact .none
  | some t =>
    cases t with
    | node => exact .some ⟨fun _ h => h, le_rfl⟩
    | rel => exact .some trivial

variable [Rendering]

def lossAt (cat : TableCatalog) (i : Nat) (op : WriteOp) (tableId : Nat) : Loss :=
  if i = tableId then ((cat.tables i).map (·.touched op)).getD .none else .none

def lossOf (tableId : Nat) (cat : TableCatalog) : List (Nat × WriteOp) → Loss
  | [] => .none
  | (i, op) :: ws =>
    (cat.lossAt i op tableId).append
      (((cat.write i op).map fun w => lossOf tableId w.table ws).getD .none)

variable {cat cat' : TableCatalog} {i : Nat} {op : WriteOp} {ws : List (Nat × WriteOp)} {j : Journal}

variable {w : Written TableCatalog}

theorem Reverted.undo_write {loss : Nat → Loss} (hw : cat.write i op = some w)
    (hsaved : cat.Saved (i, op)) (h : cat'.Reverted w.table loss) :
    ∃ cat'', cat'.undo w.undo = .ok cat'' ∧ cat''.Reverted cat fun k =>
      (cat.lossAt i op k).append (loss k) := by
  obtain ⟨t, w', ht, hw', rfl⟩ := write_eq_some.mp hw
  obtain ⟨s, hs, hr⟩ : ∃ s, cat'.tables i = some s ∧ s.Reverted w'.table (loss i) := by
    have hi := h i
    simp only [set_tables_self] at hi
    exact rel_some_right (R := fun s t => Table.Reverted s t (loss i)) hi
  obtain ⟨s', hs', hr'⟩ := Table.Reverted.undo_write hw' (hsaved t ht) hr
  refine ⟨cat'.set i s', ?_, fun k => ?_⟩
  · simp [undo, (Table.write_tableId hw').1, hs, hs', Except.map]
  · by_cases hk : i = k
    · subst hk
      simp only [set_tables_self, lossAt, ht, map_some, getD_some, ↓reduceIte]
      exact .some hr'
    · have hrel := h k
      simp only [set_tables_ne (Ne.symm hk)] at hrel
      simp only [set_tables_ne (Ne.symm hk), lossAt, hk, ↓reduceIte]
      exact hrel

def step (cat : TableCatalog) (w : Nat × WriteOp) : Option TableCatalog :=
  (cat.write w.1 w.2).map (·.table)

theorem rollbackTransaction_reverts (h : cat.writes ws = some j) (hsaved : Meets step Saved cat ws) :
    ∃ cat', j.catalog.rollbackTransaction j.undos = .ok cat' ∧ cat'.Reverted cat fun i =>
      cat.lossOf i ws := by
  induction ws generalizing cat j with
  | nil =>
    cases h
    exact ⟨cat, rfl, cat.reverted_refl⟩
  | cons w ws ih =>
    obtain ⟨w', hw, j', hj', rfl⟩ := writes_cons_eq_some.mp h
    obtain ⟨cat₁, hroll, hrev⟩ := ih hj' (hsaved.2 _ (by simp [step, hw]))
    obtain ⟨cat₂, hundo, hrev'⟩ := hrev.undo_write hw hsaved.1
    refine ⟨cat₂, ?_, fun k => ?_⟩
    · rw [rollbackTransaction, reverse_cons, foldlM_append]
      rw [rollbackTransaction] at hroll
      rw [hroll]
      simp only [foldlM_cons, foldlM_nil, bind_pure]
      exact hundo
    · have := hrev' k
      simp only [lossOf, hw, map_some, getD_some]
      exact this

theorem run_of_writes (h : cat.writes ws = some j) : run step cat ws = some j.catalog := by
  induction ws generalizing cat j with
  | nil => cases h; rfl
  | cons w ws ih =>
    obtain ⟨w', hw', j', hj', rfl⟩ := writes_cons_eq_some.mp h
    have hrun := ih hj'
    exact run_cons_eq_some.mpr ⟨w'.table, by simp [step, hw'], hrun⟩

theorem writes_append {ws' : List (Nat × WriteOp)} {j' : Journal} (h : cat.writes ws = some j)
    (h' : j.catalog.writes ws' = some j') :
    cat.writes (ws ++ ws') = some ⟨j'.catalog, j.undos ++ j'.undos, j.records ++ j'.records⟩ := by
  induction ws generalizing cat j with
  | nil => cases h; exact h'
  | cons w ws ih =>
    obtain ⟨w', hw', j₁, hj₁, rfl⟩ := writes_cons_eq_some.mp h
    exact writes_cons_eq_some.mpr ⟨w', hw', _, ih hj₁ h', rfl⟩

/-- The write touches nothing that the indexes held, and no edge that was live, in `cat₀`. -/
def Harmless (cat₀ cat : TableCatalog) (w : Nat × WriteOp) : Prop :=
  ∀ t₀ ∈ cat₀.tables w.1, ∀ t ∈ cat.tables w.1, t₀.Unharmed (t.touched w.2)

theorem unharmed_lossOf_iff (cat₀ : TableCatalog) (h : cat.writes ws = some j) :
    (∀ i, ∀ t₀ ∈ cat₀.tables i, t₀.Unharmed (cat.lossOf i ws)) ↔ Meets step (Harmless cat₀) cat ws := by
  induction ws generalizing cat j with
  | nil => exact iff_of_true (fun i t₀ _ => t₀.unharmed_none) trivial
  | cons w ws ih =>
    obtain ⟨i, op⟩ := w
    obtain ⟨w, hw, j', hj', rfl⟩ := writes_cons_eq_some.mp h
    have hstep : step cat (i, op) = some w.table := by simp [step, hw]
    have hhere : (∀ k, ∀ t₀ ∈ cat₀.tables k, t₀.Unharmed (cat.lossAt i op k)) ↔
        Harmless cat₀ cat (i, op) := by
      obtain ⟨t, _, ht, _⟩ := write_eq_some.mp hw
      constructor
      · intro hall t₀ ht₀ t' ht'
        cases ht.symm.trans ht'
        have := hall i t₀ ht₀
        simpa [lossAt, ht] using this
      · intro hh k t₀ ht₀
        by_cases hk : i = k
        · subst hk
          simpa [lossAt, ht] using hh t₀ ht₀ t ht
        · simpa [lossAt, hk] using t₀.unharmed_none
    simp only [lossOf, hw, map_some, getD_some, Table.unharmed_append, forall_and, Meets]
    rw [hhere, ih hj']
    simp [hstep]

/-- A delete of the sequence that started in `cat₀` takes out no key that was indexed then, and hits
no tombstone of an edge that was live then. -/
def SparesIndexed (cat₀ cat : TableCatalog) (w : Nat × WriteOp) : Prop :=
  ∀ r, w.2 = .deleteRow r → ∀ t₀ ∈ cat₀.tables w.1, ∀ t ∈ cat.tables w.1, t₀.Spares t r

theorem Kept.write {cat₀ : TableCatalog} (h : cat₀.Kept cat)
    (hw : cat.write i op = some w) (hsp : SparesIndexed cat₀ cat (i, op)) :
    cat₀.Kept w.table ∧ Harmless cat₀ cat (i, op) := by
  obtain ⟨t, w', ht, hw', rfl⟩ := write_eq_some.mp hw
  obtain ⟨t₀, ht₀, hkept⟩ := rel_some_right (ht ▸ h i)
  obtain ⟨hkept', hun⟩ := hkept.write hw' fun r hr => hsp r hr t₀ ht₀ t ht
  refine ⟨fun k => ?_, ?_⟩
  · by_cases hk : k = i
    · subst hk
      simp only [set_tables_self, ht₀]
      exact .some hkept'
    · simp only [set_tables_ne hk]
      exact h k
  · intro t₁ ht₁ t₂ ht₂
    cases ht₀.symm.trans ht₁
    cases ht.symm.trans ht₂
    exact hun

theorem meets_harmless_iff (h : cat.writes ws = some j) :
    Meets step (Harmless cat) cat ws ↔ Meets step (SparesIndexed cat) cat ws := by
  constructor
  · intro hm
    refine hm.strengthen (Kept cat) ?_ (run_of_writes h) cat.kept_refl
    rintro c ⟨i, op⟩ c' hkept hh hstep
    obtain ⟨w, hw, rfl⟩ := map_eq_some_iff.mp hstep
    have hsp : SparesIndexed cat c (i, op) := by
      rintro r rfl t₀ ht₀ t ht
      obtain ⟨t₁, ht₁, hk⟩ := rel_some_right (ht ▸ hkept i)
      cases ht₀.symm.trans ht₁
      exact (hk.spares_iff r).mp (hh t₀ ht₀ t ht)
    exact ⟨(hkept.write hw hsp).1, hsp⟩
  · intro hm
    refine hm.strengthen (Kept cat) ?_ (run_of_writes h) cat.kept_refl
    rintro c ⟨i, op⟩ c' hkept hsp hstep
    obtain ⟨w, hw, rfl⟩ := map_eq_some_iff.mp hstep
    exact hkept.write hw hsp

theorem Reverted.restored_iff (hlinked : ∀ i, ∀ t ∈ cat.tables i, t.Linked) (h : cat.writes ws = some j)
    (hrev : cat'.Reverted cat fun i => cat.lossOf i ws) :
    (∀ i, Option.Rel Table.Restored (cat'.tables i) (cat.tables i)) ↔
      Meets step (SparesIndexed cat) cat ws := by
  rw [← meets_harmless_iff h, ← unharmed_lossOf_iff cat h]
  constructor
  · intro hres i t ht
    obtain ⟨s, hs, hr⟩ := rel_some_right (ht ▸ hrev i)
    obtain ⟨s', hs', hres⟩ := rel_some_right (ht ▸ hres i)
    cases hs.symm.trans hs'
    exact (hr.restored_iff (hlinked i t ht)).mp hres
  · intro hun i
    refine rel_of_some (hrev i) fun t ht s hr => ?_
    exact (hr.restored_iff (hlinked i t ht)).mpr (hun i t ht)

theorem linked_of_writes (h : cat.writes ws = some j) (hl : ∀ i, ∀ t ∈ cat.tables i, t.Linked) :
    ∀ i, ∀ t ∈ j.catalog.tables i, t.Linked := by
  induction ws generalizing cat j with
  | nil => cases h; exact hl
  | cons w ws ih =>
    obtain ⟨w', hw, j', hj', rfl⟩ := writes_cons_eq_some.mp h
    obtain ⟨t, tw, ht, htw, rfl⟩ := write_eq_some.mp hw
    have hrest := ih hj'
    refine hrest fun k t' ht' => ?_
    by_cases hk : k = w.1
    · subst hk
      simp only [set_tables_self, mem_def, some.injEq] at ht'
      subst ht'
      exact Table.Linked.write (hl _ t ht) htw
    · simp only [set_tables_ne hk] at ht'
      exact hl k t' ht'

end TableCatalog

section Social

attribute [local instance] Rendering.blank

open TableCatalog

theorem linked_social (i : Nat) : ∀ t ∈ social.tables i, t.Linked := by
  intro t ht
  simp only [social, mem_def] at ht
  split at ht
  · cases ht; trivial
  · split at ht
    · cases ht; exact linked_new ..
    · cases ht

end Social

end Akar
