import Akar.RelColumns
import Akar.Runs

namespace Akar

open List RelTable

open RelTable (push unlink count_push count_unlink columnar)

structure ColumnarRelTable.Adjacent (t : ColumnarRelTable) : Prop where
  forward : ∀ i src dst, t.edges[i]? = some (src, dst) → src ≠ noOffset →
    (t.fwdAdj src).filter (·.2 = i) = [(dst, i)]
  reverse : ∀ i src dst, t.edges[i]? = some (src, dst) → src ≠ noOffset →
    (t.revAdj dst).filter (·.2 = i) = [(src, i)]
  buried : ∀ i dst, t.edges[i]? = some (noOffset, dst) → ∀ n, (∀ p ∈ t.fwdAdj n, p.2 ≠ i) ∧
    ∀ p ∈ t.revAdj n, p.2 ≠ i
  width : t.properties.length = t.columns.length
  slots : ∀ col ∈ t.properties, col.length = t.edges.length

section Lists

variable {adj : UInt64 → List (UInt64 × Nat)} {edges : List (UInt64 × UInt64)}
    {own other : UInt64 × UInt64 → UInt64}
  {e old : UInt64 × UInt64} {r : Nat}

/-- Should a live edge `e` stand in the list of `n` with the other endpoint `o`? -/
def endsMatch (own other : UInt64 × UInt64 → UInt64) (n o : UInt64) (e : UInt64 × UInt64) : Bool :=
  e.1 ≠ noOffset && own e = n && other e = o

def listed (edges : List (UInt64 × UInt64)) (own other : UInt64 × UInt64 → UInt64) (n o : UInt64)
    (i : Nat) : Bool :=
  (edges[i]?).any (endsMatch own other n o)

/-- One adjacency map against the edge list: the live edges, each once, and nothing else. -/
def Lists (adj : UInt64 → List (UInt64 × Nat)) (edges : List (UInt64 × UInt64))
    (own other : UInt64 × UInt64 → UInt64) : Prop :=
  ∀ n o i, (adj n).count (o, i) = (listed edges own other n o i).toNat

variable {n o : UInt64}

theorem listed_of_edge (h : edges[r]? = some e) :
    listed edges own other n o r = endsMatch own other n o e := by
  unfold listed
  rw [h]
  rfl

variable {edges' : List (UInt64 × UInt64)}

theorem listed_congr (h : edges'[r]? = edges[r]?) :
    listed edges' own other n o r = listed edges own other n o r := by
  unfold listed
  rw [h]

section

variable (h : Lists adj edges own other)
include h

theorem Lists.link (he : e.1 ≠ noOffset) (hfree : ∀ n o, listed edges own other n o r = false)
    (hnew : edges'[r]? = some e) (hrest : ∀ i, i ≠ r → edges'[i]? = edges[i]?) :
    Lists (push adj (own e) (other e) r) edges' own other := by
  intro n o i
  rw [count_push, h n o i]
  by_cases hi : i = r
  · subst hi
    rw [hfree n o, listed_of_edge hnew]
    simp only [endsMatch, Prod.mk.injEq, and_true, he, ne_eq, not_false_eq_true, decide_true,
      Bool.true_and]
    grind
  · rw [listed_congr (hrest i hi)]
    simp [hi]

theorem Lists.append (he : e.1 ≠ noOffset) :
    Lists (push adj (own e) (other e) edges.length) (edges ++ [e]) own other := by
  apply h.link he
  · intro n o
    simp [listed]
  · exact getElem?_concat_length
  · intro i hi
    by_cases hlt : i < edges.length
    · exact getElem?_append_left hlt
    · rw [getElem?_eq_none (by simp; omega), getElem?_eq_none (by omega)]

theorem Lists.revive (he : e.1 ≠ noOffset) (hold : edges[r]? = some old) (hdead : old.1 = noOffset) :
    Lists (push adj (own e) (other e) r) (edges.set r e) own other := by
  apply h.link he
  · intro n o
    rw [listed_of_edge hold]
    simp [endsMatch, hdead]
  · exact getElem?_set_self (lt_length_of_getElem? hold)
  · intro i hi
    exact getElem?_set_ne (Ne.symm hi)

theorem Lists.bury (he : edges[r]? = some e) :
    Lists (unlink adj (own e) r) (edges.set r (noOffset, noOffset)) own other := by
  intro n o i
  rw [count_unlink, h n o i]
  by_cases hi : i = r
  · subst hi
    have hgone : (edges.set i (noOffset, noOffset))[i]? = some (noOffset, noOffset) :=
      getElem?_set_self (lt_length_of_getElem? he)
    rw [listed_of_edge hgone, listed_of_edge he]
    by_cases hn : n = own e
    · simp [hn, endsMatch]
    · simp [hn, endsMatch, Ne.symm hn]
  · rw [listed_congr (getElem?_set_ne (Ne.symm hi))]
    simp [hi]

theorem Lists.filter_eq (he : edges[r]? = some e) (hlive : e.1 ≠ noOffset) :
    (adj (own e)).filter (·.2 = r) = [(other e, r)] := by
  have hcount : ((adj (own e)).filter (·.2 = r)).count (other e, r) = 1 := by
    rw [count_filter (by simp), h, listed_of_edge he]
    simp [endsMatch, hlive]
  have hall : ∀ p ∈ (adj (own e)).filter (·.2 = r), p = (other e, r) := by
    rintro ⟨o, i⟩ hp
    obtain ⟨hmem, hi⟩ := mem_filter.mp hp
    have hi : i = r := by simpa using hi
    subst hi
    have hpos := count_pos_iff.mpr hmem
    rw [h, listed_of_edge he] at hpos
    have ho : other e = o := by
      by_contra hne
      simp [endsMatch, hne] at hpos
    rw [ho]
  have hlen : ((adj (own e)).filter (·.2 = r)).length = 1 := by
    rw [← hcount, eq_comm, count_eq_length]
    intro p hp
    exact (hall p hp).symm
  exact eq_replicate_iff.mpr ⟨hlen, hall⟩

theorem Lists.not_mem (he : edges[r]? = some e) (hdead : e.1 = noOffset) (n : UInt64) :
    ∀ p ∈ adj n, p.2 ≠ r := by
  rintro ⟨o, i⟩ hp rfl
  have hpos := count_pos_iff.mpr hp
  rw [h, listed_of_edge he] at hpos
  simp [endsMatch, hdead] at hpos

end

end Lists

inductive RelCall where
  | insertRel (src dst : UInt64) (values : List Value)
  | insertRelsBatch (rels : List ColumnarRelTable.BatchRel)
  | deleteEdge (edgeIdx : Nat)
  | updateCell (edgeIdx colIdx : Nat) (value : Value)
  | restoreDeletedEdge (edgeIdx : Nat) (src dst : UInt64) (props : List Value)

namespace ColumnarRelTable

variable {t u : ColumnarRelTable}

def call (t : ColumnarRelTable) : RelCall → Except StorageError ColumnarRelTable
  | .insertRel src dst values => t.insertRel src dst values
  | .insertRelsBatch rels => (t.insertRelsBatch rels).map (·.1)
  | .deleteEdge edgeIdx => t.deleteEdge edgeIdx
  | .updateCell edgeIdx colIdx value => t.updateCell edgeIdx colIdx value
  | .restoreDeletedEdge edgeIdx src dst props => t.restoreDeletedEdge edgeIdx src dst props

def step (t : ColumnarRelTable) (call : RelCall) : Option ColumnarRelTable :=
  some ((t.call call).toOption.getD t)

/-- New edges start at a node, and a restore finds its edge tombstoned. -/
def Careful (t : ColumnarRelTable) : RelCall → Prop
  | .insertRel src _ _ => src ≠ noOffset
  | .insertRelsBatch rels => ∀ rel ∈ rels, rel.src ≠ noOffset
  | .restoreDeletedEdge edgeIdx src _ _ => src ≠ noOffset ∧ ∀ e ∈ t.edges[edgeIdx]?, e.1 = noOffset
  | .deleteEdge _ => True
  | .updateCell _ _ _ => True

structure Linked (t : ColumnarRelTable) : Prop where
  forward : Lists t.fwdAdj t.edges Prod.fst Prod.snd
  reverse : Lists t.revAdj t.edges Prod.snd Prod.fst

variable {src dst : UInt64} {values : List Value}

theorem Linked.appendEdge (h : t.Linked) (hsrc : src ≠ noOffset) :
    (t.appendEdge src dst values).Linked where
  forward := h.forward.append (e := (src, dst)) hsrc
  reverse := h.reverse.append (e := (src, dst)) hsrc

variable {rels : List BatchRel}

theorem Linked.appendEdges (h : t.Linked) (hsrc : ∀ rel ∈ rels, rel.src ≠ noOffset) :
    (t.appendEdges rels).Linked := by
  induction rels generalizing t with
  | nil => exact h
  | cons rel rels ih =>
    have hrel := hsrc rel (mem_cons_self ..)
    exact ih (h.appendEdge hrel) (forall_mem_cons.mp hsrc).2

theorem Linked.insertRel (h : t.Linked) (hsrc : src ≠ noOffset)
    (hu : t.insertRel src dst values = .ok u) : u.Linked := by
  obtain ⟨_, hu⟩ := reject_ok hu
  split at hu
  · cases hu
  · split at hu
    · cases hu
    · cases hu
      have happ : (t.appendEdge src dst values).Linked := h.appendEdge hsrc
      exact ⟨happ.forward, happ.reverse⟩

variable {i : Nat}

theorem Linked.deleteEdge (h : t.Linked) (hu : t.deleteEdge i = .ok u) : u.Linked := by
  unfold ColumnarRelTable.deleteEdge at hu
  split at hu
  next => cases hu
  next src dst he =>
    split at hu
    · cases hu
      exact h
    · cases hu
      exact ⟨h.forward.bury he, h.reverse.bury he⟩

theorem Linked.updateCell {c : Nat} {v : Value} (h : t.Linked) (hu : t.updateCell i c v = .ok u) :
    u.Linked := by
  obtain ⟨_, hu⟩ := reject_ok hu
  split at hu
  · cases hu
  · cases hu
    exact ⟨h.forward, h.reverse⟩

theorem Linked.restoreDeletedEdge {props : List Value} (h : t.Linked) (hsrc : src ≠ noOffset)
    (hdead : ∀ e ∈ t.edges[i]?, e.1 = noOffset)
    (hu : t.restoreDeletedEdge i src dst props = .ok u) : u.Linked := by
  obtain ⟨hi, hu⟩ := reject_ok hu
  cases hu
  have he := getElem?_eq_getElem (Nat.lt_of_not_le hi)
  have hold := hdead _ he
  exact ⟨h.forward.revive (e := (src, dst)) hsrc he hold,
    h.reverse.revive (e := (src, dst)) hsrc he hold⟩

variable {n : Nat}

theorem insertRelsBatch_ok (hu : t.insertRelsBatch rels = .ok (u, n)) :
    u = t ∨ (∀ rel ∈ rels, rel.values.length = t.columns.length) ∧
      u = { t.appendEdges rels with numRows := t.numRows + rels.length, persistenceDirty := true } := by
  unfold insertRelsBatch at hu
  split at hu
  · cases hu
    exact .inl rfl
  · obtain ⟨_, hv, ⟨⟩⟩ := bind_eq_ok.mp hu
    exact .inr ⟨validateRels_width hv, rfl⟩

theorem Linked.insertRelsBatch (h : t.Linked) (hsrc : ∀ rel ∈ rels, rel.src ≠ noOffset)
    (hu : t.insertRelsBatch rels = .ok (u, n)) : u.Linked := by
  rcases insertRelsBatch_ok hu with rfl | ⟨_, rfl⟩
  · exact h
  · have happ := h.appendEdges hsrc
    exact ⟨happ.forward, happ.reverse⟩

variable {c : RelCall}

theorem Linked.call (h : t.Linked) (hc : t.Careful c) (hu : t.call c = .ok u) : u.Linked := by
  cases c with
  | insertRel => exact h.insertRel hc hu
  | insertRelsBatch =>
    obtain ⟨⟨v, n⟩, hv, rfl⟩ := map_eq_ok.mp hu
    exact h.insertRelsBatch hc hv
  | deleteEdge => exact h.deleteEdge hu
  | updateCell => exact h.updateCell hu
  | restoreDeletedEdge => exact h.restoreDeletedEdge hc.1 hc.2 hu

theorem exists_columnar_call {s : RelTable} (hu : s.columnar.call c = .ok u) : ∃ s' : RelTable,
    s'.columnar = u := by
  have hmap : ∀ {x : Except StorageError RelTable}, x.map columnar = .ok u → ∃ s' : RelTable,
      s'.columnar = u := by
    intro x hx
    obtain ⟨s', _, hs'⟩ := map_eq_ok.mp hx
    exact ⟨s', hs'⟩
  cases c with
  | insertRel => exact hmap (columnar_insertRel.symm.trans hu)
  | insertRelsBatch rels =>
    obtain ⟨⟨v, n⟩, hv, rfl⟩ := map_eq_ok.mp hu
    rcases insertRelsBatch_ok hv with rfl | ⟨hwidth, rfl⟩
    · exact ⟨s, rfl⟩
    · exact columnar_appendEdges s rels hwidth
  | deleteEdge => exact hmap (columnar_deleteEdge.symm.trans hu)
  | updateCell => exact hmap (columnar_updateCell.symm.trans hu)
  | restoreDeletedEdge => exact hmap (columnar_restoreDeletedEdge.symm.trans hu)

/-- The invariant of a run: the lists are right, and the properties are the columns of a table of
edges. -/
structure Sound (t : ColumnarRelTable) : Prop where
  linked : t.Linked
  rows : ∃ s : RelTable, s.columnar = t

theorem sound_new (tableId : Nat) (name : String) (srcTableId dstTableId : Nat)
    (columns : List ColumnDefinition) :
    (new tableId name srcTableId dstTableId columns).Sound where
  linked := ⟨fun n o i => by simp [new, listed], fun n o i => by simp [new, listed]⟩
  rows := by
    have hcols : (range columns.length).map (propertyColumn []) = replicate columns.length [] := by
      rw [eq_replicate_iff]
      simp [propertyColumn]
    exact ⟨.new tableId name srcTableId dstTableId columns,
      by simp [columnar, RelTable.new, new, hcols]⟩

theorem Sound.step (h : t.Sound) (hc : t.Careful c) (hu : t.step c = some u) : u.Sound := by
  obtain rfl := Option.some.inj hu
  cases hcall : t.call c with
  | error e => exact h
  | ok v =>
    obtain ⟨s, rfl⟩ := h.rows
    exact ⟨h.linked.call hc hcall, exists_columnar_call hcall⟩

theorem Sound.adjacent (h : t.Sound) : t.Adjacent where
  forward i src dst he hlive := h.linked.forward.filter_eq he hlive
  reverse i src dst he hlive := h.linked.reverse.filter_eq he hlive
  buried i dst he n := ⟨h.linked.forward.not_mem he rfl n, h.linked.reverse.not_mem he rfl n⟩
  width := by
    obtain ⟨s, rfl⟩ := h.rows
    simp [columnar]
  slots := by
    obtain ⟨s, rfl⟩ := h.rows
    intro col hcol
    obtain ⟨k, hk, rfl⟩ := mem_map.mp hcol
    rw [length_propertyColumn, length_columnar_edges]

/-- If edges start at nodes and only tombstones are restored, every live edge stands once in the
lists of its endpoints, tombstones in none, and every column has one entry for each edge. -/
theorem adjacency_kept (tableId : Nat) (name : String) (srcTableId dstTableId : Nat)
    (columns : List ColumnDefinition)
    (calls : List RelCall)
    (hm : Meets step Careful (new tableId name srcTableId dstTableId columns) calls) :
    ∀ pre post t, calls = pre ++ post → run step (new tableId name srcTableId dstTableId columns)
    pre = some t → t.Adjacent := by
  rintro pre post t rfl ht
  have hpre := ((meets_append ht).mp hm).1
  have hsound : t.Sound :=
    run_keeps (fun s c u hs hc hu => hs.step hc hu) ht hpre
      (sound_new tableId name srcTableId dstTableId columns)
  exact hsound.adjacent

instance (t : ColumnarRelTable) : (c : RelCall) → Decidable (t.Careful c)
  | .insertRel src _ _ => inferInstanceAs (Decidable (src ≠ noOffset))
  | .insertRelsBatch rels => inferInstanceAs (Decidable (∀ rel ∈ rels, rel.src ≠ noOffset))
  | .restoreDeletedEdge edgeIdx src _ _ =>
    @instDecidableAnd (src ≠ noOffset) (∀ e ∈ t.edges[edgeIdx]?, e.1 = noOffset) inferInstance
      (Option.decidableForallMem _)
  | .deleteEdge _ => inferInstanceAs (Decidable True)
  | .updateCell _ _ _ => inferInstanceAs (Decidable True)

theorem adjacency_kept_restored :
    ∃ t, run step (new 7 "knows" 1 1 [])
      [.insertRelsBatch [⟨1, 2, []⟩, ⟨1, 3, []⟩], .deleteEdge 0, .restoreDeletedEdge 0 1 2 []] =
    some t ∧ t.fwdAdj 1 = [(3, 1), (2, 0)] ∧ t.Adjacent := by
  have hm : Meets step Careful (new 7 "knows" 1 1 [])
      [.insertRelsBatch [⟨1, 2, []⟩, ⟨1, 3, []⟩], .deleteEdge 0, .restoreDeletedEdge 0 1 2 []] :=
    meets_of_check (by decide)
  exact ⟨_, rfl, by decide, adjacency_kept 7 "knows" 1 1 [] _ hm _ [] _ (append_nil _).symm rfl⟩

/-- An edge is deleted twice before a rollback, which lists it under `u64::MAX` and then under its
source; the next delete takes it out of the list of its source only. -/
theorem tombstone_left_listed :
    ∃ t u, run step (new 7 "knows" 1 1 []) [.insertRel 1 2 [], .deleteEdge 0] = some t ∧
      t.edgeUndo 0 = ((noOffset, noOffset), []) ∧
      run step t [.deleteEdge 0, .restoreDeletedEdge 0 noOffset noOffset [],
        .restoreDeletedEdge 0 1 2 [],
        .deleteEdge 0] = some u ∧
      u.edges = [(noOffset, noOffset)] ∧ u.fwdAdj noOffset = [(noOffset, 0)] ∧ ¬u.Adjacent := by
  refine ⟨_, _, rfl, rfl, rfl, by decide, by decide, ?_⟩
  intro h
  exact (h.buried 0 noOffset (by decide) noOffset).1 (noOffset, 0) (by decide) rfl

end ColumnarRelTable

end Akar
