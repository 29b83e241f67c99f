import Akar.TableWrites

namespace Akar

open List Function

namespace RelTable

section Adjacency

variable {adj adj' : UInt64 → List (UInt64 × Nat)} {edges : List Edge} {own other : Edge → UInt64}
  {extra : UInt64 → List (UInt64 × Nat)} {len r : Nat} {k o : UInt64}

theorem count_push (n : UInt64) (p : UInt64 × Nat) :
    (push adj k o r n).count p = (adj n).count p + if n = k ∧ p = (o, r) then 1 else 0 := by
  unfold push
  by_cases hn : n = k
  · grind
  · simp [hn]

theorem count_unlink (n : UInt64) (p : UInt64 × Nat) :
    (unlink adj k r n).count p = if n = k ∧ p.2 = r then 0 else (adj n).count p := by
  unfold unlink
  by_cases hn : n = k
  · subst hn
    by_cases hp : p.2 = r
    · simp [hp, count_eq_zero]
    · simp [hp]
  · simp [hn]

/-- One adjacency map against the edge list: each live edge stands exactly once under its own
endpoint, and nothing is listed beyond the end of the edge list. -/
structure Listed (adj : UInt64 → List (UInt64 × Nat)) (edges : List Edge)
    (own other : Edge → UInt64) : Prop where
  once : ∀ {r e}, edges[r]? = some e → e.live → ∀ o, (adj (own e)).count (o, r) = if o =
    other e then 1 else 0
  lt : ∀ n, ∀ p ∈ adj n, p.2 < edges.length

theorem Listed.count_new (h : Listed adj edges own other) (n o : UInt64) :
    (adj n).count (o, edges.length) = 0 := by
  rw [count_eq_zero]
  intro hmem
  exact Nat.lt_irrefl _ (h.lt n _ hmem)

theorem Listed.push {e : Edge} (h : Listed adj edges own other) :
    Listed (push adj (own e) (other e) edges.length) (edges ++ [e]) own other := by
  constructor
  · intro r e' he' hlive o
    rw [count_push]
    by_cases hr : r < edges.length
    · rw [getElem?_append_left hr] at he'
      rw [h.once he' hlive]
      have : ¬(o, r) = (other e, edges.length) := fun heq => by cases heq; exact Nat.lt_irrefl _ hr
      simp [this]
    · have hlt := lt_length_of_getElem? he'
      have hreq : r = edges.length := by simp at hlt; omega
      subst hreq
      rw [getElem?_concat_length] at he'
      cases he'
      rw [h.count_new]
      simp
  · intro n p hp
    rw [length_append, length_singleton]
    unfold RelTable.push at hp
    rw [update_apply] at hp
    split at hp
    · rw [mem_append, mem_singleton] at hp
      rcases hp with hp | rfl
      · exact Nat.lt_succ_of_lt (h.lt _ p hp)
      · exact Nat.lt_succ_self _
    · exact Nat.lt_succ_of_lt (h.lt _ p hp)

theorem Listed.modify {f : Edge → Edge} (h : Listed adj edges own other)
    (hf : ∀ e, (f e).live → e.live ∧ own (f e) = own e ∧ other (f e) = other e) :
    Listed adj (edges.modify r f) own other := by
  constructor
  · intro r' e' he' hlive o
    rw [getElem?_modify] at he'
    obtain ⟨e, he, rfl⟩ := Option.map_eq_some_iff.mp he'
    split at hlive
    next hr =>
      obtain ⟨hl, ho, ho'⟩ := hf e hlive
      rw [if_pos hr, ho, ho']
      exact h.once he hl o
    next hr =>
      rw [if_neg hr]
      exact h.once he hlive o
  · rw [length_modify]
    exact h.lt

theorem Listed.unlink (h : Listed adj edges own other)
    (hdead : ∀ e, edges[r]? = some e → e.live = false) :
    Listed (unlink adj k r) edges own other := by
  constructor
  · intro r' e he hlive o
    rw [count_unlink]
    have hr : ¬r' = r := by
      rintro rfl
      rw [hdead e he] at hlive
      cases hlive
    rw [if_neg fun hh => hr hh.2]
    exact h.once he hlive o
  · intro n p hp
    unfold RelTable.unlink at hp
    rw [update_apply] at hp
    split at hp
    next hn =>
      subst hn
      exact h.lt n p (mem_of_mem_filter hp)
    · exact h.lt n p hp

def Relists (adj' adj : UInt64 → List (UInt64 × Nat)) (len : Nat)
    (extra : UInt64 → List (UInt64 × Nat)) : Prop :=
  ∀ n p, p.2 < len → (adj' n).count p = (adj n).count p + (extra n).count p

theorem Relists.unpush (h : Relists adj' (push adj k o len) (len + 1) extra) :
    Relists adj' adj len extra := by
  intro n p hp
  rw [h n p (Nat.lt_succ_of_lt hp), count_push]
  have : ¬p = (o, len) := fun heq => by subst heq; exact Nat.lt_irrefl _ hp
  simp [this]

theorem Relists.unlink_new (h : Relists adj' adj len extra) :
    Relists (unlink adj' k len) adj len extra := by
  intro n p hp
  rw [count_unlink, if_neg fun hh => hp.ne hh.2]
  exact h n p hp

theorem Relists.relink_live {e : Edge} (hlisted : Listed adj edges own other) (he : edges[r]? = some e)
    (hlive : e.live) (h : Relists adj' (unlink adj (own e) r) len extra) :
    Relists (push adj' (own e) (other e) r) adj len extra := by
  intro n p hp
  rw [count_push, h n p hp, count_unlink]
  by_cases hn : n = own e ∧ p.2 = r
  · obtain ⟨rfl, rfl⟩ := hn
    have honce := hlisted.once he hlive p.1
    rw [honce]
    by_cases hp1 : p.1 = other e
    · have hpe : p = (other e, p.2) := by rw [← hp1]
      rw [if_pos ⟨rfl, rfl⟩, if_pos ⟨rfl, hpe⟩, if_pos hp1]
      omega
    · have hpe : ¬p = (other e, p.2) := fun heq => hp1 (congrArg Prod.fst heq)
      rw [if_pos ⟨rfl, rfl⟩, if_neg fun hh => hpe hh.2, if_neg hp1]
      omega
  · have hpe : ¬(n = own e ∧ p = (other e, r)) := fun hh => hn ⟨hh.1, congrArg Prod.snd hh.2⟩
    rw [if_neg hn, if_neg hpe]
    omega

theorem Relists.relink_dead (h : Relists adj' adj len extra) :
    Relists (push adj' k o r) adj len fun n => (if n = k then [(o, r)] else []) ++ extra n := by
  intro n p hp
  rw [count_push, h n p hp, count_append]
  by_cases hn : n = k
  · grind
  · simp [hn]

end Adjacency

structure Linked (t : RelTable) : Prop where
  fwd : Listed t.fwdAdj t.edges Edge.src Edge.dst
  rev : Listed t.revAdj t.edges Edge.dst Edge.src

theorem linked_new (tableId : Nat) (name : String) (src dst : Nat) (columns : List ColumnDefinition) :
    (RelTable.new tableId name src dst columns).Linked := by
  constructor <;> constructor <;> simp [RelTable.new]

variable {s t : RelTable} {tableId r c : Nat} {e : Edge} {v : Value} {op : WriteOp}
  {fwd rev : UInt64 → List (UInt64 × Nat)}

theorem Linked.appendEdge (h : t.Linked) (he : e.props.length = t.columns.length) :
    (t.appendEdge e he).Linked :=
  ⟨h.fwd.push, h.rev.push⟩

theorem Linked.setCell (h : t.Linked) : (t.setCell r c v).Linked :=
  ⟨h.fwd.modify fun _ hl => ⟨hl, rfl, rfl⟩, h.rev.modify fun _ hl => ⟨hl, rfl, rfl⟩⟩

theorem buried_at {edges : List Edge} (e : Edge) (he : (edges.modify r Edge.buried)[r]? = some e) :
    e.live = false := by
  rw [getElem?_modify] at he
  obtain ⟨e₀, _, rfl⟩ := Option.map_eq_some_iff.mp he
  simp

theorem Linked.buryEdge (h : t.Linked) : (t.buryEdge r e).Linked :=
  have hf (own other : Edge → UInt64) (e : Edge) (hl : e.buried.live) :
      e.live ∧ own e.buried = own e ∧ other e.buried = other e := by simp at hl
  ⟨(h.fwd.modify (hf _ _)).unlink buried_at, (h.rev.modify (hf _ _)).unlink buried_at⟩

variable {w : Written RelTable}

/-- Every write keeps the adjacency lists in step with the edges. -/
theorem Linked.write (h : t.Linked) (hw : t.Writes tableId op w) : w.table.Linked := by
  cases hw with
  | insertRel src dst values hv => exact h.appendEdge hv
  | updateCell => exact h.setCell
  | deleteLive => exact h.buryEdge
  | deleteDead => exact h

/-- The adjacency entry that undoing a delete of a tombstone adds: its old endpoints are linked
although the delete had unlinked nothing. -/
def relinked (own other : Edge → UInt64) (t : RelTable) (op : WriteOp) (n : UInt64) :
    List (UInt64 × Nat) :=
  match op with
  | .deleteRow r =>
    ((t.edges[r]?).filter fun e => e.src = noOffset ∧ n = own e).toList.map fun e => (other e, r)
  | _ => []

/-- `s` is what undoing some writes on `t` leaves: the edges they added are dead, and those of `t`
are listed as before but for the entries in `fwd` and `rev`. -/
structure Reverted (s t : RelTable) (fwd rev : UInt64 → List (UInt64 × Nat)) : Prop where
  schema : s.toRelSchema = t.toRelSchema
  edges : ∃ dead, s.edges = t.edges ++ dead ∧ ∀ e ∈ dead, e.live = false
  fwdAdj : t.Linked → Relists s.fwdAdj t.fwdAdj t.edges.length fwd
  revAdj : t.Linked → Relists s.revAdj t.revAdj t.edges.length rev

theorem reverted_refl (t : RelTable) : t.Reverted t (fun _ => []) fun _ => [] where
  schema := rfl
  edges := ⟨[], by simp⟩
  fwdAdj _ := by simp [Relists]
  revAdj _ := by simp [Relists]

theorem Reverted.edge (h : s.Reverted t fwd rev) (he : t.edges[r]? = some e) : s.edges[r]? =
    some e := by
  obtain ⟨dead, hd, _⟩ := h.edges
  rw [hd, getElem?_append_left (lt_length_of_getElem? he), he]

section Undo

variable [Rendering]

theorem Reverted.undo_insertRel (hv : e.props.length = t.columns.length)
    (h : s.Reverted (t.appendEdge e hv) fwd rev) :
    (s.undo (.insert tableId t.edges.length)).Reverted t fwd rev := by
  obtain ⟨dead, hd, hdead⟩ := h.edges
  have hat : s.edges[t.edges.length]? = some e := h.edge (by simp)
  have hfwd (hl : t.Linked) : Relists s.fwdAdj t.fwdAdj t.edges.length fwd := by
    have := h.fwdAdj (hl.appendEdge hv)
    rw [appendEdge_edges, length_append] at this
    exact this.unpush
  have hrev (hl : t.Linked) : Relists s.revAdj t.revAdj t.edges.length rev := by
    have := h.revAdj (hl.appendEdge hv)
    rw [appendEdge_edges, length_append] at this
    exact this.unpush
  by_cases hlive : e.src = noOffset
  · -- an edge inserted with the tombstone endpoint is never live, and the undo leaves it alone
    have hu : s.undo (.insert tableId t.edges.length) = s := by
      simp [undo, UndoRecord.insert, deleteEdge_dead hat hlive, Except.toOption]
    rw [hu]
    refine ⟨h.schema, ⟨e :: dead, ?_, ?_⟩, hfwd, hrev⟩
    · rw [hd, appendEdge_edges, append_assoc]
      rfl
    · intro e' he'
      rcases mem_cons.mp he' with rfl | he'
      · simp [Edge.live, hlive]
      · exact hdead e' he'
  · have hu : s.undo (.insert tableId t.edges.length) = s.buryEdge t.edges.length e := by
      simp [undo, UndoRecord.insert, deleteEdge_live hat hlive, Except.toOption]
    rw [hu]
    refine ⟨h.schema, ⟨e.buried :: dead, ?_, ?_⟩, fun hl => (hfwd hl).unlink_new, fun hl =>
      (hrev hl).unlink_new⟩
    · rw [buryEdge_edges, hd, appendEdge_edges, modify_append_left (by simp), modify_concat,
        append_assoc]
      rfl
    · intro e' he'
      rcases mem_cons.mp he' with rfl | he'
      · simp
      · exact hdead e' he'

theorem Reverted.undo_updateCell (hc : c < t.columns.length) (hr : r < t.edges.length)
    (hsaved : t.Saved (.updateCell r c v)) (h : s.Reverted (t.setCell r c v) fwd rev) :
    (s.undo (.update tableId r c (t.edgeCellUndo r c))).Reverted t fwd rev := by
  obtain ⟨dead, hd, hdead⟩ := h.edges
  have he := getElem?_eq_getElem hr
  have hcell : c < t.edges[r].props.length := by rw [edge_width he]; exact hc
  have hr' : r < s.edges.length := by
    rw [hd, setCell_edges, length_append, length_modify]
    omega
  have hc' : c < s.columns.length := by rw [h.schema]; exact hc
  have hu : s.undo (.update tableId r c (t.edgeCellUndo r c)) = s.setCell r c t.edges[r].props[c] := by
    have hread := (hsaved _ he).payload (n := 1) rfl
    simp only [getElem?_eq_getElem hcell, Option.getD_some] at hread
    simp [undo, UndoRecord.update, edgeCellUndo_of_edge he, hread, hcell, updateCell_ok hc' hr',
      Except.toOption]
  have hlen : (t.setCell r c v).edges.length = t.edges.length := by rw [setCell_edges, length_modify]
  rw [hu]
  refine ⟨h.schema, ⟨dead, ?_, hdead⟩, fun hl => ?_, fun hl => ?_⟩
  · rw [setCell_edges, hd, setCell_edges, modify_append_left (by rw [length_modify]; exact hr),
      modify_modify_eq, modify_eq_self]
    intro e₀ he₀
    cases he.symm.trans he₀
    simp
  · exact hlen ▸ h.fwdAdj hl.setCell
  · exact hlen ▸ h.revAdj hl.setCell

theorem undo_delete_eq (he : t.edges[r]? = some e) (hsaved : t.Saved (.deleteRow r))
    (hs : s.toRelSchema = t.toRelSchema) (hr : r < s.edges.length) :
    s.undo (.delete tableId r (t.edgeUndo r)) = s.reviveEdge r e.src e.dst e.props := by
  have hcols := congrArg RelSchema.columns hs
  have hw := edge_width he
  have hdata : deserializeValuesFromBytes (t.edgeUndo r) (s.columns.length + 2) =
      .uint64 e.src :: .uint64 e.dst :: e.props := by
    simp only [edgeUndo, he]
    exact (hsaved e he).payload (by simp [hw, hcols])
  simp [undo, UndoRecord.delete, hdata, Value.asU64, restoreDeletedEdge, Nat.not_le.mpr hr,
    Except.toOption]

omit [Rendering] in
theorem overwrite_same {old new : List Value} (h : old.length = new.length) : overwrite old new =
    new := by
  simp [overwrite, h]

theorem Reverted.undo_deleteLive (he : t.edges[r]? = some e) (hsaved : t.Saved (.deleteRow r))
    (hlive : e.src ≠ noOffset) (h : s.Reverted (t.buryEdge r e) fwd rev) :
    (s.undo (.delete tableId r (t.edgeUndo r))).Reverted t fwd rev := by
  obtain ⟨dead, hd, hdead⟩ := h.edges
  have hr := lt_length_of_getElem? he
  have hr' : r < s.edges.length := by
    rw [hd, buryEdge_edges, length_append, length_modify]
    omega
  have hlen : (t.buryEdge r e).edges.length = t.edges.length := by rw [buryEdge_edges, length_modify]
  have hl : e.live := by simpa [Edge.live] using hlive
  rw [undo_delete_eq he hsaved h.schema hr']
  refine ⟨h.schema, ⟨dead, ?_, hdead⟩, fun hlinked => ?_, fun hlinked => ?_⟩
  · rw [reviveEdge_edges, hd, buryEdge_edges, modify_append_left (by rw [length_modify]; exact hr),
      modify_modify_eq, modify_eq_self]
    intro e₀ he₀
    cases he.symm.trans he₀
    simp [overwrite_same e.buried_width]
  · exact .relink_live hlinked.fwd he hl (hlen ▸ h.fwdAdj hlinked.buryEdge)
  · exact .relink_live hlinked.rev he hl (hlen ▸ h.revAdj hlinked.buryEdge)

omit [Rendering] in
theorem relinked_dead (own other : Edge → UInt64) (he : t.edges[r]? = some e)
    (hdead : e.src = noOffset) (n : UInt64) :
    relinked own other t (.deleteRow r) n = if n = own e then [(other e, r)] else [] := by
  by_cases hn : n = own e <;> simp [relinked, he, Option.filter, hdead, hn]

omit [Rendering] in
theorem relinked_live (own other : Edge → UInt64) (he : t.edges[r]? = some e)
    (hlive : e.src ≠ noOffset) (n : UInt64) :
    relinked own other t (.deleteRow r) n = [] := by
  simp [relinked, he, Option.filter, hlive]

theorem Reverted.undo_deleteDead (he : t.edges[r]? = some e) (hsaved : t.Saved (.deleteRow r))
    (hdead : e.src = noOffset) (h : s.Reverted t fwd rev) :
    (s.undo (.delete tableId r (t.edgeUndo r))).Reverted t
      (fun n => relinked Edge.src Edge.dst t (.deleteRow r) n ++ fwd n)
      fun n => relinked Edge.dst Edge.src t (.deleteRow r) n ++ rev n := by
  obtain ⟨dead, hd, hdead'⟩ := h.edges
  have hr := lt_length_of_getElem? he
  have hr' : r < s.edges.length := by
    rw [hd, length_append]
    omega
  rw [undo_delete_eq he hsaved h.schema hr']
  simp only [relinked_dead _ _ he hdead]
  refine ⟨h.schema, ⟨dead, ?_, hdead'⟩, fun hl => (h.fwdAdj hl).relink_dead, fun hl =>
    (h.revAdj hl).relink_dead⟩
  rw [reviveEdge_edges, hd, modify_append_left hr, modify_eq_self]
  intro e₀ he₀
  cases he.symm.trans he₀
  simp [overwrite_same]

/-- Undoing a write leads back to the table before it, but for the entries in `relinked`. -/
theorem Reverted.undo_write (hw : t.Writes tableId op w) (hsaved : t.Saved op)
    (h : s.Reverted w.table fwd rev) :
    (s.undo w.undo).Reverted t (fun n => relinked Edge.src Edge.dst t op n ++ fwd n)
      fun n => relinked Edge.dst Edge.src t op n ++ rev n := by
  cases hw with
  | insertRel src dst values hv => exact h.undo_insertRel hv
  | updateCell r c v _ hc hr => exact h.undo_updateCell hc hr hsaved
  | deleteLive r e he hlive =>
    simp only [relinked_live _ _ he hlive]
    exact h.undo_deleteLive he hsaved hlive
  | deleteDead r e he hdead => exact h.undo_deleteDead he hsaved hdead

end Undo

def liveAt (t : RelTable) (r : Nat) : Bool := (t.edges[r]?).any Edge.live

/-- The live edges of `s` are those of `t`, and each adjacency list holds the same entries for
them. -/
def Restored (s t : RelTable) : Prop :=
  (∀ (r : Nat) (e : Edge), s.edges[r]? = some e ∧ e.live ↔ t.edges[r]? = some e ∧ e.live) ∧
    (∀ n, ((s.fwdAdj n).filter fun p => s.liveAt p.2).Perm ((t.fwdAdj n).filter fun p =>
      t.liveAt p.2)) ∧
    ∀ n, ((s.revAdj n).filter fun p => s.liveAt p.2).Perm ((t.revAdj n).filter fun p => t.liveAt p.2)

theorem Reverted.live_iff (h : s.Reverted t fwd rev) (r : Nat) (e : Edge) :
    s.edges[r]? = some e ∧ e.live ↔ t.edges[r]? = some e ∧ e.live := by
  obtain ⟨dead, hd, hdead⟩ := h.edges
  apply and_congr_left
  intro hlive
  constructor
  · intro hs
    rw [hd] at hs
    by_cases hr : r < t.edges.length
    · rwa [getElem?_append_left hr] at hs
    · rw [getElem?_append_right (by omega)] at hs
      rw [hdead e (mem_of_getElem? hs)] at hlive
      cases hlive
  · exact h.edge

theorem liveAt_iff : t.liveAt r = true ↔ ∃ e, t.edges[r]? = some e ∧ e.live := by
  simp [liveAt, Option.any_eq_true]

theorem Reverted.liveAt_eq (h : s.Reverted t fwd rev) (r : Nat) : s.liveAt r = t.liveAt r := by
  rw [Bool.eq_iff_iff, liveAt_iff, liveAt_iff]
  exact exists_congr (h.live_iff r)

theorem lt_of_liveAt (h : t.liveAt r = true) : r < t.edges.length := by
  obtain ⟨e, he, _⟩ := liveAt_iff.mp h
  exact lt_length_of_getElem? he

/-- The live entries are the same up to order exactly when every extra entry is dead. -/
theorem Relists.perm_iff {adj' adj extra : UInt64 → List (UInt64 × Nat)}
    (h : Relists adj' adj t.edges.length extra) :
    (∀ n, ((adj' n).filter fun p => t.liveAt p.2).Perm ((adj n).filter fun p => t.liveAt p.2)) ↔
      ∀ n, ∀ p ∈ extra n, t.liveAt p.2 = false := by
  apply forall_congr'
  intro n
  rw [perm_iff_count]
  constructor
  · intro hcount p hp
    by_contra hlive
    rw [Bool.not_eq_false] at hlive
    have hc := hcount p
    rw [count_filter (by simpa using hlive), count_filter (by simpa using hlive),
      h n p (lt_of_liveAt hlive)] at hc
    have := count_pos_iff.mpr hp
    omega
  · intro hextra p
    cases hlive : t.liveAt p.2 with
    | true =>
      have hzero : (extra n).count p = 0 := by
        rw [count_eq_zero]
        intro hp
        rw [hextra p hp] at hlive
        cases hlive
      rw [count_filter (by simpa using hlive), count_filter (by simpa using hlive),
        h n p (lt_of_liveAt hlive), hzero, Nat.add_zero]
    | false =>
      have hnot (l : List (UInt64 × Nat)) : (l.filter fun p => t.liveAt p.2).count p = 0 := by
        rw [count_eq_zero]
        intro hp
        rw [(mem_filter.mp hp).2] at hlive
        cases hlive
      rw [hnot, hnot]

/-- The table is restored exactly when no extra entry of a list belongs to a live edge. -/
theorem Reverted.restored_iff (h : s.Reverted t fwd rev) (hl : t.Linked) :
    s.Restored t ↔ (∀ n, ∀ p ∈ fwd n, t.liveAt p.2 = false) ∧ ∀ n, ∀ p ∈ rev n, t.liveAt p.2 =
      false := by
  rw [Restored, and_iff_right h.live_iff]
  simp only [h.liveAt_eq]
  rw [(h.fwdAdj hl).perm_iff, (h.revAdj hl).perm_iff]

end RelTable

end Akar
