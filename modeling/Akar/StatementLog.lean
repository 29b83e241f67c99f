import Akar.StatementUndo

namespace Akar

open List

namespace RelTable

variable {t t' : RelTable} {i tableId : Nat}

def DeadAt (t : RelTable) (i : Nat) : Prop := ∃ e, t.edges[i]? = some e ∧ e.src = noOffset

/-- The adjacency of `t'` is that of `t` without entries of edges that are dead in `t'`. -/
structure Thinned (t t' : RelTable) : Prop where
  schema : t'.toRelSchema = t.toRelSchema
  length : t'.edges.length = t.edges.length
  dead : ∀ i, t.DeadAt i → t'.DeadAt i
  fwd : ∀ n, ∃ q : UInt64 × Nat → Bool, t'.fwdAdj n = (t.fwdAdj n).filter q ∧ ∀ p, q p = false →
    t'.DeadAt p.2
  rev : ∀ n, ∃ q : UInt64 × Nat → Bool, t'.revAdj n = (t.revAdj n).filter q ∧ ∀ p, q p = false →
    t'.DeadAt p.2

theorem thinned_refl (t : RelTable) : Thinned t t where
  schema := rfl
  length := rfl
  dead _ h := h
  fwd n := ⟨fun _ => true, by simp, by simp⟩
  rev n := ⟨fun _ => true, by simp, by simp⟩

variable {D : Nat → Prop}

theorem filter_trans {adj adj' adj'' : List (UInt64 × Nat)} {D' : Nat → Prop} (hD : ∀ i, D i → D' i)
    (h : ∃ q : UInt64 × Nat → Bool, adj' = adj.filter q ∧ ∀ p, q p = false → D p.2)
    (h' : ∃ q : UInt64 × Nat → Bool, adj'' = adj'.filter q ∧ ∀ p, q p = false → D' p.2) :
    ∃ q : UInt64 × Nat → Bool, adj'' = adj.filter q ∧ ∀ p, q p = false → D' p.2 := by
  obtain ⟨q, rfl, hq⟩ := h
  obtain ⟨q', rfl, hq'⟩ := h'
  refine ⟨fun p => q' p && q p, filter_filter, fun p hp => ?_⟩
  cases hqp : q p with
  | true => exact hq' p (by simpa [hqp] using hp)
  | false => exact hD _ (hq p hqp)

theorem Thinned.trans {t'' : RelTable} (h : Thinned t t') (h' : Thinned t' t'') : Thinned t t'' where
  schema := h'.schema.trans h.schema
  length := h'.length.trans h.length
  dead i hi := h'.dead i (h.dead i hi)
  fwd n := filter_trans h'.dead (h.fwd n) (h'.fwd n)
  rev n := filter_trans h'.dead (h.rev n) (h'.rev n)

theorem deadAt_buryEdge {e : Edge} (he : t.edges[i]? = some e) : (t.buryEdge i e).DeadAt i :=
  ⟨e.buried, by rw [buryEdge_edges, getElem?_modify, he]; simp, rfl⟩

theorem unlink_filter (adj : UInt64 → List (UInt64 × Nat)) (k n : UInt64) (hD : D i) :
    ∃ q : UInt64 × Nat → Bool, unlink adj k i n = (adj n).filter q ∧ ∀ p, q p = false → D p.2 := by
  unfold unlink
  by_cases hn : n = k
  · subst hn
    refine ⟨fun p => p.2 ≠ i, by simp, fun p hp => ?_⟩
    have : p.2 = i := by simpa using hp
    rwa [this]
  · exact ⟨fun _ => true, by simp [hn], by simp⟩

theorem thinned_delete (t : RelTable) (i : Nat) : Thinned t ((t.deleteEdge i).toOption.getD t) := by
  cases he : t.edges[i]? with
  | none =>
    have : t.deleteEdge i = .error (.page s!"Edge index {i} out of range") := by simp [deleteEdge, he]
    rw [this]
    exact thinned_refl t
  | some e =>
    by_cases hdead : e.src = noOffset
    · rw [deleteEdge_dead he hdead]
      exact thinned_refl t
    · rw [deleteEdge_live he hdead]
      have hi := deadAt_buryEdge he
      refine ⟨rfl, by simp [Except.toOption], fun k hk => ?_, fun n => unlink_filter _ _ n hi,
        fun n => unlink_filter _ _ n hi⟩
      obtain ⟨e', he', hsrc⟩ := hk
      show (t.buryEdge i e).DeadAt k
      by_cases hik : i = k
      · exact hik ▸ hi
      · exact ⟨e', by rw [buryEdge_edges, getElem?_modify, he']; simp [hik], hsrc⟩

theorem thinned_deleteEdges (t : RelTable) (es : List Nat) : Thinned t (t.deleteEdges es) := by
  induction es generalizing t with
  | nil => exact thinned_refl t
  | cons i es ih => exact (thinned_delete t i).trans (ih _)

theorem deleteEdges_append (es es' : List Nat) : t.deleteEdges (es ++ es') =
    (t.deleteEdges es).deleteEdges es' :=
  List.foldl_append

variable {q : UInt64 × Nat → Bool} {ps : List (UInt64 × Nat)}

theorem deleteEdges_filter
    (h : ∀ p, q p = false → t.DeadAt p.2) :
    t.deleteEdges ((ps.filter q).map (·.2)) = t.deleteEdges (ps.map (·.2)) := by
  induction ps generalizing t with
  | nil => rfl
  | cons p ps ih =>
    cases hq : q p with
    | true =>
      rw [filter_cons_of_pos hq]
      exact ih fun p' hp' => (thinned_delete t p.2).dead _ (h p' hp')
    | false =>
      obtain ⟨e, he, hdead⟩ := h p hq
      have hskip : t.deleteEdges ((p :: ps).map (·.2)) = t.deleteEdges (ps.map (·.2)) := by
        show ((t.deleteEdge p.2).toOption.getD t).deleteEdges (ps.map (·.2)) = _
        rw [deleteEdge_dead he hdead]
        rfl
      rw [filter_cons_of_neg (by simp [hq]), hskip]
      exact ih h

theorem deleteEdges_ite {c : Prop} [Decidable c]
    (h : ∀ p, q p = false → t.DeadAt p.2) :
    t.deleteEdges (if c then (ps.filter q).map (·.2) else []) =
      t.deleteEdges (if c then ps.map (·.2) else []) := by
  split
  · exact deleteEdges_filter h
  · rfl

theorem Thinned.incident (h : Thinned t t') (row : Nat) :
    t'.deleteEdges (t'.incident tableId row) = t'.deleteEdges (t.incident tableId row) := by
  obtain ⟨q, hq, hdead⟩ := h.fwd (.ofNat row)
  obtain ⟨q', hq', hdead'⟩ := h.rev (.ofNat row)
  have hsrc := congrArg RelSchema.srcTableId h.schema
  have hdst := congrArg RelSchema.dstTableId h.schema
  simp only [RelTable.incident, hsrc, hdst, hq, hq', deleteEdges_append]
  rw [deleteEdges_ite hdead]
  exact deleteEdges_ite fun p hp => (thinned_deleteEdges t' _).dead _ (hdead' p hp)

theorem detach_eq (rows : List Nat) (h : Thinned t t') :
    rows.foldl (fun t row => t.deleteEdges (t.incident tableId row)) t' =
      t'.deleteEdges (rows.flatMap (t.incident tableId)) := by
  induction rows generalizing t' with
  | nil => rfl
  | cons row rows ih =>
    rw [foldl_cons, flatMap_cons, deleteEdges_append, ← h.incident]
    exact ih (h.trans (thinned_deleteEdges t' _))

end RelTable

section Effects

open TableCatalog

variable {cat cat' : TableCatalog} {relIds rows : List Nat} {tableId id i : Nat} {t : RelTable}
  {op : WriteOp}

theorem catalog_ext (h : ∀ i, cat.tables i = cat'.tables i) : cat = cat' := by
  cases cat
  cases cat'
  congr
  exact funext h

def onRel (f : RelTable → RelTable) : Table → Table
  | .rel t => .rel (f t)
  | .node t => .node t

def mapRel (f : RelTable → RelTable) (cat : TableCatalog) (id : Nat) : TableCatalog :=
  match cat.getRelTable id with
  | some t => cat.set id (.rel (f t))
  | none => cat

theorem mapRel_tables (f : RelTable → RelTable) (i : Nat) :
    (mapRel f cat id).tables i = if i = id then (cat.tables i).map (onRel f) else cat.tables i := by
  unfold mapRel
  split
  next t ht =>
    have ht' := getRelTable_eq_some.mp ht
    by_cases hi : i = id
    · subst hi
      simp [ht', onRel]
    · simp [hi, set_tables_ne hi]
  next hnone =>
    by_cases hi : i = id
    · subst hi
      rw [if_pos rfl]
      cases ht : cat.tables i with
      | none => rfl
      | some t =>
        cases t with
        | node => rfl
        | rel => rw [getRelTable_eq_some.mpr ht] at hnone; cases hnone
    · rw [if_neg hi]

theorem mapRels_tables (f : RelTable → RelTable) (hnodup : relIds.Nodup) (i : Nat) :
    (relIds.foldl (mapRel f) cat).tables i =
      if i ∈ relIds then (cat.tables i).map (onRel f) else cat.tables i := by
  induction relIds generalizing cat with
  | nil => rfl
  | cons id ids ih =>
    obtain ⟨hnot, hnodup⟩ := nodup_cons.mp hnodup
    rw [foldl_cons, ih hnodup, mapRel_tables]
    by_cases hi : i = id
    · subst hi
      simp [hnot]
    · simp [hi]

theorem detachNodes_tables (hnodup : relIds.Nodup) (i : Nat) :
    (rows.foldl (detachNode relIds tableId) cat).tables i = if i ∈ relIds then
        (cat.tables i).map (onRel fun t =>
          rows.foldl (fun t row => t.deleteEdges (t.incident tableId row)) t)
      else cat.tables i := by
  induction rows generalizing cat with
  | nil =>
    have hid : (onRel fun t => t) = fun t => t := funext fun t => by cases t <;> rfl
    simp [hid]
  | cons row rows ih =>
    have hrow : cat.detachNode relIds tableId row =
        relIds.foldl (mapRel fun t => t.deleteEdges (t.incident tableId row)) cat := rfl
    rw [foldl_cons, ih, hrow, mapRels_tables _ hnodup]
    split
    · rw [Option.map_map]
      exact congrArg (fun f => (cat.tables i).map f) (funext fun t => by cases t <;> rfl)
    · rfl

theorem set_set (cat : TableCatalog) (id : Nat) (a b : Table) : (cat.set id a).set id b =
    cat.set id b := by
  unfold TableCatalog.set
  simp

theorem incident_lt {row e : Nat} (hlinked : t.Linked) (he : e ∈ t.incident tableId row) : e <
    t.edges.length := by
  unfold RelTable.incident at he
  rcases mem_append.mp he with he | he
  · split at he
    · obtain ⟨p, hp, rfl⟩ := mem_map.mp he
      exact hlinked.fwd.lt _ p hp
    · cases he
  · split at he
    · obtain ⟨p, hp, rfl⟩ := mem_map.mp he
      exact hlinked.rev.lt _ p hp
    · cases he

variable [Rendering]

theorem RelTable.replay_write {t : RelTable} {w : Written RelTable} (h : t.write i op = some w)
    (hrec : op.Recorded) :
    t.replay w.record = .ok w.table := by
  cases RelTable.writes_of_write h with
  | insertRel src dst values hv htype hwindow =>
    have hins := @RelTable.insertRel_ok t src dst values hv htype hwindow
    have hdata := hrec.payload (n := t.columns.length + 2) (by simp [hv])
    simp [RelTable.replay, hdata, Value.asU64, hins, Except.mapError]
  | updateCell r c v _ hc hr =>
    have hupd := RelTable.updateCell_ok (v := v) hc hr
    simp [RelTable.replay, hrec.payload (n := 1) rfl, hupd, Except.mapError]
  | deleteLive r e he hlive =>
    have hdel := RelTable.deleteEdge_live he hlive
    simp [RelTable.replay, hdel, Except.mapError]
  | deleteDead r e he hdead =>
    have hdel := RelTable.deleteEdge_dead he hdead
    simp [RelTable.replay, hdel, Except.mapError]

theorem NodeTable.replay_write {t : NodeTable} {w : Written NodeTable} (h : t.write i op = some w)
    (hrec : op.Recorded) : t.replay w.record = .ok w.table := by
  cases NodeTable.writes_of_write h with
  | insertRow values row hrow hfresh =>
    have hins := NodeTable.insertRow_ok hrow hfresh
    simp [NodeTable.replay, NodeTable.replayInsert, hrec.payload (NodeTable.values_length hrow), hins]
  | updateCell r c v hc hr =>
    have hupd := NodeTable.updateCell_ok (v := v) hc hr
    simp [NodeTable.replay, hrec.payload (n := 1) rfl, hupd, Except.mapError]
  | deleteRow r row hrow =>
    have hdel := NodeTable.deleteRow_ok hrow
    simp [NodeTable.replay, hdel, Except.mapError]

theorem replay_write {w : Written TableCatalog} (h : cat.write i op = some w) (hrec : op.Recorded) :
    cat.replay w.record = .ok w.table := by
  obtain ⟨t, w', ht, hw', rfl⟩ := write_eq_some.mp h
  have hid : w'.record.tableId = i := (Table.write_tableId hw').2
  have hreplay : t.replay w'.record = .ok w'.table := by
    cases t with
    | node =>
      obtain ⟨w₀, hw₀, rfl⟩ := Option.map_eq_some_iff.mp hw'
      simp [Table.replay, NodeTable.replay_write hw₀ hrec, Except.map]
    | rel =>
      obtain ⟨w₀, hw₀, rfl⟩ := Option.map_eq_some_iff.mp hw'
      simp [Table.replay, RelTable.replay_write hw₀ hrec, Except.map]
  simp [TableCatalog.replay, hid, ht, hreplay, Except.map]

theorem replay_writes {ws : List (Nat × WriteOp)} {j : Journal} (h : cat.writes ws = some j)
    (hrec : ∀ w ∈ ws, w.2.Recorded) : j.records.foldlM TableCatalog.replay cat = .ok j.catalog := by
  induction ws generalizing cat j with
  | nil => cases h; rfl
  | cons w ws ih =>
    obtain ⟨w', hw, j', hj', rfl⟩ := writes_cons_eq_some.mp h
    rw [foldlM_cons, replay_write hw (hrec w mem_cons_self)]
    exact ih hj' (forall_mem_cons.mp hrec).2

theorem writes_deletes {es : List Nat} (ht : cat.tables id = some (.rel t))
    (hes : ∀ e ∈ es, e < t.edges.length) :
    ∃ j, cat.writes (es.map fun e => (id, .deleteRow e)) = some j ∧
      j.catalog = cat.set id (.rel (t.deleteEdges es)) ∧ j.records = es.map fun e => .delete id e := by
  induction es generalizing cat t with
  | nil => exact ⟨_, rfl, (set_same ht).symm, rfl⟩
  | cons e es ih =>
    obtain ⟨t₁, hok⟩ : ∃ t₁, t.deleteEdge e = .ok t₁ := by
      obtain ⟨edge, he⟩ : ∃ edge, t.edges[e]? = some edge :=
        ⟨_, getElem?_eq_getElem (hes e mem_cons_self)⟩
      by_cases hdead : edge.src = noOffset
      · exact ⟨t, RelTable.deleteEdge_dead he hdead⟩
      · exact ⟨_, RelTable.deleteEdge_live he hdead⟩
    have hdel : (t.deleteEdge e).toOption.getD t = t₁ := by rw [hok]; rfl
    have hlen : t₁.edges.length = t.edges.length := hdel ▸ (RelTable.thinned_delete t e).length
    obtain ⟨j, hj, hcat, hrec⟩ := ih (set_tables_self cat id (.rel t₁)) fun e' he' =>
      hlen ▸ hes e' (mem_cons_of_mem e he')
    refine ⟨_, writes_cons_eq_some.mpr ⟨_, write_deleteEdge ht hok, j, hj, rfl⟩, ?_, by simp [hrec]⟩
    show j.catalog = cat.set id (.rel (((t.deleteEdge e).toOption.getD t).deleteEdges es))
    rw [hcat, set_set, hdel]

theorem writes_incidentEdges {cat₀ : TableCatalog}
    (hlinked : ∀ id t, cat₀.getRelTable id = some t → t.Linked)
    (hnodup : relIds.Nodup) (hsame : ∀ id ∈ relIds, cat.tables id = cat₀.tables id) :
    ∃ j, cat.writes ((cat₀.incidentEdges relIds tableId rows).map fun e => (e.1, .deleteRow e.2)) =
      some j ∧
      j.catalog = relIds.foldl (mapRel fun t => t.deleteEdges (rows.flatMap (t.incident tableId))) cat ∧
      j.records = (cat₀.incidentEdges relIds tableId rows).map fun e => .delete e.1 e.2 := by
  induction relIds generalizing cat with
  | nil => exact ⟨_, rfl, rfl, rfl⟩
  | cons id ids ih =>
    obtain ⟨hnot, hnodup⟩ := nodup_cons.mp hnodup
    have hsame' {c : TableCatalog} (hc : ∀ i ≠ id, c.tables i = cat.tables i) :
        ∀ i ∈ ids, c.tables i = cat₀.tables i := fun i hi =>
      (hc i fun heq => hnot (heq ▸ hi)).trans (hsame i (mem_cons_of_mem id hi))
    cases hid : cat₀.getRelTable id with
    | none =>
      have hcat : mapRel (fun t => t.deleteEdges (rows.flatMap (t.incident tableId))) cat id = cat := by
        have hnone : cat.getRelTable id = none := by
          rw [getRelTable, hsame id mem_cons_self]
          exact hid
        simp [mapRel, hnone]
      obtain ⟨j, hj, hjcat, hjrec⟩ := ih hnodup (hsame' fun _ _ => rfl)
      refine ⟨j, ?_, by rw [foldl_cons, hcat]; exact hjcat, ?_⟩
      · simpa [incidentEdges, hid] using hj
      · simpa [incidentEdges, hid] using hjrec
    | some t =>
      have ht : cat.tables id = some (.rel t) :=
        (hsame id mem_cons_self).trans (getRelTable_eq_some.mp hid)
      have hrange : ∀ e ∈ rows.flatMap (t.incident tableId), e < t.edges.length := by
        intro e he
        obtain ⟨row, _, he⟩ := mem_flatMap.mp he
        exact incident_lt (hlinked id t hid) he
      obtain ⟨j₁, hj₁, hcat₁, hrec₁⟩ := writes_deletes ht hrange
      have hmap : mapRel (fun t => t.deleteEdges (rows.flatMap (t.incident tableId))) cat id =
          j₁.catalog := by
        simp [mapRel, getRelTable_eq_some.mpr ht, hcat₁]
      have hrest : ∀ i ∈ ids, j₁.catalog.tables i = cat₀.tables i :=
        hsame' fun i hi => by rw [hcat₁, set_tables_ne hi]
      obtain ⟨j₂, hj₂, hcat₂, hrec₂⟩ := ih hnodup hrest
      have hsplit : cat₀.incidentEdges (id :: ids) tableId rows =
          (rows.flatMap (t.incident tableId)).map (fun edge => (id, edge)) ++
            cat₀.incidentEdges ids tableId rows := by
        simp [incidentEdges, hid]
      rw [hsplit, map_append, map_append, map_map, map_map]
      refine ⟨_, writes_append hj₁ hj₂, by rw [foldl_cons, hmap]; exact hcat₂, ?_⟩
      show j₁.records ++ j₂.records = _
      rw [hrec₁, hrec₂]
      rfl

variable {s : Effects}

theorem detach_follows (hlinked : ∀ i, ∀ t ∈ s.catalog.tables i, t.Linked) (hnodup : relIds.Nodup) :
    Follows False True s (detach relIds tableId rows s) := by
  have hrel : ∀ id t, s.catalog.getRelTable id = some t → t.Linked :=
    fun id t ht => hlinked id _ (getRelTable_eq_some.mp ht)
  obtain ⟨j, hj, hcat, hrec⟩ := @writes_incidentEdges s.catalog relIds rows tableId _ s.catalog
    hrel hnodup fun _ _ => rfl
  refine ⟨_, j, hj, ?_, False.elim, fun _ => ⟨by rw [hrec]; rfl, fun w hw => ?_⟩⟩
  rotate_left
  · obtain ⟨e, _, rfl⟩ := mem_map.mp hw
    trivial
  rw [hcat]
  refine catalog_ext fun i => ?_
  rw [mapRels_tables _ hnodup]
  refine (detachNodes_tables hnodup i).trans ?_
  split
  · refine congrArg (fun f => (s.catalog.tables i).map (onRel f)) (funext fun t => ?_)
    exact RelTable.detach_eq rows (RelTable.thinned_refl t)
  · rfl

theorem deleteAt_logs (s : Effects) (tableId row : Nat) :
    Follows False True s (deleteAt tableId s row) := by
  unfold deleteAt
  split
  next t ht =>
    split
    next t' hok =>
      exact .one (write_deleteRow ht hok) rfl False.elim fun _ => ⟨rfl, trivial⟩
    · exact .stray rfl rfl
  next t ht =>
    split
    next t' hok =>
      exact .one (write_deleteEdge ht hok) rfl False.elim fun _ => ⟨rfl, trivial⟩
    · exact .stray rfl rfl
  · exact .refl _

theorem deleteRows_logs (s : Effects) (tableId : Nat) (rows : List Nat) :
    Follows False True s (deleteRows tableId s rows) :=
  Follows.foldl (P := fun _ _ => True) (fun s row _ _ => ⟨deleteAt_logs s tableId row, trivial⟩) trivial

theorem executeDelete_logs {s' : Effects} {detaching : Bool} {target : Option String}
    {input out : List Chunk}
    (hlinked : ∀ i, ∀ t ∈ s.catalog.tables i, t.Linked) (hnodup : relIds.Nodup)
    (h : executeDelete relIds tableId detaching target s input = .ok (s', out)) :
      Follows False True s s' := by
  unfold executeDelete at h
  simp only at h
  split at h
  · cases h
    exact .refl _
  · split at h
    · cases h
    · split at h
      · cases h
      · cases h
        split
        · exact (detach_follows hlinked hnodup).trans (deleteRows_logs _ _ _)
        · exact deleteRows_logs _ _ _

def WriteStatement.Loggable (cat : TableCatalog) : WriteStatement → Prop
  | .set .. => False
  | .delete .. => True
  | .create patterns =>
    PassesMeet createNode (createEdge false) NodeRecorded (EdgeRecorded false) patterns
      ⟨cat, [], [], []⟩
  | .merge m =>
    PassesMeet m.node (createEdge true) (fun s p => m.Filed s p ∧ m.Recorded s p)
    (EdgeRecorded true)
      m.patterns ⟨cat, [], [], []⟩

/-- Replaying the log records of a CREATE, a DELETE or a MERGE that creates nodes of its first
pattern's table only, in order, on the tables before it gives the tables it left, if what it logs
reads back. -/
theorem replay_rebuilds_statement (relIds : List Nat) (cat : TableCatalog) (stmt : WriteStatement)
    (s' : Effects)
    (hlinked : ∀ i, ∀ t ∈ cat.tables i, t.Linked) (hnodup : relIds.Nodup) (hstmt : stmt.Loggable cat)
    (h : stmt.execute relIds ⟨cat, [], [], []⟩ = .ok s') :
    s'.records.foldlM TableCatalog.replay cat = .ok s'.catalog := by
  have hfollows : Follows False True ⟨cat, [], [], []⟩ s' := by
    cases stmt with
    | set => exact hstmt.elim
    | delete =>
      obtain ⟨⟨s₁, out⟩, hrun, rfl⟩ := map_eq_ok.mp h
      exact executeDelete_logs hlinked hnodup hrun
    | create => exact inlineCreate_logs hstmt h
    | merge => exact inlineMerge_logs hstmt h
  obtain ⟨ws, j, hj, hcat, _, hl⟩ := hfollows
  rw [(hl trivial).1, hcat, nil_append]
  exact replay_writes hj (hl trivial).2

end Effects

section Social

attribute [local instance] Rendering.blank

def deletePersons : WriteStatement :=
  .delete 0 true (some "p") [⟨[.property "p" "_id"], [[.int64 0], [.int64 1]]⟩]

theorem replay_rebuilds_detached :
    ∃ s', deletePersons.execute [1]
        ⟨socialWith [newPerson "ann" 30, newPerson "bob" 40, newKnows 0 1 2020], [], [], []⟩ = .ok s' ∧
      s'.records.foldlM TableCatalog.replay (socialWith
        [newPerson "ann" 30, newPerson "bob" 40, newKnows 0 1 2020]) =
        .ok s'.catalog := by
  have hj : social.writes [newPerson "ann" 30, newPerson "bob" 40, newKnows 0 1 2020] = some _ := rfl
  exact ⟨_, rfl, replay_rebuilds_statement [1] _ deletePersons _
    (TableCatalog.linked_of_writes hj linked_social) (by simp) trivial rfl⟩

def travel : TableCatalog := social.set 2 (.node (.new 2 "City" [⟨"name", .string, true⟩]))

/-- MERGE (p:Person {name: "ann"}), (c:City {name: "oslo"}): the city is logged as a person, and the
replay has two persons and no city. -/
theorem replay_misses_city :
    ∃ s' cat t t', (WriteStatement.merge
      ⟨0, [⟨some ⟨some "p", 0, [⟨"name", .string "ann", true⟩], id⟩, none⟩,
        ⟨some ⟨some "c", 2, [⟨"name", .string "oslo", true⟩], id⟩, none⟩], [], []⟩).execute [1]
        ⟨travel, [], [], []⟩ = .ok s' ∧
      s'.records.foldlM TableCatalog.replay travel = .ok cat ∧
      s'.catalog.getNodeTable 2 = some t ∧ t.numRows = 1 ∧ cat.getNodeTable 2 = some t' ∧
        t'.numRows = 0 :=
  ⟨_, _, _, _, rfl, rfl, rfl, rfl, rfl, rfl⟩

end Social

end Akar
