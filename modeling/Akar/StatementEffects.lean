import Akar.WriteStatements
import Akar.SetStatement

namespace Akar

open List TableCatalog

variable [Rendering]

namespace TableCatalog

variable {cat : TableCatalog}

/-- What the write overwrites is read back from its undo record, and it deletes no edge a second
time. -/
def Clean (cat : TableCatalog) (w : Nat × WriteOp) : Prop :=
  cat.Saved w ∧ ∀ t, cat.tables w.1 = some (.rel t) → ∀ r, w.2 = .deleteRow r → ∀ e, t.edges[r]? =
    some e → e.live

theorem clean_of_ne {w : Nat × WriteOp} (hsaved : cat.Saved w) (h : ∀ r, w.2 ≠ .deleteRow r) :
    cat.Clean w :=
  ⟨hsaved, fun _ _ r hr => absurd hr (h r)⟩

theorem saved_insertRow (cat : TableCatalog) (i : Nat) (values : List Value) :
    cat.Saved (i, .insertRow values) := by
  rintro (t | t) _ <;> trivial

theorem saved_insertRel (cat : TableCatalog) (i : Nat) (src dst : UInt64) (values : List Value) :
    cat.Saved (i, .insertRel src dst values) := by
  rintro (t | t) _ <;> trivial

end TableCatalog

/-- The writes from `s` to `s'`, and the records that they leave: the undo records under `undone`,
the log records under `logged`, each of which reads back. -/
def Follows (undone logged : Prop) (s s' : Effects) : Prop :=
  ∃ ws j, s.catalog.writes ws = some j ∧ s'.catalog = j.catalog ∧
    (undone → s'.undos = s.undos ++ j.undos ∧ Meets TableCatalog.step TableCatalog.Clean s.catalog ws) ∧
    (logged → s'.records = s.records ++ j.records ∧ ∀ w ∈ ws, w.2.Recorded)

namespace Follows

variable {U L : Prop} {s s' s'' : Effects}

theorem refl (s : Effects) : Follows U L s s :=
  ⟨[], _, rfl, rfl, fun _ => ⟨(append_nil _).symm, trivial⟩, fun _ => ⟨(append_nil _).symm, nofun⟩⟩

theorem trans (h : Follows U L s s') (h' : Follows U L s' s'') : Follows U L s s'' := by
  obtain ⟨ws, j, hj, hcat, hu, hl⟩ := h
  obtain ⟨ws', j', hj', hcat', hu', hl'⟩ := h'
  rw [hcat] at hj' hu'
  refine ⟨ws ++ ws', _, writes_append hj hj', hcat', fun hU => ⟨?_, ?_⟩, fun hL => ⟨?_, ?_⟩⟩
  · rw [(hu' hU).1, (hu hU).1, append_assoc]
  · exact (meets_append (run_of_writes hj)).mpr ⟨(hu hU).2, (hu' hU).2⟩
  · rw [(hl' hL).1, (hl hL).1, append_assoc]
  · exact forall_mem_append.mpr ⟨(hl hL).2, (hl' hL).2⟩

theorem one {i : Nat} {op : WriteOp} {w : Written TableCatalog} (hw : s.catalog.write i op = some w)
    (hcat : s'.catalog = w.table) (hu : U → s'.undos = s.undos ++ [w.undo] ∧ s.catalog.Clean (i, op))
    (hl : L → s'.records = s.records ++ [w.record] ∧ op.Recorded) : Follows U L s s' := by
  refine ⟨[(i, op)], _, writes_cons_eq_some.mpr ⟨w, hw, _, rfl, rfl⟩, hcat, fun hU => ?_, fun hL => ?_⟩
  · exact ⟨(hu hU).1, (hu hU).2, fun _ _ => trivial⟩
  · exact ⟨(hl hL).1, forall_mem_singleton.mpr (hl hL).2⟩

theorem foldl {α : Type} {f : Effects → α → Effects} {xs : List α} {P : Effects → List α → Prop}
    (hstep : ∀ s x xs, P s (x :: xs) → Follows U L s (f s x) ∧ P (f s x) xs) :
    ∀ {s}, P s xs → Follows U L s (xs.foldl f s) := by
  induction xs with
  | nil => intro s _; exact refl s
  | cons x xs ih =>
    intro s hP
    obtain ⟨hone, hrest⟩ := hstep s x xs hP
    exact hone.trans (ih hrest)

theorem stray (hcat : s'.catalog = s.catalog) (hrec : s'.records = s.records) : Follows False L s s' :=
  ⟨[], _, rfl, hcat, False.elim, fun _ => ⟨by rw [hrec, append_nil], nofun⟩⟩

end Follows

section Inline

variable {U L : Prop} {cat : TableCatalog} {tableId row : Nat} {t t' : NodeTable} {values : List Value}

theorem write_insertRow (ht : cat.getNodeTable tableId = some t)
    (h : t.insertRow values = .ok (row, t')) :
    cat.write tableId (.insertRow values) =
      some ⟨cat.set tableId (.node t'), .insert tableId row,
        .insert tableId (serializeValues values)⟩ := by
  simp [TableCatalog.write, getNodeTable_eq_some.mp ht, Table.write, NodeTable.write, h]

theorem write_updateCell {col : Nat} {v : Value} (ht : cat.getNodeTable tableId = some t)
    (h : t.updateCell row col v = .ok t') :
    cat.write tableId (.updateCell row col v) =
      some ⟨cat.set tableId (.node t'), .update tableId row col (t.cellUndo row col),
        .update tableId row col (serializeValues [v])⟩ := by
  simp [TableCatalog.write, getNodeTable_eq_some.mp ht, Table.write, NodeTable.write, h]

theorem write_insertRel {src dst : UInt64} {t t' : RelTable} (ht : cat.getRelTable tableId = some t)
    (h : t.insertRel src dst values = .ok t') :
    cat.write tableId (.insertRel src dst values) = some ⟨cat.set tableId (.rel t'),
      .insert tableId t.edges.length,
        .insert tableId (serializeValues (.uint64 src :: .uint64 dst :: values))⟩ := by
  simp [TableCatalog.write, getRelTable_eq_some.mp ht, Table.write, RelTable.write, h]

theorem write_deleteRow (ht : cat.tables tableId = some (.node t)) (h : t.deleteRow row = .ok t') :
    cat.write tableId (.deleteRow row) =
      some ⟨cat.set tableId (.node t'), .delete tableId row (t.rowUndo row), .delete tableId row⟩ := by
  simp [TableCatalog.write, ht, Table.write, NodeTable.write, h]

theorem write_deleteEdge {t t' : RelTable} (ht : cat.tables tableId = some (.rel t))
    (h : t.deleteEdge row = .ok t') :
    cat.write tableId (.deleteRow row) =
      some ⟨cat.set tableId (.rel t'), .delete tableId row (t.edgeUndo row), .delete tableId row⟩ := by
  simp [TableCatalog.write, ht, Table.write, RelTable.write, h]

variable {s s' : Effects}

theorem insertInline_follows {filed : Nat} (ht : s.catalog.getNodeTable tableId = some t)
    (hfiled : filed = tableId)
    (hback : L → ReadsBack values) (h : insertInline s tableId filed t values = .ok (s', row)) :
      Follows U L s s' := by
  subst hfiled
  unfold insertInline at h
  split at h
  · cases h
  next row t' hins =>
    cases h
    exact .one (write_insertRow ht hins) rfl (fun _ => ⟨rfl, clean_of_ne (saved_insertRow _ _ _) nofun⟩)
      fun hL => ⟨rfl, hback hL⟩

/-- The node's row is read back from its log record. -/
def NodeRecorded (s : InlineState) (p : InlinePattern) : Prop :=
  ∀ n ∈ p.node, ∀ t ∈ s.effects.catalog.getNodeTable n.tableId,
    ReadsBack (n.serials (patternValues t.columns n.properties))

/-- So is the edge, if one is made. -/
def EdgeRecorded (merging : Bool) (s : InlineState) (p : InlinePattern) : Prop :=
  ∀ e ∈ p.edge, ∀ t ∈ s.effects.catalog.getRelTable e.tableId, ∀ src dst, edgeEnds s e t =
    .ok (src, dst) →
    (merging && (t.fwdAdj src).any (·.1 = dst)) = false →
      ReadsBack (.uint64 src :: .uint64 dst ::
        patternValues t.columns (if merging then e.properties.filter (·.literal) else e.properties))

variable {p : InlinePattern}

theorem createNode_follows {s s' : InlineState} (hback : L → NodeRecorded s p)
    (h : createNode s p = .ok s') :
    Follows U L s.effects s'.effects := by
  unfold createNode at h
  split at h
  · cases h
    exact .refl _
  next n hn =>
    split at h
    · cases h
    next t ht =>
      split at h
      · cases h
      next effects row hins =>
        have hfollows := insertInline_follows (U := U) ht rfl (fun hL => hback hL n hn t ht) hins
        split at h <;> cases h <;> exact hfollows

theorem createEdge_follows {merging : Bool} {s s' : InlineState} (hback : L → EdgeRecorded merging s p)
    (h : createEdge merging s p = .ok s') : Follows U L s.effects s'.effects := by
  unfold createEdge at h
  split at h
  · cases h
    exact .refl _
  next e he =>
    split at h
    · cases h
    next t ht =>
      split at h
      · cases h
      next src dst hends =>
        split at h
        · cases h
          exact .refl _
        next hnew =>
          have hnew := Bool.not_eq_true _ ▸ hnew
          unfold insertEdge at h
          split at h
          · cases h
          next t' hins =>
            cases h
            exact .one (write_insertRel ht hins) rfl
              (fun _ => ⟨rfl, clean_of_ne (saved_insertRel _ _ _ _ _) nofun⟩)
              fun hL => ⟨rfl, hback hL e he t ht src dst hends hnew⟩

variable {patterns : List InlinePattern}

def stepOf {σ α : Type} (f : σ → α → Except String σ) (s : σ) (x : α) : Option σ := (f s x).toOption

omit [Rendering] in
theorem meets_tail {σ α : Type} {f : σ → α → Except String σ} {P : σ → α → Prop} {s t : σ} {x : α}
    {xs : List α}
    (h : Meets (stepOf f) P s (x :: xs)) (hx : f s x = .ok t) : Meets (stepOf f) P t xs :=
  h.2 t (by rw [stepOf, hx]; rfl)

theorem foldlM_follows {f : InlineState → InlinePattern → Except String InlineState}
    {P : InlineState → InlinePattern → Prop}
    (hf : ∀ s p s', P s p → f s p = .ok s' → Follows U L s.effects s'.effects) :
    ∀ {s s'}, Meets (stepOf f) P s patterns → patterns.foldlM f s = .ok s' →
      Follows U L s.effects s'.effects := by
  induction patterns with
  | nil =>
    intro s s' _ h
    cases h
    exact .refl _
  | cons p patterns ih =>
    intro s s' hP h
    rw [foldlM_cons] at h
    obtain ⟨s₁, hp, h⟩ := bind_eq_ok.mp h
    have hone := hf s p s₁ hP.1 hp
    exact hone.trans (ih (meets_tail hP hp) h)

/-- The nodes meet `P` and the edges `Q`, each in the state it is reached in. -/
def PassesMeet (nodes edges : InlineState → InlinePattern → Except String InlineState)
    (P Q : InlineState → InlinePattern → Prop) (patterns : List InlinePattern) (s : Effects) : Prop :=
  Meets (stepOf nodes) P ⟨s, fun _ => none, fun _ => none⟩ patterns ∧
    ∀ s₁, patterns.foldlM nodes ⟨s, fun _ => none, fun _ => none⟩ = .ok s₁ →
      Meets (stepOf edges) Q s₁ patterns

theorem passes_follows {nodes edges : InlineState → InlinePattern → Except String InlineState}
    {P Q : InlineState → InlinePattern → Prop}
    (hn : ∀ s p s', P s p → nodes s p = .ok s' → Follows U L s.effects s'.effects)
    (he : ∀ s p s', Q s p → edges s p = .ok s' → Follows U L s.effects s'.effects)
    (hmeet : PassesMeet nodes edges P Q patterns s) (h : passes nodes edges patterns s = .ok s') :
    Follows U L s s' := by
  unfold passes at h
  obtain ⟨s₁, h₁, h⟩ := bind_eq_ok.mp h
  obtain ⟨s₂, h₂, h⟩ := map_eq_ok.mp h
  subst h
  exact (foldlM_follows hn hmeet.1 h₁).trans (foldlM_follows he (hmeet.2 s₁ h₁) h₂)

theorem inlineCreate_logs
    (hback : PassesMeet createNode (createEdge false) NodeRecorded (EdgeRecorded false) patterns s)
    (h : inlineCreate patterns s = .ok s') : Follows U True s s' :=
  passes_follows (fun _ _ _ hP => createNode_follows fun _ => hP) (fun _ _ _ hQ =>
    createEdge_follows fun _ => hQ)
    hback h

omit [Rendering] in
theorem passesMeet_true {nodes edges : InlineState → InlinePattern → Except String InlineState} :
    PassesMeet nodes edges (fun _ _ => True) (fun _ _ => True) patterns s :=
  ⟨meets_trivial, fun _ _ => meets_trivial⟩

theorem inlineCreate_follows (h : inlineCreate patterns s = .ok s') : Follows U False s s' :=
  passes_follows (fun _ _ _ _ => createNode_follows False.elim) (fun _ _ _ _ =>
    createEdge_follows False.elim)
    passesMeet_true h

variable {items : List (Nat × Value)}

/-- What an item of ON MATCH SET overwrites is read back from its undo record. -/
def ItemSaved (tableId row : Nat) (s : Effects) (item : Nat × Value) : Prop :=
  s.catalog.Saved (tableId, .updateCell row item.1 item.2)

theorem updateInline_follows {item : Nat × Value} (hsaved : U → ItemSaved tableId row s item)
    (hback : L → ReadsBack [item.2]) (h : updateInline tableId tableId row s item = .ok s') :
      Follows U L s s' := by
  unfold updateInline at h
  split at h
  · cases h
    exact .refl _
  next t ht =>
    split at h
    · cases h
    next t' hupd =>
      cases h
      exact .one (write_updateCell ht hupd) rfl (fun hU => ⟨rfl, clean_of_ne (hsaved hU) nofun⟩)
        fun hL => ⟨rfl, hback hL⟩

theorem updates_follow (hback : L → ∀ item ∈ items, ReadsBack [item.2]) :
    ∀ {s s'}, (U → Meets (stepOf (updateInline tableId tableId row)) (ItemSaved tableId row) s items) →
      items.foldlM (updateInline tableId tableId row) s = .ok s' → Follows U L s s' := by
  induction items with
  | nil =>
    intro s s' _ h
    cases h
    exact .refl _
  | cons item items ih =>
    intro s s' hsaved h
    rw [foldlM_cons] at h
    obtain ⟨s₁, hi, h⟩ := bind_eq_ok.mp h
    have hone :=
      updateInline_follows (fun hU => (hsaved hU).1) (fun hL => hback hL item mem_cons_self) hi
    have hrest :=
      ih (fun hL => (forall_mem_cons.mp (hback hL)).2) (fun hU => meets_tail (hsaved hU) hi) h
    exact hone.trans hrest

namespace InlineMerge

/-- A node that is created is one of the table its records are filed under. -/
def Filed (m : InlineMerge) (s : InlineState) (p : InlinePattern) : Prop :=
  ∀ n ∈ p.node, ∀ t ∈ s.effects.catalog.getNodeTable n.tableId, n.existing t = none → n.tableId =
    m.tableId

def Saved (m : InlineMerge) (s : InlineState) (p : InlinePattern) : Prop :=
  ∀ n ∈ p.node, ∀ t ∈ s.effects.catalog.getNodeTable n.tableId, ∀ row ∈ n.existing t,
    Meets (stepOf (updateInline n.tableId m.tableId row)) (ItemSaved n.tableId row) s.effects
      (m.matchItems n)

def Recorded (m : InlineMerge) (s : InlineState) (p : InlinePattern) : Prop :=
  ∀ n ∈ p.node, ∀ t ∈ s.effects.catalog.getNodeTable n.tableId,
    (n.existing t = none → ReadsBack (m.values n t)) ∧
      ∀ row ∈ n.existing t, ∀ item ∈ m.matchItems n, ReadsBack [item.2]

variable {m : InlineMerge}

omit [Rendering] in
theorem matchItems_of_ne {n : InlineNode} (h : n.tableId ≠ m.tableId) : m.matchItems n = [] := if_neg h

theorem node_follows {s s' : InlineState} (hfiled : m.Filed s p) (hsaved : U → m.Saved s p)
    (hback : L → m.Recorded s p) (h : m.node s p = .ok s') : Follows U L s.effects s'.effects := by
  unfold InlineMerge.node at h
  split at h
  · cases h
    exact .refl _
  next n hn =>
    split at h
    · cases h
    next t ht =>
      split at h
      next row hrow =>
        split at h
        · cases h
        next effects hupd =>
          cases h
          by_cases hid : n.tableId = m.tableId
          · have hitems := fun hU => hsaved hU n hn t ht row hrow
            rw [hid] at hupd hitems
            exact updates_follow (fun hL => (hback hL n hn t ht).2 row hrow) hitems hupd
          · rw [matchItems_of_ne hid] at hupd
            cases hupd
            exact .refl _
      next hnone =>
        split at h
        · cases h
        next effects row hins =>
          cases h
          exact insertInline_follows ht (hfiled n hn t ht hnone).symm
            (fun hL => (hback hL n hn t ht).1 hnone) hins

end InlineMerge

variable {m : InlineMerge}

theorem inlineMerge_follows
    (hm : PassesMeet m.node (createEdge true) (fun s p => m.Filed s p ∧ m.Saved s p)
    (fun _ _ => True) m.patterns s) (h : inlineMerge m s = .ok s') : Follows U False s s' :=
  passes_follows (fun _ _ _ hP => InlineMerge.node_follows hP.1 (fun _ => hP.2) False.elim)
    (fun _ _ _ _ => createEdge_follows False.elim) hm h

theorem inlineMerge_logs
    (hm : PassesMeet m.node (createEdge true) (fun s p => m.Filed s p ∧ m.Recorded s p)
    (EdgeRecorded true) m.patterns s) (h : inlineMerge m s = .ok s') : Follows False True s s' :=
  passes_follows (fun _ _ _ hP => InlineMerge.node_follows hP.1 False.elim fun _ => hP.2)
    (fun _ _ _ hQ => createEdge_follows fun _ => hQ) hm h

end Inline

end Akar
