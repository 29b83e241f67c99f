import Mathlib.Data.List.Basic

namespace Akar.LimitPushDown

open List

variable {ρ : Type}

inductive OrderSensitive where
  | orderBy | topK | aggregate | skip | union | unwind

/-- An operator of a flat plan, by what it does to the rows that reach it. A projection may
aggregate. -/
inductive LogicalOperator (ρ : Type) where
  | limit (limit offset : UInt64)
  | filter (p : ρ → Bool)
  | projection (project : List ρ → List ρ)
  | sensitive (kind : OrderSensitive) (run : List ρ → List ρ)
  | other (run : List ρ → List ρ)

def LogicalOperator.execute (rows : List ρ) : LogicalOperator ρ → List ρ
  | .limit n offset => (rows.drop offset.toNat).take n.toNat
  | .filter p => rows.filter p
  | .projection run | .sensitive _ run | .other run => run rows

def execute (ops : List (LogicalOperator ρ)) (rows : List ρ) : List ρ :=
  ops.foldl LogicalOperator.execute rows

/-- `limit_is_order_sensitive`, which looks at the one operator before the limit. -/
def limitIsOrderSensitive : Option (LogicalOperator ρ) → Bool
  | some (.sensitive ..) => true
  | _ => false

def pushDown : Option (LogicalOperator ρ) → List (LogicalOperator ρ) → List (LogicalOperator ρ)
  | _, [] => []
  | prev, .limit n o :: .filter p :: ops =>
    if limitIsOrderSensitive prev then .limit n o :: .filter p :: pushDown (some (.filter p)) ops
    else .filter p :: .limit n o :: pushDown (some (.filter p)) ops
  | _, .limit n o :: .projection f :: ops =>
    .projection f :: .limit n o :: pushDown (some (.projection f)) ops
  | _, op :: ops => op :: pushDown (some op) ops

def apply (ops : List (LogicalOperator ρ)) : List (LogicalOperator ρ) := pushDown none ops

def OrderSensitive.sorts : OrderSensitive → Bool
  | .orderBy | .topK => true
  | _ => false

def LogicalOperator.sorts : LogicalOperator ρ → Bool
  | .sensitive kind _ => kind.sorts
  | _ => false

def window (n offset : UInt64) (rows : List ρ) : List ρ := (rows.drop offset.toNat).take n.toNat

def Rowwise (ops : List (LogicalOperator ρ)) : Prop := ∀ op ∈ ops, ∃ g, op = .projection (List.map g)

/-- What makes a limit and the operator `f` after it give the same rows in either order, or, if no
sort came before and the rest goes row by row, as many. -/
def Moves (n offset : UInt64) (f : List ρ → List ρ) (sorted : Bool)
    (ops : List (LogicalOperator ρ)) (rows : List ρ) (rest : Prop) : Prop :=
  window n offset (f rows) = f (window n offset rows) ∧ rest ∨
    (window n offset (f rows)).length = (f (window n offset rows)).length ∧ sorted = false ∧ Rowwise ops

/-- Each limit that is moved can be. `sorted` says whether a sort came before, and `rows` are the
rows that reach the list. -/
def Safe : Bool → Option (LogicalOperator ρ) → List (LogicalOperator ρ) → List ρ → Prop
  | _, _, [], _ => True
  | sorted, prev, .limit n o :: .filter p :: ops, rows =>
    let rest := Safe sorted (some (.filter p)) ops ((window n o rows).filter p)
    if limitIsOrderSensitive prev then rest else Moves n o (List.filter p) sorted ops rows rest
  | sorted, _, .limit n o :: .projection f :: ops, rows =>
    Moves n o f sorted ops rows (Safe sorted (some (.projection f)) ops (f (window n o rows)))
  | sorted, _, op :: ops, rows => Safe (sorted || op.sorts) (some op) ops (op.execute rows)

/-- What a rewritten list has to return for the rows of a list: as many, each one that the list
returns with its limits or without one of them, and after a sort the same. -/
structure Preserved (sorted : Bool) (ops ops' : List (LogicalOperator ρ)) (rows : List ρ) : Prop where
  count : (execute ops' rows).length = (execute ops rows).length
  returned : ∀ r ∈ execute ops' rows, r ∈ execute ops rows ∨
    ∃ before n o after, ops = before ++ .limit n o :: after ∧ r ∈ execute (before ++ after) rows
  fixed : sorted = true ∨ (∃ op ∈ ops, op.sorts = true) → execute ops' rows = execute ops rows

/-- How many rows a filter leaves of a window, and a window of the rows that a filter leaves: they
agree exactly when the window takes all it can of those rows. -/
theorem length_window_filter_iff {n offset : UInt64} {p : ρ → Bool} {rows : List ρ} :
    (window n offset (rows.filter p)).length = ((window n offset rows).filter p).length ↔
      ((window n offset rows).filter p).length =
        min n.toNat ((rows.filter p).length - offset.toNat) := by
  rw [window, length_take, length_drop, eq_comm]

section Rewritten

variable {sorted : Bool} {ops ops' : List (LogicalOperator ρ)} {rows rows' : List ρ}
    {op : LogicalOperator ρ}

theorem Rowwise.length (h : Rowwise ops) : (execute ops rows).length = rows.length := by
  induction ops generalizing rows with
  | nil => rfl
  | cons op ops ih =>
    obtain ⟨g, rfl⟩ := h _ mem_cons_self
    exact (ih (forall_mem_cons.mp h).2).trans (length_map g)

theorem Rowwise.mono (h : Rowwise ops) (hsub : rows ⊆ rows') :
    execute ops rows ⊆ execute ops rows' := by
  induction ops generalizing rows rows' with
  | nil => exact hsub
  | cons op ops ih =>
    obtain ⟨g, rfl⟩ := h _ mem_cons_self
    exact ih (forall_mem_cons.mp h).2 (map_subset g hsub)

theorem Rowwise.pushDown (h : Rowwise ops) (prev : Option (LogicalOperator ρ)) :
    pushDown prev ops = ops := by
  induction ops generalizing prev with
  | nil => rfl
  | cons op ops ih =>
    obtain ⟨g, rfl⟩ := h _ mem_cons_self
    rw [LimitPushDown.pushDown, ih (forall_mem_cons.mp h).2] <;> nofun

theorem Preserved.cons (h : Preserved (sorted || op.sorts) ops ops' (op.execute rows)) :
    Preserved sorted (op :: ops) (op :: ops') rows where
  count := h.count
  returned := by
    intro r hr
    rcases h.returned r hr with hr | ⟨before, n, o, after, rfl, hr⟩
    · exact .inl hr
    · exact .inr ⟨op :: before, n, o, after, rfl, hr⟩
  fixed := by
    intro hsort
    refine h.fixed ?_
    rcases hsort with hsorted | ⟨q, hq, hsorts⟩
    · exact .inl (by rw [hsorted, Bool.true_or])
    · rcases mem_cons.mp hq with rfl | hq
      · exact .inl (by rw [hsorts, Bool.or_true])
      · exact .inr ⟨q, hq, hsorts⟩

theorem Preserved.cons_cons {op₁ op₂ : LogicalOperator ρ} (h₁ : op₁.sorts = false)
    (h₂ : op₂.sorts = false) (h : Preserved sorted ops ops' (op₂.execute (op₁.execute rows))) :
    Preserved sorted (op₁ :: op₂ :: ops) (op₁ :: op₂ :: ops') rows := by
  refine .cons (.cons ?_)
  rwa [h₁, h₂, Bool.or_false, Bool.or_false]

/-- A list with its first two operators exchanged, where both orders give the same rows. -/
theorem Preserved.swap {op₁ op₂ : LogicalOperator ρ}
    (h : Preserved sorted (op₁ :: op₂ :: ops) (op₁ :: op₂ :: ops') rows)
    (hsame : op₁.execute (op₂.execute rows) = op₂.execute (op₁.execute rows)) :
    Preserved sorted (op₁ :: op₂ :: ops) (op₂ :: op₁ :: ops') rows := by
  have hrun : execute (op₂ :: op₁ :: ops') rows = execute (op₁ :: op₂ :: ops') rows :=
    congrArg (execute ops') hsame
  obtain ⟨hcount, hreturned, hfixed⟩ := h
  rw [← hrun] at hcount hreturned hfixed
  exact ⟨hcount, hreturned, hfixed⟩

/-- A limit exchanged with the operator after it, where both orders give as many rows and the rest
goes row by row. -/
theorem Preserved.of_rowwise {n o : UInt64} (hop : op.sorts = false) (hops : Rowwise ops)
    (hlen : (window n o (op.execute rows)).length = (op.execute (window n o rows)).length) :
    Preserved false (.limit n o :: op :: ops) (op :: .limit n o :: ops) rows where
  count := by
    show (execute ops (window n o (op.execute rows))).length =
      (execute ops (op.execute (window n o rows))).length
    rw [hops.length, hops.length, hlen]
  returned := by
    intro r hr
    refine .inr ⟨[], n, o, op :: ops, rfl, hops.mono ?_ hr⟩
    exact List.Subset.trans (take_subset ..) (drop_subset ..)
  fixed := by
    rintro (h | ⟨q, hq, hsorts⟩)
    · cases h
    · rcases mem_cons.mp hq with rfl | hq
      · cases hsorts
      rcases mem_cons.mp hq with rfl | hq
      · rw [hop] at hsorts
        cases hsorts
      · obtain ⟨g, rfl⟩ := hops q hq
        cases hsorts

end Rewritten

theorem preserved_pushDown (sorted : Bool) (prev : Option (LogicalOperator ρ))
    (ops : List (LogicalOperator ρ))
    (rows : List ρ) (h : Safe sorted prev ops rows) : Preserved sorted ops (pushDown prev ops)
      rows := by
  induction prev, ops using pushDown.induct generalizing sorted rows with
  | case1 => exact ⟨rfl, fun r hr => .inl hr, fun _ => rfl⟩
  | case2 prev n o p ops hprev ih =>
    rw [pushDown, if_pos hprev]
    simp only [Safe, if_pos hprev] at h
    exact .cons_cons rfl rfl (ih sorted _ h)
  | case3 prev n o p ops hprev ih =>
    rw [pushDown, if_neg hprev]
    simp only [Safe, if_neg hprev] at h
    rcases h with ⟨hsame, hrest⟩ | ⟨hlen, rfl, hops⟩
    · exact .swap (.cons_cons rfl rfl (ih sorted _ hrest)) hsame
    · rw [hops.pushDown]
      exact .of_rowwise rfl hops hlen
  | case4 prev n o f ops ih =>
    rcases h with ⟨hsame, hrest⟩ | ⟨hlen, rfl, hops⟩
    · exact .swap (.cons_cons rfl rfl (ih sorted _ hrest)) hsame
    · rw [pushDown, hops.pushDown]
      exact .of_rowwise rfl hops hlen
  | case5 prev op ops hfilter hprojection ih =>
    rw [pushDown]
    · rw [Safe] at h
      · exact .cons (ih _ _ h)
      · exact hfilter
      · exact hprojection
    · exact hfilter
    · exact hprojection

end Akar.LimitPushDown
