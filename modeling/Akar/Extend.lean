import Akar.RelAdjacency

namespace Akar

open List Option

inductive Direction where
  | leftToRight
  | rightToLeft
  | both
  deriving DecidableEq

structure InputChunk where
  fieldNames : List String
  rows : List (List Value)

structure RowMapping where
  inputRow : Nat
  dstOffset : UInt64
  edgeIdx : Nat
  deriving DecidableEq

/-- What the loops over the rows of a chunk and their edges keep. After `break 'rows` it is
`done`. -/
structure Progress where
  produced : Nat
  rowMappings : List RowMapping
  done : Bool

structure PhysicalExtend where
  boundNodeVar : String
  relTable : ColumnarRelTable
  destNumRows : Nat
  direction : Direction
  ftsDocIds : Option (List UInt64)
  limitBudget : Option Nat
  prune : Bool
  extendMaxRows : Nat

namespace PhysicalExtend

variable (x : PhysicalExtend)

def boundIdx (c : InputChunk) : Option Nat :=
  c.fieldNames.findIdx? (· = x.boundNodeVar ++ "._id") <|> c.fieldNames.findIdx?
    (· = x.boundNodeVar) <|>
    c.fieldNames.findIdx? (· = x.boundNodeVar ++ ".id")

/-- The node of a row. A row without an Int64 there is passed over. -/
def srcId (idx : Nat) (row : List Value) : Option UInt64 := match row[idx]? with
  | some (.int64 v) => some v.toUInt64
  | _ => none

def edges (src : UInt64) : List (UInt64 × Nat) := match x.direction with
  | .leftToRight => x.relTable.fwdAdj src
  | .rightToLeft => x.relTable.revAdj src
  | .both => x.relTable.fwdAdj src ++ x.relTable.revAdj src

def keeps (dst : UInt64) : Bool := dst.toNat < x.destNumRows && x.ftsDocIds.all (·.contains dst)

def emit (s : Progress) (m : RowMapping) : Progress := if s.done then s
  else
    match x.limitBudget with
    | none => { s with rowMappings := s.rowMappings ++ [m] }
    | some budget => ⟨s.produced + 1, s.rowMappings ++ [m], decide (budget ≤ s.produced + 1)⟩

def extendRow (idx : Nat) (s : Progress) (r : List Value × Nat) : Progress := match srcId idx r.1 with
  | some src => (x.edges src).foldl (fun s e => if x.keeps e.1 then x.emit s ⟨r.2, e.1, e.2⟩ else s) s
  | none => s

def mapRows (idx produced : Nat) (c : InputChunk) : Progress :=
  c.rows.zipIdx.foldl (x.extendRow idx) ⟨produced, [], false⟩

def overCap (totalRows : Nat) : Bool := !x.prune && decide (x.extendMaxRows < totalRows)

def extendChunks : Nat → List InputChunk → Except String (List (List RowMapping))
  | _, [] => .ok []
  | produced, c :: cs =>
    match x.boundIdx c with
    | none =>
      .error s!"Bound node variable {x.boundNodeVar} not found in Extend input. Available fields: {repr c.fieldNames}"
    | some idx =>
      if x.limitBudget.any (· ≤ produced) then .ok []
      else
        let s := x.mapRows idx produced c
        let n := s.rowMappings.length
        if x.overCap n then
          .error <| s!"Extend `{x.relTable.name}` would produce {n} rows ({n} edges from {c.rows.length} bound rows) " ++
            s!"above the {x.extendMaxRows} safety cap; add a projection/filter/limit or raise AKAR_MAX_EXTEND_ROWS"
        else (extendChunks s.produced cs).map (s.rowMappings :: ·)

def execute (input : List InputChunk) : Except String (List (List RowMapping)) :=
  if input.all (·.rows.isEmpty) then .ok (input.map fun _ => []) else x.extendChunks 0 input

/-- The edge indices of two adjacency lists, each once in the order they are first seen; short lists
are searched. -/
def pushNew (idxs : List Nat) (i : Nat) : List Nat := if idxs.contains i then idxs else idxs ++ [i]

def pushUnseen (s : (Nat → Bool) × List Nat) (i : Nat) : (Nat → Bool) × List Nat :=
  if s.1 i then s else (Function.update s.1 i true, s.2 ++ [i])

/-- `probe_incident_edges` of the optional extend. A node without an entry has an empty list. -/
def probeIncidentEdges (src : UInt64) : List Nat :=
  let fwd := (x.relTable.fwdAdj src).map Prod.snd
  let rev := (x.relTable.revAdj src).map Prod.snd
  match x.direction with
  | .leftToRight => fwd
  | .rightToLeft => rev
  | .both =>
    if rev.isEmpty then fwd
    else if fwd.isEmpty then rev
    else if fwd.length + rev.length ≤ 16 then (fwd ++ rev).foldl pushNew []
    else ((fwd ++ rev).foldl pushUnseen (fun _ => false, [])).2

def leads (src dst : UInt64) (e : Nat) : Bool := match x.direction with
  | .leftToRight => listed x.relTable.edges Prod.fst Prod.snd src dst e
  | .rightToLeft => listed x.relTable.edges Prod.snd Prod.fst src dst e
  | .both =>
    listed x.relTable.edges Prod.fst Prod.snd src dst e || listed x.relTable.edges Prod.snd
    Prod.fst src dst e

def hopsFrom (hops : UInt64 → List (UInt64 × Nat)) (c : InputChunk) : List RowMapping :=
  c.rows.zipIdx.flatMap fun r =>
    ((x.boundIdx c).bind (srcId · r.1)).elim [] fun src => (hops src).map fun e => ⟨r.2, e.1, e.2⟩

def chunkMappings (c : InputChunk) : List RowMapping :=
  x.hopsFrom (fun src => (x.edges src).filter fun e => x.keeps e.1) c

def sourceOf (c : InputChunk) (row : List Value) : Option UInt64 := (x.boundIdx c).bind (srcId · row)

/-- The row of an edge is wanted for each row of the chunk whose node it leads from. -/
def wanted (c : InputChunk) (m : RowMapping) : Bool :=
  ((c.rows[m.inputRow]?).bind (x.sourceOf c)).any fun src => x.leads src m.dstOffset m.edgeIdx

variable {x} {idx budget : Nat} {c : InputChunk} {input : List InputChunk} {s : Progress}
    {ms : List RowMapping}

theorem mapRows_eq (hidx : x.boundIdx c = some idx) (produced : Nat) :
    x.mapRows idx produced c = (x.chunkMappings c).foldl x.emit ⟨produced, [], false⟩ := by
  unfold mapRows chunkMappings hopsFrom
  rw [foldl_flatMap]
  congr 1
  funext s r
  rw [hidx, bind_some, extendRow]
  cases srcId idx r.1 with
  | none => rfl
  | some => simp [foldl_map, foldl_filter]

theorem emits_unbudgeted (hnone : x.limitBudget = none) (hs : s.done = false) :
    ms.foldl x.emit s = { s with rowMappings := s.rowMappings ++ ms } := by
  induction ms generalizing s with
  | nil => simp
  | cons m ms ih =>
    have hemit : x.emit s m = { s with rowMappings := s.rowMappings ++ [m] } := by
      simp [emit, hs, hnone]
    rw [foldl_cons, hemit, ih (s := { s with rowMappings := s.rowMappings ++ [m] }) hs, append_assoc]
    rfl

theorem emits_done (hs : s.done) : ms.foldl x.emit s = s := by
  induction ms with
  | nil => rfl
  | cons m ms ih =>
    rw [foldl_cons, emit, if_pos hs]
    exact ih

theorem emits_budgeted (ms : List RowMapping) (hsome : x.limitBudget = some budget)
    (hs : s.done = false) (hroom : s.produced < budget) :
    (ms.foldl x.emit s).rowMappings = s.rowMappings ++ ms.take (budget - s.produced) ∧
      (ms.foldl x.emit s).produced = s.produced + (ms.take (budget - s.produced)).length := by
  induction ms generalizing s with
  | nil => simp
  | cons m ms ih =>
    have hemit : x.emit s m =
        ⟨s.produced + 1, s.rowMappings ++ [m], decide (budget ≤ s.produced + 1)⟩ := by
      simp [emit, hs, hsome]
    obtain ⟨k, hk⟩ : ∃ k, budget - s.produced = k + 1 := ⟨budget - s.produced - 1, by omega⟩
    rw [foldl_cons, hemit, hk, take_succ_cons]
    by_cases hfull : budget ≤ s.produced + 1
    · obtain rfl : k = 0 := by omega
      simp [emits_done, hfull]
    · have hrest := ih (s := ⟨s.produced + 1, s.rowMappings ++ [m], decide (budget ≤ s.produced + 1)⟩)
        (by simpa using hfull) (by simpa using hfull)
      simp only [show budget - (s.produced + 1) = k by omega] at hrest
      rw [hrest.1, hrest.2, length_cons]
      exact ⟨by simp, by omega⟩

theorem overCap_mono {n k : Nat} (h : x.overCap n = false) (hk : k ≤ n) : x.overCap k = false := by
  simp only [overCap, Bool.and_eq_false_iff, decide_eq_false_iff_not] at h ⊢
  exact h.imp_right fun hn => by omega

/-- The extend of a chunk ends in no error. -/
def Passes (x : PhysicalExtend) (c : InputChunk) : Prop :=
  (x.boundIdx c).isSome ∧ x.overCap (x.chunkMappings c).length = false

theorem extendChunks_unbudgeted (hnone : x.limitBudget = none) (produced : Nat)
    {out : List (List RowMapping)} :
    x.extendChunks produced input = .ok out ↔ (∀ c ∈ input, x.Passes c) ∧ out =
      input.map x.chunkMappings := by
  induction input generalizing produced out with
  | nil => simp [extendChunks, eq_comm]
  | cons c cs ih =>
    rw [forall_mem_cons, Passes]
    cases hidx : x.boundIdx c with
    | none => simp [extendChunks, hidx]
    | some idx =>
      have hrows : (x.mapRows idx produced c).rowMappings = x.chunkMappings c := by
        rw [mapRows_eq hidx, emits_unbudgeted hnone rfl]
        rfl
      simp only [extendChunks, hidx, hnone, hrows]
      cases hover : x.overCap (x.chunkMappings c).length with
      | true => simp
      | false =>
        have hrest := fun out => @ih (x.mapRows idx produced c).produced out
        cases hcs : x.extendChunks (x.mapRows idx produced c).produced cs with
        | error e =>
          have hno := (not_congr (hrest (cs.map x.chunkMappings))).mp (by rw [hcs]; simp)
          simp only [and_true] at hno
          simp [Except.map, hno]
        | ok rest =>
          obtain ⟨hpass, rfl⟩ := (hrest rest).mp hcs
          have hall : (∀ c ∈ cs, x.Passes c) ↔ True := iff_true_intro hpass
          simp [Except.map, hall, eq_comm]

section Chunks

variable (hpass : ∀ c ∈ input, x.Passes c)

include hpass

theorem extendChunks_budgeted (hsome : x.limitBudget = some budget) (produced : Nat) :
    ∃ out, x.extendChunks produced input = .ok out ∧
      out.flatten = (input.flatMap x.chunkMappings).take (budget - produced) := by
  induction input generalizing produced with
  | nil => exact ⟨[], rfl, by simp⟩
  | cons c cs ih =>
    obtain ⟨idx, hidx⟩ := isSome_iff_exists.mp (hpass c mem_cons_self).1
    by_cases hmet : budget ≤ produced
    · exact ⟨[], by simp [extendChunks, hidx, hsome, hmet], by simp [Nat.sub_eq_zero_of_le hmet]⟩
    · obtain ⟨hrows, hproduced⟩ := emits_budgeted (s := ⟨produced, [], false⟩) (x.chunkMappings c)
        hsome rfl
        (Nat.lt_of_not_le hmet)
      rw [← mapRows_eq hidx] at hrows hproduced
      obtain ⟨out, hout, hflat⟩ := ih (forall_mem_cons.mp hpass).2 (x.mapRows idx produced c).produced
      have hfits := overCap_mono (hpass c mem_cons_self).2 (Nat.min_le_right (budget - produced) _)
      refine ⟨(x.mapRows idx produced c).rowMappings :: out, ?_, ?_⟩
      · simp [extendChunks, hidx, hsome, hmet, hrows, hfits, hout, Except.map]
      · rw [flatten_cons, flatMap_cons, take_append, hflat, hrows, hproduced]
        congr 2
        simp only [length_take]
        omega

end Chunks

theorem chunkMappings_of_isEmpty (h : c.rows.isEmpty) : x.chunkMappings c = [] := by
  rw [List.isEmpty_iff] at h
  simp [chunkMappings, hopsFrom, h]

theorem count_edges (hlinked : x.relTable.Linked) (src dst : UInt64) (e : Nat) :
    (x.edges src).count (dst, e) =
      (x.leads src dst e).toNat + (decide (x.direction = .both ∧ src = dst) && x.leads src dst
        e).toNat := by
  unfold edges leads
  split
  next hdir => simp [hlinked.forward src dst e, hdir]
  next hdir => simp [hlinked.reverse src dst e, hdir]
  next hboth =>
    rw [count_append, hlinked.forward src dst e, hlinked.reverse src dst e]
    cases hedge : x.relTable.edges[e]? with
    | none => simp [listed, hedge]
    | some p =>
      rw [listed_of_edge hedge, listed_of_edge hedge]
      obtain ⟨a, b⟩ := p
      by_cases hlive : a = noOffset
      · simp [endsMatch, hlive]
      · by_cases ha : a = src <;> by_cases hb : b = dst <;> by_cases ha' : b =
          src <;> by_cases hb' : a = dst <;>
          simp_all [endsMatch]

theorem count_kept (hlinked : x.relTable.Linked) (src dst : UInt64) (e : Nat) :
    ((x.edges src).filter fun p => x.keeps p.1).count (dst, e) = (x.leads src dst e).toNat ↔
      (x.leads src dst e = true → x.keeps dst = true ∧ (x.direction = .both → dst ≠ src)) := by
  have hcount : ((x.edges src).filter fun p => x.keeps p.1).count (dst, e) =
      if x.keeps dst then (x.edges src).count (dst, e) else 0 := by
    split
    next hkeeps => exact count_filter (by simpa using hkeeps)
    next hkeeps => exact count_eq_zero_of_not_mem fun h => hkeeps (mem_filter.mp h).2
  rw [hcount, count_edges hlinked]
  cases hlead : x.leads src dst e with
  | false => simp
  | true =>
    cases hkeeps : x.keeps dst with
    | false => simp
    | true =>
      by_cases hboth : x.direction = .both <;> by_cases hloop : dst =
      src <;> simp [hboth, hloop, Ne.symm]

theorem count_hops (x : PhysicalExtend) (hops : UInt64 → List (UInt64 × Nat)) (c : InputChunk)
    (m : RowMapping) (rows : List (List Value)) (k : Nat) :
    ((rows.zipIdx k).flatMap fun r => ((x.boundIdx c).bind (srcId · r.1)).elim [] fun src =>
        (hops src).map fun e => (⟨r.2, e.1, e.2⟩ : RowMapping)).count m =
      if m.inputRow < k then 0
      else ((rows[m.inputRow - k]?).bind (x.sourceOf c)).elim 0 fun src =>
        (hops src).count (m.dstOffset, m.edgeIdx) := by
  induction rows generalizing k with
  | nil => simp
  | cons row rows ih =>
    have hrow : (((x.boundIdx c).bind (srcId · row)).elim [] fun src =>
        (hops src).map fun e => (⟨k, e.1, e.2⟩ : RowMapping)).count m =
        if m.inputRow = k then (x.sourceOf c row).elim 0 fun src =>
          (hops src).count (m.dstOffset, m.edgeIdx)
        else 0 := by
      rw [sourceOf]
      cases (x.boundIdx c).bind (srcId · row) with
      | none => simp
      | some src =>
        split
        next hk =>
          have hm : m = (fun e : UInt64 × Nat => (⟨k, e.1, e.2⟩ : RowMapping)) (m.dstOffset,
              m.edgeIdx) := by
            rw [← hk]
          have hinj : Function.Injective fun e : UInt64 × Nat => (⟨k, e.1, e.2⟩ : RowMapping) := by
            intro a b hab
            injection hab with _ hdst hidx
            exact Prod.ext hdst hidx
          show ((hops src).map _).count m = (hops src).count (m.dstOffset, m.edgeIdx)
          rw [hm, count_map_of_injective _ _ hinj]
        next hk =>
          refine count_eq_zero_of_not_mem fun hmem => hk ?_
          obtain ⟨e, -, rfl⟩ := mem_map.mp hmem
          rfl
    rw [zipIdx_cons, flatMap_cons, count_append, hrow, ih]
    rcases Nat.lt_trichotomy m.inputRow k with hlt | heq | hgt
    · rw [if_neg (by omega), if_pos (by omega), if_pos hlt]
    · rw [if_pos heq, if_pos (by omega), if_neg (by omega), heq, Nat.sub_self]
      simp
    · obtain ⟨j, hj⟩ : ∃ j, m.inputRow - k = j + 1 := ⟨m.inputRow - k - 1, by omega⟩
      rw [if_neg (by omega), if_neg (by omega), if_neg (by omega), hj, show m.inputRow - (k + 1) =
        j by omega,
        getElem?_cons_succ, Nat.zero_add]

theorem count_chunkMappings (c : InputChunk) (m : RowMapping) :
    (x.chunkMappings c).count m = ((c.rows[m.inputRow]?).bind (x.sourceOf c)).elim 0 fun src =>
      ((x.edges src).filter fun e => x.keeps e.1).count (m.dstOffset, m.edgeIdx) :=
  (count_hops x _ c m c.rows 0).trans (if_neg (Nat.not_lt_zero _))

/-- The edges from the nodes of the input end at rows that are kept, and none of them is a loop
walked both ways. -/
def EdgesKept (x : PhysicalExtend) (c : InputChunk) : Prop :=
  ∀ row ∈ c.rows, ∀ src, x.sourceOf c row = some src → ∀ dst e, x.leads src dst e = true →
    x.keeps dst = true ∧ (x.direction = .both → dst ≠ src)

theorem chunk_exact_iff (hlinked : x.relTable.Linked) (c : InputChunk) :
    (∀ m, (x.chunkMappings c).count m = (x.wanted c m).toNat) ↔ x.EdgesKept c := by
  constructor
  · intro h row hrow src hsrc dst e
    obtain ⟨i, hi⟩ := getElem?_of_mem hrow
    have hm := h ⟨i, dst, e⟩
    rw [count_chunkMappings, wanted, hi, bind_some, hsrc] at hm
    exact (count_kept hlinked src dst e).mp hm
  · intro h m
    rw [count_chunkMappings, wanted]
    cases hrow : c.rows[m.inputRow]? with
    | none => rfl
    | some row =>
      rw [bind_some]
      cases hsrc : x.sourceOf c row with
      | none => rfl
      | some src =>
        exact (count_kept hlinked src _ _).mpr
          (h row (mem_of_getElem? hrow) src hsrc m.dstOffset m.edgeIdx)

section Probe

variable {idxs l : List Nat}

theorem pushNew_spec (h : idxs.Nodup) :
    (l.foldl pushNew idxs).Nodup ∧ ∀ i, i ∈ l.foldl pushNew idxs ↔ i ∈ idxs ∨ i ∈ l := by
  induction l generalizing idxs with
  | nil => exact ⟨h, by simp⟩
  | cons a l ih =>
    have hnodup : (pushNew idxs a).Nodup := by
      unfold pushNew
      split
      next => exact h
      next hnew => exact h.append (nodup_singleton a) (by simpa using hnew)
    have hmem (i : Nat) : i ∈ pushNew idxs a ↔ i ∈ idxs ∨ i = a := by
      unfold pushNew
      split
      next hold => exact ⟨.inl, fun h => h.elim id fun hi => hi ▸ by simpa using hold⟩
      next => simp
    obtain ⟨hend, hall⟩ := ih hnodup
    refine ⟨hend, fun i => ?_⟩
    simp only [foldl_cons, hall, hmem, mem_cons]
    tauto

theorem pushUnseen_eq (l idxs : List Nat) :
    (l.foldl pushUnseen (fun i => idxs.contains i, idxs)).2 = l.foldl pushNew idxs := by
  induction l generalizing idxs with
  | nil => rfl
  | cons a l ih =>
    have hstep : pushUnseen (fun i => idxs.contains i, idxs) a =
        (fun i => (pushNew idxs a).contains i, pushNew idxs a) := by
      unfold pushUnseen pushNew
      by_cases ha : idxs.contains a
      · simp only [ha, if_true]
      · simp only [ha, Bool.false_eq_true, if_false, Prod.mk.injEq, and_true]
        funext i
        by_cases hi : i = a <;> simp [hi]
    rw [foldl_cons, foldl_cons, hstep, ih]

variable {adj : UInt64 → List (UInt64 × Nat)} {own other : UInt64 × UInt64 → UInt64}
    {edges : List (UInt64 × UInt64)}

theorem mem_indices (h : Lists adj edges own other) (n : UInt64) (i : Nat) :
    i ∈ (adj n).map Prod.snd ↔ ∃ o, listed edges own other n o i = true := by
  have hmem (o : UInt64) : (o, i) ∈ adj n ↔ listed edges own other n o i = true := by
    rw [← count_pos_iff, h n o i]
    cases listed edges own other n o i <;> simp
  simp [← hmem]

theorem nodup_indices (h : Lists adj edges own other) (n : UInt64) : ((adj n).map Prod.snd).Nodup := by
  have hlisted : ∀ p ∈ adj n, listed edges own other n p.1 p.2 = true := by
    intro p hp
    have hpos := count_pos_iff.mpr hp
    rw [h n p.1 p.2] at hpos
    cases hl : listed edges own other n p.1 p.2 with
    | true => rfl
    | false => simp [hl] at hpos
  refine Nodup.map_on ?_ (nodup_iff_count_le_one.mpr fun p => h n p.1 p.2 ▸ Bool.toNat_le _)
  intro p hp q hq hpq
  have hp := hlisted p hp
  have hq := hlisted q hq
  rw [← hpq] at hq
  refine Prod.ext ?_ hpq
  cases hedge : edges[p.2]? with
  | none => simp [listed, hedge] at hp
  | some e =>
    rw [listed_of_edge hedge, endsMatch] at hp hq
    simp only [Bool.and_eq_true, decide_eq_true_eq] at hp hq
    rw [← hp.2, ← hq.2]

theorem probe_spec (hlinked : x.relTable.Linked) (src : UInt64) :
    (x.probeIncidentEdges src).Nodup ∧ ∀ e, e ∈ x.probeIncidentEdges src ↔ ∃ dst,
      x.leads src dst e = true := by
  have hfwd := mem_indices hlinked.forward src
  have hrev := mem_indices hlinked.reverse src
  have hfwd' := nodup_indices hlinked.forward src
  have hrev' := nodup_indices hlinked.reverse src
  unfold probeIncidentEdges leads
  split
  next => exact ⟨hfwd', hfwd⟩
  next => exact ⟨hrev', hrev⟩
  next =>
    simp only [Bool.or_eq_true, exists_or, ← hfwd, ← hrev]
    generalize (x.relTable.fwdAdj src).map Prod.snd = fwd at hfwd'
    generalize (x.relTable.revAdj src).map Prod.snd = rev at hrev'
    have hpush : ((fwd ++ rev).foldl pushNew []).Nodup ∧
        ∀ e, e ∈ (fwd ++ rev).foldl pushNew [] ↔ e ∈ fwd ∨ e ∈ rev := by
      simpa using pushNew_spec (l := fwd ++ rev) nodup_nil
    split
    next h => exact ⟨hfwd', by simp [List.isEmpty_iff.mp h]⟩
    next =>
      split
      next h => exact ⟨hrev', by simp [List.isEmpty_iff.mp h]⟩
      next =>
        split
        next => exact hpush
        next =>
          have heq : ((fwd ++ rev).foldl pushUnseen (fun _ => false, [])).2 =
              (fwd ++ rev).foldl pushNew [] :=
            pushUnseen_eq (fwd ++ rev) []
          rw [heq]
          exact hpush

end Probe

/-- The unbudgeted extend gives each source row its live edges, each once, and a budget cuts this
output no earlier than it says. -/
def Exact (x : PhysicalExtend) (input : List InputChunk) : Prop :=
  ∃ out, execute { x with limitBudget := none } input = .ok out ∧
    Forall₂ (fun c ms => ∀ m, ms.count m = (x.wanted c m).toNat) input out ∧
    ∀ budget, ∃ cut, execute { x with limitBudget := some budget } input = .ok cut ∧
      cut.flatten <+: out.flatten ∧
      (budget ≤ out.flatten.length → budget ≤ cut.flatten.length)

theorem execute_unbudgeted {out : List (List RowMapping)} :
    execute { x with limitBudget := none } input = .ok out ↔
    ((∀ c ∈ input, c.rows = []) ∨ ∀ c ∈ input, x.Passes c) ∧ out = input.map x.chunkMappings := by
  unfold execute
  split
  next hempty =>
    have hrows : ∀ c ∈ input, c.rows = [] :=
      fun c hc => List.isEmpty_iff.mp (all_eq_true.mp hempty c hc)
    have hmap : input.map x.chunkMappings = input.map fun _ => [] :=
      map_congr_left fun c hc => chunkMappings_of_isEmpty (all_eq_true.mp hempty c hc)
    rw [hmap, Except.ok.injEq, eq_comm]
    exact ⟨fun h => ⟨.inl hrows, h⟩, And.right⟩
  next hempty =>
    have hrows : ¬∀ c ∈ input, c.rows = [] :=
      fun h => hempty (all_eq_true.mpr fun c hc => by simp [h c hc])
    have hchunks := @extendChunks_unbudgeted { x with limitBudget := none } input rfl 0 out
    simp only [hrows, false_or]
    exact hchunks

theorem execute_budgeted (h : (∀ c ∈ input, c.rows = []) ∨ ∀ c ∈ input, x.Passes c) (budget : Nat) :
    ∃ cut, execute { x with limitBudget := some budget } input = .ok cut ∧
      cut.flatten = (input.flatMap x.chunkMappings).take budget := by
  unfold execute
  split
  next hempty =>
    have hnil : input.flatMap x.chunkMappings = [] :=
      flatMap_eq_nil_iff.mpr fun c hc => chunkMappings_of_isEmpty (all_eq_true.mp hempty c hc)
    exact ⟨_, rfl, by simp [hnil]⟩
  next hempty =>
    have hpass := h.resolve_left fun hrows => hempty (all_eq_true.mpr fun c hc => by simp [hrows c hc])
    exact @extendChunks_budgeted { x with limitBudget := some budget } budget input hpass rfl 0

end PhysicalExtend

open PhysicalExtend

/-- Over a linked table, the probe of the optional extend finds each incident edge once. The extend
is exact if it gives no error, drops no edge of a source row and walks none of its loops both ways,
and only then. -/
theorem extend_exact_iff (x : PhysicalExtend) (input : List InputChunk) (hlinked : x.relTable.Linked) :
    (∀ src, (x.probeIncidentEdges src).Nodup ∧
      ∀ e, e ∈ x.probeIncidentEdges src ↔ ∃ dst, x.leads src dst e = true) ∧
    (x.Exact input ↔ ((∀ c ∈ input, c.rows = []) ∨ ∀ c ∈ input, x.Passes c) ∧ ∀ c ∈ input,
      x.EdgesKept c) := by
  have hforall : Forall₂ (fun c ms => ∀ m, ms.count m = (x.wanted c m).toNat) input
      (input.map x.chunkMappings) ↔
      ∀ c ∈ input, x.EdgesKept c := by
    rw [forall₂_map_right_iff, forall₂_same]
    exact forall₂_congr fun c _ => chunk_exact_iff hlinked c
  refine ⟨probe_spec hlinked, ?_, fun ⟨hruns, hkept⟩ => ?_⟩
  · rintro ⟨out, hout, hexact, -⟩
    obtain ⟨hruns, rfl⟩ := execute_unbudgeted.mp hout
    exact ⟨hruns, hforall.mp hexact⟩
  · refine ⟨_, execute_unbudgeted.mpr ⟨hruns, rfl⟩, hforall.mpr hkept, fun budget => ?_⟩
    obtain ⟨cut, hcut, hflat⟩ := execute_budgeted hruns budget
    rw [← flatMap_def]
    refine ⟨cut, hcut, ?_, fun hle => ?_⟩
    · rw [hflat]
      exact take_prefix ..
    · rw [hflat, length_take]
      exact Nat.le_min.mpr ⟨le_rfl, hle⟩

def friends (src dst : UInt64) : PhysicalExtend where
  boundNodeVar := "a"
  relTable := (ColumnarRelTable.new 7 "knows" 1 1 []).appendEdge src dst []
  destNumRows := 2
  direction := .both
  ftsDocIds := none
  limitBudget := none
  prune := true
  extendMaxRows := 0

def sourceRows : List InputChunk := [⟨["a._id"], [[.int64 0], [.int64 1]]⟩]

theorem linked_friends (src dst : UInt64) (h : src ≠ noOffset) : (friends src dst).relTable.Linked :=
  (ColumnarRelTable.sound_new 7 "knows" 1 1 []).linked.appendEdge h

theorem extend_exact_friends : (friends 0 1).Exact sourceRows ∧ ¬(friends 0 0).Exact sourceRows := by
  constructor
  · refine (extend_exact_iff (friends 0 1) sourceRows (linked_friends 0 1 (by decide))).2.mpr
      ⟨.inr ?_, ?_⟩
    · intro c hc
      obtain rfl := mem_singleton.mp hc
      exact ⟨rfl, rfl⟩
    · intro c _ row _ src _ dst e hlead
      cases e with
      | zero =>
        have hdst : dst = 0 ∧ src = 1 ∨ dst = 1 ∧ src = 0 := by
          simp [leads, friends, listed, endsMatch, ColumnarRelTable.appendEdge,
            ColumnarRelTable.new] at hlead
          grind
        rcases hdst with ⟨rfl, rfl⟩ | ⟨rfl, rfl⟩ <;> exact ⟨rfl, fun _ => by decide⟩
      | succ =>
        simp [leads, friends, listed, ColumnarRelTable.appendEdge, ColumnarRelTable.new] at hlead
  · intro h
    have hkept :=
      ((extend_exact_iff (friends 0 0) sourceRows (linked_friends 0 0 (by decide))).2.mp h).2
    exact (hkept _ mem_cons_self [.int64 0] mem_cons_self 0 rfl 0 0 rfl).2 rfl rfl

theorem extend_doubles_loop : (friends 0 0).relTable.Linked ∧ (friends 0 0).relTable.edges = [(0, 0)] ∧
    execute (friends 0 0) sourceRows = .ok [[⟨0, 0, 0⟩, ⟨0, 0, 0⟩]] :=
  ⟨linked_friends 0 0 (by decide), rfl, rfl⟩

end Akar
