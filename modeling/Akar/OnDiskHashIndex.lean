import Akar.Runs
import Mathlib.Algebra.Group.Nat.Defs
import Mathlib.Data.List.Nodup

namespace Akar

open List Function

/-- What a key type and the buffer manager fix: the hash, the bytes of a key and the bytes of a
page. -/
structure IndexLayout (K : Type) where
  hash : K → Nat
  keySize : Nat
  pageSize : Nat

/-- A page of the index. Integer keys are kept as they are read back; a slot that is not occupied is
`none`. -/
structure IndexPage (K : Type) where
  numSlots : Nat
  numEntries : Nat
  collisionNext : Nat
  slots : Nat → Option (K × UInt64)

structure OnDiskHashIndex (K : Type) where
  cache : List (K × UInt64)
  numPages : Nat
  pages : Nat → IndexPage K

def slotsPerPage : Nat := 64

variable {K : Type} [DecidableEq K]

section Entries

variable {entries entries' : List (K × UInt64)} {k : K} {v : UInt64} {e : K × UInt64}

def valueOf (entries : List (K × UInt64)) (k : K) : Option UInt64 := (entries.find? (·.1 = k)).map (·.2)

def insertEntry (entries : List (K × UInt64)) (e : K × UInt64) : List (K × UInt64) :=
  e :: entries.filter (·.1 ≠ e.1)

def removeKey (entries : List (K × UInt64)) (k : K) : List (K × UInt64) := entries.filter (·.1 ≠ k)

def Functional (entries : List (K × UInt64)) : Prop :=
  ∀ k v v', (k, v) ∈ entries → (k, v') ∈ entries → v = v'

theorem valueOf_eq_some (h : Functional entries) : valueOf entries k = some v ↔ (k, v) ∈ entries := by
  unfold valueOf
  rw [Option.map_eq_some_iff]
  constructor
  · rintro ⟨⟨k', v'⟩, hfind, rfl⟩
    have hk : k' = k := by simpa using find?_some hfind
    subst hk
    exact mem_of_find?_eq_some hfind
  · intro hmem
    cases hfind : entries.find? (·.1 = k) with
    | none =>
      have hne := find?_eq_none.mp hfind (k, v) hmem
      exact absurd (by simp) hne
    | some e =>
      obtain ⟨k', v'⟩ := e
      have hk : k' = k := by simpa using find?_some hfind
      subst hk
      exact ⟨_, rfl, h k' v' v (mem_of_find?_eq_some hfind) hmem⟩

theorem valueOf_eq_none : valueOf entries k = none ↔ ∀ v, (k, v) ∉ entries := by
  unfold valueOf
  rw [Option.map_eq_none_iff, find?_eq_none]
  constructor
  · intro h v hmem
    exact h (k, v) hmem (by simp)
  · rintro h ⟨k', v'⟩ hmem hk
    have hk : k' = k := by simpa using hk
    subst hk
    exact h v' hmem

variable {x : K × UInt64}

theorem mem_insertEntry : x ∈ insertEntry entries e ↔ x = e ∨ x ∈ entries ∧ x.1 ≠ e.1 := by
  simp [insertEntry]

theorem mem_removeKey : x ∈ removeKey entries k ↔ x ∈ entries ∧ x.1 ≠ k := by
  simp [removeKey]

theorem Functional.insertEntry (h : Functional entries) : Functional (insertEntry entries e) := by
  intro k v v' hv hv'
  rcases mem_insertEntry.mp hv with rfl | ⟨hv, hne⟩
  · rcases mem_insertEntry.mp hv' with heq | ⟨-, hne⟩
    · cases heq
      rfl
    · exact absurd rfl hne
  · rcases mem_insertEntry.mp hv' with heq | ⟨hv', -⟩
    · exact absurd (congrArg Prod.fst heq) hne
    · exact h k v v' hv hv'

omit [DecidableEq K] in
theorem Functional.mono (h : Functional entries) (hsub : ∀ e ∈ entries', e ∈ entries) :
    Functional entries' :=
  fun k v v' hv hv' => h k v v' (hsub _ hv) (hsub _ hv')

theorem valueOf_insertEntry (h : Functional entries) : valueOf (insertEntry entries e) k = if k =
    e.1 then some e.2 else valueOf entries k := by
  refine Option.ext fun v => ?_
  rw [valueOf_eq_some h.insertEntry, mem_insertEntry]
  split
  next hk =>
    subst hk
    constructor
    · rintro (heq | ⟨-, hne⟩)
      · exact congrArg (some ·.2) heq.symm
      · exact absurd rfl hne
    · intro hv
      exact .inl (Prod.ext rfl (Option.some.inj hv).symm)
  next hk =>
    rw [valueOf_eq_some h]
    constructor
    · rintro (heq | ⟨hmem, -⟩)
      · exact absurd (congrArg Prod.fst heq) hk
      · exact hmem
    · exact fun hmem => .inr ⟨hmem, hk⟩

theorem valueOf_removeKey {k' : K} (h : Functional entries) : valueOf (removeKey entries k) k' =
    if k' = k then none else valueOf entries k' := by
  have hfun : Functional (removeKey entries k) := h.mono fun e he => (mem_removeKey.mp he).1
  refine Option.ext fun v => ?_
  rw [valueOf_eq_some hfun, mem_removeKey]
  split
  next hk =>
    subst hk
    exact ⟨fun hmem => absurd rfl hmem.2, nofun⟩
  next hk =>
    rw [valueOf_eq_some h]
    exact ⟨fun hmem => hmem.1, fun hmem => ⟨hmem, hk⟩⟩

theorem foldl_insertEntry_spec (es : List (K × UInt64)) (h : Functional entries) :
    Functional (es.foldl insertEntry entries) ∧
      (∀ x ∈ es.foldl insertEntry entries, x ∈ entries ∨ x ∈ es) ∧
      ∀ x, x ∈ entries ∨ x ∈ es → ∃ v, (x.1, v) ∈ es.foldl insertEntry entries := by
  induction es generalizing entries with
  | nil => exact ⟨h, fun x hx => .inl hx, fun x hx => ⟨x.2, hx.resolve_right (by simp)⟩⟩
  | cons e es ih =>
    obtain ⟨hfun, hsub, hkeys⟩ := ih (h.insertEntry (e := e))
    refine ⟨hfun, fun x hx => ?_, fun x hx => ?_⟩
    · rcases hsub x hx with hx | hx
      · rcases mem_insertEntry.mp hx with rfl | ⟨hx, -⟩
        · exact .inr mem_cons_self
        · exact .inl hx
      · exact .inr (mem_cons_of_mem _ hx)
    · by_cases hk : x.1 = e.1
      · rw [hk]
        exact hkeys e (.inl (mem_insertEntry.mpr (.inl rfl)))
      · rcases hx with hx | hx
        · exact hkeys x (.inl (mem_insertEntry.mpr (.inr ⟨hx, hk⟩)))
        · rcases mem_cons.mp hx with rfl | hx
          · exact absurd rfl hk
          · exact hkeys x (.inr hx)

end Entries

namespace IndexLayout

/-- Slots follow a header of 12 bytes; each has the key, a value of 8 bytes and a byte of flags. -/
def slotFits (L : IndexLayout K) (i : Nat) : Bool :=
  12 + i * (L.keySize + 9) + (L.keySize + 9) ≤ L.pageSize

omit [DecidableEq K] in
theorem slotFits_of_le (L : IndexLayout K) {i j : Nat} (h : L.slotFits j = true) (hij : i ≤ j) :
    L.slotFits i = true := by
  unfold slotFits at h ⊢
  rw [decide_eq_true_eq] at h ⊢
  have hmul : i * (L.keySize + 9) ≤ j * (L.keySize + 9) := Nat.mul_le_mul_right _ hij
  omega

end IndexLayout

namespace OnDiskHashIndex

variable (L : IndexLayout K)

def new : OnDiskHashIndex K := ⟨[], 0, fun _ => ⟨0, 0, 0, fun _ => none⟩⟩

def hashToPage (numPages : Nat) (k : K) : Nat := if numPages = 0 then 0 else L.hash k % numPages

/-- The occupied slots that a scan of the page reads; it stops at the first slot that does not
fit. -/
def readable (page : IndexPage K) : List (K × UInt64) :=
  (range page.numSlots).filterMap fun i => if L.slotFits i then page.slots i else none

def scan (pages : Nat → IndexPage K) (k : K) : Nat → Nat → Option UInt64
  | 0, _ => none
  | fuel + 1, p =>
    if (pages p).numEntries = 0 then none
    else
      match valueOf (readable L (pages p)) k with
      | some v => some v
      | none => if (pages p).collisionNext = 0 then none else scan pages k fuel (pages p).collisionNext

def lookup (index : OnDiskHashIndex K) (k : K) : Option UInt64 := match valueOf index.cache k with
  | some v => some v
  | none =>
    if index.numPages = 0 then none else scan L index.pages k index.numPages
    (hashToPage L index.numPages k)

def insert (index : OnDiskHashIndex K) (k : K) (v : UInt64) : OnDiskHashIndex K :=
  { index with cache := insertEntry index.cache (k, v) }

def delete (index : OnDiskHashIndex K) (k : K) : OnDiskHashIndex K :=
  { index with cache := removeKey index.cache k }

/-- One entry into the next slot of its page; a slot that does not fit is left out, and counted all
the same. -/
def writeEntry (numPages : Nat) (acc : (Nat → IndexPage K) × (Nat → Nat)) (e : K × UInt64) :
    (Nat → IndexPage K) × (Nat → Nat) :=
  let p := hashToPage L numPages e.1
  let cursor := acc.2 p
  (if L.slotFits cursor then
      update acc.1 p { acc.1 p with
        numEntries := (acc.1 p).numEntries + 1
        slots := update (acc.1 p).slots cursor (some e) }
    else acc.1,
    update acc.2 p (cursor + 1))

def pagesNeeded (index : OnDiskHashIndex K) : Nat :=
  max index.numPages (max 1 ((index.cache.length % 2 ^ 32 + (slotsPerPage - 1)) / slotsPerPage))

def flush (index : OnDiskHashIndex K) (order : List (K × UInt64)) : OnDiskHashIndex K :=
  if index.cache = [] then
    if 0 < index.numPages then
      { index with pages := update index.pages 0 { index.pages 0 with numSlots := 0, numEntries := 0, collisionNext := 0 } }
    else index
  else
    let numPages := index.pagesNeeded
    let cleared : Nat → IndexPage K :=
      fun p => if p < numPages then ⟨slotsPerPage, 0, 0, fun _ => none⟩ else index.pages p
    { index with numPages := numPages, pages := (order.foldl (writeEntry L numPages) (cleared, fun _ => 0)).1 }

def loadPage (pages : Nat → IndexPage K) (cache : List (K × UInt64)) (p : Nat) : List (K × UInt64) :=
  if (pages p).numEntries = 0 then cache else (readable L (pages p)).foldl insertEntry cache

def rebuildFromDisk (index : OnDiskHashIndex K) : OnDiskHashIndex K :=
  { index with cache := (range index.numPages).foldl (loadPage L index.pages) [] }

def onPage (numPages : Nat) (entries : List (K × UInt64)) (p : Nat) : List (K × UInt64) :=
  entries.filter fun e => hashToPage L numPages e.1 = p

variable {L} {numPages : Nat} {pages : Nat → IndexPage K} {order : List (K × UInt64)}

def Written (L : IndexLayout K) (numPages : Nat) (entries : List (K × UInt64))
    (pages : Nat → IndexPage K) : Prop :=
  ∀ p < numPages, (pages p).numSlots = slotsPerPage ∧ (pages p).collisionNext = 0 ∧
    ((pages p).numEntries = 0 → ∀ i, (pages p).slots i = none) ∧
    ∀ i, (pages p).slots i = if L.slotFits i then (onPage L numPages entries p)[i]? else none

variable {entries : List (K × UInt64)}

omit [DecidableEq K] in
theorem onPage_concat (e : K × UInt64) (p : Nat) : onPage L numPages (entries ++ [e]) p =
    if p = hashToPage L numPages e.1 then onPage L numPages entries p ++ [e]
    else onPage L numPages entries p := by
  unfold onPage
  rw [filter_append]
  split
  next hp => simp [hp]
  next hp => simp [Ne.symm hp]

/-- Filling the slot behind the last entry, where it fits. -/
theorem update_slots {α : Type} {fits : Nat → Bool} {slots : Nat → Option α} {l : List α} {x : α}
    (hslots : ∀ i, slots i = if fits i then l[i]? else none) (hfits : fits l.length = true) (i : Nat) :
    update slots l.length (some x) i = if fits i then (l ++ [x])[i]? else none := by
  rw [update_apply]
  split
  next hi => rw [hi, if_pos hfits, getElem?_concat_length]
  next hi =>
    rw [hslots i]
    split
    next =>
      rcases Nat.lt_or_gt_of_ne hi with hlt | hgt
      · rw [getElem?_append_left hlt]
      · rw [getElem?_eq_none (Nat.le_of_lt hgt), getElem?_eq_none]
        rw [length_append, length_singleton]
        exact hgt
    next => rfl

omit [DecidableEq K] in
theorem written_writeEntry {acc : (Nat → IndexPage K) × (Nat → Nat)} {e : K × UInt64}
    (h : Written L numPages entries acc.1)
    (hcursor : ∀ p, acc.2 p = (onPage L numPages entries p).length) :
    Written L numPages (entries ++ [e]) (writeEntry L numPages acc e).1 ∧
      ∀ p, (writeEntry L numPages acc e).2 p = (onPage L numPages (entries ++ [e]) p).length := by
  constructor
  · intro p hp
    obtain ⟨hslots, hnext, hempty, hfilled⟩ := h p hp
    rw [onPage_concat]
    unfold writeEntry
    dsimp only
    split
    next hfits =>
      rw [update_apply, hcursor]
      rw [hcursor] at hfits
      split
      next hpage =>
        subst hpage
        exact ⟨hslots, hnext, fun hzero => absurd hzero (Nat.succ_ne_zero _),
          update_slots hfilled hfits⟩
      next => exact ⟨hslots, hnext, hempty, hfilled⟩
    next hfits =>
      refine ⟨hslots, hnext, hempty, fun i => (hfilled i).trans ?_⟩
      split
      next hi =>
        split
        next hpage =>
          -- a slot that fits lies before the cursor
          have hlt : i < (onPage L numPages entries p).length := by
            by_contra hge
            rw [← hcursor, hpage] at hge
            exact hfits (L.slotFits_of_le hi (Nat.le_of_not_lt hge))
          rw [getElem?_append_left hlt]
        next => rfl
      next => rfl
  · intro p
    show update acc.2 _ _ p = _
    rw [update_apply, onPage_concat]
    split
    next hpage =>
      rw [hpage, length_append, hcursor]
      rfl
    next => exact hcursor p

omit [DecidableEq K] in
theorem written_foldl (es : List (K × UInt64)) : ∀ (entries : List (K × UInt64))
    (acc : (Nat → IndexPage K) × (Nat → Nat)),
    Written L numPages entries acc.1 → (∀ p, acc.2 p = (onPage L numPages entries p).length) →
    Written L numPages (entries ++ es) (es.foldl (writeEntry L numPages) acc).1 := by
  induction es with
  | nil =>
    intro entries acc h _
    rw [append_nil]
    exact h
  | cons e es ih =>
    intro entries acc h hcursor
    obtain ⟨hstep, hcursor'⟩ := written_writeEntry (e := e) h hcursor
    have hrest := ih _ _ hstep hcursor'
    rw [append_assoc] at hrest
    exact hrest

variable {index : OnDiskHashIndex K}

omit [DecidableEq K] in
theorem flush_written (hcache : index.cache ≠ []) :
    Written L (index.flush L order).numPages order (index.flush L order).pages := by
  unfold flush
  rw [if_neg hcache]
  refine written_foldl order [] _ (fun p hp => ?_) fun p => rfl
  dsimp only
  rw [if_pos hp]
  refine ⟨rfl, rfl, fun _ _ => rfl, fun i => ?_⟩
  show none = if L.slotFits i then ([] : List (K × UInt64))[i]? else none
  split <;> rfl

omit [DecidableEq K] in
theorem hashToPage_lt {k : K} (h : numPages ≠ 0) : hashToPage L numPages k < numPages := by
  unfold hashToPage
  rw [if_neg h]
  exact Nat.mod_lt _ (Nat.pos_of_ne_zero h)

variable {p : Nat} {x : K × UInt64}

omit [DecidableEq K] in
theorem Written.of_readable (h : Written L numPages entries pages) (hp : p < numPages)
    (hx : x ∈ readable L (pages p)) : x ∈ entries := by
  obtain ⟨-, -, -, hfilled⟩ := h p hp
  obtain ⟨i, -, hi⟩ := mem_filterMap.mp hx
  rw [hfilled i] at hi
  split at hi
  next =>
    exact (mem_filter.mp (mem_of_getElem? hi)).1
  next => cases hi

def Roomy (L : IndexLayout K) (numPages : Nat) (entries : List (K × UInt64)) : Prop :=
  ∀ p < numPages, (onPage L numPages entries p).length ≤ slotsPerPage ∧
    ∀ i < (onPage L numPages entries p).length, L.slotFits i = true

omit [DecidableEq K] in
theorem Written.readable_of_roomy (h : Written L numPages entries pages)
    (hroomy : Roomy L numPages entries) (hp : p < numPages) (hx : x ∈ onPage L numPages entries p) :
    (pages p).numEntries ≠ 0 ∧ x ∈ readable L (pages p) := by
  obtain ⟨hslots, -, hempty, hfilled⟩ := h p hp
  obtain ⟨hshort, hfits⟩ := hroomy p hp
  obtain ⟨i, hi⟩ := getElem?_of_mem hx
  have hlt : i < (onPage L numPages entries p).length := (List.getElem?_eq_some_iff.mp hi).1
  have hslot : (pages p).slots i = some x := by
    rw [hfilled i, if_pos (hfits i hlt)]
    exact hi
  constructor
  · intro hzero
    rw [hempty hzero i] at hslot
    cases hslot
  · refine mem_filterMap.mpr ⟨i, mem_range.mpr ?_, ?_⟩
    · rw [hslots]
      exact Nat.lt_of_lt_of_le hlt hshort
    · rw [if_pos (hfits i hlt)]
      exact hslot

theorem foldl_loadPage (h : Written L numPages entries pages) (hfun : Functional entries)
    (hroomy : Roomy L numPages entries) (ps : List Nat) : ∀ cache : List (K × UInt64),
    (∀ p ∈ ps, p < numPages) → Functional cache → (∀ x ∈ cache, x ∈ entries) →
    Functional (ps.foldl (loadPage L pages) cache) ∧
      (∀ x ∈ ps.foldl (loadPage L pages) cache, x ∈ entries) ∧
      ∀ x, (x ∈ cache ∨ ∃ p ∈ ps, x ∈ onPage L numPages entries p) →
        x ∈ ps.foldl (loadPage L pages) cache := by
  induction ps with
  | nil => exact fun cache _ hcache hsub => ⟨hcache, hsub, fun x hx => hx.resolve_right (by simp)⟩
  | cons p ps ih =>
    intro cache hps hcache hsub
    rw [forall_mem_cons] at hps
    have hpage : Functional (loadPage L pages cache p) ∧ (∀ x ∈ loadPage L pages cache p, x ∈ entries) ∧
        ∀ x, x ∈ cache ∨ x ∈ onPage L numPages entries p → x ∈ loadPage L pages cache p := by
      unfold loadPage
      split
      next hzero =>
        refine ⟨hcache, hsub, fun x hx => hx.resolve_right fun hx => ?_⟩
        exact (h.readable_of_roomy hroomy hps.1 hx).1 hzero
      next =>
        obtain ⟨hload, hmembers, hkeys⟩ := foldl_insertEntry_spec (readable L (pages p)) hcache
        have hin : ∀ x ∈ (readable L (pages p)).foldl insertEntry cache, x ∈ entries := by
          intro x hx
          rcases hmembers x hx with hx | hx
          · exact hsub x hx
          · exact h.of_readable hps.1 hx
        refine ⟨hload, hin, fun x hx => ?_⟩
        have hx' := hx.imp_right fun hx => (h.readable_of_roomy hroomy hps.1 hx).2
        have hentry := hx'.elim (hsub x) (h.of_readable hps.1)
        obtain ⟨v, hv⟩ := hkeys x hx'
        have heq := hfun x.1 v x.2 (hin _ hv) hentry
        rw [heq] at hv
        exact hv
    obtain ⟨hfun', hsub', hall⟩ := ih _ hps.2 hpage.1 hpage.2.1
    refine ⟨hfun', hsub', fun x hx => hall x ?_⟩
    rcases hx with hx | ⟨q, hq, hx⟩
    · exact .inl (hpage.2.2 x (.inl hx))
    · rcases mem_cons.mp hq with rfl | hq
      · exact .inl (hpage.2.2 x (.inr hx))
      · exact .inr ⟨q, hq, hx⟩

theorem rebuild_spec (h : Written L index.numPages entries index.pages)
    (hfun : Functional entries) (hroomy : Roomy L index.numPages entries)
    (hempty : index.numPages = 0 → entries = []) :
    Functional (index.rebuildFromDisk L).cache ∧ ∀ x, x ∈ (index.rebuildFromDisk L).cache ↔
      x ∈ entries := by
  obtain ⟨hload, hsub, hall⟩ := foldl_loadPage h hfun hroomy (range index.numPages) []
    (fun p hp => mem_range.mp hp) nofun nofun
  refine ⟨hload, fun x => ⟨hsub x, fun hx => hall x (.inr ?_)⟩⟩
  have hpages : index.numPages ≠ 0 := by
    intro hzero
    rw [hempty hzero] at hx
    cases hx
  refine ⟨hashToPage L index.numPages x.1, mem_range.mpr (hashToPage_lt hpages), ?_⟩
  exact mem_filter.mpr ⟨hx, by simp⟩

end OnDiskHashIndex

/-- The index with the map it stands for, the entries its last flush wrote, and whether the cache
was changed since. -/
structure IndexLedger (K : Type) where
  index : OnDiskHashIndex K
  contents : K → Option UInt64
  flushed : List (K × UInt64)
  changed : Bool

inductive IndexCall (K : Type) where
  | insert (k : K) (v : UInt64)
  | delete (k : K)
  | flush (order : List (K × UInt64))
  | rebuildFromDisk

namespace IndexLedger

open OnDiskHashIndex

variable (L : IndexLayout K)

def new : IndexLedger K := ⟨.new, fun _ => none, [], false⟩

/-- One call; a flush meets the entries of the cache in some order. -/
def step (l : IndexLedger K) : IndexCall K → Option (IndexLedger K)
  | .insert k v =>
    some { l with index := l.index.insert k v, contents := update l.contents k (some v), changed := true }
  | .delete k =>
    some { l with index := l.index.delete k, contents := update l.contents k none, changed := true }
  | .flush order =>
    if order.Perm l.index.cache then
      some { l with
        index := l.index.flush L order
        flushed := if l.index.cache = [] then l.flushed else order
        changed := false }
    else none
  | .rebuildFromDisk => some { l with index := l.index.rebuildFromDisk L }

/-- A deleted key was not flushed, and a rebuild follows a flush that found room on every page. -/
def Careful (l : IndexLedger K) : IndexCall K → Prop
  | .delete k => ∀ v, (k, v) ∉ l.flushed
  | .rebuildFromDisk => l.changed = false ∧ Roomy L l.index.numPages l.flushed
  | .insert _ _ | .flush _ => True

structure Good (l : IndexLedger K) : Prop where
  functional : Functional l.index.cache
  contents : ∀ k, l.contents k = valueOf l.index.cache k
  written : Written L l.index.numPages l.flushed l.index.pages
  distinct : Functional l.flushed
  paged : l.index.numPages = 0 ↔ l.flushed = []
  kept : ∀ e ∈ l.flushed, ∃ v, (e.1, v) ∈ l.index.cache
  same : l.changed = false → ∀ e, e ∈ l.flushed ↔ e ∈ l.index.cache

variable {L} {l l' : IndexLedger K} {c : IndexCall K}

theorem good_new : (new : IndexLedger K).Good L where
  functional k v v' hv := by cases hv
  contents _ := rfl
  written p hp := absurd hp (Nat.not_lt_zero _)
  distinct k v v' hv := by cases hv
  paged := ⟨fun _ => rfl, fun _ => rfl⟩
  kept e he := by cases he
  same _ _ := Iff.rfl

theorem Good.lookup_eq (h : l.Good L) (k : K) : l.index.lookup L k = l.contents k := by
  rw [h.contents k]
  unfold OnDiskHashIndex.lookup
  split
  next v hv => exact hv.symm
  next hnone =>
    rw [hnone]
    split
    next => rfl
    next hpages =>
      have hp := hashToPage_lt (L := L) (k := k) hpages
      obtain ⟨-, hnext, -, -⟩ := h.written _ hp
      obtain ⟨n, hn⟩ := Nat.exists_eq_succ_of_ne_zero hpages
      rw [hn, scan, ← hn, hnext, if_pos rfl]
      split
      next => rfl
      next =>
        -- a key found on the page would be in the cache
        have hdisk : valueOf (readable L (l.index.pages (hashToPage L l.index.numPages k))) k =
            none := by
          refine valueOf_eq_none.mpr fun v hv => ?_
          obtain ⟨v', hv'⟩ := h.kept _ (h.written.of_readable hp hv)
          exact valueOf_eq_none.mp hnone v' hv'
        rw [hdisk]

theorem Good.insert {k : K} {v : UInt64} (h : l.Good L)
    (hstep : l.step L (.insert k v) = some l') : l'.Good L := by
  cases hstep
  refine ⟨h.functional.insertEntry, fun k' => ?_, h.written, h.distinct, h.paged, fun e he => ?_,
    nofun⟩
  · show update l.contents k (some v) k' = valueOf (insertEntry l.index.cache (k, v)) k'
    rw [valueOf_insertEntry h.functional]
    split
    next hk => rw [hk, update_self]
    next hk => rw [update_of_ne hk, h.contents]
  · obtain ⟨v', hv'⟩ := h.kept e he
    by_cases hk : e.1 = k
    · rw [hk]
      exact ⟨v, mem_insertEntry.mpr (.inl rfl)⟩
    · exact ⟨v', mem_insertEntry.mpr (.inr ⟨hv', hk⟩)⟩

theorem Good.delete {k : K} (h : l.Good L) (hc : ∀ v, (k, v) ∉ l.flushed)
    (hstep : l.step L (.delete k) = some l') : l'.Good L := by
  cases hstep
  refine ⟨h.functional.mono fun e he => (mem_removeKey.mp he).1, fun k' => ?_, h.written,
    h.distinct, h.paged, fun e he => ?_, nofun⟩
  · show update l.contents k none k' = valueOf (removeKey l.index.cache k) k'
    rw [valueOf_removeKey h.functional]
    split
    next hk => rw [hk, update_self]
    next hk => rw [update_of_ne hk, h.contents]
  · obtain ⟨v', hv'⟩ := h.kept e he
    have hk : e.1 ≠ k := by
      rintro rfl
      exact hc e.2 he
    exact ⟨v', mem_removeKey.mpr ⟨hv', hk⟩⟩

theorem Good.flush {order : List (K × UInt64)} (h : l.Good L)
    (hstep : l.step L (.flush order) = some l') : l'.Good L := by
  change (if order.Perm l.index.cache then some _ else none) = some l' at hstep
  obtain ⟨hperm, rfl⟩ := Option.ite_some_none_eq_some.mp hstep
  by_cases hcache : l.index.cache = []
  · -- nothing was ever flushed
    have hflushed : l.flushed = [] := by
      refine eq_nil_iff_forall_not_mem.mpr fun e he => ?_
      obtain ⟨v, hv⟩ := h.kept e he
      rw [hcache] at hv
      cases hv
    have hsame : l.index.flush L order = l.index := by
      unfold OnDiskHashIndex.flush
      rw [if_pos hcache, if_neg (by rw [h.paged.mpr hflushed]; decide)]
    rw [if_pos hcache, hsame]
    refine ⟨h.functional, h.contents, h.written, h.distinct, h.paged, h.kept, fun _ e => ?_⟩
    show e ∈ l.flushed ↔ e ∈ l.index.cache
    rw [hflushed, hcache]
  · have hkeeps : (l.index.flush L order).cache = l.index.cache := by
      unfold OnDiskHashIndex.flush
      rw [if_neg hcache]
    have hpages : (l.index.flush L order).numPages ≠ 0 := by
      unfold OnDiskHashIndex.flush pagesNeeded
      rw [if_neg hcache]
      dsimp only
      omega
    have horder : order ≠ [] := by
      rintro rfl
      exact hcache hperm.symm.eq_nil
    rw [if_neg hcache]
    refine ⟨?_, ?_, flush_written hcache, ?_, ?_, ?_, ?_⟩
    · show Functional (l.index.flush L order).cache
      rw [hkeeps]
      exact h.functional
    · intro k
      show l.contents k = valueOf (l.index.flush L order).cache k
      rw [hkeeps]
      exact h.contents k
    · exact h.functional.mono fun e he => hperm.mem_iff.mp he
    · exact ⟨fun hzero => absurd hzero hpages, fun hnil => absurd hnil horder⟩
    · intro e he
      show ∃ v, (e.1, v) ∈ (l.index.flush L order).cache
      rw [hkeeps]
      exact ⟨e.2, hperm.mem_iff.mp he⟩
    · intro _ e
      show e ∈ order ↔ e ∈ (l.index.flush L order).cache
      rw [hkeeps]
      exact hperm.mem_iff

theorem Good.rebuildFromDisk (h : l.Good L) (hunchanged : l.changed = false)
    (hroomy : Roomy L l.index.numPages l.flushed) (hstep : l.step L .rebuildFromDisk = some l') :
    l'.Good L := by
  cases hstep
  obtain ⟨hfun, hmem⟩ := rebuild_spec h.written h.distinct hroomy h.paged.mp
  have hcache : ∀ e, e ∈ (l.index.rebuildFromDisk L).cache ↔ e ∈ l.index.cache :=
    fun e => (hmem e).trans (h.same hunchanged e)
  refine ⟨hfun, fun k => ?_, h.written, h.distinct, h.paged, fun e he =>
    ⟨e.2, (hmem e).mpr he⟩, fun _ e => (hmem e).symm⟩
  rw [h.contents k]
  refine Option.ext fun v => ?_
  rw [valueOf_eq_some h.functional, valueOf_eq_some hfun, hcache]

theorem Good.step (h : l.Good L) (hc : l.Careful L c) (hstep : l.step L c = some l') : l'.Good L := by
  cases c with
  | insert => exact h.insert hstep
  | delete => exact h.delete hc hstep
  | flush => exact h.flush hstep
  | rebuildFromDisk => exact h.rebuildFromDisk hc.1 hc.2 hstep

/-- After any careful run the index answers as the finite map of its entries. -/
theorem index_refines_map (calls : List (IndexCall K)) (hrun : run (step L) new calls = some l)
    (hm : Meets (step L) (Careful L) new calls) (k : K) : l.index.lookup L k = l.contents k := by
  have hgood := run_keeps (fun s c t hs hc ht => hs.step hc ht) hrun hm good_new
  exact hgood.lookup_eq k

def wordLayout : IndexLayout Nat := ⟨id, 8, 8192⟩

instance (numPages : Nat) (entries : List (K × UInt64)) : Decidable (Roomy L numPages entries) :=
  inferInstanceAs (Decidable (∀ p < numPages, (onPage L numPages entries p).length ≤ slotsPerPage ∧
    ∀ i < (onPage L numPages entries p).length, L.slotFits i = true))

instance (l : IndexLedger K) : (c : IndexCall K) → Decidable (l.Careful L c)
  | .delete k => decidable_of_iff (∀ e ∈ l.flushed, e.1 ≠ k)
      ⟨fun h v hv => h (k, v) hv rfl, fun h e he hk => h e.2 (hk ▸ he)⟩
  | .rebuildFromDisk => inferInstanceAs (Decidable (_ ∧ _))
  | .insert _ _ | .flush _ => .isTrue trivial

def indexSession : List (IndexCall Nat) :=
  [.insert 1 10, .flush [(1, 10)], .rebuildFromDisk, .insert 2 20, .delete 2]

theorem index_refines_map_session :
    ∃ l, run (step wordLayout) new indexSession = some l ∧ ∀ k, l.index.lookup wordLayout k =
      l.contents k :=
  ⟨_, rfl, index_refines_map indexSession rfl (meets_of_check (by decide +kernel))⟩

theorem deleted_key_found :
    ∃ l, run (step wordLayout) new [.insert 1 10, .flush [(1, 10)], .delete 1] = some l ∧
      l.contents 1 = none ∧ l.index.lookup wordLayout 1 = some 10 :=
  ⟨_, rfl, rfl, by decide +kernel⟩

end IndexLedger

end Akar
