import Akar.ArtScan
import Akar.PrimaryKeyIndex

namespace Akar

open List Option ArtNode Children Function

namespace ArtNode

variable {node node' child : ArtNode} {byte b : UInt8} {key rest k p : List UInt8} {offset n n' : Nat}

def nodePaths (node : ArtNode) : List (List UInt8) :=
  node.path :: node.children.ordered.attach.flatMap fun entry =>
    (nodePaths entry.1.2).map fun p => node.path ++ entry.1.1 :: p
termination_by node
decreasing_by exact sizeOf_ordered entry.2

theorem mem_nodePaths (h : node.Valid) :
    p ∈ node.nodePaths ↔
      p = node.path ∨ ∃ b c q, node.children.get b = some c ∧ q ∈ c.nodePaths ∧ p = node.path ++
        b :: q := by
  rw [nodePaths, mem_cons, mem_flatMap]
  apply or_congr_right
  constructor
  · rintro ⟨⟨⟨b, c⟩, hentry⟩, _, hp⟩
    obtain ⟨q, hq, rfl⟩ := mem_map.mp hp
    rw [ordered_eq h.children] at hentry
    exact ⟨b, c, q, mem_spread.mp hentry, hq, rfl⟩
  · rintro ⟨b, c, q, hget, hq, rfl⟩
    have hentry : (b, c) ∈ node.children.ordered := by
      rw [ordered_eq h.children]
      exact mem_spread.mpr hget
    exact ⟨⟨(b, c), hentry⟩, mem_attach _ _, mem_map.mpr ⟨q, hq, rfl⟩⟩

theorem path_le_of_mem (h : node.Valid) (hp : p ∈ node.nodePaths) : node.path <+: p := by
  rcases (mem_nodePaths h).mp hp with rfl | ⟨_, _, _, _, _, rfl⟩
  · exact prefix_refl _
  · exact prefix_append _ _

theorem path_mem (node : ArtNode) : node.path ∈ node.nodePaths := by
  rw [nodePaths]
  exact mem_cons_self

theorem mem_nodePaths_past (h : node.Valid) (hget : node.children.get byte = some child) :
    node.path ++ byte :: rest ∈ node.nodePaths ↔ rest ∈ child.nodePaths := by
  rw [mem_nodePaths h]
  constructor
  · rintro (heq | ⟨b, c, q, hc, hq, heq⟩)
    · simp at heq
    · obtain ⟨rfl, rfl⟩ := cons.inj (append_cancel_left heq)
      rw [hget] at hc
      cases hc
      exact hq
  · intro hrest
    exact .inr ⟨byte, child, rest, hget, hrest, rfl⟩

def Accepts (node : ArtNode) (key : List UInt8) : Prop :=
  key ∈ node.nodePaths ∨ ∀ p ∈ node.nodePaths, ¬key <+: p

theorem accepts_past (h : node.Valid) (hget : node.children.get byte = some child) :
    node.Accepts (node.path ++ byte :: rest) ↔ child.Accepts rest := by
  unfold Accepts
  rw [mem_nodePaths_past h hget]
  apply or_congr_right
  constructor
  · intro hall q hq hrest
    refine hall (node.path ++ byte :: q) ((mem_nodePaths_past h hget).mpr hq) ?_
    rw [prefix_append_right_inj, cons_prefix_cons]
    exact ⟨rfl, hrest⟩
  · intro hall p hp hkey
    rcases (mem_nodePaths h).mp hp with rfl | ⟨b, c, q, hc, hq, rfl⟩
    · have hle := hkey.length_le
      rw [length_append, length_cons] at hle
      omega
    · rw [prefix_append_right_inj, cons_prefix_cons] at hkey
      obtain ⟨rfl, hrest⟩ := hkey
      rw [hget] at hc
      cases hc
      exact hall q hq hrest

theorem insertInternal_isSome_iff (h : node.Valid) (key : List UInt8) (offset n : Nat) :
    (node.insertInternal key offset n).isSome = true ↔ node.Accepts key := by
  induction node using tree_induction generalizing key with
  | step node ih =>
    cases beside node.path key with
    | ends =>
      rw [insertInternal_path]
      exact ⟨fun _ => .inl node.path_mem, fun _ => rfl⟩
    | past byte =>
      cases hget : node.children.get byte with
      | none =>
        rw [insertInternal_missing hget]
        refine ⟨fun _ => .inr fun p hp hkey => ?_, fun _ => rfl⟩
        rcases (mem_nodePaths h).mp hp with rfl | ⟨b, c, q, hc, hq, rfl⟩
        · have hle := hkey.length_le
          rw [length_append, length_cons] at hle
          omega
        · rw [prefix_append_right_inj, cons_prefix_cons] at hkey
          rw [← hkey.1, hget] at hc
          cases hc
      | some child =>
        rw [insertInternal_child hget, isSome_map, ih byte child hget (h.descend hget),
          accepts_past h hget]
    | inside _ byte rest hin =>
      rw [insertInternal_inside hin]
      refine ⟨nofun, fun hacc => ?_⟩
      have hkey : key <+: node.path := by
        rw [hin]
        exact prefix_append _ _
      rcases hacc with hmem | hall
      · exact absurd (path_le_of_mem h hmem) (not_path_of_inside hin)
      · exact absurd hkey (hall _ node.path_mem)
    | leaves shared a s b r hab hout =>
      rw [insertInternal_leaves hab hout]
      refine ⟨fun _ => .inr fun p hp hkey => ?_, fun _ => rfl⟩
      have hpath := path_le_of_mem h hp
      obtain ⟨t, rfl⟩ := hpath
      rw [hout, append_assoc, prefix_append_right_inj, cons_append, cons_prefix_cons] at hkey
      exact hab hkey.1.symm

theorem nodePaths_withChild {cs : Children ArtNode} (h : node.Valid)
    (hcs : node.children.Inserted byte child cs)
    (hchild : child.Valid) (hp : p ∈ ({ node with children := cs } : ArtNode).nodePaths) :
    p ∈ node.nodePaths ∨ ∃ q ∈ child.nodePaths, p = node.path ++ byte :: q := by
  rcases (mem_nodePaths (h.withChild hcs hchild)).mp hp with rfl | ⟨b, c, q, hc, hq, rfl⟩
  · exact .inl node.path_mem
  · have hc' := (hcs.get b).symm.trans hc
    split at hc'
    next heq =>
      cases hc'
      subst heq
      exact .inr ⟨q, hq, rfl⟩
    next => exact .inl ((mem_nodePaths h).mpr (.inr ⟨b, c, q, hc', hq, rfl⟩))

theorem nodePaths_of_same (hpath : node'.path = node.path)
    (hchildren : node'.children = node.children) :
    node'.nodePaths = node.nodePaths := by
  obtain ⟨path, offsets, overflow, children⟩ := node
  cases hpath
  cases hchildren
  rw [nodePaths, nodePaths]

theorem eq_of_mem_newLeaf {path : List UInt8} (hp : p ∈ (newLeaf path offset).nodePaths) : p =
    path := by
  rcases (mem_nodePaths (valid_newLeaf path offset)).mp hp with rfl | ⟨_, _, _, hget, _⟩
  · rfl
  · cases hget

theorem nodePaths_forked {shared s r : List UInt8} {a b : UInt8} (h : node.Valid) (hab : a ≠ b)
    (hpath : node.path = shared ++ a :: s) (hp : p ∈ (node.forked shared a b r offset).nodePaths) :
    p ∈ node.nodePaths ∨ p <+: shared ++ b :: r := by
  obtain ⟨hold, hs, hget, -⟩ := existingChild_spec h hpath
  rcases (mem_nodePaths (forked_spec (r := r) h hab hpath offset).1).mp hp with rfl | ⟨c, d, q, hd,
    hq, rfl⟩
  · exact .inr (prefix_append _ _)
  · rcases child_of_forked hab hd with ⟨rfl, rfl⟩ | ⟨rfl, rfl⟩
    · rw [eq_of_mem_newLeaf hq]
      exact .inr (prefix_refl _)
    · left
      -- the lower half has the paths of the old node, cut after the fork
      show shared ++ c :: q ∈ node.nodePaths
      rcases (mem_nodePaths hold).mp hq with rfl | ⟨b', c', q', hc', hq', rfl⟩
      · rw [hs, ← hpath]
        exact node.path_mem
      · refine (mem_nodePaths h).mpr (.inr ⟨b', c', q', (hget b').symm.trans hc', hq', ?_⟩)
        rw [hs, hpath, append_assoc, cons_append]

theorem nodePaths_insertInternal (h : node.Valid)
    (hs : node.insertInternal key offset n = some (node', n'))
    (hp : p ∈ node'.nodePaths) : p ∈ node.nodePaths ∨ p <+: key := by
  induction node using tree_induction generalizing key node' p with
  | step node ih =>
    cases beside node.path key with
    | ends =>
      rw [insertInternal_path] at hs
      obtain ⟨rfl, rfl⟩ := Prod.mk.inj (some.inj hs)
      obtain ⟨hc, hpath⟩ := children_addOffset node offset
      rw [nodePaths_of_same hpath hc] at hp
      exact .inl hp
    | past byte rest =>
      cases hget : node.children.get byte with
      | none =>
        rw [insertInternal_missing hget] at hs
        obtain ⟨rfl, rfl⟩ := Prod.mk.inj (some.inj hs)
        have hcs := inserted_insert h.children hget (newLeaf rest offset)
        rcases nodePaths_withChild h hcs (valid_newLeaf rest offset) hp with hold | ⟨q, hq, rfl⟩
        · exact .inl hold
        · rw [eq_of_mem_newLeaf hq]
          exact .inr (prefix_refl _)
      | some child =>
        rw [insertInternal_child hget] at hs
        obtain ⟨⟨child', m⟩, hchild, heq⟩ := map_eq_some_iff.mp hs
        obtain ⟨rfl, rfl⟩ := Prod.mk.inj heq
        have hvalid := (insertInternal_spec (h.descend hget) hchild).1
        have hcs := inserted_set h.children hget child'
        rcases nodePaths_withChild h hcs hvalid hp with hold | ⟨q, hq, rfl⟩
        · exact .inl hold
        · rcases ih byte child hget (h.descend hget) hchild hq with hold | hrest
          · exact .inl ((mem_nodePaths_past h hget).mpr hold)
          · right
            rw [prefix_append_right_inj, cons_prefix_cons]
            exact ⟨rfl, hrest⟩
    | inside _ byte rest hin =>
      rw [insertInternal_inside hin] at hs
      cases hs
    | leaves shared a s b r hab hout =>
      rw [insertInternal_leaves hab hout] at hs
      obtain ⟨rfl, rfl⟩ := Prod.mk.inj (some.inj hs)
      exact nodePaths_forked h hab hout hp

theorem nodePaths_eraseInternal (h : node.Valid)
    (hp : p ∈ (node.eraseInternal key offset).1.nodePaths) :
    p ∈ node.nodePaths := by
  induction node using tree_induction generalizing key p with
  | step node ih =>
    cases along node.path key with
    | ends =>
      obtain ⟨-, hpath, hc, -⟩ := removeOffset_spec h offset
      rw [eraseInternal_path, nodePaths_of_same hpath hc] at hp
      exact hp
    | past byte rest =>
      cases hget : node.children.get byte with
      | none =>
        rw [eraseInternal_missing hget] at hp
        exact hp
      | some child =>
        rw [eraseInternal_child hget] at hp
        have hvalid := (eraseInternal_spec (h.descend hget) rest offset).1
        have hcs := inserted_set h.children hget (child.eraseInternal rest offset).1
        rcases nodePaths_withChild h hcs hvalid hp with hold | ⟨q, hq, rfl⟩
        · exact hold
        · exact (mem_nodePaths_past h hget).mpr (ih byte child hget (h.descend hget) hq)
    | off hnot =>
      rw [eraseInternal_of_not hnot] at hp
      exact hp

end ArtNode

inductive ArtOp where
  | insert (key : List UInt8) (rowOffset : Nat)
  | delete (key : List UInt8) (rowOffset : Nat)

namespace ArtOp

def file (stored : List (List UInt8 × Nat)) : ArtOp → List (List UInt8 × Nat)
  | .insert key rowOffset => if key = [] then stored else stored ++ [(key, rowOffset)]
  | .delete key rowOffset => if key = [] then stored else stored.erase (key, rowOffset)

def act (ix : ArtIndex) : ArtOp → ArtIndex
  | .insert key rowOffset => ix.insert key rowOffset
  | .delete key rowOffset => ix.delete key rowOffset

def stored (ops : List ArtOp) : List (List UInt8 × Nat) := ops.foldl file []

end ArtOp

theorem map_pair_offsets (stored : List (List UInt8 × Nat)) (k : List UInt8) :
    ((stored.filter (·.1 = k)).map (·.2)).map (k, ·) = stored.filter (·.1 = k) := by
  rw [List.map_map]
  refine (map_congr_left fun e he => ?_).trans (List.map_id' _)
  have hk := of_decide_eq_true (mem_filter.mp he).2
  rw [← hk]
  rfl

theorem map_filter_erase (stored : List (List UInt8 × Nat)) (key k : List UInt8) (offset : Nat) :
    ((stored.erase (key, offset)).filter (·.1 = k)).map (·.2) =
      if k = key then ((stored.filter (·.1 = key)).map (·.2)).erase offset
      else (stored.filter (·.1 = k)).map (·.2) := by
  rw [← erase_filter]
  split
  next hk =>
    subst hk
    conv_lhs => rw [← map_pair_offsets stored k]
    rw [← map_erase fun _ _ h => (Prod.mk.inj h).2, List.map_map]
    exact List.map_id' _
  next hk =>
    rw [erase_of_not_mem]
    simpa using fun _ h => hk h.symm

theorem mem_map_filter {stored : List (List UInt8 × Nat)} {key : List UInt8} {offset : Nat} :
    offset ∈ (stored.filter (·.1 = key)).map (·.2) ↔ (key, offset) ∈ stored := by
  rw [List.mem_map]
  constructor
  · rintro ⟨⟨key', offset'⟩, he, rfl⟩
    obtain ⟨hmem, hkey⟩ := mem_filter.mp he
    obtain rfl := of_decide_eq_true hkey
    exact hmem
  · intro hmem
    exact ⟨(key, offset), mem_filter.mpr ⟨hmem, decide_eq_true rfl⟩, rfl⟩

theorem lookup_eq_head? (stored : List (List UInt8 × Nat)) (key : List UInt8) :
    stored.lookup key = ((stored.filter (·.1 = key)).map (·.2)).head? := by
  induction stored with
  | nil => rfl
  | cons e stored ih =>
    obtain ⟨key', offset⟩ := e
    by_cases hkey : key' = key
    · subst hkey
      simp
    · rw [lookup_cons_ite, if_neg fun heq => hkey heq.symm, filter_cons_of_neg (by simpa using hkey)]
      exact ih

namespace ArtPrimaryKeyIndex

variable {ix ix' : ArtPrimaryKeyIndex} {stored : List (List UInt8 × Nat)} {op : ArtOp}
    {ops : List ArtOp}

def step (ix : ArtPrimaryKeyIndex) : ArtOp → Option ArtPrimaryKeyIndex
  | .insert key rowOffset => ix.insert key rowOffset
  | .delete key rowOffset => some (ix.delete key rowOffset)

def Accepts (ix : ArtPrimaryKeyIndex) : ArtOp → Prop
  | .insert key _ => key = [] ∨ ix.root.Accepts key
  | .delete _ _ => True

structure Files (ix : ArtPrimaryKeyIndex) (stored : List (List UInt8 × Nat)) : Prop where
  valid : ix.root.Valid
  offsetsAt : ∀ k, ix.root.offsetsAt k = (stored.filter (·.1 = k)).map (·.2)
  numEntries : ix.numEntries = stored.length

theorem files_new : new.Files [] := by
  refine ⟨valid_newNode4, fun k => ?_, rfl⟩
  show ArtNode.newNode4.offsetsAt k = []
  rw [offsetsAt_of_leaf fun _ => rfl]
  split <;> rfl

theorem Files.step (h : ix.Files stored) (hstep : ix.step op = some ix') :
    ix'.Files (op.file stored) := by
  cases op with
  | insert key =>
    rw [ArtPrimaryKeyIndex.step, insert] at hstep
    rw [ArtOp.file]
    split at hstep
    next hkey =>
      cases hstep
      rw [if_pos hkey]
      exact h
    next hkey =>
      rw [if_neg hkey]
      obtain ⟨⟨root, m⟩, hroot, rfl⟩ := map_eq_some_iff.mp hstep
      obtain ⟨hvalid, hn, hfiles⟩ := insertInternal_spec h.valid hroot
      refine ⟨hvalid, fun k => ?_, ?_⟩
      · show root.offsetsAt k = _
        rw [hfiles, h.offsetsAt, filter_append, map_append, h.offsetsAt]
        by_cases hk : k = key
        · subst hk
          simp
        · have hk' : ¬key = k := fun heq => hk heq.symm
          simp [hk, hk']
      · show m = _
        rw [hn, h.numEntries, length_append]
        rfl
  | delete key rowOffset =>
    cases hstep
    rw [ArtOp.file, delete]
    split
    next => exact h
    next =>
      obtain ⟨hvalid, hfiles, hmem⟩ := eraseInternal_spec h.valid key rowOffset
      rw [h.offsetsAt, mem_map_filter] at hmem
      refine ⟨hvalid, fun k => ?_, ?_⟩
      · show (ix.root.eraseInternal key rowOffset).1.offsetsAt k = _
        rw [hfiles, h.offsetsAt, h.offsetsAt, map_filter_erase]
      · show (if (ix.root.eraseInternal key rowOffset).2 =
          true then ix.numEntries - 1 else ix.numEntries) = _
        rw [h.numEntries]
        split
        next hgone => rw [length_erase_of_mem (hmem.mp hgone)]
        next hkept => rw [erase_of_not_mem fun hh => hkept (hmem.mpr hh)]

theorem Files.run (h : ix.Files stored) (hrun : run ArtPrimaryKeyIndex.step ix ops = some ix') :
    ix'.Files (ops.foldl ArtOp.file stored) := by
  induction ops generalizing ix stored with
  | nil => cases hrun; exact h
  | cons op ops ih =>
    obtain ⟨t, hstep, hrest⟩ := run_cons_eq_some.mp hrun
    exact ih (h.step hstep) hrest

variable {view : ArtIndex}

theorem offsetsAt_step (hvalid : ix.root.Valid) (hview : ∀ k, ix.root.offsetsAt k = view.offsets k)
    (hstep : ix.step op = some ix') (k : List UInt8) : ix'.root.offsetsAt k =
      (op.act view).offsets k := by
  cases op with
  | insert key =>
    rw [ArtPrimaryKeyIndex.step, insert] at hstep
    rw [ArtOp.act, ArtIndex.insert]
    split at hstep
    next hkey =>
      cases hstep
      rw [if_pos hkey]
      exact hview k
    next hkey =>
      obtain ⟨⟨root, m⟩, hroot, rfl⟩ := map_eq_some_iff.mp hstep
      obtain ⟨-, -, hfiles⟩ := insertInternal_spec hvalid hroot
      rw [if_neg hkey]
      show root.offsetsAt k = update view.offsets key _ k
      rw [hfiles, update_apply, hview, hview]
  | delete key rowOffset =>
    cases hstep
    rw [ArtOp.act, ArtIndex.delete, delete]
    split
    next => exact hview k
    next =>
      obtain ⟨-, hfiles, -⟩ := eraseInternal_spec hvalid key rowOffset
      show (ix.root.eraseInternal key rowOffset).1.offsetsAt k = update view.offsets key _ k
      rw [hfiles, update_apply, hview, hview]

section

variable (h : ix.Files stored)
include h

/-- A run of tree operations acts on the offsets of a key as on those of a multimap. -/
theorem offsetsAt_run (hview : ∀ k, ix.root.offsetsAt k = view.offsets k)
    (hrun : run ArtPrimaryKeyIndex.step ix ops = some ix') (k : List UInt8) :
    ix'.root.offsetsAt k = (ops.foldl ArtOp.act view).offsets k := by
  induction ops generalizing ix stored view with
  | nil => cases hrun; exact hview k
  | cons op ops ih =>
    obtain ⟨t, hstep, hrest⟩ := run_cons_eq_some.mp hrun
    exact ih (h.step hstep) (offsetsAt_step h.valid hview hstep) hrest

theorem Files.lookup {k : List UInt8} (hk : k ≠ []) : ix.lookup k = stored.lookup k := by
  rw [ArtPrimaryKeyIndex.lookup, if_neg hk, lookup_eq_head?, ← h.offsetsAt, ArtNode.offsetsAt]
  cases ix.root.find k <;> rfl

theorem Files.entries : ix.root.entries = byKey stored := by
  apply eq_byKey (pairwise_entries h.valid)
  intro k
  rw [filter_entries h.valid, h.offsetsAt, map_pair_offsets]

theorem Files.rangeScan (q : RangeQuery) :
    ix.rangeScan q = (((byKey stored).filter fun e => q.inRange e.1).map (·.2)).take q.maxResults := by
  rw [ArtPrimaryKeyIndex.rangeScan, collectRange_eq q h.valid [] (Nat.zero_le _), h.entries]
  rfl

end

theorem step_isSome_iff (h : ix.root.Valid) : (ix.step op).isSome = true ↔ ix.Accepts op := by
  cases op with
  | insert =>
    rw [step, insert, Accepts]
    split
    next hkey => exact ⟨fun _ => .inl hkey, fun _ => rfl⟩
    next hkey =>
      rw [isSome_map, insertInternal_isSome_iff h]
      exact ⟨.inr, fun hh => hh.resolve_left hkey⟩
  | delete => exact ⟨fun _ => trivial, fun _ => rfl⟩

theorem run_isSome_iff (h : ix.Files stored) :
    (run ArtPrimaryKeyIndex.step ix ops).isSome = true ↔ Meets ArtPrimaryKeyIndex.step Accepts ix
      ops := by
  induction ops generalizing ix stored with
  | nil => exact ⟨fun _ => trivial, fun _ => rfl⟩
  | cons op ops ih =>
    have hfirst : (ix.step op).isSome = true ↔ ix.Accepts op := step_isSome_iff h.valid
    rw [Akar.run, Meets, ← hfirst]
    cases hstep : ix.step op with
    | none => simp
    | some t =>
      have hrest := ih (h.step hstep)
      simp only [bind_some, isSome_some, some.injEq, true_and, forall_eq']
      exact hrest

/-- The calls panic exactly where a key ends inside a compressed path, and otherwise the tree is the
multimap of the pairs that were inserted and not deleted. -/
theorem refines_multimap (ops : List ArtOp) :
    ((run ArtPrimaryKeyIndex.step new ops).isSome = true ↔
      Meets ArtPrimaryKeyIndex.step Accepts new ops) ∧
      ∀ ix, run ArtPrimaryKeyIndex.step new ops = some ix →
        (∀ k, k ≠ [] → ix.lookup k = (ArtOp.stored ops).lookup k) ∧ ix.len = (ArtOp.stored ops).length ∧
          ∀ (lowerInclusive upperInclusive : Bool) (maxResults : Nat),
            ix.rangeScan ⟨none, lowerInclusive, none, upperInclusive, maxResults⟩ =
              ((byKey (ArtOp.stored ops)).map (·.2)).take maxResults := by
  refine ⟨run_isSome_iff files_new, fun ix hrun => ?_⟩
  have hfiles : ix.Files (ArtOp.stored ops) := files_new.run hrun
  refine ⟨fun k hk => hfiles.lookup hk, hfiles.numEntries, fun li ui max => ?_⟩
  rw [hfiles.rangeScan]
  have hall : ((byKey (ArtOp.stored ops)).filter fun e =>
      RangeQuery.inRange ⟨none, li, none, ui, max⟩ e.1) =
      byKey (ArtOp.stored ops) := filter_eq_self.mpr fun _ _ => rfl
  rw [hall]

def PrefixFree (K : Set (List UInt8)) : Prop := ∀ k ∈ K, ∀ k' ∈ K, k <+: k' → k = k'

def PathsTo (K : Set (List UInt8)) (ix : ArtPrimaryKeyIndex) : Prop :=
  ix.root.Valid ∧ ∀ p ∈ ix.root.nodePaths, p = [] ∨ ∃ k ∈ K, p <+: k

theorem pathsTo_new (K : Set (List UInt8)) : PathsTo K new := by
  refine ⟨valid_newNode4, fun p hp => ?_⟩
  rcases (mem_nodePaths valid_newNode4).mp hp with rfl | ⟨_, _, _, hget, _⟩
  · exact .inl rfl
  · cases hget

variable {K : Set (List UInt8)}

theorem PathsTo.accepts {key : List UInt8} (h : PathsTo K ix) (hK : PrefixFree K) (hkey : key ∈ K)
    (rowOffset : Nat) : ix.Accepts (.insert key rowOffset) := by
  by_cases hnil : key = []
  · exact .inl hnil
  · by_cases hmem : key ∈ ix.root.nodePaths
    · exact .inr (.inl hmem)
    · refine .inr (.inr fun p hp hpre => ?_)
      rcases h.2 p hp with rfl | ⟨k, hk, hpk⟩
      · exact hnil (prefix_nil.mp hpre)
      · have heq := hK key hkey k hk (hpre.trans hpk)
        have hp' : p = key := IsPrefix.eq_of_length_le (heq ▸ hpk) hpre.length_le
        exact hmem (hp' ▸ hp)

theorem PathsTo.step (h : PathsTo K ix) (hop : ∀ key off, op = .insert key off → key ∈ K)
    (hstep : ix.step op = some ix') : PathsTo K ix' := by
  cases op with
  | insert key rowOffset =>
    rw [ArtPrimaryKeyIndex.step, insert] at hstep
    split at hstep
    next => cases hstep; exact h
    next =>
      obtain ⟨⟨root, m⟩, hroot, rfl⟩ := map_eq_some_iff.mp hstep
      refine ⟨(insertInternal_spec h.1 hroot).1, fun p hp => ?_⟩
      rcases nodePaths_insertInternal h.1 hroot hp with hold | hnew
      · exact h.2 p hold
      · exact .inr ⟨key, hop key rowOffset rfl, hnew⟩
  | delete key rowOffset =>
    cases hstep
    rw [delete]
    split
    next => exact h
    next =>
      exact ⟨(eraseInternal_spec h.1 key rowOffset).1, fun p hp =>
        h.2 p (nodePaths_eraseInternal h.1 hp)⟩

theorem PathsTo.meets (h : PathsTo K ix) (hK : PrefixFree K)
    (hops : ∀ key off, ArtOp.insert key off ∈ ops → key ∈ K) :
      Meets ArtPrimaryKeyIndex.step Accepts ix ops := by
  induction ops generalizing ix with
  | nil => trivial
  | cons op ops ih =>
    refine ⟨?_, fun t hstep => ?_⟩
    · cases op with
      | insert key off => exact h.accepts hK (hops key off mem_cons_self) off
      | delete => trivial
    · have ht : PathsTo K t := h.step (fun key off heq => hops key off (heq ▸ mem_cons_self)) hstep
      exact ih ht fun key off hmem => hops key off (mem_cons_of_mem _ hmem)

def forkedKeys : List ArtOp := [.insert [1, 3] 5, .insert [1, 2] 7, .insert [1, 2] 9, .delete [1, 2] 7]

theorem run_forkedKeys : ∃ ix, run ArtPrimaryKeyIndex.step new forkedKeys = some ix := by
  have hfree : PrefixFree {[1, 2], [1, 3]} := by
    intro k hk k' hk'
    rcases hk with rfl | rfl <;> rcases hk' with rfl | rfl <;> decide
  have hmeets : Meets ArtPrimaryKeyIndex.step Accepts new forkedKeys := by
    apply (pathsTo_new _).meets hfree
    intro key off hmem
    simp only [forkedKeys, mem_cons, ArtOp.insert.injEq, reduceCtorEq, not_mem_nil, or_false] at hmem
    rcases hmem with ⟨rfl, rfl⟩ | ⟨rfl, rfl⟩ | ⟨rfl, rfl⟩
    · exact .inr rfl
    · exact .inl rfl
    · exact .inl rfl
  exact isSome_iff_exists.mp ((run_isSome_iff files_new).mpr hmeets)

theorem refines_multimap_forkedKeys :
    ∃ ix, run ArtPrimaryKeyIndex.step new forkedKeys = some ix ∧ ix.lookup [1, 2] = some 9 ∧
      ix.len = 2 := by
  obtain ⟨ix, hrun⟩ := run_forkedKeys
  obtain ⟨hlookup, hlen, -⟩ := (refines_multimap forkedKeys).2 ix hrun
  exact ⟨ix, hrun, hlookup [1, 2] (by decide), hlen⟩

/-- Of the two rows under one key, the deleted one is gone and the other still there. -/
theorem offsetsAt_run_forkedKeys : ∃ ix, run ArtPrimaryKeyIndex.step new forkedKeys = some ix ∧
    ix.root.offsetsAt [1, 2] = [9] ∧ ix.root.offsetsAt [1, 3] = [5] := by
  obtain ⟨ix, hrun⟩ := run_forkedKeys
  have hnew : ∀ k, ArtPrimaryKeyIndex.new.root.offsetsAt k = ArtIndex.empty.offsets k :=
    files_new.offsetsAt
  have hoffsets := offsetsAt_run files_new hnew hrun
  exact ⟨ix, hrun, hoffsets [1, 2], hoffsets [1, 3]⟩

/-- The root once `ab` is filed: a leaf whose path is the rest of the key. -/
def oneKey : ArtNode := { ArtNode.newNode4 with children := .node4 [(97, .newLeaf [98] 0)] }

theorem insert_shorter_key_panics :
    run ArtPrimaryKeyIndex.step new [.insert [97, 98] 0, .insert [97] 1] = none := by
  have hfirst : ArtNode.newNode4.insertInternal [97, 98] 0 0 = some (oneKey, 1) :=
    insertInternal_missing (show ArtNode.newNode4.children.get 97 = none from rfl) [98] 0 0
  have hinside :=
    insertInternal_inside (show (ArtNode.newLeaf [98] 0).path = [] ++ 98 :: [] from rfl) 1 1
  have hsecond : oneKey.insertInternal [97] 1 1 = none := by
    have hchild :=
      insertInternal_child (show oneKey.children.get 97 = some (.newLeaf [98] 0) from rfl) [] 1 1
    rw [hinside] at hchild
    exact hchild
  have hstep : new.step (.insert [97, 98] 0) = some ⟨oneKey, 1⟩ := by
    show (ArtNode.newNode4.insertInternal [97, 98] 0 0).map _ = _
    rw [hfirst]
    rfl
  have hpanic : step ⟨oneKey, 1⟩ (.insert [97] 1) = none := by
    show (oneKey.insertInternal [97] 1 1).map _ = _
    rw [hsecond]
    rfl
  rw [Akar.run, hstep, bind_some, Akar.run, hpanic]
  rfl

end ArtPrimaryKeyIndex

end Akar
