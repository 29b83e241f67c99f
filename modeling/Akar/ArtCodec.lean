import Akar.ArtCount
import Akar.NodeTable
import Akar.Varint

open ByteCodec

namespace Akar

open List ArtNode Children

variable {b : UInt8} {child : Reader Halt ArtNode} {len fuel : Nat}

namespace Children

variable {α : Type} {cs : Children α} {c : α}

def kind : Children α → Nat
  | .node4 _ => 0
  | .node16 _ => 1
  | .node48 _ _ => 2
  | .node256 _ => 3

theorem kind_lt (cs : Children α) : cs.kind < 4 := by
  cases cs <;> simp [kind]

theorem sizeOf_lt_of_pairs [SizeOf α] (h : (b, c) ∈ cs.pairs) : sizeOf c < sizeOf cs := by
  have hmem : (b, c) ∈ cs.ordered := by
    cases cs with
    | node4 slots | node16 slots => exact mem_mergeSort.mpr h
    | node48 | node256 => exact h
  exact sizeOf_lt_of_ordered hmem

theorem mem_pairs (h : cs.Valid) : (b, c) ∈ cs.pairs ↔ cs.get b = some c := by
  rw [mem_iff_lookup (nodup_pairs h), lookup_pairs]

end Children

namespace ArtNode

theorem sizeOf_pair {node child : ArtNode} {b : UInt8} (h : (b, child) ∈ node.children.pairs) :
    sizeOf child < sizeOf node := by
  have hlt := sizeOf_lt_of_pairs h
  cases node
  simp only [mk.sizeOf_spec] at *
  omega

def serializeNode (node : ArtNode) : Bytes :=
  writeVarint node.children.kind ++ (writeVarint node.path.length ++ (node.path ++
    (writeVarint node.allOffsets.length ++
      (node.allOffsets.flatMap writeVarint ++ (writeVarint node.children.count ++
        node.children.pairs.attach.flatMap fun entry => entry.1.1 :: serializeNode entry.1.2)))))
termination_by node
decreasing_by exact sizeOf_pair entry.2

def serializedNodeSize (node : ArtNode) : Nat :=
  varintLen node.children.kind + (varintLen node.path.length + node.path.length) +
    (varintLen node.allOffsets.length + (node.allOffsets.map varintLen).sum) + varintLen
      node.children.count +
      (node.children.pairs.attach.map fun entry => 1 + serializedNodeSize entry.1.2).sum
termination_by node
decreasing_by exact sizeOf_pair entry.2

end ArtNode

/-- How a read ends without a tree: with an error of the source, or not as a return at all. -/
inductive Halt where
  | storage (e : StorageError)
  | panic

def readArtVarint : Reader Halt Nat :=
  readVarint (.storage (.index "ART index data corrupt: varint has too many continuation bytes"))
    (.storage (.index "ART index data truncated: varint extends past end of buffer"))

/-- The bytes of a path; the length is checked before the slice is taken. -/
def readPath (pathLen : Nat) : Reader Halt Bytes :=
  Reader.exactly
    (.storage (.index "ART index data corrupt: prefix length exceeds remaining buffer")) pathLen

def readChildKey : Reader Halt UInt8
  | [] => .error (.storage (.index "ART index data truncated: child key extends past end of buffer"))
  | byte :: rest => .ok (byte, rest)

/-- The loop over the children, which writes to arrays of `cap` slots. -/
def readChildren (child : Reader Halt ArtNode) (cap : Nat) : Nat → List (UInt8 × ArtNode) →
    Reader Halt (List (UInt8 × ArtNode))
  | 0, slots => .pure slots
  | n + 1, slots =>
    readChildKey.bind fun byte =>
      if slots.length < cap then child.bind fun node =>
        readChildren child cap n (slots ++ [(byte, node)])
      else fun _ => .error .panic

def fill256 (slots : List (UInt8 × ArtNode)) : List (Option ArtNode) :=
  slots.foldl (fun filled slot => filled.set slot.1.toNat (some slot.2)) (replicate 256 none)

def layout : Nat → Option (Nat × (List (UInt8 × ArtNode) → Children ArtNode))
  | 0 => some (4, .node4)
  | 1 => some (16, .node16)
  | 2 => some (48, fun slots => .node48 (Children.indexSlots slots) (slots.map (·.2)))
  | 3 => some (256, fun slots => .node256 (fill256 slots))
  | _ => none

def readLayout (child : Reader Halt ArtNode) (kind numChildren : Nat) (path : Bytes)
    (offsets : List Nat) :
    Reader Halt ArtNode :=
  match layout kind with
  | some (cap, build) =>
    (readChildren child cap (min numChildren cap) []).bind fun slots =>
      .pure ⟨path, offsets.take 1, offsets.drop 1, build slots⟩
  | none => fun _ => .error (.storage (.index s!"ART index data corrupt: unknown node kind {kind}"))

/-- `deserialize_tree` from the position reached, in a buffer of `len` bytes; the recursion is cut
at `fuel`. -/
def readNode (len : Nat) : Nat → Reader Halt ArtNode
  | 0 => fun _ => .error .panic
  | fuel + 1 =>
    readArtVarint.bind fun kind =>
      readArtVarint.bind fun pathLen =>
        (readPath pathLen).bind fun path =>
          readArtVarint.bind fun numOffsets =>
            (Reader.many readArtVarint (min numOffsets len)).bind fun offsets =>
              readArtVarint.bind fun numChildren =>
                readLayout (readNode len fuel) (kind % 256) numChildren path offsets

def deserializeTree (data : Bytes) (pos : Nat) : Except Halt (ArtNode × Bytes) :=
  readNode data.length (data.length + 1) (data.drop pos)

section Avoids

variable {n len fuel : Nat}

theorem storage_ne_panic (e : StorageError) : Halt.storage e ≠ .panic := by
  nofun

theorem avoids_artVarint : readArtVarint.Avoids .panic n 1 :=
  Reader.avoids_varint (storage_ne_panic _) (storage_ne_panic _)

theorem avoids_childKey : readChildKey.Avoids .panic n 1 := by
  intro bs _
  cases bs with
  | nil =>
    refine ⟨fun h => storage_ne_panic _ (Except.error.inj h), fun a rest h => ?_⟩
    cases h
  | cons =>
    refine ⟨fun h => ?_, fun a rest h => ?_⟩
    · cases h
    · cases h
      exact le_rfl

theorem avoids_children (hchild : child.Avoids .panic n 0) {cap m : Nat}
    {slots : List (UInt8 × ArtNode)}
    (hroom : slots.length + m ≤ cap) : (readChildren child cap m slots).Avoids .panic n 0 := by
  induction m generalizing slots with
  | zero => exact Reader.avoids_pure _
  | succ m ih =>
    refine (avoids_childKey.weaken le_rfl (Nat.zero_le _)).then fun byte => ?_
    rw [if_pos (by omega)]
    refine hchild.then fun node => ih ?_
    rw [length_append, length_singleton]
    omega

theorem avoids_layout (hchild : child.Avoids .panic n 0) (kind numChildren : Nat) (path : Bytes)
    (offsets : List Nat) :
    (readLayout child kind numChildren path offsets).Avoids .panic n 0 := by
  unfold readLayout
  split
  next cap build _ =>
    refine (avoids_children hchild ?_).then fun slots => Reader.avoids_pure _
    rw [length_nil]
    omega
  next => exact fun _ _ => ⟨fun h => storage_ne_panic _ (Except.error.inj h), nofun⟩

theorem avoids_node (fuel : Nat) (hn : n < fuel) : (readNode len fuel).Avoids .panic n 0 := by
  induction fuel generalizing n with
  | zero => omega
  | succ fuel ih =>
    have hvar : readArtVarint.Avoids .panic (n - 1) 0 := avoids_artVarint.weaken le_rfl (Nat.zero_le _)
    refine (avoids_artVarint.bind fun hone kind => ?_).weaken le_rfl (Nat.zero_le (1 + 0))
    refine hvar.then fun pathLen => ?_
    refine (Reader.avoids_exactly (storage_ne_panic _) _).then fun path => ?_
    refine hvar.then fun numOffsets => ?_
    refine (Reader.avoids_many hvar _).then fun offsets => ?_
    exact hvar.then fun numChildren => avoids_layout (ih (by omega)) _ _ _ _

end Avoids

section Spread

variable {α β : Type}

theorem flatMap_spread (f : UInt8 → Option α) (g : UInt8 × α → List β) :
    (spread f).flatMap g = allBytes.flatMap fun b => (f b).elim [] fun c => g (b, c) := by
  unfold spread
  induction allBytes with
  | nil => rfl
  | cons b bytes ih =>
    rw [flatMap_cons, ← ih]
    cases hb : f b with
    | none => rw [filterMap_cons_none (by rw [hb]; rfl)]; rfl
    | some c => rw [filterMap_cons_some (by rw [hb]; rfl), flatMap_cons]; rfl

end Spread

section Pairs

variable {R : ArtNode → ArtNode → Prop} {ps qs : List (UInt8 × ArtNode)}

theorem exists_forall₂ {α : Type} {S : α → α → Prop} {as : List α} (h : ∀ a ∈ as, ∃ b, S a b) :
    ∃ bs, Forall₂ S as bs := by
  induction as with
  | nil => exact ⟨[], .nil⟩
  | cons a as ih =>
    obtain ⟨b, hb⟩ := h a mem_cons_self
    obtain ⟨bs, hbs⟩ := ih (forall_mem_cons.mp h).2
    exact ⟨b :: bs, .cons hb hbs⟩

theorem keys_of_forall₂ (h : Forall₂ (fun p q => p.1 = q.1 ∧ R p.2 q.2) ps qs) : qs.map (·.1) =
    ps.map (·.1) := by
  induction h with
  | nil => rfl
  | cons hpq _ ih => rw [map_cons, map_cons, ih, hpq.1]

theorem lookup_of_forall₂ (h : Forall₂ (fun p q => p.1 = q.1 ∧ R p.2 q.2) ps qs) (b : UInt8) :
    Option.Rel R (ps.lookup b) (qs.lookup b) := by
  induction h with
  | nil => exact .none
  | @cons p q ps qs hpq _ ih =>
    obtain ⟨byte, c⟩ := p
    obtain ⟨byte', c'⟩ := q
    obtain rfl := hpq.1
    rw [lookup_cons, lookup_cons]
    cases b == byte with
    | true => exact .some hpq.2
    | false => exact ih

end Pairs

theorem fill256_concat (slots : List (UInt8 × ArtNode)) (byte : UInt8) (node : ArtNode) :
    fill256 (slots ++ [(byte, node)]) = (fill256 slots).set byte.toNat (some node) :=
  foldl_concat ..

theorem length_fill256 (slots : List (UInt8 × ArtNode)) : (fill256 slots).length = 256 := by
  induction slots using List.reverseRecOn with
  | nil => exact length_replicate
  | append_singleton slots slot ih => rw [fill256_concat, length_set, ih]

theorem get_fill256 {slots : List (UInt8 × ArtNode)} (hn : (slots.map (·.1)).Nodup) (b : UInt8) :
    (Children.node256 (fill256 slots)).get b = slots.lookup b := by
  induction slots using List.reverseRecOn with
  | nil => exact get_clear (.node256 []) b
  | append_singleton slots slot ih =>
    obtain ⟨byte, node⟩ := slot
    rw [map_append, nodup_append] at hn
    have hnone : slots.lookup byte = none := by
      by_contra hsome
      obtain ⟨c, hc⟩ := Option.ne_none_iff_exists'.mp hsome
      have hmem : byte ∈ slots.map (·.1) := mem_map.mpr ⟨_, (mem_iff_lookup hn.1).mpr hc, rfl⟩
      exact hn.2.2 byte hmem byte mem_cons_self rfl
    rw [lookup_concat hnone, ← ih hn.1, fill256_concat]
    exact Children.get_node256_set (length_fill256 _) _ b

variable {kind cap : Nat} {build : List (UInt8 × ArtNode) → Children ArtNode}

theorem layout_spec {qs : List (UInt8 × ArtNode)} (h : layout kind = some (cap, build))
    (hlen : qs.length ≤ cap)
    (hn : (qs.map (·.1)).Nodup) : (build qs).Valid ∧ ∀ b, (build qs).get b = qs.lookup b := by
  unfold layout at h
  split at h
  next =>
    cases h
    exact ⟨⟨hlen, hn⟩, fun _ => rfl⟩
  next =>
    cases h
    exact ⟨⟨hlen, hn⟩, fun _ => rfl⟩
  next =>
    cases h
    exact growNode16_spec hlen hn
  next =>
    cases h
    exact ⟨length_fill256 qs, get_fill256 hn⟩
  next => cases h

theorem layout_cap (h : layout kind = some (cap, build)) : cap ≤ 256 := by
  unfold layout at h
  split at h <;> cases h <;> decide

theorem layout_kind {cs : Children ArtNode} (h : cs.Valid) (hcount : cs.Counted) :
    ∃ cap build, layout cs.kind = some (cap, build) ∧ cs.pairs.length ≤ cap := by
  cases cs with
  | node4 => exact ⟨4, _, rfl, h.1⟩
  | node16 => exact ⟨16, _, rfl, h.1⟩
  | node48 =>
    refine ⟨48, _, rfl, ?_⟩
    rw [length_pairs h, ← hcount]
    exact h.1
  | node256 =>
    refine ⟨256, _, rfl, ?_⟩
    have hbytes : allBytes.length = 256 := by
      rw [allBytes, length_map, length_range]
    rw [length_pairs h, ← hbytes]
    exact length_filterMap_le ..

namespace ArtNode

variable {node node' child : ArtNode}

def written (ps : List (UInt8 × ArtNode)) : Bytes := ps.flatMap fun p => p.1 :: p.2.serializeNode

theorem serializeNode_eq (node : ArtNode) :
    node.serializeNode = writeVarint node.children.kind ++
      (writeVarint node.path.length ++ (node.path ++
      (writeVarint node.allOffsets.length ++ (node.allOffsets.flatMap writeVarint ++
        (writeVarint node.children.count ++ written node.children.pairs))))) := by
  have hattach :
      (node.children.pairs.attach.flatMap fun entry => entry.1.1 :: entry.1.2.serializeNode) =
      written node.children.pairs := by
    exact congrArg List.flatten
      (attach_map_val (f := fun p : UInt8 × ArtNode => p.1 :: p.2.serializeNode))
  rw [serializeNode, hattach]

theorem serializedNodeSize_eq (node : ArtNode) :
    node.serializedNodeSize =
      varintLen node.children.kind + (varintLen node.path.length + node.path.length) +
      (varintLen node.allOffsets.length + (node.allOffsets.map varintLen).sum) + varintLen
    node.children.count + (node.children.pairs.map fun p => 1 + p.2.serializedNodeSize).sum := by
  have hattach : (node.children.pairs.attach.map fun entry => 1 + entry.1.2.serializedNodeSize) =
      node.children.pairs.map fun p => 1 + p.2.serializedNodeSize :=
    attach_map_val (f := fun p : UInt8 × ArtNode => 1 + p.2.serializedNodeSize)
  rw [serializedNodeSize, hattach]

theorem pair_induction {P : ArtNode → Prop}
    (step : ∀ node : ArtNode, (∀ p ∈ node.children.pairs, P p.2) → P node) (node : ArtNode) : P node :=
  step node fun p _hp => pair_induction step p.2
termination_by node
decreasing_by exact sizeOf_pair _hp

theorem length_flatMap_writeVarint (offsets : List Nat) :
    (offsets.flatMap writeVarint).length = (offsets.map varintLen).sum := by
  rw [length_flatMap]
  congr 2
  funext offset
  exact length_writeVarint offset

theorem serializedNodeSize_eq_length (node : ArtNode) : node.serializedNodeSize =
    node.serializeNode.length := by
  induction node using pair_induction with
  | step node ih =>
    have hchildren : (node.children.pairs.map fun p => 1 + p.2.serializedNodeSize).sum =
        (written node.children.pairs).length := by
      rw [written, length_flatMap]
      refine congrArg List.sum (map_congr_left fun p hp => ?_)
      rw [length_cons, ih p hp, Nat.add_comm]
    rw [serializedNodeSize_eq, serializeNode_eq, hchildren]
    simp only [length_append, length_writeVarint, length_flatMap_writeVarint]
    omega

theorem length_child_lt (h : (b, child) ∈ node.children.pairs) :
    child.serializeNode.length < node.serializeNode.length := by
  have hwritten : child.serializeNode.length + 1 ≤ (written node.children.pairs).length := by
    obtain ⟨before, after, hsplit⟩ := append_of_mem h
    rw [hsplit, written, flatMap_append, flatMap_cons]
    simp only [length_append, length_cons]
    omega
  rw [serializeNode_eq node]
  simp only [length_append]
  omega

theorem length_allOffsets_le (node : ArtNode) : node.allOffsets.length ≤ node.serializeNode.length := by
  have hoffsets : ∀ offsets : List Nat, offsets.length ≤ (offsets.flatMap writeVarint).length := by
    intro offsets
    induction offsets with
    | nil => exact le_rfl
    | cons offset =>
      have hpos := length_writeVarint_pos offset
      rw [flatMap_cons, length_append, length_cons]
      omega
  have hle := hoffsets node.allOffsets
  rw [serializeNode_eq]
  simp only [length_append]
  omega

theorem length_path_le (node : ArtNode) : node.path.length ≤ node.serializeNode.length := by
  rw [serializeNode_eq]
  simp only [length_append]
  omega

theorem entries_congr (h : node.Valid) (h' : node'.Valid) (hpath : node'.path = node.path)
    (hoffsets : node'.allOffsets = node.allOffsets)
    (hget : ∀ b, (node'.children.get b).map entries = (node.children.get b).map entries) :
    node'.entries = node.entries := by
  rw [entries_eq h', entries_eq h, hpath, hoffsets, flatMap_spread, flatMap_spread]
  congr 2
  funext b
  have hb := hget b
  cases hc : node.children.get b with
  | none =>
    rw [hc] at hb
    rw [Option.map_eq_none_iff.mp hb]
    rfl
  | some c =>
    rw [hc] at hb
    obtain ⟨c', hc', hentries⟩ := Option.map_eq_some_iff.mp hb
    rw [hc']
    show c'.entries.map _ = c.entries.map _
    rw [hentries, hpath]

end ArtNode

section Gives

variable {cap : Nat} {ps qs slots : List (UInt8 × ArtNode)}

theorem gives_artVarint {v : Nat} (hv : v < 2 ^ 64) : readArtVarint.Gives (writeVarint v) v :=
  Reader.gives_varint _ _ hv

theorem gives_childKey (byte : UInt8) : readChildKey.Gives [byte] byte := fun _ => rfl

theorem gives_children (h : Forall₂ (fun p q => p.1 = q.1 ∧ child.Gives p.2.serializeNode q.2) ps qs)
    (hroom : slots.length + ps.length ≤ cap) :
    (readChildren child cap ps.length slots).Gives (ArtNode.written ps) (slots ++ qs) := by
  induction h generalizing slots with
  | nil =>
    rw [append_nil]
    exact Reader.gives_pure slots
  | @cons p q ps qs hpq _ ih =>
    obtain ⟨byte, c⟩ := p
    obtain ⟨byte', c'⟩ := q
    obtain rfl := hpq.1
    rw [length_cons] at hroom
    have hwritten : ArtNode.written ((byte, c) :: ps) = [byte] ++
        (c.serializeNode ++ ArtNode.written ps) := rfl
    have hslots : slots ++ (byte, c') :: qs = slots ++ [(byte, c')] ++ qs := by
      rw [append_assoc]
      rfl
    rw [hwritten, hslots, length_cons, readChildren]
    refine (gives_childKey byte).bind ?_
    rw [if_pos (by omega)]
    refine hpq.2.bind (ih ?_)
    rw [length_append, length_singleton]
    omega

end Gives

namespace ArtNode

variable {node : ArtNode}

structure ReadBack (r : Reader Halt ArtNode) (node node' : ArtNode) : Prop where
  gives : r.Gives node.serializeNode node'
  valid : node'.Valid
  entries : node'.entries = node.entries

def rebuilt (node : ArtNode) (cs : Children ArtNode) : ArtNode :=
  ⟨node.path, node.allOffsets.take 1, node.allOffsets.drop 1, cs⟩

variable {cap : Nat} {build : List (UInt8 × ArtNode) → Children ArtNode} {qs : List (UInt8 × ArtNode)}

theorem rebuilt_spec {r : Reader Halt ArtNode} (hvalid : node.Valid)
    (hlayout : layout node.children.kind = some (cap, build)) (hroom : node.children.pairs.length ≤ cap)
    (hqs : Forall₂ (fun p q => p.1 = q.1 ∧ ReadBack r p.2 q.2) node.children.pairs qs) :
    (node.rebuilt (build qs)).Valid ∧ (node.rebuilt (build qs)).entries = node.entries := by
  have hkeys := keys_of_forall₂ hqs
  have hnum : qs.length = node.children.pairs.length := (Forall₂.length_eq hqs).symm
  obtain ⟨hbuilt, hget⟩ := layout_spec hlayout (hnum ▸ hroom) (hkeys ▸ nodup_pairs hvalid.children)
  -- the children under each byte, before and after
  have hrel (b : UInt8) := lookup_of_forall₂ hqs b
  simp only [lookup_pairs, ← hget] at hrel
  have hvalid' : (node.rebuilt (build qs)).Valid := by
    refine .intro hbuilt (length_take_le ..) (fun hnil => ?_) fun b c' hc' => ?_
    · show node.allOffsets.drop 1 = []
      cases hall : node.allOffsets with
      | nil => rfl
      | cons offset rest =>
        have hnil' : node.allOffsets.take 1 = [] := hnil
        rw [hall] at hnil'
        cases hnil'
    · have hb := hrel b
      have hbuild : (build qs).get b = some c' := hc'
      rw [hbuild] at hb
      generalize node.children.get b = old at hb
      cases hb with
      | some hback => exact hback.valid
  refine ⟨hvalid', entries_congr hvalid hvalid' rfl (take_append_drop ..) fun b => ?_⟩
  have hb := hrel b
  show ((build qs).get b).map ArtNode.entries = (node.children.get b).map ArtNode.entries
  generalize node.children.get b = old at hb ⊢
  generalize (build qs).get b = new at hb ⊢
  cases hb with
  | none => rfl
  | some hback => exact congrArg some hback.entries

theorem gives_rebuilt {m : Nat} (hvalid : node.Valid) (hcount : node.Counted)
    (hsmall : ∀ e ∈ node.entries, e.2 < 2 ^ 64) (hlen : node.serializeNode.length ≤ len)
    (hbuf : len < 2 ^ 64)
    (hlayout : layout node.children.kind = some (cap, build)) (hroom : node.children.pairs.length ≤ cap)
    (hqs : Forall₂ (fun p q => p.1 = q.1 ∧ ReadBack (readNode len m) p.2 q.2) node.children.pairs qs) :
    (readNode len (m + 1)).Gives node.serializeNode (node.rebuilt (build qs)) := by
  have hkind := kind_lt node.children
  have hpath := length_path_le node
  have hnumOffsets := length_allOffsets_le node
  have hcap := layout_cap hlayout
  have hpairs : node.children.count = node.children.pairs.length := by
    rw [length_pairs hvalid.children]
    exact hcount.children
  have hroom' : ([] : List (UInt8 × ArtNode)).length + node.children.pairs.length ≤ cap := by
    rw [length_nil]
    omega
  rw [serializeNode_eq, readNode]
  refine (gives_artVarint (by omega)).bind ((gives_artVarint (by omega)).bind ?_)
  refine (Reader.gives_exactly _ node.path).bind ((gives_artVarint (by omega)).bind ?_)
  rw [Nat.min_eq_left (by omega)]
  refine (Reader.gives_many fun offset ho => gives_artVarint ?_).bind ?_
  · refine hsmall (node.path, offset) ?_
    rw [entries_eq hvalid]
    exact mem_append_left _ (mem_map.mpr ⟨offset, ho, rfl⟩)
  · refine (gives_artVarint (by omega)).bind ?_
    have hread := gives_children (hqs.imp fun p q h => ⟨h.1, h.2.gives⟩) hroom'
    rw [Nat.mod_eq_of_lt (by omega), readLayout, hlayout, hpairs, ← append_nil (written _)]
    dsimp only
    rw [Nat.min_eq_left hroom]
    exact hread.bind (Reader.gives_pure _)

theorem readNode_serializeNode (hvalid : node.Valid) (hcount : node.Counted)
    (hsmall : ∀ e ∈ node.entries, e.2 < 2 ^ 64)
    (hfuel : node.serializeNode.length ≤ fuel) (hlen : node.serializeNode.length ≤ len)
    (hbuf : len < 2 ^ 64) :
    ∃ node', ReadBack (readNode len fuel) node node' := by
  induction node using tree_induction generalizing fuel with
  | step node ih =>
    have hpos : 0 < node.serializeNode.length := by
      have hkind := length_writeVarint_pos node.children.kind
      rw [serializeNode_eq, length_append]
      omega
    obtain ⟨m, rfl⟩ : ∃ m, fuel = m + 1 := ⟨fuel - 1, by omega⟩
    have hchildren : ∀ p ∈ node.children.pairs, ∃ q : UInt8 × ArtNode, p.1 = q.1 ∧
        ReadBack (readNode len m) p.2 q.2 := by
      intro p hp
      have hget := (mem_pairs hvalid.children).mp hp
      have hlt := length_child_lt hp
      have hsmall' : ∀ e ∈ p.2.entries, e.2 < 2 ^ 64 := by
        intro e he
        refine hsmall (node.path ++ p.1 :: e.1, e.2) ?_
        rw [entries_eq hvalid]
        exact mem_append_right _ (mem_flatMap.mpr ⟨p, mem_spread.mpr hget, mem_map.mpr ⟨e, he, rfl⟩⟩)
      obtain ⟨c', hback⟩ := @ih p.1 p.2 hget m (hvalid.descend hget) (hcount.descend hget) hsmall'
        (by omega) (by omega)
      exact ⟨(p.1, c'), rfl, hback⟩
    obtain ⟨qs, hqs⟩ := exists_forall₂ hchildren
    obtain ⟨cap, build, hlayout, hroom⟩ := layout_kind hvalid.children hcount.children
    obtain ⟨hvalid', hentries⟩ := rebuilt_spec hvalid hlayout hroom hqs
    exact ⟨_, gives_rebuilt hvalid hcount hsmall hlen hbuf hlayout hroom hqs, hvalid', hentries⟩

variable {node node' : ArtNode}

theorem offsetsAt_of_entries (h : node.Valid) (h' : node'.Valid)
    (he : node'.entries = node.entries) (k : List UInt8) :
    node'.offsetsAt k = node.offsetsAt k := by
  have hfilter := filter_entries h' k
  rw [he, filter_entries h k] at hfilter
  have hsnd := congrArg (List.map Prod.snd) hfilter
  rw [map_map, map_map] at hsnd
  have hid : (Prod.snd ∘ fun offset : Nat => (k, offset)) = id := rfl
  rw [hid, map_id, map_id] at hsnd
  exact hsnd.symm

end ArtNode

namespace ArtPrimaryKeyIndex

variable {ix : ArtPrimaryKeyIndex} {ops : List ArtOp}

def serializeTree (ix : ArtPrimaryKeyIndex) : Bytes := ix.root.serializeNode

def serializedTreeSize (ix : ArtPrimaryKeyIndex) : Nat := ix.root.serializedNodeSize

theorem lookup_eq_offsetsAt (ix : ArtPrimaryKeyIndex) (key : List UInt8) :
    ix.lookup key = if key = [] then none else (ix.root.offsetsAt key).head? := by
  rw [lookup, ArtNode.offsetsAt]
  cases ix.root.find key <;> rfl

theorem mem_of_stored {stored : List (List UInt8 × Nat)} {e : List UInt8 × Nat}
    (h : e ∈ ops.foldl ArtOp.file stored) :
    e ∈ stored ∨ ArtOp.insert e.1 e.2 ∈ ops := by
  induction ops generalizing stored with
  | nil => exact .inl h
  | cons op ops ih =>
    rcases ih h with hfile | hin
    · cases op with
      | insert =>
        rw [ArtOp.file] at hfile
        split at hfile
        next => exact .inl hfile
        next =>
          rcases mem_append.mp hfile with hold | hnew
          · exact .inl hold
          · rw [mem_singleton.mp hnew]
            exact .inr mem_cons_self
      | delete =>
        rw [ArtOp.file] at hfile
        split at hfile
        next => exact .inl hfile
        next => exact .inl (mem_of_mem_erase hfile)
    · exact .inr (mem_cons_of_mem _ hin)

theorem deserializeTree_returns (data : Bytes) (pos : Nat) :
    (∃ root rest, deserializeTree data pos = .ok (root, rest)) ∨ ∃ e, deserializeTree data pos =
      .error (.storage e) := by
  have hlen : (data.drop pos).length ≤ data.length := by
    rw [length_drop]
    omega
  obtain ⟨hpanic, -⟩ := @avoids_node data.length data.length (data.length + 1) (Nat.lt_succ_self _)
    (data.drop pos) hlen
  cases hresult : deserializeTree data pos with
  | ok result => exact .inl ⟨result.1, result.2, rfl⟩
  | error halt =>
    cases halt with
    | storage e => exact .inr ⟨e, rfl⟩
    | panic => exact absurd hresult hpanic

theorem reads_serializeTree (h : run step new ops = some ix)
    (hoffsets : ∀ key offset, ArtOp.insert key offset ∈ ops → offset < 2 ^ 64)
    (hsize : ix.serializeTree.length < 2 ^ 64) :
    ∃ root, deserializeTree ix.serializeTree 0 = .ok (root, []) ∧ root.Valid ∧ root.entries =
      ix.root.entries := by
  have hfiles := files_new.run h
  have hsmall : ∀ e ∈ ix.root.entries, e.2 < 2 ^ 64 := by
    intro e he
    rw [hfiles.entries] at he
    rcases mem_of_stored (mem_mergeSort.mp he) with hnone | hin
    · cases hnone
    · exact hoffsets e.1 e.2 hin
  obtain ⟨root, hback⟩ := readNode_serializeNode hfiles.valid (counted_run files_new counted_new h)
    hsmall
    (Nat.le_succ ix.serializeTree.length) (Nat.le_refl ix.serializeTree.length) hsize
  have hread := hback.gives []
  rw [append_nil] at hread
  exact ⟨root, hread, hback.valid, hback.entries⟩

/-- A tree that inserts and deletes lead to is read back, to the last byte, as one that answers the
same; its size is known without writing it; and no input makes the reading panic. -/
theorem serialize_round_trip (h : run step new ops = some ix)
    (hoffsets : ∀ key offset, ArtOp.insert key offset ∈ ops → offset < 2 ^ 64)
    (hsize : ix.serializeTree.length < 2 ^ 64) :
    (∃ root, deserializeTree ix.serializeTree 0 = .ok (root, []) ∧
        (∀ key, lookup ⟨root, ix.numEntries⟩ key = ix.lookup key) ∧
        ∀ q, rangeScan ⟨root, ix.numEntries⟩ q = ix.rangeScan q) ∧
      ix.serializedTreeSize = ix.serializeTree.length ∧
      ∀ (data : Bytes) (pos : Nat), (∃ root rest, deserializeTree data pos = .ok (root, rest)) ∨
        ∃ e, deserializeTree data pos = .error (.storage e) := by
  have hfiles := files_new.run h
  obtain ⟨root, hread, hvalid, hentries⟩ := reads_serializeTree h hoffsets hsize
  refine ⟨⟨root, hread, fun key => ?_, fun q => ?_⟩, serializedNodeSize_eq_length ix.root,
    deserializeTree_returns⟩
  · rw [lookup_eq_offsetsAt, lookup_eq_offsetsAt, offsetsAt_of_entries hfiles.valid hvalid hentries]
  · rw [rangeScan, rangeScan, collectRange_eq q hvalid [] (Nat.zero_le _),
      collectRange_eq q hfiles.valid [] (Nat.zero_le _), hentries]

def twoKeys : List ArtOp := [.insert [97, 98] 7, .insert [99] 8]

def twoLeaves : ArtNode :=
  { ArtNode.newNode4 with children := .node4 [(97, .newLeaf [98] 7), (99, .newLeaf [] 8)] }

def oneLeaf : ArtNode := { ArtNode.newNode4 with children := .node4 [(97, .newLeaf [98] 7)] }

theorem run_twoKeys : run step new twoKeys = some ⟨twoLeaves, 2⟩ := by
  have hfirst : ArtNode.newNode4.insertInternal [97, 98] 7 0 = some (oneLeaf, 1) :=
    insertInternal_missing (show ArtNode.newNode4.children.get 97 = none from rfl) [98] 7 0
  have hsecond : oneLeaf.insertInternal [99] 8 1 = some (twoLeaves, 2) :=
    insertInternal_missing (show oneLeaf.children.get 99 = none from rfl) [] 8 1
  have hstep : new.step (.insert [97, 98] 7) = some ⟨oneLeaf, 1⟩ := by
    show (ArtNode.newNode4.insertInternal [97, 98] 7 0).map _ = _
    rw [hfirst]
    rfl
  have hstep' : step ⟨oneLeaf, 1⟩ (.insert [99] 8) = some ⟨twoLeaves, 2⟩ := by
    show (oneLeaf.insertInternal [99] 8 1).map _ = _
    rw [hsecond]
    rfl
  rw [twoKeys, Akar.run, hstep, Option.bind_some, Akar.run, hstep']
  rfl

theorem twoKeys_offsets : ∀ key offset, ArtOp.insert key offset ∈ twoKeys → offset < 2 ^ 64 := by
  intro key offset hmem
  simp only [twoKeys, mem_cons, ArtOp.insert.injEq, not_mem_nil, or_false] at hmem
  rcases hmem with ⟨-, rfl⟩ | ⟨-, rfl⟩ <;> decide

theorem twoKeys_size : (serializeTree ⟨twoLeaves, 2⟩).length < 2 ^ 64 := by
  have hfirst : (ArtNode.newLeaf [98] 7).serializedNodeSize = 6 := by
    rw [serializedNodeSize_eq]
    show varintLen 0 + (varintLen 1 + 1) + (varintLen 1 + (varintLen 7 + 0)) + varintLen 0 + 0 = 6
    simp only [varintLen_of_lt, Nat.reduceLT]
  have hsecond : (ArtNode.newLeaf [] 8).serializedNodeSize = 5 := by
    rw [serializedNodeSize_eq]
    show varintLen 0 + (varintLen 0 + 0) + (varintLen 1 + (varintLen 8 + 0)) + varintLen 0 + 0 = 5
    simp only [varintLen_of_lt, Nat.reduceLT]
  have hsize : twoLeaves.serializedNodeSize = 17 := by
    rw [serializedNodeSize_eq]
    show varintLen 0 + (varintLen 0 + 0) + (varintLen 0 + 0) + varintLen 2 +
      (1 + (ArtNode.newLeaf [98] 7).serializedNodeSize +
        (1 + (ArtNode.newLeaf [] 8).serializedNodeSize + 0)) = 17
    simp only [hfirst, hsecond, varintLen_of_lt, Nat.reduceLT]
  rw [serializeTree, ← serializedNodeSize_eq_length, hsize]
  decide

theorem serialize_round_trip_twoKeys :
    ∃ ix root, run step new twoKeys = some ix ∧ deserializeTree ix.serializeTree 0 = .ok (root, []) ∧
      lookup ⟨root, ix.numEntries⟩ [97, 98] = some 7 ∧ lookup ⟨root, ix.numEntries⟩ [99] = some 8 := by
  have hrun := run_twoKeys
  obtain ⟨⟨root, hread, hlookup, -⟩, -⟩ := serialize_round_trip hrun twoKeys_offsets twoKeys_size
  refine ⟨_, root, hrun, hread, ?_, ?_⟩
  · rw [hlookup, (files_new.run hrun).lookup (by decide)]
    rfl
  · rw [hlookup, (files_new.run hrun).lookup (by decide)]
    rfl

/-- Writing a tree and reading it back in the middle of a run is invisible to the calls after it. -/
theorem reload_invisible (h : run step new ops = some ix)
    (hoffsets : ∀ key offset, ArtOp.insert key offset ∈ ops → offset < 2 ^ 64)
    (hsize : ix.serializeTree.length < 2 ^ 64) :
    ∃ root, deserializeTree ix.serializeTree 0 = .ok (root, []) ∧ ∀ more ix',
      run step ⟨root, ix.numEntries⟩ more = some ix' → ix'.Files (ArtOp.stored (ops ++ more)) := by
  have hfiles := files_new.run h
  obtain ⟨root, hread, hvalid, hentries⟩ := reads_serializeTree h hoffsets hsize
  refine ⟨root, hread, fun more ix' hmore => ?_⟩
  have hroot : (⟨root, ix.numEntries⟩ : ArtPrimaryKeyIndex).Files (ops.foldl ArtOp.file []) :=
    ⟨hvalid, fun k =>
      by rw [offsetsAt_of_entries hfiles.valid hvalid hentries, hfiles.offsetsAt], hfiles.numEntries⟩
  rw [ArtOp.stored, foldl_append]
  exact hroot.run hmore

/-- Saved with two keys in it and loaded again, the tree goes on to delete one of them. -/
theorem reload_invisible_twoKeys : ∃ ix root, run step new twoKeys = some ix ∧
    deserializeTree ix.serializeTree 0 = .ok (root, []) ∧
      ∃ ix', run step ⟨root, ix.numEntries⟩ [.delete [99] 8] = some ix' ∧ ix'.lookup [97, 98] = some 7 ∧
        ix'.lookup [99] = none := by
  obtain ⟨root, hread, hmore⟩ := reload_invisible run_twoKeys twoKeys_offsets twoKeys_size
  have hfiles := hmore [.delete [99] 8] _ rfl
  refine ⟨_, root, run_twoKeys, hread, _, rfl, ?_, ?_⟩
  · rw [hfiles.lookup (by decide)]
    rfl
  · rw [hfiles.lookup (by decide)]
    rfl

end ArtPrimaryKeyIndex

end Akar
