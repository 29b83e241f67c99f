import Akar.ArtTree
import Akar.Runs

namespace Akar

open List Option Children

inductive Beside (path : List UInt8) : List UInt8 → Prop where
  | ends : Beside path path
  | past (byte : UInt8) (rest : List UInt8) : Beside path (path ++ byte :: rest)
  | inside (key : List UInt8) (byte : UInt8) (rest : List UInt8) : path = key ++ byte :: rest → Beside path key
  | leaves (shared : List UInt8) (a : UInt8) (s : List UInt8) (b : UInt8) (r : List UInt8) :
      a ≠ b → path = shared ++ a :: s → Beside path (shared ++ b :: r)

theorem beside (path key : List UInt8) : Beside path key := by
  induction path generalizing key with
  | nil =>
    cases key with
    | nil => exact .ends
    | cons b key => exact .past b key
  | cons a path ih =>
    cases key with
    | nil => exact .inside [] a path rfl
    | cons b key =>
      by_cases hab : a = b
      · subst hab
        cases ih key with
        | ends => exact .ends
        | past byte rest => exact .past byte rest
        | inside _ byte rest heq => exact .inside (a :: key) byte rest (congrArg (a :: ·) heq)
        | leaves shared a' s b' r hne heq =>
          exact .leaves (a :: shared) a' s b' r hne (congrArg (a :: ·) heq)
      · exact .leaves [] a path b key hab rfl

inductive Along (path : List UInt8) : List UInt8 → Prop where
  | ends : Along path path
  | past (byte : UInt8) (rest : List UInt8) : Along path (path ++ byte :: rest)
  | off {key : List UInt8} : ¬path <+: key → Along path key

theorem along (path key : List UInt8) : Along path key := by
  by_cases h : path <+: key
  · obtain ⟨rest, rfl⟩ := h
    cases rest with
    | nil =>
      rw [append_nil]
      exact .ends
    | cons byte rest => exact .past byte rest
  · exact .off h

theorem commonPrefixLen_append (path rest : List UInt8) : commonPrefixLen path (path ++ rest) =
    path.length := by
  induction path with
  | nil => simp [commonPrefixLen]
  | cons a path ih => simp [commonPrefixLen, ih]

theorem commonPrefixLen_append_left (key rest : List UInt8) : commonPrefixLen (key ++ rest) key =
    key.length := by
  induction key with
  | nil => simp [commonPrefixLen]
  | cons a key ih => simp [commonPrefixLen, ih]

theorem commonPrefixLen_leaves {a b : UInt8} (hne : a ≠ b) (shared s r : List UInt8) :
    commonPrefixLen (shared ++ a :: s) (shared ++ b :: r) = shared.length := by
  induction shared with
  | nil => simp [commonPrefixLen, hne]
  | cons c shared ih => simp [commonPrefixLen, ih]

namespace ArtNode

variable {node node' child : ArtNode} {byte b : UInt8} {key rest k : List UInt8} {offset n n' : Nat}

theorem not_path_of_inside {rest : List UInt8} (h : node.path = key ++ byte :: rest) :
    ¬node.path <+: key := by
  intro hp
  have hle := hp.length_le
  rw [h, length_append, length_cons] at hle
  omega

variable {shared s r : List UInt8} {a : UInt8}

theorem not_path_of_leaves (hne : a ≠ b) (h : node.path = shared ++ a :: s) :
    ¬node.path <+: shared ++ b :: r := by
  intro hp
  rw [h, prefix_append_right_inj, cons_prefix_cons] at hp
  exact hne hp.1

theorem find_past (node : ArtNode) (byte : UInt8) (rest : List UInt8) :
    node.find (node.path ++ byte :: rest) = (node.children.get byte).bind (·.find rest) := by
  rw [find, if_pos (prefix_append _ _), drop_left]
  dsimp only
  split
  next h => rw [h]; rfl
  next child h => rw [h]; rfl

theorem eraseInternal_path (node : ArtNode) (offset : Nat) :
    node.eraseInternal node.path offset = node.removeOffset offset := by
  rw [eraseInternal, if_pos (prefix_refl _), drop_length]

theorem eraseInternal_missing (h : node.children.get byte = none) (rest : List UInt8) (offset : Nat) :
    node.eraseInternal (node.path ++ byte :: rest) offset = (node, false) := by
  rw [eraseInternal, if_pos (prefix_append _ _), drop_left]
  dsimp only
  split
  next => rfl
  next child h' => rw [h] at h'; cases h'

theorem eraseInternal_child (h : node.children.get byte = some child) (rest : List UInt8)
    (offset : Nat) :
    node.eraseInternal (node.path ++ byte :: rest) offset =
      ({ node with children := node.children.set byte (child.eraseInternal rest offset).1 },
        (child.eraseInternal rest offset).2) := by
  rw [eraseInternal, if_pos (prefix_append _ _), drop_left]
  dsimp only
  split
  next h' => rw [h] at h'; cases h'
  next child' h' => rw [h] at h'; cases h'; rfl

theorem eraseInternal_of_not (h : ¬node.path <+: key) (offset : Nat) :
    node.eraseInternal key offset = (node, false) := by
  rw [eraseInternal, if_neg h]

theorem insertInternal_path (node : ArtNode) (offset n : Nat) :
    node.insertInternal node.path offset n = some (node.addOffset offset, n + 1) := by
  have hcommon := commonPrefixLen_append node.path []
  rw [append_nil] at hcommon
  rw [insertInternal, hcommon, if_neg (Nat.lt_irrefl _), drop_length]

theorem insertInternal_missing (h : node.children.get byte = none) (rest : List UInt8)
    (offset n : Nat) :
    node.insertInternal (node.path ++ byte :: rest) offset n =
      some ({ node with children := node.children.insert byte (newLeaf rest offset) }, n + 1) := by
  rw [insertInternal, commonPrefixLen_append, if_neg (Nat.lt_irrefl _), drop_left]
  dsimp only
  split
  next => rfl
  next child h' => rw [h] at h'; cases h'

theorem insertInternal_child (h : node.children.get byte = some child) (rest : List UInt8)
    (offset n : Nat) :
    node.insertInternal (node.path ++ byte :: rest) offset n =
      (child.insertInternal rest offset n).map fun result =>
        ({ node with children := node.children.set byte result.1 }, result.2) := by
  rw [insertInternal, commonPrefixLen_append, if_neg (Nat.lt_irrefl _), drop_left]
  dsimp only
  split
  next h' => rw [h] at h'; cases h'
  next child' h' =>
    rw [h] at h'
    cases h'
    cases child.insertInternal rest offset n <;> rfl

theorem insertInternal_inside (h : node.path = key ++ byte :: rest) (offset n : Nat) :
    node.insertInternal key offset n = none := by
  have hlt : key.length < node.path.length := by
    rw [h, length_append, length_cons]
    omega
  have hnone : key[key.length]? = none := getElem?_eq_none (Nat.le_refl _)
  rw [insertInternal, h, commonPrefixLen_append_left, ← h, if_pos hlt, splitNode, hnone]
  cases node.path[key.length]? <;> rfl

def forked (node : ArtNode) (shared : List UInt8) (a b : UInt8) (r : List UInt8) (offset : Nat) :
    ArtNode :=
  ⟨shared, [], [], (node.children.clear.insert a (node.existingChild shared.length)).insert b
    (newLeaf r offset)⟩

theorem insertInternal_leaves {b : UInt8} (hne : a ≠ b) (h : node.path = shared ++ a :: s)
    (offset n : Nat) :
    node.insertInternal (shared ++ b :: r) offset n =
      some (node.forked shared a b r offset, n + 1) := by
  have hlt : shared.length < node.path.length := by
    rw [h, length_append, length_cons]
    omega
  have hkey : (shared ++ b :: r).drop (shared.length + 1) = r := by
    rw [← drop_drop, drop_left, drop_one, tail_cons]
  rw [insertInternal, h, commonPrefixLen_leaves hne, ← h, if_pos hlt, splitNode, h]
  simp only [getElem?_append_right (Nat.le_refl _), Nat.sub_self, getElem?_cons_zero, take_left,
    map_some, hkey, forked]

/-- Every node has its children in order, and an overflow offset only behind a primary one. -/
inductive Valid : ArtNode → Prop where
  | intro {node : ArtNode} : node.children.Valid → node.offsets.length ≤ 1 →
      (node.offsets = [] → node.overflowOffsets = []) →
      (∀ b c, node.children.get b = some c → Valid c) → Valid node

theorem Valid.children (h : node.Valid) : node.children.Valid := by
  cases h with
  | intro hc => exact hc

theorem Valid.primary (h : node.Valid) : node.offsets.length ≤ 1 := by
  cases h with
  | intro _ hp => exact hp

theorem Valid.overflow (h : node.Valid) : node.offsets = [] → node.overflowOffsets = [] := by
  cases h with
  | intro _ _ ho => exact ho

theorem Valid.descend (h : node.Valid) (hc : node.children.get b = some child) : child.Valid := by
  cases h with
  | intro _ _ _ hall => exact hall b child hc

theorem valid_newNode4 : newNode4.Valid :=
  .intro ⟨Nat.zero_le _, nodup_nil⟩ (Nat.zero_le _) (fun _ => rfl) nofun

/-- A property that passes from the children of a node to the node holds of every tree. -/
theorem tree_induction {P : ArtNode → Prop}
    (step : ∀ node : ArtNode, (∀ b c, node.children.get b = some c → P c) → P node)
    (node : ArtNode) : P node :=
  step node fun _ c _hc => tree_induction step c
termination_by node
decreasing_by exact sizeOf_child _hc

def offsetsAt (node : ArtNode) (key : List UInt8) : List Nat := ((node.find key).map allOffsets).getD []

theorem offsetsAt_path (node : ArtNode) : node.offsetsAt node.path = node.allOffsets := by
  rw [offsetsAt, find, if_pos (prefix_refl _), drop_length]
  rfl

theorem offsetsAt_past (node : ArtNode) (byte : UInt8) (rest : List UInt8) :
    node.offsetsAt (node.path ++ byte :: rest) =
      ((node.children.get byte).map (·.offsetsAt rest)).getD [] := by
  rw [offsetsAt, find_past]
  cases node.children.get byte <;> rfl

theorem offsetsAt_of_not (h : ¬node.path <+: key) : node.offsetsAt key = [] := by
  rw [offsetsAt, find, if_neg h]
  rfl

theorem offsetsAt_cases (node : ArtNode) (k : List UInt8) :
    node.offsetsAt k = if node.path <+: k then
        match k.drop node.path.length with
        | [] => node.allOffsets
        | byte :: rest => ((node.children.get byte).map (·.offsetsAt rest)).getD []
      else [] := by
  cases along node.path k with
  | ends => rw [offsetsAt_path, if_pos (prefix_refl _), drop_length]
  | past => rw [offsetsAt_past, if_pos (prefix_append _ _), drop_left]
  | off hnot => rw [offsetsAt_of_not hnot, if_neg hnot]

theorem allOffsets_addOffset (h : node.Valid) (offset : Nat) :
    (node.addOffset offset).allOffsets = node.allOffsets ++ [offset] := by
  unfold addOffset allOffsets
  split
  next hempty =>
    have hnil := List.isEmpty_iff.mp hempty
    simp [hnil, h.overflow hnil]
  next => simp

theorem addOffset_valid (h : node.Valid) (offset : Nat) : (node.addOffset offset).Valid := by
  unfold addOffset
  split
  next hempty =>
    have hnil := List.isEmpty_iff.mp hempty
    refine .intro h.children ?_ ?_ fun b c hc => h.descend hc
    · rw [hnil]
      exact Nat.le_refl 1
    · intro hh
      exact absurd hh (by simp)
  next hempty =>
    refine .intro h.children h.primary ?_ fun b c hc => h.descend hc
    intro hnil
    exact absurd (List.isEmpty_iff.mpr hnil) hempty

theorem children_addOffset (node : ArtNode) (offset : Nat) :
    (node.addOffset offset).children = node.children ∧ (node.addOffset offset).path = node.path := by
  unfold addOffset
  split <;> exact ⟨rfl, rfl⟩

/-- Removing an offset takes one occurrence away and keeps the node valid. -/
theorem removeOffset_spec (h : node.Valid) (offset : Nat) :
    (node.removeOffset offset).1.Valid ∧ (node.removeOffset offset).1.path = node.path ∧
      (node.removeOffset offset).1.children = node.children ∧
      (node.removeOffset offset).1.allOffsets = node.allOffsets.erase offset ∧
      ((node.removeOffset offset).2 = true ↔ offset ∈ node.allOffsets) := by
  have hcases : node.offsets = [] ∧ node.overflowOffsets = [] ∨ ∃ o, node.offsets = [o] := by
    cases ho : node.offsets with
    | nil => exact .inl ⟨rfl, h.overflow ho⟩
    | cons o rest =>
      right
      have hlen := h.primary
      rw [ho, length_cons] at hlen
      have hrest : rest = [] := length_eq_zero_iff.mp (by omega)
      exact ⟨o, by rw [hrest]⟩
  unfold removeOffset allOffsets
  rcases hcases with ⟨hoff, hover⟩ | ⟨o, hoff⟩
  · rw [hoff, hover]
    simp only [not_mem_nil, if_false]
    exact ⟨h, trivial, trivial, by rw [hoff, hover]; rfl, by simp⟩
  · by_cases ho : offset = o
    · subst ho
      cases hover : node.overflowOffsets with
      | nil =>
        rw [hoff, if_pos mem_cons_self]
        refine ⟨.intro h.children ?_ (fun _ => rfl) fun b c hc => h.descend hc, rfl, rfl, ?_, ?_⟩
        · simp
        · simp
        · simp
      | cons next rest =>
        rw [hoff, if_pos mem_cons_self]
        refine ⟨.intro h.children ?_ ?_ fun b c hc => h.descend hc, rfl, rfl, ?_, ?_⟩
        · simp
        · simp
        · simp
        · simp
    · have hnot : offset ∉ node.offsets := by rw [hoff]; simpa using ho
      rw [if_neg hnot]
      split
      next hmem =>
        refine ⟨.intro h.children h.primary ?_ fun b c hc => h.descend hc, rfl, rfl, ?_, ?_⟩
        · intro hnil
          rw [hoff] at hnil
          cases hnil
        · exact (erase_append_right _ hnot).symm
        · simp [hmem]
      next hmem =>
        refine ⟨h, rfl, rfl, ?_, ?_⟩
        · rw [erase_of_not_mem]
          simp [hnot, hmem]
        · simp [hnot, hmem]

def Refiles (node : ArtNode) (key : List UInt8) (offsets : List Nat) (node' : ArtNode) : Prop :=
  ∀ k, node'.offsetsAt k = if k = key then offsets else node.offsetsAt k

theorem refiles_of_nil (h : node.offsetsAt key = []) (offset : Nat) :
    node.Refiles key ((node.offsetsAt key).erase offset) node := by
  intro k
  split
  next heq => rw [heq, h]; rfl
  next => rfl

variable {offsets : List Nat}

theorem refiles_path (hpath : node'.path = node.path) (hchildren : node'.children = node.children)
    (hoffsets : node'.allOffsets = offsets) : node.Refiles node.path offsets node' := by
  intro k
  rw [offsetsAt_cases node', offsetsAt_cases node, hpath, hchildren, hoffsets]
  cases along node.path k with
  | ends => rw [if_pos rfl, if_pos (prefix_refl _), drop_length]
  | past byte rest =>
    have hne : node.path ++ byte :: rest ≠ node.path := by simp
    rw [if_neg hne, if_pos (prefix_append _ _), if_pos (prefix_append _ _), drop_left]
  | off hnot =>
    have hne : k ≠ node.path := fun heq => hnot (heq ▸ prefix_refl _)
    rw [if_neg hne, if_neg hnot, if_neg hnot]

variable {cs : Children ArtNode}

theorem refiles_past
    (hcs : node.children.Inserted byte child cs)
    (hchild : ∀ k, child.offsetsAt k =
      if k = rest then offsets else ((node.children.get byte).map (·.offsetsAt k)).getD []) :
    node.Refiles (node.path ++ byte :: rest) offsets { node with children := cs } := by
  intro k
  rw [offsetsAt_cases, offsetsAt_cases node]
  cases along node.path k with
  | ends =>
    have hne : node.path ≠ node.path ++ byte :: rest := by simp
    rw [if_neg hne, if_pos (prefix_refl _), if_pos (prefix_refl _), drop_length]
    rfl
  | past b =>
    rw [if_pos (prefix_append _ _), if_pos (prefix_append _ _), drop_left]
    dsimp only
    rw [hcs.get]
    by_cases hb : b = byte
    · subst hb
      rw [if_pos rfl, map_some, getD_some, hchild]
      simp
    · simp [hb]
  | off hnot =>
    have hne : k ≠ node.path ++ byte :: rest := fun heq => hnot (heq ▸ prefix_append _ _)
    rw [if_neg hne, if_neg hnot, if_neg hnot]

theorem offsetsAt_of_leaf (h : ∀ b, node.children.get b = none) (k : List UInt8) :
    node.offsetsAt k = if k = node.path then node.allOffsets else [] := by
  rw [offsetsAt_cases]
  cases along node.path k with
  | ends => rw [if_pos (prefix_refl _), drop_length, if_pos rfl]
  | past b r =>
    have hne : node.path ++ b :: r ≠ node.path := by simp
    rw [if_pos (prefix_append _ _), drop_left, if_neg hne]
    dsimp only
    rw [h]
    rfl
  | off hnot =>
    have hne : k ≠ node.path := fun heq => hnot (heq ▸ prefix_refl _)
    rw [if_neg hnot, if_neg hne]

theorem valid_newLeaf (path : List UInt8) (offset : Nat) : (newLeaf path offset).Valid := by
  refine .intro ⟨Nat.zero_le _, nodup_nil⟩ (Nat.le_refl 1) ?_ nofun
  nofun

theorem offsetsAt_newLeaf (path : List UInt8) (offset : Nat) (k : List UInt8) :
    (newLeaf path offset).offsetsAt k = if k = path then [offset] else [] := by
  have hleaf : ∀ b, (newLeaf path offset).children.get b = none := fun _ => rfl
  exact offsetsAt_of_leaf hleaf k

theorem foldl_addOffset (h : node.Valid) (offsets : List Nat) :
    (offsets.foldl addOffset node).Valid ∧ (offsets.foldl addOffset node).path = node.path ∧
      (offsets.foldl addOffset node).children = node.children ∧
      (offsets.foldl addOffset node).allOffsets = node.allOffsets ++ offsets := by
  induction offsets generalizing node with
  | nil => exact ⟨h, rfl, rfl, (append_nil _).symm⟩
  | cons offset offsets ih =>
    obtain ⟨hvalid, hpath, hchildren, hoffsets⟩ := ih (addOffset_valid h offset)
    obtain ⟨hc, hp⟩ := children_addOffset node offset
    refine ⟨hvalid, hpath.trans hp, hchildren.trans hc, hoffsets.trans ?_⟩
    rw [allOffsets_addOffset h, append_assoc]
    rfl

theorem existingChild_spec (h : node.Valid) (hpath : node.path = shared ++ a :: s) :
    (node.existingChild shared.length).Valid ∧ (node.existingChild shared.length).path = s ∧
      (∀ b, (node.existingChild shared.length).children.get b = node.children.get b) ∧
      ∀ k, (node.existingChild shared.length).offsetsAt k = node.offsetsAt (shared ++ a :: k) := by
  have hdrop : node.path.drop (shared.length + 1) = s := by
    rw [hpath, ← drop_drop, drop_left, drop_one, tail_cons]
  have hempty : (Children.node4 ([] : List (UInt8 × ArtNode))).Valid := ⟨Nat.zero_le _, nodup_nil⟩
  obtain ⟨htransfer, hget⟩ := transfer_spec hempty (nodup_pairs h.children) fun _ _ => rfl
  have hget' (b : UInt8) : (Children.transfer node.children.pairs (.node4 [])).get b =
      node.children.get b := by
    rw [hget, lookup_pairs]
    exact or_none
  have hbase : Valid ⟨s, [], [], Children.transfer node.children.pairs (.node4 [])⟩ := by
    refine .intro htransfer (Nat.zero_le _) (fun _ => rfl) fun b c hc => h.descend (b := b) ?_
    rw [← hget']
    exact hc
  obtain ⟨hvalid, hp, hc, ho⟩ := foldl_addOffset hbase node.allOffsets
  rw [existingChild, hdrop]
  refine ⟨hvalid, hp, fun b => by rw [hc]; exact hget' b, fun k => ?_⟩
  have hnode : node.path = shared ++ [a] ++ s := by rw [hpath, append_assoc]; rfl
  have hkey : shared ++ a :: k = shared ++ [a] ++ k := by rw [append_assoc]; rfl
  have hrest : (shared ++ [a] ++ k).drop (shared ++ [a] ++ s).length = k.drop s.length := by
    rw [length_append, ← drop_drop, drop_left]
  rw [offsetsAt_cases, offsetsAt_cases node, hp, hc, ho, hkey, hnode]
  simp only [prefix_append_right_inj, hrest, hget']
  rfl

theorem forked_first (node : ArtNode) (shared : List UInt8) {b : UInt8} (hab : a ≠ b) :
    (node.children.clear.insert a (node.existingChild shared.length)).Valid ∧
      (node.children.clear.insert a (node.existingChild shared.length)).get b = none := by
  have hfirst := inserted_insert (valid_clear node.children)
    (get_clear node.children a) (node.existingChild shared.length)
  exact ⟨hfirst.valid, by rw [hfirst.get, if_neg hab.symm, get_clear]⟩

theorem get_forked {b : UInt8} (hab : a ≠ b) (c : UInt8) :
    (node.forked shared a b r offset).children.get c =
    if c = b then some (newLeaf r offset) else if c =
      a then some (node.existingChild shared.length) else none := by
  have hfirst := inserted_insert (valid_clear node.children)
    (get_clear node.children a) (node.existingChild shared.length)
  obtain ⟨hvalid, hnone⟩ := forked_first node shared hab
  refine ((inserted_insert hvalid hnone (newLeaf r offset)).get c).trans ?_
  rw [hfirst.get, get_clear]

theorem child_of_forked {b c : UInt8} {d : ArtNode} (hab : a ≠ b)
    (hd : (node.forked shared a b r offset).children.get c = some d) :
    c = b ∧ d = newLeaf r offset ∨ c = a ∧ d = node.existingChild shared.length := by
  rw [get_forked hab] at hd
  split at hd
  next heq => exact .inl ⟨heq, (some.inj hd).symm⟩
  next =>
    split at hd
    next heq => exact .inr ⟨heq, (some.inj hd).symm⟩
    next => cases hd

/-- Splitting a path keeps every offset under its key and adds the new one. -/
theorem forked_spec {b : UInt8} (h : node.Valid) (hab : a ≠ b)
    (hpath : node.path = shared ++ a :: s) (offset : Nat) :
    (node.forked shared a b r offset).Valid ∧
      node.Refiles (shared ++ b :: r) [offset] (node.forked shared a b r offset) := by
  obtain ⟨hold, -, -, hat⟩ := existingChild_spec h hpath
  obtain ⟨hvalid, hnone⟩ := forked_first node shared hab
  have hsecond := inserted_insert hvalid hnone (newLeaf r offset)
  have hnot {k : List UInt8} (hk : ¬shared <+: k) : ¬node.path <+: k := by
    rw [hpath]
    exact fun hp => hk ((prefix_append _ _).trans hp)
  refine ⟨.intro hsecond.valid (Nat.zero_le _) (fun _ => rfl) fun c d hd => ?_, fun k => ?_⟩
  · rcases child_of_forked hab hd with ⟨_, rfl⟩ | ⟨_, rfl⟩
    · exact valid_newLeaf r offset
    · exact hold
  · rw [offsetsAt_cases (node.forked shared a b r offset)]
    show (if shared <+: k then _ else _) = _
    cases along shared k with
    | ends =>
      have hne : shared ≠ shared ++ b :: r := by simp
      rw [if_pos (prefix_refl _), if_neg hne, offsetsAt_of_not (not_path_of_inside hpath)]
      show (match shared.drop shared.length with | [] => _ | _ :: _ => _) = _
      rw [drop_length]
      rfl
    | past c t =>
      rw [if_pos (prefix_append _ _)]
      show (match (shared ++ c :: t).drop shared.length with | [] => _ | _ :: _ => _) = _
      rw [drop_left]
      dsimp only
      rw [get_forked hab]
      by_cases hcb : c = b
      · subst hcb
        rw [if_pos rfl, map_some, getD_some, offsetsAt_newLeaf,
          offsetsAt_of_not (not_path_of_leaves hab hpath)]
        simp
      · have hne : shared ++ c :: t ≠ shared ++ b :: r := by simp [hcb]
        rw [if_neg hcb, if_neg hne]
        split
        next hca =>
          rw [hca, ← hat]
          rfl
        next hca =>
          rw [offsetsAt_of_not (not_path_of_leaves (fun heq => hca heq.symm) hpath)]
          rfl
    | off hs =>
      have hne : k ≠ shared ++ b :: r := fun heq => hs (heq ▸ prefix_append _ _)
      rw [if_neg hs, if_neg hne, offsetsAt_of_not (hnot hs)]

theorem Valid.withChild (h : node.Valid) (hcs : node.children.Inserted byte child cs)
    (hchild : child.Valid) : ({ node with children := cs } : ArtNode).Valid := by
  refine .intro hcs.valid h.primary h.overflow fun b c hc => ?_
  have hc' := (hcs.get b).symm.trans hc
  split at hc'
  · cases hc'
    exact hchild
  · exact h.descend hc'

/-- Insertion keeps the tree valid and adds the offset at its key only. -/
theorem insertInternal_spec (h : node.Valid)
    (hs : node.insertInternal key offset n = some (node', n')) :
    node'.Valid ∧ n' = n + 1 ∧ node.Refiles key (node.offsetsAt key ++ [offset]) node' := by
  induction node using tree_induction generalizing key node' with
  | step node ih =>
    cases beside node.path key with
    | ends =>
      rw [insertInternal_path] at hs
      obtain ⟨rfl, rfl⟩ := Prod.mk.inj (some.inj hs)
      obtain ⟨hc, hp⟩ := children_addOffset node offset
      refine ⟨addOffset_valid h offset, rfl, refiles_path hp hc ?_⟩
      rw [allOffsets_addOffset h, offsetsAt_path]
    | past byte rest =>
      rw [offsetsAt_past]
      cases hget : node.children.get byte with
      | none =>
        rw [insertInternal_missing hget] at hs
        obtain ⟨rfl, rfl⟩ := Prod.mk.inj (some.inj hs)
        have hcs := inserted_insert h.children hget (newLeaf rest offset)
        refine ⟨h.withChild hcs (valid_newLeaf rest offset), rfl, refiles_past hcs fun k => ?_⟩
        rw [offsetsAt_newLeaf, hget]
        rfl
      | some child =>
        rw [insertInternal_child hget] at hs
        obtain ⟨⟨child', m⟩, hchild, heq⟩ := map_eq_some_iff.mp hs
        obtain ⟨rfl, rfl⟩ := Prod.mk.inj heq
        obtain ⟨hvalid, hn, hfiles⟩ := ih byte child hget (h.descend hget) hchild
        have hcs := inserted_set h.children hget child'
        refine ⟨h.withChild hcs hvalid, hn, refiles_past hcs fun k => ?_⟩
        rw [hfiles, hget]
        rfl
    | inside _ byte rest hin =>
      rw [insertInternal_inside hin] at hs
      cases hs
    | leaves shared a s b r hab hout =>
      rw [insertInternal_leaves hab hout] at hs
      obtain ⟨rfl, rfl⟩ := Prod.mk.inj (some.inj hs)
      obtain ⟨hvalid, hfiles⟩ := forked_spec (r := r) h hab hout offset
      rw [offsetsAt_of_not (not_path_of_leaves hab hout)]
      exact ⟨hvalid, rfl, hfiles⟩

/-- Erasure keeps the tree valid and takes the offset away at its key only. -/
theorem eraseInternal_spec (h : node.Valid) (key : List UInt8) (offset : Nat) :
    (node.eraseInternal key offset).1.Valid ∧
      node.Refiles key ((node.offsetsAt key).erase offset) (node.eraseInternal key offset).1 ∧
      ((node.eraseInternal key offset).2 = true ↔ offset ∈ node.offsetsAt key) := by
  induction node using tree_induction generalizing key with
  | step node ih =>
    cases along node.path key with
    | ends =>
      obtain ⟨hvalid, hp, hc, ho, hmem⟩ := removeOffset_spec h offset
      rw [eraseInternal_path, offsetsAt_path]
      exact ⟨hvalid, refiles_path hp hc ho, hmem⟩
    | past byte rest =>
      cases hget : node.children.get byte with
      | none =>
        have hnone : node.offsetsAt (node.path ++ byte :: rest) = [] := by rw [offsetsAt_past, hget]; rfl
        rw [eraseInternal_missing hget]
        exact ⟨h, refiles_of_nil hnone offset, by simp [hnone]⟩
      | some child =>
        have hat : node.offsetsAt (node.path ++ byte :: rest) = child.offsetsAt rest := by
          rw [offsetsAt_past, hget]
          rfl
        obtain ⟨hvalid, hfiles, hmem⟩ := ih byte child hget (h.descend hget) rest
        have hcs := inserted_set h.children hget (child.eraseInternal rest offset).1
        rw [eraseInternal_child hget, hat]
        refine ⟨h.withChild hcs hvalid, refiles_past hcs fun k => ?_, hmem⟩
        rw [hfiles, hget]
        rfl
    | off hnot =>
      have hnone := offsetsAt_of_not hnot
      rw [eraseInternal_of_not hnot]
      exact ⟨h, refiles_of_nil hnone offset, by simp [hnone]⟩

end ArtNode

end Akar
