import Mathlib.Algebra.Group.Nat.Defs
import Mathlib.Data.List.Flatten
import Mathlib.Data.List.Perm.Basic

namespace Akar.JoinSpill

open List

/-- `JoinSpillConfig` with what the pool answers: the bytes left of the grant and what `try_reserve`
says. `estimateBytes` is the Arrow memory of rows. -/
structure JoinSpillConfig (α : Type) where
  radixBits : Nat
  maxPasses : Nat
  maxSpillFiles : Nat
  remaining : Nat
  granted : Bool
  estimateBytes : List α → Nat

/-- What the join reads of a row: `hash_chunk_cell` of the key column of each side, none for a null,
and `chunk_cells_equal` of the two. -/
structure JoinKey (α : Type) where
  build : α → Option UInt64
  probe : α → Option UInt64
  equal : α → α → Bool

def JoinKey.agree {α : Type} (key : JoinKey α) (r s : α) : Bool :=
  match key.build r, key.probe s with
  | some h, some k => h = k && key.equal r s
  | _, _ => false

namespace JoinSpillConfig

variable {α : Type} (cfg : JoinSpillConfig α)

def partitions : Nat := 2 ^ max 1 (min cfg.radixBits 16)

/-- `usize::next_power_of_two`, which wraps to zero past the last power. -/
def nextPowerOfTwo (n : Nat) : Nat := if 2 ^ 63 < n then 0 else n.nextPowerOfTwo

def subPartitions (bytes : Nat) : Nat :=
  if cfg.remaining = 0 then cfg.partitions
  else max 2 (min (nextPowerOfTwo (max ((bytes + cfg.remaining - 1) / cfg.remaining) 2)) cfg.partitions)

end JoinSpillConfig

variable {α γ : Type}

/-- The bucket of a hash. The pass is not looked at. -/
def bucket (partitions : Nat) (h : UInt64) : Nat := h.toNat &&& (partitions - 1)

/-- One bucket of `split_by_radix`. Row indices are cut to 32 bits, and a row with a null key is in
no bucket. -/
def splitByRadix (hash : α → Option UInt64) (rows : List α) (partitions part : Nat) : List α :=
  (rows.zipIdx.filter fun r => (hash r.1).map (bucket partitions) = some part).filterMap fun r =>
    rows[r.2 % 2 ^ 32]?

/-- `PhysicalHashJoin::execute_binary` by rows. The indices given to `take` are cut to 32 bits. -/
def executeBinary (key : JoinKey α) (build probe : List α) : List (α × α) :=
  probe.zipIdx.flatMap fun s => (build.zipIdx.filter fun r => key.agree r.1 s.1).filterMap fun r =>
    (build[r.2 % 2 ^ 32]?).bind fun r => (probe[s.2 % 2 ^ 32]?).map fun s => (r, s)

def joinParts (join : Nat → Nat → List γ × Nat) (n files : Nat) : List γ × Nat :=
  (range n).foldl (fun s part => (s.1 ++ (join part s.2).1, (join part s.2).2)) ([], files)

section Source

variable (cfg : JoinSpillConfig α) (key : JoinKey α) (leaf : List α → List α → List γ)

/-- `join_partition` with the passes that are left; `leaf` is what is done with a partition that is
not split again. Files read back as they were written. -/
def joinPartition : Nat → List α → List α → Nat → List γ × Nat
  | 0, b, p, files => (leaf b p, files)
  | passes + 1, b, p, files =>
    if cfg.estimateBytes b ≤ cfg.remaining ∨ cfg.remaining = 0 ∨ cfg.maxSpillFiles ≤ files ∨
      p.isEmpty then
      (leaf b p, files)
    else
      let n := cfg.subPartitions (cfg.estimateBytes b)
      joinParts (fun part => joinPartition passes (splitByRadix key.build b n part)
        (splitByRadix key.probe p n part))
        n (files + 2 * n)

def executeExternal (build probe : List α) : List γ :=
  (joinParts (fun part => joinPartition cfg key leaf (cfg.maxPasses - 1)
    (splitByRadix key.build build cfg.partitions part)
      (splitByRadix key.probe probe cfg.partitions part))
    cfg.partitions (2 * cfg.partitions)).1

def executeWithSpill (build probe : List α) : List (α × α) :=
  if cfg.estimateBytes build ≤ cfg.remaining ∧ cfg.granted then executeBinary key build probe
  else executeExternal cfg key (executeBinary key) build probe

end Source

section Rows

variable {hash : α → Option UInt64} {key : JoinKey α} {rows build probe : List α} {n part : Nat}

/-- Every row with a key has a number of 32 bits. -/
def Numbered (hash : α → Option UInt64) (rows : List α) : Prop :=
  ∀ r ∈ rows.drop (2 ^ 32), hash r = none

theorem numbered_of_length (h : rows.length ≤ 2 ^ 32) : Numbered hash rows := by
  intro r hr
  rw [drop_eq_nil_iff.mpr h] at hr
  cases hr

theorem zipIdx_get {r : α × Nat} (h : Numbered hash rows) (hr : r ∈ rows.zipIdx)
    (hkey : hash r.1 ≠ none) :
    rows[r.2 % 2 ^ 32]? = some r.1 := by
  have hget := mem_zipIdx_iff_getElem?.mp hr
  by_cases hlt : r.2 < 2 ^ 32
  · rwa [Nat.mod_eq_of_lt hlt]
  · refine absurd (h r.1 (mem_of_getElem? (i := r.2 - 2 ^ 32) ?_)) hkey
    rwa [getElem?_drop, Nat.add_sub_cancel' (Nat.le_of_not_lt hlt)]

theorem filter_zipIdx (p : α → Bool) (rows : List α) :
    (rows.zipIdx.filter fun r => p r.1).map Prod.fst = rows.filter p := by
  conv_rhs => rw [← zipIdx_map_fst 0 rows, filter_map]
  rfl

theorem splitByRadix_eq (h : Numbered hash rows) :
    splitByRadix hash rows n part = rows.filter fun r => (hash r).map (bucket n) = some part := by
  have hget : ∀ r ∈ rows.zipIdx.filter (fun r => (hash r.1).map (bucket n) = some part),
      rows[r.2 % 2 ^ 32]? = some r.1 := by
    intro r hr
    obtain ⟨hr, hpart⟩ := mem_filter.mp hr
    refine zipIdx_get h hr fun hnone => ?_
    rw [hnone] at hpart
    cases of_decide_eq_true hpart
  refine (filterMap_congr hget).trans ?_
  exact (congrFun filterMap_eq_map _).trans
    (filter_zipIdx (fun r => (hash r).map (bucket n) = some part) rows)

theorem length_splitByRadix (h : Numbered hash rows) : (splitByRadix hash rows n part).length ≤
    2 ^ 32 := by
  have hdrop : (rows.drop (2 ^ 32)).filter (fun r => (hash r).map (bucket n) = some part) = [] := by
    rw [filter_eq_nil_iff]
    intro r hr
    simp [h r hr]
  rw [splitByRadix_eq h, ← take_append_drop (2 ^ 32) rows, filter_append, hdrop, append_nil]
  exact Nat.le_trans (length_filter_le ..) (length_take_le ..)

theorem Numbered.splitByRadix (h : Numbered hash rows) :
    Numbered hash (splitByRadix hash rows n part) :=
  numbered_of_length (length_splitByRadix h)

def matchRows (m : α → α → Bool) (R S : List α) : List (α × α) :=
  S.flatMap fun s => (R.filter (m · s)).map fun r => (r, s)

theorem JoinKey.agree_keys {r s : α} (h : key.agree r s = true) : key.build r ≠ none ∧
    key.probe s ≠ none := by
  unfold JoinKey.agree at h
  split at h
  next hr hs => simp [hr, hs]
  next => cases h

theorem executeBinary_eq (hbuild : Numbered key.build build) (hprobe : Numbered key.probe probe) :
    executeBinary key build probe = matchRows key.agree build probe := by
  conv_rhs => rw [matchRows, ← zipIdx_map_fst 0 probe, flatMap_map]
  apply flatMap_congr
  intro s hs
  have hpair : ∀ r ∈ build.zipIdx.filter (fun r => key.agree r.1 s.1),
      ((build[r.2 % 2 ^ 32]?).bind fun r => (probe[s.2 % 2 ^ 32]?).map fun s => (r, s)) =
        some (r.1, s.1) := by
    intro r hr
    obtain ⟨hr, hagree⟩ := mem_filter.mp hr
    obtain ⟨hbuilt, hprobed⟩ := JoinKey.agree_keys hagree
    rw [zipIdx_get hbuild hr hbuilt, zipIdx_get hprobe hs hprobed]
    rfl
  rw [filterMap_congr hpair, ← filter_zipIdx (key.agree · s.1) build, map_map]
  exact congrFun filterMap_eq_map _

end Rows

section Buckets

variable {β : Type}

theorem bucket_lt {n : Nat} {h : UInt64} (hn : 0 < n) : bucket n h < n :=
  Nat.lt_of_le_of_lt Nat.and_le_right (Nat.sub_one_lt_of_lt hn)

theorem flatMap_pick (l : List β) {k n : Nat} (hk : k < n) :
    (range n).flatMap (fun i => if k = i then l else []) = l := by
  induction n with
  | zero => omega
  | succ n ih =>
    rw [range_succ, flatMap_append, flatMap_singleton]
    by_cases hkn : k = n
    · have hnil : (range n).flatMap (fun i => if k = i then l else []) = [] := by
        apply flatMap_eq_nil_iff.mpr
        intro i hi
        exact if_neg (by have := mem_range.mp hi; omega)
      rw [hnil, if_pos hkn, nil_append]
    · rw [ih (by omega), if_neg hkn, append_nil]

theorem flatMap_buckets {f : α → List β} {bucket : α → Option Nat} {n : Nat}
    (hnone : ∀ a, bucket a = none → f a = []) (hlt : ∀ a, ∀ k ∈ bucket a, k < n) (l : List α) :
    (l.flatMap f).Perm ((range n).flatMap fun k => (l.filter (bucket · = some k)).flatMap f) := by
  induction l with
  | nil => simp
  | cons a l ih =>
    have hone : (range n).flatMap (fun k => if bucket a = some k then f a else []) = f a := by
      cases hbucket : bucket a with
      | none => simp [hnone a hbucket]
      | some k =>
        simp only [Option.some.injEq]
        exact flatMap_pick (f a) (hlt a k hbucket)
    have hsplit (k : Nat) : ((a :: l).filter (bucket · = some k)).flatMap f =
        (if bucket a = some k then f a else []) ++ (l.filter (bucket · = some k)).flatMap f := by
      by_cases hk : bucket a = some k
      · rw [filter_cons_of_pos (by simpa using hk), if_pos hk, flatMap_cons]
      · rw [filter_cons_of_neg (by simpa using hk), if_neg hk, nil_append]
    simp only [hsplit, flatMap_cons]
    refine .trans ?_ (flatMap_append_perm _ _ _)
    rw [hone]
    exact ih.append_left _

theorem matchRows_buckets {m : α → α → Bool} {kr ks : α → Option Nat} {n : Nat}
    (hmatch : ∀ r s, m r s = true → ∃ k, kr r = some k ∧ ks s = some k)
    (hlt : ∀ s, ∀ k ∈ ks s, k < n) (R S : List α) :
    (matchRows m R S).Perm
      ((range n).flatMap fun k =>
        matchRows m (R.filter (kr · = some k)) (S.filter (ks · = some k))) := by
  have hnone (s : α) (hs : ks s = none) : (R.filter (m · s)).map (fun r => (r, s)) = [] := by
    rw [map_eq_nil_iff, filter_eq_nil_iff]
    intro r _ hm
    obtain ⟨k, -, hk⟩ := hmatch r s hm
    rw [hs] at hk
    cases hk
  refine (flatMap_buckets hnone hlt S).trans
    (.of_eq (flatMap_congr fun k _ => flatMap_congr fun s hs => ?_))
  rw [filter_filter]
  apply congrArg
  apply filter_congr
  intro r _
  have hk := of_decide_eq_true (mem_filter.mp hs).2
  cases hm : m r s with
  | false => rfl
  | true =>
    obtain ⟨k', hr, hs'⟩ := hmatch r s hm
    obtain rfl := Option.some.inj (hk.symm.trans hs')
    simp [hr]

theorem joinParts_out (join : Nat → Nat → List γ × Nat) (n files : Nat) :
    (joinParts join n files).1 = (range n).flatMap fun part =>
      (join part (joinParts join part files).2).1 := by
  induction n with
  | zero => rfl
  | succ n ih =>
    rw [joinParts, range_succ, foldl_append, flatMap_append, ← ih, flatMap_singleton]
    rfl

end Buckets

variable (cfg : JoinSpillConfig α) (key : JoinKey α) {build probe : List α}

theorem JoinSpillConfig.subPartitions_pow (bytes : Nat) :
    ∃ a ≤ max 1 (min cfg.radixBits 16), cfg.subPartitions bytes = 2 ^ a := by
  unfold subPartitions
  split
  · exact ⟨_, Nat.le_refl _, rfl⟩
  · have hnext (m : Nat) : nextPowerOfTwo m = 0 ∨ ∃ c, nextPowerOfTwo m = 2 ^ c := by
      unfold nextPowerOfTwo
      split
      · exact .inl rfl
      · exact .inr (Nat.isPowerOfTwo_nextPowerOfTwo m)
    unfold partitions
    have he := Nat.le_max_left 1 (min cfg.radixBits 16)
    generalize max 1 (min cfg.radixBits 16) = e at he
    have htwo {c : Nat} (hc : 1 ≤ c) : 2 ≤ 2 ^ c := Nat.pow_le_pow_right Nat.two_pos hc
    rcases hnext (max ((bytes + cfg.remaining - 1) / cfg.remaining) 2) with h | ⟨c, h⟩ <;> rw [h]
    · exact ⟨1, he, by simp⟩
    rcases Nat.le_total c e with hce | hce
    · rw [Nat.min_eq_left (Nat.pow_le_pow_right Nat.two_pos hce)]
      rcases Nat.eq_zero_or_pos c with rfl | hc
      · exact ⟨1, he, rfl⟩
      · exact ⟨c, hce, Nat.max_eq_right (htwo hc)⟩
    · rw [Nat.min_eq_right (Nat.pow_le_pow_right Nat.two_pos hce)]
      exact ⟨e, Nat.le_refl _, Nat.max_eq_right (htwo he)⟩

section Correct

variable (hbuild : Numbered key.build build) (hprobe : Numbered key.probe probe)

include hbuild hprobe

theorem joinParts_perm {join : Nat → Nat → List (α × α) × Nat} {n : Nat} (hn : 0 < n)
    (hjoin : ∀ part files, ((join part files).1).Perm
      (executeBinary key (splitByRadix key.build build n part)
        (splitByRadix key.probe probe n part))) (files : Nat) :
    (joinParts join n files).1.Perm (executeBinary key build probe) := by
  rw [joinParts_out, executeBinary_eq hbuild hprobe]
  refine .trans (.flatMap_left _ fun part _ => hjoin part _) (.symm ?_)
  simp only [executeBinary_eq hbuild.splitByRadix hprobe.splitByRadix]
  simp only [splitByRadix_eq hbuild, splitByRadix_eq hprobe]
  refine matchRows_buckets (fun r s hm => ?_) (fun s k hk => ?_) build probe
  · unfold JoinKey.agree at hm
    split at hm
    next h k hh hk =>
      have hhk := of_decide_eq_true (Bool.and_eq_true_iff.mp hm).1
      exact ⟨bucket n h, by rw [hh]; rfl, by rw [hk, hhk]; rfl⟩
    next => cases hm
  · obtain ⟨x, -, rfl⟩ := Option.map_eq_some_iff.mp hk
    exact bucket_lt hn

theorem joinPartition_perm (passes files : Nat) :
    (joinPartition cfg key (executeBinary key) passes build probe files).1.Perm
      (executeBinary key build probe) := by
  induction passes generalizing build probe files with
  | zero => exact .refl _
  | succ passes ih =>
    unfold joinPartition
    split
    · exact .refl _
    · obtain ⟨a, -, hpow⟩ := cfg.subPartitions_pow (cfg.estimateBytes build)
      exact joinParts_perm key hbuild hprobe (hpow ▸ Nat.two_pow_pos a)
        (fun part files => ih hbuild.splitByRadix hprobe.splitByRadix files) _

theorem executeExternal_perm :
    (executeExternal cfg key (executeBinary key) build probe).Perm (executeBinary key build probe) :=
  joinParts_perm key hbuild hprobe (Nat.two_pow_pos _)
    (fun _ files => joinPartition_perm cfg key hbuild.splitByRadix hprobe.splitByRadix _ files) _

end Correct

def ownKey : JoinKey UInt64 := ⟨some, some, fun r s => r = s⟩

def oneByte (maxPasses : Nat) : JoinSpillConfig UInt64 := ⟨1, maxPasses, 4096, 1, false, fun _ => 2⟩

/-- The row past the last 32-bit index is found in memory, and taken for the first row on the way to
disk. -/
theorem spill_truncates {n : Nat} (hn : n = 2 ^ 32) :
    executeWithSpill (oneByte 1) ownKey (replicate n 0 ++ [1]) [1] = [] ∧
      executeBinary ownKey (replicate n 0 ++ [1]) [1] ≠ [] := by
  have hzero {g : Nat} (hg : g < n) : (replicate n (0 : UInt64) ++ [1])[g]? = some 0 := by
    rw [getElem?_append_left (by rwa [length_replicate]), getElem?_replicate, if_pos hg]
  have hmod (g : Nat) : g % 2 ^ 32 < n := by omega
  have hmem {l : List UInt64} {r : UInt64 × Nat} (hr : r ∈ l.zipIdx) : r.1 ∈ l :=
    mem_of_getElem? (mem_zipIdx_iff_getElem?.mp hr)
  constructor
  · show (joinParts _ _ _).1 = []
    rw [joinParts_out, flatMap_eq_nil_iff]
    intro part _
    apply flatMap_eq_nil_iff.mpr
    intro s hs
    have hfilter : ((splitByRadix ownKey.build (replicate n 0 ++ [1]) 2 part).zipIdx.filter fun r =>
        ownKey.agree r.1 s.1) = [] := by
      rw [filter_eq_nil_iff]
      intro r hr
      obtain ⟨g, -, hg⟩ := mem_filterMap.mp (hmem hr)
      rw [hzero (hmod _)] at hg
      obtain ⟨g', -, hg'⟩ := mem_filterMap.mp (hmem hs)
      rw [← Option.some.inj hg, mem_singleton.mp (mem_of_getElem? hg')]
      decide
    exact congrArg (filterMap _) hfilter
  · intro hnil
    have hlast : ((1 : UInt64), n) ∈ (replicate n (0 : UInt64) ++ [1]).zipIdx := by
      rw [mem_zipIdx_iff_getElem?, getElem?_append_right (Nat.le_of_eq length_replicate),
        length_replicate, Nat.sub_self]
      rfl
    have hnone := filterMap_eq_nil_iff.mp (flatMap_eq_nil_iff.mp hnil (1, 0) mem_cons_self) (1, n)
      (mem_filter.mpr ⟨hlast, rfl⟩)
    rw [hzero (hmod n)] at hnone
    cases hnone

section Repartition

variable {r s : α} {h k : UInt64}

theorem bucket_congr {a e : Nat} (hae : a ≤ e) (hmod : h.toNat % 2 ^ e = k.toNat % 2 ^ e) :
    bucket (2 ^ a) h = bucket (2 ^ a) k := by
  rw [bucket, bucket, Nat.and_two_pow_sub_one_eq_mod, Nat.and_two_pow_sub_one_eq_mod,
    ← Nat.mod_mod_of_dvd _ (Nat.pow_dvd_pow 2 hae), hmod, Nat.mod_mod_of_dvd _ (Nat.pow_dvd_pow 2 hae)]

theorem mem_splitByRadix {hash : α → Option UInt64} {n part : Nat} (hlen : Numbered hash build)
    (hr : r ∈ build)
    (hh : hash r = some h) : r ∈ splitByRadix hash build n part ↔ bucket n h = part := by
  rw [splitByRadix_eq hlen, mem_filter, hh]
  simp [hr]

theorem mem_of_mem_leaf {passes files : Nat} {leaf : List α × List α}
    (hleaf : leaf ∈ (joinPartition cfg key (fun b p => [(b, p)]) passes build probe files).1)
    (hr : r ∈ leaf.1) :
    r ∈ build := by
  induction passes generalizing build probe files with
  | zero =>
    obtain rfl := mem_singleton.mp hleaf
    exact hr
  | succ passes ih =>
    unfold joinPartition at hleaf
    split at hleaf
    · obtain rfl := mem_singleton.mp hleaf
      exact hr
    · rw [joinParts_out] at hleaf
      obtain ⟨part, -, hpart⟩ := mem_flatMap.mp hleaf
      obtain ⟨g, -, hg⟩ := mem_filterMap.mp (ih hpart)
      exact mem_of_getElem? hg

variable {cfg key} (hh : key.build r = some h) (hk : key.build s = some k)

include hh hk

theorem joinPartition_together {passes : Nat} (files : Nat) (hbuild : Numbered key.build build)
    (hr : r ∈ build) (hs : s ∈ build) (hmod : h.toNat % cfg.partitions = k.toNat % cfg.partitions) :
    ∃ leaf ∈ (joinPartition cfg key (fun b p => [(b, p)]) passes build probe files).1, r ∈ leaf.1 ∧
      s ∈ leaf.1 := by
  induction passes generalizing build probe files with
  | zero => exact ⟨_, mem_singleton_self _, hr, hs⟩
  | succ passes ih =>
    unfold joinPartition
    split
    · exact ⟨_, mem_singleton_self _, hr, hs⟩
    · obtain ⟨a, ha, hpow⟩ := cfg.subPartitions_pow (cfg.estimateBytes build)
      rw [joinParts_out, hpow]
      obtain ⟨leaf, hleaf, hboth⟩ := ih _ hbuild.splitByRadix ((mem_splitByRadix hbuild hr hh).mpr rfl)
        ((mem_splitByRadix hbuild hs hk).mpr (bucket_congr ha hmod.symm))
      exact ⟨leaf, mem_flatMap.mpr ⟨_, mem_range.mpr (bucket_lt (Nat.two_pow_pos a)), hleaf⟩, hboth⟩

/-- Two build rows end in one in-memory join exactly when their hashes agree on the bits of the
first pass: the later passes separate nothing. -/
theorem executeExternal_together_iff (probe : List α) (hbuild : build.length ≤ 2 ^ 32)
    (hr : r ∈ build) (hs : s ∈ build) :
    (∃ leaf ∈ executeExternal cfg key (fun b p => [(b, p)]) build probe, r ∈ leaf.1 ∧ s ∈ leaf.1) ↔
      h.toNat % cfg.partitions = k.toNat % cfg.partitions := by
  have hnum : Numbered key.build build := numbered_of_length hbuild
  have hmem {t : α} {l : UInt64} (ht : t ∈ build) (hl : key.build t = some l) (part : Nat) :
      t ∈ splitByRadix key.build build cfg.partitions part ↔ l.toNat % cfg.partitions = part := by
    rw [mem_splitByRadix hnum ht hl, bucket, JoinSpillConfig.partitions, Nat.and_two_pow_sub_one_eq_mod]
  rw [executeExternal, joinParts_out]
  constructor
  · rintro ⟨leaf, hleaf, hrl, hsl⟩
    obtain ⟨part, -, hpart⟩ := mem_flatMap.mp hleaf
    rw [(hmem hr hh part).mp (mem_of_mem_leaf cfg key hpart hrl),
      (hmem hs hk part).mp (mem_of_mem_leaf cfg key hpart hsl)]
  · intro hmod
    obtain ⟨leaf, hleaf, hboth⟩ := joinPartition_together hh hk _ hnum.splitByRadix
      ((hmem hr hh _).mpr rfl)
      ((hmem hs hk _).mpr hmod.symm) hmod
    exact ⟨leaf, mem_flatMap.mpr ⟨_, mem_range.mpr (Nat.mod_lt _ (Nat.two_pow_pos _)), hleaf⟩, hboth⟩

end Repartition

theorem executeExternal_together_keys :
    ¬∃ leaf ∈ executeExternal (oneByte 3) ownKey (fun b p => [(b, p)]) [1, 2] [1], 1 ∈ leaf.1 ∧
      2 ∈ leaf.1 := by
  rw [@executeExternal_together_iff _ (oneByte 3) ownKey [1, 2] 1 2 1 2 rfl rfl [1] (by decide)
    (by decide) (by decide)]
  decide

/-- Hashes 0 and 2, two buckets and a grant that no partition fits: bit 1 is never looked at. -/
theorem repartition_keeps_together :
    (∀ rows, (oneByte 3).remaining < (oneByte 3).estimateBytes rows) ∧
      ∃ leaf ∈ executeExternal (oneByte 3) ownKey (fun b p => [(b, p)]) [0, 2] [0], 0 ∈ leaf.1 ∧
        2 ∈ leaf.1 := by
  refine ⟨fun _ => Nat.lt_succ_self 1, ?_⟩
  obtain ⟨leaf, hleaf, hboth⟩ := @joinPartition_together _ (oneByte 3) ownKey [0, 2] [0] 0 2 0 2
    rfl rfl 2 4
    (numbered_of_length (by decide)) (by decide) (by decide) (by decide)
  rw [executeExternal, joinParts_out]
  exact ⟨leaf, mem_flatMap.mpr ⟨0, by decide, hleaf⟩, hboth⟩

end Akar.JoinSpill
