import Akar.PoolBooks

namespace Akar

open List Option Function

inductive CacheOp (n : Nat) where
  | pin (k : PageKey)
  | pinMut (k : PageKey) (write : Option (Fin n → UInt8))
  | unpin (k : PageKey)
  | flush (k : PageKey)
  | flushAll

namespace BufferManager

variable {n : Nat} {bm bm' : BufferManager n} {k j : PageKey} {f : Frame n}
    {spec : PageKey → Fin n → UInt8}

def cached (bm : BufferManager n) : CacheOp n → Option (BufferManager n)
  | .pin k => some (bm.pin .ok k).1
  | .pinMut k write => some (bm.pinMut .ok k write).1
  | .unpin k => some (bm.unpin k)
  | .flush k => some (bm.flush .ok k).1
  | .flushAll => some (bm.flushAll .ok)

def diskPage (bm : BufferManager n) (k : PageKey) : Fin n → UInt8 := match bm.files k.1 with
  | some path => ByteFile.readAt ((bm.disk path).getD []) (offset n k.2) n
  | none => fun _ => 0

def Addressable (n : Nat) (page : PageNum) : Prop := page.toNat * n + n < 2 ^ 64

instance (page : PageNum) : Decidable (Addressable n page) := inferInstanceAs (Decidable (_ < _))

theorem offset_of_addressable {page : PageNum} (h : Addressable n page) : offset n page =
    page.toNat * n := by
  unfold Addressable at h
  have hn : n % 2 ^ 64 = n := Nat.mod_eq_of_lt (by omega)
  have hmul : page.toNat * n < 2 ^ 64 := by omega
  rw [offset, UInt64.toNat_mul, UInt64.toNat_ofNat', hn, Nat.mod_eq_of_lt hmul]

def OnFile (bm : BufferManager n) (k : PageKey) : Prop :=
  (bm.files k.1).isSome = true ∧ Addressable n k.2

instance (bm : BufferManager n) (k : PageKey) : Decidable (bm.OnFile k) :=
  inferInstanceAs (Decidable (_ ∧ _))

def DistinctPaths (files : String → Option String) : Prop :=
  ∀ a b path, files a = some path → files b = some path → a = b

theorem offsets_disjoint {a b : PageNum} (ha : Addressable n a) (hb : Addressable n b) (hne : a ≠ b) :
    offset n a + n ≤ offset n b ∨ offset n b + n ≤ offset n a := by
  rw [offset_of_addressable ha, offset_of_addressable hb]
  rcases Nat.lt_trichotomy a.toNat b.toNat with h | h | h
  · left
    have hmul : (a.toNat + 1) * n ≤ b.toNat * n := Nat.mul_le_mul_right n h
    rwa [Nat.add_mul, Nat.one_mul] at hmul
  · exact absurd (UInt64.toNat_inj.mp h) hne
  · right
    have hmul : (b.toNat + 1) * n ≤ a.toNat * n := Nat.mul_le_mul_right n h
    rwa [Nat.add_mul, Nat.one_mul] at hmul

variable {path : String}

theorem files_writeToDisk (data : Fin n → UInt8) : (bm.writeToDisk k data).files = bm.files := by
  rw [writeToDisk_eq]

theorem diskPage_of_file (hpath : bm.files k.1 = some path) :
    bm.diskPage k = ByteFile.readAt ((bm.disk path).getD []) (offset n k.2) n := by
  rw [diskPage, hpath]

theorem diskPage_writeToDisk (hpaths : DistinctPaths bm.files) (hk : bm.OnFile k) (hj : bm.OnFile j)
    (data : Fin n → UInt8) : (bm.writeToDisk k data).diskPage j = if j =
      k then data else bm.diskPage j := by
  obtain ⟨pk, hpk⟩ := isSome_iff_exists.mp hk.1
  obtain ⟨pj, hpj⟩ := isSome_iff_exists.mp hj.1
  have hpj' : (bm.writeToDisk k data).files j.1 = some pj := by
    rw [files_writeToDisk]
    exact hpj
  rw [diskPage_of_file hpj, diskPage_of_file hpj', writeToDisk, hpk]
  dsimp only
  by_cases hfile : j.1 = k.1
  · have hsame : pj = pk := by
      rw [hfile, hpk] at hpj
      exact (some.inj hpj).symm
    subst hsame
    rw [update_self, getD_some]
    by_cases hpage : j.2 = k.2
    · have heq := Prod.ext hfile hpage
      rw [if_pos heq, heq, ByteFile.readAt_writeAt_self]
    · have hne : ¬j = k := fun heq => hpage (congrArg Prod.snd heq)
      have hdisjoint := offsets_disjoint hk.2 hj.2 fun heq => hpage heq.symm
      rw [if_neg hne, ByteFile.readAt_writeAt_of_disjoint hdisjoint]
  · have hne : ¬j = k := fun heq => hfile (congrArg Prod.fst heq)
    have hother : pj ≠ pk := fun heq => hfile (hpaths j.1 k.1 pk (heq ▸ hpj) hpk)
    rw [if_neg hne, update_of_ne hother]

/-- The pool shows the contents `spec`: resident pages hold them, and the file has them for every
page that is not in the pool or unchanged there. -/
structure Shows (bm : BufferManager n) (spec : PageKey → Fin n → UInt8) : Prop where
  paths : DistinctPaths bm.files
  resident : ∀ k f, bm.OnFile k → bm.frames.lookup k = some f → f.data = spec k
  onDisk : ∀ k, bm.OnFile k → (∀ f, bm.frames.lookup k = some f → f.isDirty = false) →
    bm.diskPage k = spec k
  dirty : ∀ k f, bm.frames.lookup k = some f → f.isDirty = true → bm.OnFile k

theorem OnFile.congr (h : bm.OnFile k) (hfiles : bm'.files = bm.files) : bm'.OnFile k :=
  ⟨by rw [hfiles]; exact h.1, h.2⟩

theorem Shows.congr (h : bm.Shows spec) (hframes : bm'.frames = bm.frames)
    (hfiles : bm'.files = bm.files) (hdisk : bm'.disk = bm.disk) : bm'.Shows spec := by
  have hpage (k : PageKey) : bm'.diskPage k = bm.diskPage k := by rw [diskPage, diskPage, hfiles, hdisk]
  refine ⟨by rw [hfiles]; exact h.paths, fun k f hk hf => ?_, fun k hk hclean =>
    ?_, fun k f hf hd => ?_⟩
  · rw [hframes] at hf
    exact h.resident k f (hk.congr hfiles.symm) hf
  · rw [hframes] at hclean
    rw [hpage]
    exact h.onDisk k (hk.congr hfiles.symm) hclean
  · rw [hframes] at hf
    exact (h.dirty k f hf hd).congr hfiles

theorem Shows.setFrame {f' : Frame n} (h : bm.Shows spec) (hf : bm.frames.lookup k = some f)
    (hdata : f'.data = f.data) (hdirty : f'.isDirty = f.isDirty) : (bm.setFrame k f').Shows spec where
  paths := h.paths
  resident j g hj hg := by
    rw [lookup_setFrame] at hg
    split at hg
    next heq =>
      cases hg
      subst heq
      exact hdata.trans (h.resident j f hj hf)
    next => exact h.resident j g hj hg
  onDisk j hj hclean := by
    refine h.onDisk j hj fun g hg => ?_
    by_cases heq : j = k
    · subst heq
      cases hf.symm.trans hg
      rw [← hdirty]
      exact hclean f' (by rw [lookup_setFrame, if_pos rfl])
    · exact hclean g (by rw [lookup_setFrame, if_neg heq]; exact hg)
  dirty j g hg hd := by
    rw [lookup_setFrame] at hg
    split at hg
    next heq =>
      cases hg
      subst heq
      exact h.dirty j f hf (hdirty ▸ hd)
    next => exact h.dirty j g hg hd

theorem Shows.diskPage_writeBack (h : bm.Shows spec) (hf : bm.frames.lookup k = some f)
    (hj : bm.OnFile j) :
    (bm.writeBack k f).diskPage j = if j = k then spec j else bm.diskPage j := by
  cases hd : f.isDirty with
  | true =>
    have hk := h.dirty k f hf hd
    rw [writeBack, if_pos hd, diskPage_writeToDisk h.paths hk hj, h.resident k f hk hf]
    split
    next heq => rw [heq]
    next => rfl
  | false =>
    have hsame : bm.writeBack k f = bm := if_neg (by simp [hd])
    rw [hsame]
    split
    next heq =>
      subst heq
      refine h.onDisk j hj fun g hg => ?_
      cases hf.symm.trans hg
      exact hd
    next => rfl

theorem Shows.sweeps (h : bm.Shows spec) (hm : Sweeps bm bm') : bm'.Shows spec := by
  cases hm with
  | hand => exact h.congr rfl rfl rfl
  | unref k f hf => exact h.setFrame hf rfl rfl
  | evict k f hf =>
    have hfiles : ((bm.writeBack k f).remove k bm.clockHand).files = bm.files := by rw [writeBack_eq]; rfl
    have hlookup (j : PageKey) :
        ((bm.writeBack k f).remove k bm.clockHand).frames.lookup j = if j =
          k then none else bm.frames.lookup j := by
      rw [lookup_remove, frames_writeBack]
    refine ⟨hfiles ▸ h.paths, fun j g hj hg => ?_, fun j hj hclean => ?_, fun j g hg hd => ?_⟩
    · rw [hlookup] at hg
      split at hg
      · cases hg
      · exact h.resident j g (hj.congr hfiles.symm) hg
    · have hj' := hj.congr hfiles.symm
      show (bm.writeBack k f).diskPage j = spec j
      rw [h.diskPage_writeBack hf hj']
      split
      next => rfl
      next hne =>
        refine h.onDisk j hj' fun g hg => hclean g ?_
        rw [hlookup, if_neg hne]
        exact hg
    · rw [hlookup] at hg
      split at hg
      · cases hg
      · exact (h.dirty j g hg hd).congr hfiles

def mappedLength (bm : BufferManager n) (path : String) : Nat :=
  (bm.mmapRegions path).getD ((bm.disk path).getD []).length

def InMap (bm : BufferManager n) (k : PageKey) : Prop := bm.useMmap = true → ∀ path ∈ bm.files k.1,
    offset n k.2 + n ≤ bm.mappedLength path ∨ bm.diskPage k = fun _ => 0

instance (bm : BufferManager n) (k : PageKey) : Decidable (bm.InMap k) := decidable_of_iff
    (bm.useMmap = true → ∀ path ∈ bm.files k.1, offset n k.2 + n ≤ bm.mappedLength path ∨ ∀ i,
      bm.diskPage k i = 0)
    (by simp only [InMap, funext_iff])

theorem mappedLength_mapFile (bm : BufferManager n) (file path : String) :
    (bm.mapFile file).mappedLength path = bm.mappedLength path := by
  unfold mappedLength
  unfold mapFile
  split
  next p _ _ =>
    split
    next bytes hmap hbytes =>
      dsimp only
      by_cases hp : path = p
      · rw [hp, update_self, hmap, hbytes]
        rfl
      · rw [update_of_ne hp]
    next => rfl
  next => rfl

theorem diskPage_mapFile (bm : BufferManager n) (file : String) (k : PageKey) :
    (bm.mapFile file).diskPage k = bm.diskPage k := by
  rw [mapFile_eq]
  rfl

theorem pageBytes_mapFile (haddr : Addressable n k.2) (h : bm.InMap k) :
    (bm.mapFile k.1).pageBytes k = bm.diskPage k := by
  have hend : (offset n k.2 + n) % 2 ^ 64 = offset n k.2 + n := by
    have hoff := offset_of_addressable haddr
    unfold Addressable at haddr
    exact Nat.mod_eq_of_lt (by omega)
  have hfiles : (bm.mapFile k.1).files = bm.files := by rw [mapFile_eq]
  have hdisk : (bm.mapFile k.1).disk = bm.disk := by rw [mapFile_eq]
  have hmode : (bm.mapFile k.1).useMmap = bm.useMmap := by rw [mapFile_eq]
  cases hpath : bm.files k.1 with
  | none => rw [pageBytes, diskPage, hfiles, hpath]
  | some path =>
    rw [pageBytes, diskPage, hfiles, hpath, hdisk, hmode, hend]
    cases hmmap : bm.useMmap with
    | false => rfl
    | true =>
      have hin := h hmmap path hpath
      rw [diskPage_of_file hpath] at hin
      have hregion : (bm.mapFile k.1).mmapRegions path =
          if bm.disk path = none ∧ bm.mmapRegions path =
            none then none else some (bm.mappedLength path) := by
        unfold mapFile mappedLength
        rw [hmmap, hpath]
        cases hmap : bm.mmapRegions path <;> cases hbytes : bm.disk path <;> simp [hmap, hbytes]
      dsimp only
      rw [if_pos rfl, hregion]
      split
      next hnone =>
        split at hnone
        next hno => rw [hno.1]; rfl
        next => cases hnone
      next len hsome =>
        split at hsome
        · cases hsome
        · cases hsome
          split
          next hshort =>
            rcases hin with hin | hin
            · omega
            · exact hin.symm
          next => rfl

theorem Shows.load (h : bm.Shows spec) (hnew : k ∉ bm.frames) (hin : Addressable n k.2 → bm.InMap k)
    (hdata : f.data = (bm.mapFile k.1).pageBytes k) (hdirty : f.isDirty = false) :
    ((bm.mapFile k.1).load k f).Shows spec := by
  have hfiles : ((bm.mapFile k.1).load k f).files = bm.files := by rw [mapFile_eq]; rfl
  have hdisk (j : PageKey) : ((bm.mapFile k.1).load k f).diskPage j = bm.diskPage j :=
    diskPage_mapFile bm k.1 j
  have hlookup (j : PageKey) :
      ((bm.mapFile k.1).load k f).frames.lookup j = if j = k then some f else bm.frames.lookup j := by
    rw [lookup_load, frames_mapFile]
  have habsent := AList.lookup_eq_none.mpr hnew
  refine ⟨hfiles ▸ h.paths, fun j g hj hg => ?_, fun j hj hclean => ?_, fun j g hg hd => ?_⟩
  · have hj' := hj.congr hfiles.symm
    rw [hlookup] at hg
    split at hg
    next heq =>
      cases hg
      subst heq
      rw [hdata, pageBytes_mapFile hj.2 (hin hj.2)]
      exact h.onDisk j hj' fun g hg => by rw [habsent] at hg; cases hg
    next => exact h.resident j g hj' hg
  · rw [hdisk]
    refine h.onDisk j (hj.congr hfiles.symm) fun g hg => hclean g ?_
    have hne : j ≠ k := by
      rintro rfl
      rw [habsent] at hg
      cases hg
    rw [hlookup, if_neg hne]
    exact hg
  · rw [hlookup] at hg
    split at hg
    next =>
      cases hg
      rw [hdirty] at hd
      cases hd
    next => exact (h.dirty j g hg hd).congr hfiles

theorem InMap.load (h : bm.InMap j) : ((bm.mapFile k.1).load k f).InMap j := by
  intro hmmap path hpath
  have hfiles : (bm.mapFile k.1).files = bm.files := by rw [mapFile_eq]
  have hmode : (bm.mapFile k.1).useMmap = bm.useMmap := by rw [mapFile_eq]
  have hin := h (hmode.symm.trans hmmap) path (by rw [← hfiles]; exact hpath)
  rw [← mappedLength_mapFile bm k.1 path, ← diskPage_mapFile bm k.1 j] at hin
  exact hin

theorem InMap.sweeps (hin : bm.InMap j) (hm : Sweeps bm bm') (h : bm.Shows spec)
    (habsent : j ∉ bm.frames) (hj : Addressable n j.2) : bm'.InMap j := by
  cases hm with
  | hand | unref => exact hin
  | evict k f hf =>
    intro hmmap path hpath
    have hfiles : (bm.writeBack k f).files = bm.files := by rw [writeBack_eq]
    have hmode : (bm.writeBack k f).useMmap = bm.useMmap := by rw [writeBack_eq]
    have hmaps : (bm.writeBack k f).mmapRegions = bm.mmapRegions := by rw [writeBack_eq]
    have hpath' : bm.files j.1 = some path := by rw [← hfiles]; exact hpath
    have hne : j ≠ k := fun heq => habsent (heq ▸ mem_of_lookup hf)
    have hpage : (bm.writeBack k f).diskPage j = bm.diskPage j := by
      rw [h.diskPage_writeBack hf ⟨by rw [hpath']; rfl, hj⟩, if_neg hne]
    have hgrow : bm.mappedLength path ≤ (bm.writeBack k f).mappedLength path := by
      unfold mappedLength
      rw [hmaps]
      cases bm.mmapRegions path with
      | some => exact le_rfl
      | none =>
        show ((bm.disk path).getD []).length ≤ (((bm.writeBack k f).disk path).getD []).length
        unfold writeBack writeToDisk
        split
        · split
          next p _ =>
            dsimp only
            by_cases hp : path = p
            · rw [hp, update_self, getD_some, ByteFile.writeAt, length_ofFn]
              exact Nat.le_max_left ..
            · rw [update_of_ne hp]
          next => exact le_rfl
        · exact le_rfl
    show _ ≤ (bm.writeBack k f).mappedLength path ∨ (bm.writeBack k f).diskPage j = _
    rw [hpage]
    exact (hin (hmode.symm.trans hmmap) path hpath').imp (fun hle => hle.trans hgrow) id

structure SameConfig (bm bm' : BufferManager n) : Prop where
  maxFrames : bm'.maxFrames = bm.maxFrames
  readahead : bm'.readahead = bm.readahead
  files : bm'.files = bm.files

theorem SameConfig.refl (bm : BufferManager n) : SameConfig bm bm := ⟨rfl, rfl, rfl⟩

theorem SameConfig.trans {bm'' : BufferManager n} (h : SameConfig bm bm') (h' : SameConfig bm' bm'') :
    SameConfig bm bm'' :=
  ⟨h'.maxFrames.trans h.maxFrames, h'.readahead.trans h.readahead, h'.files.trans h.files⟩

theorem Sweeps.sameConfig (hm : Sweeps bm bm') : SameConfig bm bm' := by
  cases hm with
  | hand | unref => exact ⟨rfl, rfl, rfl⟩
  | evict => rw [writeBack_eq]; exact ⟨rfl, rfl, rfl⟩

theorem sameConfig_load (bm : BufferManager n) (k : PageKey) (f : Frame n) :
    SameConfig bm ((bm.mapFile k.1).load k f) := by
  rw [mapFile_eq]
  exact ⟨rfl, rfl, rfl⟩

theorem Fetches.sameConfig {ks : List PageKey} (hm : Fetches ks bm bm') : SameConfig bm bm' := by
  cases hm with
  | load k => exact sameConfig_load bm k _

theorem moves_sameConfig {R : BufferManager n → BufferManager n → Prop}
    (hR : ∀ bm bm', R bm bm' → SameConfig bm bm')
    (h : Relation.ReflTransGen R bm bm') : SameConfig bm bm' :=
  moves_keep (P := fun b => SameConfig bm b) (fun _ _ hm hb => hb.trans (hR _ _ hm)) h (.refl bm)

theorem sameConfig_evict (bm : BufferManager n) (io : Io) : SameConfig bm (bm.evict io).1 :=
  moves_sameConfig (fun _ _ hm => hm.sameConfig) (evict_sweeps bm io)

theorem numFrames_sweep (io : Io) (len turns : Nat) (bm : BufferManager n) :
    bm.numFrames ≤ (sweep io len turns bm).1.numFrames + 1 := by
  induction turns generalizing bm with
  | zero => exact Nat.le_succ _
  | succ turns ih =>
    simp only [sweep]
    generalize (if len ≤ bm.clockHand then 0 else bm.clockHand) = hand
    split
    · exact Nat.le_succ _
    next k _ =>
    split
    · exact ih { bm with clockHand := hand }
    next f hf =>
    split
    · exact ih { bm with clockHand := hand + 1 }
    · split
      · have hnext := ih { bm.setFrame k { f with clockRef := false } with clockHand := hand + 1 }
        have hsame : bm.numFrames = (bm.setFrame k { f with clockRef := false }).numFrames :=
          (numFrames_setFrame (mem_of_lookup hf)).symm
        exact hsame.trans_le hnext
      · split
        · split
          · have hgone := numFrames_remove (show k ∈ (bm.writeToDisk k f.data).frames by
              rw [writeToDisk_eq]
              exact mem_of_lookup hf) hand
            have hsame : (bm.writeToDisk k f.data).numFrames = bm.numFrames := by rw [writeToDisk_eq]; rfl
            rw [hsame] at hgone
            exact hgone.ge
          · exact Nat.le_succ _
        · exact (numFrames_remove (mem_of_lookup hf) hand).ge

theorem numFrames_evict (bm : BufferManager n) (io : Io) : bm.numFrames ≤
    (bm.evict io).1.numFrames + 1 := by
  unfold evict
  split
  · exact Nat.le_succ _
  · exact numFrames_sweep io _ _ bm

theorem sweep_ok (len turns : Nat) (bm : BufferManager n) : (sweep .ok len turns bm).2 = true := by
  induction turns generalizing bm with
  | zero => rfl
  | succ turns ih =>
    simp only [sweep]
    split
    · rfl
    · split
      · exact ih _
      · split
        · exact ih _
        · split
          · exact ih _
          · split
            · rfl
            · rfl

theorem evict_ok (bm : BufferManager n) : (bm.evict .ok).2 = true := by
  unfold evict
  split
  · rfl
  · exact sweep_ok _ _ bm

theorem prefetch_of_full (io : Io) (ks : List PageKey) (h : bm.maxFrames ≤ bm.numFrames) :
    prefetch io ks bm = bm := by
  induction ks with
  | nil => rfl
  | cons k ks ih =>
    rw [prefetch, if_pos h, ih, ite_self]

theorem maybeReadahead_of_full (io : Io) (k : PageKey) (h : bm.maxFrames ≤ bm.numFrames) :
    bm.maybeReadahead io k = bm := by
  unfold maybeReadahead
  split
  · split
    · split
      · exact prefetch_of_full io _ h
      · rfl
    · rfl
  · rfl

def Readable (bm : BufferManager n) (k : PageKey) : Prop :=
  bm.OnFile k ∧ ∀ j ∈ k :: bm.ahead k, j ∉ bm.frames → Addressable n j.2 → bm.InMap j

instance (bm : BufferManager n) (k : PageKey) : Decidable (bm.Readable k) :=
  inferInstanceAs (Decidable (_ ∧ _))

theorem Shows.maybeReadahead (h : bm.Shows spec) (io : Io)
    (hin : ∀ j ∈ bm.ahead k, j ∉ bm.frames → Addressable n j.2 → bm.InMap j) :
    (bm.maybeReadahead io k).Shows spec := by
  -- Along the way pages only come in, so whatever is still absent was absent at the start.
  have hkeep := moves_keep
    (P := fun b => b.Shows spec ∧ ∀ j ∈ bm.ahead k, j ∉ b.frames → Addressable n j.2 → b.InMap j)
    (fun b b' hm hb => by
      cases hm with
      | load j hj hnew =>
        refine ⟨hb.1.load hnew (hb.2 j hj hnew) rfl rfl, fun i hi habsent haddr => ?_⟩
        refine (hb.2 i hi (fun hh => habsent ?_) haddr).load
        show i ∈ AList.insert ..
        rw [AList.mem_insert, frames_mapFile]
        exact .inr hh)
    (maybeReadahead_fetches bm io k) ⟨h, hin⟩
  exact hkeep.1

theorem Shows.evict (h : bm.Shows spec) (io : Io) : (bm.evict io).1.Shows spec :=
  moves_keep (P := fun b => b.Shows spec) (fun _ _ hm hb => hb.sweeps hm) (evict_sweeps bm io) h

theorem InMap.evict (hin : bm.InMap j) (io : Io) (h : bm.Shows spec) (habsent : j ∉ bm.frames)
    (hj : Addressable n j.2) : (bm.evict io).1.InMap j := by
  have hkeep := moves_keep (P := fun b => b.Shows spec ∧ j ∉ b.frames ∧ b.InMap j)
    (fun b b' hm hb => ⟨hb.1.sweeps hm, hm.absent hb.2.1, hb.2.2.sweeps hm hb.1 hb.2.1 hj⟩)
    (evict_sweeps bm io) ⟨h, habsent, hin⟩
  exact hkeep.2.2

theorem Shows.faulted (h : bm.Shows spec) (hk : bm.OnFile k) (hnew : k ∉ bm.frames) (hin : bm.InMap k) :
    (bm.faulted k).Shows spec ∧ (bm.freshFrame k).data = spec k := by
  have hload := h.load (f := bm.freshFrame k) hnew (fun _ => hin) rfl rfl
  refine ⟨hload.congr rfl rfl rfl, ?_⟩
  exact hload.resident k _ (hk.congr (sameConfig_load bm k _).files) (by rw [lookup_load, if_pos rfl])

theorem sameConfig_faulted (bm : BufferManager n) (k : PageKey) : SameConfig bm (bm.faulted k) :=
  (sameConfig_load bm k (bm.freshFrame k)).trans ⟨rfl, rfl, rfl⟩

theorem numFrames_faulted (hnew : k ∉ bm.frames) : (bm.faulted k).numFrames = bm.numFrames + 1 := by
  have hnew' : k ∉ (bm.mapFile k.1).frames := by
    rw [frames_mapFile]
    exact hnew
  have hload := numFrames_load (f := bm.freshFrame k) hnew'
  have hsame : (bm.mapFile k.1).numFrames = bm.numFrames := by rw [numFrames, frames_mapFile, numFrames]
  rw [hsame] at hload
  exact hload

theorem inMap_faulted (h : j ∉ bm.frames → bm.InMap j) (habsent : j ∉ (bm.faulted k).frames) :
    (bm.faulted k).InMap j := by
  have hj : j ∉ bm.frames := by
    intro hh
    exact habsent (mem_faulted.mpr (.inr hh))
  exact (h hj).load (f := bm.freshFrame k)

theorem Shows.pin (h : bm.Shows spec) (hk : bm.Readable k) :
    (bm.pin .ok k).1.Shows spec ∧ ∃ f, (bm.pin .ok k).2 = some f ∧ f.data = spec k := by
  obtain ⟨hon, hreads⟩ := hk
  generalize hresult : bm.pin .ok k = result
  have hcases := pin_cases bm .ok k
  rw [hresult] at hcases
  cases hcases with
  | hit f hf =>
    have hset : (bm.setFrame k f.access).Shows spec := h.setFrame hf rfl rfl
    exact ⟨hset.congr rfl rfl rfl, f.access, rfl, h.resident k f hon hf⟩
  | full _ _ hfail => rw [evict_ok] at hfail; cases hfail
  | evicted hnew =>
    have hin : (bm.evict .ok).1.InMap k := (hreads k mem_cons_self hnew hon.2).evict .ok h hnew hon.2
    have hnew' := sweeps_absent (evict_sweeps bm .ok) hnew
    have hconfig := sameConfig_evict bm .ok
    obtain ⟨hshows, hdata⟩ := (h.evict .ok).faulted (hon.congr hconfig.files) hnew' hin
    -- the page that was evicted is not read back: the pool is full again
    have hstill : ((bm.evict .ok).1.faulted k).maxFrames ≤ ((bm.evict .ok).1.faulted k).numFrames := by
      have hone := numFrames_evict bm .ok
      rw [numFrames_faulted hnew', (sameConfig_faulted _ k).maxFrames, hconfig.maxFrames]
      omega
    rw [fault_eq _ rfl, maybeReadahead_of_full .ok k hstill]
    exact ⟨hshows, _, rfl, hdata⟩
  | room hnew =>
    obtain ⟨hshows, hdata⟩ := h.faulted hon hnew (hreads k mem_cons_self hnew hon.2)
    refine ⟨hshows.maybeReadahead .ok fun j hj habsent haddr => ?_, _, rfl, hdata⟩
    have hahead : j ∈ bm.ahead k := by
      unfold ahead at hj ⊢
      rwa [(sameConfig_faulted bm k).readahead] at hj
    exact inMap_faulted (fun hh => hreads j (mem_cons_of_mem _ hahead) hh haddr) habsent

def written (spec : PageKey → Fin n → UInt8) (k : PageKey) (write : Option (Fin n → UInt8)) :
    PageKey → Fin n → UInt8 :=
  match write with
  | some data => update spec k data
  | none => spec

theorem Shows.accessMut (h : bm.Shows spec) (hk : bm.OnFile k) (hres : k ∈ bm.frames)
    (write : Option (Fin n → UInt8)) : (bm.accessMut k write).Shows (written spec k write) := by
  obtain ⟨f, hf⟩ := exists_lookup hres
  rw [BufferManager.accessMut, hf]
  cases write with
  | none =>
    show (bm.setFrame k f.access).Shows spec
    exact h.setFrame hf rfl rfl
  | some data =>
    have hlookup (j : PageKey) : (bm.setFrame k (f.access.overwrite (some data))).frames.lookup j =
        if j = k then some (f.access.overwrite (some data)) else bm.frames.lookup j := lookup_setFrame
    refine ⟨h.paths, fun j g hj hg => ?_, fun j hj hclean => ?_, fun j g hg hd => ?_⟩
    · rw [hlookup] at hg
      split at hg
      next heq =>
        cases hg
        rw [heq, written, update_self]
        rfl
      next hne =>
        rw [written, update_of_ne hne]
        exact h.resident j g hj hg
    · have hne : j ≠ k := by
        rintro rfl
        have hdirty := hclean (f.access.overwrite (some data)) (by dsimp only; rw [hlookup, if_pos rfl])
        cases hdirty
      rw [written, update_of_ne hne]
      refine h.onDisk j hj fun g hg => hclean g ?_
      rw [hlookup, if_neg hne]
      exact hg
    · rw [hlookup] at hg
      split at hg
      next heq => rw [heq]; exact hk
      next => exact h.dirty j g hg hd

theorem sameConfig_pin (bm : BufferManager n) (io : Io) (k : PageKey) :
    SameConfig bm (bm.pin io k).1 := by
  have hfault (b : BufferManager n) : SameConfig b (b.fault io k).1 := by
    cases hread : io.reads k with
    | false => rw [fault_eq_of_unread b hread]; exact .refl b
    | true =>
      rw [fault_eq b hread]
      exact (sameConfig_faulted b k).trans
        (moves_sameConfig (fun _ _ hm => hm.sameConfig) (maybeReadahead_fetches _ io k))
  generalize hresult : bm.pin io k = result
  have hcases := pin_cases bm io k
  rw [hresult] at hcases
  cases hcases with
  | hit => exact ⟨rfl, rfl, rfl⟩
  | full => exact sameConfig_evict bm io
  | evicted => exact (sameConfig_evict bm io).trans (hfault _)
  | room => exact hfault bm

theorem Shows.pinMut (h : bm.Shows spec) (hk : bm.Readable k) (write : Option (Fin n → UInt8)) :
    (bm.pinMut .ok k write).1.Shows (written spec k write) := by
  unfold BufferManager.pinMut
  split
  next hres => exact h.accessMut hk.1 hres write
  next habsent =>
    obtain ⟨hshows, f, hf, -⟩ := h.pin hk
    have hsome : (bm.pin .ok k).2.isSome = true := by rw [hf]; rfl
    rw [if_pos hsome]
    exact hshows.accessMut (hk.1.congr (sameConfig_pin bm .ok k).files) (mem_pin hsome) write

theorem Shows.unpin (h : bm.Shows spec) (k : PageKey) : (bm.unpin k).Shows spec := by
  unfold BufferManager.unpin
  split
  next f hf =>
    refine h.setFrame hf ?_ ?_
    · unfold Frame.unpin
      split <;> rfl
    · unfold Frame.unpin
      split <;> rfl
  next => exact h

theorem Shows.flush (h : bm.Shows spec) (k : PageKey) : (bm.flush .ok k).1.Shows spec := by
  unfold BufferManager.flush
  split
  next f hf =>
    split
    next hd =>
      have hon := h.dirty k f hf hd
      have hfiles : (bm.writeToDisk k f.data).files = bm.files := files_writeToDisk f.data
      have hlookup (j : PageKey) :
          ((bm.writeToDisk k f.data).setFrame k { f with isDirty := false }).frames.lookup j =
            if j = k then some { f with isDirty := false } else bm.frames.lookup j := by
        rw [lookup_setFrame, writeToDisk_eq]
      rw [if_pos (show Io.ok.writes k = true from rfl)]
      refine ⟨?_, fun j g hj hg => ?_, fun j hj hclean => ?_, fun j g hg hd' => ?_⟩
      · show DistinctPaths (bm.writeToDisk k f.data).files
        rw [hfiles]
        exact h.paths
      · have hj' := OnFile.congr hj hfiles.symm
        rw [hlookup] at hg
        split at hg
        next heq => cases hg; subst heq; exact h.resident j f hj' hf
        next => exact h.resident j g hj' hg
      · have hj' := OnFile.congr hj hfiles.symm
        show (bm.writeToDisk k f.data).diskPage j = spec j
        rw [diskPage_writeToDisk h.paths hon hj']
        split
        next heq => rw [heq]; exact h.resident k f hon hf
        next hne =>
          refine h.onDisk j hj' fun g hg => hclean g ?_
          rw [hlookup, if_neg hne]
          exact hg
      · rw [hlookup] at hg
        split at hg
        next => cases hg; cases hd'
        next => exact OnFile.congr (h.dirty j g hg hd') hfiles
    next => exact h
  next => exact h

theorem Shows.flushKeys (h : bm.Shows spec) (ks : List PageKey) : (flushKeys .ok ks bm).Shows spec := by
  induction ks generalizing bm with
  | nil => exact h
  | cons k ks ih =>
    rw [BufferManager.flushKeys]
    split
    · exact ih (h.flush k)
    · exact h.flush k

def writesTo (k : PageKey) : CacheOp n → Option (Fin n → UInt8)
  | .pinMut j write => if j = k then write else none
  | _ => none

def lastWritten (k : PageKey) (ops : List (CacheOp n)) : Option (Fin n → UInt8) :=
  (ops.filterMap (writesTo k)).getLast?

/-- Pages that are accessed lie on registered files, and those that are read through a map lie
inside it. -/
def Allowed (bm : BufferManager n) : CacheOp n → Prop
  | .pin k | .pinMut k _ => bm.Readable k
  | _ => True

instance (bm : BufferManager n) : (op : CacheOp n) → Decidable (bm.Allowed op)
  | .pin k => inferInstanceAs (Decidable (bm.Readable k))
  | .pinMut k _ => inferInstanceAs (Decidable (bm.Readable k))
  | .unpin _ | .flush _ | .flushAll => .isTrue trivial

def after (spec : PageKey → Fin n → UInt8) : CacheOp n → PageKey → Fin n → UInt8
  | .pinMut k write => written spec k write
  | _ => spec

theorem Shows.cached {op : CacheOp n} (h : bm.Shows spec) (hok : bm.Allowed op)
    (hstep : bm.cached op = some bm') :
    bm'.Shows (after spec op) := by
  cases op with
  | pin => cases hstep; exact (h.pin hok).1
  | pinMut k write => cases hstep; exact h.pinMut hok write
  | unpin k => cases hstep; exact h.unpin k
  | flush k => cases hstep; exact h.flush k
  | flushAll => cases hstep; exact h.flushKeys _

theorem Shows.run {ops : List (CacheOp n)} (h : bm.Shows spec)
    (hok : Meets BufferManager.cached Allowed bm ops)
    (hrun : run BufferManager.cached bm ops = some bm') : bm'.Shows (ops.foldl after spec) := by
  induction ops generalizing bm spec with
  | nil => cases hrun; exact h
  | cons op ops ih =>
    obtain ⟨b, hstep, hrest⟩ := run_cons_eq_some.mp hrun
    exact ih (h.cached hok.1 hstep) (hok.2 b hstep) hrest

theorem after_apply (spec : PageKey → Fin n → UInt8) (op : CacheOp n) (k : PageKey) :
    after spec op k = (writesTo k op).getD (spec k) := by
  cases op with
  | pinMut j write =>
    cases write with
    | none => simp [after, written, writesTo]
    | some =>
      by_cases hj : k = j
      · subst hj
        simp [after, written, writesTo]
      · have hj' : ¬j = k := fun heq => hj heq.symm
        simp [after, written, writesTo, update_of_ne hj, hj']
  | pin | unpin | flush | flushAll => rfl

theorem foldl_after_apply (spec : PageKey → Fin n → UInt8) (ops : List (CacheOp n)) (k : PageKey) :
    ops.foldl after spec k = (lastWritten k ops).getD (spec k) := by
  induction ops generalizing spec with
  | nil => rfl
  | cons op ops ih =>
    rw [foldl_cons, ih, after_apply, lastWritten, lastWritten, filterMap_cons]
    cases writesTo k op with
    | none => rfl
    | some =>
      rw [getLast?_cons]
      cases (ops.filterMap (writesTo k)).getLast? <;> rfl

/-- With all reads through maps inside them, `pin` returns what was last written to the page, or the
bytes of its file. -/
theorem pin_returns_last_written (bm₀ : BufferManager n) (hempty : bm₀.frames = ∅)
    (hpaths : DistinctPaths bm₀.files) (ops : List (CacheOp n)) (k : PageKey) (bm : BufferManager n)
    (hrun : run BufferManager.cached bm₀ ops = some bm)
    (hok : Meets BufferManager.cached Allowed bm₀ (ops ++ [.pin k])) :
    ∃ f, (bm.pin .ok k).2 = some f ∧ f.data = (lastWritten k ops).getD (bm₀.diskPage k) := by
  have hstart : bm₀.Shows bm₀.diskPage := by
    have hnone (k : PageKey) (f : Frame n) (hf : bm₀.frames.lookup k = some f) : False := by
      rw [hempty] at hf
      cases hf
    exact ⟨hpaths, fun k f _ hf => (hnone k f hf).elim, fun _ _ _ => rfl, fun k f hf _ =>
      (hnone k f hf).elim⟩
  obtain ⟨hbefore, hlast⟩ := (meets_append hrun).mp hok
  obtain ⟨-, f, hf, hdata⟩ := (hstart.run hbefore hrun).pin hlast.1
  exact ⟨f, hf, hdata.trans (foldl_after_apply bm₀.diskPage ops k)⟩

def oneFramePool : BufferManager 1 := ((new 1 true ⟨false, 0⟩ fun path =>
    if path = "a.db" then some [5, 6] else if path = "b.db" then some [] else none).registerFile
      "a" "a.db").registerFile
    "b" "b.db"

theorem distinctPaths_oneFramePool : DistinctPaths oneFramePool.files := by
  intro x y path hx hy
  simp only [oneFramePool, registerFile, new, update_apply] at hx hy
  grind

def writeAndEvict : List (CacheOp 1) :=
  [.pinMut ("a", 0) (some fun _ => 9), .unpin ("a", 0), .unpin ("a", 0), .pin ("a", 1), .unpin ("a", 1)]

theorem pin_returns_last_written_evicted :
    ∃ bm f, run BufferManager.cached oneFramePool writeAndEvict = some bm ∧
      (bm.pin .ok ("a", 0)).2 = some f ∧ f.data = fun _ => 9 := by
  have hrun : run BufferManager.cached oneFramePool writeAndEvict = some _ := rfl
  obtain ⟨f, hf, hdata⟩ := pin_returns_last_written oneFramePool rfl distinctPaths_oneFramePool
    writeAndEvict
    ("a", 0) _ hrun (meets_of_check (by decide))
  exact ⟨_, f, hrun, hf, hdata⟩

/-- The second file is mapped while it is empty and never again, so that the byte written to it
reads as zero once the page has left the pool. -/
theorem write_behind_map_lost :
    ∃ bm f,
      run BufferManager.cached oneFramePool
        [.pin ("b", 0), .unpin ("b", 0), .pinMut ("b", 0) (some fun _ => 7), .unpin ("b", 0),
          .pin ("a", 0),
          .unpin ("a", 0)] = some bm ∧
      bm.diskPage ("b", 0) 0 = 7 ∧ (bm.pin .ok ("b", 0)).2 = some f ∧ f.data 0 = 0 :=
  ⟨_, _, rfl, rfl, rfl, rfl⟩

end BufferManager

end Akar
