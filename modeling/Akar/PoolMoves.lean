import Akar.BufferPool

namespace Akar

open AList

namespace BufferManager

variable {n : Nat} {bm bm' : BufferManager n} {io : Io} {k j : PageKey} {f : Frame n}

theorem lookup_setFrame : (bm.setFrame k f).frames.lookup j = if j =
    k then some f else bm.frames.lookup j := by
  by_cases h : j = k
  · subst h
    rw [if_pos rfl]
    exact lookup_insert _
  · rw [if_neg h]
    exact lookup_insert_ne h

theorem lookup_load : (bm.load k f).frames.lookup j = if j =
    k then some f else bm.frames.lookup j := lookup_setFrame

theorem lookup_remove (i : Nat) :
    (bm.remove k i).frames.lookup j = if j = k then none else bm.frames.lookup j := by
  by_cases h : j = k
  · subst h
    rw [if_pos rfl]
    exact lookup_erase ..
  · rw [if_neg h]
    exact lookup_erase_ne h

theorem mem_of_lookup (h : bm.frames.lookup k = some f) : k ∈ bm.frames := by
  rw [← lookup_isSome, h]
  rfl

theorem exists_lookup (h : k ∈ bm.frames) : ∃ f, bm.frames.lookup k = some f := by
  rw [← lookup_isSome] at h
  exact Option.isSome_iff_exists.mp h

theorem writeToDisk_eq (bm : BufferManager n) (k : PageKey) (data : Fin n → UInt8) :
    bm.writeToDisk k data = { bm with disk := (bm.writeToDisk k data).disk } := by
  unfold writeToDisk
  split <;> rfl

theorem mapFile_eq (bm : BufferManager n) (file : String) :
    bm.mapFile file = { bm with mmapRegions := (bm.mapFile file).mmapRegions } := by
  unfold mapFile
  split
  · split <;> rfl
  · rfl

@[simp] theorem frames_mapFile (bm : BufferManager n) (file : String) : (bm.mapFile file).frames =
    bm.frames := by
  rw [mapFile_eq]

def writeBack (bm : BufferManager n) (k : PageKey) (f : Frame n) : BufferManager n :=
  if f.isDirty then bm.writeToDisk k f.data else bm

theorem writeBack_eq (bm : BufferManager n) (k : PageKey) (f : Frame n) :
    bm.writeBack k f = { bm with disk := (bm.writeBack k f).disk } := by
  unfold writeBack
  split
  · exact writeToDisk_eq ..
  · rfl

@[simp] theorem frames_writeBack (bm : BufferManager n) (k : PageKey) (f : Frame n) :
    (bm.writeBack k f).frames = bm.frames := by
  rw [writeBack_eq]

inductive Sweeps : BufferManager n → BufferManager n → Prop where
  | hand (bm : BufferManager n) (h : Nat) : h ≤ bm.clockOrder.length → Sweeps bm { bm with clockHand := h }
  | unref (bm : BufferManager n) (k : PageKey) (f : Frame n) : bm.frames.lookup k = some f →
      Sweeps bm (bm.setFrame k { f with clockRef := false })
  | evict (bm : BufferManager n) (k : PageKey) (f : Frame n) : bm.frames.lookup k = some f → f.isPinned = false →
      bm.clockOrder[bm.clockHand]? = some k → Sweeps bm ((bm.writeBack k f).remove k bm.clockHand)

inductive Fetches (ks : List PageKey) : BufferManager n → BufferManager n → Prop where
  | load (bm : BufferManager n) (k : PageKey) : k ∈ ks → k ∉ bm.frames →
      Fetches ks bm ((bm.mapFile k.1).load k (.new ((bm.mapFile k.1).pageBytes k)))

theorem writeToDisk_hand (bm : BufferManager n) (k : PageKey) (data : Fin n → UInt8) (h : Nat) :
    writeToDisk { bm with clockHand := h } k data = { bm.writeToDisk k data with clockHand := h } := by
  unfold writeToDisk
  dsimp only
  split <;> rfl

open Relation in
theorem sweep_sweeps (io : Io) (turns : Nat) (bm : BufferManager n) :
    ReflTransGen Sweeps bm (sweep io bm.clockOrder.length turns bm).1 := by
  induction turns generalizing bm with
  | zero => exact .refl
  | succ turns ih =>
    simp only [sweep]
    generalize hhand : (if bm.clockOrder.length ≤ bm.clockHand then 0 else bm.clockHand) = hand
    have hle : hand ≤ bm.clockOrder.length := by
      subst hhand
      split <;> omega
    have hmove : ReflTransGen Sweeps bm { bm with clockHand := hand } := .single (.hand bm hand hle)
    split
    · exact hmove
    next k hk =>
    have hlt : hand < bm.clockOrder.length := (List.getElem?_eq_some_iff.mp hk).1
    split
    · exact hmove.trans (ih { bm with clockHand := hand })
    next f hf =>
    split
    · exact .head (.hand bm (hand + 1) hlt) (ih { bm with clockHand := hand + 1 })
    next hpin =>
    have hpin : f.isPinned = false := by simpa using hpin
    split
    · refine .head (.unref bm k f hf) (.head (.hand _ (hand + 1) hlt) ?_)
      exact ih { bm.setFrame k { f with clockRef := false } with clockHand := hand + 1 }
    · split
      next hdirty =>
        split
        · refine hmove.tail ?_
          have hlast := Sweeps.evict { bm with clockHand := hand } k f hf hpin hk
          rw [writeBack, if_pos hdirty, writeToDisk_hand] at hlast
          exact hlast
        · exact hmove
      next hclean =>
        refine hmove.tail ?_
        have hlast := Sweeps.evict { bm with clockHand := hand } k f hf hpin hk
        rw [writeBack, if_neg hclean] at hlast
        exact hlast

theorem moves_keep {R : BufferManager n → BufferManager n → Prop} {P : BufferManager n → Prop}
    (hR : ∀ bm bm', R bm bm' → P bm → P bm') (h : Relation.ReflTransGen R bm bm') (hbm : P bm) :
      P bm' := by
  induction h with
  | refl => exact hbm
  | tail _ hlast ih => exact hR _ _ hlast ih

theorem evict_sweeps (bm : BufferManager n) (io : Io) :
    Relation.ReflTransGen Sweeps bm (bm.evict io).1 := by
  unfold evict
  split
  · exact .refl
  · exact sweep_sweeps io _ bm

theorem prefetch_fetches (io : Io) {ks all : List PageKey} (hks : ks ⊆ all) (bm : BufferManager n) :
    Relation.ReflTransGen (Fetches all) bm (prefetch io ks bm) := by
  induction ks generalizing bm with
  | nil => exact .refl
  | cons k ks ih =>
    obtain ⟨hk, hrest⟩ := List.cons_subset.mp hks
    simp only [prefetch]
    split
    · exact ih hrest bm
    next hnew =>
    split
    · exact .refl
    · split
      · exact .head (.load bm k hk hnew) (ih hrest _)
      · exact ih hrest bm

theorem maybeReadahead_fetches (bm : BufferManager n) (io : Io) (k : PageKey) :
    Relation.ReflTransGen (Fetches (bm.ahead k)) bm (bm.maybeReadahead io k) := by
  unfold maybeReadahead
  split
  · split
    · split
      · exact prefetch_fetches io (List.Subset.refl _) bm
      · exact .refl
    · exact .refl
  · exact .refl

theorem Sweeps.absent (h : Sweeps bm bm') (hk : k ∉ bm.frames) : k ∉ bm'.frames := by
  rw [← lookup_eq_none] at hk ⊢
  cases h with
  | hand => exact hk
  | unref j f hf =>
    have hne : k ≠ j := by
      intro heq
      rw [heq, hf] at hk
      cases hk
    rw [lookup_setFrame, if_neg hne]
    exact hk
  | evict =>
    rw [lookup_remove, frames_writeBack]
    split
    · rfl
    · exact hk

theorem sweeps_absent (h : Relation.ReflTransGen Sweeps bm bm') (hk : k ∉ bm.frames) : k ∉ bm'.frames :=
  moves_keep (fun _ _ hm => hm.absent) h hk

inductive Pinned (bm : BufferManager n) (io : Io) (k : PageKey) :
    BufferManager n × Option (Frame n) → Prop where
  | hit (f : Frame n) : bm.frames.lookup k = some f → Pinned bm io k ((bm.setFrame k f.access).track k, some f.access)
  | full : k ∉ bm.frames → bm.maxFrames ≤ bm.numFrames → (bm.evict io).2 = false →
      Pinned bm io k ((bm.evict io).1, none)
  | evicted : k ∉ bm.frames → bm.maxFrames ≤ bm.numFrames → (bm.evict io).2 = true →
      Pinned bm io k ((bm.evict io).1.fault io k)
  | room : k ∉ bm.frames → bm.numFrames < bm.maxFrames → Pinned bm io k (bm.fault io k)

theorem pin_cases (bm : BufferManager n) (io : Io) (k : PageKey) : Pinned bm io k (bm.pin io k) := by
  unfold pin
  split
  next f hf => exact .hit f hf
  next hnone =>
    have habsent := lookup_eq_none.mp hnone
    split
    next hfull =>
      split
      next hok => exact .evicted habsent hfull hok
      next hok => exact .full habsent hfull (by simpa using hok)
    next hroom => exact .room habsent (by omega)

def freshFrame (bm : BufferManager n) (k : PageKey) : Frame n :=
  (Frame.new ((bm.mapFile k.1).pageBytes k)).pin

def faulted (bm : BufferManager n) (k : PageKey) : BufferManager n :=
  ((bm.mapFile k.1).load k (bm.freshFrame k)).track k

theorem fault_eq (bm : BufferManager n) (hread : io.reads k = true) :
    bm.fault io k = ((bm.faulted k).maybeReadahead io k, some (bm.freshFrame k)) := by
  unfold fault
  rw [if_pos hread]
  rfl

theorem fault_eq_of_unread (bm : BufferManager n) (hread : io.reads k = false) : bm.fault io k =
    (bm, none) := by
  unfold fault
  rw [if_neg (by simp [hread])]

theorem mem_faulted : j ∈ (bm.faulted k).frames ↔ j = k ∨ j ∈ bm.frames := by
  show j ∈ (bm.mapFile k.1).frames.insert k (bm.freshFrame k) ↔ _
  rw [AList.mem_insert, frames_mapFile]

theorem mem_fault (h : (bm.fault io k).2.isSome = true) : k ∈ (bm.fault io k).1.frames := by
  cases hread : io.reads k with
  | false =>
    rw [fault_eq_of_unread bm hread] at h
    cases h
  | true =>
    rw [fault_eq bm hread]
    -- read-ahead only adds pages
    refine moves_keep (P := fun b => k ∈ b.frames) (fun b b' hm hb => ?_)
      (maybeReadahead_fetches _ io k)
      (mem_faulted.mpr (.inl rfl))
    cases hm with
    | load =>
      show k ∈ AList.insert ..
      rw [AList.mem_insert, frames_mapFile]
      exact .inr hb

theorem mem_pin (h : (bm.pin io k).2.isSome = true) : k ∈ (bm.pin io k).1.frames := by
  generalize hresult : bm.pin io k = result at h ⊢
  have hcases := pin_cases bm io k
  rw [hresult] at hcases
  cases hcases with
  | hit =>
    show k ∈ AList.insert ..
    rw [AList.mem_insert]
    exact .inl rfl
  | full => cases h
  | evicted | room => exact mem_fault h

end BufferManager

end Akar
