import Akar.AppendAfterLoad
import Akar.Runs

namespace Akar

open ByteCodec List

namespace WalOnDisk

inductive WalAction where
  | append (r : FileRecord)
  | flush (io : FlushIo)

def WalAction.record : WalAction → Option FileRecord
  | .append r => some r
  | .flush _ => none

section Crc

variable (crc32 : Bytes → UInt32)

def step (s : WalOnDisk) : WalAction → Option WalOnDisk
  | .append r => some (s.append r)
  | .flush io => some (s.flushToDisk crc32 io).1

/-- A write that fails does so before any byte of the flush, or right after the header. -/
def Clean (s : WalOnDisk) : FlushIo → Prop
  | .writeFails call written =>
    (s.writes crc32).length ≤ call ∨ written = 0 ∧ (call = 0 ∨ call = 2 ∧ s.needsHeader = true)
  | .succeeds | .openFails | .syncFails => True

/-- The data of a record fits its length field, a flush with nothing to write finds the last bytes
synced, and failing writes are clean. -/
def Reliable (s : WalOnDisk) : WalAction → Prop
  | .append r => r.Sized
  | .flush io =>
    if s.records.length ≤ s.flushedCount then s.synced = s.bytes.length else s.Clean crc32 io

instance (s : WalOnDisk) : (io : FlushIo) → Decidable (s.Clean crc32 io)
  | .writeFails .. => inferInstanceAs (Decidable (_ ∨ _))
  | .succeeds | .openFails | .syncFails => inferInstanceAs (Decidable True)

instance (s : WalOnDisk) : (a : WalAction) → Decidable (s.Reliable crc32 a)
  | .append r => inferInstanceAs (Decidable r.Sized)
  | .flush _ => inferInstanceAs (Decidable (ite ..))

structure WellWritten (s : WalOnDisk) : Prop where
  sized : ∀ r ∈ s.records, r.Sized
  count : s.flushedCount ≤ s.records.length
  unstarted : s.needsHeader = true → s.flushedCount = 0
  started : s.needsHeader = false → s.records ≠ []
  content : s.bytes = (if s.needsHeader then [] else walHeader) ++
    (s.records.take s.flushedCount).flatMap (frame crc32)

variable {crc32}

theorem wellWritten_new : WellWritten crc32 new := ⟨nofun, Nat.le_refl 0, fun _ => rfl, nofun, rfl⟩

variable {s : WalOnDisk}

section

variable (h : WellWritten crc32 s)
include h

theorem WellWritten.append {r : FileRecord} (hr : r.Sized) : WellWritten crc32 (s.append r) := by
  refine ⟨?_, ?_, h.unstarted, fun _ => append_ne_nil_of_right_ne_nil _ (cons_ne_nil _ _), ?_⟩
  · exact forall_mem_append.mpr ⟨h.sized, forall_mem_singleton.mpr hr⟩
  · have hcount := h.count
    have hlen : (s.append r).records.length = s.records.length + 1 := length_append
    exact hcount.trans (by omega)
  · have htake : (s.append r).records.take s.flushedCount = s.records.take s.flushedCount :=
      take_append_of_le_length h.count
    exact h.content.trans (by rw [← htake]; rfl)

theorem WellWritten.bytes_written : (s.written crc32).bytes = walHeader ++
    s.records.flatMap (frame crc32) := by
  rw [WalOnDisk.bytes_written, h.content]
  have hall : (s.records.take s.flushedCount).flatMap (frame crc32) ++
      (s.records.drop s.flushedCount).flatMap (frame crc32) = s.records.flatMap (frame crc32) := by
    rw [← flatMap_append, take_append_drop]
  cases hheader : s.needsHeader with
  | true =>
    have hzero := h.unstarted hheader
    simp [hzero]
  | false =>
    simp only [Bool.false_eq_true, if_false, append_nil]
    rw [append_assoc, hall]

theorem WellWritten.bytes_all (hall : s.records.length ≤ s.flushedCount) : s.bytes =
    added crc32 true s.records := by
  have hcontent := h.content
  rw [take_of_length_le hall] at hcontent
  cases hheader : s.needsHeader with
  | true =>
    have hnil : s.records = [] := eq_nil_of_length_eq_zero (Nat.le_zero.mp (h.unstarted hheader ▸ hall))
    rw [hcontent, hheader, hnil]
    rfl
  | false =>
    rw [hcontent, hheader, added_true_of_ne_nil (h.started hheader)]
    rfl

theorem WellWritten.written (hne : s.records ≠ []) : WellWritten crc32 (s.written crc32) := by
  refine ⟨h.sized, le_rfl, nofun, fun _ => hne, ?_⟩
  have htake : (s.written crc32).records.take (s.written crc32).flushedCount = s.records := take_length
  rw [h.bytes_written, htake]
  rfl

theorem WellWritten.writeFails (hne : s.records ≠ []) {call : Nat}
    (hcall : call = 0 ∨ call = 2 ∧ s.needsHeader = true) :
    WellWritten crc32 { s with
      needsHeader := s.needsHeader && decide (call < 2)
      file := some (s.bytes ++ ((s.writes crc32).take call).flatten ++ []) } := by
  rcases hcall with rfl | ⟨rfl, hheader⟩
  · refine ⟨h.sized, h.count, fun hheader => h.unstarted ?_, fun _ => hne, ?_⟩
    · simpa using hheader
    · have hcontent := h.content
      simpa [WalOnDisk.bytes] using hcontent
  · have hzero := h.unstarted hheader
    have hcontent := h.content
    rw [hheader, hzero] at hcontent
    have hwrites : ((s.writes crc32).take 2).flatten = walHeader := by
      rw [writes, hheader]
      rfl
    refine ⟨h.sized, h.count, fun hfalse => ?_, fun _ => hne, ?_⟩
    · rw [hheader] at hfalse
      cases hfalse
    · rw [hwrites, hheader]
      simpa [WalOnDisk.bytes, hzero] using hcontent

end

variable {t : WalOnDisk}

theorem WellWritten.step {a : WalAction} (h : WellWritten crc32 s) (hok : s.Reliable crc32 a)
    (hstep : s.step crc32 a = some t) : WellWritten crc32 t := by
  cases a with
  | append =>
    cases hstep
    exact h.append hok
  | flush io =>
    have ht := Option.some.inj hstep
    unfold flushToDisk at ht
    by_cases hnew : s.records.length ≤ s.flushedCount
    · rw [if_pos hnew] at ht
      exact ht ▸ h
    rw [if_neg hnew] at ht
    have hne : s.records ≠ [] := by
      rintro hnil
      rw [hnil] at hnew
      exact hnew (Nat.zero_le _)
    have hwritten := h.written hne
    have hsynced : WellWritten crc32 (s.written crc32).sync :=
      ⟨hwritten.sized, hwritten.count, hwritten.unstarted, hwritten.started, hwritten.content⟩
    cases io with
    | succeeds => exact ht ▸ hsynced
    | openFails => exact ht ▸ h
    | syncFails => exact ht ▸ hwritten
    | writeFails call written =>
      have hclean : (s.writes crc32).length ≤ call ∨ written = 0 ∧
          (call = 0 ∨ call = 2 ∧ s.needsHeader = true) := by
        have hok : ite _ _ _ := hok
        rw [if_neg hnew] at hok
        exact hok
      cases hw : (s.writes crc32)[call]? with
      | none =>
        simp only [hw] at ht
        exact ht ▸ hsynced
      | some w =>
        simp only [hw] at ht
        obtain ⟨hlt, -⟩ := List.getElem?_eq_some_iff.mp hw
        obtain hge | ⟨rfl, hcall⟩ := hclean
        · omega
        · exact ht ▸ h.writeFails hne hcall

theorem flushToDisk_ok {io : FlushIo} (h : (s.flushToDisk crc32 io).2 = true) :
    (s.records.length ≤ s.flushedCount ∧ (s.flushToDisk crc32 io).1 = s) ∨
      (s.flushedCount < s.records.length ∧ (s.flushToDisk crc32 io).1 = (s.written crc32).sync) := by
  unfold flushToDisk at h ⊢
  by_cases hnew : s.records.length ≤ s.flushedCount
  · exact .inl ⟨hnew, by rw [if_pos hnew]⟩
  · rw [if_neg hnew] at h ⊢
    refine .inr ⟨Nat.lt_of_not_le hnew, ?_⟩
    cases io with
    | succeeds => rfl
    | openFails | syncFails => cases h
    | writeFails call =>
      cases hw : (s.writes crc32)[call]? with
      | none => simp only [hw]
      | some w => simp only [hw] at h; cases h

theorem records_run {as : List WalAction} (h : run (step crc32) s as = some t) :
    t.records = s.records ++ as.filterMap WalAction.record := by
  induction as generalizing s with
  | nil =>
    cases h
    exact (append_nil _).symm
  | cons a as ih =>
    obtain ⟨u, hu, ht⟩ := run_cons_eq_some.mp h
    rw [ih ht]
    cases a with
    | append =>
      cases hu
      exact append_assoc ..
    | flush io =>
      have hkeeps : (s.flushToDisk crc32 io).1.records = s.records := by
        unfold flushToDisk
        split
        · rfl
        · cases io with
          | succeeds | openFails | syncFails => rfl
          | writeFails => dsimp only; split <;> rfl
      cases hu
      rw [hkeeps]
      rfl

end Crc

/-- Along a run whose steps are all reliable, a flush that returns `Ok` leaves all records appended
so far in the file, synced, and a load gives them back. -/
theorem flushToDisk_honest {crc32 : Bytes → UInt32} {as : List WalAction} {io : FlushIo} {s : WalOnDisk}
    (hrun : run (step crc32) new as = some s)
    (hmeets : Meets (step crc32) (Reliable crc32) new (as ++ [.flush io]))
    (hok : (s.flushToDisk crc32 io).2 = true) :
    (s.flushToDisk crc32 io).1.bytes = added crc32 true (as.filterMap WalAction.record) ∧
      (s.flushToDisk crc32 io).1.synced = (s.flushToDisk crc32 io).1.bytes.length ∧
      ∃ w, loadFromDisk crc32 (s.flushToDisk crc32 io).1.file = .ok w ∧ w.records =
        as.filterMap WalAction.record := by
  obtain ⟨hbefore, hlast, -⟩ := (meets_append hrun).mp hmeets
  have hwell := run_keeps (fun s a t => WellWritten.step) hrun hbefore wellWritten_new
  have hrecords : s.records = as.filterMap WalAction.record := records_run hrun
  have hfile : (s.flushToDisk crc32 io).1.bytes = added crc32 true s.records ∧
      (s.flushToDisk crc32 io).1.synced = (s.flushToDisk crc32 io).1.bytes.length := by
    obtain ⟨hnone, heq⟩ | ⟨hnew, heq⟩ := flushToDisk_ok hok
    · have hsynced : ite _ _ _ := hlast
      rw [if_pos hnone] at hsynced
      rw [heq]
      exact ⟨hwell.bytes_all hnone, hsynced⟩
    · have hne := length_pos_iff.mp (Nat.zero_lt_of_lt hnew)
      rw [heq]
      exact ⟨hwell.bytes_written.trans (added_true_of_ne_nil hne).symm, rfl⟩
  refine ⟨hrecords ▸ hfile.1, hfile.2, ?_⟩
  have hread : readRecords crc32 ([] ++ added crc32 true s.records) = .ok ([] ++ s.records) :=
    (readRecords_added (by rw [readRecords, if_neg (by decide), parseV1]) (.inl rfl) s.records).mpr
      hwell.sized
  rw [← hrecords, exists_load_iff, hfile.1]
  exact hread

theorem flush_honest_after_failed_sync : ∃ s,
    run (step fun _ => 0) new [.append .checkpoint, .flush .syncFails, .append (.commit 7)] = some s ∧
      (s.flushToDisk (fun _ => 0) .succeeds).1.synced =
        (s.flushToDisk (fun _ => 0) .succeeds).1.bytes.length ∧
      ∃ w, loadFromDisk (fun _ => 0) (s.flushToDisk (fun _ => 0) .succeeds).1.file = .ok w ∧
        w.records = [.checkpoint, .commit 7] := by
  have hrun : run (step fun _ => 0) new [.append .checkpoint, .flush .syncFails,
      .append (.commit 7)] = some _ := rfl
  exact ⟨_, hrun, (flushToDisk_honest hrun (meets_of_check (by decide)) rfl).2⟩

/-- A flush with nothing new returns `Ok` though the sync before it failed: of the eleven bytes none
is synced. -/
theorem flush_ok_without_sync : ∃ s,
    run (step fun _ => 0) new [.append .checkpoint, .flush .syncFails] = some s ∧
      (s.flushToDisk (fun _ => 0) .succeeds).2 = true ∧
      (s.flushToDisk (fun _ => 0) .succeeds).1.synced = 0 ∧
      (s.flushToDisk (fun _ => 0) .succeeds).1.bytes.length = 11 :=
  ⟨_, rfl, rfl, rfl, rfl⟩

end WalOnDisk

end Akar
