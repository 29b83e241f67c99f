import Akar.Slots

namespace Akar

open List Function

def nodeGroupSize : Nat := 4096

def vectorSize : Nat := 1024

def isTxnCommittedBefore (txnId snapshotTs : Nat) (commitHistory : Nat → Option Nat) : Bool :=
  (commitHistory txnId).any (· ≤ snapshotTs)

structure VectorVersionInfo where
  inserted : Nat → Option Nat
  deleted : Nat → Option Nat

namespace VectorVersionInfo

def new : VectorVersionInfo := ⟨fun _ => none, fun _ => none⟩

def insert (v : VectorVersionInfo) (txnId rowInVector : Nat) : VectorVersionInfo :=
  { v with inserted := update v.inserted rowInVector (some txnId) }

def delete (v : VectorVersionInfo) (txnId rowInVector : Nat) : VectorVersionInfo :=
  { v with deleted := update v.deleted rowInVector (some txnId) }

def removeInsert (v : VectorVersionInfo) (rowInVector : Nat) : VectorVersionInfo :=
  { v with inserted := update v.inserted rowInVector none }

def reset (_ : VectorVersionInfo) : VectorVersionInfo := new

def isVisible (v : VectorVersionInfo) (rowInVector snapshotTs : Nat)
    (commitHistory : Nat → Option Nat) : Bool :=
  if (v.deleted rowInVector).any (isTxnCommittedBefore · snapshotTs commitHistory) then false
  else
    match v.inserted rowInVector with
    | some txnId => isTxnCommittedBefore txnId snapshotTs commitHistory
    -- no insert record: the row is older than every tracked transaction
    | none => true

end VectorVersionInfo

structure VersionInfo where
  vectors : List VectorVersionInfo
  covers : vectors.length = nodeGroupSize / vectorSize

namespace VersionInfo

def new : VersionInfo := ⟨replicate (nodeGroupSize / vectorSize) .new, List.length_replicate⟩

def vectorIdx (row : Nat) : Nat := row / vectorSize

def rowInVector (row : Nat) : Nat := row % vectorSize

def atVector (vi : VersionInfo) (row : Nat) (f : VectorVersionInfo → VectorVersionInfo) : VersionInfo :=
  ⟨vi.vectors.modify (vectorIdx row) f, by rw [List.length_modify]; exact vi.covers⟩

def insert (vi : VersionInfo) (txnId row : Nat) : VersionInfo :=
  vi.atVector row (·.insert txnId (rowInVector row))

def delete (vi : VersionInfo) (txnId row : Nat) : VersionInfo :=
  vi.atVector row (·.delete txnId (rowInVector row))

def removeInsert (vi : VersionInfo) (row : Nat) : VersionInfo :=
  vi.atVector row (·.removeInsert (rowInVector row))

def reset (vi : VersionInfo) : VersionInfo :=
  ⟨vi.vectors.map .reset, by rw [List.length_map]; exact vi.covers⟩

def isVisible (vi : VersionInfo) (row snapshotTs : Nat) (commitHistory : Nat → Option Nat) : Bool :=
  match vi.vectors[vectorIdx row]? with
  | some v => v.isVisible (rowInVector row) snapshotTs commitHistory
  | none => true

def inserter (vi : VersionInfo) (row : Nat) : Option Nat :=
  (vi.vectors[vectorIdx row]?).bind (·.inserted (rowInVector row))

def deleter (vi : VersionInfo) (row : Nat) : Option Nat :=
  (vi.vectors[vectorIdx row]?).bind (·.deleted (rowInVector row))

variable {vi : VersionInfo} {row r txn ts : Nat} {history : Nat → Option Nat}

theorem exists_vector (vi : VersionInfo) (h : row < nodeGroupSize) : ∃ v,
    vi.vectors[vectorIdx row]? = some v := by
  have hlt : vectorIdx row < vi.vectors.length := by
    rw [vi.covers]
    simp only [vectorIdx, vectorSize, nodeGroupSize] at h ⊢
    omega
  exact ⟨_, getElem?_eq_getElem hlt⟩

theorem isVisible_eq (vi : VersionInfo) (row ts : Nat) (history : Nat → Option Nat) :
    vi.isVisible row ts history = (!(vi.deleter row).any (isTxnCommittedBefore · ts history) &&
        (vi.inserter row).all (isTxnCommittedBefore · ts history)) := by
  unfold isVisible inserter deleter
  cases vi.vectors[vectorIdx row]? with
  | none => rfl
  | some v =>
    simp only [Option.bind_some, VectorVersionInfo.isVisible]
    cases (v.deleted (rowInVector row)).any (isTxnCommittedBefore · ts history) with
    | true => rfl
    | false => cases v.inserted (rowInVector row) <;> rfl

@[simp] theorem inserter_new : new.inserter row = none := by
  simp only [inserter, new, getElem?_replicate]
  split <;> rfl

@[simp] theorem deleter_new : new.deleter row = none := by
  simp only [deleter, new, getElem?_replicate]
  split <;> rfl

@[simp] theorem inserter_reset : vi.reset.inserter row = none := by
  simp only [inserter, reset, getElem?_map]
  cases vi.vectors[vectorIdx row]? <;> rfl

@[simp] theorem deleter_reset : vi.reset.deleter row = none := by
  simp only [deleter, reset, getElem?_map]
  cases vi.vectors[vectorIdx row]? <;> rfl

theorem inserter_insert (h : row < nodeGroupSize) :
    (vi.insert txn row).inserter r = if r = row then some txn else vi.inserter r := by
  obtain ⟨v, hv⟩ := vi.exists_vector h
  simp only [inserter, insert, atVector, getElem?_modify]
  by_cases hr : r = row
  · subst hr
    simp [hv, VectorVersionInfo.insert]
  · rw [if_neg hr]
    by_cases hvec : vectorIdx row = vectorIdx r
    · rw [hvec] at hv
      have hin : rowInVector r ≠ rowInVector row := fun hin => hr (Nat.ext_div_mod hvec.symm hin)
      simp [hvec, hv, VectorVersionInfo.insert, update_of_ne hin]
    · cases vi.vectors[vectorIdx r]? <;> simp [hvec]

@[simp] theorem deleter_insert : (vi.insert txn row).deleter r = vi.deleter r := by
  simp only [deleter, insert, atVector, getElem?_modify]
  by_cases hvec : vectorIdx row = vectorIdx r
  · cases vi.vectors[vectorIdx r]? <;> simp [hvec, VectorVersionInfo.insert]
  · cases vi.vectors[vectorIdx r]? <;> simp [hvec]

theorem deleter_delete (h : row < nodeGroupSize) :
    (vi.delete txn row).deleter r = if r = row then some txn else vi.deleter r := by
  obtain ⟨v, hv⟩ := vi.exists_vector h
  simp only [deleter, delete, atVector, getElem?_modify]
  by_cases hr : r = row
  · subst hr
    simp [hv, VectorVersionInfo.delete]
  · rw [if_neg hr]
    by_cases hvec : vectorIdx row = vectorIdx r
    · rw [hvec] at hv
      have hin : rowInVector r ≠ rowInVector row := fun hin => hr (Nat.ext_div_mod hvec.symm hin)
      simp [hvec, hv, VectorVersionInfo.delete, update_of_ne hin]
    · cases vi.vectors[vectorIdx r]? <;> simp [hvec]

@[simp] theorem inserter_delete : (vi.delete txn row).inserter r = vi.inserter r := by
  simp only [inserter, delete, atVector, getElem?_modify]
  by_cases hvec : vectorIdx row = vectorIdx r
  · cases vi.vectors[vectorIdx r]? <;> simp [hvec, VectorVersionInfo.delete]
  · cases vi.vectors[vectorIdx r]? <;> simp [hvec]

end VersionInfo

end Akar
