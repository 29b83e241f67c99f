import Mathlib.Data.List.OfFn

/-!
A file as its bytes, read and written at an offset: reading past the end gives zeros, and writing past the
end fills the gap with zeros.
-/

namespace ByteFile

variable {n : Nat} {file : List UInt8} {offset offset' : Nat} {data : Fin n → UInt8}

def readAt (file : List UInt8) (offset n : Nat) : Fin n → UInt8 := fun i => (file[offset + i]?).getD 0

def writeAt (file : List UInt8) (offset : Nat) (data : Fin n → UInt8) : List UInt8 :=
  List.ofFn fun j : Fin (max file.length (offset + n)) =>
    if h : offset ≤ j ∧ (j : Nat) <
      offset + n then data ⟨j - offset, by omega⟩ else (file[(j : Nat)]?).getD 0

theorem byte_writeAt (j : Nat) :
    ((writeAt file offset data)[j]?).getD 0 =
      if h : offset ≤ j ∧ j < offset + n then data ⟨j - offset, by omega⟩ else (file[j]?).getD 0 := by
  rw [writeAt, List.getElem?_ofFn]
  by_cases hj : j < max file.length (offset + n)
  · rw [dif_pos hj]
    rfl
  · have hout : ¬(offset ≤ j ∧ j < offset + n) := by omega
    have hlen : file.length ≤ j := by omega
    rw [dif_neg hj, dif_neg hout, List.getElem?_eq_none hlen]

theorem readAt_writeAt_self : readAt (writeAt file offset data) offset n = data := by
  funext i
  have hi : offset ≤ offset + i ∧ offset + (i : Nat) < offset + n := by omega
  rw [readAt, byte_writeAt, dif_pos hi]
  congr
  omega

theorem readAt_writeAt_of_disjoint (h : offset + n ≤ offset' ∨ offset' + n ≤ offset) :
    readAt (writeAt file offset data) offset' n = readAt file offset' n := by
  funext i
  have hi : ¬(offset ≤ offset' + i ∧ offset' + (i : Nat) < offset + n) := by omega
  rw [readAt, readAt, byte_writeAt, dif_neg hi]

end ByteFile
