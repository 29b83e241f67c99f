import Mathlib.Data.List.Basic

namespace Akar

open List

/-!
Lists of entries with keys from a linear order. Sorting by key keeps the entries of each key in their order,
and that determines the sorted list.
-/

section StableSort

variable {κ ν : Type} [LE κ] [Std.IsLinearOrder κ] {l m : List (κ × ν)}

section Sorting

variable [DecidableLE κ]

def keyLe (a b : κ × ν) : Bool := decide (a.1 ≤ b.1)

theorem keyLe_trans (a b c : κ × ν) (hab : keyLe a b = true) (hbc : keyLe b c = true) : keyLe a c =
    true := by
  simp only [keyLe, decide_eq_true_eq] at hab hbc ⊢
  exact Std.le_trans hab hbc

theorem keyLe_total (a b : κ × ν) : (keyLe a b || keyLe b a) = true := by
  simp only [keyLe, Bool.or_eq_true, decide_eq_true_eq]
  exact Std.le_total

/-- The entries in ascending order of their keys, those of one key in the order they had. -/
def byKey (l : List (κ × ν)) : List (κ × ν) := l.mergeSort keyLe

theorem pairwise_byKey (l : List (κ × ν)) : (byKey l).Pairwise fun a b => a.1 ≤ b.1 := by
  have h := pairwise_mergeSort keyLe_trans keyLe_total l
  exact h.imp fun hab => of_decide_eq_true hab

theorem filter_byKey [DecidableEq κ] (l : List (κ × ν)) (k : κ) :
    (byKey l).filter (·.1 = k) = l.filter (·.1 = k) := by
  have hsorted : (l.filter (·.1 = k)).Pairwise fun a b => keyLe a b = true := by
    apply pairwise_of_forall_mem_list
    intro a ha b hb
    have hak := of_decide_eq_true (mem_filter.mp ha).2
    have hbk := of_decide_eq_true (mem_filter.mp hb).2
    rw [keyLe, hak, hbk]
    exact decide_eq_true (Std.le_refl k)
  have hsub : (l.filter (·.1 = k)).Sublist (byKey l) :=
    sublist_mergeSort keyLe_trans keyLe_total hsorted filter_sublist
  have hfilter : (l.filter (·.1 = k)).Sublist ((byKey l).filter (·.1 = k)) := by
    simpa using hsub.filter (·.1 = k)
  have hlength := ((mergeSort_perm l keyLe).filter (·.1 = k)).length_eq
  exact (hfilter.eq_of_length hlength.symm).symm

end Sorting

theorem eq_of_pairwise_of_filter [DecidableEq κ] (hl : l.Pairwise fun a b => a.1 ≤ b.1)
    (hm : m.Pairwise fun a b => a.1 ≤ b.1)
    (h : ∀ k, l.filter (·.1 = k) = m.filter (·.1 = k)) : l = m := by
  -- a key of one list is a key of the other, so no first key is above a key of the other list
  have hmem : ∀ {l m : List (κ × ν)}, (∀ k, l.filter (·.1 = k) = m.filter (·.1 = k)) → ∀ a ∈ l,
      a ∈ m := by
    intro l m h a ha
    have hin : a ∈ l.filter (·.1 = a.1) := mem_filter.mpr ⟨ha, decide_eq_true rfl⟩
    rw [h] at hin
    exact (mem_filter.mp hin).1
  induction l generalizing m with
  | nil =>
    cases m with
    | nil => rfl
    | cons b => exact absurd (hmem (fun k => (h k).symm) b mem_cons_self) not_mem_nil
  | cons a t ih =>
    cases m with
    | nil => exact absurd (hmem h a mem_cons_self) not_mem_nil
    | cons b u =>
      have hl' := pairwise_cons.mp hl
      have hm' := pairwise_cons.mp hm
      have hab : a.1 ≤ b.1 := by
        rcases mem_cons.mp (hmem (fun k => (h k).symm) b mem_cons_self) with heq | hb
        · rw [heq]
          exact Std.le_refl _
        · exact hl'.1 b hb
      have hba : b.1 ≤ a.1 := by
        rcases mem_cons.mp (hmem h a mem_cons_self) with heq | ha
        · rw [heq]
          exact Std.le_refl _
        · exact hm'.1 a ha
      have hkey := Std.le_antisymm hab hba
      have hhead := h a.1
      rw [filter_cons_of_pos (by simp), filter_cons_of_pos (by simp [hkey])] at hhead
      obtain ⟨rfl, hsame⟩ := cons.inj hhead
      have hrest : t = u := by
        apply ih hl'.2 hm'.2
        intro k
        by_cases hk : a.1 = k
        · rw [← hk]
          exact hsame
        · have hk' := h k
          rwa [filter_cons_of_neg (by simpa using hk), filter_cons_of_neg (by simpa using hk)] at hk'
      rw [hrest]

theorem eq_byKey [DecidableLE κ] [DecidableEq κ] (hl : l.Pairwise fun a b => a.1 ≤ b.1)
    (h : ∀ k, l.filter (·.1 = k) = m.filter (·.1 = k)) :
    l = byKey m :=
  eq_of_pairwise_of_filter hl (pairwise_byKey m) fun k => (h k).trans (filter_byKey m k).symm

end StableSort

end Akar
