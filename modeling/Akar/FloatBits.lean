import Mathlib.Algebra.Order.Ring.Int
import Mathlib.Algebra.Order.Ring.Nat
import Mathlib.Data.Nat.Log

namespace Akar

/-!
Floating-point numbers as bit patterns: IEEE 754 comparison, the total order, and the conversions
from integers and from single to double precision.
-/

/-- A binary interchange format: the widths of its exponent and fraction fields. -/
structure FloatFormat where
  exponent : Nat
  fraction : Nat

namespace FloatFormat

variable {f : FloatFormat} {a b : Nat}

def binary32 : FloatFormat := ⟨8, 23⟩

def binary64 : FloatFormat := ⟨11, 52⟩

def magnitude (f : FloatFormat) (bits : Nat) : Nat := bits % 2 ^ (f.exponent + f.fraction)

def negative (f : FloatFormat) (bits : Nat) : Bool := bits / 2 ^ (f.exponent + f.fraction) % 2 = 1

def infinity (f : FloatFormat) : Nat := (2 ^ f.exponent - 1) * 2 ^ f.fraction

def isNaN (f : FloatFormat) (bits : Nat) : Bool := f.infinity < f.magnitude bits

def rank (f : FloatFormat) (bits : Nat) : Int :=
  if f.negative bits then -(f.magnitude bits : Int) else f.magnitude bits

/-- The rank in the total order, which tells the zeros apart and places the NaNs at the ends. -/
def totalRank (f : FloatFormat) (bits : Nat) : Int :=
  if f.negative bits then -(f.magnitude bits : Int) - 1 else f.magnitude bits

def isZero (f : FloatFormat) (bits : Nat) : Bool := f.magnitude bits = 0

theorem totalRank_lt (h : f.rank a < f.rank b) : f.totalRank a < f.totalRank b := by
  unfold rank at h
  unfold totalRank
  split at h <;> split at h <;> simp only [*, if_true, Bool.false_eq_true, if_false] <;> omega

theorem totalRank_eq (h : f.rank a = f.rank b)
    (hzero : f.isZero a → f.isZero b → f.totalRank a = f.totalRank b) :
    f.totalRank a = f.totalRank b := by
  by_cases ha : f.magnitude a = 0
  · have hb : f.magnitude b = 0 := by
      unfold rank at h
      split at h <;> split at h <;> omega
    exact hzero (by simp [isZero, ha]) (by simp [isZero, hb])
  · unfold rank at h
    unfold totalRank
    split at h <;> split at h <;> simp only [*, if_true, Bool.false_eq_true, if_false] <;> omega

theorem totalRank_ne_of_isNaN (ha : f.isNaN a = false) (hb : f.isNaN b = true) :
    f.totalRank a ≠ f.totalRank b := by
  simp only [isNaN, decide_eq_false_iff_not, decide_eq_true_eq, Nat.not_lt] at ha hb
  unfold totalRank
  split <;> split <;> omega

end FloatFormat

def widenMagnitude (m : Nat) : Nat :=
  if 255 * 2 ^ 23 ≤ m then 2047 * 2 ^ 52 + (m - 255 * 2 ^ 23) * 2 ^ 29
  else if 2 ^ 23 ≤ m then 896 * 2 ^ 52 + m * 2 ^ 29
  else if m = 0 then 0
  else (Nat.log2 m + 873) * 2 ^ 52 + m * 2 ^ (52 - Nat.log2 m)

def widen (bits : Nat) : Nat :=
  (if FloatFormat.binary32.negative bits then 2 ^ 63 else 0) + widenMagnitude
    (FloatFormat.binary32.magnitude bits)

/-- `n as f64`: the nearest double, ties to even. -/
def natToDouble (n : Nat) : Nat := if n = 0 then 0
  else if Nat.log2 n ≤ 52 then (Nat.log2 n + 1022) * 2 ^ 52 + n * 2 ^ (52 - Nat.log2 n)
  else
    let step := 2 ^ (Nat.log2 n - 52)
    let quotient := n / step
    let rest := n % step
    let roundUp : Bool := step < 2 * rest ∨ (step = 2 * rest ∧ quotient % 2 = 1)
    (Nat.log2 n + 1022) * 2 ^ 52 + quotient + roundUp.toNat

def intToDouble (x : Int) : Nat := if x < 0 then 2 ^ 63 + natToDouble x.natAbs else natToDouble x.natAbs

example : intToDouble 5 = 0x4014000000000000 := by decide

example : intToDouble (-(2 ^ 53 + 1)) = 0xC340000000000000 := by decide

variable {m : Nat}

theorem shifted_bounds (h0 : m ≠ 0) (hm : m < 2 ^ 23) :
    Nat.log2 m ≤ 22 ∧ 2 ^ 52 ≤ m * 2 ^ (52 - Nat.log2 m) ∧ m * 2 ^ (52 - Nat.log2 m) < 2 * 2 ^ 52 := by
  have hlog : Nat.log2 m ≤ 22 := by
    have := (Nat.log2_lt h0).mpr hm
    omega
  have hlow := Nat.log2_self_le h0
  have hhigh : m < 2 ^ (Nat.log2 m + 1) := Nat.lt_log2_self
  have hpow : 2 ^ 52 = 2 ^ Nat.log2 m * 2 ^ (52 - Nat.log2 m) := by
    rw [← Nat.pow_add]
    congr 1
    omega
  refine ⟨hlog, ?_, ?_⟩
  · rw [hpow]
    exact Nat.mul_le_mul_right _ hlow
  · rw [hpow, ← Nat.mul_assoc, ← Nat.pow_succ']
    exact Nat.mul_lt_mul_of_pos_right hhigh (Nat.two_pow_pos _)

theorem widenMagnitude_zero : widenMagnitude 0 = 0 := rfl

theorem widenMagnitude_subnormal (h0 : m ≠ 0) (hm : m < 2 ^ 23) :
    widenMagnitude m = (Nat.log2 m + 873) * 2 ^ 52 + m * 2 ^ (52 - Nat.log2 m) := by
  unfold widenMagnitude
  rw [if_neg (by omega), if_neg (by omega), if_neg h0]

theorem widenMagnitude_lt {n : Nat} (h : m < n) : widenMagnitude m < widenMagnitude n := by
  by_cases hm : m < 2 ^ 23
  · have hmbound : widenMagnitude m < 897 * 2 ^ 52 := by
      by_cases hm0 : m = 0
      · rw [hm0, widenMagnitude_zero]
        omega
      · obtain ⟨hlog, _, hhigh⟩ := shifted_bounds hm0 hm
        rw [widenMagnitude_subnormal hm0 hm]
        omega
    by_cases hn : n < 2 ^ 23
    · have hn0 : n ≠ 0 := by omega
      obtain ⟨_, hnlow, _⟩ := shifted_bounds hn0 hn
      rw [widenMagnitude_subnormal hn0 hn]
      by_cases hm0 : m = 0
      · rw [hm0, widenMagnitude_zero]
        omega
      · obtain ⟨_, _, hmhigh⟩ := shifted_bounds hm0 hm
        rw [widenMagnitude_subnormal hm0 hm]
        have hle : Nat.log2 m ≤ Nat.log2 n := by
          rw [Nat.le_log2 hn0]
          exact (Nat.log2_self_le hm0).trans h.le
        rcases Nat.lt_or_eq_of_le hle with hlt | heq
        · omega
        · rw [heq]
          exact Nat.add_lt_add_left (Nat.mul_lt_mul_of_pos_right h (Nat.two_pow_pos _)) _
    · have hnbound : 897 * 2 ^ 52 ≤ widenMagnitude n := by
        unfold widenMagnitude
        split
        · omega
        · rw [if_pos (by omega)]
          omega
      omega
  · unfold widenMagnitude
    rw [if_pos (show 2 ^ 23 ≤ m by omega), if_pos (show 2 ^ 23 ≤ n by omega)]
    split <;> split <;> omega

theorem widenMagnitude_bound (h : m < 2 ^ 31) : widenMagnitude m < 2 ^ 63 := by
  have hle := Nat.le_of_lt_succ h
  have hmax : widenMagnitude (2 ^ 31 - 1) < 2 ^ 63 := by
    unfold widenMagnitude
    rw [if_pos (by omega)]
    omega
  rcases Nat.lt_or_eq_of_le hle with hlt | rfl
  · exact (widenMagnitude_lt hlt).trans hmax
  · exact hmax

theorem magnitude_binary32_lt (bits : Nat) : FloatFormat.binary32.magnitude bits < 2 ^ 31 :=
  Nat.mod_lt _ (Nat.two_pow_pos _)

theorem magnitude_widen (bits : Nat) :
    FloatFormat.binary64.magnitude (widen bits) =
      widenMagnitude (FloatFormat.binary32.magnitude bits) := by
  have hbound := widenMagnitude_bound (magnitude_binary32_lt bits)
  show widen bits % 2 ^ 63 = _
  unfold widen
  split <;> omega

theorem negative_widen (bits : Nat) :
    FloatFormat.binary64.negative (widen bits) = FloatFormat.binary32.negative bits := by
  have hbound := widenMagnitude_bound (magnitude_binary32_lt bits)
  show decide (widen bits / 2 ^ 63 % 2 = 1) = _
  unfold widen
  cases FloatFormat.binary32.negative bits with
  | true =>
    rw [if_pos rfl, decide_eq_true_eq]
    omega
  | false =>
    rw [if_neg Bool.false_ne_true, decide_eq_false_iff_not]
    omega

theorem isNaN_widen (bits : Nat) : FloatFormat.binary64.isNaN (widen bits) =
    FloatFormat.binary32.isNaN bits := by
  have hinf : FloatFormat.binary64.infinity = widenMagnitude FloatFormat.binary32.infinity := rfl
  unfold FloatFormat.isNaN
  rw [magnitude_widen, hinf]
  by_cases h : FloatFormat.binary32.infinity < FloatFormat.binary32.magnitude bits
  · rw [decide_eq_true h, decide_eq_true (widenMagnitude_lt h)]
  · have hle : widenMagnitude (FloatFormat.binary32.magnitude bits) ≤
        widenMagnitude FloatFormat.binary32.infinity := by
      rcases Nat.lt_or_eq_of_le (Nat.le_of_not_lt h) with hlt | heq
      · exact (widenMagnitude_lt hlt).le
      · rw [heq]
    rw [decide_eq_false h, decide_eq_false (Nat.not_lt.mpr hle)]

def widenRank (r : Int) : Int :=
  if r < 0 then -(widenMagnitude r.natAbs : Int) else widenMagnitude r.natAbs

theorem rank_widen (bits : Nat) :
    FloatFormat.binary64.rank (widen bits) = widenRank (FloatFormat.binary32.rank bits) := by
  unfold FloatFormat.rank widenRank
  rw [negative_widen, magnitude_widen]
  split
  · rcases Nat.eq_zero_or_pos (FloatFormat.binary32.magnitude bits) with h0 | h0
    · rw [h0, widenMagnitude_zero]
      rfl
    · rw [if_pos (by omega), Int.natAbs_neg, Int.natAbs_natCast]
  · rw [if_neg (by omega), Int.natAbs_natCast]

theorem widenRank_lt {r s : Int} (h : r < s) : widenRank r < widenRank s := by
  unfold widenRank
  by_cases hr : r < 0
  · rw [if_pos hr]
    have hpos : 0 < widenMagnitude r.natAbs := by
      have := widenMagnitude_lt (show 0 < r.natAbs by omega)
      omega
    split
    · have := widenMagnitude_lt (show s.natAbs < r.natAbs by omega)
      omega
    · omega
  · have := widenMagnitude_lt (show r.natAbs < s.natAbs by omega)
    omega

end Akar
