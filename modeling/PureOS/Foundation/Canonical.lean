import PureOS.Foundation.Bits
import Mathlib.Algebra.BigOperators.Ring.Finset
import Mathlib.Algebra.Order.BigOperators.Group.Finset
import Mathlib.Tactic.Linarith

set_option autoImplicit false

/-!
# Foundation: canonical prefix codes

The code words of a canonical code are counted up, from the short ones to the long ones, with a
zero put behind at every step to the next length.  Which words there are depends only on how
many there are of each length.
-/

namespace PureOS.Foundation.Canonical

open Finset

variable (count : Nat → Nat)

/-- The first word of length `l + 1`, when there are `count k` words of length `k + 1`. -/
def firstCode : Nat → Nat
  | 0 => 0
  | l + 1 => 2 * (firstCode l + count l)

/-- How many words are shorter than `l + 1`. -/
def shorter (l : Nat) : Nat := ∑ k ∈ range l, count k

/-- The word of length `l + 1` with the number `i`. -/
def word (l i : Nat) : List Bool := msbBits (l + 1) (firstCode count l + i)

/-- The inequality of Kraft for words of up to `n` bits. -/
def Kraft (n : Nat) : Prop := ∑ k ∈ range n, count k * 2 ^ (n - 1 - k) ≤ 2 ^ n

/-- No length that is not used follows one that is, up to `l + 1`. -/
def NoGap (l : Nat) : Prop := ∀ g < l, count g = 0 → ∀ k < g, count k = 0

variable {count} {l l' i n : Nat}

theorem shorter_succ : shorter count (l + 1) = shorter count l + count l := sum_range_succ ..

theorem shorter_mono (h : l ≤ l') : shorter count l ≤ shorter count l' :=
  sum_le_sum_of_subset (range_subset_range.mpr h)

theorem le_shorter (h : l < l') : shorter count l + count l ≤ shorter count l' := by
  rw [← shorter_succ]
  exact shorter_mono h

/-- The first word of a length, from the shorter ones. -/
theorem firstCode_eq_sum (l : Nat) :
    firstCode count l = ∑ k ∈ range l, count k * 2 ^ (l - k) := by
  induction l with
  | zero => rfl
  | succ l ih =>
      rw [firstCode, ih, sum_range_succ, mul_add, mul_sum]
      congr 1
      · refine sum_congr rfl fun k hk => ?_
        rw [Nat.succ_sub (mem_range.mp hk).le, pow_succ]
        ring
      · rw [Nat.add_sub_cancel_left, pow_one, mul_comm]

/-- Kraft's inequality leaves room for the words of each length. -/
theorem firstCode_add_le (h : Kraft count n) (hl : l < n) :
    firstCode count l + count l ≤ 2 ^ (l + 1) := by
  have hsum : (firstCode count l + count l) * 2 ^ (n - 1 - l) =
      ∑ k ∈ range (l + 1), count k * 2 ^ (n - 1 - k) := by
    rw [sum_range_succ, add_mul, firstCode_eq_sum, sum_mul]
    congr 1
    refine sum_congr rfl fun k hk => ?_
    have hkl := mem_range.mp hk
    rw [mul_assoc, ← pow_add]
    congr 2
    omega
  have hle : (firstCode count l + count l) * 2 ^ (n - 1 - l) ≤ 2 ^ (l + 1) * 2 ^ (n - 1 - l) := by
    rw [hsum, ← pow_add, show l + 1 + (n - 1 - l) = n by omega]
    exact (sum_le_sum_of_subset (range_subset_range.mpr hl)).trans h
  exact Nat.le_of_mul_le_mul_right hle (Nat.two_pow_pos _)

theorem code_lt (h : Kraft count n) (hl : l < n) (hi : i < count l) :
    firstCode count l + i < 2 ^ (l + 1) := by
  have hroom := firstCode_add_le h hl
  omega

/-- The words of a length lie behind the shorter ones. -/
theorem firstCode_le (h : l < l') :
    (firstCode count l + count l) * 2 ^ (l' - l) ≤ firstCode count l' := by
  induction l', h using Nat.le_induction with
  | base =>
      rw [firstCode, Nat.succ_sub (Nat.le_refl l), Nat.sub_self, pow_one, mul_comm]
  | succ l' hle ih =>
      have hlt : l < l' := hle
      rw [firstCode, Nat.succ_sub hlt.le, pow_succ]
      calc (firstCode count l + count l) * (2 ^ (l' - l) * 2) =
            2 * ((firstCode count l + count l) * 2 ^ (l' - l)) := by ring
        _ ≤ 2 * firstCode count l' := Nat.mul_le_mul_left 2 ih
        _ ≤ 2 * (firstCode count l' + count l') := by omega

/-- The beginning of a word is larger than every shorter word. -/
theorem le_beginning (h : l < l') (i : Nat) :
    firstCode count l + count l ≤ (firstCode count l' + i) / 2 ^ (l' - l) := by
  rw [Nat.le_div_iff_mul_le (Nat.two_pow_pos _)]
  exact (firstCode_le h).trans (Nat.le_add_right _ _)

/-- Before the first length that is used nothing is counted. -/
theorem firstCode_of_unused (h : ∀ k < l, count k = 0) : firstCode count l = 0 := by
  rw [firstCode_eq_sum]
  refine sum_eq_zero fun k hk => ?_
  rw [h k (mem_range.mp hk), zero_mul]

theorem firstCode_pos (h : l < l') (hused : count l ≠ 0) : 0 < firstCode count l' := by
  have hle := @firstCode_le count l l' h
  have hpos : 0 < (firstCode count l + count l) * 2 ^ (l' - l) :=
    Nat.mul_pos (by omega) (Nat.two_pow_pos _)
  omega

end PureOS.Foundation.Canonical
