import Mathlib.Algebra.Order.Ring.Nat
import Mathlib.Data.Nat.Bitwise
import Mathlib.Tactic.Ring

set_option autoImplicit false

/-!
# Foundation: numbers as bits, the lowest one first

Codes that are packed from the low end of each byte on are lists of bits in this order.  Taking
bits off the front of a list is division.
-/

namespace PureOS.Foundation

variable {m n v w : Nat}

/-- The low `n` bits of a number, the lowest one first. -/
def lsbBits : Nat → Nat → List Bool
  | 0, _ => []
  | n + 1, v => v.testBit 0 :: lsbBits n (v / 2)

/-- The number that bits stand for, the lowest one first. -/
def lsbVal : List Bool → Nat
  | [] => 0
  | b :: bits => b.toNat + 2 * lsbVal bits

@[simp] theorem length_lsbBits (n v : Nat) : (lsbBits n v).length = n := by
  induction n generalizing v with
  | zero => rfl
  | succ n ih => rw [lsbBits, List.length_cons, ih]

theorem lsbVal_lt (bits : List Bool) : lsbVal bits < 2 ^ bits.length := by
  induction bits with
  | nil => exact Nat.one_pos
  | cons b bits ih =>
      have hb := b.toNat_lt
      rw [lsbVal, List.length_cons, pow_succ]
      omega

theorem testBit_zero_add (v : Nat) : (v.testBit 0).toNat + 2 * (v / 2) = v := by
  rw [Nat.toNat_testBit, pow_zero, Nat.div_one]
  exact Nat.mod_add_div v 2

/-- The bits of a number stand for it. -/
theorem lsbVal_lsbBits (h : v < 2 ^ n) : lsbVal (lsbBits n v) = v := by
  induction n generalizing v with
  | zero =>
      rw [pow_zero] at h
      exact (Nat.lt_one_iff.mp h).symm
  | succ n ih =>
      rw [pow_succ] at h
      rw [lsbBits, lsbVal, ih (by omega)]
      exact testBit_zero_add v

/-- The bits of two numbers one behind the other. -/
theorem lsbVal_append (l l' : List Bool) :
    lsbVal (l ++ l') = lsbVal l + 2 ^ l.length * lsbVal l' := by
  induction l with
  | nil => rw [List.nil_append, lsbVal, List.length_nil, pow_zero, Nat.one_mul, Nat.zero_add]
  | cons b l ih =>
      rw [List.cons_append, lsbVal, lsbVal, ih, List.length_cons, pow_succ]
      ring

/-- The bits in front are what is left over from a division by their weight. -/
theorem lsbVal_take (n : Nat) (bits : List Bool) : lsbVal (bits.take n) = lsbVal bits % 2 ^ n := by
  rcases Nat.le_total bits.length n with hle | hle
  · have hlt : lsbVal bits < 2 ^ n := (lsbVal_lt bits).trans_le (Nat.pow_le_pow_right Nat.two_pos hle)
    rw [List.take_of_length_le hle, Nat.mod_eq_of_lt hlt]
  · have hlen : (bits.take n).length = n := List.length_take_of_le hle
    have hsplit := lsbVal_append (bits.take n) (bits.drop n)
    have hlt := lsbVal_lt (bits.take n)
    rw [List.take_append_drop, hlen] at hsplit
    rw [hlen] at hlt
    rw [hsplit, Nat.add_mul_mod_self_left, Nat.mod_eq_of_lt hlt]

/-- The bits behind are the quotient. -/
theorem lsbVal_drop (n : Nat) (bits : List Bool) : lsbVal (bits.drop n) = lsbVal bits / 2 ^ n := by
  rcases Nat.le_total bits.length n with hle | hle
  · have hlt : lsbVal bits < 2 ^ n := (lsbVal_lt bits).trans_le (Nat.pow_le_pow_right Nat.two_pos hle)
    rw [List.drop_of_length_le hle, Nat.div_eq_of_lt hlt, lsbVal]
  · have hlen : (bits.take n).length = n := List.length_take_of_le hle
    have hsplit := lsbVal_append (bits.take n) (bits.drop n)
    have hlt := lsbVal_lt (bits.take n)
    rw [List.take_append_drop, hlen] at hsplit
    rw [hlen] at hlt
    rw [hsplit, Nat.add_mul_div_left _ _ (Nat.two_pow_pos n), Nat.div_eq_of_lt hlt, Nat.zero_add]

/-- A number above another one that has `m` bits. -/
theorem lsbBits_pack (n : Nat) (h : v < 2 ^ m) :
    lsbBits (m + n) (v + 2 ^ m * w) = lsbBits m v ++ lsbBits n w := by
  induction m generalizing v with
  | zero =>
      rw [pow_zero] at h
      have hv := Nat.lt_one_iff.mp h
      rw [hv, Nat.zero_add, Nat.zero_add, pow_zero, Nat.one_mul, lsbBits, List.nil_append]
  | succ m ih =>
      rw [pow_succ] at h
      have hhalf : (v + 2 ^ (m + 1) * w) / 2 = v / 2 + 2 ^ m * w := by
        rw [pow_succ, Nat.mul_right_comm, Nat.add_mul_div_right _ _ Nat.two_pos]
      have hlow : (v + 2 ^ (m + 1) * w).testBit 0 = v.testBit 0 := by
        rw [Nat.testBit_zero, Nat.testBit_zero, pow_succ, Nat.mul_right_comm, Nat.add_mul_mod_self_right]
      have hsum : m + 1 + n = (m + n) + 1 := by omega
      rw [hsum, lsbBits, hhalf, hlow, ih (by omega), lsbBits, List.cons_append]

theorem drop_lsbBits (m n v : Nat) : (lsbBits n v).drop m = lsbBits (n - m) (v / 2 ^ m) := by
  induction m generalizing n v with
  | zero => rw [pow_zero, Nat.div_one, List.drop_zero, Nat.sub_zero]
  | succ m ih =>
      cases n with
      | zero => rw [Nat.zero_sub, lsbBits, lsbBits, List.drop_nil]
      | succ n =>
          rw [lsbBits, List.drop_succ_cons, ih, Nat.div_div_eq_div_mul, ← pow_succ', Nat.succ_sub_succ]

end PureOS.Foundation
