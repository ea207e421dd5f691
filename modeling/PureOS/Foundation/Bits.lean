import Mathlib.Algebra.Order.Ring.Nat
import Mathlib.Data.Nat.Bitwise
import Mathlib.Tactic.Ring

set_option autoImplicit false

/-!
# Foundation: numbers as bits, the highest one first

A number of so many bits is a list of them, and a list of bits is a number.
-/

namespace PureOS.Foundation

variable {n v : Nat}

/-- The low `n` bits of a number, the highest one first. -/
def msbBits : Nat → Nat → List Bool
  | 0, _ => []
  | n + 1, v => v.testBit n :: msbBits n v

/-- The number behind `a` when more bits follow. -/
def bitsOnto (a : Nat) (bits : List Bool) : Nat := bits.foldl (fun a b => 2 * a + b.toNat) a

/-- The number that bits stand for, the highest one first. -/
def bitsVal (bits : List Bool) : Nat := bitsOnto 0 bits

@[simp] theorem length_msbBits (n v : Nat) : (msbBits n v).length = n := by
  induction n with
  | zero => rfl
  | succ n ih => rw [msbBits, List.length_cons, ih]

theorem bitsOnto_cons (a : Nat) (b : Bool) (bits : List Bool) :
    bitsOnto a (b :: bits) = bitsOnto (2 * a + b.toNat) bits := rfl

/-- More bits move the number up. -/
theorem bitsOnto_eq (a : Nat) (bits : List Bool) :
    bitsOnto a bits = a * 2 ^ bits.length + bitsVal bits := by
  induction bits generalizing a with
  | nil => simp [bitsOnto, bitsVal]
  | cons b bits ih =>
      rw [bitsVal, bitsOnto_cons, bitsOnto_cons, ih, ih (2 * 0 + b.toNat), List.length_cons, pow_succ]
      ring

/-- The value of the top bit. -/
theorem testBit_top (n v : Nat) : (v.testBit n).toNat * 2 ^ n + v % 2 ^ n = v % 2 ^ (n + 1) := by
  rw [Nat.toNat_testBit, Nat.mod_pow_succ]
  ring

/-- The bits of a number stand for it. -/
theorem bitsVal_msbBits (n v : Nat) : bitsVal (msbBits n v) = v % 2 ^ n := by
  induction n with
  | zero => rw [msbBits, pow_zero, Nat.mod_one]; rfl
  | succ n ih =>
      rw [msbBits, bitsVal, bitsOnto_cons, bitsOnto_eq, length_msbBits, ih, ← testBit_top]
      ring

/-- The high bits of a number come first. -/
theorem msbBits_add (m n v : Nat) : msbBits (m + n) v = msbBits m (v / 2 ^ n) ++ msbBits n v := by
  induction m with
  | zero => rw [Nat.zero_add, msbBits, List.nil_append]
  | succ m ih =>
      rw [Nat.succ_add, msbBits, ih, msbBits, Nat.testBit_div_two_pow, List.cons_append]

/-- Higher bits do not matter. -/
theorem msbBits_congr {w : Nat} (h : v % 2 ^ n = w % 2 ^ n) : msbBits n v = msbBits n w := by
  induction n with
  | zero => rfl
  | succ n ih =>
      have hlow : v % 2 ^ n = w % 2 ^ n := by
        have hdvd : 2 ^ n ∣ 2 ^ (n + 1) := Nat.pow_dvd_pow 2 (by omega)
        rw [← Nat.mod_mod_of_dvd v hdvd, h, Nat.mod_mod_of_dvd w hdvd]
      have htop : v.testBit n = w.testBit n := by
        have hv := Nat.testBit_mod_two_pow v (n + 1) n
        have hw := Nat.testBit_mod_two_pow w (n + 1) n
        rw [h] at hv
        simpa using hv.symm.trans hw
      rw [msbBits, msbBits, htop, ih hlow]

theorem msbBits_mod (n v : Nat) : msbBits n (v % 2 ^ n) = msbBits n v :=
  msbBits_congr (Nat.mod_mod v (2 ^ n))

/-- The bits of two numbers one behind the other. -/
theorem msbBits_pack {w : Nat} (m : Nat) (h : w < 2 ^ n) :
    msbBits (m + n) (v * 2 ^ n + w) = msbBits m v ++ msbBits n w := by
  rw [msbBits_add]
  congr 1
  · rw [Nat.add_comm, Nat.add_mul_div_right _ _ (Nat.two_pow_pos _), Nat.div_eq_of_lt h, Nat.zero_add]
  · exact msbBits_congr (by rw [Nat.add_comm, Nat.add_mul_mod_self_right])

end PureOS.Foundation
