import Mathlib.Tactic.Ring
import PureOS.Foundation.Slice

set_option autoImplicit false

/-!
# Foundation: bytes and numbers

A number is written as `n` bytes with the least significant one first, and read
back modulo `256 ^ n`.  The order of the network is the reverse one.
-/

namespace PureOS.Foundation

/-- The bytes of a string of ASCII characters. -/
def ascii (s : String) : List UInt8 := s.toList.map fun c => UInt8.ofNat c.toNat

/-- The byte of an ASCII character. -/
def ch (c : Char) : UInt8 := UInt8.ofNat c.toNat

/-- The `n` lowest bytes of a number, least significant first. -/
def toLE : Nat → Nat → List UInt8
  | 0, _ => []
  | n + 1, v => UInt8.ofNat v :: toLE n (v / 256)

/-- The number that the bytes stand for. -/
def fromLE : List UInt8 → Nat
  | [] => 0
  | b :: bs => b.toNat + 256 * fromLE bs

@[simp] theorem length_toLE (n v : Nat) : (toLE n v).length = n := by
  induction n generalizing v with
  | zero => rfl
  | succ n ih => rw [toLE, List.length_cons, ih]

theorem fromLE_toLE (n v : Nat) : fromLE (toLE n v) = v % 256 ^ n := by
  induction n generalizing v with
  | zero => rw [toLE, fromLE, Nat.pow_zero, Nat.mod_one]
  | succ n ih =>
      have hbyte : (UInt8.ofNat v).toNat = v % 256 := by simp
      rw [toLE, fromLE, ih, hbyte, Nat.pow_succ, Nat.mul_comm (256 ^ n), Nat.mod_mul]

/-- Bytes come back from the number that they stand for. -/
theorem toLE_fromLE (bs : List UInt8) : toLE bs.length (fromLE bs) = bs := by
  induction bs with
  | nil => rfl
  | cons b bs ih =>
      have hb : b.toNat < 256 := b.toNat_lt
      have hlow : UInt8.ofNat (b.toNat + 256 * fromLE bs) = b := by
        apply UInt8.toNat_inj.mp
        rw [UInt8.toNat_ofNat']
        omega
      have hhigh : (b.toNat + 256 * fromLE bs) / 256 = fromLE bs := by omega
      rw [List.length_cons, fromLE, toLE, hlow, hhigh, ih]

theorem fromLE_lt (bs : List UInt8) : fromLE bs < 256 ^ bs.length := by
  induction bs with
  | nil => exact Nat.one_pos
  | cons b bs ih =>
      have hb : b.toNat < 256 := b.toNat_lt
      rw [fromLE, List.length_cons, Nat.pow_succ]
      omega

/-- The `n` lowest bytes of a number, most significant first. -/
def toBE (n v : Nat) : List UInt8 := (toLE n v).reverse

/-- The number that the bytes stand for, most significant first. -/
def fromBE (bs : List UInt8) : Nat := fromLE bs.reverse

@[simp] theorem length_toBE (n v : Nat) : (toBE n v).length = n := by
  rw [toBE, List.length_reverse, length_toLE]

theorem drop_toBE {n k : Nat} (v : Nat) (h : n ≤ k) : (toBE n v).drop k = [] :=
  List.drop_eq_nil_of_le (by rwa [length_toBE])

theorem fromBE_toBE (n v : Nat) : fromBE (toBE n v) = v % 256 ^ n := by
  rw [fromBE, toBE, List.reverse_reverse, fromLE_toLE]

/-- Read `n` bytes of a flat memory as a number. -/
def readLE (m : Nat → UInt8) (a n : Nat) : Nat := fromLE (slice m a n)

/-- Write a number as `n` bytes of a flat memory. -/
def writeLE (m : Nat → UInt8) (a n v : Nat) : Nat → UInt8 := blit m a (toLE n v)

theorem readLE_lt (m : Nat → UInt8) (a n : Nat) : readLE m a n < 256 ^ n := by
  have h := fromLE_lt (slice m a n)
  rwa [length_slice] at h

/-- A write changes its own bytes alone. -/
theorem writeLE_of_outside (m : Nat → UInt8) {a n i : Nat} (v : Nat) (h : i < a ∨ a + n ≤ i) :
    writeLE m a n v i = m i :=
  blit_of_outside m a _ i (by rwa [length_toLE])

/-- What was written is what is read, as far as it fits. -/
theorem readLE_writeLE_same (m : Nat → UInt8) (a n v : Nat) :
    readLE (writeLE m a n v) a n = v % 256 ^ n := by
  have h := slice_blit_same m a (toLE n v)
  rw [length_toLE] at h
  rw [readLE, writeLE, h, fromLE_toLE]

/-- A slice is the bytes of the number that is read there. -/
theorem slice_eq_toLE (m : Nat → UInt8) (a n : Nat) : slice m a n = toLE n (readLE m a n) := by
  have h := toLE_fromLE (slice m a n)
  rw [length_slice] at h
  exact h.symm

/-- A write elsewhere does not matter. -/
theorem readLE_writeLE_of_disjoint (m : Nat → UInt8) {a n b k : Nat} (v : Nat)
    (h : b + k ≤ a ∨ a + n ≤ b) : readLE (writeLE m a n v) b k = readLE m b k := by
  rw [readLE, writeLE, slice_blit_disjoint m a _ b k (by rwa [length_toLE]), readLE]

/-- A read depends on its own bytes alone. -/
theorem readLE_congr {m m' : Nat → UInt8} {a n : Nat}
    (h : ∀ i, a ≤ i → i < a + n → m i = m' i) : readLE m a n = readLE m' a n := by
  rw [readLE, readLE, slice_congr h]

end PureOS.Foundation
