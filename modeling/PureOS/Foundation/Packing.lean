import Mathlib.Init
import Mathlib.Algebra.Group.Nat.Defs
import Mathlib.Algebra.Group.Int.Defs

set_option autoImplicit false

/-!
# Foundation: fields packed into a word

Several numbers travel in one machine word: one side puts them together with shifts
and an or, the other one takes them apart with shifts and masks.  A field that fits
below the next one comes back as it was.
-/

namespace PureOS.Foundation

variable {k hi lo : Nat}

/-- The field `hi` from bit `k` on, and the field `lo` below it. -/
def pack (k hi lo : Nat) : Nat := (hi <<< k) ||| lo

theorem pack_eq (h : lo < 2 ^ k) : pack k hi lo = hi * 2 ^ k + lo := by
  rw [pack, ← Nat.shiftLeft_add_eq_or_of_lt h, Nat.shiftLeft_eq]

/-- The upper field comes back by a shift. -/
theorem pack_shiftRight (h : lo < 2 ^ k) : pack k hi lo >>> k = hi := by
  rw [pack_eq h, Nat.shiftRight_eq_div_pow, Nat.add_comm,
    Nat.add_mul_div_right _ _ (Nat.two_pow_pos k), Nat.div_eq_of_lt h, Nat.zero_add]

/-- The lower field comes back by a mask. -/
theorem pack_and (h : lo < 2 ^ k) : pack k hi lo &&& (2 ^ k - 1) = lo := by
  rw [pack_eq h, Nat.and_two_pow_sub_one_eq_mod, Nat.mul_comm, Nat.mul_add_mod,
    Nat.mod_eq_of_lt h]

theorem pack_lt {m : Nat} (hhi : hi < 2 ^ m) (hlo : lo < 2 ^ k) : pack k hi lo < 2 ^ (m + k) := by
  rw [pack_eq hlo, Nat.pow_add]
  calc hi * 2 ^ k + lo < hi * 2 ^ k + 2 ^ k := Nat.add_lt_add_left hlo _
    _ = (hi + 1) * 2 ^ k := (Nat.succ_mul _ _).symm
    _ ≤ 2 ^ m * 2 ^ k := Nat.mul_le_mul_right _ hhi

theorem and_mask_lt (k n : Nat) : n &&& (2 ^ k - 1) < 2 ^ k := by
  rw [Nat.and_two_pow_sub_one_eq_mod]
  exact Nat.mod_lt _ (Nat.two_pow_pos k)

end PureOS.Foundation
