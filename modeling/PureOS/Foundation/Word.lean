import Mathlib.Init
import Mathlib.Algebra.Group.Nat.Defs
import Mathlib.Algebra.Group.Int.Defs

set_option autoImplicit false

/-!
# Foundation: unsigned 64-bit arithmetic on natural numbers

Addresses, sizes and counters of the source are `u64`.  They are natural numbers
here, and the operations that may leave the range say what happens there: a
checked addition fails, a plain one wraps as it does in a release build.
-/

namespace PureOS.Foundation

/-- `2 ^ 64`. -/
abbrev wordSize : Nat := 2 ^ 64

/-- `checked_add` on `u64`. -/
def checkedAdd (a b : Nat) : Option Nat := if a + b < wordSize then some (a + b) else none

/-- Addition on `u64` as a release build performs it. -/
def wrappingAdd (a b : Nat) : Nat := (a + b) % wordSize

theorem checkedAdd_eq_some {a b c : Nat} (h : checkedAdd a b = some c) :
    c = a + b ∧ a + b < wordSize := by
  unfold checkedAdd at h
  split at h
  · rename_i hlt
    exact ⟨(Option.some.inj h).symm, hlt⟩
  · cases h

theorem wrappingAdd_of_lt {a b : Nat} (h : a + b < wordSize) : wrappingAdd a b = a + b := by
  rw [wrappingAdd, Nat.mod_eq_of_lt h]

end PureOS.Foundation
