import Mathlib.Algebra.Group.Int.Defs
import Mathlib.Algebra.Group.Nat.Defs
import PureOS.Foundation.Fuel

set_option autoImplicit false

/-!
# Foundation: arithmetic of 32 bits under two profiles

A result that leaves its range is a fault in a build that checks its arithmetic, and wraps in one
that does not.  A function that takes the profile as a parameter says what the program does in
both.
-/

namespace PureOS.Foundation

/-- What becomes of a result that leaves its range. -/
inductive Profile where
  | checked | wrapping
  deriving DecidableEq

/-- The numbers of 32 bits with a sign. -/
def InI32 (v : Int) : Prop := -2 ^ 31 ≤ v ∧ v < 2 ^ 31

instance (v : Int) : Decidable (InI32 v) := inferInstanceAs (Decidable (_ ∧ _))

/-- `as i32`. -/
def asI32 (v : UInt32) : Int := if v.toNat < 2 ^ 31 then v.toNat else v.toNat - 2 ^ 32

/-- `as u32`. -/
def asU32 (v : Int) : UInt32 := UInt32.ofNat (v % 2 ^ 32).toNat

theorem asI32_eq {v : UInt32} (h : v.toNat < 2 ^ 31) : asI32 v = v.toNat := if_pos h

theorem asI32_cases (v : UInt32) : asI32 v = v.toNat ∨ asI32 v = v.toNat - 2 ^ 32 := by
  unfold asI32
  split
  · exact Or.inl rfl
  · exact Or.inr rfl

theorem toNat_asU32_eq (v : Int) : ((asU32 v).toNat : Int) = v % 2 ^ 32 := by
  rw [asU32, UInt32.toNat_ofNat', Nat.mod_eq_of_lt (by omega)]
  omega

theorem toNat_asU32 {v : Int} (h : 0 ≤ v) (hlt : v < 2 ^ 32) : (asU32 v).toNat = v.toNat := by
  rw [asU32, Int.emod_eq_of_lt h hlt, UInt32.toNat_ofNat']
  exact Nat.mod_eq_of_lt (by omega)

namespace Profile

variable (p : Profile)

/-- `+` on `u32`. -/
def add (a b : UInt32) : Except Fault UInt32 :=
  if p = .checked ∧ 2 ^ 32 ≤ a.toNat + b.toNat then .error .panic else .ok (a + b)

/-- `-` on `u32`. -/
def sub (a b : UInt32) : Except Fault UInt32 :=
  if p = .checked ∧ a.toNat < b.toNat then .error .panic else .ok (a - b)

/-- `*` on `u32`. -/
def mul (a b : UInt32) : Except Fault UInt32 :=
  if p = .checked ∧ 2 ^ 32 ≤ a.toNat * b.toNat then .error .panic else .ok (a * b)

/-- A sum or a difference of numbers of 32 bits with a sign. -/
def signed (v : Int) : Except Fault Int :=
  if InI32 v then .ok v
  else if p = .checked then .error .panic
  else .ok (Int.bmod v (2 ^ 32))

/-- `+` on `i32`. -/
def addI (a b : Int) : Except Fault Int := p.signed (a + b)

/-- `-` on `i32`. -/
def subI (a b : Int) : Except Fault Int := p.signed (a - b)

/-- `*` on `i32`. -/
def mulI (a b : Int) : Except Fault Int := p.signed (a * b)

variable {p} {a b : UInt32}

theorem add_ok (h : a.toNat + b.toNat < 2 ^ 32) : p.add a b = .ok (a + b) :=
  if_neg fun hp => absurd hp.2 (by omega)

theorem sub_ok (h : b.toNat ≤ a.toNat) : p.sub a b = .ok (a - b) :=
  if_neg fun hp => absurd hp.2 (by omega)

theorem addI_ok {a b : Int} (h : InI32 (a + b)) : p.addI a b = .ok (a + b) := if_pos h

theorem subI_ok {a b : Int} (h : InI32 (a - b)) : p.subI a b = .ok (a - b) := if_pos h

theorem mulI_ok {a b : Int} (h : InI32 (a * b)) : p.mulI a b = .ok (a * b) := if_pos h

@[simp] theorem add_wrapping (a b : UInt32) : wrapping.add a b = .ok (a + b) :=
  if_neg fun hp => absurd hp.1 (by decide)

@[simp] theorem sub_wrapping (a b : UInt32) : wrapping.sub a b = .ok (a - b) :=
  if_neg fun hp => absurd hp.1 (by decide)

theorem subI_wrapping (a b : Int) : ∃ c, wrapping.subI a b = .ok c := by
  rw [subI, signed]
  split
  · exact ⟨_, rfl⟩
  · exact ⟨_, if_neg fun hp => absurd hp (by decide)⟩

theorem toNat_add (h : a.toNat + b.toNat < 2 ^ 32) : (a + b).toNat = a.toNat + b.toNat := by
  rw [UInt32.toNat_add, Nat.mod_eq_of_lt h]

theorem toNat_mul (h : a.toNat * b.toNat < 2 ^ 32) : (a * b).toNat = a.toNat * b.toNat := by
  rw [UInt32.toNat_mul, Nat.mod_eq_of_lt h]

theorem toNat_sub (h : b.toNat ≤ a.toNat) : (a - b).toNat = a.toNat - b.toNat :=
  UInt32.toNat_sub_of_le a b (UInt32.le_iff_toNat_le.mpr h)

theorem signed_checked_eq_ok {v c : Int} (h : checked.signed v = .ok c) : InI32 v ∧ c = v := by
  rw [signed] at h
  split at h
  · rename_i hfits
    cases h
    exact ⟨hfits, rfl⟩
  · cases h

end Profile

end PureOS.Foundation
