import Mathlib.Data.Nat.Bitwise
import PureOS.Memory.Paging

set_option autoImplicit false

/-!
# Memory: entries of page tables

What `map_page` and `next_table` put into an entry comes back when the entry is read:
the address of the frame, the rights, and that the entry is no huge page.
-/

namespace PureOS.Memory

open PureOS.Foundation

/-! ## Bits -/

theorem testBit_physMask (j : Nat) :
    physMask.testBit j = (decide (12 ≤ j) && decide (j < 52)) := by
  have h : physMask = (2 ^ 40 - 1) <<< 12 := rfl
  rw [h, Nat.testBit_shiftLeft, Nat.testBit_two_pow_sub_one]
  by_cases h12 : 12 ≤ j
  · simp only [h12, decide_true, Bool.true_and]
    congr 1
    exact propext ⟨by omega, by omega⟩
  · simp [h12]

theorem testBit_target (e j : Nat) :
    (target e).testBit j = (e.testBit j && (decide (12 ≤ j) && decide (j < 52))) := by
  rw [target, Nat.testBit_and, testBit_physMask]

/-- The lowest bits of an aligned address are clear. -/
theorem testBit_of_aligned {f j : Nat} (h : Aligned f) (hj : j < 12) : f.testBit j = false := by
  have heq : f = (f / 4096) <<< 12 := by
    rw [Nat.shiftLeft_eq]
    unfold Aligned at h
    omega
  rw [heq, Nat.testBit_shiftLeft]
  simp [Nat.not_le.mpr hj]

/-- The flags are in the lowest bits. -/
theorem testBit_flags (writable user : Bool) {j : Nat} (hj : 12 ≤ j) :
    (flags writable user).testBit j = false := by
  have hlt : flags writable user < 2 ^ 12 := by cases writable <;> cases user <;> decide
  exact Nat.testBit_lt_two_pow (Nat.lt_of_lt_of_le hlt (Nat.pow_le_pow_right (by decide) hj))

theorem testBit_four (j : Nat) : Nat.testBit 4 j = decide (j = 2) := by
  have h : (4 : Nat) = 2 ^ 2 := rfl
  rw [h, Nat.testBit_two_pow]
  exact decide_eq_decide.mpr eq_comm

/-! ## Addresses -/

/-- An address of physical memory is its own target. -/
theorem target_of_aligned {f : Nat} (h : Aligned f) (hlt : f < 2 ^ 52) : target f = f := by
  refine Nat.eq_of_testBit_eq fun j => ?_
  rw [testBit_target]
  by_cases h12 : 12 ≤ j
  · by_cases h52 : j < 52
    · simp [h12, h52]
    · have hbit : f.testBit j = false :=
        Nat.testBit_lt_two_pow
          (Nat.lt_of_lt_of_le hlt (Nat.pow_le_pow_right (by decide) (by omega)))
      simp [hbit]
  · rw [testBit_of_aligned h (by omega)]
    rfl

theorem aligned_target (e : Nat) : Aligned (target e) := by
  have hmod : target e % 2 ^ 12 = 0 := by
    refine Nat.eq_of_testBit_eq fun j => ?_
    rw [Nat.testBit_mod_two_pow, testBit_target, Nat.zero_testBit]
    by_cases h : j < 12
    · simp [Nat.not_le.mpr h]
    · simp [h]
  exact hmod

theorem target_lt (e : Nat) : target e < 2 ^ 52 := by
  have hle : target e ≤ physMask := Nat.and_le_right
  exact Nat.lt_of_le_of_lt hle (by decide)

theorem target_target (e : Nat) : target (target e) = target e :=
  target_of_aligned (aligned_target e) (target_lt e)

/-- The root that the processor uses is the page of the register. -/
theorem target_eq_pageDown {a : Nat} (h : a < 2 ^ 52) : target a = pageDown a := by
  have hmod : a % 2 ^ 12 = a &&& (2 ^ 12 - 1) := (Nat.and_two_pow_sub_one_eq_mod a 12).symm
  have hlt : pageDown a < 2 ^ 52 := Nat.lt_of_le_of_lt (pageDown_le a) h
  rw [← target_of_aligned (aligned_pageDown a) hlt]
  refine Nat.eq_of_testBit_eq fun j => ?_
  rw [testBit_target, testBit_target]
  by_cases h12 : 12 ≤ j
  · have hpage : pageDown a = (a / 2 ^ 12) <<< 12 := by
      rw [Nat.shiftLeft_eq]
      unfold pageDown
      omega
    rw [hpage, Nat.testBit_shiftLeft, Nat.testBit_div_two_pow]
    simp [h12, Nat.sub_add_cancel h12]
  · simp [h12]

/-! ## Entries that the kernel makes -/

section Made

variable {f : Nat} (writable user : Bool)

/-- An entry for a frame. -/
def entry (f : Nat) (writable user : Bool) : Nat := target f ||| flags writable user

theorem testBit_entry_low {j : Nat} (hj : j < 12) :
    (entry f writable user).testBit j = (flags writable user).testBit j := by
  rw [entry, Nat.testBit_or, testBit_of_aligned (aligned_target f) hj, Bool.false_or]

theorem present_entry : present (entry f writable user) = true := by
  rw [present, testBit_entry_low writable user (by decide)]
  cases writable <;> cases user <;> rfl

theorem isWritable_entry : isWritable (entry f writable user) = writable := by
  rw [isWritable, testBit_entry_low writable user (by decide)]
  cases writable <;> cases user <;> rfl

theorem isUser_entry : isUser (entry f writable user) = user := by
  rw [isUser, testBit_entry_low writable user (by decide)]
  cases writable <;> cases user <;> rfl

theorem isHuge_entry : isHuge (entry f writable user) = false := by
  rw [isHuge, testBit_entry_low writable user (by decide)]
  cases writable <;> cases user <;> rfl

theorem target_entry : target (entry f writable user) = target f := by
  rw [← target_target f]
  refine Nat.eq_of_testBit_eq fun j => ?_
  rw [testBit_target, testBit_target, entry, Nat.testBit_or]
  by_cases h12 : 12 ≤ j
  · rw [testBit_flags writable user h12, Bool.or_false]
  · simp [h12]

theorem entry_lt : entry f writable user < 2 ^ 64 := by
  refine Nat.or_lt_two_pow ?_ ?_
  · exact Nat.lt_of_lt_of_le (target_lt f) (by decide)
  · cases writable <;> cases user <;> decide

end Made

section Raised

variable {e : Nat}

theorem present_raised : present (e ||| 4) = present e := by
  simp [present]

theorem isWritable_raised : isWritable (e ||| 4) = isWritable e := by
  simp [isWritable, Nat.testBit_or, testBit_four]

theorem isUser_raised : isUser (e ||| 4) = true := by
  simp [isUser, Nat.testBit_or, testBit_four]

theorem isHuge_raised : isHuge (e ||| 4) = isHuge e := by
  simp [isHuge, Nat.testBit_or, testBit_four]

theorem target_raised : target (e ||| 4) = target e := by
  refine Nat.eq_of_testBit_eq fun j => ?_
  rw [testBit_target, testBit_target, Nat.testBit_or, testBit_four]
  by_cases h : j = 2
  · simp [h]
  · simp [h]

theorem raised_lt (h : e < 2 ^ 64) : e ||| 4 < 2 ^ 64 := Nat.or_lt_two_pow h (by decide)

end Raised

theorem present_zero : present 0 = false := rfl

/-! ## Cells -/

section Cells

variable {m m' : Nat → UInt8} {f t t' i j v : Nat}

theorem cell_lt (m : Nat → UInt8) (t i : Nat) : cell m t i < 2 ^ 64 := word_lt m _

theorem cell_setWord_same (hv : v < 2 ^ 64) : cell (setWord m (t + 8 * i) v) t i = v :=
  word_setWord_same m _ hv

theorem cell_setWord_of_ne (ht : Aligned t) (ht' : Aligned t') (hi : i < 512) (hj : j < 512)
    (hne : t' ≠ t ∨ j ≠ i) : cell (setWord m (t + 8 * i) v) t' j = cell m t' j := by
  refine word_setWord_of_disjoint v ?_
  unfold Aligned at ht ht'
  omega

/-- The cells of one table do not change with another page. -/
theorem cell_of_onlyPage (h : OnlyPage f m m') (hf : Aligned f) (ht : Aligned t) (hne : t ≠ f)
    (hi : i < 512) : cell m' t i = cell m t i := h.word hf ht hne hi

/-- A page of zeros has no entries. -/
theorem cell_zeroed (hi : i < 512) : cell (overlay m t 4096 fun _ => 0) t i = 0 := by
  rw [cell, word_overlay_of_inside (by omega), word_zero]

theorem index_lt (n virt : Nat) : index n virt < 512 := Nat.mod_lt _ (by decide)

end Cells

end PureOS.Memory
