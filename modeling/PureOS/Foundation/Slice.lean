import Mathlib.Data.List.Basic
import Mathlib.Logic.Function.Basic
import Mathlib.Tactic.Ring

set_option autoImplicit false

/-!
# Foundation: slices of a flat memory

A flat memory is a function from addresses to cells.  `slice` reads a stretch of
it as a list, `blit` stores a list cell by cell, and `copyWithin` copies one
stretch over another in ascending order.  The lemmas say what a store does to a
slice: the same stretch holds what was stored, a disjoint one is untouched.
-/

namespace PureOS.Foundation

universe u

variable {α : Type u}

/-- The `len` cells from `off` on, in order. -/
def slice (m : Nat → α) (off len : Nat) : List α :=
  (List.range len).map fun i => m (off + i)

/-- Store the cells of a list one by one, in order, from `off` on. -/
def blit (m : Nat → α) (off : Nat) : List α → Nat → α
  | [] => m
  | x :: xs => blit (Function.update m off x) (off + 1) xs

/-- Copy `n` cells from `src` to `dst`, one by one in ascending order.  Each cell
is read after the earlier ones have been stored. -/
def copyWithin (m : Nat → α) (dst src : Nat) : Nat → Nat → α
  | 0 => m
  | n + 1 => copyWithin (Function.update m dst (m src)) (dst + 1) (src + 1) n

@[simp] theorem length_slice (m : Nat → α) (off len : Nat) :
    (slice m off len).length = len := by
  simp [slice]

@[simp] theorem slice_zero (m : Nat → α) (off : Nat) : slice m off 0 = [] := rfl

@[simp] theorem getElem_slice (m : Nat → α) (off len i : Nat)
    (h : i < (slice m off len).length) : (slice m off len)[i] = m (off + i) := by
  simp [slice]

/-- Two memories that agree on a stretch have the same slice there. -/
theorem slice_congr {m m' : Nat → α} {off len : Nat}
    (h : ∀ a, off ≤ a → a < off + len → m a = m' a) :
    slice m off len = slice m' off len := by
  refine List.map_congr_left fun i hi => ?_
  have hlt : i < len := List.mem_range.mp hi
  exact h (off + i) (Nat.le_add_right _ _) (by omega)

/-- A slice splits at every point. -/
theorem slice_append (m : Nat → α) (off a b : Nat) :
    slice m off (a + b) = slice m off a ++ slice m (off + a) b := by
  apply List.ext_getElem
  · simp
  · intro i h₁ h₂
    rw [getElem_slice, List.getElem_append]
    split
    · simp
    · rename_i h
      simp only [length_slice] at h
      rw [getElem_slice]
      congr 1
      simp only [length_slice]
      omega

theorem drop_slice (m : Nat → α) (off len k : Nat) :
    (slice m off len).drop k = slice m (off + k) (len - k) := by
  apply List.ext_getElem
  · simp
  · intro i h₁ h₂
    rw [List.getElem_drop, getElem_slice, getElem_slice, Nat.add_assoc]

theorem take_slice (m : Nat → α) {off len k : Nat} (h : k ≤ len) :
    (slice m off len).take k = slice m off k := by
  apply List.ext_getElem
  · simp [h]
  · intro i h₁ h₂
    rw [List.getElem_take, getElem_slice, getElem_slice]

/-- The last cell of a slice. -/
theorem slice_succ (m : Nat → α) (off len : Nat) :
    slice m off (len + 1) = slice m off len ++ [m (off + len)] := by
  simp [slice, List.range_succ]

/-! ## Stores -/

/-- A store leaves every cell outside its stretch as it was. -/
theorem blit_of_outside (m : Nat → α) (off : Nat) (xs : List α) (a : Nat)
    (h : a < off ∨ off + xs.length ≤ a) : blit m off xs a = m a := by
  induction xs generalizing m off with
  | nil => rfl
  | cons x xs ih =>
      simp only [List.length_cons] at h
      rw [blit, ih _ _ (by omega)]
      exact Function.update_of_ne (by omega) _ _

/-- Inside its stretch a store puts the elements of the list. -/
theorem blit_of_inside (m : Nat → α) (off : Nat) (xs : List α) (i : Nat)
    (h : i < xs.length) : blit m off xs (off + i) = xs[i] := by
  induction xs generalizing m off i with
  | nil => exact absurd h (Nat.not_lt_zero _)
  | cons x xs ih =>
      rw [blit]
      cases i with
      | zero =>
          have hfirst := blit_of_outside (Function.update m off x) (off + 1) xs off
            (Or.inl (Nat.lt_succ_self off))
          simpa using hfirst
      | succ i =>
          have hi : i < xs.length := by simpa using h
          have := ih (Function.update m off x) (off + 1) i hi
          rw [show off + (i + 1) = off + 1 + i by omega, this]
          simp

/-- Storing one list and the next behind it stores both. -/
theorem blit_append (m : Nat → α) (off : Nat) (xs ys : List α) :
    blit m off (xs ++ ys) = blit (blit m off xs) (off + xs.length) ys := by
  induction xs generalizing m off with
  | nil => rfl
  | cons x xs ih =>
      have hoff : off + (x :: xs).length = off + 1 + xs.length := by
        rw [List.length_cons]
        omega
      rw [List.cons_append, blit, ih, blit, hoff]

/-- The slice just stored is the list that was stored. -/
theorem slice_blit_same (m : Nat → α) (off : Nat) (xs : List α) :
    slice (blit m off xs) off xs.length = xs := by
  apply List.ext_getElem
  · simp
  · intro i h₁ h₂
    rw [getElem_slice, blit_of_inside m off xs i h₂]

/-- A store does not change a slice it does not meet. -/
theorem slice_blit_disjoint (m : Nat → α) (off : Nat) (xs : List α) (off' len' : Nat)
    (h : off' + len' ≤ off ∨ off + xs.length ≤ off') :
    slice (blit m off xs) off' len' = slice m off' len' := by
  refine slice_congr fun a h₁ h₂ => blit_of_outside m off xs a ?_
  omega

/-! ## Copies -/

/-- Copying onto a stretch that does not begin inside its source is storing the source slice. -/
theorem copyWithin_eq_blit (m : Nat → α) (dst src n : Nat) (h : dst ≤ src ∨ src + n ≤ dst) :
    copyWithin m dst src n = blit m dst (slice m src n) := by
  induction n generalizing m dst src with
  | zero => rfl
  | succ n ih =>
      have hslice : slice m src (n + 1) = m src :: slice m (src + 1) n := by
        rw [Nat.add_comm n 1, slice_append]
        rfl
      have hrest : slice (Function.update m dst (m src)) (src + 1) n =
          slice m (src + 1) n :=
        slice_congr fun a h₁ h₂ => Function.update_of_ne (by omega) _ _
      rw [copyWithin, ih _ _ _ (by omega), hrest, hslice, blit]

end PureOS.Foundation
