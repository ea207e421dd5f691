import Mathlib.Data.Nat.ModEq

set_option autoImplicit false

/-!
# Foundation: a ring in a memory

A part of a memory that is written and read going round: behind its last place comes its first
one.  A list that is not longer than the ring lies in it from a position on.  What is written
behind such a list leaves it where it is, and the list can be taken off from the front.
-/

namespace PureOS.Foundation

universe u

variable {α : Type u} {size start : Nat} {mem : List α} {pos : Nat} {xs ys : List α}

/-- Writing elements from a position on, going round. -/
def ringWrite (size start : Nat) : List α → Nat → List α → List α
  | mem, _, [] => mem
  | mem, pos, x :: xs => ringWrite size start (mem.set (start + pos % size) x) (pos + 1) xs

/-- From a position on, the ring holds a list. -/
def RingHolds (size start : Nat) (mem : List α) (pos : Nat) (xs : List α) : Prop :=
  ∀ i < xs.length, mem[start + (pos + i) % size]? = xs[i]?

theorem length_ringWrite (size start : Nat) (mem : List α) (pos : Nat) (xs : List α) :
    (ringWrite size start mem pos xs).length = mem.length := by
  induction xs generalizing mem pos with
  | nil => rfl
  | cons x xs ih => rw [ringWrite, ih, List.length_set]

theorem ringWrite_congr {pos' : Nat} (h : pos % size = pos' % size) :
    ringWrite size start mem pos xs = ringWrite size start mem pos' xs := by
  induction xs generalizing mem pos pos' with
  | nil => rfl
  | cons x xs ih =>
      rw [ringWrite, ringWrite, h]
      exact ih (Nat.ModEq.add_right 1 h)

/-- A place that is not written keeps its element. -/
theorem get_ringWrite_of_ne {k : Nat} (h : ∀ i < xs.length, k ≠ start + (pos + i) % size) :
    (ringWrite size start mem pos xs)[k]? = mem[k]? := by
  induction xs generalizing mem pos with
  | nil => rfl
  | cons x xs ih =>
      have hfirst : k ≠ start + pos % size := h 0 (by simp)
      have hrest : ∀ i < xs.length, k ≠ start + (pos + 1 + i) % size := fun i hi => by
        have := h (i + 1) (by simpa using hi)
        rwa [Nat.add_comm i 1, ← Nat.add_assoc] at this
      rw [ringWrite, ih hrest, List.getElem?_set_ne (Ne.symm hfirst)]

/-- Two places that are less than a round apart are different. -/
theorem ring_injective {i j : Nat} (hi : i < size) (hj : j < size)
    (h : (pos + i) % size = (pos + j) % size) : i = j :=
  Nat.ModEq.eq_of_lt_of_lt (Nat.ModEq.add_left_cancel' pos h) hi hj

/-- What has been written is there. -/
theorem ringHolds_ringWrite (hfits : start + size ≤ mem.length) (hlen : xs.length ≤ size) :
    RingHolds size start (ringWrite size start mem pos xs) pos xs := by
  induction xs generalizing mem pos with
  | nil => exact fun i hi => absurd hi (Nat.not_lt_zero i)
  | cons x xs ih =>
      rw [List.length_cons] at hlen
      intro i hi
      rw [ringWrite]
      cases i with
      | zero =>
          have hother : ∀ j < xs.length, start + pos % size ≠ start + (pos + 1 + j) % size := by
            intro j hj hsame
            rw [Nat.add_assoc] at hsame
            have := @ring_injective size pos 0 (1 + j)
              (by omega) (by omega) (Nat.add_left_cancel hsame)
            omega
          have hin : pos % size < size := Nat.mod_lt _ (by omega)
          rw [show pos + 0 = pos from rfl, get_ringWrite_of_ne hother,
            List.getElem?_set_self (by omega)]
          exact List.getElem?_cons_zero.symm
      | succ i =>
          have hrest := @ih (mem.set (start + pos % size) x) (pos + 1)
            (by rwa [List.length_set]) (by omega) i (by simpa using hi)
          rw [Nat.add_assoc, Nat.add_comm 1 i] at hrest
          exact hrest

namespace RingHolds

theorem append_iff : RingHolds size start mem pos (xs ++ ys) ↔
    RingHolds size start mem pos xs ∧ RingHolds size start mem (pos + xs.length) ys := by
  constructor
  · intro h
    refine ⟨fun i hi => ?_, fun i hi => ?_⟩
    · have := h i (by rw [List.length_append]; omega)
      rwa [List.getElem?_append_left hi] at this
    · have := h (xs.length + i) (by rw [List.length_append]; omega)
      rwa [List.getElem?_append_right (by omega), Nat.add_sub_cancel_left,
        ← Nat.add_assoc] at this
  · rintro ⟨hfirst, hrest⟩ i hi
    rw [List.length_append] at hi
    by_cases hlt : i < xs.length
    · rw [hfirst i hlt, List.getElem?_append_left hlt]
    · have := hrest (i - xs.length) (by omega)
      rw [Nat.add_assoc, Nat.add_sub_cancel' (by omega)] at this
      rw [this, List.getElem?_append_right (by omega)]

/-- The position counts up to whole rounds. -/
theorem congr {pos' : Nat} (h : RingHolds size start mem pos xs) (hpos : pos % size = pos' % size) :
    RingHolds size start mem pos' xs := by
  intro i hi
  rw [← h i hi, Nat.add_mod pos' i, ← hpos, ← Nat.add_mod]

/-- Writing behind a list, as long as there is room. -/
theorem write (h : RingHolds size start mem pos xs) (hfits : start + size ≤ mem.length)
    (hroom : xs.length + ys.length ≤ size) :
    RingHolds size start (ringWrite size start mem (pos + xs.length) ys) pos (xs ++ ys) := by
  refine append_iff.mpr ⟨fun i hi => ?_, ringHolds_ringWrite hfits (by omega)⟩
  rw [get_ringWrite_of_ne, h i hi]
  intro j hj hsame
  rw [Nat.add_assoc pos] at hsame
  have := @ring_injective _ pos _ _ (by omega) (by omega) (Nat.add_left_cancel hsame)
  omega

end RingHolds

end PureOS.Foundation
