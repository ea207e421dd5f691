import Mathlib.Data.Set.Card
import Mathlib.Logic.Function.Iterate

set_option autoImplicit false

/-!
# Foundation: Conway's rule

A set of live cells, and which cells are alive after it, for cells with any neighbourhoods.  The
lifetime of a cell counts the generations that it has been alive without a break.
-/

namespace PureOS.Foundation

universe u

variable {α : Type u} (around : α → Set α)

/-- A live cell stays alive with two or three live neighbours, and a dead one is born with three. -/
def conway (live : Set α) : Set α :=
  {c | c ∈ live ∧ ((around c ∩ live).ncard = 2 ∨ (around c ∩ live).ncard = 3) ∨
    c ∉ live ∧ (around c ∩ live).ncard = 3}

/-- The cells that have an age. -/
def aged (age : α → Nat) : Set α := {c | age c ≠ 0}

open Classical in
/-- The age of a cell after a number of generations: one more in each that it is alive in. -/
noncomputable def lifetime (age : α → Nat) : Nat → α → Nat
  | 0, c => age c
  | j + 1, c => if c ∈ (conway around)^[j + 1] (aged age) then lifetime age j c + 1 else 0

variable {around} {age : α → Nat} {live : Set α} {c : α}

theorem mem_aged : c ∈ aged age ↔ age c ≠ 0 := Iff.rfl

theorem mem_conway_of_mem (h : c ∈ live) :
    c ∈ conway around live ↔ (around c ∩ live).ncard = 2 ∨ (around c ∩ live).ncard = 3 := by
  constructor
  · rintro (⟨-, hstays⟩ | ⟨hnot, -⟩)
    · exact hstays
    · exact absurd h hnot
  · exact fun hstays => Or.inl ⟨h, hstays⟩

theorem mem_conway_of_notMem (h : c ∉ live) :
    c ∈ conway around live ↔ (around c ∩ live).ncard = 3 := by
  constructor
  · rintro (⟨hmem, -⟩ | ⟨-, hborn⟩)
    · exact absurd hmem h
    · exact hborn
  · exact fun hborn => Or.inr ⟨h, hborn⟩

theorem lifetime_succ_of_mem {j : Nat} (h : c ∈ conway around ((conway around)^[j] (aged age))) :
    lifetime around age (j + 1) c = lifetime around age j c + 1 := by
  rw [lifetime, Function.iterate_succ_apply', if_pos h]

theorem lifetime_succ_of_notMem {j : Nat} (h : c ∉ conway around ((conway around)^[j] (aged age))) :
    lifetime around age (j + 1) c = 0 := by
  rw [lifetime, Function.iterate_succ_apply', if_neg h]

/-- The live cells are those that have a lifetime. -/
theorem lifetime_ne_zero_iff (j : Nat) :
    lifetime around age j c ≠ 0 ↔ c ∈ (conway around)^[j] (aged age) := by
  cases j with
  | zero => exact mem_aged.symm
  | succ j =>
      rw [lifetime]
      split
      · rename_i halive
        exact iff_of_true (Nat.succ_ne_zero _) halive
      · rename_i hdead
        exact iff_of_false (not_not_intro rfl) hdead

/-- In a pattern that does not change every live cell gets older. -/
theorem lifetime_of_still (h : conway around (aged age) = aged age) (hc : c ∈ aged age) (j : Nat) :
    lifetime around age j c = age c + j := by
  have hstill : ∀ i, (conway around)^[i] (aged age) = aged age := Function.iterate_fixed h
  induction j with
  | zero => rfl
  | succ j ih => rw [lifetime, hstill, if_pos hc, ih, Nat.add_assoc]

end PureOS.Foundation
