import Mathlib.Data.Set.Function
import Mathlib.Data.Nat.Find
import Mathlib.Logic.Relation
import Mathlib.Order.Interval.Set.Defs
import Mathlib.Logic.Function.Iterate

set_option autoImplicit false

/-!
# Foundation: trees given by parent pointers

A table of slots, some of them live, with a parent pointer in each.  A slot is
`Rooted` when its parent chain runs through live slots up to the root.  Adding a
fresh slot below a rooted one, and removing a slot that nothing live points to,
keep every other slot rooted.
-/

namespace PureOS.Foundation

universe u

variable {ι : Type u} {live live' : ι → Prop} {parent parent' : ι → ι} {root : ι}

/-- The parent chain of a slot runs through live slots to the root. -/
inductive Rooted (live : ι → Prop) (parent : ι → ι) (root : ι) : ι → Prop
  /-- The root itself. -/
  | root (isLive : live root) : Rooted live parent root root
  /-- A live slot below a rooted one. -/
  | child {n : ι} (isLive : live n) (up : Rooted live parent root (parent n)) :
      Rooted live parent root n

namespace Rooted

theorem isLive {n : ι} (h : Rooted live parent root n) : live n := by
  cases h with
  | root isLive => exact isLive
  | child isLive _ => exact isLive

/-- A change that keeps every live slot live, with the parent it had, keeps every
rooted slot rooted. -/
theorem congr {n : ι} (h : Rooted live parent root n)
    (same : ∀ i, live i → live' i ∧ parent' i = parent i) :
    Rooted live' parent' root n := by
  induction h with
  | root isLive => exact .root (same _ isLive).1
  | child isLive _ ih =>
      obtain ⟨hlive, hparent⟩ := same _ isLive
      exact .child hlive (hparent ▸ ih)

/-- Removing a slot that is no live slot's parent keeps the others rooted. -/
theorem remove {n x : ι} (h : Rooted live parent root n) (hne : n ≠ x)
    (leaf : ∀ i, live i → i ≠ x → parent i ≠ x)
    (same : ∀ i, i ≠ x → live i → live' i ∧ parent' i = parent i) :
    Rooted live' parent' root n := by
  induction h with
  | root isLive => exact .root (same _ hne isLive).1
  | child isLive _ ih =>
      obtain ⟨hlive, hparent⟩ := same _ hne isLive
      exact .child hlive (hparent ▸ ih (leaf _ isLive hne))

/-- The parent chain of a rooted slot, cut at the first arrival at the root: all
slots on it are live, and no slot occurs on it twice. -/
theorem exists_acyclic_chain {n : ι} (h : Rooted live parent root n) :
    ∃ k, parent^[k] n = root ∧ (∀ i ≤ k, live (parent^[i] n)) ∧
      Set.InjOn (fun i => parent^[i] n) (Set.Iic k) := by
  classical
  have hreach : ∃ k, parent^[k] n = root ∧ ∀ i ≤ k, live (parent^[i] n) := by
    induction h with
    | root isLive =>
        refine ⟨0, rfl, fun i hi => ?_⟩
        obtain rfl : i = 0 := Nat.le_zero.mp hi
        exact isLive
    | child isLive _ ih =>
        obtain ⟨k, hk, hlive⟩ := ih
        refine ⟨k + 1, by rwa [Function.iterate_succ_apply], fun i hi => ?_⟩
        cases i with
        | zero => exact isLive
        | succ i =>
            rw [Function.iterate_succ_apply]
            exact hlive i (Nat.le_of_succ_le_succ hi)
  obtain ⟨m, hm, hlive⟩ := hreach
  have hex : ∃ k, parent^[k] n = root := ⟨m, hm⟩
  refine ⟨Nat.find hex, Nat.find_spec hex,
    fun i hi => hlive i (hi.trans (Nat.find_min' hex hm)), ?_⟩
  -- A repetition would give a shorter way to the root than the least one.
  have hno : ∀ i j, i < j → j ≤ Nat.find hex → parent^[i] n ≠ parent^[j] n := by
    intro i j hij hj heq
    refine Nat.find_min hex (m := Nat.find hex - j + i) (by omega) ?_
    rw [Function.iterate_add_apply, heq, ← Function.iterate_add_apply,
      Nat.sub_add_cancel hj]
    exact Nat.find_spec hex
  intro i hi j hj heq
  rcases Nat.lt_trichotomy i j with hlt | rfl | hgt
  · exact absurd heq (hno i j hlt hj)
  · rfl
  · exact absurd heq.symm (hno j i hgt hi)

/-- No slot is below itself. -/
theorem not_below_self {n : ι} (h : Rooted live parent root n) (hroot : parent root = root) :
    ¬Relation.TransGen (fun d i => live i ∧ parent i = d ∧ i ≠ d) n n := by
  induction h with
  | root _ =>
      intro hcycle
      obtain ⟨b, -, -, hparent, hne⟩ := Relation.TransGen.tail'_iff.mp hcycle
      exact hne (hroot.symm.trans hparent)
  | @child n _ _ ih =>
      intro hcycle
      obtain ⟨b, hbelow, hlast⟩ := Relation.TransGen.tail'_iff.mp hcycle
      obtain rfl : parent n = b := hlast.2.1
      exact ih (Relation.TransGen.head' hlast hbelow)

end Rooted

/-- When what goes takes all that is below it along, the rest is below what it was below. -/
theorem transGen_without_iff {r r' : ι → ι → Prop} {gone : ι → Prop}
    (hclosed : ∀ a b, gone a → r a b → gone b) (hr : ∀ a b, r' a b ↔ r a b ∧ ¬gone b) {a b : ι} :
    Relation.TransGen r' a b ↔ Relation.TransGen r a b ∧ ¬gone b := by
  constructor
  · intro h
    refine ⟨Relation.TransGen.mono (fun x y hxy => ((hr x y).mp hxy).1) a b h, ?_⟩
    obtain ⟨c, -, hlast⟩ := Relation.TransGen.tail'_iff.mp h
    exact ((hr c b).mp hlast).2
  · rintro ⟨h, hb⟩
    induction h with
    | single hstep => exact .single ((hr _ _).mpr ⟨hstep, hb⟩)
    | tail _ hstep ih =>
        have hbefore := fun hgone => hb (hclosed _ _ hgone hstep)
        exact .tail (ih hbefore) ((hr _ _).mpr ⟨hstep, hb⟩)

end PureOS.Foundation
