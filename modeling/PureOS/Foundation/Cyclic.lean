import Mathlib.Algebra.GroupWithZero.Nat
import Mathlib.Data.Fin.Basic
import Mathlib.Data.List.Basic

set_option autoImplicit false

/-!
# Foundation: going round a table

A search that starts behind a slot and goes round the table once.  What is passed over is
measured by how far ahead a slot is: from the slot that is found, every slot that was worth
finding is nearer than it was.
-/

namespace PureOS.Foundation

variable {n : Nat} {c m p : Fin n}

/-- How many steps lead from `c`, going round, to `p`. -/
def ahead (c p : Fin n) : Nat :=
  if c.val ≤ p.val then p.val - c.val else p.val + n - c.val

theorem ahead_lt (c p : Fin n) : ahead c p < n := by
  unfold ahead
  split <;> omega

theorem ahead_pos (h : c ≠ p) : 0 < ahead c p := by
  have hval : c.val ≠ p.val := fun heq => h (Fin.ext heq)
  unfold ahead
  split <;> omega

variable [NeZero n]

/-- The slot `d` steps ahead of `c`. -/
def forward (c : Fin n) (d : Nat) : Fin n := Fin.ofNat n (c.val + d)

theorem forward_val {d : Nat} (hd : d ≤ n) :
    (forward c d).val = if c.val + d < n then c.val + d else c.val + d - n := by
  unfold forward
  rw [Fin.val_ofNat]
  split
  · rename_i hlt
    exact Nat.mod_eq_of_lt hlt
  · rename_i hge
    rw [Nat.mod_eq_sub_mod (Nat.le_of_not_lt hge)]
    exact Nat.mod_eq_of_lt (by omega)

theorem forward_ahead (c p : Fin n) : forward c (ahead c p) = p := by
  apply Fin.ext
  rw [forward_val (ahead_lt c p).le]
  unfold ahead
  split <;> split <;> omega

/-- A slot on the way to `p` is that much nearer to it. -/
theorem ahead_forward {d : Nat} (hd : d ≤ ahead c p) : ahead (forward c d) p = ahead c p - d := by
  have hlt := ahead_lt c p
  have hval := forward_val (c := c) (hd.trans hlt.le)
  unfold ahead at hd ⊢
  rw [hval]
  split at hd <;> split <;> split <;> omega

/-- The first slot behind `c` that passes a test, `c` itself last:
`for step in 1..=n { let i = (c + step) % n; if ok(i) { return Some(i); } }`. -/
def scanAfter (ok : Fin n → Bool) (c : Fin n) : Option (Fin n) :=
  ((List.range n).map fun step => forward c (step + 1)).find? ok

variable {ok : Fin n → Bool}

/-- With a slot to be found the search succeeds. -/
theorem exists_scanAfter (hp : ok p = true) (hne : c ≠ p) : ∃ m, scanAfter ok c = some m := by
  cases h : scanAfter ok c with
  | some m => exact ⟨m, rfl⟩
  | none =>
      have hpos := ahead_pos hne
      have hlt := ahead_lt c p
      have hmem : p ∈ (List.range n).map fun step => forward c (step + 1) := by
        refine List.mem_map.mpr ⟨ahead c p - 1, List.mem_range.mpr (by omega), ?_⟩
        rw [Nat.sub_add_cancel hpos]
        exact forward_ahead c p
      exact absurd hp (List.find?_eq_none.mp h p hmem)

/-- From the slot that was found, every other slot that passes the test is nearer. -/
theorem ahead_scanAfter_lt (h : scanAfter ok c = some m) (hp : ok p = true) (hne : c ≠ p) :
    ahead m p < ahead c p := by
  have hpos := ahead_pos hne
  have hlt := ahead_lt c p
  obtain ⟨-, i, hi, hget, hleast⟩ := List.find?_eq_some_iff_getElem.mp h
  rw [List.getElem_map, List.getElem_range] at hget
  -- The search has not gone past `p`, which it would have found.
  have hstop : i + 1 ≤ ahead c p := by
    by_contra hpast
    have hbefore := hleast (ahead c p - 1) (by omega)
    rw [List.getElem_map, List.getElem_range, Nat.sub_add_cancel hpos, forward_ahead, hp] at hbefore
    cases hbefore
  rw [← hget, ahead_forward hstop]
  omega

end PureOS.Foundation
