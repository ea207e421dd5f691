import Mathlib.Data.List.DropRight
import Mathlib.Data.List.Nodup

set_option autoImplicit false

/-!
# Foundation: what is held when the first to come is the first to go

Keys are offered together with values, and a bounded number of keys is held.  A key that
is held keeps its place when it is offered again, with the new value; any other arrives at the
end, and when there is no room the key that has been there longest leaves.
-/

namespace PureOS.Foundation

universe u v

section Eviction

variable {κ : Type u} {β : Type v} [DecidableEq κ]

/-- The keys in the order of their arrivals, where an offer is an arrival unless its key is
among the last `cap` that arrived. -/
def arrivals (cap : Nat) (offers : List (κ × β)) : List κ :=
  offers.foldl (fun ks a => if a.1 ∈ ks.rtake cap then ks else ks ++ [a.1]) []

/-- The keys that are held, the oldest first: the last `cap` that arrived. -/
def held (cap : Nat) (offers : List (κ × β)) : List κ :=
  (arrivals cap offers).rtake cap

/-- The value that a key was last offered with. -/
def latest (offers : List (κ × β)) (k : κ) : Option β :=
  offers.reverse.lookup k

variable {cap : Nat} {offers : List (κ × β)} {k : κ} {b : β}

@[simp]
theorem held_nil : held cap ([] : List (κ × β)) = [] := List.rtake_nil cap

theorem arrivals_snoc : arrivals cap (offers ++ [(k, b)]) =
    if k ∈ held cap offers then arrivals cap offers else arrivals cap offers ++ [k] := by
  rw [arrivals, List.foldl_append]
  rfl

theorem length_held_le : (held cap offers).length ≤ cap := by
  rw [held, List.rtake, List.length_drop]
  omega

/-- A key that is held is held on, in its place. -/
theorem held_snoc_of_mem (h : k ∈ held cap offers) :
    held cap (offers ++ [(k, b)]) = held cap offers := by
  rw [held, arrivals_snoc, if_pos h]
  rfl

/-- While there is room, nothing leaves. -/
theorem held_snoc_of_room (h : k ∉ held cap offers) (hroom : (held cap offers).length < cap) :
    held cap (offers ++ [(k, b)]) = held cap offers ++ [k] := by
  have hshort : (arrivals cap offers).length < cap := by
    rw [held, List.rtake, List.length_drop] at hroom
    omega
  have hall : held cap offers = arrivals cap offers := by
    rw [held, List.rtake, Nat.sub_eq_zero_of_le (Nat.le_of_lt hshort), List.drop_zero]
  rw [held, arrivals_snoc, if_neg h, hall, List.rtake, List.length_append, List.length_singleton,
    Nat.sub_eq_zero_of_le hshort, List.drop_zero]

/-- When there is no room, the oldest key leaves. -/
theorem held_snoc_of_full (h : k ∉ held cap offers) (hfull : (held cap offers).length = cap)
    (hcap : 0 < cap) : held cap (offers ++ [(k, b)]) = (held cap offers).tail ++ [k] := by
  have hlong : cap ≤ (arrivals cap offers).length := by
    rw [held, List.rtake, List.length_drop] at hfull
    omega
  have hone : (arrivals cap offers).length + 1 - cap = (arrivals cap offers).length - cap + 1 := by
    omega
  rw [held, arrivals_snoc, if_neg h, List.rtake, List.length_append, List.length_singleton, hone,
    List.drop_append_of_le_length (by omega), held, List.rtake, List.tail_drop]

/-- No key is held twice. -/
theorem nodup_held (hcap : 0 < cap) : (held cap offers).Nodup := by
  induction offers using List.reverseRecOn with
  | nil =>
      rw [held_nil]
      exact List.nodup_nil
  | append_singleton offers a ih =>
      obtain ⟨k, b⟩ := a
      by_cases h : k ∈ held cap offers
      · rw [held_snoc_of_mem h]
        exact ih
      · have happend : ∀ l : List κ, l.Sublist (held cap offers) → (l ++ [k]).Nodup := by
          intro l hl
          rw [List.nodup_append]
          refine ⟨ih.sublist hl, List.nodup_singleton k, ?_⟩
          intro x hx y hy heq
          rw [List.mem_singleton] at hy
          rw [heq, hy] at hx
          exact h (hl.subset hx)
        rcases Nat.lt_or_ge (held cap offers).length cap with hroom | hfull
        · rw [held_snoc_of_room h hroom]
          exact happend _ (List.Sublist.refl _)
        · rw [held_snoc_of_full h (Nat.le_antisymm length_held_le hfull) hcap]
          exact happend _ (List.tail_sublist _)

theorem latest_snoc_self : latest (offers ++ [(k, b)]) k = some b := by
  rw [latest, List.reverse_append]
  exact List.lookup_cons_self

theorem latest_snoc_of_ne {k' : κ} (h : k' ≠ k) : latest (offers ++ [(k, b)]) k' = latest offers k' := by
  rw [latest, List.reverse_append, List.reverse_singleton, List.singleton_append, List.lookup_cons,
    beq_false_of_ne h]
  rfl

end Eviction

end PureOS.Foundation
