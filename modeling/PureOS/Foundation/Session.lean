import Mathlib.Data.List.Basic

set_option autoImplicit false

/-!
# Foundation: histories made of sessions

One party of a protocol sees a history of events.  The protocol is followed when
that history is a sequence of complete sessions, each the events that a session of
its kind has in their order, and then the beginning of one more.  What remains
open is kept apart, so that an invariant can tie it to the party's state.
-/

namespace PureOS.Foundation

universe u v

variable {ι : Type u} {ε : Type v} {unit : ι → List ε}

/-- `Sessions unit h cur`: the history `h` is some complete sessions and then `cur`. -/
def Sessions (unit : ι → List ε) (h cur : List ε) : Prop :=
  ∃ done : List ι, h = done.flatMap unit ++ cur

namespace Sessions

/-- Every history can be read as no session but what is open. -/
theorem start (cur : List ε) : Sessions unit cur cur := ⟨[], rfl⟩

/-- The open part completes a session. -/
theorem close (x : ι) : Sessions unit (unit x) [] := ⟨[x], by simp⟩

/-- What is open goes on with the new events. -/
theorem append {h cur new cur' : List ε} (before : Sessions unit h cur)
    (after : Sessions unit (cur ++ new) cur') : Sessions unit (h ++ new) cur' := by
  obtain ⟨done, rfl⟩ := before
  obtain ⟨more, hmore⟩ := after
  refine ⟨done ++ more, ?_⟩
  rw [List.append_assoc, hmore, List.flatMap_append, List.append_assoc]

/-- A history without events has no session and nothing open. -/
theorem nil : Sessions unit [] [] := start []

end Sessions

/-- A history that is some complete sessions and the beginning of one more. -/
def InSessions (unit : ι → List ε) (h : List ε) : Prop :=
  ∃ cur x, Sessions unit h cur ∧ cur <+: unit x

/-- A history that is shorter than every session is the beginning of one. -/
theorem InSessions.isPrefix {h : List ε} (hin : InSessions unit h)
    (short : ∀ x, h.length < (unit x).length) : ∃ x, h <+: unit x := by
  obtain ⟨cur, x, ⟨done, rfl⟩, hcur⟩ := hin
  cases done with
  | nil => exact ⟨x, hcur⟩
  | cons y rest =>
      have hlt := short y
      simp only [List.flatMap_cons, List.length_append] at hlt
      omega

end PureOS.Foundation
