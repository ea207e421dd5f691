import Mathlib.Data.List.Basic

set_option autoImplicit false

/-!
# Foundation: conditions along a log

A log keeps events in order, the latest one at the end.  `Along ok log` says that
every event was fine when it came, judged by the events in front of it.
-/

namespace PureOS.Foundation

universe u

variable {ε : Type u} {ok : List ε → ε → Prop} {log log' : List ε} {e : ε}

/-- Every event of the log satisfies `ok` with what was in front of it. -/
def Along (ok : List ε → ε → Prop) (log : List ε) : Prop :=
  ∀ pre e post, log = pre ++ e :: post → ok pre e

namespace Along

theorem nil : Along ok [] := by
  intro pre e post h
  exact absurd h.symm (by simp)

/-- What holds along a log holds along its beginnings. -/
theorem of_prefix (h : Along ok log) (hpre : log' <+: log) : Along ok log' := by
  obtain ⟨rest, rfl⟩ := hpre
  intro pre e post heq
  exact h pre e (post ++ rest) (by rw [heq, List.append_assoc, List.cons_append])

/-- The last event. -/
theorem last (h : Along ok (log ++ [e])) : ok log e := h log e [] rfl

/-- One event more. -/
theorem snoc (h : Along ok log) (he : ok log e) : Along ok (log ++ [e]) := by
  intro pre e' post heq
  rcases List.append_eq_append_iff.mp heq with ⟨mid, rfl, hmid⟩ | ⟨mid, rfl, hmid⟩
  · -- The event is the last one.
    cases mid with
    | nil =>
        rw [List.nil_append] at hmid
        cases hmid
        rwa [List.append_nil]
    | cons x mid =>
        have hlen := congrArg List.length hmid
        simp at hlen
  · cases mid with
    | nil =>
        rw [List.nil_append] at hmid
        cases hmid
        rwa [List.append_nil] at he
    | cons x mid =>
        cases hmid
        exact h pre _ _ rfl

theorem mono {ok' : List ε → ε → Prop} (h : Along ok log) (hok : ∀ pre e, ok pre e → ok' pre e) :
    Along ok' log := fun pre e post heq => hok pre e (h pre e post heq)

/-- The events are judged one by one. -/
theorem iff_forall : Along ok log ↔ ∀ i : Fin log.length, ok (log.take i) log[i] := by
  constructor
  · intro h i
    refine h _ _ (log.drop (i + 1)) ?_
    rw [Fin.getElem_fin, List.getElem_cons_drop, List.take_append_drop]
  · intro h pre e post heq
    have hlt : pre.length < log.length := by
      rw [heq, List.length_append, List.length_cons]
      omega
    have hi := h ⟨pre.length, hlt⟩
    simpa [heq] using hi

instance [∀ pre e, Decidable (ok pre e)] : Decidable (Along ok log) :=
  decidable_of_iff _ iff_forall.symm

end Along

end PureOS.Foundation
