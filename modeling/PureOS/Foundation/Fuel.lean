import Mathlib.Logic.Basic

set_option autoImplicit false

/-!
# Foundation: computations with a bound on their work

A recursive computation gets a bound and ends in `Fault.fuel` when the bound is
used up, and in `Fault.panic` when it does what the source would abort on.  More
fuel never changes a result that was reached with less: `Below` is that order, and
sequencing keeps it.
-/

namespace PureOS.Foundation

universe u

/-- How a computation can fail to give a result. -/
inductive Fault where
  /-- The bound on the number of calls and turns of loops is used up. -/
  | fuel
  /-- An index or a range is outside its table. -/
  | panic
  deriving DecidableEq

variable {α β : Type u}

theorem bind_ok (a : α) (f : α → Except Fault β) : (Except.ok a >>= f) = f a := rfl

/-- A sequence that gives a result gives one in its first part. -/
theorem bind_eq_ok {ε : Type u} {r : Except ε α} {f : α → Except ε β} {b : β}
    (h : (r >>= f) = .ok b) : ∃ a, r = .ok a ∧ f a = .ok b := by
  cases r with
  | error fault => cases h
  | ok a => exact ⟨a, rfl, h⟩

variable {r r' : Except Fault α}

/-- `r'` has at least the fuel of `r`. -/
def Below (r r' : Except Fault α) : Prop := r = .error .fuel ∨ r = r'

namespace Below

theorem refl (r : Except Fault α) : Below r r := Or.inr rfl

theorem fuel (r : Except Fault α) : Below (.error .fuel) r := Or.inl rfl

/-- A result stays. -/
theorem eq_ok (h : Below r r') {a : α} (hr : r = .ok a) : r' = .ok a := by
  rcases h with hfuel | heq
  · rw [hfuel] at hr
    cases hr
  · rw [← heq, hr]

/-- Sequencing keeps the order. -/
theorem bind {f f' : α → Except Fault β} (h : Below r r') (hf : ∀ a, Below (f a) (f' a)) :
    Below (r >>= f) (r' >>= f') := by
  rcases h with hfuel | rfl
  · rw [hfuel]
    exact fuel _
  · cases r with
    | error fault => exact refl _
    | ok a => exact hf a

end Below

end PureOS.Foundation
