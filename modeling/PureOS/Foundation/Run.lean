import Mathlib.Data.List.Basic

set_option autoImplicit false

/-!
# Foundation: labelled runs of a transition relation

A system is a relation `step : σ → ε → σ → Prop`, where the label of a step says
what was asked for and what was observed.  A run keeps its labels in order, the
latest one at the end, so that an invariant may speak about the state reached
and about the whole history that led there.
-/

namespace PureOS.Foundation

universe u v w

variable {σ : Type u} {ε : Type v} {step : σ → ε → σ → Prop}

/-- `Run step s₀ h s`: the labels `h`, taken in order from `s₀`, lead to `s`. -/
inductive Run (step : σ → ε → σ → Prop) (s₀ : σ) : List ε → σ → Prop
  /-- The empty run. -/
  | nil : Run step s₀ [] s₀
  /-- One more step at the end of a run. -/
  | snoc {h : List ε} {s s' : σ} {e : ε} (run : Run step s₀ h s) (last : step s e s') :
      Run step s₀ (h ++ [e]) s'

namespace Run

/-- The invariant rule: what holds initially of the empty history, and is kept by
every step, holds of every history and the state it leads to. -/
theorem invariant {s₀ s : σ} {h : List ε} (I : List ε → σ → Prop)
    (initial : I [] s₀)
    (preserved : ∀ (h : List ε) (s : σ) (e : ε) (s' : σ),
      I h s → step s e s' → I (h ++ [e]) s')
    (run : Run step s₀ h s) : I h s := by
  induction run with
  | nil => exact initial
  | snoc _ last ih => exact preserved _ _ _ _ ih last

/-- The invariant rule for a property of states alone. -/
theorem invariant_state {s₀ s : σ} {h : List ε} (I : σ → Prop)
    (initial : I s₀)
    (preserved : ∀ (s : σ) (e : ε) (s' : σ), I s → step s e s' → I s')
    (run : Run step s₀ h s) : I s :=
  run.invariant (fun _ => I) initial fun _ s e s' hI hstep => preserved s e s' hI hstep

/-- A step before a run. -/
theorem cons {s₀ s₁ s : σ} {e : ε} {h : List ε} (first : step s₀ e s₁)
    (rest : Run step s₁ h s) : Run step s₀ (e :: h) s := by
  induction rest with
  | nil => exact .snoc .nil first
  | snoc _ last ih => exact .snoc ih last

/-- A run behind a run. -/
theorem append {s₀ s₁ s : σ} {h h' : List ε} (first : Run step s₀ h s₁)
    (rest : Run step s₁ h' s) : Run step s₀ (h ++ h') s := by
  induction rest with
  | nil => rwa [List.append_nil]
  | snoc _ last ih =>
      rw [← List.append_assoc]
      exact .snoc ih last

/-- Without a step nothing is reached. -/
theorem of_nil {s₀ s : σ} (run : Run step s₀ [] s) : s = s₀ := by
  generalize hnil : ([] : List ε) = h at run
  cases run with
  | nil => rfl
  | snoc _ _ => exact absurd hnil.symm (List.append_ne_nil_of_right_ne_nil _ (List.cons_ne_nil _ _))

/-- The last step of a run. -/
theorem of_snoc {s₀ s' : σ} {h : List ε} {e : ε} (run : Run step s₀ (h ++ [e]) s') :
    ∃ s, Run step s₀ h s ∧ step s e s' := by
  generalize heq : h ++ [e] = h' at run
  cases run with
  | nil => exact absurd heq (List.append_ne_nil_of_right_ne_nil h (List.cons_ne_nil e []))
  | snoc before last =>
      obtain ⟨rfl, hlast⟩ := List.append_inj' heq rfl
      obtain rfl := List.singleton_inj.mp hlast
      exact ⟨_, before, last⟩

/-- A run of a stronger relation is a run of a weaker one. -/
theorem mono {step' : σ → ε → σ → Prop} {s₀ s : σ} {h : List ε}
    (weaker : ∀ (s : σ) (e : ε) (s' : σ), step s e s' → step' s e s')
    (run : Run step s₀ h s) : Run step' s₀ h s := by
  induction run with
  | nil => exact .nil
  | snoc _ last ih => exact .snoc ih (weaker _ _ _ last)

end Run

end PureOS.Foundation
