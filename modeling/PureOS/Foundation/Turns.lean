import PureOS.Foundation.Fuel
import Mathlib.Logic.Relation

set_option autoImplicit false

/-!
# Foundation: loops without a bound

A turn of such a loop changes the state and says whether there is another one.  The loop gives
a result with some fuel exactly if its turns lead to a last one.
-/

namespace PureOS.Foundation

universe u

variable {σ : Type u} {turn : σ → Except Fault (Bool × σ)} {s s' : σ} {n : Nat}

/-- Take turns, as long as there is another one. -/
def turns (turn : σ → Except Fault (Bool × σ)) : Nat → σ → Except Fault σ
  | 0, _ => .error .fuel
  | n + 1, s => do
      let (again, s) ← turn s
      if again then turns turn n s else return s

/-- Some turns lead from one state to another. -/
def Leads (turn : σ → Except Fault (Bool × σ)) : σ → σ → Prop :=
  Relation.ReflTransGen fun s s' => turn s = .ok (true, s')

theorem turns_last (h : turn s = .ok (false, s')) : turns turn (n + 1) s = .ok s' := by
  rw [turns, h]
  rfl

theorem turns_again (h : turn s = .ok (true, s')) : turns turn (n + 1) s = turns turn n s' := by
  rw [turns, h]
  rfl

theorem turns_error {fault : Fault} (h : turn s = .error fault) :
    turns turn (n + 1) s = .error fault := by
  rw [turns, h]
  rfl

/-- A loop that gives a result comes to its last turn. -/
theorem leads_of_turns (h : turns turn n s = .ok s') :
    ∃ s'', Leads turn s s'' ∧ turn s'' = .ok (false, s') := by
  induction n generalizing s with
  | zero => cases h
  | succ n ih =>
      cases hr : turn s with
      | error fault =>
          rw [turns_error hr] at h
          cases h
      | ok r =>
          obtain ⟨again, s₁⟩ := r
          cases again with
          | false =>
              rw [turns_last hr] at h
              cases h
              exact ⟨s, .refl, hr⟩
          | true =>
              rw [turns_again hr] at h
              obtain ⟨s'', hleads, hlast⟩ := ih h
              exact ⟨s'', .head hr hleads, hlast⟩

/-- A loop that comes to a last turn gives its result. -/
theorem turns_of_leads {s'' : σ} (h : Leads turn s s'') (hlast : turn s'' = .ok (false, s')) :
    ∃ n, turns turn n s = .ok s' := by
  induction h using Relation.ReflTransGen.head_induction_on with
  | refl => exact ⟨1, turns_last hlast⟩
  | head hr _ ih =>
      obtain ⟨n, hn⟩ := ih
      exact ⟨n + 1, (turns_again hr).trans hn⟩

/-- What every turn keeps holds along the turns. -/
theorem Leads.keeps {P : σ → Prop} (h : Leads turn s s') (hs : P s)
    (step : ∀ s s', P s → turn s = .ok (true, s') → P s') : P s' := by
  induction h with
  | refl => exact hs
  | tail _ hr ih => exact step _ _ ih hr

/-- What every turn keeps, the last one too, holds of the result. -/
theorem turns_keeps {P : σ → Prop} (h : turns turn n s = .ok s') (hs : P s)
    (step : ∀ s again s', P s → turn s = .ok (again, s') → P s') : P s' := by
  obtain ⟨s'', hleads, hlast⟩ := leads_of_turns h
  exact step s'' false s' (hleads.keeps hs fun s s' hP hturn => step s true s' hP hturn) hlast

/-- A result stays with more fuel. -/
theorem turns_mono {m : Nat} (hnm : n ≤ m) (h : turns turn n s = .ok s') :
    turns turn m s = .ok s' := by
  induction n generalizing m s with
  | zero => cases h
  | succ n ih =>
      obtain ⟨m, rfl⟩ := Nat.exists_eq_add_of_le' (Nat.le_of_add_left_le hnm)
      cases hr : turn s with
      | error fault =>
          rw [turns_error hr] at h
          cases h
      | ok r =>
          obtain ⟨again, s₁⟩ := r
          cases again with
          | false =>
              rw [turns_last hr] at h ⊢
              exact h
          | true =>
              rw [turns_again hr] at h ⊢
              exact ih (Nat.le_of_succ_le_succ hnm) h

/-- All that the turns lead to lies in front of the last turn. -/
theorem Leads.to_last {s₁ s₂ : σ} (h : Leads turn s s₁) (hlast : Leads turn s s₂)
    (hturn : turn s₂ = .ok (false, s')) : Leads turn s₁ s₂ := by
  induction h with
  | refl => exact hlast
  | @tail a b _ hr ih =>
      rcases Relation.ReflTransGen.cases_head ih with heq | ⟨c, hc, hrest⟩
      · rw [heq, hturn] at hr
        cases hr
      · rw [hr] at hc
        cases hc
        exact hrest

/-! ## Loops that return

`Good` holds in front of every turn, and `Bad` where a turn fails or leads to where it is bad
again.  Where it is not bad, a turn uses up some of a measure. -/

/-- What turns do where it is good, and where it is bad. -/
structure Returning (turn : σ → Except Fault (Bool × σ)) (Good Bad : σ → Prop) (measure : σ → Nat) :
    Prop where
  good : ∀ s, Good s → ¬Bad s → ∃ again s', turn s = .ok (again, s') ∧
    (again = true → Good s' ∧ measure s' < measure s)
  bad : ∀ s, Good s → Bad s → (∃ fault, turn s = .error fault) ∨
    ∃ s', turn s = .ok (true, s') ∧ Good s' ∧ Bad s'

namespace Returning

variable {Good Bad : σ → Prop} {measure : σ → Nat}

theorem returns (h : Returning turn Good Bad measure) (hs : Good s) (hn : measure s < n)
    (hsound : ∀ s', Leads turn s s' → ¬Bad s') : ∃ s', turns turn n s = .ok s' := by
  induction n generalizing s with
  | zero => cases hn
  | succ n ih =>
      obtain ⟨again, s', hturn, hagain⟩ := h.good s hs (hsound s .refl)
      cases again with
      | false => exact ⟨s', turns_last hturn⟩
      | true =>
          obtain ⟨hs', hlt⟩ := hagain rfl
          rw [turns_again hturn]
          exact ih hs' (by omega) fun s'' hleads => hsound s'' (.head hturn hleads)

theorem sound (h : Returning turn Good Bad measure) (hs : Good s) (hturns : turns turn n s = .ok s') :
    ∀ s'', Leads turn s s'' → ¬Bad s'' := by
  induction n generalizing s with
  | zero => cases hturns
  | succ n ih =>
      -- The state is not bad: the turn has not failed, and the next state is not bad.
      have hfirst : ¬Bad s := by
        intro hbad
        rcases h.bad s hs hbad with ⟨fault, hr⟩ | ⟨s₁, hr, hs₁, hbad₁⟩
        · rw [turns_error hr] at hturns
          cases hturns
        · rw [turns_again hr] at hturns
          exact ih hs₁ hturns s₁ .refl hbad₁
      intro s'' hleads
      rcases Relation.ReflTransGen.cases_head hleads with rfl | ⟨s₁, hr, hrest⟩
      · exact hfirst
      · obtain ⟨again, s₂, hturn, hagain⟩ := h.good s hs hfirst
        rw [hr] at hturn
        cases hturn
        rw [turns_again hr] at hturns
        exact ih (hagain rfl).1 hturns s'' hrest

/-- The loop gives a result with some fuel exactly if its turns never lead to where it is bad. -/
theorem returns_iff (h : Returning turn Good Bad measure) (hs : Good s) :
    (∃ n s', turns turn n s = .ok s') ↔ ∀ s', Leads turn s s' → ¬Bad s' :=
  ⟨fun ⟨_, _, hturns⟩ => h.sound hs hturns, fun hsound =>
    ⟨measure s + 1, h.returns hs (Nat.lt_succ_self _) hsound⟩⟩

end Returning

end PureOS.Foundation
