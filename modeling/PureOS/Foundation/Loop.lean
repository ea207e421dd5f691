import Mathlib.Data.List.Basic
import Mathlib.Logic.Function.Basic

set_option autoImplicit false

/-!
# Foundation: loops that stop at the first failure

The body of such a loop changes a state and may fail, and a failure ends the loop with
the state it left.  The rule says what holds at the end from what the body does to it,
with the elements that are done so far.
-/

namespace PureOS.Foundation

universe u v w

variable {σ : Type u} {β : Type v} {ε : Type w}

/-- Do the body for each element in order, until one fails. -/
def forEach (body : β → σ → Except ε Unit × σ) : List β → σ → Except ε Unit × σ
  | [], s => (.ok (), s)
  | b :: rest, s =>
      match body b s with
      | (.ok (), s) => forEach body rest s
      | (.error e, s) => (.error e, s)

/-- The outcome of a loop or of a body: `I` after success, `E` after a failure. -/
def Ends (I : σ → Prop) (E : ε → σ → Prop) (r : Except ε Unit × σ) : Prop :=
  match r.1 with
  | .ok () => I r.2
  | .error e => E e r.2

namespace forEach

variable {body : β → σ → Except ε Unit × σ} {E : ε → σ → Prop}

/-- The rule: `I done s` speaks about the elements that are done. -/
theorem rule {I : List β → σ → Prop} (l : List β) {s : σ} (start : I [] s)
    (step : ∀ done b rest s, l = done ++ b :: rest → I done s →
      Ends (I (done ++ [b])) E (body b s)) : Ends (I l) E (forEach body l s) := by
  have loop : ∀ rest done s, l = done ++ rest → I done s → Ends (I l) E (forEach body rest s) := by
    intro rest
    induction rest with
    | nil =>
        intro done s heq hI
        rw [List.append_nil] at heq
        rw [heq]
        exact hI
    | cons b rest ih =>
        intro done s heq hI
        have hbody := step done b rest s heq hI
        rw [forEach]
        cases hr : body b s with
        | mk result s' =>
            rw [hr] at hbody
            cases result with
            | error e => exact hbody
            | ok => exact ih (done ++ [b]) s' (by rw [heq, List.append_assoc]; rfl) hbody
  exact loop l [] s rfl start

/-- The rule for what holds all along. -/
theorem invariant {I : σ → Prop} {l : List β} {s : σ} (start : I s)
    (step : ∀ b ∈ l, ∀ s, I s → Ends I E (body b s)) : Ends I E (forEach body l s) :=
  rule l start fun _ b _ s heq hI =>
    step b (heq ▸ List.mem_append_right _ List.mem_cons_self) s hI

/-- Two bodies that do the same in the states that are reached make the same loop. -/
theorem congr {body' : β → σ → Except ε Unit × σ} {I : List β → σ → Prop} (l : List β) {s : σ}
    (start : I [] s)
    (step : ∀ done b rest s, l = done ++ b :: rest → I done s → body b s = body' b s ∧
      Ends (I (done ++ [b])) (fun _ _ => True) (body b s)) :
    forEach body l s = forEach body' l s := by
  have loop : ∀ rest done s, l = done ++ rest → I done s →
      forEach body rest s = forEach body' rest s := by
    intro rest
    induction rest with
    | nil => exact fun _ _ _ _ => rfl
    | cons b rest ih =>
        intro done s heq hI
        obtain ⟨hsame, hnext⟩ := step done b rest s heq hI
        rw [forEach, forEach, ← hsame]
        cases hr : body b s with
        | mk result s' =>
            rw [hr] at hnext
            cases result with
            | error e => rfl
            | ok => exact ih (done ++ [b]) s' (by rw [heq, List.append_assoc]; rfl) hnext
  exact loop l [] s rfl start

/-- A body that depends on the state may be told beforehand what it will find, if it has an answer
of its own for each element. -/
theorem foretold {ι γ : Type*} {P : β → γ → Prop} {answer : ι → β → γ}
    {told : ι → β → σ → Except ε Unit × σ}
    (hbody : ∀ b s, ∃ c, P b c ∧ ∀ i, answer i b = c → told i b s = body b s) [DecidableEq β]
    [Nonempty γ] {l : List β} (hnodup : l.Nodup) (s : σ) :
    ∃ found : β → γ, (∀ b ∈ l, P b (found b)) ∧
      ∀ i, (∀ b ∈ l, answer i b = found b) → forEach (told i) l s = forEach body l s := by
  induction l generalizing s with
  | nil => exact ⟨fun _ => Classical.ofNonempty, nofun, fun _ _ => rfl⟩
  | cons b rest ih =>
      obtain ⟨hfresh, hnodup⟩ := List.nodup_cons.mp hnodup
      obtain ⟨c, hc, htold⟩ := hbody b s
      obtain ⟨found, hfound, hrest⟩ := ih hnodup (body b s).2
      have hkeep : ∀ b' ∈ rest, Function.update found b c b' = found b' := by
        intro b' hb'
        refine Function.update_of_ne ?_ c found
        rintro rfl
        exact hfresh hb'
      refine ⟨Function.update found b c, ?_, fun i hanswer => ?_⟩
      · refine List.forall_mem_cons.mpr ⟨?_, fun b' hb' => ?_⟩
        · rwa [Function.update_self]
        · rw [hkeep b' hb']
          exact hfound b' hb'
      · obtain ⟨hfirst, hlater⟩ := List.forall_mem_cons.mp hanswer
        rw [Function.update_self] at hfirst
        have hloop := hrest i fun b' hb' => (hlater b' hb').trans (hkeep b' hb')
        rw [forEach, forEach, htold i hfirst]
        rcases hr : body b s with ⟨_ | _, s'⟩
        · rfl
        · rw [hr] at hloop
          exact hloop

end forEach

/-! ## Loops over `0..n` -/

theorem range_eq_append_cons {n i : Nat} {done rest : List Nat}
    (h : List.range n = done ++ i :: rest) : done = List.range i ∧ i < n := by
  rw [List.range_eq_range', List.range'_eq_append_iff] at h
  obtain ⟨m, _, hdone, hrest⟩ := h
  obtain ⟨hm, hpos, _⟩ := List.range'_eq_cons_iff.mp hrest.symm
  have hi : m = i := by omega
  rw [hdone, hi, List.range_eq_range']
  exact ⟨rfl, by omega⟩

theorem range_append_cons {n i : Nat} (h : i < n) :
    ∃ rest, List.range n = List.range i ++ i :: rest := by
  refine ⟨List.range' (i + 1) (n - i - 1), ?_⟩
  rw [List.range_eq_range', List.range_eq_range', List.range'_eq_append_iff]
  refine ⟨i, by omega, rfl, ?_⟩
  exact (List.range'_eq_cons_iff.mpr ⟨by omega, by omega, by rw [Nat.sub_sub]⟩).symm

/-- The rule for a loop that goes through all the indices of a table. -/
theorem foldl_finRange {n : Nat} {f : σ → Fin n → σ} {I : Nat → σ → Prop} {s : σ} (start : I 0 s)
    (step : ∀ (i : Fin n) (s : σ), I i.val s → I (i.val + 1) (f s i)) :
    I n ((List.finRange n).foldl f s) := by
  have hprefix : ∀ k ≤ n, I k (((List.finRange n).take k).foldl f s) := by
    intro k
    induction k with
    | zero => exact fun _ => start
    | succ k ih =>
        intro hk
        have hlt : k < (List.finRange n).length := by rw [List.length_finRange]; omega
        have hget : (List.finRange n)[k] = ⟨k, hk⟩ := List.getElem_finRange hlt
        rw [List.take_succ_eq_append_getElem hlt, List.foldl_append, hget]
        exact step ⟨k, hk⟩ _ (ih (by omega))
  have hall := hprefix n (Nat.le_refl n)
  rwa [List.take_of_length_le (Nat.le_of_eq List.length_finRange)] at hall

end PureOS.Foundation
