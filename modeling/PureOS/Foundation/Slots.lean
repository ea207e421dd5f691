import Mathlib.Data.Set.Card
import Mathlib.Data.Vector.Basic
import Mathlib.Logic.Function.Basic

set_option autoImplicit false

/-!
# Foundation: tables of slots

A table has a fixed number of slots, some of which are in use.  What is in use carries a
key, and the key of no two slots is the same: the table then stands for a partial function
from the keys to what they are kept for.
-/

namespace PureOS.Foundation

universe u v w x

section FirstSlot

variable {α : Type u} {n : Nat} {p : α → Bool} {t : Vector α n} {i : Fin n}

/-- The first slot that passes a test: `for i in 0..n { if p(t[i]) { return Some(i); } }`. -/
def firstSlot (p : α → Bool) (t : Vector α n) : Option (Fin n) :=
  (List.finRange n).find? fun i => p t[i]

theorem firstSlot_eq_some (h : firstSlot p t = some i) : p t[i] = true := by
  rw [firstSlot] at h
  have hfound := List.find?_some h
  exact hfound

theorem firstSlot_eq_none : firstSlot p t = none ↔ ∀ i : Fin n, p t[i] = false := by
  rw [firstSlot, List.find?_eq_none]
  constructor
  · intro h i
    exact Bool.eq_false_iff.mpr (h i (List.mem_finRange i))
  · intro h i _
    rw [h i]
    exact Bool.false_ne_true

/-- No slot before the first one passes the test. -/
theorem firstSlot_least (h : firstSlot p t = some i) {j : Fin n} (hj : j < i) : p t[j] = false := by
  rw [firstSlot, List.find?_eq_some_iff_getElem] at h
  obtain ⟨-, m, hm, hget, hleast⟩ := h
  rw [List.getElem_finRange] at hget
  have hval : m = i.val := congrArg Fin.val hget
  have hbefore := hleast j (by rw [hval]; exact hj)
  rwa [List.getElem_finRange, Bool.not_eq_true'] at hbefore

/-- When only one slot passes the test, it is the first one that does. -/
theorem firstSlot_of_unique (hi : p t[i] = true) (hunique : ∀ j : Fin n, p t[j] = true → j = i) :
    firstSlot p t = some i := by
  cases hfirst : firstSlot p t with
  | none =>
      rw [firstSlot_eq_none.mp hfirst i] at hi
      cases hi
  | some j => rw [hunique j (firstSlot_eq_some hfirst)]

end FirstSlot

section Represents

variable {ι : Type u} {α : Type v} {κ : Type w} {β : Type x}
variable {live : α → Prop} {key : α → κ} {val : α → β} {t t' : ι → α} {A : κ → Option β}

/-- The table stands for the partial function `A`. -/
structure Represents (live : α → Prop) (key : α → κ) (val : α → β) (t : ι → α) (A : κ → Option β) :
    Prop where
  /-- No two slots in use have the same key. -/
  distinct : ∀ i j, live (t i) → live (t j) → key (t i) = key (t j) → i = j
  /-- What is in a slot is what its key is kept for. -/
  stored : ∀ i, live (t i) → A (key (t i)) = some (val (t i))
  /-- What is kept is in some slot. -/
  found : ∀ k, A k ≠ none → ∃ i, live (t i) ∧ key (t i) = k

namespace Represents

theorem eq_some_iff (h : Represents live key val t A) {k : κ} {b : β} :
    A k = some b ↔ ∃ i, live (t i) ∧ key (t i) = k ∧ val (t i) = b := by
  constructor
  · intro hk
    obtain ⟨i, hi, hkey⟩ := h.found k (by rw [hk]; exact Option.some_ne_none b)
    refine ⟨i, hi, hkey, ?_⟩
    have hstored := h.stored i hi
    rw [hkey, hk] at hstored
    exact (Option.some.inj hstored).symm
  · rintro ⟨i, hi, rfl, rfl⟩
    exact h.stored i hi

theorem eq_none_iff (h : Represents live key val t A) {k : κ} :
    A k = none ↔ ∀ i, live (t i) → key (t i) ≠ k := by
  constructor
  · rintro hk i hi rfl
    rw [h.stored i hi] at hk
    cases hk
  · intro hk
    by_contra hne
    obtain ⟨i, hi, hkey⟩ := h.found k hne
    exact hk i hi hkey

/-- As many slots are in use as there are keys. -/
theorem card [Fintype ι] [DecidablePred fun i => live (t i)] (h : Represents live key val t A) :
    (Finset.univ.filter fun i => live (t i)).card = {k | A k ≠ none}.ncard := by
  have himage : {k | A k ≠ none} = (fun i => key (t i)) '' {i | live (t i)} := by
    ext k
    constructor
    · intro hk
      exact h.found k hk
    · rintro ⟨i, hi, rfl⟩
      change A (key (t i)) ≠ none
      rw [h.stored i hi]
      exact Option.some_ne_none _
  have hinj : Set.InjOn (fun i => key (t i)) {i | live (t i)} :=
    fun i hi j hj => h.distinct i j hi hj
  rw [himage, hinj.ncard_image, ← Set.ncard_coe_finset, Finset.coe_filter_univ]

variable [DecidableEq ι] [DecidableEq κ] {i : ι} {a : α}

/-- A slot in use is written anew, under the same key. -/
theorem update (h : Represents live key val t A) (hi : live (t i)) (ha : live a)
    (hkey : key a = key (t i)) :
    Represents live key val (Function.update t i a) (Function.update A (key a) (some (val a))) where
  distinct j k hj hk heq := by
    refine h.distinct j k ?_ ?_ ?_
    · by_cases hji : j = i
      · rwa [hji]
      · rwa [Function.update_of_ne hji] at hj
    · by_cases hki : k = i
      · rwa [hki]
      · rwa [Function.update_of_ne hki] at hk
    · have hsame : ∀ l, key (Function.update t i a l) = key (t l) := by
        intro l
        by_cases hli : l = i
        · rw [hli, Function.update_self, hkey]
        · rw [Function.update_of_ne hli]
      rwa [hsame, hsame] at heq
  stored j hj := by
    by_cases hji : j = i
    · rw [hji, Function.update_self, Function.update_self]
    · rw [Function.update_of_ne hji] at hj ⊢
      rw [Function.update_of_ne, h.stored j hj]
      rw [hkey]
      exact fun heq => hji (h.distinct j i hj hi heq)
  found k hk := by
    by_cases hka : k = key a
    · exact ⟨i, by rwa [Function.update_self], by rw [Function.update_self, hka]⟩
    · rw [Function.update_of_ne hka] at hk
      obtain ⟨j, hj, heq⟩ := h.found k hk
      have hji : j ≠ i := by
        rintro rfl
        exact hka (heq.symm.trans hkey.symm)
      exact ⟨j, by rwa [Function.update_of_ne hji], by rwa [Function.update_of_ne hji]⟩

/-- A slot that is not in use takes a new key. -/
theorem fill (h : Represents live key val t A) (hi : ¬live (t i)) (ha : live a)
    (hnew : A (key a) = none) :
    Represents live key val (Function.update t i a) (Function.update A (key a) (some (val a))) where
  distinct j k hj hk heq := by
    have hother : ∀ l, live (t l) → key (t l) ≠ key a := h.eq_none_iff.mp hnew
    by_cases hji : j = i
    · by_cases hki : k = i
      · rw [hji, hki]
      · rw [hji, Function.update_self, Function.update_of_ne hki] at heq
        rw [Function.update_of_ne hki] at hk
        exact absurd heq.symm (hother k hk)
    · rw [Function.update_of_ne hji] at hj heq
      by_cases hki : k = i
      · rw [hki, Function.update_self] at heq
        exact absurd heq (hother j hj)
      · rw [Function.update_of_ne hki] at hk heq
        exact h.distinct j k hj hk heq
  stored j hj := by
    by_cases hji : j = i
    · rw [hji, Function.update_self, Function.update_self]
    · rw [Function.update_of_ne hji] at hj ⊢
      rw [Function.update_of_ne (h.eq_none_iff.mp hnew j hj), h.stored j hj]
  found k hk := by
    by_cases hka : k = key a
    · exact ⟨i, by rwa [Function.update_self], by rw [Function.update_self, hka]⟩
    · rw [Function.update_of_ne hka] at hk
      obtain ⟨j, hj, heq⟩ := h.found k hk
      have hji : j ≠ i := by
        rintro rfl
        exact hi hj
      exact ⟨j, by rwa [Function.update_of_ne hji], by rwa [Function.update_of_ne hji]⟩

/-- A slot goes out of use. -/
theorem drop (h : Represents live key val t A) (hi : live (t i)) (ha : ¬live a) :
    Represents live key val (Function.update t i a) (Function.update A (key (t i)) none) where
  distinct j k hj hk heq := by
    have hne : ∀ l, live (Function.update t i a l) → l ≠ i := by
      rintro l hl rfl
      rw [Function.update_self] at hl
      exact ha hl
    have hji := hne j hj
    have hki := hne k hk
    rw [Function.update_of_ne hji] at hj
    rw [Function.update_of_ne hki] at hk
    rw [Function.update_of_ne hji, Function.update_of_ne hki] at heq
    exact h.distinct j k hj hk heq
  stored j hj := by
    have hji : j ≠ i := by
      rintro rfl
      rw [Function.update_self] at hj
      exact ha hj
    rw [Function.update_of_ne hji] at hj ⊢
    rw [Function.update_of_ne, h.stored j hj]
    exact fun heq => hji (h.distinct j i hj hi heq)
  found k hk := by
    by_cases hki : k = key (t i)
    · rw [hki, Function.update_self] at hk
      exact absurd rfl hk
    · rw [Function.update_of_ne hki] at hk
      obtain ⟨j, hj, heq⟩ := h.found k hk
      have hji : j ≠ i := by
        rintro rfl
        exact hki heq.symm
      exact ⟨j, by rwa [Function.update_of_ne hji], by rwa [Function.update_of_ne hji]⟩

end Represents

end Represents

end PureOS.Foundation
