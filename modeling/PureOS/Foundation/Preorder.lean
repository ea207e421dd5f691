import Mathlib.Data.List.Nodup
import Mathlib.Logic.Relation

set_option autoImplicit false

/-!
# Foundation: walking a forest

A relation leads from parents to children; nothing has two parents or is below itself.  The walk
that goes into each child before the next one meets what is below its start down to a given
level, each thing once, and what is below a thing right behind it.
-/

namespace PureOS.Foundation

open Relation

universe u v

variable {α : Type u} {β : Type v} {r : α → α → Prop} {a b c x : α} {k n d e : Nat}

/-! ## Levels -/

/-- `b` is `k` steps below `a`. -/
inductive Level (r : α → α → Prop) : Nat → α → α → Prop
  /-- A child is one step below. -/
  | child {a b : α} (step : r a b) : Level r 1 a b
  /-- What is below a child is one step further down. -/
  | down {k : Nat} {a c b : α} (step : r a c) (rest : Level r k c b) : Level r (k + 1) a b

namespace Level

theorem pos (h : Level r k a b) : 0 < k := by
  cases h with
  | child _ => exact Nat.zero_lt_one
  | down _ _ => exact Nat.succ_pos _

theorem transGen (h : Level r k a b) : TransGen r a b := by
  induction h with
  | child step => exact .single step
  | down step _ ih => exact .head step ih

theorem of_transGen (h : TransGen r a b) : ∃ k, Level r k a b := by
  induction h using TransGen.head_induction_on with
  | single step => exact ⟨1, .child step⟩
  | head step _ ih =>
      obtain ⟨k, hk⟩ := ih
      exact ⟨k + 1, .down step hk⟩

end Level

/-! ## Forests -/

/-- Nothing has two parents, and nothing is below itself. -/
structure IsForest (r : α → α → Prop) : Prop where
  parent_unique : ∀ a b c, r a c → r b c → a = b
  acyclic : ∀ a, ¬TransGen r a a

namespace IsForest

/-- Of two things above a third one is above the other. -/
theorem total (h : IsForest r) (ha : ReflTransGen r a x) (hb : ReflTransGen r b x) :
    ReflTransGen r a b ∨ ReflTransGen r b a := by
  have hunique : Relator.RightUnique (Function.swap r) :=
    fun x y z hy hz => h.parent_unique y z x hy hz
  rcases ReflTransGen.total_of_right_unique hunique (reflTransGen_swap.mpr ha)
    (reflTransGen_swap.mpr hb) with hab | hba
  · exact Or.inr (reflTransGen_swap.mp hab)
  · exact Or.inl (reflTransGen_swap.mp hba)

/-- No child is below another child of the same parent. -/
theorem eq_of_sibling_above (h : IsForest r) (hb : r a b) (hc : r a c)
    (habove : ReflTransGen r b c) : b = c := by
  rcases ReflTransGen.cases_tail habove with heq | ⟨y, hy, hlast⟩
  · exact heq.symm
  · obtain rfl : y = a := h.parent_unique _ _ _ hlast hc
    exact absurd (TransGen.head' hb hy) (h.acyclic y)

/-- What is below two children of one parent is not different things. -/
theorem eq_of_siblings (h : IsForest r) (hb : r a b) (hc : r a c) (hbx : ReflTransGen r b x)
    (hcx : ReflTransGen r c x) : b = c := by
  rcases h.total hbx hcx with hbc | hcb
  · exact h.eq_of_sibling_above hb hc hbc
  · exact (h.eq_of_sibling_above hc hb hcb).symm

end IsForest

/-! ## The walk -/

/-- What is at most `n` levels below `a`, with the levels counted from `d` on. -/
def preorder (children : α → List α) : Nat → Nat → α → List (Nat × α)
  | 0, _, _ => []
  | n + 1, d, a => (children a).flatMap fun b => (d, b) :: preorder children n (d + 1) b

/-- A member of joined lists is a member of one of them. -/
theorem flatMap_split {f : α → List β} {l : List α} {xs ys : List β} {y : β}
    (h : l.flatMap f = xs ++ y :: ys) :
    ∃ l₁ c l₂ us vs, l = l₁ ++ c :: l₂ ∧ f c = us ++ y :: vs ∧
      xs = l₁.flatMap f ++ us ∧ ys = vs ++ l₂.flatMap f := by
  induction l generalizing xs with
  | nil => simp at h
  | cons b l ih =>
      rw [List.flatMap_cons, List.append_eq_append_iff] at h
      rcases h with ⟨us, rfl, hrest⟩ | ⟨us, hfirst, hrest⟩
      · obtain ⟨l₁, c, l₂, us', vs, rfl, hc, rfl, rfl⟩ := ih hrest
        exact ⟨b :: l₁, c, l₂, us', vs, rfl, hc, by simp, rfl⟩
      · cases us with
        | nil =>
            -- The first list ends right before the member.
            have hbehind : l.flatMap f = [] ++ y :: ys := hrest.symm
            obtain ⟨l₁, c, l₂, us', vs, rfl, hc, hnil, rfl⟩ := ih hbehind
            refine ⟨b :: l₁, c, l₂, us', vs, rfl, hc, ?_, rfl⟩
            rw [List.flatMap_cons, List.append_assoc, ← hnil, hfirst, List.append_nil,
              List.append_nil]
        | cons y' us =>
            obtain ⟨rfl, rfl⟩ := List.cons.inj hrest
            exact ⟨[], b, l, xs, us, rfl, hfirst, rfl, rfl⟩

section Walk

variable {children : α → List α}

/-- The walk meets what is below its start down to the last level, and nothing else. -/
theorem mem_preorder (hr : ∀ a b, b ∈ children a ↔ r a b) :
    (e, b) ∈ preorder children n d a ↔ ∃ k ≤ n, e + 1 = d + k ∧ Level r k a b := by
  induction n generalizing d a with
  | zero =>
      constructor
      · intro h
        exact absurd h List.not_mem_nil
      · rintro ⟨k, hk, -, hlevel⟩
        exact absurd hlevel.pos (Nat.not_lt.mpr hk)
  | succ n ih =>
      rw [preorder, List.mem_flatMap]
      constructor
      · rintro ⟨c, hc, hmem⟩
        rcases List.mem_cons.mp hmem with heq | hmem
        · obtain ⟨rfl, rfl⟩ := Prod.mk.inj heq
          exact ⟨1, Nat.succ_pos n, rfl, .child ((hr _ _).mp hc)⟩
        · obtain ⟨k, hk, he, hlevel⟩ := ih.mp hmem
          exact ⟨k + 1, Nat.succ_le_succ hk, by omega, .down ((hr _ _).mp hc) hlevel⟩
      · rintro ⟨k, hk, he, hlevel⟩
        cases hlevel with
        | child step =>
            obtain rfl : e = d := by omega
            exact ⟨b, (hr _ _).mpr step, List.mem_cons_self⟩
        | @down k _ c _ step rest =>
            refine ⟨c, (hr _ _).mpr step, List.mem_cons_of_mem _ (ih.mpr ⟨k, ?_, ?_, rest⟩)⟩
            · exact Nat.le_of_succ_le_succ hk
            · omega

/-- What the walk meets is below its start. -/
theorem below_of_mem_preorder (hr : ∀ a b, b ∈ children a ↔ r a b) {p : Nat × α}
    (h : p ∈ preorder children n d a) : TransGen r a p.2 := by
  obtain ⟨k, -, -, hlevel⟩ := (mem_preorder hr).mp h
  exact hlevel.transGen

/-- What the walk meets in the part for a child is that child or below it. -/
theorem reach_of_mem_part (hr : ∀ a b, b ∈ children a ↔ r a b) {p : Nat × α}
    (h : p ∈ (d, c) :: preorder children n e c) : ReflTransGen r c p.2 := by
  rcases List.mem_cons.mp h with rfl | h
  · exact .refl
  · exact (below_of_mem_preorder hr h).to_reflTransGen

/-- The walk meets nothing twice. -/
theorem preorder_nodup (hr : ∀ a b, b ∈ children a ↔ r a b) (hforest : IsForest r)
    (hnodup : ∀ a, (children a).Nodup) :
    ((preorder children n d a).map Prod.snd).Nodup := by
  induction n generalizing d a with
  | zero => exact List.nodup_nil
  | succ n ih =>
      rw [preorder, List.map_flatMap, List.nodup_flatMap]
      constructor
      · intro c hc
        rw [List.map_cons, List.nodup_cons]
        refine ⟨fun hmem => ?_, ih⟩
        obtain ⟨p, hp, heq⟩ := List.mem_map.mp hmem
        have hbelow := below_of_mem_preorder hr hp
        rw [heq] at hbelow
        exact hforest.acyclic c hbelow
      · refine (hnodup a).imp_of_mem ?_
        intro b c hb hc hne
        change List.Disjoint _ _
        rw [List.disjoint_left]
        intro x hx hx'
        obtain ⟨p, hp, rfl⟩ := List.mem_map.mp hx
        obtain ⟨q, hq, heq⟩ := List.mem_map.mp hx'
        have hreach := reach_of_mem_part hr hq
        rw [heq] at hreach
        exact hne (hforest.eq_of_siblings ((hr _ _).mp hb) ((hr _ _).mp hc)
          (reach_of_mem_part hr hp) hreach)

/-- Right behind a thing the walk meets what is below it, and elsewhere nothing of it. -/
theorem preorder_split (hr : ∀ a b, b ∈ children a ↔ r a b) (hforest : IsForest r)
    (hnodup : ∀ a, (children a).Nodup) {xs ys : List (Nat × α)}
    (h : preorder children n d a = xs ++ (e, b) :: ys) :
    ∃ ys₁ ys₂, ys = ys₁ ++ ys₂ ∧ (∀ p ∈ ys₁, TransGen r b p.2) ∧
      ∀ p ∈ xs ++ ys₂, ¬TransGen r b p.2 := by
  induction n generalizing d a xs ys with
  | zero => simp [preorder] at h
  | succ n ih =>
      rw [preorder] at h
      obtain ⟨l₁, c, l₂, us, vs, hl, hpart, rfl, rfl⟩ := flatMap_split h
      have hc : r a c := (hr _ _).mp (by rw [hl]; simp)
      have hb : ReflTransGen r c b := by
        have hmem : (e, b) ∈ (d, c) :: preorder children n (d + 1) c := by rw [hpart]; simp
        exact reach_of_mem_part hr hmem
      -- The parts for the other children hold nothing that is below the thing.
      have hother : ∀ l : List α, (∀ x ∈ l, x ∈ children a ∧ x ≠ c) →
          ∀ p ∈ l.flatMap fun b => (d, b) :: preorder children n (d + 1) b,
            ¬TransGen r b p.2 := by
        intro l hl p hp hbelow
        obtain ⟨x, hx, hmem⟩ := List.mem_flatMap.mp hp
        obtain ⟨hchild, hne⟩ := hl x hx
        exact hne (hforest.eq_of_siblings ((hr _ _).mp hchild) hc (reach_of_mem_part hr hmem)
          (hb.trans hbelow.to_reflTransGen))
      have hall := hnodup a
      rw [hl, List.nodup_middle, List.nodup_cons, List.mem_append, not_or] at hall
      have hbefore := hother l₁ fun x hx =>
        ⟨by rw [hl]; simp [hx], fun heq => hall.1.1 (heq ▸ hx)⟩
      have hafter := hother l₂ fun x hx =>
        ⟨by rw [hl]; simp [hx], fun heq => hall.1.2 (heq ▸ hx)⟩
      cases us with
      | nil =>
          obtain ⟨heq, rfl⟩ := List.cons.inj hpart
          obtain ⟨rfl, rfl⟩ := Prod.mk.inj heq
          refine ⟨_, _, rfl, fun p hp => below_of_mem_preorder hr hp, fun p hp => ?_⟩
          rw [List.append_nil] at hp
          rcases List.mem_append.mp hp with hp | hp
          · exact hbefore p hp
          · exact hafter p hp
      | cons u us =>
          obtain ⟨rfl, hrest⟩ := List.cons.inj hpart
          obtain ⟨ys₁, ys₂, rfl, hbelow, hnot⟩ := ih hrest
          have hcb : TransGen r c b :=
            below_of_mem_preorder hr (p := (e, b)) (by rw [hrest]; simp)
          refine ⟨ys₁, ys₂ ++ _, List.append_assoc _ _ _, hbelow, fun p hp => ?_⟩
          simp only [List.mem_append, List.mem_cons] at hp hnot
          rcases hp with (hp | rfl | hp) | hp | hp
          · exact hbefore p hp
          · exact fun hback => hforest.acyclic c (hcb.trans hback)
          · exact hnot p (Or.inl hp)
          · exact hnot p (Or.inr hp)
          · exact hafter p hp

end Walk

end PureOS.Foundation
