import Mathlib.Data.List.Perm.Basic
import Mathlib.Order.Lattice

set_option autoImplicit false

/-!
# Foundation: sorting by exchange

Every element is compared with all elements behind it, and exchanged with those whose key is
smaller.  One pass puts the smallest key in front; the passes together sort the list.
-/

namespace PureOS.Foundation

universe u v

variable {α : Type u} {κ : Type v} [LinearOrder κ] (key : α → κ)

/-- Two elements that are in the wrong order are exchanged. -/
def compareExchange (i : Nat) (xs : List α) (j : Nat) : List α :=
  match xs[i]?, xs[j]? with
  | some a, some b => if key b < key a then (xs.set i b).set j a else xs
  | _, _ => xs

/-- The pass for the place `i`: `for j in i+1..count`. -/
def exchangePass (xs : List α) (i : Nat) : List α :=
  (List.range' (i + 1) (xs.length - (i + 1))).foldl (compareExchange key i) xs

/-- The passes: `for i in 0..count`. -/
def exchangeSort (xs : List α) : List α := (List.range xs.length).foldl (exchangePass key) xs

/-- What a pass puts in front, and what it leaves behind. -/
def pull : α → List α → α × List α
  | x, [] => (x, [])
  | x, y :: ys =>
      if key y < key x then ((pull y ys).1, x :: (pull y ys).2)
      else ((pull x ys).1, y :: (pull x ys).2)

variable {key} {x y : α} {xs ys front mid : List α}

variable (key) in
theorem pull_perm (x : α) (ys : List α) :
    ((pull key x ys).1 :: (pull key x ys).2).Perm (x :: ys) := by
  induction ys generalizing x with
  | nil => exact List.Perm.refl _
  | cons y ys ih =>
      rw [pull]
      split
      · exact (List.Perm.swap x _ _).trans ((ih y).cons x)
      · exact (List.Perm.swap y _ _).trans (((ih x).cons y).trans (List.Perm.swap x y ys))

variable (key) in
theorem pull_le (x : α) (ys : List α) :
    key (pull key x ys).1 ≤ key x ∧ ∀ y ∈ ys, key (pull key x ys).1 ≤ key y := by
  induction ys generalizing x with
  | nil => exact ⟨le_refl _, fun y hy => by cases hy⟩
  | cons y ys ih =>
      rw [pull]
      split
      · rename_i hlt
        obtain ⟨hle, hall⟩ := ih y
        refine ⟨hle.trans hlt.le, fun y' hy' => ?_⟩
        rcases List.mem_cons.mp hy' with rfl | hy'
        · exact hle
        · exact hall y' hy'
      · rename_i hnot
        obtain ⟨hle, hall⟩ := ih x
        refine ⟨hle, fun y' hy' => ?_⟩
        rcases List.mem_cons.mp hy' with rfl | hy'
        · exact hle.trans (not_lt.mp hnot)
        · exact hall y' hy'

theorem compareExchange_eq : compareExchange key front.length (front ++ x :: (mid ++ y :: ys))
      (front.length + 1 + mid.length) =
    if key y < key x then front ++ y :: (mid ++ x :: ys) else front ++ x :: (mid ++ y :: ys) := by
  have hfirst : (front ++ x :: (mid ++ y :: ys))[front.length]? = some x := by simp
  have hsecond : (front ++ x :: (mid ++ y :: ys))[front.length + 1 + mid.length]? = some y := by
    rw [List.getElem?_append_right (by omega), Nat.add_assoc, Nat.add_sub_cancel_left, Nat.add_comm,
      List.getElem?_cons_succ, List.getElem?_append_right (Nat.le_refl _), Nat.sub_self,
      List.getElem?_cons_zero]
  rw [compareExchange, hfirst, hsecond]
  dsimp only
  split
  · rw [List.set_append_right _ _ (Nat.le_refl _), Nat.sub_self, List.set_cons_zero,
      List.set_append_right _ _ (by omega), Nat.add_assoc, Nat.add_sub_cancel_left, Nat.add_comm,
      List.set_cons_succ, List.set_append_right _ _ (Nat.le_refl _), Nat.sub_self,
      List.set_cons_zero]
  · rfl

/-- The comparisons with the elements behind do what `pull` does. -/
theorem foldl_compareExchange (x : α) (mid ys : List α) :
    (List.range' (front.length + 1 + mid.length) ys.length).foldl
        (compareExchange key front.length) (front ++ x :: (mid ++ ys)) =
      front ++ (pull key x ys).1 :: (mid ++ (pull key x ys).2) := by
  induction ys generalizing x mid with
  | nil => rfl
  | cons y ys ih =>
      have hlen : ∀ z, front.length + 1 + (mid ++ [z]).length = front.length + 1 + mid.length + 1 :=
        fun z => by rw [List.length_append, List.length_singleton, Nat.add_assoc _ _ 1]
      rw [List.length_cons, List.range'_succ, List.foldl_cons, compareExchange_eq, pull]
      split
      · have hrest := ih y (mid ++ [x])
        rw [hlen, List.append_assoc, List.append_assoc] at hrest
        exact hrest
      · have hrest := ih x (mid ++ [y])
        rw [hlen, List.append_assoc, List.append_assoc] at hrest
        exact hrest

theorem exchangePass_eq (x : α) (ys : List α) :
    exchangePass key (front ++ x :: ys) front.length =
      front ++ (pull key x ys).1 :: (pull key x ys).2 := by
  have hlen : (front ++ x :: ys).length - (front.length + 1) = ys.length := by
    rw [List.length_append, List.length_cons]
    omega
  have hfold := @foldl_compareExchange α κ _ key front x [] ys
  rw [exchangePass, hlen]
  exact hfold

/-- The passes from a place on sort what stands there. -/
theorem foldl_exchangePass (front rest : List α) :
    ∃ sorted, (List.range' front.length rest.length).foldl (exchangePass key) (front ++ rest) =
        front ++ sorted ∧
      sorted.Perm rest ∧ sorted.Pairwise fun a b => key a ≤ key b := by
  induction hn : rest.length generalizing front rest with
  | zero =>
      rw [List.length_eq_zero_iff] at hn
      subst hn
      exact ⟨[], rfl, List.Perm.refl _, List.Pairwise.nil⟩
  | succ n ih =>
      obtain ⟨x, ys, rfl⟩ := List.exists_cons_of_length_eq_add_one hn
      have hperm := pull_perm key x ys
      have hlen : (pull key x ys).2.length = n := by
        have hsame := hperm.length_eq
        rw [List.length_cons] at hsame
        rw [hn] at hsame
        omega
      obtain ⟨sorted, hsorted, hrest, hpairwise⟩ :=
        ih (front ++ [(pull key x ys).1]) (pull key x ys).2 hlen
      refine ⟨(pull key x ys).1 :: sorted, ?_, (hrest.cons _).trans hperm, ?_⟩
      · rw [List.range'_succ, List.foldl_cons, exchangePass_eq]
        rw [List.length_append, List.length_singleton, List.append_assoc, List.append_assoc] at hsorted
        exact hsorted
      · refine List.pairwise_cons.mpr ⟨fun b hb => ?_, hpairwise⟩
        obtain ⟨hle, hall⟩ := pull_le key x ys
        have hmem := hperm.mem_iff.mp (List.mem_cons_of_mem _ (hrest.mem_iff.mp hb))
        rcases List.mem_cons.mp hmem with rfl | hmem
        · exact hle
        · exact hall b hmem

variable (key) in
theorem exchangeSort_perm (xs : List α) : (exchangeSort key xs).Perm xs := by
  obtain ⟨sorted, hsorted, hperm, -⟩ := @foldl_exchangePass α κ _ key [] xs
  rw [exchangeSort, List.range_eq_range']
  rw [List.length_nil, List.nil_append, List.nil_append] at hsorted
  rw [hsorted]
  exact hperm

variable (key) in
theorem exchangeSort_sorted (xs : List α) :
    (exchangeSort key xs).Pairwise fun a b => key a ≤ key b := by
  obtain ⟨sorted, hsorted, -, hpairwise⟩ := @foldl_exchangePass α κ _ key [] xs
  rw [exchangeSort, List.range_eq_range']
  rw [List.length_nil, List.nil_append, List.nil_append] at hsorted
  rw [hsorted]
  exact hpairwise

/-- With keys of their own the elements are in strictly increasing order. -/
theorem exchangeSort_strict (hnodup : xs.Nodup)
    (hdistinct : ∀ a ∈ xs, ∀ b ∈ xs, key a = key b → a = b) :
    (exchangeSort key xs).Pairwise fun a b => key a < key b := by
  have hperm := exchangeSort_perm key xs
  have hboth := (exchangeSort_sorted key xs).and (hperm.nodup_iff.mpr hnodup)
  refine hboth.imp_of_mem fun ha hb hab => lt_of_le_of_ne hab.1 fun heq => hab.2 ?_
  exact hdistinct _ (hperm.mem_iff.mp ha) _ (hperm.mem_iff.mp hb) heq

/-- In a list that is sorted, the last element with a property is the one with the largest key. -/
theorem find?_reverse_of_sorted {p : α → Bool} (hsorted : xs.Pairwise fun a b => key a < key b)
    (hmem : x ∈ xs) (hp : p x = true) (hlargest : ∀ y ∈ xs, p y = true → key y ≤ key x) :
    xs.reverse.find? p = some x := by
  rw [← List.pairwise_reverse] at hsorted
  rw [← List.mem_reverse] at hmem
  have hlargest : ∀ y ∈ xs.reverse, p y = true → key y ≤ key x :=
    fun y hy => hlargest y (List.mem_reverse.mp hy)
  generalize xs.reverse = ys at *
  induction ys with
  | nil => cases hmem
  | cons y ys ih =>
      obtain ⟨hbelow, hsorted⟩ := List.pairwise_cons.mp hsorted
      rw [List.find?_cons]
      cases hy : p y with
      | true =>
          rcases List.mem_cons.mp hmem with rfl | hmem
          · rfl
          · exact absurd (hbelow x hmem) (not_lt.mpr (hlargest y List.mem_cons_self hy))
      | false =>
          rcases List.mem_cons.mp hmem with rfl | hmem
          · rw [hp] at hy
            cases hy
          · exact ih hsorted hmem fun z hz => hlargest z (List.mem_cons_of_mem y hz)

end PureOS.Foundation
