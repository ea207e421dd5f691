import Mathlib.Data.List.Basic
import Mathlib.Data.List.TakeWhile

set_option autoImplicit false

/-!
# Foundation: the pieces of a list between separators

The non-empty pieces that a list falls into at a separator, and the scan that finds them one by
one: skip separators, take what comes before the next one.
-/

namespace PureOS.Foundation

universe u

variable {α : Type u} [DecidableEq α] {sep : α}

/-- The non-empty pieces between the separators. -/
def pieces (sep : α) (l : List α) : List (List α) := (l.splitOn sep).filter (· ≠ [])

@[simp] theorem pieces_nil (sep : α) : pieces sep [] = [] := rfl

/-- A separator cuts the pieces in two. -/
theorem pieces_append (a b : List α) : pieces sep (a ++ sep :: b) = pieces sep a ++ pieces sep b := by
  rw [pieces, List.splitOn_append_cons_self, List.filter_append]
  rfl

/-- A separator in front does not count. -/
theorem pieces_cons (b : List α) : pieces sep (sep :: b) = pieces sep b :=
  pieces_append [] b

/-- A separator at the end does not count. -/
theorem pieces_concat (a : List α) : pieces sep (a ++ [sep]) = pieces sep a := by
  rw [pieces_append, pieces_nil, List.append_nil]

/-- A list without a separator is one piece. -/
theorem pieces_of_notMem {a : List α} (h : sep ∉ a) (hne : a ≠ []) : pieces sep a = [a] := by
  rw [pieces, List.splitOn_eq_singleton h, List.filter_cons_of_pos (by simpa using hne),
    List.filter_nil]

/-- Separators in front do not count. -/
theorem pieces_dropWhile (l : List α) : pieces sep (l.dropWhile (· = sep)) = pieces sep l := by
  induction l with
  | nil => rfl
  | cons x l ih =>
      by_cases hx : x = sep
      · subst hx
        rw [List.dropWhile_cons_of_pos (by simp), ih, pieces_cons]
      · rw [List.dropWhile_cons_of_neg (by simpa using hx)]

/-- What the scan leaves behind a piece is empty or begins with a separator. -/
theorem dropWhile_ne_cases (l : List α) :
    l.dropWhile (· ≠ sep) = [] ∨ ∃ rest, l.dropWhile (· ≠ sep) = sep :: rest := by
  cases hrest : l.dropWhile (· ≠ sep) with
  | nil => exact Or.inl rfl
  | cons x rest =>
      have hne : l.dropWhile (· ≠ sep) ≠ [] := by
        rw [hrest]
        exact List.cons_ne_nil _ _
      have hx : x = sep := by
        have hhead := List.head_dropWhile_not (· ≠ sep) hne
        have hat : (l.dropWhile (· ≠ sep)).head hne = x := by simp only [hrest, List.head_cons]
        rw [hat] at hhead
        simpa using hhead
      exact Or.inr ⟨rest, by rw [hx]⟩

/-- The scan has found everything when it finds an empty piece. -/
theorem pieces_of_takeWhile_nil {l : List α}
    (h : (l.dropWhile (· = sep)).takeWhile (· ≠ sep) = []) : pieces sep l = [] := by
  rw [← pieces_dropWhile]
  cases hrest : l.dropWhile (· = sep) with
  | nil => rfl
  | cons x rest =>
      have hne : l.dropWhile (· = sep) ≠ [] := by
        rw [hrest]
        exact List.cons_ne_nil _ _
      have hx : x ≠ sep := by
        have hhead := List.head_dropWhile_not (· = sep) hne
        have hat : (l.dropWhile (· = sep)).head hne = x := by simp only [hrest, List.head_cons]
        rw [hat] at hhead
        simpa using hhead
      rw [hrest, List.takeWhile_cons_of_pos (by simpa using hx)] at h
      exact absurd h (List.cons_ne_nil _ _)

/-- A turn of the scan that finds a piece leaves less behind. -/
theorem length_dropWhile_lt {l : List α}
    (h : (l.dropWhile (· = sep)).takeWhile (· ≠ sep) ≠ []) :
    ((l.dropWhile (· = sep)).dropWhile (· ≠ sep)).length < l.length := by
  have hsplit := congrArg List.length
    (List.takeWhile_append_dropWhile (p := (· ≠ sep)) (l := l.dropWhile (· = sep)))
  rw [List.length_append] at hsplit
  have hpos := List.length_pos_iff.mpr h
  have hle := (List.dropWhile_suffix (· = sep) (l := l)).length_le
  omega

/-- Otherwise it has found the first piece. -/
theorem pieces_of_takeWhile {l : List α}
    (h : (l.dropWhile (· = sep)).takeWhile (· ≠ sep) ≠ []) :
    pieces sep l = (l.dropWhile (· = sep)).takeWhile (· ≠ sep) ::
      pieces sep ((l.dropWhile (· = sep)).dropWhile (· ≠ sep)) := by
  rw [← pieces_dropWhile]
  generalize l.dropWhile (· = sep) = r at h ⊢
  have hnot : sep ∉ r.takeWhile (· ≠ sep) := by
    intro hmem
    simpa using List.mem_takeWhile_imp hmem
  have hsplit := List.takeWhile_append_dropWhile (p := (· ≠ sep)) (l := r)
  rcases @dropWhile_ne_cases _ _ sep r with hrest | ⟨rest, hrest⟩
  · rw [hrest, List.append_nil] at hsplit
    rw [hrest, pieces_nil, hsplit]
    rw [hsplit] at hnot h
    exact pieces_of_notMem hnot h
  · rw [hrest] at hsplit ⊢
    conv_lhs => rw [← hsplit]
    rw [pieces_append, pieces_of_notMem hnot h, pieces_cons]
    rfl

end PureOS.Foundation
