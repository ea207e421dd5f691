import Mathlib.Algebra.Group.Nat.Defs
import Mathlib.Logic.Function.Basic

set_option autoImplicit false

/-!
# Foundation: a grid of text

A grid of cells with a cursor, as a terminal keeps it.  A row that is full is left only when one
more cell is typed, so the cursor may stand right behind the last column.

The grid is a window on a strip of paper: the rows that were ever written, one behind the other,
of which the grid shows the last ones.  What is written goes on behind what is there.
-/

namespace PureOS.Foundation

/-- The cells of a grid by row and column, and the cursor. -/
structure TextGrid (α : Type) where
  cell : Nat → Nat → α
  row : Nat
  col : Nat

namespace TextGrid

variable {α : Type}

/-- A cell is put where the cursor is. -/
def put (a : α) (t : TextGrid α) : TextGrid α :=
  { t with cell := fun r c => if r = t.row ∧ c = t.col then a else t.cell r c }

/-- So many cells are put, one after the other, in one row. -/
def fill (a : α) : Nat → TextGrid α → TextGrid α
  | 0, t => t
  | n + 1, t => fill a n { put a t with col := t.col + 1 }

section

variable (rows cols : Nat) (blank : α)

/-- The rows go up by one, and the last one is blank. -/
def scroll (t : TextGrid α) : TextGrid α :=
  { t with cell := fun r c => if r + 1 < rows then t.cell (r + 1) c else blank }

/-- The cursor goes to the next row, and the grid scrolls at its end. -/
def newline (t : TextGrid α) : TextGrid α :=
  if t.row + 1 < rows then { t with row := t.row + 1, col := 0 }
  else { scroll rows blank t with row := rows - 1, col := 0 }

/-- A row that is full is left. -/
def wrap (t : TextGrid α) : TextGrid α := if cols ≤ t.col then newline rows blank t else t

/-- A cell is put, and the cursor goes on. -/
def type (a : α) (t : TextGrid α) : TextGrid α :=
  { put a (wrap rows cols blank t) with col := (wrap rows cols blank t).col + 1 }

/-- The cursor goes back by one cell. -/
def back (t : TextGrid α) : TextGrid α :=
  if 0 < t.col then { t with col := t.col - 1 }
  else if 0 < t.row then { t with row := t.row - 1, col := cols - 1 }
  else t

/-- The cell before the cursor is made blank. -/
def erase (t : TextGrid α) : TextGrid α := put blank (back cols t)

end

/-- The grid shows the paper from the row `k` on, with the cursor at the place `pos`. -/
structure Window (rows cols : Nat) (paper : Nat → α) (pos k : Nat) (t : TextGrid α) : Prop where
  row_lt : t.row < rows
  col_le : t.col ≤ cols
  cursor : (k + t.row) * cols + t.col = pos
  shows : ∀ r < rows, ∀ c < cols, t.cell r c = paper ((k + r) * cols + c)

variable {rows cols : Nat} {paper : Nat → α} {pos k : Nat} {t : TextGrid α}

/-- Two places in rows of their own, or in one row. -/
theorem place_inj {a b c d : Nat} (hb : b < cols) (hd : d < cols)
    (h : a * cols + b = c * cols + d) : a = c ∧ b = d := by
  have hpos : 0 < cols := Nat.zero_lt_of_lt hb
  have hdiv : ∀ n j : Nat, j < cols → (n * cols + j) / cols = n := fun n j hj => by
    rw [Nat.mul_comm, Nat.mul_add_div hpos, Nat.div_eq_of_lt hj, Nat.add_zero]
  have hrow : a = c := by rw [← hdiv a b hb, h, hdiv c d hd]
  subst hrow
  exact ⟨rfl, Nat.add_left_cancel h⟩

/-- A grid is a window on a paper of its own. -/
theorem exists_window (hrow : t.row < rows) (hcol : t.col ≤ cols) :
    ∃ paper, Window rows cols paper (t.row * cols + t.col) 0 t := by
  refine ⟨fun p => t.cell (p / cols) (p % cols), hrow, hcol, by rw [Nat.zero_add], ?_⟩
  intro r _ c hc
  have hpos : 0 < cols := Nat.zero_lt_of_lt hc
  have hdiv : (r * cols + c) / cols = r := by
    rw [Nat.mul_comm, Nat.mul_add_div hpos, Nat.div_eq_of_lt hc, Nat.add_zero]
  have hmod : (r * cols + c) % cols = c := by
    rw [Nat.mul_comm, Nat.mul_add_mod, Nat.mod_eq_of_lt hc]
  rw [Nat.zero_add, hdiv, hmod]

/-! ## The operations on the paper -/

namespace Window

variable (blank a : α)

theorem pos_le (h : Window rows cols paper pos k t) : pos ≤ (k + rows) * cols := by
  have hrow : (k + t.row + 1) * cols ≤ (k + rows) * cols :=
    Nat.mul_le_mul_right _ (by have := h.row_lt; omega)
  have hcol := h.col_le
  rw [Nat.succ_mul] at hrow
  rw [← h.cursor]
  omega

/-- A row that is full is left: the place stays the same, and so does what is before it. -/
theorem wrap (h : Window rows cols paper pos k t) (hcols : 0 < cols) :
    ∃ paper' k', Window rows cols paper' pos k' (wrap rows cols blank t) ∧
      (TextGrid.wrap rows cols blank t).col < cols ∧ (∀ p < pos, paper' p = paper p) ∧
      (k' = k ∨ k' = k + 1 ∧ (k + rows) * cols = pos) := by
  have hrow := h.row_lt
  unfold TextGrid.wrap newline
  by_cases hfull : cols ≤ t.col
  · rw [if_pos hfull]
    have hcol : t.col = cols := Nat.le_antisymm h.col_le hfull
    have hpos : (k + t.row + 1) * cols = pos := by
      rw [← h.cursor, hcol, Nat.succ_mul]
    by_cases hnext : t.row + 1 < rows
    · rw [if_pos hnext]
      have hplace : (k + (t.row + 1)) * cols + 0 = pos := by
        rw [Nat.add_zero, ← Nat.add_assoc, hpos]
      exact ⟨paper, k, ⟨hnext, Nat.zero_le _, hplace, h.shows⟩, hcols, fun _ _ => rfl, Or.inl rfl⟩
    · rw [if_neg hnext]
      have hlast : t.row + 1 = rows := by omega
      have hend : (k + rows) * cols = pos := by rw [← hlast, ← Nat.add_assoc, hpos]
      have hplace : (k + 1 + (rows - 1)) * cols + 0 = pos := by
        rw [Nat.add_zero, ← hend]
        congr 1
        omega
      -- The row that comes up from below is blank.
      refine ⟨fun p => if p < pos then paper p else blank, k + 1,
        ⟨by dsimp only; omega, Nat.zero_le _, hplace, ?_⟩, hcols, fun p hp => if_pos hp,
        Or.inr ⟨rfl, hend⟩⟩
      intro r hr c hc
      dsimp only [scroll]
      by_cases hin : r + 1 < rows
      · have hsame : k + 1 + r = k + (r + 1) := by omega
        have hbefore : (k + (r + 1)) * cols + cols ≤ pos := by
          rw [← hend, ← Nat.succ_mul]
          exact Nat.mul_le_mul_right _ (by omega)
        rw [if_pos hin, h.shows (r + 1) hin c hc, hsame, if_pos (by omega)]
      · have hrows : k + 1 + r = k + rows := by omega
        rw [if_neg hin, hrows, hend, if_neg (by omega)]
  · rw [if_neg hfull]
    exact ⟨paper, k, h, Nat.lt_of_not_le hfull, fun _ _ => rfl, Or.inl rfl⟩

/-- A cell is put at the cursor. -/
theorem put (h : Window rows cols paper pos k t) (hcol : t.col < cols) :
    Window rows cols (Function.update paper pos a) pos k (put a t) := by
  refine ⟨h.row_lt, h.col_le, h.cursor, ?_⟩
  intro r hr c hc
  dsimp only [TextGrid.put]
  by_cases hat : r = t.row ∧ c = t.col
  · obtain ⟨rfl, rfl⟩ := hat
    rw [if_pos ⟨rfl, rfl⟩, h.cursor, Function.update_self]
  · rw [if_neg hat, Function.update_of_ne, h.shows r hr c hc]
    rw [← h.cursor]
    intro heq
    obtain ⟨hrow, hcol'⟩ := place_inj hc hcol heq
    exact hat ⟨Nat.add_left_cancel hrow, hcol'⟩

/-- A cell is typed behind what is there. -/
theorem type (h : Window rows cols paper pos k t) (hcols : 0 < cols) :
    ∃ paper' k', Window rows cols paper' (pos + 1) k' (type rows cols blank a t) ∧
      paper' pos = a ∧ (∀ p < pos, paper' p = paper p) ∧
      (k' = k ∨ k' = k + 1 ∧ (k + rows) * cols = pos) := by
  obtain ⟨paper', k', hwindow, hcol, hsame, hk⟩ := h.wrap blank hcols
  have hput := hwindow.put a hcol
  have hplace := congrArg Nat.succ hwindow.cursor
  refine ⟨_, k', ⟨hput.row_lt, hcol, hplace, hput.shows⟩, Function.update_self .., ?_, hk⟩
  intro p hp
  rw [Function.update_of_ne (Nat.ne_of_lt hp), hsame p hp]

/-- The last cell is taken back, if it is still to be seen. -/
theorem erase (h : Window rows cols paper pos k t) (hcols : 0 < cols) (hpos : k * cols < pos) :
    Window rows cols (Function.update paper (pos - 1) blank) (pos - 1) k (erase cols blank t) := by
  have hcursor := h.cursor
  have hrow := h.row_lt
  have hcol := h.col_le
  have hback : (back cols t).row < rows ∧ (back cols t).col < cols ∧
      (k + (back cols t).row) * cols + (back cols t).col = pos - 1 := by
    unfold back
    by_cases hleft : 0 < t.col
    · rw [if_pos hleft]
      refine ⟨hrow, by dsimp only; omega, ?_⟩
      dsimp only
      omega
    · rw [if_neg hleft]
      by_cases habove : 0 < t.row
      · rw [if_pos habove]
        refine ⟨by dsimp only; omega, by dsimp only; omega, ?_⟩
        have hrows : k + t.row = k + (t.row - 1) + 1 := by omega
        dsimp only
        rw [hrows, Nat.succ_mul] at hcursor
        omega
      · have hcorner : t.row = 0 ∧ t.col = 0 := by omega
        rw [hcorner.1, hcorner.2, Nat.add_zero, Nat.add_zero] at hcursor
        omega
  have hcell : (back cols t).cell = t.cell := by
    unfold back
    split
    · rfl
    · split <;> rfl
  obtain ⟨hrow', hcol', hplace⟩ := hback
  have hmoved : Window rows cols paper (pos - 1) k (back cols t) :=
    ⟨hrow', Nat.le_of_lt hcol', hplace, fun r hr c hc => by rw [hcell, h.shows r hr c hc]⟩
  exact hmoved.put blank hcol'

end Window

end TextGrid

end PureOS.Foundation
