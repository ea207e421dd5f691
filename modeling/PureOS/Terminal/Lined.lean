import PureOS.Terminal.Page

set_option autoImplicit false

/-!
# Terminal: a line that is being written

Whatever is on the screen, a line can be written from the cursor on and taken back, and it stays to
be read as long as it fits on the screen.
-/

namespace PureOS.Terminal

open PureOS.Foundation PureOS.Graphics

variable {d : Display} {t : State} {g : TextGrid Cell} {line : List UInt8} {ch : UInt8}

/-- A line that begins on the screen ends at the cursor. -/
def Lined (d : Display) (t : State) (text : List UInt8) : Prop :=
  ∃ g paper base k, Refines d t g ∧
    TextGrid.Window d.rows.toNat d.cols.toNat paper (base + text.length) k g ∧
    k * d.cols.toNat ≤ base ∧
    ∀ i (hi : i < text.length), paper (base + i) = .glyph text[i] t.fg

/-- A byte that is drawn. -/
structure Graphic (ch : UInt8) : Prop where
  space_le : 0x20 ≤ ch
  lt_delete : ch < 0x7F

instance (ch : UInt8) : Decidable (Graphic ch) :=
  decidable_of_iff (0x20 ≤ ch ∧ ch < 0x7F) ⟨fun h => ⟨h.1, h.2⟩, fun h => ⟨h.1, h.2⟩⟩

theorem Graphic.ne_of_lt (h : Graphic ch) {control : UInt8} (hlt : control < 0x20) :
    ch ≠ control := by
  rintro rfl
  exact absurd hlt (UInt8.not_lt.mpr h.space_le)

theorem Graphic.gridChar (h : Graphic ch) (fg : Rgb) (g : TextGrid Cell) :
    gridChar d fg ch g = g.type d.rows.toNat d.cols.toNat .blank (.glyph ch fg) := by
  have hle : ch ≤ 0x7E := by
    have hlt := UInt8.lt_iff_toNat_lt.mp h.lt_delete
    refine UInt8.le_iff_toNat_le.mpr ?_
    change ch.toNat ≤ 126
    change ch.toNat < 127 at hlt
    omega
  have hdelete : ch ≠ 0x7F := by
    rintro rfl
    exact absurd h.lt_delete (by decide)
  rw [Terminal.gridChar, if_neg (h.ne_of_lt (by decide)), if_neg (h.ne_of_lt (by decide)),
    if_neg (h.ne_of_lt (by decide)), if_neg (not_or.mpr ⟨h.ne_of_lt (by decide), hdelete⟩),
    if_pos ⟨h.space_le, hle⟩]

theorem gridChar_delete (fg : Rgb) (g : TextGrid Cell) :
    gridChar d fg 0x7F g = g.erase d.cols.toNat .blank := rfl

/-- An empty line begins anywhere. -/
theorem Refines.lined (h : Refines d t g) : Lined d t [] := by
  obtain ⟨paper, hwindow⟩ := TextGrid.exists_window h.row_lt h.col_le
  exact ⟨g, paper, _, 0, h, hwindow, by simp, nofun⟩

namespace Lined

/-- A glyph is written behind the line. -/
theorem putchar (hd : Fits d) (h : Lined d t line) (hch : Graphic ch)
    (hroom : line.length < (d.rows.toNat - 1) * d.cols.toNat) :
    Lined d (t.putchar d ch) (line ++ [ch]) := by
  obtain ⟨g, paper, base, k, href, hwindow, hbase, hline⟩ := h
  have hstep := href.putchar hd ch
  rw [hch.gridChar] at hstep
  obtain ⟨paper', k', hnext, hlast, hsame, hk⟩ :=
    hwindow.type .blank (.glyph ch t.fg) hd.cols_pos
  have hlength : base + (line ++ [ch]).length = base + line.length + 1 := by
    rw [List.length_append, Nat.add_assoc, List.length_singleton]
  rw [← hlength] at hnext
  refine ⟨_, paper', base, k', hstep, hnext, ?_, ?_⟩
  · rcases hk with rfl | ⟨rfl, hfull⟩
    · exact hbase
    · -- The screen scrolls, but not over the beginning of the line.
      have hrows : k + d.rows.toNat = k + 1 + (d.rows.toNat - 1) := by
        have := hd.rows_pos
        omega
      rw [hrows, Nat.add_mul] at hfull
      omega
  · intro i hi
    rw [(Keeps.putchar hd.stride t ch).fg]
    by_cases hlt : i < line.length
    · rw [hsame _ (by omega), List.getElem_append_left hlt]
      exact hline i hlt
    · have heq : i = line.length := by
        rw [List.length_append, List.length_singleton] at hi
        omega
      subst heq
      simpa using hlast

/-- The last byte of the line is taken back. -/
theorem delete (hd : Fits d) (h : Lined d t (line ++ [ch])) : Lined d (t.putchar d 0x7F) line := by
  obtain ⟨g, paper, base, k, href, hwindow, hbase, hline⟩ := h
  have hstep := href.putchar hd 0x7F
  rw [gridChar_delete] at hstep
  have hlength : base + (line ++ [ch]).length = base + line.length + 1 := by
    rw [List.length_append, Nat.add_assoc, List.length_singleton]
  rw [hlength] at hwindow
  have hnext := hwindow.erase .blank hd.cols_pos (by omega)
  refine ⟨_, _, base, k, hstep, hnext, hbase, ?_⟩
  intro i hi
  have hmem := hline i (by rw [List.length_append]; omega)
  rw [(Keeps.putchar hd.stride t 0x7F).fg, Function.update_of_ne (by omega), hmem,
    List.getElem_append_left hi]

end Lined

/-! ## What is to be read on the screen -/

/-- The squares of the screen are taken in the order of the text: from one of them on stands the
line, and behind it the cursor. -/
structure Reads (d : Display) (t : State) (text : List UInt8) (base : Nat) : Prop where
  cursor : t.curRow.toNat * d.cols.toNat + t.curCol.toNat = base + text.length
  cursor_row : t.curRow < d.rows
  shows : ∀ i (hi : i < text.length), ∀ dy < d.cell.toNat, ∀ dx < d.cell.toNat,
    t.frame (d.screen.place ((base + i) % d.cols.toNat * d.cell.toNat + dx)
        ((base + i) / d.cols.toNat * d.cell.toNat + dy)) =
      d.screen.pack (if Lit d text[i] dx dy then t.fg else t.bg)

/-- The line is to be read on the screen. -/
theorem Lined.reads (h : Lined d t line) : ∃ base, Reads d t line base := by
  obtain ⟨g, paper, base, k, href, hwindow, hbase, hline⟩ := h
  have hcursor := hwindow.cursor
  have hend := hwindow.pos_le
  rw [Nat.add_mul] at hcursor hend
  refine ⟨base - k * d.cols.toNat, ⟨?_, ?_, ?_⟩⟩
  · rw [href.row, href.col]
    omega
  · refine UInt32.lt_iff_toNat_lt.mpr ?_
    rw [href.row]
    exact href.row_lt
  · intro i hi dy hdy dx hdx
    obtain ⟨p, hp⟩ : ∃ p, p = base - k * d.cols.toNat + i := ⟨_, rfl⟩
    have hplace : k * d.cols.toNat + p = base + i := by omega
    have hlt : p < d.rows.toNat * d.cols.toNat := by omega
    have hcols : 0 < d.cols.toNat := Nat.pos_of_mul_pos_left (Nat.zero_lt_of_lt hlt)
    have hrow : p / d.cols.toNat < d.rows.toNat := Nat.div_lt_of_lt_mul (by rwa [Nat.mul_comm])
    have hcol : p % d.cols.toNat < d.cols.toNat := Nat.mod_lt _ hcols
    rw [← hp, href.renders.cells _ hrow _ hcol dy hdy dx hdx, hwindow.shows _ hrow _ hcol,
      Nat.add_mul, Nat.add_assoc, Nat.div_add_mod', hplace, hline i hi]
    rfl

end PureOS.Terminal
