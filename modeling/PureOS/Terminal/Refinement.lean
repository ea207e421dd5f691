import PureOS.Terminal.Display

set_option autoImplicit false

/-!
# Terminal: the squares of the screen

The framebuffer is seen as a grid of squares, each of them blank or with a glyph.  On the grid a
byte does what it does to a grid of text, and the points of the framebuffer agree with it.
-/

namespace PureOS.Terminal

open PureOS.Foundation PureOS.Graphics PureOS.Config

/-- What is in a square. -/
inductive Cell where
  | blank
  | glyph (ch : UInt8) (c : Rgb)
  deriving DecidableEq

/-- The colour of a point of a square. -/
def Cell.colour (d : Display) (bg : Rgb) (dx dy : Nat) : Cell → Rgb
  | .blank => bg
  | .glyph ch c => if Lit d ch dx dy then c else bg

/-- The points of the framebuffer are those of the squares, and what is left below and to the right
is blank. -/
structure Renders (d : Display) (bg : Rgb) (m : Words) (cell : Nat → Nat → Cell) : Prop where
  cells : ∀ r < d.rows.toNat, ∀ c < d.cols.toNat, ∀ dy < d.cell.toNat, ∀ dx < d.cell.toNat,
    m (d.screen.place (c * d.cell.toNat + dx) (r * d.cell.toNat + dy)) =
      d.screen.pack ((cell r c).colour d bg dx dy)
  margin : ∀ y < d.screen.height.toNat, ∀ x < d.screen.width.toNat,
    d.rows.toNat * d.cell.toNat ≤ y ∨ d.cols.toNat * d.cell.toNat ≤ x →
      m (d.screen.place x y) = d.screen.pack bg

/-- The terminal shows the grid. -/
structure Refines (d : Display) (t : State) (g : TextGrid Cell) : Prop where
  ready : t.ready = true
  col : t.curCol.toNat = g.col
  row : t.curRow.toNat = g.row
  row_lt : g.row < d.rows.toNat
  col_le : g.col ≤ d.cols.toNat
  renders : Renders d t.bg t.frame g.cell

/-! ## The grid of squares -/

variable (d : Display) in
/-- A tabulator on the grid. -/
def gridTab (fg : Rgb) (g : TextGrid Cell) : TextGrid Cell :=
  (g.fill (.glyph 0x20 fg) (Nat.min ((g.col / 4 + 1) * 4) d.cols.toNat - g.col)).wrap
    d.rows.toNat d.cols.toNat .blank

variable (d : Display) in
/-- A byte on the grid. -/
def gridChar (fg : Rgb) (ch : UInt8) (g : TextGrid Cell) : TextGrid Cell :=
  if ch = 0x0A then g.newline d.rows.toNat .blank
  else if ch = 0x0D then { g with col := 0 }
  else if ch = 0x09 then gridTab d fg g
  else if ch = 0x08 ∨ ch = 0x7F then g.erase d.cols.toNat .blank
  else if 0x20 ≤ ch ∧ ch ≤ 0x7E then g.type d.rows.toNat d.cols.toNat .blank (.glyph ch fg)
  else g

variable {d : Display} {t : State} {g : TextGrid Cell} {m : Words} {bg : Rgb}
variable {cell : Nat → Nat → Cell} {r c : Nat}

/-! ## Sizes -/

namespace Fits

theorem toNat_cols (hd : Fits d) : d.cols.toNat = d.screen.width.toNat / d.cell.toNat := by
  rw [Display.cols, if_neg, UInt32.toNat_div]
  intro hzero
  have hle := hd.cell_le_width
  have hpos := hd.cell_pos
  rw [hzero] at hle
  exact Nat.not_lt.mpr hle hpos

theorem toNat_rows (hd : Fits d) : d.rows.toNat = d.screen.height.toNat / d.cell.toNat := by
  rw [Display.rows, if_neg, UInt32.toNat_div]
  intro hzero
  have hlt := hd.cell_lt_height
  rw [hzero] at hlt
  exact Nat.not_lt_zero _ hlt

theorem cols_mul_le (hd : Fits d) : d.cols.toNat * d.cell.toNat ≤ d.screen.width.toNat := by
  rw [hd.toNat_cols]
  exact Nat.div_mul_le_self _ _

theorem rows_mul_le (hd : Fits d) : d.rows.toNat * d.cell.toNat ≤ d.screen.height.toNat := by
  rw [hd.toNat_rows]
  exact Nat.div_mul_le_self _ _

/-- Less than a row of squares is left below. -/
theorem lt_rows_mul (hd : Fits d) :
    d.screen.height.toNat < d.rows.toNat * d.cell.toNat + d.cell.toNat := by
  rw [hd.toNat_rows, ← Nat.succ_mul]
  exact Nat.lt_mul_of_div_lt (Nat.lt_succ_self _) hd.cell_pos

theorem cols_pos (hd : Fits d) : 0 < d.cols.toNat := by
  rw [hd.toNat_cols]
  exact Nat.div_pos hd.cell_le_width hd.cell_pos

theorem rows_pos (hd : Fits d) : 0 < d.rows.toNat := by
  rw [hd.toNat_rows]
  exact Nat.div_pos (Nat.le_of_lt hd.cell_lt_height) hd.cell_pos

end Fits

/-- A square ends before the next one begins. -/
theorem square_le (size : Nat) {n k : Nat} (h : n < k) : n * size + size ≤ k * size := by
  rw [← Nat.succ_mul]
  exact Nat.mul_le_mul_right _ h

/-! ## One square -/

/-- A square is painted, and nothing else. -/
theorem Renders.set (hd : Fits d) (h : Renders d bg m cell) (hr : r < d.rows.toNat)
    (hc : c < d.cols.toNat) {m' : Words} {v : Cell}
    (hpaint : ∀ a < d.screen.width.toNat, ∀ b, m' (d.screen.place a b) =
      if (c * d.cell.toNat ≤ a ∧ a < c * d.cell.toNat + d.cell.toNat) ∧
          r * d.cell.toNat ≤ b ∧ b < r * d.cell.toNat + d.cell.toNat then
        d.screen.pack (v.colour d bg (a - c * d.cell.toNat) (b - r * d.cell.toNat))
      else m (d.screen.place a b)) :
    Renders d bg m' fun r' c' => if r' = r ∧ c' = c then v else cell r' c' := by
  have hrows := square_le d.cell.toNat hr
  constructor
  · intro r' hr' c' hc' dy hdy dx hdx
    have hcols := square_le d.cell.toNat hc'
    have hwidth := hd.cols_mul_le
    rw [hpaint _ (by omega)]
    by_cases hat : r' = r ∧ c' = c
    · obtain ⟨rfl, rfl⟩ := hat
      rw [if_pos ⟨⟨by omega, by omega⟩, by omega, by omega⟩, if_pos ⟨rfl, rfl⟩,
        Nat.add_sub_cancel_left, Nat.add_sub_cancel_left]
    · rw [if_neg hat, if_neg, h.cells r' hr' c' hc' dy hdy dx hdx]
      rintro ⟨⟨hleft, hright⟩, habove, hbelow⟩
      refine hat ⟨?_, ?_⟩
      · rcases Nat.lt_trichotomy r' r with hlt | heq | hlt
        · have := square_le d.cell.toNat hlt
          omega
        · exact heq
        · have := square_le d.cell.toNat hlt
          omega
      · rcases Nat.lt_trichotomy c' c with hlt | heq | hlt
        · have := square_le d.cell.toNat hlt
          omega
        · exact heq
        · have := square_le d.cell.toNat hlt
          omega
  · intro y hy x hx hout
    have hcols := square_le d.cell.toNat hc
    rw [hpaint x hx, if_neg, h.margin y hy x hx hout]
    rintro ⟨⟨-, hright⟩, -, hbelow⟩
    omega

/-- The square of the cursor. -/
theorem square_cursor (hd : Fits d) {n k : UInt32} (hn : n.toNat < d.cols.toNat)
    (hk : k.toNat < d.rows.toNat) :
    SquareOn d (n * d.cell) (k * d.cell) ∧ (n * d.cell).toNat = n.toNat * d.cell.toNat ∧
      (k * d.cell).toNat = k.toNat * d.cell.toNat := by
  have hwidth := d.screen.width.toNat_lt
  have hheight := d.screen.height.toNat_lt
  have hcols := square_le d.cell.toNat hn
  have hrows := square_le d.cell.toNat hk
  have hcolsle := hd.cols_mul_le
  have hrowsle := hd.rows_mul_le
  have hpos := hd.cell_pos
  have hx : (n * d.cell).toNat = n.toNat * d.cell.toNat := by
    rw [UInt32.toNat_mul]
    exact Nat.mod_eq_of_lt (by omega)
  have hy : (k * d.cell).toNat = k.toNat * d.cell.toNat := by
    rw [UInt32.toNat_mul]
    exact Nat.mod_eq_of_lt (by omega)
  exact ⟨⟨by rw [hx]; omega, by rw [hy]; omega⟩, hx, hy⟩

/-- The square of the cursor is blank. -/
theorem paint_fillCell (hd : Fits d) (hcol : t.curCol.toNat < d.cols.toNat)
    (hrow : t.curRow.toNat < d.rows.toNat) {a b : Nat} (ha : a < d.screen.width.toNat) :
    t.fillCell d (d.screen.place a b) =
      if (t.curCol.toNat * d.cell.toNat ≤ a ∧
            a < t.curCol.toNat * d.cell.toNat + d.cell.toNat) ∧
          t.curRow.toNat * d.cell.toNat ≤ b ∧
            b < t.curRow.toNat * d.cell.toNat + d.cell.toNat then d.screen.pack t.bg
      else t.frame (d.screen.place a b) := by
  obtain ⟨hon, hx, hy⟩ := square_cursor hd hcol hrow
  rw [State.fillCell, paint_fillRect hon hd.enabled hd.stride ha, hx, hy]

theorem Refines.fillCell (hd : Fits d) (h : Refines d t g) (hcol : g.col < d.cols.toNat) :
    Refines d { t with frame := t.fillCell d } (g.put .blank) := by
  refine ⟨h.ready, h.col, h.row, h.row_lt, h.col_le, h.renders.set hd h.row_lt hcol ?_⟩
  intro a ha b
  rw [← h.col] at hcol ⊢
  have hrow := h.row_lt
  rw [← h.row] at hrow ⊢
  exact paint_fillCell hd hcol hrow ha

/-- `put_cell` puts a glyph. -/
theorem Refines.putCell (hd : Fits d) (h : Refines d t g) (hcol : g.col < d.cols.toNat)
    (ch : UInt8) : Refines d (t.putCell d ch) (g.put (.glyph ch t.fg)) := by
  refine ⟨h.ready, h.col, h.row, h.row_lt, h.col_le, h.renders.set hd h.row_lt hcol ?_⟩
  intro a ha b
  rw [← h.col] at hcol ⊢
  have hrow := h.row_lt
  rw [← h.row] at hrow ⊢
  obtain ⟨hon, hx, hy⟩ := square_cursor hd hcol hrow
  change d.screen.paint (t.backCell d) _ (d.screen.place a b) = _
  rw [State.backCell, if_neg hd.no_glass, paint_glyphPlots hd hon ha, paint_fillCell hd hcol hrow ha, hx, hy, Cell.colour]
  by_cases hin : (t.curCol.toNat * d.cell.toNat ≤ a ∧
      a < t.curCol.toNat * d.cell.toNat + d.cell.toNat) ∧
      t.curRow.toNat * d.cell.toNat ≤ b ∧ b < t.curRow.toNat * d.cell.toNat + d.cell.toNat
  · rw [if_pos hin, if_pos hin]
    by_cases hlit : Lit d ch (a - t.curCol.toNat * d.cell.toNat) (b - t.curRow.toNat * d.cell.toNat)
    · rw [if_pos ⟨hin, hlit⟩, if_pos hlit]
    · rw [if_neg fun hand => hlit hand.2, if_neg hlit]
  · rw [if_neg fun hand => hin hand.1, if_neg hin, if_neg hin]

/-! ## What a byte leaves as it is -/

/-- The colours stay, and no word behind the framebuffer is written. -/
structure Keeps (s : Screen) (t t' : State) : Prop where
  fg : t'.fg = t.fg
  bg : t'.bg = t.bg
  ready : t'.ready = t.ready
  outside : SameOutside s t.frame t'.frame

namespace Keeps

theorem trans {s : Screen} {t t' t'' : State} (h : Keeps s t t') (h' : Keeps s t' t'') :
    Keeps s t t'' where
  fg := h'.fg.trans h.fg
  bg := h'.bg.trans h.bg
  ready := h'.ready.trans h.ready
  outside := h.outside.trans h'.outside

theorem of_frame {t t' : State} (hframe : t'.frame = t.frame) (hfg : t'.fg = t.fg)
    (hbg : t'.bg = t.bg) (hready : t'.ready = t.ready) : Keeps d.screen t t' :=
  ⟨hfg, hbg, hready, fun _ _ => by rw [hframe]⟩

variable (hstride : d.screen.width ≤ d.screen.stride) (t : State)
include hstride

theorem fillCell : Keeps d.screen t { t with frame := t.fillCell d } :=
  ⟨rfl, rfl, rfl, sameOutside_paint hstride _ _⟩

theorem putCell (ch : UInt8) : Keeps d.screen t (t.putCell d ch) := by
  have hback : SameOutside d.screen t.frame (t.backCell d) := by
    unfold State.backCell
    split
    · exact sameOutside_drawGlassBackground hstride _ _ _ _ _ _
    · exact sameOutside_paint hstride _ _
  exact ⟨rfl, rfl, rfl, hback.trans (sameOutside_paint hstride _ _)⟩

theorem scroll : Keeps d.screen t (t.scroll d) := by
  have hcopy : SameOutside d.screen t.frame
      (copyUp t.frame (d.cell.toNat * d.screen.stride.toNat)
        (d.screen.height.toNat * d.screen.stride.toNat -
          d.cell.toNat * d.screen.stride.toNat)) :=
    fun _ hi => if_neg (Nat.not_lt.mpr (Nat.le_trans (Nat.sub_le _ _) hi))
  unfold State.scroll
  dsimp only
  split
  · exact of_frame rfl rfl rfl rfl
  · refine ⟨rfl, rfl, rfl, hcopy.trans ?_⟩
    dsimp only
    split
    · exact sameOutside_drawGlassBackground hstride _ _ _ _ _ _
    · exact sameOutside_paint hstride _ _

theorem newline : Keeps d.screen t (t.newline d) := by
  have hmoved : Keeps d.screen t { t with curCol := 0, curRow := t.curRow + 1 } :=
    of_frame rfl rfl rfl rfl
  unfold State.newline
  dsimp only
  split
  · have hscroll := hmoved.trans (scroll hstride _)
    exact hscroll.trans (of_frame rfl rfl rfl rfl)
  · exact hmoved

theorem backspace : Keeps d.screen t (t.backspace d) := by
  unfold State.backspace
  dsimp only
  refine Keeps.trans ?_ (fillCell hstride _)
  split
  · exact of_frame rfl rfl rfl rfl
  split
  · exact of_frame rfl rfl rfl rfl
  · exact of_frame rfl rfl rfl rfl

theorem tabLoop (next limit : UInt32) (n : Nat) : Keeps d.screen t (t.tabLoop d next limit n) := by
  induction n generalizing t with
  | zero => exact of_frame rfl rfl rfl rfl
  | succ n ih =>
      rw [State.tabLoop]
      split
      · have hput : Keeps d.screen t { t.putCell d 0x20 with curCol := t.curCol + 1 } :=
          (putCell hstride t 0x20).trans (of_frame rfl rfl rfl rfl)
        exact hput.trans (ih _)
      · exact of_frame rfl rfl rfl rfl

theorem tab : Keeps d.screen t (t.tab d) := by
  have hloop := tabLoop hstride t ((t.curCol / 4 + 1) * 4) d.cols 4
  unfold State.tab
  dsimp only
  split
  · exact hloop.trans (newline hstride _)
  · exact hloop

/-- A byte. -/
theorem putchar (ch : UInt8) : Keeps d.screen t (t.putchar d ch) := by
  have hsame : Keeps d.screen t t := of_frame rfl rfl rfl rfl
  unfold State.putchar
  split
  · exact hsame
  split
  · exact newline hstride t
  split
  · exact of_frame rfl rfl rfl rfl
  split
  · exact tab hstride t
  split
  · exact backspace hstride t
  split
  · have hwrap : Keeps d.screen t (if t.curCol ≥ d.cols then t.newline d else t) := by
      split
      · exact newline hstride t
      · exact hsame
    exact (hwrap.trans (putCell hstride _ ch)).trans (of_frame rfl rfl rfl rfl)
  · exact hsame

theorem clear : Keeps d.screen t (t.clear d) := by
  refine ⟨rfl, rfl, rfl, ?_⟩
  dsimp only [State.clear]
  split
  · exact sameOutside_frost hstride _ _ _ _ _ _
  · exact sameOutside_paint hstride _ _

end Keeps

/-! ## Rows -/

/-- A word that is moved. -/
theorem copyUp_place {s : Screen} {n a b : Nat} (hstride : s.width ≤ s.stride)
    (hn : n ≤ s.height.toNat) (ha : a < s.width.toNat) :
    copyUp m (n * s.stride.toNat) (s.height.toNat * s.stride.toNat - n * s.stride.toNat)
        (s.place a b) =
      if b + n < s.height.toNat then m (s.place a (b + n)) else m (s.place a b) := by
  have hle := UInt32.le_iff_toNat_le.mp hstride
  have hcount : s.height.toNat * s.stride.toNat - n * s.stride.toNat =
      (s.height.toNat - n) * s.stride.toNat := (Nat.sub_mul _ _ _).symm
  rw [copyUp, hcount]
  by_cases hin : b + n < s.height.toNat
  · have hrow := square_le s.stride.toNat (n := b) (k := s.height.toNat - n) (by omega)
    have hlt : s.place a b < (s.height.toNat - n) * s.stride.toNat := by
      unfold Screen.place
      omega
    rw [if_pos hin, if_pos hlt]
    unfold Screen.place
    rw [Nat.add_mul, Nat.add_right_comm]
  · rw [if_neg hin, if_neg]
    have hrow : (s.height.toNat - n) * s.stride.toNat ≤ b * s.stride.toNat :=
      Nat.mul_le_mul_right _ (by omega)
    unfold Screen.place
    omega

/-- What is on the screen after scrolling. -/
theorem paint_scroll (hd : Fits d) {a b : Nat} (ha : a < d.screen.width.toNat)
    (hb : b < d.screen.height.toNat) :
    (t.scroll d).frame (d.screen.place a b) =
      if b + d.cell.toNat < d.screen.height.toNat then
        t.frame (d.screen.place a (b + d.cell.toNat))
      else d.screen.pack t.bg := by
  have hheight := hd.cell_lt_height
  have hsub : (d.screen.height - d.cell).toNat = d.screen.height.toNat - d.cell.toNat :=
    UInt32.toNat_sub_of_le _ _ (UInt32.le_iff_toNat_le.mpr (Nat.le_of_lt hheight))
  have hbase : ¬(d.screen.base = 0 ∨ d.screen.height ≤ d.cell) := by
    rintro (hzero | hle)
    · have henabled := hd.enabled
      rw [Screen.enabled, hzero] at henabled
      cases henabled
    · exact Nat.not_le.mpr hheight (UInt32.le_iff_toNat_le.mp hle)
  have hon : OnScreen d.screen 0 (d.screen.height - d.cell) d.screen.width d.cell := by
    refine ⟨Nat.le_of_eq (Nat.zero_add _), ?_⟩
    rw [hsub]
    omega
  have hzero : (0 : UInt32).toNat = 0 := rfl
  rw [State.scroll, if_neg hbase]
  dsimp only
  rw [if_neg hd.no_glass, paint_fillRect hon hd.enabled hd.stride ha, hsub, hzero, Nat.zero_add,
    copyUp_place hd.stride (Nat.le_of_lt hheight) ha]
  by_cases hin : b + d.cell.toNat < d.screen.height.toNat
  · rw [if_neg (by omega), if_pos hin, if_pos hin]
  · rw [if_pos (by omega), if_neg hin]

/-- The rows go up by one. -/
theorem Renders.scroll (hd : Fits d) (h : Renders d t.bg t.frame g.cell) :
    Renders d t.bg (t.scroll d).frame (g.scroll d.rows.toNat .blank).cell := by
  have hrowsle := hd.rows_mul_le
  have hbelow := hd.lt_rows_mul
  have hwidth := hd.cols_mul_le
  constructor
  · intro r hr c hc dy hdy dx hdx
    have hcols := square_le d.cell.toNat hc
    have hrows := square_le d.cell.toNat hr
    rw [paint_scroll hd (by omega) (by omega)]
    dsimp only [TextGrid.scroll]
    by_cases hnext : r + 1 < d.rows.toNat
    · have hnextrow := square_le d.cell.toNat hnext
      have hsame : r * d.cell.toNat + dy + d.cell.toNat = (r + 1) * d.cell.toNat + dy := by
        rw [Nat.succ_mul]
        omega
      rw [Nat.succ_mul] at hnextrow
      rw [if_pos (by omega), if_pos hnext, hsame]
      exact h.cells (r + 1) hnext c hc dy hdy dx hdx
    · have hlast : (r + 1) * d.cell.toNat = d.rows.toNat * d.cell.toNat := by
        rw [show r + 1 = d.rows.toNat by omega]
      rw [Nat.succ_mul] at hlast
      rw [if_neg hnext]
      split
      · next hin => exact h.margin _ hin _ (by omega) (Or.inl (by omega))
      · rfl
  · intro y hy x hx hout
    rw [paint_scroll hd hx hy]
    split
    · next hin => exact h.margin _ hin x hx (hout.imp (fun hle => by omega) id)
    · rfl

/-! ## What a byte does -/

/-- `before` is the number before, or zero. -/
theorem toNat_before (n : UInt32) : (before n).toNat = n.toNat - 1 := by
  unfold before
  split
  · next hzero => rw [hzero]; rfl
  · next hzero =>
      have hpos : 1 ≤ n.toNat := by
        have hne : n.toNat ≠ 0 := fun h => hzero (UInt32.toNat_inj.mp h)
        omega
      exact UInt32.toNat_sub_of_le _ _ (UInt32.le_iff_toNat_le.mpr hpos)

/-- The next number. -/
theorem toNat_succ {n : UInt32} {k : Nat} (hn : n.toNat < k) (hk : k < 2 ^ 32) :
    (n + 1).toNat = n.toNat + 1 := by
  rw [UInt32.toNat_add]
  exact Nat.mod_eq_of_lt (by change n.toNat + 1 < 2 ^ 32; omega)

theorem Refines.newline (hd : Fits d) (h : Refines d t g) :
    Refines d (t.newline d) (g.newline d.rows.toNat .blank) := by
  have hrow := h.row_lt
  rw [← h.row] at hrow
  have hnext : (t.curRow + 1).toNat = g.row + 1 := by
    rw [toNat_succ hrow d.rows.toNat_lt, h.row]
  have hpos := hd.rows_pos
  unfold State.newline TextGrid.newline
  dsimp only
  by_cases hin : g.row + 1 < d.rows.toNat
  · rw [if_pos hin, if_neg]
    · exact ⟨h.ready, rfl, hnext, hin, Nat.zero_le _, h.renders⟩
    · intro hge
      have hle := UInt32.le_iff_toNat_le.mp hge
      rw [hnext] at hle
      omega
  · rw [if_neg hin, if_pos]
    · have hsame : ({ t with curCol := 0, curRow := t.curRow + 1 } : State).scroll d =
          { t.scroll d with curCol := 0, curRow := t.curRow + 1 } := by
        unfold State.scroll
        dsimp only
        split <;> rfl
      rw [hsame]
      have hkeeps := Keeps.scroll hd.stride t
      refine ⟨hkeeps.ready.trans h.ready, rfl, toNat_before _, ?_, Nat.zero_le _, ?_⟩
      · change d.rows.toNat - 1 < d.rows.toNat
        omega
      · change Renders d (t.scroll d).bg (t.scroll d).frame _
        rw [hkeeps.bg]
        exact h.renders.scroll hd
    · refine UInt32.le_iff_toNat_le.mpr ?_
      rw [hnext]
      omega

/-- A row that is full is left before the next glyph. -/
theorem Refines.wrap (hd : Fits d) (h : Refines d t g) :
    Refines d (if t.curCol ≥ d.cols then t.newline d else t)
      (g.wrap d.rows.toNat d.cols.toNat .blank) := by
  unfold TextGrid.wrap
  by_cases hfull : d.cols.toNat ≤ g.col
  · rw [if_pos hfull, if_pos]
    · exact h.newline hd
    · refine UInt32.le_iff_toNat_le.mpr ?_
      rwa [h.col]
  · rw [if_neg hfull, if_neg]
    · exact h
    · intro hge
      have hle := UInt32.le_iff_toNat_le.mp hge
      rw [h.col] at hle
      exact hfull hle

/-- A glyph is put, and the cursor goes on. -/
theorem Refines.advance (hd : Fits d) (h : Refines d t g) (hcol : g.col < d.cols.toNat)
    (ch : UInt8) :
    Refines d { t.putCell d ch with curCol := t.curCol + 1 }
      { g.put (.glyph ch t.fg) with col := g.col + 1 } := by
  have hput := h.putCell hd hcol ch
  have hlt := hcol
  rw [← h.col] at hlt
  have hnext : (t.curCol + 1).toNat = g.col + 1 := by
    rw [toNat_succ hlt d.cols.toNat_lt, h.col]
  exact ⟨hput.ready, hnext, hput.row, hput.row_lt, hcol, hput.renders⟩

theorem wrap_col_lt (hd : Fits d) :
    (g.wrap d.rows.toNat d.cols.toNat (.blank : Cell)).col < d.cols.toNat := by
  unfold TextGrid.wrap
  by_cases hfull : d.cols.toNat ≤ g.col
  · rw [if_pos hfull]
    unfold TextGrid.newline
    split <;> exact hd.cols_pos
  · rw [if_neg hfull]
    exact Nat.lt_of_not_le hfull

theorem Refines.backspace (hd : Fits d) (h : Refines d t g) :
    Refines d (t.backspace d) (g.erase d.cols.toNat .blank) := by
  have hpos := hd.cols_pos
  have hone : (1 : UInt32).toNat = 1 := rfl
  have hzero : (0 : UInt32).toNat = 0 := rfl
  have hcolle := h.col_le
  have hrowlt := h.row_lt
  have hsub : ∀ {n : UInt32} {k : Nat}, n.toNat = k → 0 < k → (n - 1).toNat = k - 1 := by
    intro n k hn hk
    rw [UInt32.toNat_sub_of_le _ _ (UInt32.le_iff_toNat_le.mpr (by rw [hone]; omega)), hn, hone]
  unfold State.backspace TextGrid.erase TextGrid.back
  dsimp only
  by_cases hleft : 0 < g.col
  · have hgt : t.curCol > 0 := UInt32.lt_iff_toNat_lt.mpr (by rw [hzero, h.col]; exact hleft)
    rw [if_pos hleft, if_pos hgt]
    have hmoved : Refines d { t with curCol := t.curCol - 1 } { g with col := g.col - 1 } :=
      ⟨h.ready, hsub h.col hleft, h.row, hrowlt, by dsimp only; omega, h.renders⟩
    exact hmoved.fillCell hd (by dsimp only; omega)
  · have hnot : ¬t.curCol > 0 := fun hgt => hleft (by
      rw [← h.col]
      exact UInt32.lt_iff_toNat_lt.mp hgt)
    rw [if_neg hleft, if_neg hnot]
    by_cases habove : 0 < g.row
    · have hgt : t.curRow > 0 := UInt32.lt_iff_toNat_lt.mpr (by rw [hzero, h.row]; exact habove)
      rw [if_pos habove, if_pos hgt]
      have hmoved : Refines d { t with curRow := t.curRow - 1, curCol := before d.cols }
          { g with row := g.row - 1, col := d.cols.toNat - 1 } :=
        ⟨h.ready, toNat_before _, hsub h.row habove, by dsimp only; omega, by dsimp only; omega,
          h.renders⟩
      exact hmoved.fillCell hd (by dsimp only; omega)
    · have hnot' : ¬t.curRow > 0 := fun hgt => habove (by
        rw [← h.row]
        exact UInt32.lt_iff_toNat_lt.mp hgt)
      rw [if_neg habove, if_neg hnot']
      exact h.fillCell hd (by omega)

/-- The loop of a tabulator fills the cells up to the border. -/
theorem Refines.tabLoop (hd : Fits d) (next : UInt32) {n : Nat} (h : Refines d t g)
    (hn : Nat.min next.toNat d.cols.toNat ≤ g.col + n) :
    Refines d (t.tabLoop d next d.cols n)
      (g.fill (.glyph 0x20 t.fg) (Nat.min next.toNat d.cols.toNat - g.col)) := by
  induction n generalizing t g with
  | zero =>
      have hnone : Nat.min next.toNat d.cols.toNat - g.col = 0 := by omega
      rw [hnone]
      exact h
  | succ n ih =>
      rw [State.tabLoop]
      by_cases hin : g.col < Nat.min next.toNat d.cols.toNat
      · have hboth := Nat.lt_min.mp hin
        have hcond : t.curCol < next ∧ t.curCol < d.cols := by
          rw [UInt32.lt_iff_toNat_lt, UInt32.lt_iff_toNat_lt, h.col]
          exact hboth
        have hstep := h.advance hd hboth.2 0x20
        have hrest := ih hstep (by dsimp only; omega)
        have hmore : Nat.min next.toNat d.cols.toNat - g.col =
            (Nat.min next.toNat d.cols.toNat - (g.col + 1)) + 1 := by omega
        rw [if_pos hcond, hmore]
        exact hrest
      · have hnone : Nat.min next.toNat d.cols.toNat - g.col = 0 := by omega
        rw [if_neg, hnone]
        · exact h
        · rintro ⟨hnext, hlimit⟩
          rw [UInt32.lt_iff_toNat_lt, h.col] at hnext hlimit
          exact hin (Nat.lt_min.mpr ⟨hnext, hlimit⟩)

theorem Refines.tab (hd : Fits d) (h : Refines d t g) :
    Refines d (t.tab d) (gridTab d t.fg g) := by
  have hcell := hd.le_cell
  have hcols : d.cols.toNat * 8 ≤ d.screen.width.toNat :=
    Nat.le_trans (Nat.mul_le_mul_left _ hcell) hd.cols_mul_le
  have hwidth := d.screen.width.toNat_lt
  have hcol := h.col_le
  have hfour : (4 : UInt32).toNat = 4 := rfl
  have hone : (1 : UInt32).toNat = 1 := rfl
  have hnext : ((t.curCol / 4 + 1) * 4).toNat = (g.col / 4 + 1) * 4 := by
    have hsum : (t.curCol / 4 + 1).toNat = g.col / 4 + 1 := by
      rw [UInt32.toNat_add, UInt32.toNat_div, hfour, hone, h.col]
      exact Nat.mod_eq_of_lt (by omega)
    rw [UInt32.toNat_mul, hsum, hfour]
    exact Nat.mod_eq_of_lt (by omega)
  have hfill := h.tabLoop hd ((t.curCol / 4 + 1) * 4) (n := 4) (by
    rw [hnext]
    exact Nat.le_trans (Nat.min_le_left _ _) (by omega))
  rw [hnext] at hfill
  exact hfill.wrap hd

/-- A byte does on the screen what it does on the grid. -/
theorem Refines.putchar (hd : Fits d) (h : Refines d t g) (ch : UInt8) :
    Refines d (t.putchar d ch) (gridChar d t.fg ch g) := by
  rw [State.putchar, if_neg (not_not.mpr h.ready), gridChar]
  split
  · exact h.newline hd
  split
  · exact ⟨h.ready, rfl, h.row, h.row_lt, Nat.zero_le _, h.renders⟩
  split
  · exact h.tab hd
  split
  · exact h.backspace hd
  split
  · have hfg : (if t.curCol ≥ d.cols then t.newline d else t).fg = t.fg := by
      split
      · exact (Keeps.newline hd.stride t).fg
      · rfl
    have hstep := (h.wrap hd).advance hd (wrap_col_lt hd) ch
    rw [hfg] at hstep
    exact hstep
  · exact h

/-- A grid of blank squares. -/
def blankGrid : TextGrid Cell := ⟨fun _ _ => .blank, 0, 0⟩

/-- A clear screen is a grid of blank squares. -/
theorem Refines.clear (hd : Fits d) (hready : t.ready = true) :
    Refines d (t.clear d) blankGrid := by
  have hwidth := hd.cols_mul_le
  have hheight := hd.rows_mul_le
  have hzero : (0 : UInt32).toNat = 0 := rfl
  have hon : OnScreen d.screen 0 0 d.screen.width d.screen.height :=
    ⟨Nat.le_of_eq (Nat.zero_add _), Nat.le_of_eq (Nat.zero_add _)⟩
  have hpaint : ∀ a < d.screen.width.toNat, ∀ b < d.screen.height.toNat,
      (t.clear d).frame (d.screen.place a b) = d.screen.pack t.bg := by
    intro a ha b hb
    dsimp only [State.clear]
    rw [if_neg hd.no_glass, paint_fillRect hon hd.enabled hd.stride ha, hzero, if_pos]
    exact ⟨⟨Nat.zero_le _, by omega⟩, Nat.zero_le _, by omega⟩
  refine ⟨hready, rfl, rfl, hd.rows_pos, Nat.zero_le _, ?_, fun y hy x hx _ => hpaint x hx y hy⟩
  intro r hr c hc dy hdy dx hdx
  have hcols := square_le d.cell.toNat hc
  have hrows := square_le d.cell.toNat hr
  exact hpaint _ (by omega) _ (by omega)

end PureOS.Terminal
