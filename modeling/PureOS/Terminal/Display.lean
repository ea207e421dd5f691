import PureOS.Config.State
import PureOS.Foundation.TextGrid
import PureOS.Graphics.Blur

set_option autoImplicit false

/-!
# Terminal: drawing text (`terminal.rs`)

The terminal draws glyphs into the framebuffer and keeps a cursor.  The tables of the glyphs
(`font.rs`) are a parameter.  In the glass mode a glyph is drawn on what is behind it, blurred and
frosted, instead of on the colour of the background.
-/

namespace PureOS.Terminal

open PureOS.Foundation PureOS.Graphics PureOS.Config

/-- `FontId`. -/
inductive FontId where
  | compact
  | bold
  | italic
  | serif
  | outline
  | tall
  | vga
  | wide
  deriving DecidableEq

/-- `font_width`. -/
def fontWidth : FontId → UInt32
  | .wide => 10
  | _ => 8

/-- `font_height`. -/
def fontHeight : FontId → UInt32
  | .tall => 14
  | .vga => 16
  | .wide => 18
  | _ => 8

/-- What a byte does not change: the screen, the tables of `glyph`, and `SELECTED_FONT`, `SCALE` and
`GLASS_MODE`. -/
structure Display where
  screen : Screen
  glyph : FontId → UInt8 → List UInt8
  font : FontId
  scale : UInt32
  glass : UInt32

/-- `glyph_pixel`. -/
def glyphPixel (glyph : FontId → UInt8 → List UInt8) (font : FontId) (c : UInt8) (row : Nat)
    (col : UInt32) : Bool :=
  let g := glyph font c
  if fontWidth font = 10 then
    if row * 2 + 1 ≥ g.length then false
    else
      let hi := (g.getD (row * 2) 0).toUInt16
      let lo := (g.getD (row * 2 + 1) 0).toUInt16
      let pair := (hi <<< 8) ||| lo
      pair &&& (0x200 >>> col.toUInt16) != 0
  else if row ≥ g.length then false
  else g.getD row 0 &&& (0x80 >>> col.toUInt8) != 0

/-- `SELECTED_FONT` from the configuration. -/
def selectedFont (cfg : SystemConfig) : FontId :=
  if cfg.selectedFont < 8 then
    match cfg.selectedFont.toNat with
    | 0 => .compact
    | 1 => .bold
    | 2 => .italic
    | 3 => .serif
    | 4 => .outline
    | 5 => .tall
    | 6 => .vga
    | _ => .wide
  else .compact

/-- `apply_font_config`. -/
def Display.applyFontConfig (d : Display) (cfg : SystemConfig) : Display :=
  { d with
    font := selectedFont cfg
    scale := if cfg.fontScale < 1 then 1 else if 4 < cfg.fontScale then 4 else cfg.fontScale }

/-- `set_glass_mode`. -/
def Display.setGlassMode (d : Display) (level : UInt32) : Display :=
  { d with glass := if level < 3 then level else 3 }

/-- How much white `put_cell` and `scroll` lay over the background. -/
def cellAlpha (glass : UInt32) : UInt8 := if glass = 1 then 60 else if glass = 2 then 100 else 140

/-- How much white `clear` lays over the screen. -/
def screenAlpha (glass : UInt32) : UInt8 := if glass = 1 then 40 else if glass = 2 then 70 else 100

/-- The variables of the terminal, and the words of the framebuffer. -/
structure State where
  frame : Words
  curCol : UInt32
  curRow : UInt32
  fg : Rgb
  bg : Rgb
  ready : Bool

/-- The words from `shift` on are moved to the front, `count` of them. -/
def copyUp (m : Words) (shift count : Nat) : Words :=
  fun i => if i < count then m (i + shift) else m i

/-- `saturating_sub(1)`. -/
def before (n : UInt32) : UInt32 := if n = 0 then 0 else n - 1

namespace Display

variable (d : Display)

/-- `CELL`. -/
def cell : UInt32 := fontWidth d.font * d.scale

/-- `cols`. -/
def cols : UInt32 := if d.screen.width = 0 then 0 else d.screen.width / d.cell

/-- `rows`. -/
def rows : UInt32 := if d.screen.height = 0 then 0 else d.screen.height / d.cell

/-- The points of a glyph with its corner at a point. -/
def glyphPlots (ch : UInt8) (x y : UInt32) (c : Rgb) : List Plot :=
  (List.range (fontHeight d.font).toNat).flatMap fun row =>
    (List.range (fontWidth d.font).toNat).flatMap fun col =>
      if glyphPixel d.glyph d.font ch row (UInt32.ofNat col) then
        fillRect (x + UInt32.ofNat col * d.scale) (y + UInt32.ofNat row * d.scale) d.scale d.scale c
      else []

end Display

namespace State

variable (d : Display)

/-- The square of the cursor is painted with the background. -/
def fillCell (t : State) : Words :=
  d.screen.paint t.frame
    (fillRect (t.curCol * d.cell) (t.curRow * d.cell) d.cell d.cell t.bg)

/-- The square of the cursor, before a glyph is drawn. -/
def backCell (t : State) : Words :=
  if d.glass > 0 then
    drawGlassBackground d.screen t.frame (t.curCol * d.cell) (t.curRow * d.cell) d.cell d.cell
      (cellAlpha d.glass)
  else t.fillCell d

/-- `put_cell`. -/
def putCell (ch : UInt8) (t : State) : State :=
  { t with
    frame := d.screen.paint (t.backCell d)
      (d.glyphPlots ch (t.curCol * d.cell) (t.curRow * d.cell) t.fg) }

/-- `scroll`. -/
def scroll (t : State) : State :=
  let s := d.screen
  if s.base = 0 ∨ s.height ≤ d.cell then t
  else
    let shift := d.cell.toNat * s.stride.toNat
    let total := s.height.toNat * s.stride.toNat
    let frame := copyUp t.frame shift (total - shift)
    { t with
      frame :=
        if d.glass > 0 then
          drawGlassBackground s frame 0 (s.height - d.cell) s.width d.cell (cellAlpha d.glass)
        else s.paint frame (fillRect 0 (s.height - d.cell) s.width d.cell t.bg) }

/-- `newline`. -/
def newline (t : State) : State :=
  let t := { t with curCol := 0, curRow := t.curRow + 1 }
  if t.curRow ≥ d.rows then { t.scroll d with curRow := before d.rows } else t

/-- `backspace`. -/
def backspace (t : State) : State :=
  let t :=
    if t.curCol > 0 then { t with curCol := t.curCol - 1 }
    else if t.curRow > 0 then { t with curRow := t.curRow - 1, curCol := before d.cols }
    else t
  { t with frame := t.fillCell d }

/-- The loop of a tabulator: at most so many turns. -/
def tabLoop (next limit : UInt32) : Nat → State → State
  | 0, t => t
  | n + 1, t =>
      if t.curCol < next ∧ t.curCol < limit then
        let t := t.putCell d 0x20
        tabLoop next limit n { t with curCol := t.curCol + 1 }
      else t

/-- A tabulator, up to the next border of four cells. -/
def tab (t : State) : State :=
  let limit := d.cols
  let t := t.tabLoop d ((t.curCol / 4 + 1) * 4) limit 4
  if t.curCol ≥ limit then t.newline d else t

/-- `putchar`. -/
def putchar (ch : UInt8) (t : State) : State :=
  if ¬t.ready then t
  else if ch = 0x0A then t.newline d
  else if ch = 0x0D then { t with curCol := 0 }
  else if ch = 0x09 then t.tab d
  else if ch = 0x08 ∨ ch = 0x7F then t.backspace d
  else if 0x20 ≤ ch ∧ ch ≤ 0x7E then
    let t := if t.curCol ≥ d.cols then t.newline d else t
    let t := t.putCell d ch
    { t with curCol := t.curCol + 1 }
  else t

/-- `write`. -/
def write (s : List UInt8) (t : State) : State := s.foldl (fun t ch => t.putchar d ch) t

/-- `clear`. -/
def clear (t : State) : State :=
  let s := d.screen
  { t with
    frame :=
      if d.glass > 0 then frost s (screenAlpha d.glass) t.frame 0 0 s.width s.height
      else s.paint t.frame (fillRect 0 0 s.width s.height t.bg)
    curCol := 0
    curRow := 0 }

/-- `set_colors`. -/
def setColors (fg bg : Rgb) (t : State) : State := { t with fg := fg, bg := bg }

/-- `set_cursor`. -/
def setCursor (row col : UInt32) (t : State) : State := { t with curRow := row, curCol := col }

end State

/-- The colours of the configuration. -/
def foreground (cfg : SystemConfig) : Rgb :=
  ⟨cfg.terminalColors.foregroundR, cfg.terminalColors.foregroundG, cfg.terminalColors.foregroundB⟩

def background (cfg : SystemConfig) : Rgb :=
  ⟨cfg.terminalColors.backgroundR, cfg.terminalColors.backgroundG, cfg.terminalColors.backgroundB⟩

/-- `init`, behind `apply_font_config`: the colours are those of the configuration. -/
def State.init (d : Display) (cfg : SystemConfig) (frame : Words) : State :=
  State.clear d
    { frame := frame
      curCol := 0
      curRow := 0
      fg := foreground cfg
      bg := background cfg
      ready := d.screen.width != 0 && d.screen.height != 0 }

/-! ## What is painted -/

variable {s : Screen} {d : Display} {m : Words} {plots : List Plot} {c : Rgb} {i a b : Nat}

/-- Points of one colour. -/
theorem paint_of_colour (h : ∀ q ∈ plots, q.c = c)
    (hmem : ∃ q ∈ plots, s.Shows q ∧ s.place q.x.toNat q.y.toNat = i) :
    s.paint m plots i = s.pack c :=
  Screen.paint_of_mem (P := (· = s.pack c)) (fun q hq _ _ => by rw [h q hq]) (Or.inr hmem)

variable {x y w h : UInt32}

/-- The rectangle lies on the screen. -/
structure OnScreen (s : Screen) (x y w h : UInt32) : Prop where
  right : x.toNat + w.toNat ≤ s.width.toNat
  bottom : y.toNat + h.toNat ≤ s.height.toNat

theorem mem_fillRect {q : Plot} (hon : OnScreen s x y w h) (hq : q ∈ fillRect x y w h c) :
    ∃ dx < w.toNat, ∃ dy < h.toNat,
      q.c = c ∧ q.x.toNat = x.toNat + dx ∧ q.y.toNat = y.toNat + dy := by
  obtain ⟨dy, hdy, hq⟩ := List.mem_flatMap.mp hq
  obtain ⟨dx, hdx, rfl⟩ := List.mem_map.mp hq
  have hdy := List.mem_range.mp hdy
  have hdx := List.mem_range.mp hdx
  have hwidth := s.width.toNat_lt
  have hheight := s.height.toNat_lt
  have hright := hon.right
  have hbottom := hon.bottom
  exact ⟨dx, hdx, dy, hdy, rfl, toNat_add_ofNat (by omega), toNat_add_ofNat (by omega)⟩

theorem exists_mem_fillRect (hon : OnScreen s x y w h) (henabled : s.enabled = true)
    (dx dy : Nat) (hdx : dx < w.toNat) (hdy : dy < h.toNat) (c : Rgb) :
    ∃ q ∈ fillRect x y w h c, s.Shows q ∧
      s.place q.x.toNat q.y.toNat = s.place (x.toNat + dx) (y.toNat + dy) := by
  have hwidth := s.width.toNat_lt
  have hheight := s.height.toNat_lt
  have hright := hon.right
  have hbottom := hon.bottom
  have hx : (x + UInt32.ofNat dx).toNat = x.toNat + dx := toNat_add_ofNat (by omega)
  have hy : (y + UInt32.ofNat dy).toNat = y.toNat + dy := toNat_add_ofNat (by omega)
  refine ⟨⟨x + UInt32.ofNat dx, y + UInt32.ofNat dy, c⟩, ?_, ⟨henabled, ?_, ?_⟩, ?_⟩
  · exact List.mem_flatMap.mpr ⟨dy, List.mem_range.mpr hdy,
      List.mem_map.mpr ⟨dx, List.mem_range.mpr hdx, rfl⟩⟩
  · rw [UInt32.lt_iff_toNat_lt, hx]
    omega
  · rw [UInt32.lt_iff_toNat_lt, hy]
    omega
  · dsimp only
    rw [hx, hy]

/-- A rectangle is painted, and nothing else. -/
theorem paint_fillRect (hon : OnScreen s x y w h) (henabled : s.enabled = true)
    (hstride : s.width ≤ s.stride) (ha : a < s.width.toNat) :
    s.paint m (fillRect x y w h c) (s.place a b) =
      if (x.toNat ≤ a ∧ a < x.toNat + w.toNat) ∧ y.toNat ≤ b ∧ b < y.toNat + h.toNat then s.pack c
      else m (s.place a b) := by
  split
  · next hin =>
      obtain ⟨⟨hleft, hright⟩, habove, hbelow⟩ := hin
      refine paint_of_colour (fun q hq => ?_) ?_
      · obtain ⟨_, _, _, _, hcolour, _⟩ := mem_fillRect hon hq
        exact hcolour
      · have hex := exists_mem_fillRect hon henabled (a - x.toNat) (b - y.toNat)
          (by omega) (by omega) c
        rwa [Nat.add_sub_cancel' hleft, Nat.add_sub_cancel' habove] at hex
  · next hout =>
      refine Screen.paint_of_ne fun q hq hshows heq => hout ?_
      obtain ⟨dx, hdx, dy, hdy, -, hx, hy⟩ := mem_fillRect hon hq
      have hlt := UInt32.lt_iff_toNat_lt.mp hshows.left
      obtain ⟨rfl, rfl⟩ := Screen.place_injective hstride ha hlt heq
      omega

/-! ## Glyphs -/

/-- The display has room for a column of squares, for a row and more and for a glyph in each of the
squares, and the glass mode is off. -/
structure Fits (d : Display) : Prop where
  glass : d.glass = 0
  enabled : d.screen.enabled = true
  stride : d.screen.width ≤ d.screen.stride
  square : fontHeight d.font ≤ fontWidth d.font
  scale_pos : 0 < d.scale.toNat
  scale_le : d.scale.toNat ≤ 4
  width : d.cell ≤ d.screen.width
  height : d.cell < d.screen.height

instance (d : Display) : Decidable (Fits d) :=
  decidable_of_iff (d.glass = 0 ∧ d.screen.enabled = true ∧ d.screen.width ≤ d.screen.stride ∧
    fontHeight d.font ≤ fontWidth d.font ∧ 0 < d.scale.toNat ∧ d.scale.toNat ≤ 4 ∧
    d.cell ≤ d.screen.width ∧ d.cell < d.screen.height)
    ⟨fun h => ⟨h.1, h.2.1, h.2.2.1, h.2.2.2.1, h.2.2.2.2.1, h.2.2.2.2.2.1, h.2.2.2.2.2.2.1,
      h.2.2.2.2.2.2.2⟩, fun h => ⟨h.1, h.2, h.3, h.4, h.5, h.6, h.7, h.8⟩⟩

/-- A font of eight or ten columns. -/
theorem fontWidth_bounds (font : FontId) :
    8 ≤ (fontWidth font).toNat ∧ (fontWidth font).toNat ≤ 10 := by
  cases font <;> exact ⟨by decide, by decide⟩

/-- The point of a square that belongs to a glyph. -/
def Lit (d : Display) (ch : UInt8) (dx dy : Nat) : Prop :=
  dy / d.scale.toNat < (fontHeight d.font).toNat ∧
    glyphPixel d.glyph d.font ch (dy / d.scale.toNat) (UInt32.ofNat (dx / d.scale.toNat)) = true

instance (d : Display) (ch : UInt8) (dx dy : Nat) : Decidable (Lit d ch dx dy) :=
  inferInstanceAs (Decidable (_ ∧ _))

namespace Fits

theorem no_glass (hd : Fits d) : ¬d.glass > 0 := by
  rw [hd.glass]
  exact UInt32.lt_irrefl 0

/-- `READY` after `init`. -/
theorem ready (hd : Fits d) : (d.screen.width != 0 && d.screen.height != 0) = true := by
  have henabled := hd.enabled
  unfold Screen.enabled at henabled
  rw [Bool.and_eq_true, Bool.and_eq_true] at henabled
  exact Bool.and_eq_true_iff.mpr ⟨henabled.1.2, henabled.2⟩

theorem toNat_cell (hd : Fits d) : d.cell.toNat = (fontWidth d.font).toNat * d.scale.toNat := by
  have hle := Nat.mul_le_mul (fontWidth_bounds d.font).2 hd.scale_le
  rw [Display.cell, UInt32.toNat_mul]
  exact Nat.mod_eq_of_lt (Nat.lt_of_le_of_lt hle (by decide))

theorem le_cell (hd : Fits d) : 8 ≤ d.cell.toNat := by
  rw [hd.toNat_cell]
  exact Nat.le_trans (fontWidth_bounds d.font).1 (Nat.le_mul_of_pos_right _ hd.scale_pos)

theorem cell_pos (hd : Fits d) : 0 < d.cell.toNat := Nat.lt_of_lt_of_le (by decide) hd.le_cell

theorem cell_le_width (hd : Fits d) : d.cell.toNat ≤ d.screen.width.toNat :=
  UInt32.le_iff_toNat_le.mp hd.width

theorem cell_lt_height (hd : Fits d) : d.cell.toNat < d.screen.height.toNat :=
  UInt32.lt_iff_toNat_lt.mp hd.height

/-- The square of a point of a glyph. -/
theorem toNat_dot (hd : Fits d) {n : Nat} (hn : n < (fontWidth d.font).toNat)
    (hx : x.toNat + d.cell.toNat ≤ 2 ^ 32) :
    (x + UInt32.ofNat n * d.scale).toNat = x.toNat + n * d.scale.toNat ∧
      n * d.scale.toNat + d.scale.toNat ≤ d.cell.toNat := by
  have hle : (n + 1) * d.scale.toNat ≤ (fontWidth d.font).toNat * d.scale.toNat :=
    Nat.mul_le_mul_right _ hn
  rw [Nat.succ_mul, ← hd.toNat_cell] at hle
  have hpos := hd.scale_pos
  have hfont := (fontWidth_bounds d.font).2
  have hmod : n % 2 ^ 32 = n := Nat.mod_eq_of_lt (by omega)
  have hmul : (UInt32.ofNat n * d.scale).toNat = n * d.scale.toNat := by
    rw [UInt32.toNat_mul, UInt32.toNat_ofNat', hmod]
    exact Nat.mod_eq_of_lt (by omega)
  refine ⟨?_, hle⟩
  rw [UInt32.toNat_add, hmul]
  exact Nat.mod_eq_of_lt (by omega)

end Fits

/-- A square that lies on the screen. -/
abbrev SquareOn (d : Display) (x y : UInt32) : Prop := OnScreen d.screen x y d.cell d.cell

theorem mem_glyphPlots {ch : UInt8} {q : Plot} (hq : q ∈ d.glyphPlots ch x y c) :
    ∃ row < (fontHeight d.font).toNat, ∃ col < (fontWidth d.font).toNat,
      glyphPixel d.glyph d.font ch row (UInt32.ofNat col) = true ∧
      q ∈ fillRect (x + UInt32.ofNat col * d.scale) (y + UInt32.ofNat row * d.scale) d.scale
        d.scale c := by
  obtain ⟨row, hrow, hq⟩ := List.mem_flatMap.mp hq
  obtain ⟨col, hcol, hq⟩ := List.mem_flatMap.mp hq
  split at hq
  · next hpixel =>
      exact ⟨row, List.mem_range.mp hrow, col, List.mem_range.mp hcol, hpixel, hq⟩
  · cases hq

theorem colour_glyphPlots {ch : UInt8} {q : Plot} (hq : q ∈ d.glyphPlots ch x y c) : q.c = c := by
  obtain ⟨row, -, col, -, -, hq⟩ := mem_glyphPlots hq
  obtain ⟨dy, -, hq⟩ := List.mem_flatMap.mp hq
  obtain ⟨dx, -, rfl⟩ := List.mem_map.mp hq
  rfl

/-- A dot of a glyph lies on the screen. -/
theorem SquareOn.dot (hd : Fits d) (hon : SquareOn d x y) {row col : Nat}
    (hrow : row < (fontHeight d.font).toNat) (hcol : col < (fontWidth d.font).toNat) :
    OnScreen d.screen (x + UInt32.ofNat col * d.scale) (y + UInt32.ofNat row * d.scale) d.scale
        d.scale ∧
      (x + UInt32.ofNat col * d.scale).toNat = x.toNat + col * d.scale.toNat ∧
      (y + UInt32.ofNat row * d.scale).toNat = y.toNat + row * d.scale.toNat := by
  have hwidth := d.screen.width.toNat_lt
  have hheight := d.screen.height.toNat_lt
  have hright := hon.right
  have hbottom := hon.bottom
  obtain ⟨hx, hxle⟩ := hd.toNat_dot (x := x) hcol (by omega)
  have hsquare := UInt32.le_iff_toNat_le.mp hd.square
  obtain ⟨hy, hyle⟩ := hd.toNat_dot (x := y) (Nat.lt_of_lt_of_le hrow hsquare) (by omega)
  exact ⟨⟨by omega, by omega⟩, hx, hy⟩

/-- The points of a glyph are painted, and nothing else. -/
theorem paint_glyphPlots (hd : Fits d) (hon : SquareOn d x y) {ch : UInt8}
    (ha : a < d.screen.width.toNat) :
    d.screen.paint m (d.glyphPlots ch x y c) (d.screen.place a b) =
      if ((x.toNat ≤ a ∧ a < x.toNat + d.cell.toNat) ∧ y.toNat ≤ b ∧ b < y.toNat + d.cell.toNat) ∧
        Lit d ch (a - x.toNat) (b - y.toNat) then d.screen.pack c
      else m (d.screen.place a b) := by
  have hpos := hd.scale_pos
  split
  · next hin =>
      obtain ⟨⟨⟨hleft, hright⟩, habove, hbelow⟩, hrow, hpixel⟩ := hin
      have hcol : (a - x.toNat) / d.scale.toNat < (fontWidth d.font).toNat := by
        rw [Nat.div_lt_iff_lt_mul hpos, ← hd.toNat_cell]
        omega
      obtain ⟨hdot, hx, hy⟩ := hon.dot hd hrow hcol
      have hex := exists_mem_fillRect hdot hd.enabled ((a - x.toNat) % d.scale.toNat)
        ((b - y.toNat) % d.scale.toNat) (Nat.mod_lt _ hpos) (Nat.mod_lt _ hpos) c
      obtain ⟨q, hq, hshows, hplace⟩ := hex
      refine paint_of_colour (fun q hq => colour_glyphPlots hq) ⟨q, ?_, hshows, ?_⟩
      · refine List.mem_flatMap.mpr ⟨_, List.mem_range.mpr hrow, ?_⟩
        refine List.mem_flatMap.mpr ⟨_, List.mem_range.mpr hcol, ?_⟩
        rwa [if_pos hpixel]
      · rw [hplace, hx, hy, Nat.add_assoc, Nat.add_assoc, Nat.div_add_mod', Nat.div_add_mod',
          Nat.add_sub_cancel' hleft, Nat.add_sub_cancel' habove]
  · next hout =>
      refine Screen.paint_of_ne fun q hq hshows heq => hout ?_
      obtain ⟨row, hrow, col, hcol, hpixel, hq⟩ := mem_glyphPlots hq
      obtain ⟨hdot, hx, hy⟩ := hon.dot hd hrow hcol
      obtain ⟨dx, hdx, dy, hdy, -, hqx, hqy⟩ := mem_fillRect hdot hq
      have hlt := UInt32.lt_iff_toNat_lt.mp hshows.left
      obtain ⟨rfl, rfl⟩ := Screen.place_injective hd.stride ha hlt heq
      rw [hx] at hqx
      rw [hy] at hqy
      have hxle : (col + 1) * d.scale.toNat ≤ (fontWidth d.font).toNat * d.scale.toNat :=
        Nat.mul_le_mul_right _ hcol
      have hsquare := UInt32.le_iff_toNat_le.mp hd.square
      have hyle : (row + 1) * d.scale.toNat ≤ (fontWidth d.font).toNat * d.scale.toNat :=
        Nat.mul_le_mul_right _ (Nat.lt_of_lt_of_le hrow hsquare)
      rw [Nat.succ_mul, ← hd.toNat_cell] at hxle hyle
      have hcol' : (q.x.toNat - x.toNat) / d.scale.toNat = col := by
        rw [hqx, Nat.add_assoc, Nat.add_sub_cancel_left, Nat.mul_comm, Nat.mul_add_div hpos,
          Nat.div_eq_of_lt hdx, Nat.add_zero]
      have hrow' : (q.y.toNat - y.toNat) / d.scale.toNat = row := by
        rw [hqy, Nat.add_assoc, Nat.add_sub_cancel_left, Nat.mul_comm, Nat.mul_add_div hpos,
          Nat.div_eq_of_lt hdy, Nat.add_zero]
      refine ⟨⟨⟨by omega, by omega⟩, by omega, by omega⟩, ?_⟩
      rw [Lit, hcol', hrow']
      exact ⟨hrow, hpixel⟩

end PureOS.Terminal
