import Mathlib.Algebra.GroupWithZero.Nat
import PureOS.Graphics.Framebuffer

set_option autoImplicit false

/-!
# Graphics: the blur and the glass (`framebuffer.rs`)

`box_blur` writes the means of nine points over the points it still needs, and keeps the lines it
has not written yet in three rows that change their places.  The glass behind a text is a blur with
white over it and an edge around it.
-/

namespace PureOS.Graphics

/-! ## The code -/

/-- `[Rgb; 256]`. -/
abbrev Row := Nat → Rgb

/-- `Rgb(0, 0, 0)`. -/
def black : Rgb := ⟨0, 0, 0⟩

/-- `Rgb(255, 255, 255)`. -/
def white : Rgb := ⟨255, 255, 255⟩

/-- The memory, and `row0`, `row1` and `row2`. -/
structure Blur where
  words : Words
  row0 : Row
  row1 : Row
  row2 : Row

/-- A sum of bytes in 32 bits, and a ninth of it. -/
def ninth (values : List UInt8) : UInt8 :=
  (values.foldl (fun sum (v : UInt8) => sum + v.toUInt32) (0 : UInt32) / 9).toUInt8

/-- The points that `ky` and `kx` go through. -/
def window (row0 row1 row2 : Row) (dx : Nat) : List Rgb :=
  [row0, row1, row2].flatMap fun row => (List.range 3).map fun kx => row (dx + kx - 1)

/-- `Rgb((r / 9) as u8, (g / 9) as u8, (b / 9) as u8)`. -/
def meanColor (points : List Rgb) : Rgb :=
  ⟨ninth (points.map Rgb.r), ninth (points.map Rgb.g), ninth (points.map Rgb.b)⟩

section

variable (s : Screen) (x y : UInt32) (cw : Nat)

/-- The loop that reads a line. -/
def loadRow (words : Words) (line : UInt32) (old : Row) : Row := fun dx =>
  if dx < cw then (s.get words (x + dx.toUInt32) line).getD black else old dx

/-- A turn of the loop over the lines. -/
def blurLine (blur : Blur) (dy : Nat) : Blur :=
  let row2 := loadRow s x cw blur.words (y + dy.toUInt32 + 1) blur.row2
  let words := s.paint blur.words ((List.range' 1 (cw - 2)).map fun dx =>
    ⟨x + dx.toUInt32, y + dy.toUInt32, meanColor (window blur.row0 blur.row1 row2 dx)⟩)
  -- The first row takes the place of the last one, and the others move up.
  ⟨words, blur.row1, row2, blur.row0⟩

/-- `box_blur`. -/
def boxBlur (words : Words) (w h : UInt32) : Words :=
  if w < 3 ∨ h < 3 then words
  else
    let cw := min w.toNat 256
    if cw < 3 then words
    else
      let row0 := loadRow s x cw words y fun _ => black
      let row1 := loadRow s x cw words (y + 1) fun _ => black
      ((List.range' 1 (h.toNat - 2)).foldl (blurLine s x y cw)
        ⟨words, row0, row1, fun _ => black⟩).words

end

/-- `alpha_blend`. -/
def alphaBlend (base overlay : Rgb) (alpha : UInt8) : Rgb :=
  let a := alpha.toUInt32
  let invA := 255 - a
  let mix (b o : UInt8) : UInt8 := ((b.toUInt32 * invA + o.toUInt32 * a) / 255).toUInt8
  ⟨mix base.r overlay.r, mix base.g overlay.g, mix base.b overlay.b⟩

section

variable (s : Screen)

/-- A point that is read, blended with white and put back. -/
def frostPoint (alpha : UInt8) (words : Words) (px py : UInt32) : Words :=
  match s.get words px py with
  | some base => s.put words ⟨px, py, alphaBlend base white alpha⟩
  | none => words

/-- The loops that frost the points of a rectangle. -/
def frost (alpha : UInt8) (words : Words) (x y w h : UInt32) : Words :=
  (List.range h.toNat).foldl (fun words dy => (List.range w.toNat).foldl (fun words dx =>
    frostPoint s alpha words (x + dx.toUInt32) (y + dy.toUInt32)) words) words

/-- The edge of a rectangle. -/
def edge (x y w h : UInt32) (c : Rgb) : List Plot :=
  ((List.range w.toNat).flatMap fun dx =>
    [⟨x + dx.toUInt32, y, c⟩, ⟨x + dx.toUInt32, y + h - 1, c⟩]) ++
  (List.range h.toNat).flatMap fun dy =>
    [⟨x, y + dy.toUInt32, c⟩, ⟨x + w - 1, y + dy.toUInt32, c⟩]

/-- `draw_glass_background`. -/
def drawGlassBackground (words : Words) (x y w h : UInt32) (frostAlpha : UInt8) : Words :=
  if w = 0 ∨ h = 0 then words
  else
    let words := if w ≤ 64 ∧ h ≤ 64 then boxBlur s x y words w h else words
    let words :=
      if h ≤ 128 ∧ w ≤ 512 then frost s frostAlpha words x y w h
      else s.paint words (fillRect x y w h (alphaBlend ⟨30, 30, 40⟩ white frostAlpha))
    if w ≤ 128 ∧ h ≤ 128 then s.paint words (edge x y w h (alphaBlend black white 80)) else words

end

/-! ## What a blur is -/

/-- The colour of a point. -/
def pixel (s : Screen) (words : Words) (px py : Nat) : Rgb := s.unpack (words (s.place px py))

/-- The nine points around a point. -/
def around (s : Screen) (words : Words) (px py : Nat) : List Rgb :=
  (List.range 3).flatMap fun ky => (List.range 3).map fun kx =>
    pixel s words (px + kx - 1) (py + ky - 1)

/-- The mean of nine colours, channel by channel and rounded down. -/
structure IsMean (points : List Rgb) (c : Rgb) : Prop where
  nine : points.length = 9
  red : c.r.toNat = (points.map fun point => point.r.toNat).sum / 9
  green : c.g.toNat = (points.map fun point => point.g.toNat).sum / 9
  blue : c.b.toNat = (points.map fun point => point.b.toNat).sum / 9

/-- The points of a rectangle that are not on its edge. -/
structure Interior (x y w h : UInt32) (px py : Nat) : Prop where
  left : x.toNat < px
  right : px + 1 < x.toNat + w.toNat
  top : y.toNat < py
  bottom : py + 1 < y.toNat + h.toNat

/-! ## Means -/

section

variable {s : Screen} {x y w h : UInt32} {words : Words} {points : List Rgb}

theorem toNat_foldl_add (values : List UInt8) (sum : UInt32)
    (hfits : sum.toNat + 255 * values.length < 2 ^ 32) :
    (values.foldl (fun sum (v : UInt8) => sum + v.toUInt32) sum).toNat =
      sum.toNat + (values.map UInt8.toNat).sum := by
  induction values generalizing sum with
  | nil => rfl
  | cons v values ih =>
      have hv := v.toNat_lt
      have hsum : (sum + v.toUInt32).toNat = sum.toNat + v.toNat := by
        rw [UInt32.toNat_add, UInt8.toNat_toUInt32]
        exact Nat.mod_eq_of_lt (by rw [List.length_cons] at hfits; omega)
      rw [List.length_cons] at hfits
      rw [List.foldl_cons, ih _ (by omega), hsum, List.map_cons, List.sum_cons, Nat.add_assoc]

theorem sum_le (values : List UInt8) : (values.map UInt8.toNat).sum ≤ 255 * values.length := by
  induction values with
  | nil => exact Nat.le_refl _
  | cons v values ih =>
      have hv := v.toNat_lt
      rw [List.map_cons, List.sum_cons, List.length_cons]
      omega

theorem toNat_ninth {values : List UInt8} (h : values.length = 9) :
    (ninth values).toNat = (values.map UInt8.toNat).sum / 9 := by
  have hsum := toNat_foldl_add values 0 (by rw [h]; decide)
  have hle := sum_le values
  rw [ninth, UInt32.toNat_toUInt8, UInt32.toNat_div, hsum]
  simp only [UInt32.toNat_zero, UInt32.reduceToNat]
  omega

theorem isMean_meanColor (h : points.length = 9) : IsMean points (meanColor points) where
  nine := h
  red := by
    rw [meanColor, toNat_ninth (by rw [List.length_map, h]), List.map_map]
    rfl
  green := by
    rw [meanColor, toNat_ninth (by rw [List.length_map, h]), List.map_map]
    rfl
  blue := by
    rw [meanColor, toNat_ninth (by rw [List.length_map, h]), List.map_map]
    rfl

theorem length_around (s : Screen) (words : Words) (px py : Nat) :
    (around s words px py).length = 9 := rfl

/-! ## The lines -/

/-- The points of the first lines that are not on the edge. -/
def Above (x y w : UInt32) (k px py : Nat) : Prop :=
  (x.toNat < px ∧ px + 1 < x.toNat + w.toNat) ∧ y.toNat < py ∧ py ≤ y.toNat + k

instance (x y w : UInt32) (k px py : Nat) : Decidable (Above x y w k px py) :=
  inferInstanceAs (Decidable ((_ ∧ _) ∧ _ ∧ _))

/-- The memory and the rows after some turns: the lines above are done, and the rows hold the two
lines that the next turn needs as they were. -/
structure Blurred (s : Screen) (words : Words) (x y w : UInt32) (k : Nat) (blur : Blur) :
    Prop where
  row0 : ∀ dx < w.toNat, blur.row0 dx = pixel s words (x.toNat + dx) (y.toNat + k)
  row1 : ∀ dx < w.toNat, blur.row1 dx = pixel s words (x.toNat + dx) (y.toNat + k + 1)
  words : ∀ px < s.width.toNat, ∀ py < s.height.toNat, blur.words (s.place px py) =
    if Above x y w k px py then s.pack (meanColor (around s words px py))
    else words (s.place px py)

/-- A rectangle on the screen. -/
structure Inside (s : Screen) (x y w h : UInt32) : Prop where
  enabled : s.enabled = true
  stride : s.width ≤ s.stride
  right : x.toNat + w.toNat ≤ s.width.toNat
  bottom : y.toNat + h.toNat ≤ s.height.toNat

/-- A line that is on the screen is read into a row. -/
theorem loadRow_eq (hin : Inside s x y w h) {line : UInt32} (hline : line.toNat < s.height.toNat)
    (old : Row) {dx : Nat} (hdx : dx < w.toNat) :
    loadRow s x w.toNat words line old dx = pixel s words (x.toNat + dx) line.toNat := by
  have hright := hin.right
  have hwidth := s.width.toNat_lt
  have hx : (x + dx.toUInt32).toNat = x.toNat + dx := toNat_add_ofNat (by omega)
  have hget : s.get words (x + dx.toUInt32) line = some _ :=
    Screen.get_of_lt hin.enabled (UInt32.lt_iff_toNat_lt.mpr (by omega))
      (UInt32.lt_iff_toNat_lt.mpr hline)
  rw [loadRow, if_pos hdx, hget, hx]
  rfl

/-- The window around a point, from the three lines around it. -/
theorem window_eq {row0 row1 row2 : Row} {k dx : Nat}
    (h0 : ∀ dx < w.toNat, row0 dx = pixel s words (x.toNat + dx) (y.toNat + k))
    (h1 : ∀ dx < w.toNat, row1 dx = pixel s words (x.toNat + dx) (y.toNat + k + 1))
    (h2 : ∀ dx < w.toNat, row2 dx = pixel s words (x.toNat + dx) (y.toNat + k + 2))
    (hdx : 1 ≤ dx ∧ dx + 1 < w.toNat) :
    window row0 row1 row2 dx = around s words (x.toNat + dx) (y.toNat + (k + 1)) := by
  have hrow {row : Row} {line line' : Nat}
      (h : ∀ dx < w.toNat, row dx = pixel s words (x.toNat + dx) line) (hline : line = line') :
      (List.range 3).map (fun kx => row (dx + kx - 1)) =
        (List.range 3).map fun kx => pixel s words (x.toNat + dx + kx - 1) line' := by
    refine List.map_congr_left fun kx hkx => ?_
    have hkx := List.mem_range.mp hkx
    rw [h _ (by omega), hline, show x.toNat + (dx + kx - 1) = x.toNat + dx + kx - 1 by omega]
  have hfirst := @hrow row0 _ (y.toNat + (k + 1) + 0 - 1) h0 (by omega)
  have hsecond := @hrow row1 _ (y.toNat + (k + 1) + 1 - 1) h1 (by omega)
  have hthird := @hrow row2 _ (y.toNat + (k + 1) + 2 - 1) h2 (by omega)
  exact congrArg₂ (· ++ ·) hfirst (congrArg₂ (· ++ ·) hsecond (congrArg (· ++ []) hthird))

/-- The calls of `put` of a turn. -/
def linePlots (x line : UInt32) (cw : Nat) (c : Nat → Rgb) : List Plot :=
  (List.range' 1 (cw - 2)).map fun dx => ⟨x + dx.toUInt32, line, c dx⟩

/-- They change the points of their line that are not at its ends. -/
theorem paint_linePlots (hin : Inside s x y w h) {line : UInt32}
    (hline : line.toNat < s.height.toNat) (c : Nat → Rgb) {px py : Nat}
    (hpx : px < s.width.toNat) :
    s.paint words (linePlots x line w.toNat c) (s.place px py) =
      if (x.toNat < px ∧ px + 1 < x.toNat + w.toNat) ∧ py = line.toNat then
        s.pack (c (px - x.toNat))
      else words (s.place px py) := by
  have hright := hin.right
  have hwidth := s.width.toNat_lt
  have hplot {q : Plot} (hq : q ∈ linePlots x line w.toNat c) :
      ∃ dx, (1 ≤ dx ∧ dx + 1 < w.toNat) ∧ q.x.toNat = x.toNat + dx ∧ q.y = line ∧ q.c = c dx := by
    obtain ⟨dx, hdx, rfl⟩ := List.mem_map.mp hq
    have hdx := List.mem_range'_1.mp hdx
    exact ⟨dx, by omega, toNat_add_ofNat (by omega), rfl, rfl⟩
  split
  · rename_i hpoint
    obtain ⟨⟨hleft, hlast⟩, rfl⟩ := hpoint
    refine Screen.paint_of_mem (P := fun word => word = s.pack (c (px - x.toNat))) ?_ (Or.inr ?_)
    · intro q hq _ hplace
      obtain ⟨dx, hdx, hx, rfl, hc⟩ := hplot hq
      have hsame := Screen.place_injective hin.stride hpx (by omega) hplace
      rw [hc, ← hsame.1, hx, Nat.add_sub_cancel_left]
    · have hx : (x + (px - x.toNat).toUInt32).toNat = px := by
        rw [toNat_add_ofNat (by omega)]
        omega
      refine ⟨⟨x + (px - x.toNat).toUInt32, line, c (px - x.toNat)⟩,
        List.mem_map.mpr ⟨px - x.toNat, List.mem_range'_1.mpr (by omega), rfl⟩,
        ⟨hin.enabled, UInt32.lt_iff_toNat_lt.mpr ?_, UInt32.lt_iff_toNat_lt.mpr hline⟩, ?_⟩
      · rw [hx]
        exact hpx
      · rw [hx]
  · rename_i hpoint
    refine Screen.paint_of_ne fun q hq _ hplace => hpoint ?_
    obtain ⟨dx, hdx, hx, rfl, -⟩ := hplot hq
    have hsame := Screen.place_injective hin.stride hpx (by omega) hplace
    omega

/-- A turn. -/
theorem Blurred.line {k : Nat} {blur : Blur} (hin : Inside s x y w h)
    (hblur : Blurred s words x y w k blur) (hk : k + 2 < h.toNat) :
    Blurred s words x y w (k + 1) (blurLine s x y w.toNat blur (k + 1)) := by
  have hbottom := hin.bottom
  have hright := hin.right
  have hheight := s.height.toNat_lt
  have hline : (y + (k + 1).toUInt32).toNat = y.toNat + (k + 1) := toNat_add_ofNat (by omega)
  have hnext : (y + (k + 1).toUInt32 + 1).toNat = y.toNat + k + 2 := by
    rw [UInt32.toNat_add, hline, show (1 : UInt32).toNat = 1 from rfl]
    omega
  -- The line below has not been written to.
  have hrow2 : ∀ dx < w.toNat, (blurLine s x y w.toNat blur (k + 1)).row1 dx =
      pixel s words (x.toNat + dx) (y.toNat + k + 2) := by
    intro dx hdx
    refine (loadRow_eq hin (by omega) _ hdx).trans ?_
    rw [hnext, pixel, hblur.words _ (by omega) _ (by omega), if_neg, pixel]
    rintro ⟨-, -, hlow⟩
    omega
  constructor
  · exact hblur.row1
  · exact hrow2
  · intro px hpx py hpy
    have hpaint := @paint_linePlots s x y w h blur.words hin (y + (k + 1).toUInt32) (by omega)
      (fun dx => meanColor
        (window blur.row0 blur.row1 (blurLine s x y w.toNat blur (k + 1)).row1 dx)) px py hpx
    refine Eq.trans hpaint ?_
    rw [hblur.words px hpx py hpy, hline]
    by_cases hpoint : (x.toNat < px ∧ px + 1 < x.toNat + w.toNat) ∧ py = y.toNat + (k + 1)
    · obtain ⟨hcolumns, rfl⟩ := hpoint
      rw [if_pos ⟨hcolumns, rfl⟩, if_pos ⟨hcolumns, by omega, Nat.le_refl _⟩,
        window_eq hblur.row0 hblur.row1 hrow2 (by omega), Nat.add_sub_cancel' (by omega)]
    · rw [if_neg hpoint]
      refine ite_congr (propext ⟨?_, ?_⟩) (fun _ => rfl) (fun _ => rfl)
      · rintro ⟨hcolumns, habove, hle⟩
        exact ⟨hcolumns, habove, by omega⟩
      · rintro ⟨hcolumns, habove, hle⟩
        exact ⟨hcolumns, habove, by omega⟩

/-- The loop. -/
theorem Blurred.lines {k : Nat} {blur : Blur} (hin : Inside s x y w h)
    (hblur : Blurred s words x y w 0 blur) (hk : k + 1 < h.toNat) :
    Blurred s words x y w k ((List.range' 1 k).foldl (blurLine s x y w.toNat) blur) := by
  induction k with
  | zero => exact hblur
  | succ k ih =>
      rw [List.range'_concat, List.foldl_append, Nat.one_mul, Nat.add_comm 1 k]
      exact (ih (by omega)).line hin (by omega)

/-- The blurred points hold the means of what was around them, and nothing else is written to. -/
theorem boxBlur_correct (hin : Inside s x y w h) (hwide : 3 ≤ w.toNat) (hnarrow : w.toNat ≤ 256)
    (htall : 3 ≤ h.toNat) (px py : UInt32) (hpx : px < s.width) (hpy : py < s.height) :
    (Interior x y w h px.toNat py.toNat → ∃ c, s.get (boxBlur s x y words w h) px py = some c ∧
      IsMean (around s words px.toNat py.toNat) c) ∧
    (¬Interior x y w h px.toNat py.toNat →
      boxBlur s x y words w h (s.place px.toNat py.toNat) = words (s.place px.toNat py.toNat)) := by
  have hbottom := hin.bottom
  have hright := hin.right
  have hheight := s.height.toNat_lt
  have hnext : (y + 1).toNat = y.toNat + 1 := by
    rw [UInt32.toNat_add, show (1 : UInt32).toNat = 1 from rfl]
    omega
  have hstart : Blurred s words x y w 0 ⟨words, loadRow s x w.toNat words y fun _ => black,
      loadRow s x w.toNat words (y + 1) fun _ => black, fun _ => black⟩ := by
    constructor
    · exact fun dx hdx => @loadRow_eq s x y w h words hin y (by omega) (fun _ => black) dx hdx
    · intro dx hdx
      refine (@loadRow_eq s x y w h words hin (y + 1) (by omega) (fun _ => black) dx hdx).trans ?_
      rw [hnext]
    · intro px _ py _
      exact (if_neg fun h => absurd h.2 (by omega)).symm
  have hrun : boxBlur s x y words w h = ((List.range' 1 (h.toNat - 2)).foldl
      (blurLine s x y w.toNat) ⟨words, loadRow s x w.toNat words y fun _ => black,
        loadRow s x w.toNat words (y + 1) fun _ => black, fun _ => black⟩).words := by
    have hsmall : ¬(w < 3 ∨ h < 3) := by
      rw [UInt32.lt_iff_toNat_lt, UInt32.lt_iff_toNat_lt, show (3 : UInt32).toNat = 3 from rfl]
      omega
    rw [boxBlur, if_neg hsmall, Nat.min_eq_left hnarrow]
    exact if_neg (by omega)
  have hdone := (@Blurred.lines s x y w h words (h.toNat - 2) _ hin hstart (by omega)).words px.toNat
    (UInt32.lt_iff_toNat_lt.mp hpx) py.toNat (UInt32.lt_iff_toNat_lt.mp hpy)
  rw [← hrun] at hdone
  constructor
  · rintro ⟨hleft, hlast, htop, hend⟩
    rw [if_pos ⟨⟨hleft, hlast⟩, htop, by omega⟩] at hdone
    refine ⟨_, Screen.get_of_lt hin.enabled hpx hpy, ?_⟩
    rw [hdone, Screen.unpack_pack]
    exact isMean_meanColor (length_around s words _ _)
  · intro houter
    rw [hdone]
    refine if_neg ?_
    rintro ⟨⟨hleft, hlast⟩, htop, hend⟩
    exact houter ⟨hleft, hlast, htop, by omega⟩

/-- A screen with a word more in a line than it shows. -/
def narrowScreen : Screen := ⟨0x80000000, 4, 4, 5, fmtRgb⟩

/-- The point in the middle of the smallest rectangle. -/
theorem boxBlur_correct_smallest :
    ∃ c, narrowScreen.get (boxBlur narrowScreen 1 0 Nat.toUInt32 3 3) 2 1 = some c ∧
      IsMean (around narrowScreen Nat.toUInt32 2 1) c :=
  (boxBlur_correct ⟨by decide, by decide, by decide, by decide⟩ (by decide) (by decide) (by decide)
    2 1 (by decide) (by decide)).1 ⟨by decide, by decide, by decide, by decide⟩

example : narrowScreen.get (boxBlur narrowScreen 1 0 Nat.toUInt32 3 3) 2 1 = some ⟨7, 0, 0⟩ := by
  decide +kernel

end

/-! ## What the glass leaves alone -/

section

variable {s : Screen} (hstride : s.width ≤ s.stride)
include hstride

theorem sameOutside_frost (alpha : UInt8) (m : Words) (x y w h : UInt32) :
    SameOutside s m (frost s alpha m x y w h) := by
  refine sameOutside_foldl (w := id) (fun m dy => ?_) _ m
  refine sameOutside_foldl (w := id) (fun m dx => ?_) _ m
  dsimp only [id_eq]
  unfold frostPoint
  split
  · exact sameOutside_put hstride _ _
  · exact .refl _

theorem sameOutside_boxBlur (m : Words) (x y w h : UInt32) :
    SameOutside s m (boxBlur s x y m w h) := by
  unfold boxBlur
  split
  · exact .refl m
  dsimp only
  split
  · exact .refl m
  · exact sameOutside_foldl (w := Blur.words) (fun blur dy => sameOutside_paint hstride _ _) _ _

theorem sameOutside_drawGlassBackground (m : Words) (x y w h : UInt32) (alpha : UInt8) :
    SameOutside s m (drawGlassBackground s m x y w h alpha) := by
  unfold drawGlassBackground
  split
  · exact .refl m
  dsimp only
  have hblur : SameOutside s m (if w ≤ 64 ∧ h ≤ 64 then boxBlur s x y m w h else m) := by
    split
    · exact sameOutside_boxBlur hstride m x y w h
    · exact .refl m
  refine hblur.trans ?_
  generalize (if w ≤ 64 ∧ h ≤ 64 then boxBlur s x y m w h else m) = m
  have hfrost : SameOutside s m (if h ≤ 128 ∧ w ≤ 512 then frost s alpha m x y w h
      else s.paint m (fillRect x y w h (alphaBlend ⟨30, 30, 40⟩ white alpha))) := by
    split
    · exact sameOutside_frost hstride alpha m x y w h
    · exact sameOutside_paint hstride _ _
  split
  · exact hfrost.trans (sameOutside_paint hstride _ _)
  · exact hfrost

end

end PureOS.Graphics
