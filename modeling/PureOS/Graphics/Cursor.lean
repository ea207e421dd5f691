import Mathlib.Data.List.Basic
import PureOS.Foundation.Profile
import PureOS.Foundation.Run
import PureOS.Graphics.Blur

set_option autoImplicit false

/-!
# Graphics: the mouse cursor (`hid.rs`)

What is under the cursor is saved before it is drawn, together with its place, and comes back when
the cursor is hidden or moved.  Only `init_mouse` forgets that the cursor is visible.
-/

namespace PureOS.Graphics

open PureOS.Foundation

/-! ## The code -/

/-- `CURSOR_W` and `CURSOR_H`, and the same for what is saved. -/
def cursorW : Nat := 12

def cursorH : Nat := 16

def cursorBgW : Nat := cursorW + 2

def cursorBgH : Nat := cursorH + 2

/-- `CURSOR_BITMAP`. -/
def cursorBitmap : List Nat :=
  [0b100000000000, 0b110000000000, 0b111000000000, 0b111100000000, 0b111110000000, 0b111111000000,
    0b111111100000, 0b111111110000, 0b111111111000, 0b111111111100, 0b111111111110,
    0b111111111111, 0b111111100000, 0b110011100000, 0b000001100000, 0b000000110000]

/-- `CURSOR_BITMAP[row] & (1 << (CURSOR_W - 1 - col)) != 0`. -/
def inGlyph (row col : Nat) : Bool := (cursorBitmap.getD row 0).testBit (cursorW - 1 - col)

/-- A result of `i32` arithmetic, which goes around at its ends. -/
def i32 (v : Int) : Int := Int.bmod v (2 ^ 32)

/-- The variables of the mouse, and the memory of the screen. -/
structure Pointer where
  mouseX : Int
  mouseY : Int
  buttons : UInt8
  /-- `CURSOR_BG`. -/
  bg : Nat → UInt32
  visible : Bool
  dirty : Bool
  bgSavedX : Int
  bgSavedY : Int
  words : Words

/-- The loops over rows and columns. -/
def cells (rows cols : Nat) : List (Nat × Nat) :=
  (List.range rows).flatMap fun row => (List.range cols).map fun col => (row, col)

/-- A coordinate of what is saved around a position. -/
def boxAt (v : Int) (n : Nat) : Int := i32 (i32 (v - 1) + n)

/-- A call of `put` that is left out for a negative coordinate. -/
def plotAt (px py : Int) (c : Rgb) : Option Plot :=
  if px ≥ 0 ∧ py ≥ 0 then some ⟨asU32 px, asU32 py, c⟩ else none

/-- The loop of `draw_cursor` that fills the glyph. -/
def glyphPlots (x y : Int) : List Plot :=
  (cells cursorH cursorW).filterMap fun (row, col) =>
    if inGlyph row col then plotAt (i32 (x + col)) (i32 (y + row)) white else none

/-- The loop of `draw_cursor` that draws the outline. -/
def outlinePlots (x y : Int) : List Plot :=
  (cells cursorH cursorW).flatMap fun (row, col) =>
    if inGlyph row col then
      [((-1 : Int), (0 : Int)), (1, 0), (0, -1), (0, 1)].filterMap fun (ndx, ndy) =>
        let nx := (col : Int) + ndx
        let ny := (row : Int) + ndy
        if nx < 0 ∨ nx ≥ cursorW ∨ ny < 0 ∨ ny ≥ cursorH then none
        else if inGlyph ny.toNat nx.toNat then none
        else plotAt (i32 (i32 (x + col) + ndx)) (i32 (i32 (y + row) + ndy)) black
    else []

section

variable (s : Screen)

/-- What `save_cursor_bg` saves of a point. -/
def packedAt (words : Words) (fx fy : Int) : UInt32 :=
  if fx ≥ 0 ∧ fy ≥ 0 ∧ fx < asI32 s.width ∧ fy < asI32 s.height then
    match s.get words (asU32 fx) (asU32 fy) with
    | some c => packBytes c.r c.g c.b
    | none => 0
  else 0

/-- `save_cursor_bg`: entry `row * CURSOR_BG_W + col` is the one of that row and column. -/
def saveCursorBg (d : Pointer) : Pointer :=
  { d with
    bgSavedX := d.mouseX
    bgSavedY := d.mouseY
    bg := fun i => packedAt s d.words (boxAt d.mouseX (i % cursorBgW))
      (boxAt d.mouseY (i / cursorBgW)) }

/-- The calls of `put` of `restore_cursor_bg`. -/
def restorePlots (d : Pointer) : List Plot :=
  (cells cursorBgH cursorBgW).filterMap fun (row, col) =>
    let packed := d.bg (row * cursorBgW + col)
    plotAt (boxAt d.bgSavedX col) (boxAt d.bgSavedY row)
      ⟨lowByte packed, midByte packed, highByte packed⟩

/-- `restore_cursor_bg`. -/
def restoreCursorBg (d : Pointer) : Pointer := { d with words := s.paint d.words (restorePlots d) }

/-- `draw_cursor`. -/
def drawCursor (d : Pointer) : Pointer :=
  { d with
    words := s.paint d.words (glyphPlots d.mouseX d.mouseY ++ outlinePlots d.mouseX d.mouseY)
    visible := true
    dirty := false }

/-- `hide_cursor`. -/
def hideCursor (d : Pointer) : Pointer :=
  if d.visible then { restoreCursorBg s d with visible := false } else d

/-- `show_cursor`. -/
def showCursor (d : Pointer) : Pointer :=
  if !d.visible then { drawCursor s (saveCursorBg s d) with visible := true } else d

/-- `mouse_set_pos`. -/
def mouseSetPos (x y : Int) (d : Pointer) : Pointer :=
  { d with mouseX := x, mouseY := y, dirty := true }

/-- `update_cursor`. -/
def updateCursor (d : Pointer) : Pointer :=
  if d.dirty || !d.visible then
    drawCursor s (saveCursorBg s (if d.visible then restoreCursorBg s d else d))
  else d

/-- `init_mouse`. -/
def initMouse (d : Pointer) : Pointer :=
  { d with
    mouseX := (asI32 s.width).tdiv 2
    mouseY := (asI32 s.height).tdiv 2
    buttons := 0
    visible := false
    dirty := true
    bgSavedX := (asI32 s.width).tdiv 2
    bgSavedY := (asI32 s.height).tdiv 2 }

end

/-! ## Runs -/

/-- What is done to the cursor. -/
inductive CursorOp where
  | setPos (x y : Int)
  | initMouse
  | showCursor
  | updateCursor
  | hideCursor

/-- One operation. -/
def Pointer.act (s : Screen) (d : Pointer) : CursorOp → Pointer
  | .setPos x y => mouseSetPos x y d
  | .initMouse => initMouse s d
  | .showCursor => showCursor s d
  | .updateCursor => updateCursor s d
  | .hideCursor => hideCursor s d

/-- An operation after which the cursor is not forgotten. -/
def CarefulStep (s : Screen) (d : Pointer) (op : CursorOp) (d' : Pointer) : Prop :=
  d' = d.act s op ∧ (op = .initMouse → d.visible = false)

/-! ## What is saved -/

/-- A word of what is saved around a position. -/
structure Saved (s : Screen) (x y : Int) (row col i : Nat) : Prop where
  row_lt : row < cursorBgH
  col_lt : col < cursorBgW
  right : 0 ≤ boxAt x col
  below : 0 ≤ boxAt y row
  enabled : s.enabled = true
  left : asU32 (boxAt x col) < s.width
  above : asU32 (boxAt y row) < s.height
  place : s.place (asU32 (boxAt x col)).toNat (asU32 (boxAt y row)).toNat = i

/-- The cursor covers a picture: what is under it is saved, and the rest is to be seen. -/
structure Covers (s : Screen) (words : Words) (d : Pointer) : Prop where
  saved : ∀ row col i, Saved s d.bgSavedX d.bgSavedY row col i →
    packBytes (s.unpack (words i)).r (s.unpack (words i)).g (s.unpack (words i)).b =
      d.bg (row * cursorBgW + col)
  outside : ∀ i, (∀ row col, ¬Saved s d.bgSavedX d.bgSavedY row col i) →
    s.unpack (d.words i) = s.unpack (words i)

/-- The picture is on the screen, or under the cursor. -/
structure Keeps (s : Screen) (words : Words) (d : Pointer) : Prop where
  hidden : d.visible = false → ∀ i, s.unpack (d.words i) = s.unpack (words i)
  shown : d.visible = true → Covers s words d

section

variable {s : Screen} {words : Words} {d d' : Pointer} {op : CursorOp} {q : Plot}

theorem i32_add (a b : Int) : i32 (i32 a + b) = i32 (a + b) := Int.bmod_add_bmod

theorem boxAt_eq (v : Int) (n : Nat) : boxAt v n = i32 (v - 1 + n) := i32_add _ _

theorem mem_cells {rows cols row col : Nat} :
    (row, col) ∈ cells rows cols ↔ row < rows ∧ col < cols := by
  unfold cells
  constructor
  · intro h
    obtain ⟨row', hrow, h⟩ := List.mem_flatMap.mp h
    obtain ⟨col', hcol, h⟩ := List.mem_map.mp h
    cases h
    exact ⟨List.mem_range.mp hrow, List.mem_range.mp hcol⟩
  · rintro ⟨hrow, hcol⟩
    exact List.mem_flatMap.mpr ⟨row, List.mem_range.mpr hrow,
      List.mem_map.mpr ⟨col, List.mem_range.mpr hcol, rfl⟩⟩

theorem plotAt_eq_some {px py : Int} {c : Rgb} :
    plotAt px py c = some q ↔ (0 ≤ px ∧ 0 ≤ py) ∧ q = ⟨asU32 px, asU32 py, c⟩ := by
  unfold plotAt
  constructor
  · intro h
    split at h
    · rename_i hsigns
      cases h
      exact ⟨hsigns, rfl⟩
    · cases h
  · rintro ⟨hsigns, rfl⟩
    exact if_pos hsigns

/-! ## What is drawn lies in what is saved -/

/-- A call of `put` for a cell of what is saved around a position. -/
def Boxed (x y : Int) (q : Plot) : Prop :=
  ∃ row < cursorBgH, ∃ col < cursorBgW, plotAt (boxAt x col) (boxAt y row) q.c = some q

theorem boxed_of_plotAt {x y : Int} {row col : Nat} {px py : Int} {c : Rgb}
    (hplot : plotAt px py c = some q) (hpx : px = boxAt x col) (hpy : py = boxAt y row)
    (hrow : row < cursorBgH) (hcol : col < cursorBgW) : Boxed x y q := by
  have hc : q.c = c := by rw [(plotAt_eq_some.mp hplot).2]
  exact ⟨row, hrow, col, hcol, by rw [hc, ← hpx, ← hpy, hplot]⟩

theorem boxed_glyph {x y : Int} (h : q ∈ glyphPlots x y) : Boxed x y q := by
  obtain ⟨⟨row, col⟩, hcell, hplot⟩ := List.mem_filterMap.mp h
  obtain ⟨hrow, hcol⟩ := mem_cells.mp hcell
  dsimp only at hplot
  split at hplot
  · refine @boxed_of_plotAt q x y (row + 1) (col + 1) _ _ _ hplot ?_ ?_ ?_ ?_
    · rw [boxAt_eq]
      exact congrArg i32 (by omega)
    · rw [boxAt_eq]
      exact congrArg i32 (by omega)
    · exact Nat.lt_succ_of_lt (Nat.succ_lt_succ hrow)
    · exact Nat.lt_succ_of_lt (Nat.succ_lt_succ hcol)
  · cases hplot

/-- The outline does not leave the rectangle of the glyph. -/
theorem boxed_outline {x y : Int} (h : q ∈ outlinePlots x y) : Boxed x y q := by
  obtain ⟨⟨row, col⟩, hcell, hplot⟩ := List.mem_flatMap.mp h
  obtain ⟨hrow, hcol⟩ := mem_cells.mp hcell
  dsimp only at hplot
  split at hplot
  · obtain ⟨⟨ndx, ndy⟩, -, hplot⟩ := List.mem_filterMap.mp hplot
    dsimp only at hplot
    split at hplot
    · cases hplot
    · rename_i hin
      split at hplot
      · cases hplot
      · unfold cursorW cursorH at hin
        refine @boxed_of_plotAt q x y ((row : Int) + ndy + 1).toNat ((col : Int) + ndx + 1).toNat
          _ _ _ hplot ?_ ?_ ?_ ?_
        · rw [boxAt_eq, i32_add]
          exact congrArg i32 (by omega)
        · rw [boxAt_eq, i32_add]
          exact congrArg i32 (by omega)
        · unfold cursorBgH cursorH
          omega
        · unfold cursorBgW cursorW
          omega
  · cases hplot

theorem Boxed.saved {x y : Int} (h : Boxed x y q) (hshows : s.Shows q) :
    ∃ row col, Saved s x y row col (s.place q.x.toNat q.y.toNat) := by
  obtain ⟨row, hrow, col, hcol, hplot⟩ := h
  obtain ⟨⟨hright, hbelow⟩, hq⟩ := plotAt_eq_some.mp hplot
  obtain ⟨henabled, hleft, habove⟩ := hshows
  rw [hq] at hleft habove ⊢
  exact ⟨row, col, hrow, hcol, hright, hbelow, henabled, hleft, habove, rfl⟩

/-! ## One operation -/

/-- `restore_cursor_bg` brings the picture back. -/
theorem Covers.restore (h : Covers s words d) (i : Nat) :
    s.unpack ((restoreCursorBg s d).words i) = s.unpack (words i) := by
  have hplot {q : Plot} (hq : q ∈ restorePlots d) (hshows : s.Shows q) :
      ∃ row col, Saved s d.bgSavedX d.bgSavedY row col (s.place q.x.toNat q.y.toNat) ∧
        q.c = ⟨lowByte (d.bg (row * cursorBgW + col)), midByte (d.bg (row * cursorBgW + col)),
          highByte (d.bg (row * cursorBgW + col))⟩ := by
    obtain ⟨⟨row, col⟩, hcell, hplot⟩ := List.mem_filterMap.mp hq
    obtain ⟨hrow, hcol⟩ := mem_cells.mp hcell
    obtain ⟨⟨hright, hbelow⟩, rfl⟩ := plotAt_eq_some.mp hplot
    obtain ⟨henabled, hleft, habove⟩ := hshows
    exact ⟨row, col, ⟨hrow, hcol, hright, hbelow, henabled, hleft, habove, rfl⟩, rfl⟩
  by_cases hsaved : ∃ row col, Saved s d.bgSavedX d.bgSavedY row col i
  · refine Screen.paint_of_mem (P := fun word => s.unpack word = s.unpack (words i)) ?_ (Or.inr ?_)
    · intro q hq hshows hplace
      obtain ⟨row, col, hcell, hc⟩ := hplot hq hshows
      rw [hplace] at hcell
      rw [Screen.unpack_pack, hc, ← h.saved row col i hcell, lowByte_packBytes, midByte_packBytes,
        highByte_packBytes]
    · obtain ⟨row, col, hrow, hcol, hright, hbelow, henabled, hleft, habove, hplace⟩ := hsaved
      exact ⟨_, List.mem_filterMap.mpr ⟨(row, col), mem_cells.mpr ⟨hrow, hcol⟩,
        plotAt_eq_some.mpr ⟨⟨hright, hbelow⟩, rfl⟩⟩, ⟨henabled, hleft, habove⟩, hplace⟩
  · have hsame : (restoreCursorBg s d).words i = d.words i := by
      refine Screen.paint_of_ne fun q hq hshows hplace => hsaved ?_
      obtain ⟨row, col, hcell, -⟩ := hplot hq hshows
      exact ⟨row, col, hplace ▸ hcell⟩
    rw [hsame]
    exact h.outside i fun row col hcell => hsaved ⟨row, col, hcell⟩

/-- What is saved before the cursor is drawn is the picture. -/
theorem covers_draw (hwide : s.width.toNat < 2 ^ 31) (htall : s.height.toNat < 2 ^ 31)
    (h : ∀ i, s.unpack (d.words i) = s.unpack (words i)) :
    Covers s words (drawCursor s (saveCursorBg s d)) where
  saved := by
    rintro row col i ⟨hrow, hcol, hright, hbelow, henabled, hleft, habove, hplace⟩
    have hx := UInt32.lt_iff_toNat_lt.mp hleft
    have hy := UInt32.lt_iff_toNat_lt.mp habove
    have hsigned (v : Int) : i32 v < 2 ^ 31 := Int.bmod_lt (by decide)
    have hacross := toNat_asU32 hright (Int.lt_trans (hsigned _) (by decide))
    have halong := toNat_asU32 hbelow (Int.lt_trans (hsigned _) (by decide))
    have hindex : (row * cursorBgW + col) % cursorBgW = col ∧
        (row * cursorBgW + col) / cursorBgW = row := by
      unfold cursorBgW cursorW at *
      omega
    have hbg : (drawCursor s (saveCursorBg s d)).bg (row * cursorBgW + col) =
        packedAt s d.words (boxAt d.mouseX col) (boxAt d.mouseY row) := by
      dsimp only [drawCursor, saveCursorBg]
      rw [hindex.1, hindex.2]
    dsimp only [drawCursor, saveCursorBg] at hright hbelow hleft habove hplace hx hy hacross halong
    rw [hbg, packedAt, asI32_eq hwide, asI32_eq htall, if_pos ⟨hright, hbelow, by omega, by omega⟩,
      Screen.get_of_lt henabled hleft habove, hplace, ← h]
  outside := by
    intro i hi
    rw [← h i]
    refine congrArg s.unpack (Screen.paint_of_ne fun q hq hshows hplace => ?_)
    have hboxed : Boxed d.mouseX d.mouseY q := (List.mem_append.mp hq).elim boxed_glyph boxed_outline
    obtain ⟨row, col, hsaved⟩ := hboxed.saved hshows
    exact hi row col (hplace ▸ hsaved)

/-- No operation loses the picture, unless the cursor is forgotten. -/
theorem Keeps.act (hwide : s.width.toNat < 2 ^ 31) (htall : s.height.toNat < 2 ^ 31)
    (h : Keeps s words d) (hstep : CarefulStep s d op d') : Keeps s words d' := by
  obtain ⟨rfl, hinit⟩ := hstep
  have hdrawn {d : Pointer} (h : ∀ i, s.unpack (d.words i) = s.unpack (words i)) :
      Keeps s words (drawCursor s (saveCursorBg s d)) :=
    ⟨fun hhidden => absurd hhidden.symm Bool.false_ne_true,
      fun _ => covers_draw hwide htall h⟩
  cases op with
  | setPos x y => exact ⟨h.hidden, fun hshown => ⟨(h.shown hshown).saved, (h.shown hshown).outside⟩⟩
  | initMouse => exact ⟨fun _ => h.hidden (hinit rfl), fun hshown => absurd hshown Bool.false_ne_true⟩
  | showCursor =>
      cases hvisible : d.visible with
      | false =>
          have hact : d.act s .showCursor = drawCursor s (saveCursorBg s d) := by
            rw [Pointer.act, showCursor, hvisible]
            rfl
          exact hact ▸ hdrawn (h.hidden hvisible)
      | true =>
          have hact : d.act s .showCursor = d := by
            rw [Pointer.act, showCursor, hvisible]
            rfl
          exact hact.symm ▸ h
  | updateCursor =>
      cases hvisible : d.visible with
      | false =>
          have hact : d.act s .updateCursor = drawCursor s (saveCursorBg s d) := by
            rw [Pointer.act, updateCursor, hvisible, Bool.not_false, Bool.or_true]
            rfl
          exact hact ▸ hdrawn (h.hidden hvisible)
      | true =>
          rw [Pointer.act, updateCursor, hvisible]
          split
          · exact hdrawn (h.shown hvisible).restore
          · exact h
  | hideCursor =>
      rw [Pointer.act, hideCursor]
      split
      · rename_i hvisible
        exact ⟨fun _ => (h.shown hvisible).restore, fun hshown => absurd hshown Bool.false_ne_true⟩
      · exact h

/-! ## Runs -/

variable {d₀ : Pointer} {ops : List CursorOp}

/-- In a run that never forgets a visible cursor the picture is kept. -/
theorem keeps_of_run (hwide : s.width.toNat < 2 ^ 31) (htall : s.height.toNat < 2 ^ 31)
    (hhidden : d₀.visible = false) (hrun : Run (CarefulStep s) d₀ ops d) :
    Keeps s d₀.words d := by
  refine hrun.invariant_state (Keeps s d₀.words) ⟨fun _ _ => rfl, fun hshown => ?_⟩
    fun _ _ _ hkeeps hstep => hkeeps.act hwide htall hstep
  rw [hhidden] at hshown
  cases hshown

theorem hide_careful (d : Pointer) : CarefulStep s d .hideCursor (hideCursor s d) :=
  ⟨rfl, fun hop => by cases hop⟩

/-- When the cursor is hidden at the end of such a run, every point of the screen has the colour
that it had at its beginning. -/
theorem leaves_no_trace (hwide : s.width.toNat < 2 ^ 31) (htall : s.height.toNat < 2 ^ 31)
    (hhidden : d₀.visible = false) (hrun : Run (CarefulStep s) d₀ ops d) (x y : UInt32) :
    s.get (hideCursor s d).words x y = s.get d₀.words x y := by
  have hkeeps := (keeps_of_run hwide htall hhidden hrun).act hwide htall
    (hide_careful d)
  have hoff : (hideCursor s d).visible = false := by
    rw [hideCursor]
    split
    · rfl
    · rename_i hvisible
      exact Bool.eq_false_iff.mpr hvisible
  exact Screen.get_congr (hkeeps.hidden hoff) x y

/-- A black screen, and the mouse in its first corner. -/
def bootPointer : Pointer := ⟨0, 0, 0, fun _ => 0, false, true, 0, 0, fun _ => 0⟩

/-- The mouse is initialised, and its cursor is shown and moved. -/
theorem leaves_no_trace_moved :
    narrowScreen.get (hideCursor narrowScreen
      ([CursorOp.initMouse, .showCursor, .setPos 3 0, .updateCursor].foldl
        (Pointer.act narrowScreen) bootPointer)).words 3 0 =
      narrowScreen.get bootPointer.words 3 0 := by
  refine @leaves_no_trace narrowScreen _ bootPointer
    [.initMouse, .showCursor, .setPos 3 0, .updateCursor] (by decide) (by decide) rfl ?_ 3 0
  exact Run.cons ⟨rfl, fun _ => rfl⟩ (Run.cons ⟨rfl, fun hop => by cases hop⟩
    (Run.cons ⟨rfl, fun hop => by cases hop⟩ (Run.cons ⟨rfl, fun hop => by cases hop⟩ .nil)))

/-- If the mouse is initialised while its cursor is visible, the cursor stays where it was. -/
theorem leaves_trace : ¬∀ (s : Screen) (d₀ : Pointer) (ops : List CursorOp),
    s.width.toNat < 2 ^ 31 → s.height.toNat < 2 ^ 31 → d₀.visible = false → ∀ x y : UInt32,
      s.get (hideCursor s (ops.foldl (Pointer.act s) d₀)).words x y = s.get d₀.words x y := by
  intro h
  have hpoint := h narrowScreen bootPointer [.showCursor, .initMouse] (by decide) (by decide) rfl 0 0
  have hblack : narrowScreen.get bootPointer.words 0 0 = some black := by decide +kernel
  have hwhite : narrowScreen.get (hideCursor narrowScreen
      ([CursorOp.showCursor, .initMouse].foldl (Pointer.act narrowScreen) bootPointer)).words 0 0 =
        some white := by
    decide +kernel
  rw [hblack, hwhite] at hpoint
  exact absurd hpoint (by decide)

end

end PureOS.Graphics
