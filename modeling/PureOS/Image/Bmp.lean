import PureOS.Foundation.Bytes
import PureOS.Foundation.Fuel
import PureOS.Graphics.Framebuffer

set_option autoImplicit false

/-!
# Image: BMP pictures (`image.rs`)

`render_bmp` paints a picture of 24 bits a point.  It takes the length of a row from the part of
the row that is on the screen, and always begins with the last row of the file.
-/

namespace PureOS.Image

open PureOS.Foundation
open PureOS.Graphics (Rgb Screen Words fmtRgb)

/-! ## The framebuffer -/

/-- The framebuffer and its memory.  The memory of a line holds at least the points of the
line. -/
structure Framebuffer where
  screen : Screen
  words : Words
  widthLe : screen.width ≤ screen.stride

namespace Framebuffer

/-- `width`. -/
def width (fb : Framebuffer) : Nat := fb.screen.width.toNat

/-- `height`. -/
def height (fb : Framebuffer) : Nat := fb.screen.height.toNat

/-- `put`, at a point whose numbers have been counted in 32 bits. -/
def put (fb : Framebuffer) (x y : Nat) (c : Rgb) : Framebuffer :=
  { fb with words := fb.screen.put fb.words ⟨UInt32.ofNat x, UInt32.ofNat y, c⟩ }

/-- `get`, at such a point. -/
def get (fb : Framebuffer) (x y : Nat) : Option Rgb :=
  if x < 2 ^ 32 ∧ y < 2 ^ 32 then fb.screen.get fb.words (UInt32.ofNat x) (UInt32.ofNat y)
  else none

end Framebuffer

/-! ## The code -/

/-- `BmpInfo`. -/
structure BmpInfo where
  width : Nat
  height : Nat
  dataOffset : Nat
  valid : Bool
  deriving DecidableEq

/-- A byte of the data. -/
def byte (data : List UInt8) (i : Nat) : Except Fault UInt8 :=
  match data[i]? with
  | some b => .ok b
  | none => .error .panic

/-- Some bytes of the data as a number, the low one first. -/
def le (data : List UInt8) (i n : Nat) : Except Fault Nat :=
  if i + n ≤ data.length then .ok (fromLE ((data.drop i).take n)) else .error .panic

/-- A result that must fit into so many bits. -/
def checked (bits n : Nat) : Except Fault Nat :=
  if n < 2 ^ bits then .ok n else .error .panic

/-- A difference that must not be negative. -/
def minus (a b : Nat) : Except Fault Nat := if b ≤ a then .ok (a - b) else .error .panic

/-- What `parse_header` answers to something else than a picture. -/
def BmpInfo.invalid : BmpInfo := ⟨0, 0, 0, false⟩

/-- `unsigned_abs` of a number of 32 bits with a sign. -/
def unsignedAbs (raw : Nat) : Nat := if raw < 2 ^ 31 then raw else 2 ^ 32 - raw

/-- `parse_header`. -/
def parseHeader (data : List UInt8) : Except Fault BmpInfo :=
  if data.length < 54 then .ok .invalid
  else do
    let first ← byte data 0
    let second ← byte data 1
    if first ≠ 0x42 ∨ second ≠ 0x4D then return .invalid
    else
      let dataOffset ← le data 10 4
      let width ← le data 18 4
      let heightRaw ← le data 22 4
      let bitCount ← le data 28 2
      let compression ← le data 30 4
      if bitCount ≠ 24 ∨ compression ≠ 0 then return .invalid
      else return ⟨width, unsignedAbs heightRaw, dataOffset, true⟩

/-- The loop over the points of a row whose bytes begin at `srcOff`. -/
def drawRow (data : List UInt8) (srcOff originX originY y : Nat) :
    List Nat → Framebuffer → Except Fault Framebuffer
  | [], fb => .ok fb
  | x :: xs, fb => do
      let pxOff ← checked 64 (srcOff + x * 3)
      let b ← byte data pxOff
      let g ← byte data (pxOff + 1)
      let r ← byte data (pxOff + 2)
      let column ← checked 32 (originX + x)
      let line ← checked 32 (originY + y)
      drawRow data srcOff originX originY y xs (fb.put column line ⟨r, g, b⟩)

/-- The loop over the rows. -/
def drawRows (data : List UInt8) (info : BmpInfo) (w stride originX originY : Nat) :
    List Nat → Framebuffer → Except Fault Framebuffer
  | [], fb => .ok fb
  | y :: ys, fb => do
      let last ← minus info.height 1
      let srcRow ← minus last y
      let srcOff ← checked 64 (info.dataOffset + srcRow * stride)
      let stop ← checked 64 (srcOff + w * 3)
      if stop > data.length then return fb
      else
        let fb ← drawRow data srcOff originX originY y (List.range w) fb
        drawRows data info w stride originX originY ys fb

/-- `render_bmp`. -/
def renderBmp (data : List UInt8) (originX originY : Nat) (fb : Framebuffer) :
    Except Fault (Bool × Framebuffer) := do
  let info ← parseHeader data
  if !info.valid then return (false, fb)
  else if originX ≥ fb.width ∨ originY ≥ fb.height then return (false, fb)
  else
    let w := min info.width (fb.width - originX)
    let h := min info.height (fb.height - originY)
    let bytes ← checked 32 (w * 3 + 3)
    let fb ← drawRows data info w (bytes / 4 * 4) originX originY (List.range h) fb
    return (true, fb)

/-! ## Pictures -/

/-- The colour that three bytes stand for. -/
def rgbAt (data : List UInt8) (i : Nat) : Option Rgb := do
  let b ← data[i]?
  let g ← data[i + 1]?
  let r ← data[i + 2]?
  return ⟨r, g, b⟩

/-- The length of a row of so many points in the file: a multiple of four bytes. -/
def rowBytes (points : Nat) : Nat := (points * 3 + 3) / 4 * 4

/-- What the header of a picture says. -/
structure Picture where
  width : Nat
  height : Nat
  topDown : Bool
  dataOffset : Nat

/-- The number in the field for the height: it is negative for a picture from the top down. -/
def Picture.heightField (p : Picture) : Nat :=
  if p.topDown then 2 ^ 32 - p.height else p.height

/-- The data is a picture of 24 bits a point that is not compressed. -/
structure IsBmp (data : List UInt8) (p : Picture) : Prop where
  header : 54 ≤ data.length
  magic : data[0]? = some 0x42 ∧ data[1]? = some 0x4D
  offset : fromLE ((data.drop 10).take 4) = p.dataOffset
  width : fromLE ((data.drop 18).take 4) = p.width
  height : fromLE ((data.drop 22).take 4) = p.heightField
  bits : fromLE ((data.drop 28).take 2) = 24
  compression : fromLE ((data.drop 30).take 4) = 0
  widthRange : 0 < p.width ∧ p.width < 2 ^ 31
  heightRange : 0 < p.height ∧ if p.topDown then p.height ≤ 2 ^ 31 else p.height < 2 ^ 31
  complete : p.dataOffset + p.height * rowBytes p.width ≤ data.length

/-- Where the bytes of a point are, in column `x` and row `y` from the top. -/
def Picture.place (p : Picture) (x y : Nat) : Nat :=
  p.dataOffset + (if p.topDown then y else p.height - 1 - y) * rowBytes p.width + x * 3

/-- A point of the picture that falls on the screen. -/
structure Visible (fb : Framebuffer) (originX originY : Nat) (p : Picture) (x y : Nat) :
    Prop where
  enabled : fb.screen.enabled = true
  column : x < p.width
  row : y < p.height
  inWidth : originX + x < fb.width
  inHeight : originY + y < fb.height

/-- There is no fault, and the points of a picture are painted with their colours. -/
def Renders (fb : Framebuffer) (data : List UInt8) (originX originY : Nat) : Prop :=
  ∃ done fb', renderBmp data originX originY fb = .ok (done, fb') ∧
    ∀ p, IsBmp data p → ∀ x y, Visible fb originX originY p x y →
      fb'.get (originX + x) (originY + y) = rgbAt data (p.place x y)

/-- The bytes of the part of a row that is on the screen are counted in 32 bits. -/
def Narrow (fb : Framebuffer) (data : List UInt8) (originX originY : Nat) : Prop :=
  ∀ info, parseHeader data = .ok info → info.valid = true → originX < fb.width →
    originY < fb.height → min info.width (fb.width - originX) * 3 + 3 < 2 ^ 32

/-- Where the code takes the bytes of a point from, with rows as long as the part of a row that
is on the screen, and from the bottom up. -/
def Picture.clippedPlace (p : Picture) (room x y : Nat) : Nat :=
  p.dataOffset + (p.height - 1 - y) * rowBytes (min p.width room) + x * 3

/-- The bytes at these places stand for the same colours. -/
def SameColors (fb : Framebuffer) (data : List UInt8) (originX originY : Nat) : Prop :=
  ∀ p, IsBmp data p → ∀ x y, Visible fb originX originY p x y →
    rgbAt data (p.clippedPlace (fb.width - originX) x y) = rgbAt data (p.place x y)

/-! ## Points -/

namespace Framebuffer

variable {fb fb' fb'' : Framebuffer} {x y a b : Nat}

@[simp] theorem screen_put (fb : Framebuffer) (x y : Nat) (c : Rgb) :
    (fb.put x y c).screen = fb.screen := rfl

theorem width_eq (h : fb'.screen = fb.screen) : fb'.width = fb.width := by
  rw [width, h]
  rfl

theorem height_eq (h : fb'.screen = fb.screen) : fb'.height = fb.height := by
  rw [height, h]
  rfl

theorem width_lt (fb : Framebuffer) : fb.width < 2 ^ 32 := fb.screen.width.toNat_lt

theorem height_lt (fb : Framebuffer) : fb.height < 2 ^ 32 := fb.screen.height.toNat_lt

theorem toNat_ofNat_of_lt {n : Nat} (h : n < 2 ^ 32) : (UInt32.ofNat n).toNat = n := by
  rw [UInt32.toNat_ofNat', Nat.mod_eq_of_lt h]

/-- The point of an enabled framebuffer has the colour of its word, and no other one has. -/
theorem get_eq (henabled : fb.screen.enabled = true) (ha : a < fb.width) (hb : b < fb.height) :
    fb.get a b = some (fb.screen.unpack (fb.words (fb.screen.place a b))) := by
  have hwidth := fb.width_lt
  have hheight := fb.height_lt
  have hx := toNat_ofNat_of_lt (ha.trans hwidth)
  have hy := toNat_ofNat_of_lt (hb.trans hheight)
  rw [get, if_pos ⟨ha.trans hwidth, hb.trans hheight⟩, Graphics.Screen.get_of_lt henabled
    (UInt32.lt_iff_toNat_lt.mpr (by rw [hx]; exact ha))
    (UInt32.lt_iff_toNat_lt.mpr (by rw [hy]; exact hb)), hx, hy]

theorem get_of_outside (hout : a ≥ fb.width ∨ b ≥ fb.height) : fb.get a b = none := by
  rw [get]
  split
  · rename_i hlt
    rw [Graphics.Screen.get]
    split
    · rfl
    · refine if_pos ?_
      rw [ge_iff_le, ge_iff_le, UInt32.le_iff_toNat_le, UInt32.le_iff_toNat_le,
        toNat_ofNat_of_lt hlt.1, toNat_ofNat_of_lt hlt.2]
      exact hout
  · rfl

theorem get_put (c : Rgb) (henabled : fb.screen.enabled = true) (hx : x < fb.width)
    (hy : y < fb.height) :
    (fb.put x y c).get a b = if a = x ∧ b = y then some c else fb.get a b := by
  have hx' := toNat_ofNat_of_lt (hx.trans fb.width_lt)
  have hy' := toNat_ofNat_of_lt (hy.trans fb.height_lt)
  have hshows : fb.screen.Shows ⟨UInt32.ofNat x, UInt32.ofNat y, c⟩ :=
    ⟨henabled, UInt32.lt_iff_toNat_lt.mpr (by rw [hx']; exact hx),
      UInt32.lt_iff_toNat_lt.mpr (by rw [hy']; exact hy)⟩
  by_cases hout : a ≥ fb.width ∨ b ≥ fb.height
  · rw [get_of_outside hout, show (fb.put x y c).get a b = none from get_of_outside hout,
      if_neg (by omega)]
  · have hput : (fb.put x y c).words = fb.screen.put fb.words ⟨UInt32.ofNat x, UInt32.ofNat y, c⟩ :=
      rfl
    have hafter : (fb.put x y c).get a b = _ :=
      get_eq henabled (Nat.lt_of_not_le fun h => hout (Or.inl h))
        (Nat.lt_of_not_le fun h => hout (Or.inr h))
    rw [get_eq henabled (by omega) (by omega), hafter, hput, Graphics.Screen.put_of_shows hshows, screen_put, hx', hy']
    dsimp only
    by_cases hsame : a = x ∧ b = y
    · rw [if_pos hsame, hsame.1, hsame.2, if_pos rfl, Graphics.Screen.unpack_pack]
    · rw [if_neg hsame, if_neg fun h => hsame
        (Graphics.Screen.place_injective fb.widthLe hx (by change a < fb.width; omega) h)]

end Framebuffer

section

variable {data : List UInt8} {info : BmpInfo} {p : Picture} {fb fb' : Framebuffer}
  {w stride srcOff originX originY x y : Nat}

theorem byte_ok {i : Nat} (h : i < data.length) : byte data i = .ok data[i] := by
  rw [byte, List.getElem?_eq_getElem h]

theorem le_ok {i n : Nat} (h : i + n ≤ data.length) :
    le data i n = .ok (fromLE ((data.drop i).take n)) := if_pos h

theorem checked_ok {bits n : Nat} (h : n < 2 ^ bits) : checked bits n = .ok n := if_pos h

theorem minus_ok {a b : Nat} (h : b ≤ a) : minus a b = .ok (a - b) := if_pos h

/-! ## A row -/

/-- What the loops over points and rows leave, when they have gone over the points in `ps`. -/
structure Painted (data : List UInt8) (fb fb' : Framebuffer) (ps : Nat → Nat → Prop)
    (place : Nat → Nat → Nat) : Prop where
  screen : fb'.screen = fb.screen
  inside : fb.screen.enabled = true → ∀ a b, ps a b → fb'.get a b = rgbAt data (place a b)
  outside : fb.screen.enabled = true → ∀ a b, ¬ps a b → fb'.get a b = fb.get a b

namespace Painted

variable {fb'' : Framebuffer} {ps ps' : Nat → Nat → Prop} {place : Nat → Nat → Nat}

theorem append (h : Painted data fb fb' ps place) (h' : Painted data fb' fb'' ps' place) :
    Painted data fb fb'' (fun a b => ps a b ∨ ps' a b) place where
  screen := h'.screen.trans h.screen
  inside := by
    intro henabled a b hps
    have henabled' : fb'.screen.enabled = true := by rwa [h.screen]
    by_cases hlast : ps' a b
    · exact h'.inside henabled' a b hlast
    · rw [h'.outside henabled' a b hlast]
      exact h.inside henabled a b (hps.resolve_right hlast)
  outside := by
    intro henabled a b hps
    have henabled' : fb'.screen.enabled = true := by rwa [h.screen]
    rw [h'.outside henabled' a b fun h => hps (.inr h),
      h.outside henabled a b fun h => hps (.inl h)]

theorem congr {q : Nat → Nat → Prop} {f : Nat → Nat → Nat} (h : Painted data fb fb' ps place)
    (hps : ∀ a b, q a b ↔ ps a b) (hplace : ∀ a b, ps a b → f a b = place a b) :
    Painted data fb fb' q f where
  screen := h.screen
  inside := by
    intro henabled a b hin
    rw [hplace a b ((hps a b).mp hin)]
    exact h.inside henabled a b ((hps a b).mp hin)
  outside := fun henabled a b hout =>
    h.outside henabled a b fun hin => hout ((hps a b).mpr hin)

end Painted

theorem rgbAt_eq {i : Nat} (h : i + 3 ≤ data.length) :
    rgbAt data i = some ⟨data[i + 2], data[i + 1], data[i]⟩ := by
  rw [rgbAt, List.getElem?_eq_getElem (by omega), List.getElem?_eq_getElem (by omega),
    List.getElem?_eq_getElem (by omega)]
  rfl

/-- A point is painted. -/
theorem painted_put {i : Nat} {c : Rgb} (hx : x < fb.width) (hy : y < fb.height)
    (hc : rgbAt data i = some c) {f : Nat → Nat → Nat} (hi : f x y = i) :
    Painted data fb (fb.put x y c) (fun a b => a = x ∧ b = y) f where
  screen := fb.screen_put x y c
  inside := by
    rintro henabled a b ⟨rfl, rfl⟩
    rw [Framebuffer.get_put c henabled hx hy, if_pos ⟨rfl, rfl⟩, hi, hc]
  outside := fun henabled a b hnot => by
    rw [Framebuffer.get_put c henabled hx hy, if_neg hnot]

/-- The points of a row are painted. -/
theorem drawRow_ok {xs : List Nat} (hin : ∀ x ∈ xs, srcOff + x * 3 + 3 ≤ data.length)
    (hx : ∀ x ∈ xs, originX + x < fb.width) (hy : originY + y < fb.height)
    (hoff : ∀ x ∈ xs, srcOff + x * 3 < 2 ^ 64) :
    ∃ fb', drawRow data srcOff originX originY y xs fb = .ok fb' ∧
      Painted data fb fb' (fun a b => ∃ x ∈ xs, a = originX + x ∧ b = originY + y)
        (fun a _ => srcOff + (a - originX) * 3) := by
  induction xs generalizing fb with
  | nil =>
      refine ⟨fb, rfl, rfl, ?_, fun _ _ _ _ => rfl⟩
      rintro - a b ⟨x, hx, -⟩
      cases hx
  | cons x xs ih =>
      have hcolumn := hx x List.mem_cons_self
      have hbytes := hin x List.mem_cons_self
      have hwidth := fb.width_lt
      have hheight := fb.height_lt
      have hpoint := painted_put hcolumn hy (rgbAt_eq hbytes)
        (f := fun a _ => srcOff + (a - originX) * 3) (by rw [Nat.add_sub_cancel_left])
      obtain ⟨fb', hdone, hpainted⟩ := @ih (fb.put (originX + x) (originY + y) _)
        (fun x' hx' => hin x' (List.mem_cons_of_mem x hx'))
        (fun x' hx' => hx x' (List.mem_cons_of_mem x hx')) hy
        (fun x' hx' => hoff x' (List.mem_cons_of_mem x hx'))
      refine ⟨fb', ?_, (hpoint.append hpainted).congr (fun a b => ?_) fun _ _ _ => rfl⟩
      · rw [drawRow, checked_ok (hoff x List.mem_cons_self), bind_ok, byte_ok (by omega), bind_ok,
          byte_ok (by omega), bind_ok, byte_ok (by omega), bind_ok, checked_ok (by omega), bind_ok,
          checked_ok (by omega), bind_ok]
        exact hdone
      · rw [List.exists_mem_cons_iff]

/-! ## The rows -/

/-- Where the bytes of row `y` begin, for the code. -/
def rowStart (info : BmpInfo) (stride y : Nat) : Nat :=
  info.dataOffset + (info.height - 1 - y) * stride

/-- Numbers as they come from a header, and a row that is counted in 32 bits. -/
structure Moderate (info : BmpInfo) (w stride : Nat) : Prop where
  offset : info.dataOffset < 2 ^ 32
  height : info.height ≤ 2 ^ 31
  row : w * 3 ≤ stride
  stride : stride < 2 ^ 32

theorem Moderate.rowStart_lt (h : Moderate info w stride) (hy : y < info.height) :
    rowStart info stride y + w * 3 < 2 ^ 64 := by
  obtain ⟨hoffset, hheight, hrow, hstride⟩ := h
  have hproduct : (info.height - 1 - y) * stride ≤ (2 ^ 31 - 1) * (2 ^ 32 - 1) :=
    Nat.mul_le_mul (by omega) (by omega)
  unfold rowStart
  omega

/-- The rows end without a fault; if the data has them all, they are painted. -/
theorem drawRows_ok {ys : List Nat} (hmoderate : Moderate info w stride)
    (hx : originX + w ≤ fb.width)
    (hy : ∀ y ∈ ys, y < info.height ∧ originY + y < fb.height) :
    ∃ fb', drawRows data info w stride originX originY ys fb = .ok fb' ∧ fb'.screen = fb.screen ∧
      ((∀ y ∈ ys, rowStart info stride y + w * 3 ≤ data.length) →
        Painted data fb fb' (fun a b => ∃ y ∈ ys, ∃ x < w, a = originX + x ∧ b = originY + y)
          (fun a b => rowStart info stride (b - originY) + (a - originX) * 3)) := by
  induction ys generalizing fb with
  | nil =>
      refine ⟨fb, rfl, rfl, fun _ => ⟨rfl, ?_, fun _ _ _ _ => rfl⟩⟩
      rintro - a b ⟨y, hy, -⟩
      cases hy
  | cons y ys ih =>
      obtain ⟨hheight, hline⟩ := hy y List.mem_cons_self
      have hfits := hmoderate.rowStart_lt hheight
      have hstart : checked 64 (info.dataOffset + (info.height - 1 - y) * stride) =
          .ok (rowStart info stride y) := checked_ok (by unfold rowStart at hfits; omega)
      rw [drawRows, minus_ok (by omega), bind_ok, minus_ok (by omega), bind_ok, hstart, bind_ok,
        checked_ok hfits, bind_ok]
      by_cases hstop : rowStart info stride y + w * 3 > data.length
      · rw [if_pos hstop]
        refine ⟨fb, rfl, rfl, fun hall => ?_⟩
        have := hall y List.mem_cons_self
        omega
      · rw [if_neg hstop]
        obtain ⟨mid, hrow, hpainted⟩ := @drawRow_ok data fb (rowStart info stride y) originX
          originY y (List.range w)
          (fun x hx' => by have := List.mem_range.mp hx'; omega)
          (fun x hx' => by have := List.mem_range.mp hx'; omega) hline
          (fun x hx' => by have := List.mem_range.mp hx'; omega)
        obtain ⟨fb', hrest, hscreen, hothers⟩ := @ih mid
          (by rw [Framebuffer.width_eq hpainted.screen]; exact hx) fun y' hy' => by
            rw [Framebuffer.height_eq hpainted.screen]
            exact hy y' (List.mem_cons_of_mem y hy')
        refine ⟨fb', ?_, hscreen.trans hpainted.screen, fun hall => ?_⟩
        · rw [hrow, bind_ok, hrest]
        · have hfirst := hpainted.congr
            (q := fun a b => ∃ x < w, a = originX + x ∧ b = originY + y)
            (f := fun a b => rowStart info stride (b - originY) + (a - originX) * 3)
            (fun a b => by simp only [List.mem_range]) (by
              rintro a b ⟨x, -, -, rfl⟩
              rw [Nat.add_sub_cancel_left])
          refine (hfirst.append (hothers fun y' hy' => hall y' (List.mem_cons_of_mem y hy'))).congr
            (fun a b => ?_) fun _ _ _ => rfl
          rw [List.exists_mem_cons_iff]

/-! ## Pictures -/

theorem fromLE_take_lt (n i : Nat) : fromLE ((data.drop i).take n) < 256 ^ n := by
  refine (fromLE_lt _).trans_le (Nat.pow_le_pow_right (by decide) ?_)
  rw [List.length_take]
  exact Nat.min_le_left _ _

/-- The header is read without a fault. -/
theorem parseHeader_ok (data : List UInt8) : ∃ info, parseHeader data = .ok info ∧
    info.dataOffset < 2 ^ 32 ∧ info.height ≤ 2 ^ 31 := by
  unfold parseHeader
  by_cases hshort : data.length < 54
  · rw [if_pos hshort]
    exact ⟨.invalid, rfl, by decide, by decide⟩
  · rw [if_neg hshort, byte_ok (by omega), bind_ok, byte_ok (by omega), bind_ok]
    split
    · exact ⟨.invalid, rfl, by decide, by decide⟩
    · rw [le_ok (by omega), bind_ok, le_ok (by omega), bind_ok, le_ok (by omega), bind_ok,
        le_ok (by omega), bind_ok, le_ok (by omega), bind_ok]
      split
      · exact ⟨.invalid, rfl, by decide, by decide⟩
      · refine ⟨_, rfl, fromLE_take_lt 4 10, ?_⟩
        have hraw : fromLE ((data.drop 22).take 4) < 256 ^ 4 := fromLE_take_lt 4 22
        dsimp only [unsignedAbs]
        split <;> omega

/-- The header of a picture is read as it is meant. -/
theorem parseHeader_of_isBmp (h : IsBmp data p) :
    parseHeader data = .ok ⟨p.width, p.height, p.dataOffset, true⟩ := by
  obtain ⟨hlen, ⟨hfirst, hsecond⟩, hoffset, hwidth, hheight, hbits, hcompression, -, hrange, -⟩ := h
  have habs : unsignedAbs p.heightField = p.height := by
    unfold unsignedAbs Picture.heightField
    cases htop : p.topDown with
    | false =>
        simp only [htop] at hrange ⊢
        exact if_pos hrange.2
    | true =>
        simp only [htop] at hrange ⊢
        have hle : p.height ≤ 2 ^ 31 := hrange.2
        have hpos := hrange.1
        simp only [if_true]
        split <;> omega
  rw [parseHeader, if_neg (by omega), byte, hfirst, bind_ok, byte, hsecond, bind_ok,
    if_neg (by decide), le_ok (by omega), bind_ok, le_ok (by omega), bind_ok, le_ok (by omega),
    bind_ok, le_ok (by omega), bind_ok, le_ok (by omega), bind_ok, hoffset, hwidth, hheight, hbits,
    hcompression, if_neg (by decide), habs]
  rfl

theorem rowBytes_mono {a b : Nat} (h : a ≤ b) : rowBytes a ≤ rowBytes b :=
  Nat.mul_le_mul_right 4 (Nat.div_le_div_right (by omega))

/-- The rows that the code reads are in the data. -/
theorem rowStart_le (h : IsBmp data p) (hy : y < p.height) (hw : w ≤ p.width) :
    rowStart ⟨p.width, p.height, p.dataOffset, true⟩ (rowBytes w) y + w * 3 ≤ data.length := by
  have hcomplete := h.complete
  have hrow : w * 3 ≤ rowBytes w := by
    unfold rowBytes
    omega
  have hrows : (p.height - 1 - y) * rowBytes w ≤ (p.height - 1) * rowBytes p.width :=
    Nat.mul_le_mul (Nat.sub_le _ _) (rowBytes_mono hw)
  have hlast : p.height * rowBytes p.width = (p.height - 1) * rowBytes p.width + rowBytes p.width := by
    rw [← Nat.succ_mul, Nat.succ_eq_add_one, Nat.sub_add_cancel (by omega)]
  have hmono := rowBytes_mono hw
  unfold rowStart
  dsimp only
  omega

/-- Without an overflow the code ends, and paints the points of a picture with the colours of
their clipped places. -/
theorem renderBmp_ok (hnarrow : Narrow fb data originX originY) :
    ∃ done fb', renderBmp data originX originY fb = .ok (done, fb') ∧
      ∀ p, IsBmp data p → ∀ x y, Visible fb originX originY p x y →
        fb'.get (originX + x) (originY + y) =
          rgbAt data (p.clippedPlace (fb.width - originX) x y) := by
  obtain ⟨info, hinfo, hoffset, hheight⟩ := parseHeader_ok data
  rw [renderBmp, hinfo, bind_ok]
  cases hvalid : info.valid with
  | false =>
      refine ⟨false, fb, rfl, fun p hp => ?_⟩
      rw [parseHeader_of_isBmp hp] at hinfo
      cases hinfo
      cases hvalid
  | true =>
      by_cases hout : originX ≥ fb.width ∨ originY ≥ fb.height
      · refine ⟨false, fb, if_pos hout, fun p _ x y hvisible => ?_⟩
        have := hvisible.inWidth
        have := hvisible.inHeight
        omega
      · have hbytes := hnarrow info hinfo hvalid (by omega) (by omega)
        rw [if_neg (by decide), if_neg hout]
        dsimp only
        rw [checked_ok hbytes, bind_ok]
        have hmoderate : Moderate info (min info.width (fb.width - originX))
            (rowBytes (min info.width (fb.width - originX))) := by
          refine ⟨hoffset, hheight, ?_, ?_⟩ <;> unfold rowBytes <;> omega
        obtain ⟨fb', hdone, -, hpainted⟩ := @drawRows_ok data info fb _ _ originX originY
          (List.range (min info.height (fb.height - originY))) hmoderate (by omega) fun y hy => by
            have := List.mem_range.mp hy
            omega
        refine ⟨true, fb', ?_, fun p hp x y hvisible => ?_⟩
        · rw [rowBytes] at hdone
          rw [hdone]
          rfl
        · rw [parseHeader_of_isBmp hp] at hinfo
          cases hinfo
          have hrows := hpainted fun y hy => rowStart_le hp
            (by have := List.mem_range.mp hy; dsimp only at this; omega) (Nat.min_le_left _ _)
          have hcolumn := hvisible.column
          have hrow := hvisible.row
          have hwidth := hvisible.inWidth
          have hline := hvisible.inHeight
          rw [hrows.inside hvisible.enabled (originX + x) (originY + y) ⟨y, List.mem_range.mpr (by dsimp only; omega),
            x, by dsimp only; omega, rfl, rfl⟩, Nat.add_sub_cancel_left, Nat.add_sub_cancel_left]
          rfl

end

/-- A picture is painted as it should be, exactly if the bytes of a row on the screen are counted
in 32 bits and the bytes at the clipped places stand for the right colours. -/
theorem renders_iff (fb : Framebuffer) (data : List UInt8) (originX originY : Nat) :
    Renders fb data originX originY ↔
      Narrow fb data originX originY ∧ SameColors fb data originX originY := by
  constructor
  · rintro ⟨done, fb', hdone, hpainted⟩
    have hnarrow : Narrow fb data originX originY := by
      intro info hinfo hvalid hx hy
      by_contra hwide
      rw [renderBmp, hinfo, bind_ok, hvalid, if_neg (by decide), if_neg (by omega)] at hdone
      dsimp only at hdone
      rw [checked, if_neg hwide] at hdone
      cases hdone
    refine ⟨hnarrow, fun p hp x y hvisible => ?_⟩
    obtain ⟨done', fb'', hdone', hclipped⟩ := renderBmp_ok hnarrow
    rw [hdone'] at hdone
    cases hdone
    rw [← hclipped p hp x y hvisible, hpainted p hp x y hvisible]
  · rintro ⟨hnarrow, hsame⟩
    obtain ⟨done, fb', hdone, hclipped⟩ := renderBmp_ok hnarrow
    refine ⟨done, fb', hdone, fun p hp x y hvisible => ?_⟩
    rw [hclipped p hp x y hvisible, hsame p hp x y hvisible]

/-- A picture from the bottom up has the right colours when its rows on the screen are as long as
those of the file, up to the multiple of four. -/
theorem sameColors_of_bottomUp (fb : Framebuffer) (data : List UInt8) (originX originY : Nat)
    (h : ∀ p, IsBmp data p → p.topDown = false ∧
      rowBytes (min p.width (fb.width - originX)) = rowBytes p.width) :
    SameColors fb data originX originY := by
  intro p hp x y hvisible
  obtain ⟨hup, hrow⟩ := h p hp
  rw [Picture.clippedPlace, Picture.place, hup, hrow]
  rfl

/-! ## A picture that is painted upside down -/

/-- The header of a picture of one point in a row, and two rows from the top down. -/
def smallHeader : List UInt8 :=
  [0x42, 0x4D, 0, 0, 0, 0, 0, 0, 0, 0, 54, 0, 0, 0, 40, 0, 0, 0, 1, 0, 0, 0,
    0xFE, 0xFF, 0xFF, 0xFF, 1, 0, 24, 0] ++ List.replicate 24 0

/-- A black point over a white one. -/
def smallData : List UInt8 := smallHeader ++ [0, 0, 0, 0, 0xFF, 0xFF, 0xFF, 0]

/-- A screen of four by four points. -/
def smallScreen : Framebuffer where
  screen := ⟨0x1000, 4, 4, 4, fmtRgb⟩
  words := fun _ => 0
  widthLe := by decide

theorem isBmp_small : IsBmp smallData ⟨1, 2, true, 54⟩ where
  header := by decide
  magic := by decide
  offset := by decide
  width := by decide
  height := by decide
  bits := by decide
  compression := by decide
  widthRange := by decide
  heightRange := by decide
  complete := by decide

/-- The rows of a picture from the top down are exchanged. -/
theorem not_renders : ¬∀ (fb : Framebuffer) (data : List UInt8) (originX originY : Nat),
    Renders fb data originX originY := by
  intro h
  obtain ⟨done, fb', hdone, hpainted⟩ := h smallScreen smallData 0 0
  have hpoint := hpainted _ isBmp_small 0 0 
    ⟨by decide, by decide, by decide, by decide, by decide⟩
  have hwhite : (renderBmp smallData 0 0 smallScreen).map (fun r => r.2.get 0 0) =
      .ok (some ⟨0xFF, 0xFF, 0xFF⟩) := by decide +kernel
  rw [hdone] at hwhite
  have hget := Except.ok.inj hwhite
  dsimp only at hget
  rw [hget] at hpoint
  revert hpoint
  decide

end PureOS.Image
