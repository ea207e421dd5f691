import PureOS.Gif.Frames

set_option autoImplicit false

/-!
# Gif: drawing (`gif.rs`)

`render_frame` decompresses a frame into a buffer of 65536 pixels, puts its rows in order and
draws them.
-/

namespace PureOS.Gif

open PureOS.Foundation
open PureOS.Graphics (Rgb)

/-- The size of the framebuffer. -/
structure Screen where
  width : Nat
  height : Nat

/-- A call of `framebuffer::put`. -/
structure Put where
  x : Nat
  y : Nat
  color : Rgb
  deriving DecidableEq

/-- The size of the buffer of `render_frame`. -/
def pixelsN : Nat := 65536

/-- The colour table of a frame. -/
def frameTable (data : List UInt8) (f : Frame) (gct : ColorTable) : ColorTable :=
  if f.hasLocal then
    if f.localOff + f.localN.toNat * 3 ≤ data.length then
      ColorTable.empty.parse (data.drop f.localOff) f.localN.toNat
    else gct
  else gct

/-- The loop that copies a row. -/
def copyRow (pixels : List UInt8) (src dst : Nat) : List Nat → List UInt8 → Except Fault (List UInt8)
  | [], reorder => .ok reorder
  | i :: rest, reorder =>
      match pixels[src + i]? with
      | none => .error .panic
      | some p =>
          if dst + i < reorder.length then copyRow pixels src dst rest (reorder.set (dst + i) p)
          else .error .panic

/-- The rows of a pass: from row `r` on, `step` rows further each time.  The number of a row is a
word of 16 bits. -/
def passLoop (f : Frame) (n step : Nat) (pixels : List UInt8) :
    Nat → Nat → Nat × List UInt8 → Except Fault (Nat × List UInt8)
  | 0, _, _ => .error .fuel
  | fuel + 1, r, (outY, reorder) =>
      if r < f.h ∧ outY < n then do
        let src := outY * f.w
        let dst := r * f.w
        let ncpy := min (min f.w (pixels.length - dst)) (pixels.length - src)
        let reorder ← copyRow pixels src dst (List.range ncpy) reorder
        if r + step ≥ 2 ^ 16 then .error .panic
        else passLoop f n step pixels fuel (r + step) (outY + 1, reorder)
      else .ok (outY, reorder)

/-- The four passes. -/
def passes (f : Frame) (n : Nat) (pixels : List UInt8) :
    List (Nat × Nat) → Nat × List UInt8 → Except Fault (Nat × List UInt8)
  | [], s => .ok s
  | (start, step) :: rest, s => do
      let s ← passLoop f n step pixels (f.h + 1) start s
      passes f n pixels rest s

/-- The rows of an interlaced frame in order. -/
def deinterlace (f : Frame) (n : Nat) (pixels : List UInt8) : Except Fault (List UInt8) := do
  let (_, reorder) ← passes f n pixels [(0, 8), (4, 8), (2, 4), (1, 2)]
    (0, .replicate pixelsN 0)
  return reorder

/-- The pixels of a frame, row by row. -/
def inOrder (f : Frame) (n : Nat) (pixels : List UInt8) : Except Fault (List UInt8) :=
  if f.interlace then deinterlace f n pixels else .ok pixels

/-- The loop that draws a row. -/
def blitRow (screen : Screen) (f : Frame) (ct : ColorTable) (pixels : List UInt8) (y : Nat) :
    List Nat → List Put → Except Fault (List Put)
  | [], puts => .ok puts
  | x :: rest, puts =>
      if f.left + x ≥ screen.width then blitRow screen f ct pixels y rest puts
      else
        match pixels[y * f.w + x]? with
        | none => .error .panic
        | some idx =>
            if f.transparent ∧ idx = f.tindex then blitRow screen f ct pixels y rest puts
            else blitRow screen f ct pixels y rest (puts ++ [⟨f.left + x, f.top + y, ct.get idx⟩])

/-- The loop that draws the rows. -/
def blit (screen : Screen) (f : Frame) (ct : ColorTable) (pixels : List UInt8) :
    List Nat → List Put → Except Fault (List Put)
  | [], puts => .ok puts
  | y :: rest, puts =>
      if f.top + y ≥ screen.height then blit screen f ct pixels rest puts
      else do
        let puts ← blitRow screen f ct pixels y (List.range f.w) puts
        blit screen f ct pixels rest puts

/-- `render_frame`. -/
def renderFrame (fuel : Nat) (screen : Screen) (data : List UInt8) (f : Frame) (gct : ColorTable)
    (puts : List Put) : Except Fault (List Put) :=
  let ct := frameTable data f gct
  let start := f.dataOff + 1
  if start > data.length then .ok puts
  else do
    let lzw ← Lzw.new f.lzwMin.toNat
    let out ← lzw.decompress fuel pixelsN (.new data start)
    let pixels := out ++ .replicate (pixelsN - out.length) 0
    let pixels ← inOrder f out.length pixels
    blit screen f ct pixels (List.range f.h) puts

/-- The disposal of the frame that was drawn before: its place is filled.  The ends of the ranges
are words of 16 bits, and the one of a row is found for each row. -/
def dispose (f : Frame) (color : Rgb) (puts : List Put) : Except Fault (List Put) :=
  if f.disposal = 2 ∨ f.disposal = 3 then
    if f.top + f.h ≥ 2 ^ 16 ∨ f.h ≠ 0 ∧ f.left + f.w ≥ 2 ^ 16 then .error .panic
    else .ok (puts ++ (List.range' f.top f.h).flatMap fun y =>
      (List.range' f.left f.w).map fun x => ⟨x, y, color⟩)
  else .ok puts

/-- The animation loop, with so many turns before a key is pressed.  The frame `last` was drawn
before, and the frame number `fi` is the next one. -/
def animate (fuel : Nat) (screen : Screen) (data : List UInt8) (frames : List Frame)
    (gct : ColorTable) (bgc : Rgb) : Nat → Nat → Frame → List Put → Except Fault (List Put)
  | 0, _, _, puts => .ok puts
  | rounds + 1, fi, last, puts =>
      match frames[fi]? with
      | none => .error .panic
      | some f => do
          let puts ← dispose last bgc puts
          let puts ← renderFrame fuel screen data f gct puts
          let fi := if fi + 1 ≥ frames.length then 0 else fi + 1
          animate fuel screen data frames gct bgc rounds fi f puts

/-- `decode_gif` behind the loop that collects the frames: whether there are any, and what is
drawn. -/
def drawFrames (fuel : Nat) (screen : Screen) (rounds : Nat) (data : List UInt8) (gct : ColorTable)
    (bgc : Rgb) : List Frame → Except Fault (Bool × List Put)
  | [] => .ok (false, [])
  | first :: rest => do
      let puts ← renderFrame fuel screen data first gct []
      if rest = [] then return (true, puts)
      else
        let puts ← animate fuel screen data (first :: rest) gct bgc rounds 1 first puts
        return (true, puts)

/-- The bytes of "GIF87a". -/
def gif87a : List UInt8 := [0x47, 0x49, 0x46, 0x38, 0x37, 0x61]

/-- The bytes of "GIF89a". -/
def gif89a : List UInt8 := [0x47, 0x49, 0x46, 0x38, 0x39, 0x61]

/-- The size of the global colour table. -/
def globalSize (pk : UInt8) : Nat := if hasTable pk then tableCount pk * 3 else 0

/-- The global colour table. -/
def globalTable (data : List UInt8) (pk : UInt8) : ColorTable :=
  if hasTable pk then ColorTable.empty.parse (data.drop 13) (tableCount pk) else .empty

/-- The colour that fills the place of a frame. -/
def fillColor (gct : ColorTable) (pk bg : UInt8) : Rgb :=
  if hasTable pk ∧ bg < gct.n then gct.get bg else ⟨0, 0, 0⟩

/-- `decode_gif`: whether the file is a GIF, and what it draws. -/
def decodeGif (fuel : Nat) (screen : Screen) (rounds : Nat) (data : List UInt8) :
    Except Fault (Bool × List Put) :=
  if data.length < 6 then .ok (false, [])
  else if data.take 6 ≠ gif87a ∧ data.take 6 ≠ gif89a then .ok (false, [])
  else if data.length < 13 then .ok (false, [])
  else do
    let pk ← byteAt data 10
    let bg ← byteAt data 11
    let pos := 13 + globalSize pk
    if pos > data.length then return (false, [])
    else
      let gct := globalTable data pk
      let frames ← collectFrames data pos
      drawFrames fuel screen rounds data gct (fillColor gct pk bg) frames

end PureOS.Gif
