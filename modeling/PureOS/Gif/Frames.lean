import PureOS.Gif.Lzw
import PureOS.Graphics.Framebuffer

set_option autoImplicit false

/-!
# Gif: the frames of a file (`gif.rs`)

`decode_gif` goes from block to block and keeps what it finds about each image, then it draws
the images.  A colour that is drawn at a place is an entry of a list here, and the turns of the
animation are as many as there are before a key is pressed.
-/

namespace PureOS.Gif

open PureOS.Foundation
open PureOS.Graphics (Rgb)

/-- `MAX_FRAMES`. -/
def maxFrames : Nat := 256

/-- `ColorTable`. -/
structure ColorTable where
  entries : Vector Rgb 256
  n : UInt8

namespace ColorTable

/-- `ColorTable::empty`. -/
def empty : ColorTable where
  entries := .replicate 256 ⟨0, 0, 0⟩
  n := 0

/-- The entry that `parse` finds at a place, if it is inside the data. -/
def entryAt (raw : List UInt8) (i : Nat) : Option Rgb :=
  match raw[i * 3]?, raw[i * 3 + 1]?, raw[i * 3 + 2]? with
  | some r, some g, some b => some ⟨r, g, b⟩
  | _, _, _ => none

/-- `parse`.  The number of entries is kept in a byte. -/
def parse (raw : List UInt8) (count : Nat) (t : ColorTable) : ColorTable :=
  let c := min count 256
  { entries := .ofFn fun i => if i < c then (entryAt raw i).getD t.entries[i] else t.entries[i]
    n := UInt8.ofNat c }

/-- `get`. -/
def get (t : ColorTable) (idx : UInt8) : Rgb :=
  have h : idx.toNat % max t.n.toNat 1 < 256 := (Nat.mod_le _ _).trans_lt idx.toNat_lt
  t.entries[idx.toNat % max t.n.toNat 1]

end ColorTable

/-- `Frame`. -/
structure Frame where
  left : Nat
  top : Nat
  w : Nat
  h : Nat
  interlace : Bool
  transparent : Bool
  tindex : UInt8
  disposal : Nat
  delayCs : Nat
  lzwMin : UInt8
  dataOff : Nat
  hasLocal : Bool
  localOff : Nat
  localN : UInt8
  deriving DecidableEq

/-- What `decode_gif` keeps while it collects the frames. -/
structure Blocks where
  pos : Nat
  tr : Bool
  ti : UInt8
  disp : Nat
  delay : Nat
  frames : List Frame
  deriving DecidableEq

section

variable (data : List UInt8)

/-- The byte at a place, inside the data. -/
def byteAt (i : Nat) : Except Fault UInt8 :=
  match data[i]? with
  | some b => .ok b
  | none => .error .panic

/-- Two bytes as a number, the low one first. -/
def le16 (i : Nat) : Except Fault Nat := do
  let lo ← byteAt data i
  let hi ← byteAt data (i + 1)
  return lo.toNat + hi.toNat * 256

/-- The loop over the sub-blocks of an extension. -/
def extension (label : UInt8) : Nat → Blocks → Except Fault Blocks
  | 0, _ => .error .fuel
  | n + 1, b =>
      if b.pos ≥ data.length then .ok b
      else do
        let sz ← byteAt data b.pos
        let pos := b.pos + 1
        if sz.toNat = 0 ∨ pos + sz.toNat > data.length then return { b with pos := pos }
        else if label = 0xF9 ∧ sz.toNat ≥ 4 then
          let p ← byteAt data pos
          let delay ← le16 data (pos + 1)
          let ti ← byteAt data (pos + 3)
          extension label n { b with
            pos := pos + sz.toNat
            tr := p.toNat % 2 ≠ 0
            ti := ti
            disp := p.toNat / 4 % 8
            delay := delay }
        else extension label n { b with pos := pos + sz.toNat }

/-- The loop that skips the sub-blocks of an image. -/
def skipBlocks : Nat → Nat → Except Fault Nat
  | 0, _ => .error .fuel
  | n + 1, pos =>
      if pos ≥ data.length then .ok pos
      else do
        let sb ← byteAt data pos
        let pos := pos + 1
        if sb.toNat = 0 ∨ pos + sb.toNat > data.length then return pos
        else skipBlocks n (pos + sb.toNat)

/-- Bit 7 of a byte with flags: a colour table follows. -/
def hasTable (pk : UInt8) : Bool := pk.toNat / 128 % 2 = 1

/-- The number of entries of a colour table. -/
def tableCount (pk : UInt8) : Nat := 2 ^ (pk.toNat % 8 + 1)

/-- The number of entries of the local colour table of an image. -/
def localCount (ipk : UInt8) : Nat := if hasTable ipk then tableCount ipk else 0

/-- The place of the local colour table of an image, as a word of 32 bits. -/
def localOffset (ipk : UInt8) (pos : Nat) : Nat := if hasTable ipk then pos % 2 ^ 32 else 0

/-- The arm for an image, whose separator is at `pos`, and whether the loop goes on. -/
def image (b : Blocks) : Except Fault (Bool × Blocks) :=
  let pos := b.pos + 1
  if pos + 8 > data.length then .ok (false, { b with pos := pos })
  else do
    let il ← le16 data pos
    let it ← le16 data (pos + 2)
    let iw ← le16 data (pos + 4)
    let ih ← le16 data (pos + 6)
    let ipk ← byteAt data (pos + 8)
    let localN := localCount ipk
    let localOff := localOffset ipk (pos + 9)
    let pos := pos + 9
    if pos + localN * 3 > data.length then return (false, { b with pos := pos })
    else
      let pos := pos + localN * 3
      if pos ≥ data.length then return (false, { b with pos := pos })
      else
        let lzwMin ← byteAt data pos
        let behind ← skipBlocks data (data.length + 1) (pos + 1)
        let frame :=
          { left := il
            top := it
            w := iw
            h := ih
            interlace := ipk.toNat / 64 % 2 = 1
            transparent := b.tr
            tindex := b.ti
            disposal := b.disp
            delayCs := b.delay
            lzwMin := lzwMin
            dataOff := pos % 2 ^ 32
            hasLocal := hasTable ipk
            localOff := localOff
            localN := UInt8.ofNat localN }
        if b.frames.length < maxFrames then
          return (true, { b with pos := behind, frames := b.frames ++ [frame] })
        else return (true, { b with pos := behind })

/-- A turn of the loop that collects the frames, and whether the loop goes on. -/
def blockTurn (b : Blocks) : Except Fault (Bool × Blocks) :=
  if b.pos ≥ data.length then .ok (false, b)
  else do
    let first ← byteAt data b.pos
    if first = 0x21 then
      let pos := b.pos + 1
      if pos ≥ data.length then return (false, { b with pos := pos })
      else
        let label ← byteAt data pos
        let b ← extension data label (data.length + 1) { b with pos := pos + 1 }
        return (true, b)
    else if first = 0x2C then image data b
    else if first = 0x3B then return (false, b)
    else return (true, { b with pos := b.pos + 1 })

/-- The frames of a file whose blocks begin at a place. -/
def collectFrames (pos : Nat) : Except Fault (List Frame) := do
  let b ← turns (blockTurn data) (data.length + 1)
    { pos := pos, tr := false, ti := 0, disp := 0, delay := 0, frames := [] }
  return b.frames

end

end PureOS.Gif
