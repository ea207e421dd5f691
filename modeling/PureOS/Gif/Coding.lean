import PureOS.Gif.Lzw
import Mathlib.Data.Nat.Size

set_option autoImplicit false

/-!
# Gif: the coding by the standard

Pixels are cut into texts, and each text is written as a code.  The texts since the last clear
code make the dictionary: an entry is a text and the first pixel of the one behind it.
-/

namespace PureOS.Gif

open PureOS.Foundation GifReader

variable (m : Nat)

/-- The clear code. -/
def clearCode : Nat := 2 ^ m

/-- The end code. -/
def endCode : Nat := 2 ^ m + 1

/-- A code stands for a text behind others: it is a pixel, or an entry of the dictionary.  The
last entry may end with the first pixel of the text itself. -/
inductive Stands (done : List (List UInt8)) : Nat → List UInt8 → Prop where
  | pixel (p : UInt8) (h : p.toNat < 2 ^ m) : Stands done p.toNat [p]
  | entry {i : Nat} {old text : List UInt8} {a : UInt8} (hold : done[i]? = some old)
      (hnext : (done ++ [text])[i + 1]?.bind List.head? = some a) (htext : text = old ++ [a])
      (hroom : endCode m + 1 + i < 2 ^ 12) : Stands done (endCode m + 1 + i) text

/-- The codes of pixels from one clear code to the next, behind texts that are done. -/
inductive Codes : List (List UInt8) → List Nat → List UInt8 → Prop where
  | nil {done : List (List UInt8)} : Codes done [] []
  | cons {done : List (List UInt8)} {code : Nat} {text : List UInt8} {codes : List Nat}
      {pixels : List UInt8} (h : Stands m done code text) (rest : Codes (done ++ [text]) codes pixels) :
      Codes done (code :: codes) (text ++ pixels)

/-- The codes of pixels, cut by clear codes. -/
inductive Segments : List (List Nat) → List UInt8 → Prop where
  | nil : Segments [] []
  | cons {codes : List Nat} {pixels pixels' : List UInt8} {rest : List (List Nat)}
      (h : Codes m [] codes pixels) (hrest : Segments rest pixels') :
      Segments (codes :: rest) (pixels ++ pixels')

/-- The width of a code when there are `n` codes since the last clear code: the least one that
has room for all the codes there are then, but 12 at most. -/
def width (n : Nat) : Nat := min 12 (endCode m + n).size

/-- The bits of some codes when there are `n` codes since the last clear code. -/
def codeBits : Nat → List Nat → List Bool
  | _, [] => []
  | n, code :: codes => lsbBits (width m n) code ++ codeBits (n + 1) codes

/-- The bits behind a clear code: the codes with a clear code between two segments, and the end
code. -/
def segmentBits : List (List Nat) → List Bool
  | [] => lsbBits (width m 0) (endCode m)
  | [codes] => codeBits m 0 codes ++ lsbBits (width m codes.length) (endCode m)
  | codes :: rest => codeBits m 0 codes ++ lsbBits (width m codes.length) (clearCode m) ++ segmentBits rest

/-- Bytes cut into sub-blocks, with anything behind the empty block. -/
inductive Blocked : List UInt8 → List UInt8 → Prop where
  | stop (behind : List UInt8) : Blocked [] (0 :: behind)
  | block {bytes raw : List UInt8} (block : List UInt8) (hpos : block ≠ []) (hlen : block.length < 256)
      (h : Blocked bytes raw) : Blocked (block ++ bytes) (UInt8.ofNat block.length :: block ++ raw)

/-- An image as the standard codes it: a clear code, the codes of the pixels with more clear
codes anywhere between them, and the end code, in sub-blocks of any sizes. -/
structure Encoding where
  m : Nat
  two_le : 2 ≤ m
  le_eight : m ≤ 8
  pixels : List UInt8
  few : pixels.length ≤ 65536
  segments : List (List Nat)
  coded : Segments m segments pixels
  bytes : List UInt8
  unused : List Bool
  packed : bitsOf bytes = lsbBits (m + 1) (clearCode m) ++ segmentBits m segments ++ unused
  raw : List UInt8
  blocked : Blocked bytes raw

namespace Encoding

variable (e : Encoding)

/-- `render_frame` takes the pixels out of the sub-blocks. -/
def decode (fuel : Nat) : Except Fault (List UInt8) := do
  let lzw ← Lzw.new e.m
  lzw.decompress fuel 65536 (.new e.raw 0)

/-- The pixels come back. -/
def Decoded : Prop := ∃ fuel, e.decode fuel = .ok e.pixels

/-- Codes that `decompress` understands while its dictionary is one entry ahead: pixels, and the
first entry if it stands for two zeros. -/
def Plain (codes : List Nat) : Prop :=
  ∀ code ∈ codes, code < 256 ∨
    code = 258 ∧ codes[0]? = some 0 ∧ (codes[1]? = some 0 ∨ codes[1]? = some 258)

/-- Segments that `decompress` understands.  It is one entry ahead behind the first clear code
and behind a second one of two without a code between them; otherwise it is one code late to
make the codes wider. -/
def Understood : Bool → List (List Nat) → Prop
  | _, [] => True
  | true, codes :: rest => Plain codes ∧ Understood false rest
  | false, codes :: rest =>
      (codes.length ≤ 254 ∨ codes.length = 255 ∧ rest = []) ∧ Understood codes.isEmpty rest

/-- There are 256 colours, and `decompress` understands the codes. -/
structure Careful : Prop where
  colours : e.m = 8
  understood : Understood true e.segments

end Encoding

end PureOS.Gif
