import PureOS.Foundation.Turns
import PureOS.Gif.Reader
import Mathlib.Data.Vector.Basic

set_option autoImplicit false

/-!
# Gif: the decompressor (`gif.rs`)

The dictionary keeps a string as the code of a shorter string and a last byte.  The
decompressor reads codes until it finds the end code.
-/

namespace PureOS.Gif

open PureOS.Foundation

/-- `MAX_BITS`. -/
def maxBits : Nat := 12

/-- `DICT_N`. -/
def dictN : Nat := 4096

/-- `Lzw`, without the stack, which holds one string at a time. -/
structure Lzw where
  prefixes : Vector Nat 4096
  suffixes : Vector UInt8 4096
  next : Nat
  codeSz : Nat
  clear : Nat
  stop : Nat
  minC : Nat
  deriving DecidableEq

namespace Lzw

/-- The loop of `new` and `reset` over the codes below `clear`. -/
def roots (clear : Nat) (suffixes : Vector UInt8 4096) : Vector UInt8 4096 :=
  .ofFn fun i => if i < clear then UInt8.ofNat i else suffixes[i]

/-- `Lzw::new`, which shifts a word of 16 bits by `min_c` and has 4096 suffixes. -/
def new (minC : Nat) : Except Fault Lzw :=
  if minC ≥ 16 then .error .panic
  else
    let clear := 2 ^ minC
    if clear > dictN then .error .panic
    else .ok
      { prefixes := .replicate 4096 0
        suffixes := roots clear (.replicate 4096 0)
        next := clear + 2
        codeSz := minC + 1
        clear := clear
        stop := clear + 1
        minC := minC }

/-- `reset`, which runs after `new` has not failed. -/
def reset (l : Lzw) : Lzw :=
  let clear := 2 ^ l.minC
  { l with
    suffixes := roots clear l.suffixes
    next := clear + 2
    codeSz := l.minC + 1
    clear := clear
    stop := clear + 1 }

/-- The loop of `first_byte`.  A chain of codes that is longer than the dictionary never ends. -/
def firstByteLoop (l : Lzw) : Nat → Nat → Except Fault UInt8
  | 0, _ => .error .fuel
  | n + 1, c =>
      if c > l.clear then
        match l.prefixes[c]? with
        | none => .error .panic
        | some c => firstByteLoop l n c
      else .ok (UInt8.ofNat c)

/-- `first_byte`. -/
def firstByte (l : Lzw) (code : Nat) : Except Fault UInt8 := firstByteLoop l dictN code

/-- The loop that pushes the string of a code, and the root byte behind it.  There is room for
`n` bytes on the stack. -/
def walk (l : Lzw) : Nat → Nat → List UInt8 → Except Fault (List UInt8)
  | 0, _, _ => .error .panic
  | n + 1, c, stack =>
      if c > l.clear then
        match l.suffixes[c]?, l.prefixes[c]? with
        | some b, some p => walk l n p (b :: stack)
        | _, _ => .error .panic
      else .ok (UInt8.ofNat c :: stack)

/-- What a code stands for. -/
def expand (l : Lzw) (old code : Nat) : Except Fault (List UInt8) :=
  if code ≥ l.next then do
    let fb ← l.firstByte old
    l.walk (dictN - 1) old [fb]
  else l.walk dictN code []

/-- A new entry of the dictionary. -/
def add (l : Lzw) (old : Nat) (firstOut : UInt8) : Lzw :=
  if h : l.next < 4096 then
    let next := l.next + 1
    { l with
      prefixes := l.prefixes.set l.next old
      suffixes := l.suffixes.set l.next firstOut
      next := next
      codeSz := if next > 2 ^ l.codeSz ∧ l.codeSz < maxBits then l.codeSz + 1 else l.codeSz }
  else l

/-- What `decompress` keeps in its loop: the dictionary, the reader, `old` and what is written
of `out`. -/
structure Decoding where
  lzw : Lzw
  rd : GifReader
  old : Nat
  out : List UInt8
  deriving DecidableEq

/-- Write bytes, as long as there is room for them. -/
def write (room : Nat) (out bytes : List UInt8) : List UInt8 := out ++ bytes.take (room - out.length)

/-- A code that begins a string of codes: it is written if it is a byte. -/
def begin (room code : Nat) (out : List UInt8) : List UInt8 :=
  if code < 256 then write room out [UInt8.ofNat code] else out

/-- A turn of the loop of `decompress`, and whether the loop goes on. -/
def turn (room : Nat) (s : Decoding) : Except Fault (Bool × Decoding) := do
  let (code, rd) ← s.rd.read s.lzw.codeSz
  if code = s.lzw.stop then return (false, { s with rd := rd })
  else if code = s.lzw.clear then
    let lzw := s.lzw.reset
    let (code, rd) ← rd.read lzw.codeSz
    if code = lzw.stop then return (false, { s with lzw := lzw, rd := rd })
    else return (true, { lzw := lzw, rd := rd, old := code, out := begin room code s.out })
  else
    let bytes ← s.lzw.expand s.old code
    return (true,
      { lzw := s.lzw.add s.old (bytes.headD 0)
        rd := rd
        old := code
        out := write room s.out bytes })

/-- `decompress` into a buffer with room for so many bytes: what it writes. -/
def decompress (fuel room : Nat) (l : Lzw) (rd : GifReader) : Except Fault (List UInt8) := do
  let (code, rd) ← rd.read l.codeSz
  if code = l.stop then return []
  else
    let s ← turns (turn room) fuel { lzw := l, rd := rd, old := code, out := begin room code [] }
    return s.out

/-- A turn of the loop keeps what is written. -/
theorem turn_out {s s' : Decoding} {room : Nat} {again : Bool} (h : turn room s = .ok (again, s')) :
    ∃ bytes, s'.out = s.out ++ bytes := by
  have hbegin : ∀ code, ∃ bytes, begin room code s.out = s.out ++ bytes := by
    intro code
    rw [begin]
    split
    · exact ⟨_, rfl⟩
    · exact ⟨[], (List.append_nil _).symm⟩
  rw [turn] at h
  obtain ⟨⟨code, rd⟩, _, h⟩ := bind_eq_ok h
  dsimp only at h
  split at h
  · cases h
    exact ⟨[], (List.append_nil _).symm⟩
  · split at h
    · obtain ⟨⟨code', rd'⟩, _, h⟩ := bind_eq_ok h
      dsimp only at h
      split at h
      · cases h
        exact ⟨[], (List.append_nil _).symm⟩
      · cases h
        exact hbegin code'
    · obtain ⟨bytes, _, h⟩ := bind_eq_ok h
      cases h
      exact ⟨_, rfl⟩

theorem length_write {room : Nat} {out bytes : List UInt8} (h : out.length ≤ room) :
    (write room out bytes).length ≤ room := by
  rw [write, List.length_append, List.length_take]
  omega

theorem length_begin {room code : Nat} {out : List UInt8} (h : out.length ≤ room) :
    (begin room code out).length ≤ room := by
  rw [begin]
  split
  · exact length_write h
  · exact h

/-- A turn of the loop writes no more than there is room for. -/
theorem turn_length {s s' : Decoding} {room : Nat} {again : Bool} (h : turn room s = .ok (again, s'))
    (hroom : s.out.length ≤ room) : s'.out.length ≤ room := by
  rw [turn] at h
  obtain ⟨⟨code, rd⟩, _, h⟩ := bind_eq_ok h
  dsimp only at h
  split at h
  · cases h
    exact hroom
  · split at h
    · obtain ⟨⟨code', rd'⟩, _, h⟩ := bind_eq_ok h
      dsimp only at h
      split at h
      · cases h
        exact hroom
      · cases h
        exact length_begin hroom
    · obtain ⟨bytes, _, h⟩ := bind_eq_ok h
      cases h
      exact length_write hroom

/-- The last turn writes nothing. -/
theorem turn_last {s s' : Decoding} {room : Nat} (h : turn room s = .ok (false, s')) :
    s'.out = s.out := by
  rw [turn] at h
  obtain ⟨⟨code, rd⟩, _, h⟩ := bind_eq_ok h
  dsimp only at h
  split at h
  · cases h
    rfl
  · split at h
    · obtain ⟨⟨code', rd'⟩, _, h⟩ := bind_eq_ok h
      dsimp only at h
      split at h
      · cases h
        rfl
      · cases h
    · obtain ⟨bytes, _, h⟩ := bind_eq_ok h
      cases h

end Lzw

end PureOS.Gif
