import PureOS.Foundation.Bytes
import PureOS.Foundation.Fuel

set_option autoImplicit false

/-!
# Barrel: the tokens of the compiler (`barrelc.rs`)

The compiler reads its source one token at a time.  `Scan` is the part of the
compiler's state that the scanner works on, the sticky error code included.  The
loops of the scanner are bounded by what is left of the source: `peek_ch` answers
0 past its end, and every loop stops there.

A slice of the source that does not lie inside it is a panic, as in the source.
-/

namespace PureOS.Barrel

open PureOS.Foundation

/-- `E_PARSE`. -/
def eParse : Int := -100
/-- `E_OVERFLOW`. -/
def eOverflow : Int := -101
/-- `E_TOOMANY_VARS`. -/
def eTooManyVars : Int := -102

/-- `Tk`. -/
inductive Tk where
  | eof | num | ident | print | println | let | if | else | while | loop | break
  | eq | eqEq | ne | lt | le | gt | ge | plus | minus | star | slash
  | lParen | rParen | lBrace | rBrace | semi
  deriving DecidableEq, Repr

/-- The scanner: the source, the position in it and the current token. -/
structure Scan where
  src : List UInt8
  pos : Nat := 0
  tok : Tk := .eof
  num : BitVec 64 := 0
  nameOff : Nat := 0
  nameLen : Nat := 0
  err : Int := 0

namespace Scan

/-- `peek_ch`. -/
def peekCh (s : Scan) : UInt8 := (s.src[s.pos]?).getD 0

/-- `peek2`. -/
def peek2 (s : Scan) : UInt8 := (s.src[s.pos + 1]?).getD 0

/-- `self.pos += 1`. -/
def bump (s : Scan) : Scan := { s with pos := s.pos + 1 }

/-- What is left of the source: no loop of the scanner turns more often. -/
def left (s : Scan) : Nat := s.src.length - s.pos

/-- `fail`: the first error stays. -/
def fail (s : Scan) (code : Int) : Scan := if s.err = 0 then { s with err := code } else s

/-- `&self.src[from..to]`. -/
def slice (s : Scan) (lo hi : Nat) : Except Fault (List UInt8) :=
  if lo ≤ hi ∧ hi ≤ s.src.length then .ok ((s.src.take hi).drop lo) else .error .panic

/-- `while p(self.peek_ch()) { self.pos += 1 }`. -/
def bumpWhile (p : UInt8 → Bool) (s : Scan) : Nat → Scan
  | 0 => s
  | n + 1 => if p s.peekCh then s.bump.bumpWhile p n else s

/-- The loop of `skip_ws`. -/
def skipWsLoop : Nat → Scan → Scan
  | 0, s => s
  | n + 1, s =>
      let c := s.peekCh
      if c = ch '/' ∧ s.peek2 = ch '/' then skipWsLoop n (s.bumpWhile (fun c => c ≠ ch '\n' ∧ c ≠ 0) s.left)
      else if c = ch ' ' ∨ c = ch '\t' ∨ c = ch '\n' ∨ c = ch '\r' then skipWsLoop n s.bump
      else s

/-- `skip_ws`. -/
def skipWs (s : Scan) : Scan := skipWsLoop s.left s

/-- `is_ascii_digit`. -/
def isDigit (c : UInt8) : Bool := ch '0' ≤ c && c ≤ ch '9'

/-- `is_ascii_alphabetic`, or an underscore. -/
def isNameStart (c : UInt8) : Bool :=
  (ch 'a' ≤ c && c ≤ ch 'z') || (ch 'A' ≤ c && c ≤ ch 'Z') || c == ch '_'

/-- `is_ascii_alphanumeric`, or an underscore. -/
def isNamePart (c : UInt8) : Bool := isNameStart c || isDigit c

/-- The loop over the digits of a number. -/
def digits : Nat → Scan → BitVec 64 → Scan × BitVec 64
  | 0, s, n => (s, n)
  | k + 1, s, n =>
      if isDigit s.peekCh then
        digits k s.bump (n * 10 + BitVec.ofNat 64 (s.peekCh - ch '0').toNat)
      else (s, n)

/-- The token of a name. -/
def keyword (name : List UInt8) : Tk :=
  if name = ascii "print" then .print
  else if name = ascii "println" then .println
  else if name = ascii "let" then .let
  else if name = ascii "if" then .if
  else if name = ascii "else" then .else
  else if name = ascii "while" then .while
  else if name = ascii "loop" then .loop
  else if name = ascii "break" then .break
  else .ident

/-- A character that is a token alone, or together with a `=` after it. -/
def pair (s : Scan) (withEq : Tk) (alone : Scan → Scan) : Scan :=
  let s := s.bump
  if s.peekCh = ch '=' then { s.bump with tok := withEq } else alone s

/-- The characters that are a token of their own. -/
def single (c : UInt8) : Option Tk :=
  if c = ch '+' then some .plus
  else if c = ch '-' then some .minus
  else if c = ch '*' then some .star
  else if c = ch '/' then some .slash
  else if c = ch '(' then some .lParen
  else if c = ch ')' then some .rParen
  else if c = 0x7B then some .lBrace
  else if c = 0x7D then some .rBrace
  else if c = ch ';' then some .semi
  else none

/-- `next`: read the next token. -/
def next (s : Scan) : Except Fault Scan :=
  let s := s.skipWs
  let c := s.peekCh
  if c = 0 then .ok { s with tok := .eof }
  else if isDigit c then
    let (s, n) := digits s.left s 0
    .ok { s with num := n, tok := .num }
  else if isNameStart c then do
    let start := s.pos
    let s := s.bumpWhile isNamePart s.left
    let name ← s.slice start s.pos
    .ok { s with nameOff := start, nameLen := s.pos - start, tok := keyword name }
  else if c = ch '=' then .ok (s.pair .eqEq fun s => { s with tok := .eq })
  else if c = ch '!' then .ok (s.pair .ne fun s => s.fail eParse)
  else if c = ch '<' then .ok (s.pair .le fun s => { s with tok := .lt })
  else if c = ch '>' then .ok (s.pair .ge fun s => { s with tok := .gt })
  else
    match single c with
    | some t => .ok { s.bump with tok := t }
    | none => .ok (s.bump.fail eParse)

/-- `eat`. -/
def eat (s : Scan) (t : Tk) : Except Fault Scan := if s.tok = t then s.next else .ok (s.fail eParse)

end Scan

end PureOS.Barrel
