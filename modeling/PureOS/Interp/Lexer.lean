import PureOS.Barrel.Scan

set_option autoImplicit false

/-!
# Interp: the tokens of the interpreter (`barrel.rs`)

The interpreter turns the whole script into a table of tokens first.  The lexer is what is
left of the script: `peek` answers 0 at its end, so that a 0 byte ends the script as well.
The bytes of names and strings go to one buffer, each followed by a NUL, and the value of
their token is where they begin.

An index that is not below the length of its table is a panic, as in the source.
-/

namespace PureOS.Interp

open PureOS.Foundation
open PureOS.Barrel.Scan (isDigit isNameStart isNamePart)

/-- `MAX_TOKENS`. -/
abbrev maxTokens : Nat := 64
/-- The length of `strbuf`. -/
abbrev strbufLen : Nat := 256

/-- `Token`. -/
inductive Token where
  | eof | ident | number | string
  | print | println | let | input | if | else | loop | while | break
  | eq | eqEq | ne | lt | gt | le | ge | andAnd | orOr | not
  | mod | plus | minus | star | slash
  | lParen | rParen | lBrace | rBrace | semicolon | comma
  | drawPixel | drawLine | drawRect | drawCircle | clearScreen
  deriving DecidableEq, Repr

/-- What `tokenize` fills: the tables, the position in the string buffer and the number of
tokens so far. -/
structure Tables where
  tokens : Vector Token maxTokens
  values : Vector (BitVec 64) maxTokens
  strbuf : Vector UInt8 strbufLen
  strpos : Nat
  count : Nat

namespace Tables

/-- The tables as `exec` makes them. -/
def empty : Tables where
  tokens := Vector.replicate maxTokens .eof
  values := Vector.replicate maxTokens 0
  strbuf := Vector.replicate strbufLen 0
  strpos := 0
  count := 0

/-- `tokens[count] = tok; values[count] = val; count += 1`. -/
def put (t : Tables) (tok : Token) (val : BitVec 64) : Except Fault Tables :=
  if t.count < maxTokens then
    .ok { t with
      tokens := t.tokens.setIfInBounds t.count tok
      values := t.values.setIfInBounds t.count val
      count := t.count + 1 }
  else .error .panic

/-- `if *strpos < 255 { strbuf[*strpos] = c; *strpos += 1; }`. -/
def store (t : Tables) (c : UInt8) : Tables :=
  if t.strpos < 255 then
    { t with strbuf := t.strbuf.setIfInBounds t.strpos c, strpos := t.strpos + 1 }
  else t

/-- `strbuf[*strpos] = 0; *strpos += 1`. -/
def terminate (t : Tables) : Except Fault Tables :=
  if t.strpos < strbufLen then
    .ok { t with strbuf := t.strbuf.setIfInBounds t.strpos 0, strpos := t.strpos + 1 }
  else .error .panic

/-- `&strbuf[start..*strpos - 1]`. -/
def name (t : Tables) (start : Nat) : List UInt8 := (t.strbuf.toList.take (t.strpos - 1)).drop start

end Tables

/-! ## The lexer -/

/-- `peek`. -/
def peek (src : List UInt8) : UInt8 := src.headD 0

/-- The loop of `skip_whitespace`. -/
def skipWhitespaceLoop : Nat → List UInt8 → List UInt8
  | 0, src => src
  | n + 1, src =>
      let c := peek src
      if c = ch '/' ∧ peek src.tail = ch '/' then
        skipWhitespaceLoop n (src.dropWhile fun c => c ≠ ch '\n' ∧ c ≠ 0)
      else if c = ch ' ' ∨ c = ch '\t' ∨ c = ch '\n' ∨ c = ch '\r' then
        skipWhitespaceLoop n src.tail
      else src

/-- `skip_whitespace`. -/
def skipWhitespace (src : List UInt8) : List UInt8 := skipWhitespaceLoop src.length src

/-- The loop over the bytes of a name or of a string. -/
def storeWhile (p : UInt8 → Bool) : List UInt8 → Tables → List UInt8 × Tables
  | [], t => ([], t)
  | c :: src, t => if p c then storeWhile p src (t.store c) else (c :: src, t)

/-- Inside a string: neither its end nor the end of the script. -/
def inString (c : UInt8) : Bool := c ≠ ch '"' ∧ c ≠ 0

/-- The loop over the digits of a number. -/
def digits : List UInt8 → BitVec 64 → List UInt8 × BitVec 64
  | [], n => ([], n)
  | c :: src, n =>
      if isDigit c then digits src (n * 10 + BitVec.ofNat 64 (c - ch '0').toNat)
      else (c :: src, n)

/-- The token of a name. -/
def keyword (name : List UInt8) : Token :=
  if name = ascii "print" then .print
  else if name = ascii "println" then .println
  else if name = ascii "let" then .let
  else if name = ascii "input" then .input
  else if name = ascii "if" then .if
  else if name = ascii "else" then .else
  else if name = ascii "loop" then .loop
  else if name = ascii "while" then .while
  else if name = ascii "break" then .break
  else if name = ascii "draw_pixel" then .drawPixel
  else if name = ascii "draw_line" then .drawLine
  else if name = ascii "draw_rect" then .drawRect
  else if name = ascii "draw_circle" then .drawCircle
  else if name = ascii "clear_screen" then .clearScreen
  else .ident

/-- A character that is one token before a certain second one, and another one alone. -/
def pair (src : List UInt8) (second : UInt8) (both alone : Token) : List UInt8 × Token :=
  if peek src.tail = second then (src.tail.tail, both) else (src.tail, alone)

/-- The characters that are a token of their own; all others are `Eof`. -/
def single (c : UInt8) : Token :=
  if c = ch '%' then .mod
  else if c = ch '+' then .plus
  else if c = ch '-' then .minus
  else if c = ch '*' then .star
  else if c = ch '/' then .slash
  else if c = ch '(' then .lParen
  else if c = ch ')' then .rParen
  else if c = 0x7B then .lBrace
  else if c = 0x7D then .rBrace
  else if c = ch ';' then .semicolon
  else if c = ch ',' then .comma
  else .eof

/-- The arms of one or two characters. -/
def operator (src : List UInt8) : List UInt8 × Token :=
  let c := peek src
  if c = ch '=' then pair src (ch '=') .eqEq .eq
  else if c = ch '!' then pair src (ch '=') .ne .not
  else if c = ch '<' then pair src (ch '=') .le .lt
  else if c = ch '>' then pair src (ch '=') .ge .gt
  else if c = ch '&' then pair src (ch '&') .andAnd .eof
  else if c = ch '|' then pair src (ch '|') .orOr .eof
  else (src.tail, single c)

/-- The loop of `tokenize`.  The arms of strings, numbers and names go on without the test
of the capacity, which comes behind the others. -/
def tokenizeLoop : Nat → List UInt8 → Tables → Except Fault Tables
  | 0, _, _ => .error .fuel
  | n + 1, src, t =>
      let src := skipWhitespace src
      let c := peek src
      if c = 0 then t.put .eof 0
      else if c = ch '"' then do
        let start := t.strpos
        let (src, t) := storeWhile inString src.tail t
        let src := if peek src = ch '"' then src.tail else src
        let t ← t.terminate
        let t ← t.put .string (BitVec.ofNat 64 start)
        tokenizeLoop n src t
      else if isDigit c then do
        let (src, v) := digits src 0
        let t ← t.put .number v
        tokenizeLoop n src t
      else if isNameStart c then do
        let start := t.strpos
        let (src, t) := storeWhile isNamePart src t
        let t ← t.terminate
        let t ← t.put (keyword (t.name start)) (BitVec.ofNat 64 start)
        tokenizeLoop n src t
      else do
        let (src, tok) := operator src
        let t ← t.put tok 0
        if maxTokens - 1 ≤ t.count then t.put .eof 0 else tokenizeLoop n src t

/-- `tokenize`, on the tables of `exec`: every turn but the last one uses up source. -/
def tokenize (src : List UInt8) : Except Fault Tables := tokenizeLoop (src.length + 1) src .empty

end PureOS.Interp
