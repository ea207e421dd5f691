import PureOS.Barrel.Language
import PureOS.Foundation.Turns
import PureOS.Interp.Eval

set_option autoImplicit false

/-!
# Interp: statements (`barrel.rs`)

`exec_block` runs statements from the token pointer on, up to a closing brace or the end.  A
turn of its loop runs one statement; the blocks inside of a statement are run by calls of
`exec_block`, so that a turn is a function of what those do.

The store keeps a record of the run, which is not data of the source: where a statement
began, where a condition of a `while` was tested, where a pass of a `loop` began, and the
brace at which a pass was taken to be over.
-/

namespace PureOS.Interp

open PureOS.Foundation
open PureOS.Barrel (writeNum)

/-! ## What statements work on -/

/-- The statements that draw. -/
inductive DrawKind where
  | pixel | line | rect | circle | clear
  deriving DecidableEq, Repr

/-- The number of expressions behind the keyword. -/
def DrawKind.arity : DrawKind → Nat
  | .pixel => 3
  | .line => 5
  | .rect => 6
  | .circle => 5
  | .clear => 1

/-- The bytes `r`, `g` and `b` of a colour. -/
abbrev Rgb := BitVec 8 × BitVec 8 × BitVec 8

/-- A call of the graphics functions. -/
inductive Drawing where
  | pixel (x y : BitVec 32) (rgb : Rgb)
  | line (x₁ y₁ x₂ y₂ : BitVec 32) (rgb : Rgb)
  | rect (x y w h : BitVec 32) (rgb : Rgb) (fill : Bool)
  | circle (x y r : BitVec 32) (rgb : Rgb) (fill : Bool)
  | clear (rgb : Rgb)
  deriving DecidableEq

/-- `(cn >> 16) & 0xFF`, `(cn >> 8) & 0xFF`, `cn & 0xFF`. -/
def rgb (cn : BitVec 64) : Rgb :=
  ((cn >>> 16).setWidth 8, (cn >>> 8).setWidth 8, cn.setWidth 8)

/-- What a statement draws, when all of its values are numbers. -/
def DrawKind.drawing : DrawKind → List Value → Option Drawing
  | .pixel, [.num x, .num y, .num cn] => some (.pixel (x.setWidth 32) (y.setWidth 32) (rgb cn))
  | .line, [.num x₁, .num y₁, .num x₂, .num y₂, .num cn] =>
      some (.line (x₁.setWidth 32) (y₁.setWidth 32) (x₂.setWidth 32) (y₂.setWidth 32) (rgb cn))
  | .rect, [.num x, .num y, .num w, .num h, .num cn, .num fill] =>
      some (.rect (x.setWidth 32) (y.setWidth 32) (w.setWidth 32) (h.setWidth 32) (rgb cn)
        (fill ≠ 0))
  | .circle, [.num x, .num y, .num r, .num cn, .num fill] =>
      some (.circle (x.setWidth 32) (y.setWidth 32) (r.setWidth 32) (rgb cn) (fill ≠ 0))
  | .clear, [.num cn] => some (.clear (rgb cn))
  | _, _ => none

/-- All that a script changes but the token pointer, and the record of its run. -/
structure Store where
  con : Console
  env : Env
  strbuf : Vector UInt8 strbufLen
  drawn : List Drawing
  ran : List Nat

namespace Store

/-- A line of the record. -/
def note (σ : Store) (ip : Nat) : Store := { σ with ran := σ.ran ++ [ip] }

/-- `print_str`: the bytes from `start` on, up to a NUL or the end of the buffer. -/
def text (σ : Store) (start : Nat) : List UInt8 := (σ.strbuf.toList.drop start).takeWhile (· ≠ 0)

/-- `print` and `println`. -/
def print (σ : Store) (newline : Bool) (val : Value) : Store :=
  let shown : List UInt8 :=
    match val with
    | .num n => writeNum n
    | .str s => σ.text s.toNat
    | .nil => ascii "nil"
  { σ with con := σ.con.write (shown ++ if newline then [ch '\n'] else []) }

/-- `env.set(name_start, val)`. -/
def assign (σ : Store) (nameStart : BitVec 64) (val : Value) : Store :=
  { σ with env := σ.env.set nameStart val }

/-- A line is put into the string buffer, `strbuf_len.saturating_sub(128)` bytes behind its
beginning. -/
def putLine (σ : Store) (line : List UInt8) : Store :=
  let start := strbufLen - 128
  { σ with
    strbuf := (line.foldl (fun (b : Vector UInt8 strbufLen × Nat) c =>
      if b.2 < 255 then (b.1.setIfInBounds b.2 c, b.2 + 1) else b) (σ.strbuf, start)).1 }

/-- `input <name>`. -/
def input (σ : Store) (nameStart : BitVec 64) : Except Fault Store := do
  let (line, con) ← σ.con.readLine
  .ok (({ σ with con := con }.putLine line).assign nameStart
    (.str (BitVec.ofNat 64 (strbufLen - 128))))

/-- A statement that draws. -/
def draw (σ : Store) (kind : DrawKind) (vals : List Value) : Store :=
  match kind.drawing vals with
  | some d => { σ with drawn := σ.drawn ++ [d] }
  | none => σ

end Store

/-- `match cond { Value::Num(n) => n != 0, Value::Str(_) => true, Value::Nil => false }`. -/
def Value.truthy : Value → Bool
  | .num n => n ≠ 0
  | .str _ => true
  | .nil => false

/-- The state of the interpreter. -/
structure Machine where
  ip : Nat
  σ : Store

namespace Machine

/-- `*ip += 1`. -/
def step (m : Machine) : Machine := { m with ip := m.ip + 1 }

end Machine

/-! ## The walk over the tokens -/

namespace Code

/-- `*ip < tcount && tokens[*ip] == t`. -/
def atTok (c : Code) (ip : Nat) (t : Token) : Prop := ip < c.tcount ∧ c.tok ip = t

instance (c : Code) (ip : Nat) (t : Token) : Decidable (c.atTok ip t) :=
  inferInstanceAs (Decidable (_ ∧ _))

/-- The loop of `skip_block` and of `break`: at most so many tokens. -/
def skipLoop (c : Code) : Nat → Nat → Nat → Nat
  | 0, _, ip => ip
  | n + 1, depth, ip =>
      if depth = 0 then ip
      else
        match c.tok ip with
        | .lBrace => c.skipLoop n (depth + 1) (ip + 1)
        | .rBrace => c.skipLoop n (depth - 1) (ip + 1)
        | _ => c.skipLoop n depth (ip + 1)

/-- `skip_block`. -/
def skipBlock (c : Code) (ip : Nat) : Nat := c.skipLoop (maxTokens - ip) 1 ip

/-- What `break` does to the pointer, behind its own token. -/
def skipToBrace (c : Code) (ip : Nat) : Nat := c.skipLoop (c.tcount - ip) 1 ip

/-- `expect_semicolon`. -/
def expectSemicolon (c : Code) (m : Machine) : Machine :=
  if c.tok m.ip = .semicolon then m.step else m

/-- `if *ip < tcount && tokens[*ip] == Token::RBrace { *ip += 1; }`. -/
def closeBrace (c : Code) (m : Machine) : Machine := if c.atTok m.ip .rBrace then m.step else m

/-- `eval_expr` at the token pointer. -/
def eval (c : Code) (m : Machine) : Except Fault (Value × Machine) := do
  let (val, p) ← evalExpr c m.σ.env ⟨m.ip, m.σ.con⟩
  .ok (val, ⟨p.ip, { m.σ with con := p.con }⟩)

/-- Several expressions, one behind the other. -/
def evalArgs (c : Code) : Nat → Machine → Except Fault (List Value × Machine)
  | 0, m => .ok ([], m)
  | n + 1, m => do
      let (val, m) ← c.eval m
      let (vals, m) ← c.evalArgs n m
      .ok (val :: vals, m)

/-! ## The arms of `exec_block` -/

/-- `print` and `println`. -/
def execPrint (c : Code) (newline : Bool) (m : Machine) : Except Fault Machine := do
  let (val, m) ← c.eval m.step
  .ok (c.expectSemicolon { m with σ := m.σ.print newline val })

/-- `let`. -/
def execLet (c : Code) (m : Machine) : Except Fault Machine := do
  let m := m.step
  if c.atTok m.ip .ident then
    let nameStart := c.val m.ip
    let m := m.step
    if c.atTok m.ip .eq then
      let (val, m) ← c.eval m.step
      .ok (c.expectSemicolon { m with σ := m.σ.assign nameStart val })
    else .ok (c.expectSemicolon m)
  else .ok (c.expectSemicolon m)

/-- `input`. -/
def execInput (c : Code) (m : Machine) : Except Fault Machine := do
  let m := m.step
  if c.atTok m.ip .ident then
    let nameStart := c.val m.ip
    let m := m.step
    let σ ← m.σ.input nameStart
    .ok (c.expectSemicolon { m with σ := σ })
  else .ok (c.expectSemicolon m)

/-- The statements that draw. -/
def execDraw (c : Code) (kind : DrawKind) (m : Machine) : Except Fault Machine := do
  let (vals, m) ← c.evalArgs kind.arity m.step
  .ok (c.expectSemicolon { m with σ := m.σ.draw kind vals })

/-- A block of an `if`: taken or skipped, and its closing brace. -/
def execBranch (c : Code) (block : Machine → Except Fault Machine) (taken : Bool) (m : Machine) :
    Except Fault Machine :=
  if c.atTok m.ip .lBrace then do
    let m := m.step
    let m ← if taken then block m else .ok { m with ip := c.skipBlock m.ip }
    .ok (c.closeBrace m)
  else .ok m

/-- `if`. -/
def execIf (c : Code) (block : Machine → Except Fault Machine) (m : Machine) :
    Except Fault Machine := do
  let (cond, m) ← c.eval m.step
  let m ← c.execBranch block cond.truthy m
  if c.atTok m.ip .else then c.execBranch block (!cond.truthy) m.step else .ok m

/-- A turn of the loop in `loop`. -/
def loopTurn (c : Code) (block : Machine → Except Fault Machine) (start : Nat) (m : Machine) :
    Except Fault (Bool × Machine) := do
  let m ← block ⟨start, m.σ.note start⟩
  if c.tcount ≤ m.ip then .ok (false, m)
  else if c.tok m.ip = .rBrace then .ok (false, ⟨m.ip + 1, m.σ.note m.ip⟩)
  else .ok (true, m)

/-- `loop`. -/
def execLoop (c : Code) (block : Machine → Except Fault Machine) (n : Nat) (m : Machine) :
    Except Fault Machine := do
  let m := m.step
  if c.atTok m.ip .lBrace then
    let m ← turns (c.loopTurn block (m.ip + 1)) n m.step
    .ok (c.closeBrace m)
  else .ok (c.closeBrace m)

/-- A turn of the loop in `while`. -/
def whileTurn (c : Code) (block : Machine → Except Fault Machine) (condStart bodyStart : Nat)
    (m : Machine) : Except Fault (Bool × Machine) := do
  let (cond, p) ← evalExpr c m.σ.env ⟨condStart, m.σ.con⟩
  let m : Machine := ⟨m.ip, { m.σ with con := p.con }.note condStart⟩
  if ¬cond.truthy then .ok (false, m)
  else
    let m ← block { m with ip := bodyStart + 1 }
    .ok (true, m)

/-- `while`: the condition is evaluated once to find the body. -/
def execWhile (c : Code) (block : Machine → Except Fault Machine) (n : Nat) (m : Machine) :
    Except Fault Machine := do
  let m := m.step
  let condStart := m.ip
  let (_, m) ← c.eval m
  let bodyStart := m.ip
  if c.atTok m.ip .lBrace then
    let m ← turns (c.whileTurn block condStart bodyStart) n m.step
    .ok (c.closeBrace { m with ip := c.skipBlock m.ip })
  else .ok m

/-- A turn of `exec_block` at a token that is neither `Eof` nor `RBrace`, with the answer
whether the loop goes on. -/
def execArm (c : Code) (block : Machine → Except Fault Machine) (n : Nat) (m : Machine) :
    Except Fault (Bool × Machine) :=
  let again (r : Except Fault Machine) : Except Fault (Bool × Machine) := r.map fun m => (true, m)
  match c.tok m.ip with
  | .semicolon => .ok (true, ⟨m.ip + 1, m.σ.note m.ip⟩)
  | .print => again (c.execPrint false { m with σ := m.σ.note m.ip })
  | .println => again (c.execPrint true { m with σ := m.σ.note m.ip })
  | .let => again (c.execLet { m with σ := m.σ.note m.ip })
  | .input => again (c.execInput { m with σ := m.σ.note m.ip })
  | .drawPixel => again (c.execDraw .pixel { m with σ := m.σ.note m.ip })
  | .drawLine => again (c.execDraw .line { m with σ := m.σ.note m.ip })
  | .drawRect => again (c.execDraw .rect { m with σ := m.σ.note m.ip })
  | .drawCircle => again (c.execDraw .circle { m with σ := m.σ.note m.ip })
  | .clearScreen => again (c.execDraw .clear { m with σ := m.σ.note m.ip })
  | .if => again (c.execIf block { m with σ := m.σ.note m.ip })
  | .loop => again (c.execLoop block n m)
  | .while => again (c.execWhile block n m)
  | .break => .ok (false, ⟨c.skipToBrace (m.ip + 1), m.σ.note m.ip⟩)
  | _ => .ok (true, ⟨m.ip + 1, m.σ.note m.ip⟩)

/-- `exec_block`. -/
def execBlock (c : Code) : Nat → Machine → Except Fault Machine
  | 0, _ => .error .fuel
  | n + 1, m =>
      if c.tcount ≤ m.ip then .ok m
      else if c.tok m.ip = .eof ∨ c.tok m.ip = .rBrace then .ok m
      else do
        let (again, m) ← c.execArm (c.execBlock n) n m
        if again then c.execBlock n m else .ok m

end Code

/-- The code that `tokenize` leaves. -/
def Tables.code (t : Tables) : Code where
  tokens := t.tokens
  values := t.values
  tcount := t.count

/-- `exec`, with so many calls and turns of loops: the store at the end of the script. -/
def exec (src keys : List UInt8) (n : Nat) : Except Fault Store := do
  let t ← tokenize src
  let m ← t.code.execBlock n ⟨0, ⟨⟨keys, []⟩, [], t.strbuf, [], []⟩⟩
  .ok m.σ

end PureOS.Interp
