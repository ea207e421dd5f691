import PureOS.Interp.Lexer

set_option autoImplicit false

/-!
# Interp: values and expressions (`barrel.rs`)

The evaluator of expressions walks over the table of tokens with a pointer that it shares
with the statements.  Its levels are those of the source: `eval_cmp` over `eval_add` over
`eval_mul` over `eval_atom`, each of the first three a first operand and a loop over the
operators of the level.

An `input` waits for a line from the keyboard; a wait for keys that never come has no result.
-/

namespace PureOS.Interp

open PureOS.Foundation
open PureOS.Barrel.Scan (isDigit)

/-- `MAX_VARS`. -/
abbrev maxVars : Nat := 16

/-- `Value`. -/
inductive Value where
  | num (n : BitVec 64)
  | str (start : BitVec 64)
  | nil
  deriving DecidableEq, Repr

namespace Value

/-- `match v { Value::Num(n) => n, _ => 0 }`. -/
def toNum : Value → BitVec 64
  | .num n => n
  | _ => 0

/-- The value of a truth value. -/
def ofBool (b : Bool) : Value := .num (if b then 1 else 0)

end Value

/-- `Env`: the variables in use, each under the place of its name in the string buffer. -/
abbrev Env := List (BitVec 64 × Value)

namespace Env

/-- `get`. -/
def get (env : Env) (nameStart : BitVec 64) : Value :=
  match env.find? fun v => v.1 = nameStart with
  | some v => v.2
  | none => .nil

/-- `set`. -/
def set (env : Env) (nameStart : BitVec 64) (val : Value) : Env :=
  match env.findIdx? fun v => v.1 = nameStart with
  | some i => List.set env i (nameStart, val)
  | none => if env.length < maxVars then env ++ [(nameStart, val)] else env

end Env

/-- The keys that will be pressed, and what was written to the terminal. -/
structure Console where
  keys : List UInt8
  out : List UInt8
  deriving DecidableEq

namespace Console

/-- `terminal::write`. -/
def write (con : Console) (text : List UInt8) : Console := { con with out := con.out ++ text }

/-- The loop of `input`: `buf` is `buf[..pos]`. -/
def readLoop : List UInt8 → List UInt8 → List UInt8 → Except Fault (List UInt8 × Console)
  | [], _, _ => .error .fuel
  | c :: keys, buf, out =>
      if c = ch '\n' ∨ c = ch '\r' then .ok (buf, ⟨keys, out ++ [ch '\n']⟩)
      else if c = 0x7F ∨ c = 0x08 then
        if 0 < buf.length then readLoop keys buf.dropLast (out ++ [0x7F]) else readLoop keys buf out
      else if 0x20 ≤ c ∧ c < 0x7F then
        if buf.length < 63 then readLoop keys (buf ++ [c]) (out ++ [c]) else readLoop keys buf out
      else readLoop keys buf out

/-- A line from the keyboard. -/
def readLine (con : Console) : Except Fault (List UInt8 × Console) :=
  readLoop con.keys [] (con.out ++ ascii "> ")

end Console

/-- The number in a line: its digits, whatever is between them. -/
def lineNumber (line : List UInt8) : BitVec 64 :=
  line.foldl (fun n d => if isDigit d then n * 10 + BitVec.ofNat 64 (d - ch '0').toNat else n) 0

/-- The token tables, as the interpreter reads them. -/
structure Code where
  tokens : Vector Token maxTokens
  values : Vector (BitVec 64) maxTokens
  tcount : Nat

namespace Code

/-- `if ip < MAX_TOKENS { tokens[ip] } else { Token::Eof }`.  Where the source tests another
bound, `tcount`, that is not above `MAX_TOKENS`. -/
def tok (c : Code) (ip : Nat) : Token := (c.tokens[ip]?).getD .eof

/-- `values[ip]`, at an index for which there is a token. -/
def val (c : Code) (ip : Nat) : BitVec 64 := (c.values[ip]?).getD 0

end Code

/-- The operators of `eval_mul`. -/
def mulOp : Token → Option (BitVec 64 → BitVec 64 → BitVec 64)
  | .star => some fun l r => l * r
  | .slash => some fun l r => if r ≠ 0 then l / r else 0
  | .mod => some fun l r => if r ≠ 0 then l % r else 0
  | _ => none

/-- The operators of `eval_add`. -/
def addOp : Token → Option (BitVec 64 → BitVec 64 → BitVec 64)
  | .plus => some fun l r => l + r
  | .minus => some fun l r => l - r
  | _ => none

/-- The operators of `eval_cmp`.  The right operand of `&&` and `||` is evaluated in any
case, and thrown away where the left one decides. -/
def cmpOp : Token → Option (BitVec 64 → BitVec 64 → BitVec 64)
  | .eqEq => some fun l r => if l = r then 1 else 0
  | .ne => some fun l r => if l ≠ r then 1 else 0
  | .lt => some fun l r => if l < r then 1 else 0
  | .gt => some fun l r => if r < l then 1 else 0
  | .le => some fun l r => if l ≤ r then 1 else 0
  | .ge => some fun l r => if r ≤ l then 1 else 0
  | .andAnd => some fun l r => if l = 0 then 0 else if r ≠ 0 then 1 else 0
  | .orOr => some fun l r => if l ≠ 0 then 1 else if r ≠ 0 then 1 else 0
  | _ => none

/-- The token pointer and the console. -/
structure Point where
  ip : Nat
  con : Console

/-- What an evaluation gives. -/
abbrev Evaluation := Point → Except Fault (Value × Point)

/-- The loop of a level: as long as an operator of the level follows, another operand. -/
def levelLoop (c : Code) (op : Token → Option (BitVec 64 → BitVec 64 → BitVec 64))
    (operand : Evaluation) : Nat → Value → Evaluation
  | 0, _, _ => .error .fuel
  | n + 1, left, p =>
      match op (c.tok p.ip) with
      | none => .ok (left, p)
      | some f => do
          let (right, p) ← operand { p with ip := p.ip + 1 }
          levelLoop c op operand n (.num (f left.toNum right.toNum)) p

/-- A level: its first operand and its loop. -/
def level (c : Code) (op : Token → Option (BitVec 64 → BitVec 64 → BitVec 64))
    (operand : Evaluation) (n : Nat) : Evaluation := fun p => do
  let (left, p) ← operand p
  levelLoop c op operand n left p

/-- `eval_mul`. -/
def evalMul (c : Code) (atom : Evaluation) (n : Nat) : Evaluation := level c mulOp atom n

/-- `eval_add`. -/
def evalAdd (c : Code) (atom : Evaluation) (n : Nat) : Evaluation :=
  level c addOp (evalMul c atom n) n

/-- `eval_cmp`. -/
def evalCmp (c : Code) (atom : Evaluation) (n : Nat) : Evaluation :=
  level c cmpOp (evalAdd c atom n) n

/-- `eval_atom`. -/
def evalAtom (c : Code) (env : Env) : Nat → Evaluation
  | 0, _ => .error .fuel
  | n + 1, p =>
      if maxTokens ≤ p.ip then .ok (.nil, p)
      else
        let next := { p with ip := p.ip + 1 }
        match c.tok p.ip with
        | .number => .ok (.num (c.val p.ip), next)
        | .string => .ok (.str (c.val p.ip), next)
        | .ident => .ok (env.get (c.val p.ip), next)
        | .lParen => do
            let (val, p) ← evalCmp c (evalAtom c env n) n next
            .ok (val, if c.tok p.ip = .rParen then { p with ip := p.ip + 1 } else p)
        | .minus => do
            let (val, p) ← evalAtom c env n next
            match val with
            | .num v => .ok (.num (-v), p)
            | _ => .ok (.nil, p)
        | .not => do
            let (val, p) ← evalAtom c env n next
            match val with
            | .num v => .ok (.num (if v = 0 then 1 else 0), p)
            | _ => .ok (.nil, p)
        | .input => do
            let (line, con) ← p.con.readLine
            .ok (.num (lineNumber line), ⟨p.ip + 1, con⟩)
        | _ => .ok (.nil, next)

/-- `eval_expr`: a call of the evaluator nests, and a loop turns, at most once for each
token. -/
def evalExpr (c : Code) (env : Env) : Evaluation :=
  evalCmp c (evalAtom c env (maxTokens + 1)) (maxTokens + 1)

end PureOS.Interp
