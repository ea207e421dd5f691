import PureOS.Interp.Exec
import PureOS.Interp.Grouping

set_option autoImplicit false

/-!
# Interp: what a statement does (`barrel.rs`)

Statements as trees, how they are written, and what they do: a taken block runs its own
statements, a skipped one none, a `while` goes on as long as its condition holds, and a
`break` leaves the innermost loop.  The meaning keeps the same record of the run as the
interpreter, so that it says which statements are run, and in which order.
-/

namespace PureOS.Interp

open PureOS.Foundation

/-- The keyword of a statement that draws. -/
def DrawKind.token : DrawKind → Token
  | .pixel => .drawPixel
  | .line => .drawLine
  | .rect => .drawRect
  | .circle => .drawCircle
  | .clear => .clearScreen

/-- Statements; `skip` is the empty block. -/
inductive Stmt where
  | skip
  | seq (s t : Stmt)
  | empty
  | print (newline : Bool) (e : Expr)
  | assign (nameStart : BitVec 64) (e : Expr)
  | input (nameStart : BitVec 64)
  | draw (kind : DrawKind) (args : List Expr)
  | ifThen (e : Expr) (s : Stmt)
  | ifElse (e : Expr) (s t : Stmt)
  | while (e : Expr) (s : Stmt)
  | loop (s : Stmt)
  | break

namespace Stmt

/-- How a statement is written. -/
def toks : Stmt → List (Token × BitVec 64)
  | .skip => []
  | .seq s t => s.toks ++ t.toks
  | .empty => [(.semicolon, 0)]
  | .print newline e => (if newline then .println else .print, 0) :: (e.toks ++ [(.semicolon, 0)])
  | .assign x e => (.let, 0) :: (.ident, x) :: (.eq, 0) :: (e.toks ++ [(.semicolon, 0)])
  | .input x => [(.input, 0), (.ident, x), (.semicolon, 0)]
  | .draw kind args => (kind.token, 0) :: (args.flatMap Expr.toks ++ [(.semicolon, 0)])
  | .ifThen e s => (.if, 0) :: (e.toks ++ (.lBrace, 0) :: (s.toks ++ [(.rBrace, 0)]))
  | .ifElse e s t => (.if, 0) :: (e.toks ++ (.lBrace, 0) :: (s.toks ++
      (.rBrace, 0) :: (.else, 0) :: (.lBrace, 0) :: (t.toks ++ [(.rBrace, 0)])))
  | .while e s => (.while, 0) :: (e.toks ++ (.lBrace, 0) :: (s.toks ++ [(.rBrace, 0)]))
  | .loop s => (.loop, 0) :: (.lBrace, 0) :: (s.toks ++ [(.rBrace, 0)])
  | .break => [(.break, 0), (.semicolon, 0)]

/-- Its number of tokens. -/
abbrev len (s : Stmt) : Nat := s.toks.length

/-- The expressions behind a keyword that draws can be told apart: none but the first begins
with what would be an operator. -/
def ArgsApart : List Expr → Prop
  | [] => True
  | e :: es => e.Conventional ∧ (∀ e' ∈ es.head?, ∀ t ∈ e'.toks.head?, t.1.binOp = none) ∧
      ArgsApart es

/-- The tokens of the statement say what the tree says. -/
def WellFormed : Stmt → Prop
  | .skip | .empty | .input _ | .break => True
  | .seq s t => s.WellFormed ∧ t.WellFormed
  | .print _ e => e.Conventional
  | .assign _ e => e.Conventional
  | .draw kind args => args.length = kind.arity ∧ ArgsApart args
  | .ifThen e s => e.Conventional ∧ s.WellFormed
  | .ifElse e s t => e.Conventional ∧ s.WellFormed ∧ t.WellFormed
  | .while e s => e.Conventional ∧ s.WellFormed
  | .loop s => s.WellFormed

end Stmt

/-! ## Meaning -/

/-- The value of an expression, as the evaluator groups it. -/
def Store.value (σ : Store) (e : Expr) : Except Fault (Value × Store) := do
  let (v, con) ← e.leftToRight.value σ.env σ.con
  .ok (v, { σ with con := con })

/-- The values of several expressions. -/
def Store.values (σ : Store) : List Expr → Except Fault (List Value × Store)
  | [] => .ok ([], σ)
  | e :: es => do
      let (v, σ) ← σ.value e
      let (vs, σ) ← σ.values es
      .ok (v :: vs, σ)

/-- How a statement ends. -/
inductive Signal where
  /-- The next statement follows. -/
  | normal
  /-- The innermost loop is left. -/
  | break
  deriving DecidableEq

/-- What happened in a statement that ends normally. -/
inductive Way where
  /-- It has no block, or an `if` ran its last one. -/
  | ran
  /-- The last block of an `if` was skipped. -/
  | skipped
  /-- The condition of a `while` did not hold. -/
  | tested
  /-- A `while` took a turn and ended later. -/
  | turned
  /-- A pass of a `loop` came to its end, and the `loop` ended later. -/
  | passed
  /-- A `while` or a `loop` was left by a `break`. -/
  | left
  deriving DecidableEq

/-- What the statement at `ip` does to the store.  Of each statement that is run and ends
normally, `P` is asked. -/
inductive Runs (P : Way → Nat → Stmt → Store → Store → Prop) :
    Nat → Stmt → Store → Signal → Store → Prop
  | skip {ip : Nat} {σ : Store} : Runs P ip .skip σ .normal σ
  | seq {ip : Nat} {s t : Stmt} {σ σ₁ σ₂ : Store} {sig : Signal}
      (first : Runs P ip s σ .normal σ₁) (second : Runs P (ip + s.len) t σ₁ sig σ₂) :
      Runs P ip (.seq s t) σ sig σ₂
  | seqBreak {ip : Nat} {s t : Stmt} {σ σ₁ : Store} (first : Runs P ip s σ .break σ₁) :
      Runs P ip (.seq s t) σ .break σ₁
  | empty {ip : Nat} {σ : Store} (ok : P .ran ip .empty σ (σ.note ip)) :
      Runs P ip .empty σ .normal (σ.note ip)
  | print {ip : Nat} {newline : Bool} {e : Expr} {σ σ₁ : Store} {v : Value}
      (val : (σ.note ip).value e = .ok (v, σ₁))
      (ok : P .ran ip (.print newline e) σ (σ₁.print newline v)) :
      Runs P ip (.print newline e) σ .normal (σ₁.print newline v)
  | assign {ip : Nat} {x : BitVec 64} {e : Expr} {σ σ₁ : Store} {v : Value}
      (val : (σ.note ip).value e = .ok (v, σ₁)) (ok : P .ran ip (.assign x e) σ (σ₁.assign x v)) :
      Runs P ip (.assign x e) σ .normal (σ₁.assign x v)
  | input {ip : Nat} {x : BitVec 64} {σ σ₁ : Store} (line : (σ.note ip).input x = .ok σ₁)
      (ok : P .ran ip (.input x) σ σ₁) : Runs P ip (.input x) σ .normal σ₁
  | draw {ip : Nat} {kind : DrawKind} {args : List Expr} {σ σ₁ : Store} {vs : List Value}
      (vals : (σ.note ip).values args = .ok (vs, σ₁))
      (ok : P .ran ip (.draw kind args) σ (σ₁.draw kind vs)) :
      Runs P ip (.draw kind args) σ .normal (σ₁.draw kind vs)
  | thenTaken {ip : Nat} {e : Expr} {s : Stmt} {σ σ₁ σ₂ : Store} {v : Value} {sig : Signal}
      (val : (σ.note ip).value e = .ok (v, σ₁)) (holds : v.truthy = true)
      (body : Runs P (ip + 1 + e.toks.length + 1) s σ₁ sig σ₂)
      (ok : sig = .normal → P .ran ip (.ifThen e s) σ σ₂) : Runs P ip (.ifThen e s) σ sig σ₂
  | thenSkipped {ip : Nat} {e : Expr} {s : Stmt} {σ σ₁ : Store} {v : Value}
      (val : (σ.note ip).value e = .ok (v, σ₁)) (fails : v.truthy = false)
      (ok : P .skipped ip (.ifThen e s) σ σ₁) : Runs P ip (.ifThen e s) σ .normal σ₁
  | elseSkipped {ip : Nat} {e : Expr} {s t : Stmt} {σ σ₁ σ₂ : Store} {v : Value} {sig : Signal}
      (val : (σ.note ip).value e = .ok (v, σ₁)) (holds : v.truthy = true)
      (body : Runs P (ip + 1 + e.toks.length + 1) s σ₁ sig σ₂)
      (ok : sig = .normal → P .skipped ip (.ifElse e s t) σ σ₂) :
      Runs P ip (.ifElse e s t) σ sig σ₂
  | elseTaken {ip : Nat} {e : Expr} {s t : Stmt} {σ σ₁ σ₂ : Store} {v : Value} {sig : Signal}
      (val : (σ.note ip).value e = .ok (v, σ₁)) (fails : v.truthy = false)
      (body : Runs P (ip + 1 + e.toks.length + 1 + s.len + 3) t σ₁ sig σ₂)
      (ok : sig = .normal → P .ran ip (.ifElse e s t) σ σ₂) : Runs P ip (.ifElse e s t) σ sig σ₂
  | whileStop {ip : Nat} {e : Expr} {s : Stmt} {σ σ₁ : Store} {v : Value}
      (val : σ.value e = .ok (v, σ₁)) (fails : v.truthy = false)
      (ok : P .tested ip (.while e s) σ (σ₁.note (ip + 1))) :
      Runs P ip (.while e s) σ .normal (σ₁.note (ip + 1))
  | whileTurn {ip : Nat} {e : Expr} {s : Stmt} {σ σ₁ σ₂ σ₃ : Store} {v : Value}
      (val : σ.value e = .ok (v, σ₁)) (holds : v.truthy = true)
      (body : Runs P (ip + 1 + e.toks.length + 1) s (σ₁.note (ip + 1)) .normal σ₂)
      (rest : Runs P ip (.while e s) σ₂ .normal σ₃) (ok : P .turned ip (.while e s) σ σ₃) :
      Runs P ip (.while e s) σ .normal σ₃
  | whileBreak {ip : Nat} {e : Expr} {s : Stmt} {σ σ₁ σ₂ : Store} {v : Value}
      (val : σ.value e = .ok (v, σ₁)) (holds : v.truthy = true)
      (body : Runs P (ip + 1 + e.toks.length + 1) s (σ₁.note (ip + 1)) .break σ₂)
      (ok : P .left ip (.while e s) σ σ₂) : Runs P ip (.while e s) σ .normal σ₂
  | loopPass {ip : Nat} {s : Stmt} {σ σ₁ σ₂ : Store}
      (body : Runs P (ip + 2) s (σ.note (ip + 2)) .normal σ₁)
      (rest : Runs P ip (.loop s) (σ₁.note (ip + 2 + s.len)) .normal σ₂)
      (ok : P .passed ip (.loop s) σ σ₂) : Runs P ip (.loop s) σ .normal σ₂
  | loopBreak {ip : Nat} {s : Stmt} {σ σ₁ : Store}
      (body : Runs P (ip + 2) s (σ.note (ip + 2)) .break σ₁)
      (ok : P .left ip (.loop s) σ σ₁) : Runs P ip (.loop s) σ .normal σ₁
  | break {ip : Nat} {σ : Store} : Runs P ip .break σ .break (σ.note ip)

/-- What a statement does, whatever may be asked of the steps. -/
abbrev Meaning : Nat → Stmt → Store → Signal → Store → Prop := Runs fun _ _ _ _ _ => True

namespace Runs

variable {P Q : Way → Nat → Stmt → Store → Store → Prop} {ip : Nat} {s : Stmt} {σ σ' : Store}
variable {sig : Signal}

end Runs

end PureOS.Interp
