import PureOS.Barrel.Scan

set_option autoImplicit false

/-!
# Barrel: the language that the compiler accepts

The programs as syntax trees, what they mean, and which tree a source text stands
for.  The parser reads the tokens of the compiler's own scanner, and its levels of
expressions are the compiler's; it knows nothing of code.  A program means what
`exec` gives: the text it prints, until it ends.
-/

namespace PureOS.Barrel

open PureOS.Foundation

/-- A word of the language. -/
abbrev Word := BitVec 64
/-- A name is its bytes. -/
abbrev Name := List UInt8

/-- The binary operators. -/
inductive Op where
  | add | sub | mul | div | eq | ne | lt | le | gt | ge
  deriving DecidableEq, Repr

/-- Expressions. -/
inductive Expr where
  | num (v : Word)
  | var (x : Name)
  | neg (e : Expr)
  | bin (op : Op) (a b : Expr)
  deriving DecidableEq, Repr

/-- Statements. -/
inductive Stmt where
  | skip
  | seq (s t : Stmt)
  | assign (x : Name) (e : Expr)
  | print (e : Expr) (newline : Bool)
  | ifThen (e : Expr) (s : Stmt)
  | ifElse (e : Expr) (s t : Stmt)
  | while (e : Expr) (s : Stmt)
  | loop (s : Stmt)
  | break
  deriving DecidableEq, Repr

/-! ## Meaning -/

/-- The truth values of the language. -/
def truth (b : Bool) : Word := if b then 1 else 0

/-- Arithmetic wraps around, comparisons are unsigned, and a division by 0 gives 0. -/
def Op.eval (a b : Word) : Op → Word
  | .add => a + b
  | .sub => a - b
  | .mul => a * b
  | .div => if b = 0 then 0 else a / b
  | .eq => truth (a = b)
  | .ne => truth (a ≠ b)
  | .lt => truth (a < b)
  | .le => truth (a ≤ b)
  | .gt => truth (b < a)
  | .ge => truth (b ≤ a)

/-- The values of the variables assigned so far. -/
abbrev Store := Name → Option Word

/-- Why a program has no meaning within a bound. -/
inductive Stop where
  /-- The bound is used up. -/
  | fuel
  /-- A variable is read before it is assigned. -/
  | unassigned (x : Name)
  deriving DecidableEq

/-- The value of an expression. -/
def Expr.eval (σ : Store) : Expr → Except Stop Word
  | .num v => .ok v
  | .var x =>
      match σ x with
      | some v => .ok v
      | none => .error (.unassigned x)
  | .neg e => do
      let v ← e.eval σ
      return -v
  | .bin op a b => do
      let v ← a.eval σ
      let w ← b.eval σ
      return op.eval v w

/-- The digits of `write_num`, least significant first. -/
def digitsRev : Nat → Nat → List UInt8
  | 0, _ => []
  | n + 1, v => if v = 0 then [] else (ch '0' + UInt8.ofNat (v % 10)) :: digitsRev n (v / 10)

/-- `write_num`: a number of 64 bits has at most 20 digits. -/
def writeNum (v : Word) : List UInt8 :=
  if v = 0 then [ch '0'] else (digitsRev 20 v.toNat).reverse

/-- `sys_print_num`: a number, and a new line if the flag is not 0. -/
def printNum (v newline : Word) : List UInt8 :=
  writeNum v ++ if newline ≠ 0 then [ch '\n'] else []

/-- How a statement ends. -/
inductive Signal where
  /-- The next statement follows. -/
  | normal
  /-- The innermost loop is left. -/
  | break
  deriving DecidableEq, Repr

/-- The result of a statement: how it ends, the variables, and what it prints. -/
abbrev Result := Signal × Store × List UInt8

/-- Go on with `k` unless a `break` is on its way out. -/
def Result.andThen (r : Result) (k : Store → Except Stop Result) : Except Stop Result :=
  match r with
  | (.break, σ, out) => .ok (.break, σ, out)
  | (.normal, σ, out) => do
      let (sig, σ', out') ← k σ
      return (sig, σ', out ++ out')

/-- Go on with `k` after the body of a loop, which a `break` leaves. -/
def Result.again (r : Result) (k : Store → Except Stop Result) : Except Stop Result :=
  match r with
  | (.break, σ, out) => .ok (.normal, σ, out)
  | (.normal, σ, out) => do
      let (sig, σ', out') ← k σ
      return (sig, σ', out ++ out')

/-- What a statement does.  `inLoop` says whether a loop is around it: a `break` outside
of every loop has nothing to leave. -/
def Stmt.exec : Nat → Bool → Stmt → Store → Except Stop Result
  | 0, _, _, _ => .error .fuel
  | n + 1, inLoop, s, σ =>
      match s with
      | .skip => .ok (.normal, σ, [])
      | .seq s t => do
          let r ← s.exec n inLoop σ
          r.andThen (t.exec n inLoop)
      | .assign x e => do
          let v ← e.eval σ
          return (.normal, Function.update σ x (some v), [])
      | .print e newline => do
          let v ← e.eval σ
          return (.normal, σ, printNum v (truth newline))
      | .ifThen e s => do
          let v ← e.eval σ
          if v = 0 then return (.normal, σ, []) else s.exec n inLoop σ
      | .ifElse e s t => do
          let v ← e.eval σ
          if v = 0 then t.exec n inLoop σ else s.exec n inLoop σ
      | .while e s => do
          let v ← e.eval σ
          if v = 0 then return (.normal, σ, [])
          else
            let r ← s.exec n true σ
            r.again ((Stmt.while e s).exec n inLoop)
      | .loop s => do
          let r ← s.exec n true σ
          r.again ((Stmt.loop s).exec n inLoop)
      | .break => .ok (if inLoop then .break else .normal, σ, [])

/-- Before the first statement no variable is assigned. -/
def noVars : Store := fun _ => none

/-- The program ends, and prints `out`. -/
def Stmt.Prints (p : Stmt) (out : List UInt8) : Prop :=
  ∃ n sig σ, p.exec n false noVars = .ok (sig, σ, out)

/-! ## Syntax trees of source texts -/

namespace Scan

/-- Read the next token, which has to be one. -/
def read (s : Scan) : Option Scan :=
  match s.next with
  | .ok s' => if s'.err = 0 then some s' else none
  | .error _ => none

/-- Read over a token that has to stand here. -/
def expect (s : Scan) (t : Tk) : Option Scan := if s.tok = t then s.read else none

/-- The name that was read last. -/
def name (s : Scan) : Name := (s.src.take (s.nameOff + s.nameLen)).drop s.nameOff

end Scan

namespace Parse

/-- The operators of the lowest level. -/
def comparison : Tk → Option Op
  | .eqEq => some .eq
  | .ne => some .ne
  | .lt => some .lt
  | .le => some .le
  | .gt => some .gt
  | .ge => some .ge
  | _ => none

/-- The operators of the middle level. -/
def sum : Tk → Option Op
  | .plus => some .add
  | .minus => some .sub
  | _ => none

/-- The operators of the highest level. -/
def product : Tk → Option Op
  | .star => some .mul
  | .slash => some .div
  | _ => none

mutual

/-- An expression. -/
def expr : Nat → Scan → Option (Expr × Scan)
  | 0, _ => none
  | n + 1, s => cmp n s

/-- Operands of comparisons, which group to the left. -/
def cmp : Nat → Scan → Option (Expr × Scan)
  | 0, _ => none
  | n + 1, s => do
      let (a, s) ← add n s
      cmpLoop n a s

def cmpLoop : Nat → Expr → Scan → Option (Expr × Scan)
  | 0, _, _ => none
  | n + 1, a, s =>
      match comparison s.tok with
      | some op => do
          let s ← s.read
          let (b, s) ← add n s
          cmpLoop n (.bin op a b) s
      | none => some (a, s)

/-- Terms of sums, which group to the left. -/
def add : Nat → Scan → Option (Expr × Scan)
  | 0, _ => none
  | n + 1, s => do
      let (a, s) ← mul n s
      addLoop n a s

def addLoop : Nat → Expr → Scan → Option (Expr × Scan)
  | 0, _, _ => none
  | n + 1, a, s =>
      match sum s.tok with
      | some op => do
          let s ← s.read
          let (b, s) ← mul n s
          addLoop n (.bin op a b) s
      | none => some (a, s)

/-- Factors of products, which group to the left. -/
def mul : Nat → Scan → Option (Expr × Scan)
  | 0, _ => none
  | n + 1, s => do
      let (a, s) ← atom n s
      mulLoop n a s

def mulLoop : Nat → Expr → Scan → Option (Expr × Scan)
  | 0, _, _ => none
  | n + 1, a, s =>
      match product s.tok with
      | some op => do
          let s ← s.read
          let (b, s) ← atom n s
          mulLoop n (.bin op a b) s
      | none => some (a, s)

/-- A number, a variable, an expression in parentheses, or a sign before an atom. -/
def atom : Nat → Scan → Option (Expr × Scan)
  | 0, _ => none
  | n + 1, s =>
      match s.tok with
      | .num => do
          let s' ← s.read
          return (.num s.num, s')
      | .ident => do
          let s' ← s.read
          return (.var s.name, s')
      | .lParen => do
          let s ← s.read
          let (e, s) ← expr n s
          let s ← s.expect .rParen
          return (e, s)
      | .minus => do
          let s ← s.read
          let (e, s) ← atom n s
          return (.neg e, s)
      | _ => none

end

mutual

/-- A statement.  Where none begins, at the end of a block or of the text, stands the
empty one. -/
def stmt : Nat → Scan → Option (Stmt × Scan)
  | 0, _ => none
  | n + 1, s =>
      match s.tok with
      | .semi => do
          let s ← s.read
          return (.skip, s)
      | .let => do
          let s ← s.read
          if s.tok = .ident then
            let x := s.name
            let s ← s.read
            let s ← s.expect .eq
            let (e, s) ← expr n s
            let s ← s.expect .semi
            return (.assign x e, s)
          else none
      | .print | .println => do
          let newline := s.tok = .println
          let s ← s.read
          let (e, s) ← expr n s
          let s ← s.expect .semi
          return (.print e newline, s)
      | .if => do
          let s ← s.read
          let (e, s) ← expr n s
          let (p, s) ← block n s
          if s.tok = .else then
            let s ← s.read
            let (q, s) ← block n s
            return (.ifElse e p q, s)
          else return (.ifThen e p, s)
      | .while => do
          let s ← s.read
          let (e, s) ← expr n s
          let (p, s) ← block n s
          return (.while e p, s)
      | .loop => do
          let s ← s.read
          let (p, s) ← block n s
          return (.loop p, s)
      | .break => do
          let s ← s.read
          let s ← s.expect .semi
          return (.break, s)
      | .eof | .rBrace => some (.skip, s)
      | _ => none

/-- The statements up to a closing brace, or to the end of the text. -/
def blockLoop : Nat → Scan → Option (Stmt × Scan)
  | 0, _ => none
  | n + 1, s =>
      if s.tok = .rBrace ∨ s.tok = .eof then some (.skip, s)
      else do
        let (p, s) ← stmt n s
        let (q, s) ← blockLoop n s
        return (.seq p q, s)

/-- Statements in braces. -/
def block : Nat → Scan → Option (Stmt × Scan)
  | 0, _ => none
  | n + 1, s => do
      let s ← s.expect .lBrace
      let (p, s) ← blockLoop n s
      let s ← s.expect .rBrace
      return (p, s)

end

/-- The statements of a program. -/
def programLoop : Nat → Scan → Option Stmt
  | 0, _ => none
  | n + 1, s =>
      if s.tok = .eof then some .skip
      else do
        let (p, s) ← stmt n s
        let q ← programLoop n s
        return .seq p q

/-- The program of a source text. -/
def program (n : Nat) (src : List UInt8) : Option Stmt := do
  let s ← Scan.read { src := src }
  programLoop n s

end Parse

/-- The syntax tree that a source text stands for. -/
def Denotes (src : List UInt8) (p : Stmt) : Prop := ∃ n, Parse.program n src = some p

/-! ## A text stands for one tree -/

namespace Parse

variable {α β : Type}

/-- What was parsed with less fuel is parsed in the same way with more. -/
def Grows (f g : α → Option β) : Prop := ∀ s r, f s = some r → g s = some r

/-- Sequencing keeps what has been parsed. -/
theorem bind_grows {r r' : Option α} {f g : α → Option β} {b : β} (h : (r >>= f) = some b)
    (hr : ∀ a, r = some a → r' = some a) (hf : ∀ a, f a = some b → g a = some b) :
    (r' >>= g) = some b := by
  obtain ⟨a, ha, hb⟩ := Option.bind_eq_some_iff.mp h
  exact Option.bind_eq_some_iff.mpr ⟨a, hr a ha, hf a hb⟩

/-- The levels of expressions parse with fuel `m` what they parse with fuel `n`. -/
structure ExprGrows (n m : Nat) : Prop where
  expr : Grows (expr n) (expr m)
  cmp : Grows (cmp n) (cmp m)
  cmpLoop : ∀ a, Grows (cmpLoop n a) (cmpLoop m a)
  add : Grows (add n) (add m)
  addLoop : ∀ a, Grows (addLoop n a) (addLoop m a)
  mul : Grows (mul n) (mul m)
  mulLoop : ∀ a, Grows (mulLoop n a) (mulLoop m a)
  atom : Grows (atom n) (atom m)

theorem exprGrows (n : Nat) : ExprGrows n (n + 1) := by
  induction n with
  | zero => constructor <;> intros <;> intro s r h <;> cases h
  | succ n ih =>
      constructor
      · intro s r h
        exact ih.cmp s r h
      · intro s r h
        exact bind_grows h (ih.add s) fun a => ih.cmpLoop a.1 a.2 r
      · intro a s r h
        rw [Parse.cmpLoop] at h ⊢
        cases hop : comparison s.tok with
        | none => rwa [hop] at h
        | some op =>
            simp only [hop] at h ⊢
            exact bind_grows h (fun _ => id) fun s₁ h₁ =>
              bind_grows h₁ (ih.add s₁) fun b => ih.cmpLoop _ b.2 r
      · intro s r h
        exact bind_grows h (ih.mul s) fun a => ih.addLoop a.1 a.2 r
      · intro a s r h
        rw [Parse.addLoop] at h ⊢
        cases hop : sum s.tok with
        | none => rwa [hop] at h
        | some op =>
            simp only [hop] at h ⊢
            exact bind_grows h (fun _ => id) fun s₁ h₁ =>
              bind_grows h₁ (ih.mul s₁) fun b => ih.addLoop _ b.2 r
      · intro s r h
        exact bind_grows h (ih.atom s) fun a => ih.mulLoop a.1 a.2 r
      · intro a s r h
        rw [Parse.mulLoop] at h ⊢
        cases hop : product s.tok with
        | none => rwa [hop] at h
        | some op =>
            simp only [hop] at h ⊢
            exact bind_grows h (fun _ => id) fun s₁ h₁ =>
              bind_grows h₁ (ih.atom s₁) fun b => ih.mulLoop _ b.2 r
      · intro s r h
        rw [Parse.atom] at h ⊢
        cases htok : s.tok with
        | lParen =>
            simp only [htok] at h ⊢
            exact bind_grows h (fun _ => id) fun s₁ h₁ =>
              bind_grows h₁ (ih.expr s₁) fun _ => id
        | minus =>
            simp only [htok] at h ⊢
            exact bind_grows h (fun _ => id) fun s₁ h₁ =>
              bind_grows h₁ (ih.atom s₁) fun _ => id
        | _ => simpa only [htok] using h

/-- Statements and blocks. -/
structure StmtGrows (n m : Nat) : Prop where
  stmt : Grows (stmt n) (stmt m)
  blockLoop : Grows (blockLoop n) (blockLoop m)
  block : Grows (block n) (block m)

theorem stmtGrows (n : Nat) : StmtGrows n (n + 1) := by
  induction n with
  | zero => constructor <;> intro s r h <;> cases h
  | succ n ih =>
      have ihe := exprGrows n
      constructor
      · intro s r h
        rw [Parse.stmt] at h ⊢
        cases htok : s.tok with
        | «let» =>
            simp only [htok] at h ⊢
            refine bind_grows h (fun _ => id) fun s₁ h₁ => ?_
            split at h₁
            · rename_i hident
              rw [if_pos hident]
              refine bind_grows h₁ (fun _ => id) fun s₂ h₂ => ?_
              refine bind_grows h₂ (fun _ => id) fun s₃ h₃ => ?_
              exact bind_grows h₃ (ihe.expr s₃) fun _ => id
            · cases h₁
        | print | println =>
            simp only [htok] at h ⊢
            exact bind_grows h (fun _ => id) fun s₁ h₁ =>
              bind_grows h₁ (ihe.expr s₁) fun _ => id
        | «if» =>
            simp only [htok] at h ⊢
            refine bind_grows h (fun _ => id) fun s₁ h₁ => ?_
            refine bind_grows h₁ (ihe.expr s₁) fun e h₂ => ?_
            refine bind_grows h₂ (ih.block e.2) fun p h₃ => ?_
            split at h₃
            · rename_i helse
              rw [if_pos helse]
              exact bind_grows h₃ (fun _ => id) fun s₂ h₄ =>
                bind_grows h₄ (ih.block s₂) fun _ => id
            · rename_i helse
              rwa [if_neg helse]
        | «while» =>
            simp only [htok] at h ⊢
            refine bind_grows h (fun _ => id) fun s₁ h₁ => ?_
            exact bind_grows h₁ (ihe.expr s₁) fun e h₂ => bind_grows h₂ (ih.block e.2) fun _ => id
        | loop =>
            simp only [htok] at h ⊢
            exact bind_grows h (fun _ => id) fun s₁ h₁ =>
              bind_grows h₁ (ih.block s₁) fun _ => id
        | _ => simpa only [htok] using h
      · intro s r h
        rw [Parse.blockLoop] at h ⊢
        split at h
        · rename_i hend
          rwa [if_pos hend]
        · rename_i hend
          rw [if_neg hend]
          exact bind_grows h (ih.stmt s) fun p h₁ => bind_grows h₁ (ih.blockLoop p.2) fun _ => id
      · intro s r h
        exact bind_grows h (fun _ => id) fun s₁ h₁ => bind_grows h₁ (ih.blockLoop s₁) fun _ => id

theorem programLoop_grows (n : Nat) : Grows (programLoop n) (programLoop (n + 1)) := by
  induction n with
  | zero => intro s r h; cases h
  | succ n ih =>
      intro s r h
      rw [programLoop] at h ⊢
      split at h
      · rename_i heof
        rwa [if_pos heof]
      · rename_i heof
        rw [if_neg heof]
        exact bind_grows h ((stmtGrows n).stmt s) fun p h₁ => bind_grows h₁ (ih p.2) fun _ => id

theorem program_grows {n m : Nat} (h : n ≤ m) : Grows (program n) (program m) := by
  induction h with
  | refl => exact fun _ _ => id
  | step _ ih =>
      intro src r hr
      exact bind_grows (ih src r hr) (fun _ => id) fun s => programLoop_grows _ s r

end Parse

/-- A text stands for at most one tree. -/
theorem Denotes.unique {src : List UInt8} {p q : Stmt} (hp : Denotes src p) (hq : Denotes src q) :
    p = q := by
  obtain ⟨n, hn⟩ := hp
  obtain ⟨m, hm⟩ := hq
  have hp' := Parse.program_grows (Nat.le_max_left n m) src p hn
  have hq' := Parse.program_grows (Nat.le_max_right n m) src q hm
  exact Option.some.inj (hp'.symm.trans hq')

end PureOS.Barrel
