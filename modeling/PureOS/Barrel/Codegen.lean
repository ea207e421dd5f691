import PureOS.Barrel.Compiler
import PureOS.Barrel.Language
import PureOS.Foundation.Cpu

set_option autoImplicit false

/-!
# Barrel: the code of a syntax tree

The code that belongs to a program, defined on its tree: what the compiler emits in
one pass and patches afterwards is this.  `V` is the list of the names in the order
of their slots.  `exit` is the distance from the end of a statement's code to the end
of the loop around it; without one a `break` keeps the distance 0 that it is emitted
with.
-/

namespace PureOS.Barrel

open PureOS.Foundation PureOS.Foundation.X86

/-- The displacement of a jump. -/
def rel (d : Int) : BitVec 32 := BitVec.ofInt 32 d

/-- The displacement of a name's slot from the frame pointer. -/
def disp (V : List Name) (x : Name) : BitVec 32 := rel (Comp.slotDisp (V.idxOf x))

/-- A comparison that leaves 1 or 0 in `rax`. -/
def compareCode (cond : Cond) : List Instr := [.cmpRaxRcx, .setAl cond, .movzxRaxAl]

/-- The code of an operator: its operands are in `rax` and `rcx`. -/
def Op.code : Op → List Instr
  | .add => [.addRaxRcx]
  | .sub => [.subRaxRcx]
  | .mul => [.imulRaxRcx]
  | .div => [.testRcx, .je (rel 10), .xorEdx, .divRcx, .jmp (rel 2), .xorEax]
  | .eq => compareCode .e
  | .ne => compareCode .ne
  | .lt => compareCode .b
  | .le => compareCode .be
  | .gt => compareCode .a
  | .ge => compareCode .ae

/-- The code of an expression, which leaves its value in `rax`. -/
def Expr.code (V : List Name) : Expr → List Instr
  | .num v => [.movRaxImm v]
  | .var x => [.loadRbp (disp V x)]
  | .neg e => e.code V ++ [.negRax]
  | .bin op a b =>
      a.code V ++ ([.pushRax] ++ (b.code V ++ ([.movRcxRax, .popRax] ++ op.code)))

/-- The length of an expression's code. -/
def Expr.size : Expr → Nat
  | .num _ => 10
  | .var _ => 7
  | .neg e => e.size + 3
  | .bin op a b => a.size + (1 + (b.size + (4 + len op.code)))

/-- The code that prints `rax`. -/
def printCode (newline : Bool) : List Instr :=
  [.movRdiRax, if newline then .movEsi (rel 1) else .xorEsi, .movEax (rel 32), .syscall]

/-- A test of `rax` and a jump that is taken when it is 0. -/
def branchCode (d : Int) : List Instr := [.testRax, .je (rel d)]

/-- The length of a statement's code. -/
def Stmt.size : Stmt → Nat
  | .skip => 0
  | .seq s t => s.size + t.size
  | .assign _ e => e.size + 7
  | .print e newline => e.size + len (printCode newline)
  | .ifThen e s => e.size + (9 + s.size)
  | .ifElse e s t => e.size + (9 + (s.size + (5 + t.size)))
  | .while e s => e.size + (9 + (s.size + 5))
  | .loop s => s.size + 5
  | .break => 5

/-- The code of a statement. -/
def Stmt.code (V : List Name) (exit : Option Nat) : Stmt → List Instr
  | .skip => []
  | .seq s t => s.code V (exit.map (t.size + ·)) ++ t.code V exit
  | .assign x e => e.code V ++ [.storeRbp (disp V x)]
  | .print e newline => e.code V ++ printCode newline
  | .ifThen e s => e.code V ++ (branchCode s.size ++ s.code V exit)
  | .ifElse e s t =>
      e.code V ++ (branchCode (s.size + 5) ++
        (s.code V (exit.map (5 + t.size + ·)) ++ ([.jmp (rel t.size)] ++ t.code V exit)))
  | .while e s =>
      e.code V ++ (branchCode (s.size + 5) ++
        (s.code V (some 5) ++ [.jmp (rel (-(e.size + (9 + (s.size + 5)) : Nat)))]))
  | .loop s => s.code V (some 5) ++ [.jmp (rel (-(s.size + 5 : Nat)))]
  | .break => [.jmp (rel (exit.getD 0 : Nat))]

/-- Where the `break`s that leave a statement keep their distances. -/
def Stmt.sites : Stmt → List Nat
  | .seq s t => s.sites ++ t.sites.map (s.size + ·)
  | .ifThen e s => s.sites.map (e.size + 9 + ·)
  | .ifElse e s t =>
      s.sites.map (e.size + 9 + ·) ++ t.sites.map (e.size + 9 + s.size + 5 + ·)
  | .break => [1]
  | .skip | .assign _ _ | .print _ _ | .while _ _ | .loop _ => []

/-- The variables that a statement assigns to. -/
def Stmt.targets : Stmt → List Name
  | .seq s t | .ifElse _ s t => s.targets ++ t.targets
  | .assign x _ => [x]
  | .ifThen _ s | .while _ s | .loop s => s.targets
  | .skip | .print _ _ | .break => []

/-- The places where a statement at byte `p` and the statements inside it begin and end. -/
def Stmt.marks (p : Nat) (s : Stmt) : List Nat :=
  p :: (p + s.size) ::
    match s with
    | .seq s t => s.marks p ++ t.marks (p + s.size)
    | .ifThen e s | .while e s => s.marks (p + e.size + 9)
    | .ifElse e s t => s.marks (p + e.size + 9) ++ t.marks (p + e.size + 9 + s.size + 5)
    | .loop s => s.marks p
    | .skip | .assign _ _ | .print _ _ | .break => []

/-- The code before the first statement. -/
def prologueCode : List Instr := [.pushRbp, .movRbpRsp, .subRsp (rel frameBytes)]

/-- The code after the last statement. -/
def exitCode : List Instr := [.xorEdi, .movEax (rel 6), .syscall]

/-- The code of a program. -/
def programCode (V : List Name) (p : Stmt) : List Instr :=
  prologueCode ++ (p.code V none ++ exitCode)

/-! ## Lengths -/

theorem size_je (d : BitVec 32) : (Instr.je d).size = 6 := by
  simp [Instr.size, Instr.encode]

theorem size_jmp (d : BitVec 32) : (Instr.jmp d).size = 5 := by
  simp [Instr.size, Instr.encode]

theorem len_branchCode (d : Int) : len (branchCode d) = 9 := by
  simp [branchCode, Instr.size, Instr.encode]

theorem Expr.len_code (V : List Name) (e : Expr) : len (e.code V) = e.size := by
  induction e with
  | num v => simp [Expr.code, Expr.size, Instr.size, Instr.encode]
  | var x => simp [Expr.code, Expr.size, Instr.size, Instr.encode]
  | neg e ih => simp [Expr.code, Expr.size, ih, Instr.size, Instr.encode]
  | bin op a b iha ihb =>
      simp only [Expr.code, Expr.size, len_append, iha, ihb]
      rfl

theorem Stmt.len_code (V : List Name) (exit : Option Nat) (s : Stmt) :
    len (s.code V exit) = s.size := by
  induction s generalizing exit with
  | skip => rfl
  | seq s t ihs iht => rw [Stmt.code, Stmt.size, len_append, ihs, iht]
  | assign x e => simp [Stmt.code, Stmt.size, Expr.len_code, Instr.size, Instr.encode]
  | print e newline => rw [Stmt.code, Stmt.size, len_append, Expr.len_code]
  | ifThen e s ih =>
      rw [Stmt.code, Stmt.size, len_append, len_append, len_branchCode, Expr.len_code, ih]
  | ifElse e s t ihs iht =>
      simp only [Stmt.code, Stmt.size, len_append, len_branchCode, Expr.len_code, ihs, iht,
        len_cons, len_nil, size_jmp]
  | «while» e s ih =>
      simp only [Stmt.code, Stmt.size, len_append, len_branchCode, Expr.len_code, ih, len_cons,
        len_nil, size_jmp]
  | loop s ih =>
      simp only [Stmt.code, Stmt.size, len_append, ih, len_cons, len_nil, size_jmp]
  | «break» => simp only [Stmt.code, Stmt.size, len_cons, len_nil, size_jmp]

end PureOS.Barrel
