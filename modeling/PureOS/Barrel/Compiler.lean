import PureOS.Barrel.Emit

set_option autoImplicit false

/-!
# Barrel: the one-pass compiler (`barrelc.rs`)

Recursive descent that emits code as it reads.  The first argument of the
functions that call each other bounds the depth of their calls and the turns of
their loops; a computation that needs more ends in `Fault.fuel`.
-/

namespace PureOS.Barrel

open PureOS.Foundation

namespace Comp

/-! ## Expressions -/

/-- The second byte of the `setcc` of a comparison. -/
def setcc : Tk → Option UInt8
  | .eqEq => some 0x94
  | .ne => some 0x95
  | .lt => some 0x92
  | .le => some 0x96
  | .gt => some 0x97
  | .ge => some 0x93
  | _ => none

/-- The emitter of an operator of the level of `add`. -/
def additive : Tk → Option (Comp → Comp)
  | .plus => some opAdd
  | .minus => some opSub
  | _ => none

/-- The emitter of an operator of the level of `mul`. -/
def multiplicative : Tk → Option (Comp → Comp)
  | .star => some opMul
  | .slash => some opDiv
  | _ => none

mutual

/-- `expr`. -/
def expr : Nat → Comp → Except Fault Comp
  | 0, _ => .error .fuel
  | n + 1, c => cmp n c

/-- `cmp`. -/
def cmp : Nat → Comp → Except Fault Comp
  | 0, _ => .error .fuel
  | n + 1, c => do
      let c ← add n c
      cmpLoop n c

/-- The loop of `cmp`. -/
def cmpLoop : Nat → Comp → Except Fault Comp
  | 0, _ => .error .fuel
  | n + 1, c =>
      match setcc c.tok with
      | some set2 => do
          let c ← c.next
          let c := c.pushRax
          let c ← add n c
          let c := (c.movRcxRax.popRax).opCmpSet set2
          if c.err ≠ 0 then return c else cmpLoop n c
      | none => .ok c

/-- `add`. -/
def add : Nat → Comp → Except Fault Comp
  | 0, _ => .error .fuel
  | n + 1, c => do
      let c ← mul n c
      addLoop n c

/-- The loop of `add`. -/
def addLoop : Nat → Comp → Except Fault Comp
  | 0, _ => .error .fuel
  | n + 1, c =>
      match additive c.tok with
      | some op => do
          let c ← c.next
          let c := c.pushRax
          let c ← mul n c
          let c := op (c.movRcxRax.popRax)
          if c.err ≠ 0 then return c else addLoop n c
      | none => .ok c

/-- `mul`. -/
def mul : Nat → Comp → Except Fault Comp
  | 0, _ => .error .fuel
  | n + 1, c => do
      let c ← atom n c
      mulLoop n c

/-- The loop of `mul`. -/
def mulLoop : Nat → Comp → Except Fault Comp
  | 0, _ => .error .fuel
  | n + 1, c =>
      match multiplicative c.tok with
      | some op => do
          let c ← c.next
          let c := c.pushRax
          let c ← atom n c
          let c := op (c.movRcxRax.popRax)
          if c.err ≠ 0 then return c else mulLoop n c
      | none => .ok c

/-- `atom`. -/
def atom : Nat → Comp → Except Fault Comp
  | 0, _ => .error .fuel
  | n + 1, c =>
      match c.tok with
      | .num => do
          let imm := c.num
          let c ← c.next
          return c.movRaxImm imm
      | .ident => do
          let (slot, c) ← c.varSlot c.nameOff c.nameLen
          let c ← c.next
          return c.loadLocal slot
      | .lParen => do
          let c ← c.next
          let c ← expr n c
          c.eat .rParen
      | .minus => do
          let c ← c.next
          let c ← atom n c
          return c.opNeg
      | _ => .ok (c.fail eParse)

end

/-! ## Statements -/

/-- The loop of `close_breaks`: patch the sites from index `i` on. -/
def closeLoop (c : Comp) (target : Nat) : Nat → List Nat → Except Fault Comp
  | _, [] => .ok c
  | i, site :: rest =>
      if i < maxBreaks then (c.patchTo site target).closeLoop target (i + 1) rest
      else .error .panic

/-- `close_breaks`. -/
def closeBreaks (c : Comp) (bbase target : Nat) : Except Fault Comp := do
  let c ← c.closeLoop target bbase (c.breaks.drop bbase)
  return { c with breaks := c.breaks.take bbase }

/-- `test rax, rax` and a `je` that is patched later, with its site. -/
def emitBranch (c : Comp) : Nat × Comp :=
  let c := (c.emitBytes [0x48, 0x85, 0xC0]).emitBytes [0x0F, 0x84]
  (c.clen, c.emitU32 0)

/-- A `jmp` that is patched later, with its site. -/
def emitJump (c : Comp) : Nat × Comp :=
  let c := c.emitBytes [0xE9]
  (c.clen, c.emitU32 0)

mutual

/-- `stmt`. -/
def stmt : Nat → Comp → Except Fault Comp
  | 0, _ => .error .fuel
  | n + 1, c =>
      match c.tok with
      | .semi => c.next
      | .let => do
          let c ← c.next
          if c.tok ≠ .ident then return c.fail eParse
          else
            let (slot, c) ← c.varSlot c.nameOff c.nameLen
            let c ← c.next
            let c ← c.eat .eq
            let c ← expr n c
            let c ← c.eat .semi
            return c.storeLocal slot
      | .print | .println => do
          let nl := c.tok = .println
          let c ← c.next
          let c ← expr n c
          let c ← c.eat .semi
          return c.emitPrint nl
      | .if => do
          let c ← c.next
          let c ← expr n c
          let (siteElse, c) := c.emitBranch
          let c ← block n c
          if c.tok = .else then
            let c ← c.next
            let (siteEnd, c) := c.emitJump
            let c := c.patchTo siteElse c.clen
            let c ← block n c
            return c.patchTo siteEnd c.clen
          else return c.patchTo siteElse c.clen
      | .while => do
          let c ← c.next
          let top := c.clen
          let c ← expr n c
          let (siteEnd, c) := c.emitBranch
          let bbase := c.breaks.length
          let c ← block n c
          let (siteBack, c) := c.emitJump
          let c := c.patchTo siteBack top
          let endTarget := c.clen
          let c := c.patchTo siteEnd endTarget
          c.closeBreaks bbase endTarget
      | .loop => do
          let c ← c.next
          let top := c.clen
          let bbase := c.breaks.length
          let c ← block n c
          let (siteBack, c) := c.emitJump
          let c := c.patchTo siteBack top
          let endTarget := c.clen
          c.closeBreaks bbase endTarget
      | .break => do
          let c ← c.next
          let c ← c.eat .semi
          let (site, c) := c.emitJump
          if c.breaks.length < maxBreaks then return { c with breaks := c.breaks ++ [site] }
          else return c.fail eOverflow
      | .eof | .rBrace => .ok c
      | _ => .ok (c.fail eParse)

/-- The loop of `block`. -/
def blockLoop : Nat → Comp → Except Fault Comp
  | 0, _ => .error .fuel
  | n + 1, c =>
      if c.tok ≠ .rBrace ∧ c.tok ≠ .eof ∧ c.err = 0 then do
        let c ← stmt n c
        blockLoop n c
      else .ok c

/-- `block`. -/
def block : Nat → Comp → Except Fault Comp
  | 0, _ => .error .fuel
  | n + 1, c => do
      let c ← c.eat .lBrace
      let c ← blockLoop n c
      c.eat .rBrace

end

/-- The loop of `program`. -/
def programLoop : Nat → Comp → Except Fault Comp
  | 0, _ => .error .fuel
  | n + 1, c =>
      if c.tok ≠ .eof ∧ c.err = 0 then do
        let c ← stmt n c
        programLoop n c
      else .ok c

/-- `program`. -/
def program (n : Nat) (c : Comp) : Except Fault Comp := do
  let c := c.emitPrologue
  let c ← c.next
  let c ← programLoop n c
  return c.emitExit

/-- The state that `compile_and_run` starts with. -/
def start (src : List UInt8) (elf : Nat → UInt8) : Comp := { src := src, elf := elf }

end Comp

/-- The compilation in `compile_and_run`: the final state, with the program when
`err` is 0 and with an error code when it is not. -/
def compile (n : Nat) (src : List UInt8) (elf : Nat → UInt8) : Except Fault Comp :=
  (Comp.start src elf).program n

end PureOS.Barrel
