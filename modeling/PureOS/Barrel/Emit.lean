import PureOS.Barrel.Scan

set_option autoImplicit false

/-!
# Barrel: the code emitters of the compiler (`barrelc.rs`)

The compiler writes its output into `ELF_BUF`, behind the place of the headers,
and patches the jumps there whose targets it learns later.
-/

namespace PureOS.Barrel

open PureOS.Foundation

/-- `CODE_OFF`: the code begins behind the ELF header and one program header. -/
abbrev codeOff : Nat := 64 + 56
/-- `ELF_BUF_SIZE`. -/
abbrev elfBufSize : Nat := 4096
/-- `MAX_LOCALS`. -/
abbrev maxLocals : Nat := 32
/-- `FRAME_BYTES`. -/
abbrev frameBytes : Nat := maxLocals * 8
/-- `MAX_BREAKS`. -/
abbrev maxBreaks : Nat := 32

/-- `Comp`, with the buffer it writes to.  `vars` and `breaks` are the used parts of
their tables, so `nvars` and `nbreaks` are their lengths. -/
structure Comp extends Scan where
  elf : Nat → UInt8
  clen : Nat := 0
  vars : List (Nat × Nat) := []
  breaks : List Nat := []

namespace Comp

/-- `fail`. -/
def fail (c : Comp) (code : Int) : Comp := { c with toScan := c.toScan.fail code }

/-- `next`. -/
def next (c : Comp) : Except Fault Comp := c.toScan.next.map fun s => { c with toScan := s }

/-- `eat`. -/
def eat (c : Comp) (t : Tk) : Except Fault Comp :=
  (c.toScan.eat t).map fun s => { c with toScan := s }

/-! ## Variables -/

/-- The loop of `var_slot`, from slot `i` on. -/
def findSlot (c : Comp) (off len : Nat) : Nat → List (Nat × Nat) → Except Fault (Option Nat)
  | _, [] => .ok none
  | i, (o, l) :: rest =>
      if i < maxLocals then
        if l = len then do
          let known ← c.slice o (o + l)
          let name ← c.slice off (off + len)
          if known = name then return some i else c.findSlot off len (i + 1) rest
        else c.findSlot off len (i + 1) rest
      else .error .panic

/-- `var_slot`: the slot of a name, a new one when there is none yet. -/
def varSlot (c : Comp) (off len : Nat) : Except Fault (Nat × Comp) := do
  match ← c.findSlot off len 0 c.vars with
  | some i => return (i, c)
  | none =>
      if c.vars.length ≥ maxLocals then return (0, c.fail eTooManyVars)
      else return (c.vars.length, { c with vars := c.vars ++ [(off, len)] })

/-- `slot_disp`. -/
def slotDisp (slot : Nat) : Int := -(((slot + 1) * 8 : Nat) : Int)

/-! ## Bytes -/

/-- `emit`. -/
def emit (c : Comp) (b : UInt8) : Comp :=
  let idx := codeOff + c.clen
  if idx ≥ elfBufSize then c.fail eOverflow
  else { c with elf := Function.update c.elf idx b, clen := c.clen + 1 }

/-- `emit_bytes`. -/
def emitBytes (c : Comp) : List UInt8 → Comp
  | [] => c
  | b :: bs => (c.emit b).emitBytes bs

/-- The two's complement of a 32-bit number, as bytes. -/
def le32 (v : Int) : List UInt8 := toLE 4 (BitVec.ofInt 32 v).toNat

/-- `emit_u32`. -/
def emitU32 (c : Comp) (v : Int) : Comp := c.emitBytes (le32 v)

/-- `emit_u64`. -/
def emitU64 (c : Comp) (v : BitVec 64) : Comp := c.emitBytes (toLE 8 v.toNat)

/-- The loop of `patch32`, from byte `idx` of the buffer on. -/
def patchBytes (elf : Nat → UInt8) (idx : Nat) : List UInt8 → Nat → UInt8
  | [] => elf
  | b :: bs => patchBytes (if idx < elfBufSize then Function.update elf idx b else elf) (idx + 1) bs

/-- `patch32`. -/
def patch32 (c : Comp) (site : Nat) (rel : Int) : Comp :=
  { c with elf := patchBytes c.elf (codeOff + site) (le32 rel) }

/-- Patch a jump at `site` to go to `target`: its distance is counted from the end
of the four bytes. -/
def patchTo (c : Comp) (site target : Nat) : Comp := c.patch32 site ((target : Int) - (site + 4))

-- The emitters below are compared as they are written, not by what they compute.
attribute [irreducible] emit emitBytes patchBytes

/-! ## Instructions -/

/-- `mov_rax_imm`. -/
def movRaxImm (c : Comp) (imm : BitVec 64) : Comp := (c.emitBytes [0x48, 0xB8]).emitU64 imm
/-- `push_rax`. -/
def pushRax (c : Comp) : Comp := c.emit 0x50
/-- `pop_rax`. -/
def popRax (c : Comp) : Comp := c.emit 0x58
/-- `mov_rcx_rax`. -/
def movRcxRax (c : Comp) : Comp := c.emitBytes [0x48, 0x89, 0xC1]
/-- `load_local`. -/
def loadLocal (c : Comp) (slot : Nat) : Comp :=
  (c.emitBytes [0x48, 0x8B, 0x85]).emitU32 (slotDisp slot)
/-- `store_local`. -/
def storeLocal (c : Comp) (slot : Nat) : Comp :=
  (c.emitBytes [0x48, 0x89, 0x85]).emitU32 (slotDisp slot)
/-- `op_add`. -/
def opAdd (c : Comp) : Comp := c.emitBytes [0x48, 0x01, 0xC8]
/-- `op_sub`. -/
def opSub (c : Comp) : Comp := c.emitBytes [0x48, 0x29, 0xC8]
/-- `op_mul`. -/
def opMul (c : Comp) : Comp := c.emitBytes [0x48, 0x0F, 0xAF, 0xC1]

/-- `op_div`: a division by 0 is jumped over. -/
def opDiv (c : Comp) : Comp :=
  let c := c.emitBytes [0x48, 0x85, 0xC9]
  let c := c.emitBytes [0x0F, 0x84]
  let siteSkip := c.clen
  let c := c.emitU32 0
  let c := c.emitBytes [0x31, 0xD2]
  let c := c.emitBytes [0x48, 0xF7, 0xF1]
  let c := c.emitBytes [0xE9]
  let siteDone := c.clen
  let c := c.emitU32 0
  let skipTarget := c.clen
  let c := c.emitBytes [0x31, 0xC0]
  let doneTarget := c.clen
  (c.patchTo siteSkip skipTarget).patchTo siteDone doneTarget

/-- `op_cmp_set`. -/
def opCmpSet (c : Comp) (set2 : UInt8) : Comp :=
  ((c.emitBytes [0x48, 0x39, 0xC8]).emitBytes [0x0F, set2, 0xC0]).emitBytes
    [0x48, 0x0F, 0xB6, 0xC0]

/-- `op_neg`. -/
def opNeg (c : Comp) : Comp := c.emitBytes [0x48, 0xF7, 0xD8]

/-- `emit_prologue`. -/
def emitPrologue (c : Comp) : Comp :=
  (((c.emit 0x55).emitBytes [0x48, 0x89, 0xE5]).emitBytes [0x48, 0x81, 0xEC]).emitU32 frameBytes

/-- `emit_print`. -/
def emitPrint (c : Comp) (newline : Bool) : Comp :=
  let c := c.emitBytes [0x48, 0x89, 0xC7]
  let c := if newline then c.emitBytes [0xBE, 0x01, 0x00, 0x00, 0x00]
    else c.emitBytes [0x31, 0xF6]
  (c.emitBytes [0xB8, 0x20, 0x00, 0x00, 0x00]).emitBytes [0x0F, 0x05]

/-- `emit_exit`. -/
def emitExit (c : Comp) : Comp :=
  ((c.emitBytes [0x31, 0xFF]).emitBytes [0xB8, 0x06, 0x00, 0x00, 0x00]).emitBytes [0x0F, 0x05]

end Comp

end PureOS.Barrel
