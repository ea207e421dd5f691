import Mathlib.Data.BitVec
import PureOS.Foundation.Bytes

set_option autoImplicit false

/-!
# Foundation: a subset of the x86-64 instruction set

Instructions with their encodings, a decoder that reads them back, and what each
of them does to the processor.  The processor fetches from the memory that its
pushes and stores write to.  `syscall` has no meaning here: what it does is up to
the operating system.
-/

namespace PureOS.Foundation.X86

/-- A word of the processor. -/
abbrev Word := BitVec 64

/-- The conditions of `setcc`, on unsigned numbers. -/
inductive Cond where
  | b | ae | e | ne | be | a
  deriving DecidableEq, Repr

/-- The second byte of a `setcc`. -/
def Cond.code : Cond → UInt8
  | .b => 0x92
  | .ae => 0x93
  | .e => 0x94
  | .ne => 0x95
  | .be => 0x96
  | .a => 0x97

/-- The instructions of the subset. -/
inductive Instr where
  /-- `movabs rax, imm64` -/
  | movRaxImm (imm : Word)
  /-- `push rax` -/
  | pushRax
  /-- `pop rax` -/
  | popRax
  /-- `mov rcx, rax` -/
  | movRcxRax
  /-- `mov rax, [rbp + disp32]` -/
  | loadRbp (disp : BitVec 32)
  /-- `mov [rbp + disp32], rax` -/
  | storeRbp (disp : BitVec 32)
  /-- `add rax, rcx` -/
  | addRaxRcx
  /-- `sub rax, rcx` -/
  | subRaxRcx
  /-- `imul rax, rcx` -/
  | imulRaxRcx
  /-- `test rcx, rcx` -/
  | testRcx
  /-- `test rax, rax` -/
  | testRax
  /-- `je rel32` -/
  | je (rel : BitVec 32)
  /-- `jmp rel32` -/
  | jmp (rel : BitVec 32)
  /-- `xor edx, edx` -/
  | xorEdx
  /-- `div rcx` -/
  | divRcx
  /-- `xor eax, eax` -/
  | xorEax
  /-- `cmp rax, rcx` -/
  | cmpRaxRcx
  /-- `setcc al` -/
  | setAl (cond : Cond)
  /-- `movzx rax, al` -/
  | movzxRaxAl
  /-- `neg rax` -/
  | negRax
  /-- `push rbp` -/
  | pushRbp
  /-- `mov rbp, rsp` -/
  | movRbpRsp
  /-- `sub rsp, imm32` -/
  | subRsp (imm : BitVec 32)
  /-- `mov rdi, rax` -/
  | movRdiRax
  /-- `mov esi, imm32` -/
  | movEsi (imm : BitVec 32)
  /-- `xor esi, esi` -/
  | xorEsi
  /-- `mov eax, imm32` -/
  | movEax (imm : BitVec 32)
  /-- `xor edi, edi` -/
  | xorEdi
  /-- `syscall` -/
  | syscall
  deriving DecidableEq, Repr

namespace Instr

/-- The bytes of an instruction. -/
def encode : Instr → List UInt8
  | movRaxImm imm => [0x48, 0xB8] ++ toLE 8 imm.toNat
  | pushRax => [0x50]
  | popRax => [0x58]
  | movRcxRax => [0x48, 0x89, 0xC1]
  | loadRbp disp => [0x48, 0x8B, 0x85] ++ toLE 4 disp.toNat
  | storeRbp disp => [0x48, 0x89, 0x85] ++ toLE 4 disp.toNat
  | addRaxRcx => [0x48, 0x01, 0xC8]
  | subRaxRcx => [0x48, 0x29, 0xC8]
  | imulRaxRcx => [0x48, 0x0F, 0xAF, 0xC1]
  | testRcx => [0x48, 0x85, 0xC9]
  | testRax => [0x48, 0x85, 0xC0]
  | je rel => [0x0F, 0x84] ++ toLE 4 rel.toNat
  | jmp rel => [0xE9] ++ toLE 4 rel.toNat
  | xorEdx => [0x31, 0xD2]
  | divRcx => [0x48, 0xF7, 0xF1]
  | xorEax => [0x31, 0xC0]
  | cmpRaxRcx => [0x48, 0x39, 0xC8]
  | setAl cond => [0x0F, cond.code, 0xC0]
  | movzxRaxAl => [0x48, 0x0F, 0xB6, 0xC0]
  | negRax => [0x48, 0xF7, 0xD8]
  | pushRbp => [0x55]
  | movRbpRsp => [0x48, 0x89, 0xE5]
  | subRsp imm => [0x48, 0x81, 0xEC] ++ toLE 4 imm.toNat
  | movRdiRax => [0x48, 0x89, 0xC7]
  | movEsi imm => [0xBE] ++ toLE 4 imm.toNat
  | xorEsi => [0x31, 0xF6]
  | movEax imm => [0xB8] ++ toLE 4 imm.toNat
  | xorEdi => [0x31, 0xFF]
  | syscall => [0x0F, 0x05]

/-- The length of an instruction in bytes. -/
def size (i : Instr) : Nat := i.encode.length

/-- The longest instruction of the subset. -/
def maxSize : Nat := 10

/-- The 32-bit number at the beginning of some bytes. -/
def imm32 (bs : List UInt8) : BitVec 32 := BitVec.ofNat 32 (fromLE (bs.take 4))

/-- The instruction at the beginning of some bytes. -/
def decode : List UInt8 → Option Instr
  | 0x50 :: _ => some pushRax
  | 0x55 :: _ => some pushRbp
  | 0x58 :: _ => some popRax
  | 0xE9 :: rest => some (jmp (imm32 rest))
  | 0xBE :: rest => some (movEsi (imm32 rest))
  | 0xB8 :: rest => some (movEax (imm32 rest))
  | 0x31 :: 0xD2 :: _ => some xorEdx
  | 0x31 :: 0xC0 :: _ => some xorEax
  | 0x31 :: 0xF6 :: _ => some xorEsi
  | 0x31 :: 0xFF :: _ => some xorEdi
  | 0x0F :: 0x05 :: _ => some syscall
  | 0x0F :: 0x84 :: rest => some (je (imm32 rest))
  | 0x0F :: 0x92 :: 0xC0 :: _ => some (setAl .b)
  | 0x0F :: 0x93 :: 0xC0 :: _ => some (setAl .ae)
  | 0x0F :: 0x94 :: 0xC0 :: _ => some (setAl .e)
  | 0x0F :: 0x95 :: 0xC0 :: _ => some (setAl .ne)
  | 0x0F :: 0x96 :: 0xC0 :: _ => some (setAl .be)
  | 0x0F :: 0x97 :: 0xC0 :: _ => some (setAl .a)
  | 0x48 :: 0xB8 :: rest => some (movRaxImm (BitVec.ofNat 64 (fromLE (rest.take 8))))
  | 0x48 :: 0x01 :: 0xC8 :: _ => some addRaxRcx
  | 0x48 :: 0x29 :: 0xC8 :: _ => some subRaxRcx
  | 0x48 :: 0x39 :: 0xC8 :: _ => some cmpRaxRcx
  | 0x48 :: 0x85 :: 0xC9 :: _ => some testRcx
  | 0x48 :: 0x85 :: 0xC0 :: _ => some testRax
  | 0x48 :: 0x81 :: 0xEC :: rest => some (subRsp (imm32 rest))
  | 0x48 :: 0x89 :: 0xC1 :: _ => some movRcxRax
  | 0x48 :: 0x89 :: 0xC7 :: _ => some movRdiRax
  | 0x48 :: 0x89 :: 0xE5 :: _ => some movRbpRsp
  | 0x48 :: 0x89 :: 0x85 :: rest => some (storeRbp (imm32 rest))
  | 0x48 :: 0x8B :: 0x85 :: rest => some (loadRbp (imm32 rest))
  | 0x48 :: 0xF7 :: 0xF1 :: _ => some divRcx
  | 0x48 :: 0xF7 :: 0xD8 :: _ => some negRax
  | 0x48 :: 0x0F :: 0xAF :: 0xC1 :: _ => some imulRaxRcx
  | 0x48 :: 0x0F :: 0xB6 :: 0xC0 :: _ => some movzxRaxAl
  | _ => none

theorem imm32_append (v : BitVec 32) (rest : List UInt8) :
    imm32 (toLE 4 v.toNat ++ rest) = v := by
  have htake : (toLE 4 v.toNat ++ rest).take 4 = toLE 4 v.toNat :=
    List.take_left' (length_toLE 4 _)
  have hfits : v.toNat % 256 ^ 4 = v.toNat := Nat.mod_eq_of_lt v.isLt
  rw [imm32, htake, fromLE_toLE, hfits, BitVec.ofNat_toNat, BitVec.setWidth_eq]

/-- What was encoded is decoded, whatever follows it. -/
theorem decode_encode (i : Instr) (rest : List UInt8) : decode (i.encode ++ rest) = some i := by
  cases i with
  | movRaxImm imm =>
      have htake : (toLE 8 imm.toNat ++ rest).take 8 = toLE 8 imm.toNat :=
        List.take_left' (length_toLE 8 _)
      rw [encode, List.append_assoc]
      change some (movRaxImm (BitVec.ofNat 64 (fromLE ((toLE 8 imm.toNat ++ rest).take 8)))) = _
      have hfits : imm.toNat % 256 ^ 8 = imm.toNat := Nat.mod_eq_of_lt imm.isLt
      rw [htake, fromLE_toLE, hfits, BitVec.ofNat_toNat, BitVec.setWidth_eq]
  | loadRbp disp =>
      rw [encode, List.append_assoc]
      exact congrArg (fun v => some (loadRbp v)) (imm32_append disp rest)
  | storeRbp disp =>
      rw [encode, List.append_assoc]
      exact congrArg (fun v => some (storeRbp v)) (imm32_append disp rest)
  | je rel =>
      rw [encode, List.append_assoc]
      exact congrArg (fun v => some (je v)) (imm32_append rel rest)
  | jmp rel =>
      rw [encode, List.append_assoc]
      exact congrArg (fun v => some (jmp v)) (imm32_append rel rest)
  | subRsp imm =>
      rw [encode, List.append_assoc]
      exact congrArg (fun v => some (subRsp v)) (imm32_append imm rest)
  | movEsi imm =>
      rw [encode, List.append_assoc]
      exact congrArg (fun v => some (movEsi v)) (imm32_append imm rest)
  | movEax imm =>
      rw [encode, List.append_assoc]
      exact congrArg (fun v => some (movEax v)) (imm32_append imm rest)
  | setAl cond => cases cond <;> rfl
  | pushRax | popRax | movRcxRax | addRaxRcx | subRaxRcx | imulRaxRcx | testRcx | testRax
  | xorEdx | divRcx | xorEax | cmpRaxRcx | movzxRaxAl | negRax | pushRbp | movRbpRsp
  | movRdiRax | xorEsi | xorEdi | syscall => rfl

theorem size_le (i : Instr) : i.size ≤ maxSize := by
  cases i <;> simp [size, encode, maxSize]

end Instr

end PureOS.Foundation.X86
