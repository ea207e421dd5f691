import PureOS.Foundation.X86

set_option autoImplicit false

/-!
# Foundation: the processor that runs the subset

What each instruction does to the registers and to the memory, and how code that
lies in the memory is fetched.  Flags that the manual leaves undefined after an
instruction are kept.  An address does not wrap around at the end of the memory.
-/

namespace PureOS.Foundation.X86

/-- The registers that the subset uses, the flags it reads, and the memory. -/
structure Cpu where
  rip : Word
  rax : Word
  rcx : Word
  rdx : Word
  rdi : Word
  rsi : Word
  rsp : Word
  rbp : Word
  zf : Bool
  cf : Bool
  mem : Nat → UInt8

namespace Cpu

/-- The word at an address. -/
def load (c : Cpu) (a : Word) : Word := BitVec.ofNat 64 (readLE c.mem a.toNat 8)

/-- Write a word to an address. -/
def store (c : Cpu) (a v : Word) : Cpu := { c with mem := writeLE c.mem a.toNat 8 v.toNat }

/-- `push`. -/
def push (c : Cpu) (v : Word) : Cpu := { c.store (c.rsp - 8) v with rsp := c.rsp - 8 }

/-- Go on `rel` bytes further, backwards when it is negative. -/
def jump (c : Cpu) (rel : BitVec 32) : Cpu := { c with rip := c.rip + rel.signExtend 64 }

/-- The flags after a logical operation. -/
def flagsOf (c : Cpu) (v : Word) : Cpu := { c with zf := v == 0, cf := false }

/-- Whether a condition holds. -/
def holds (c : Cpu) : Cond → Bool
  | .b => c.cf
  | .ae => !c.cf
  | .e => c.zf
  | .ne => !c.zf
  | .be => c.cf || c.zf
  | .a => !(c.cf || c.zf)

/-- The lowest byte of a word, set to 1 or 0. -/
def setLow (w : Word) (bit : Bool) : Word := BitVec.ofNat 64 (w.toNat / 256 * 256 + bit.toNat)

/-- What an instruction does once `rip` stands behind it.  There is no result when
the processor traps, or when the instruction is none of its own to execute. -/
def execute (c : Cpu) : Instr → Option Cpu
  | .movRaxImm imm => some { c with rax := imm }
  | .pushRax => some (c.push c.rax)
  | .popRax => some { c with rax := c.load c.rsp, rsp := c.rsp + 8 }
  | .movRcxRax => some { c with rcx := c.rax }
  | .loadRbp disp => some { c with rax := c.load (c.rbp + disp.signExtend 64) }
  | .storeRbp disp => some (c.store (c.rbp + disp.signExtend 64) c.rax)
  | .addRaxRcx =>
      let sum := c.rax + c.rcx
      some { c with rax := sum, zf := sum == 0, cf := c.rax.uaddOverflow c.rcx }
  | .subRaxRcx =>
      let diff := c.rax - c.rcx
      some { c with rax := diff, zf := diff == 0, cf := c.rax.ult c.rcx }
  | .imulRaxRcx => some { c with rax := c.rax * c.rcx, cf := c.rax.smulOverflow c.rcx }
  | .testRcx => some (c.flagsOf c.rcx)
  | .testRax => some (c.flagsOf c.rax)
  | .je rel => if c.zf then some (c.jump rel) else some c
  | .jmp rel => some (c.jump rel)
  | .xorEdx => some { c.flagsOf 0 with rdx := 0 }
  | .divRcx =>
      let dividend := c.rdx.toNat * 2 ^ 64 + c.rax.toNat
      let divisor := c.rcx.toNat
      if divisor = 0 ∨ 2 ^ 64 ≤ dividend / divisor then none
      else some { c with
        rax := BitVec.ofNat 64 (dividend / divisor)
        rdx := BitVec.ofNat 64 (dividend % divisor) }
  | .xorEax => some { c.flagsOf 0 with rax := 0 }
  | .cmpRaxRcx => some { c with zf := c.rax == c.rcx, cf := c.rax.ult c.rcx }
  | .setAl cond => some { c with rax := setLow c.rax (c.holds cond) }
  | .movzxRaxAl => some { c with rax := BitVec.ofNat 64 (c.rax.toNat % 256) }
  | .negRax => some { c with rax := -c.rax, zf := c.rax == 0, cf := c.rax != 0 }
  | .pushRbp => some (c.push c.rbp)
  | .movRbpRsp => some { c with rbp := c.rsp }
  | .subRsp imm =>
      let v := imm.signExtend 64
      some { c with rsp := c.rsp - v, zf := c.rsp - v == 0, cf := c.rsp.ult v }
  | .movRdiRax => some { c with rdi := c.rax }
  | .movEsi imm => some { c with rsi := imm.setWidth 64 }
  | .xorEsi => some { c.flagsOf 0 with rsi := 0 }
  | .movEax imm => some { c with rax := imm.setWidth 64 }
  | .xorEdi => some { c.flagsOf 0 with rdi := 0 }
  | .syscall => none

/-- The instructions that leave the memory, the stack and the frame alone, and go on with
the next one. -/
def quiet : Instr → Bool
  | .pushRax | .popRax | .storeRbp _ | .je _ | .jmp _ | .pushRbp | .movRbpRsp | .subRsp _
  | .syscall => false
  | _ => true

theorem execute_quiet {c c' : Cpu} {i : Instr} (hi : quiet i = true) (h : c.execute i = some c') :
    c'.rip = c.rip ∧ c'.rsp = c.rsp ∧ c'.rbp = c.rbp ∧ c'.mem = c.mem := by
  cases i with
  | pushRax | popRax | storeRbp | je | jmp | pushRbp | movRbpRsp | subRsp | syscall => cases hi
  | divRcx =>
      simp only [execute] at h
      split at h
      · cases h
      · cases h
        exact ⟨rfl, rfl, rfl, rfl⟩
  | _ =>
      cases h
      exact ⟨rfl, rfl, rfl, rfl⟩

/-- The instruction at `rip`. -/
def fetch (c : Cpu) : Option Instr := Instr.decode (slice c.mem c.rip.toNat Instr.maxSize)

/-- `rip` moved past an instruction. -/
def past (c : Cpu) (i : Instr) : Cpu := { c with rip := c.rip + BitVec.ofNat 64 i.size }

end Cpu

/-! ## Addresses -/

/-- A number plus a signed 32-bit displacement. -/
theorem ofNat_add_signExtend {a b : Nat} {d : Int} (hlo : -2 ^ 31 ≤ d) (hhi : d < 2 ^ 31)
    (h : (b : Int) = a + d) :
    BitVec.ofNat 64 a + (BitVec.ofInt 32 d).signExtend 64 = BitVec.ofNat 64 b := by
  have hd : (BitVec.ofInt 32 d).toInt = d := by
    rw [BitVec.toInt_ofInt]
    exact Int.bmod_eq_of_le (by omega) (by omega)
  rw [BitVec.signExtend, hd, ← BitVec.ofInt_natCast, ← BitVec.ofInt_natCast, ← BitVec.ofInt_add, h]

theorem ofNat_sub {a b : Nat} (h : b ≤ a) :
    BitVec.ofNat 64 a - BitVec.ofNat 64 b = BitVec.ofNat 64 (a - b) := by
  obtain ⟨k, rfl⟩ := Nat.exists_eq_add_of_le h
  rw [Nat.add_sub_cancel_left, BitVec.ofNat_add, BitVec.add_comm, BitVec.add_sub_cancel]

theorem toNat_ofNat {a : Nat} (h : a < 2 ^ 64) : (BitVec.ofNat 64 a).toNat = a := by
  rw [BitVec.toNat_ofNat, Nat.mod_eq_of_lt h]

/-- A push at a known place. -/
theorem push_eq {c : Cpu} {r : Nat} (v : Word) (hrsp : c.rsp = BitVec.ofNat 64 r) (hlow : 8 ≤ r)
    (hhigh : r < 2 ^ 64) :
    c.push v =
      { c with rsp := BitVec.ofNat 64 (r - 8), mem := writeLE c.mem (r - 8) 8 v.toNat } := by
  have hptr : c.rsp - 8 = BitVec.ofNat 64 (r - 8) := by
    rw [hrsp]
    exact @ofNat_sub r 8 hlow
  rw [Cpu.push, hptr, Cpu.store, toNat_ofNat (by omega)]

theorem low_setLow (w : Word) (bit : Bool) :
    BitVec.ofNat 64 ((Cpu.setLow w bit).toNat % 256) = BitVec.ofNat 64 bit.toNat := by
  have hbit : bit.toNat < 2 := bit.toNat_lt
  have hw : w.toNat < 2 ^ 64 := w.isLt
  have hmod : (w.toNat / 256 * 256 + bit.toNat) % 256 = bit.toNat := by omega
  rw [Cpu.setLow, toNat_ofNat (by omega), hmod]

/-! ## Code in memory -/

/-- The bytes of some code. -/
def bytes (code : List Instr) : List UInt8 := code.flatMap Instr.encode

/-- The length of some code in bytes. -/
def len (code : List Instr) : Nat := (bytes code).length

@[simp] theorem bytes_nil : bytes [] = [] := rfl

@[simp] theorem bytes_cons (i : Instr) (code : List Instr) :
    bytes (i :: code) = i.encode ++ bytes code := rfl

@[simp] theorem bytes_append (code code' : List Instr) :
    bytes (code ++ code') = bytes code ++ bytes code' := List.flatMap_append

@[simp] theorem len_nil : len [] = 0 := rfl

@[simp] theorem len_cons (i : Instr) (code : List Instr) : len (i :: code) = i.size + len code :=
  List.length_append

@[simp] theorem len_append (code code' : List Instr) : len (code ++ code') = len code + len code' := by
  rw [len, bytes_append, List.length_append, len, len]

theorem size_pos (i : Instr) : 0 < i.size := by
  cases i <;> simp [Instr.size, Instr.encode]

/-- No instruction is empty. -/
theorem length_le_len (code : List Instr) : code.length ≤ len code := by
  induction code with
  | nil => exact Nat.le_refl 0
  | cons i code ih =>
      have hpos := size_pos i
      rw [List.length_cons, len_cons]
      omega

/-- The instruction at a place is determined by what comes before it. -/
theorem eq_of_len_eq {pre pre' post post' : List Instr} (h : pre ++ post = pre' ++ post')
    (hlen : len pre = len pre') : pre = pre' := by
  rcases List.append_eq_append_iff.mp h with ⟨mid, rfl, -⟩ | ⟨mid, rfl, -⟩
  all_goals
    have hmid := length_le_len mid
    rw [len_append] at hlen
    have hnil : mid = [] := List.length_eq_zero_iff.mp (by omega)
    rw [hnil, List.append_nil]

/-- The code lies in the memory from `base` on. -/
def Loaded (mem : Nat → UInt8) (base : Nat) (code : List Instr) : Prop :=
  slice mem base (len code) = bytes code

/-- Code stays where it is while nothing is written there. -/
theorem Loaded.congr {mem mem' : Nat → UInt8} {base : Nat} {code : List Instr}
    (h : Loaded mem base code) (hsame : ∀ a, base ≤ a → a < base + len code → mem' a = mem a) :
    Loaded mem' base code := by
  rw [Loaded, slice_congr hsame]
  exact h

/-- A part of a slice. -/
theorem slice_of_eq_append {mem : Nat → UInt8} {base n : Nat} {a b c : List UInt8}
    (h : slice mem base n = a ++ (b ++ c)) : slice mem (base + a.length) b.length = b := by
  have hn : n = a.length + (b.length + c.length) := by
    rw [← List.length_append, ← List.length_append, ← h, length_slice]
  rw [hn, slice_append, slice_append] at h
  have hrest := (List.append_inj h (length_slice ..)).2
  exact (List.append_inj hrest (length_slice ..)).1

/-- What is loaded is fetched. -/
theorem Cpu.fetch_of_loaded {c : Cpu} {base : Nat} {pre post : List Instr} {i : Instr}
    (h : Loaded c.mem base (pre ++ i :: post)) (hrip : c.rip.toNat = base + len pre) :
    c.fetch = some i := by
  rw [Loaded, bytes_append, bytes_cons] at h
  have hcode : slice c.mem c.rip.toNat i.size = i.encode := by
    rw [hrip]
    exact slice_of_eq_append h
  have hmax : Instr.maxSize = i.size + (Instr.maxSize - i.size) := by
    have hle := i.size_le
    omega
  rw [Cpu.fetch, hmax, slice_append, hcode]
  exact i.decode_encode _

end PureOS.Foundation.X86
