import PureOS.Barrel.Codegen

set_option autoImplicit false

/-!
# Barrel: the machine that runs a compiled program

The processor, with the two system calls that the compiled code makes: 32 prints the
number in `rdi`, with a new line if `rsi` is not 0, and 6 ends the process.  What the
kernel does to the other registers while it prints is left open.
-/

namespace PureOS.Barrel

open PureOS.Foundation PureOS.Foundation.X86

/-- `LOAD_VADDR`. -/
abbrev loadVaddr : Nat := 0x200000000000
/-- Where the code begins: the headers of the file lie in front of it. -/
abbrev codeBase : Nat := loadVaddr + codeOff
/-- The end of the one page that the file fills, where the stack begins. -/
abbrev stackBase : Nat := loadVaddr + elfBufSize
/-- The stack pointer that the process starts with: 64 KiB above the beginning. -/
abbrev stackTop : Nat := stackBase + 64 * 1024

/-- The processor and the text printed so far. -/
structure Machine where
  cpu : Cpu
  out : List UInt8

/-- What the kernel leaves in the processor when it returns from `print_num`. -/
structure Kernel where
  ret : Cpu → Cpu
  rip : ∀ c, (ret c).rip = c.rip
  rsp : ∀ c, (ret c).rsp = c.rsp
  rbp : ∀ c, (ret c).rbp = c.rbp
  /-- The pages of the process stay. -/
  mem : ∀ c a, loadVaddr ≤ a → a < stackTop → (ret c).mem a = c.mem a

/-- What one step leads to. -/
inductive Outcome where
  | next (m : Machine)
  | exit (out : List UInt8)
  | fault

namespace Machine

/-- A system call. -/
def syscall (k : Kernel) (m : Machine) : Outcome :=
  if m.cpu.rax = 32 then
    .next { cpu := k.ret m.cpu, out := m.out ++ printNum m.cpu.rdi m.cpu.rsi }
  else if m.cpu.rax = 6 then .exit m.out
  else .fault

/-- One step. -/
def step (k : Kernel) (m : Machine) : Outcome :=
  match m.cpu.fetch with
  | none => .fault
  | some .syscall => { m with cpu := m.cpu.past .syscall }.syscall k
  | some i =>
      match (m.cpu.past i).execute i with
      | some cpu => .next { m with cpu := cpu }
      | none => .fault

/-- The state after `n` steps, if the process still runs then. -/
def steps (k : Kernel) : Nat → Machine → Option Machine
  | 0, m => some m
  | n + 1, m =>
      match m.step k with
      | .next m' => m'.steps k n
      | _ => none

/-- `m'` comes after some steps from `m`. -/
def Reaches (k : Kernel) (m m' : Machine) : Prop := ∃ n, m.steps k n = some m'

/-- The process prints `out` in all and exits. -/
def Exits (k : Kernel) (m : Machine) (out : List UInt8) : Prop :=
  ∃ m', Reaches k m m' ∧ m'.step k = .exit out

/-- The process has just been started with the code that the compiler has emitted. -/
structure Boots (m : Machine) (c : Comp) : Prop where
  code : slice m.cpu.mem codeBase c.clen = slice c.elf codeOff c.clen
  rip : m.cpu.rip = BitVec.ofNat 64 codeBase
  rsp : m.cpu.rsp = BitVec.ofNat 64 stackTop
  out : m.out = []

/-! ## Runs -/

variable {k : Kernel} {m m' m'' : Machine}

theorem steps_add (a b : Nat) (m : Machine) :
    m.steps k (a + b) = (m.steps k a).bind fun m' => m'.steps k b := by
  induction a generalizing m with
  | zero => rw [Nat.zero_add]; rfl
  | succ a ih =>
      rw [Nat.add_right_comm, steps, steps]
      cases m.step k with
      | next m' => exact ih m'
      | exit out => rfl
      | fault => rfl

theorem Reaches.refl (m : Machine) : Reaches k m m := ⟨0, rfl⟩

theorem Reaches.trans (h : Reaches k m m') (h' : Reaches k m' m'') : Reaches k m m'' := by
  obtain ⟨a, ha⟩ := h
  obtain ⟨b, hb⟩ := h'
  refine ⟨a + b, ?_⟩
  rw [steps_add, ha, Option.bind_some, hb]

theorem Reaches.of_step (h : m.step k = .next m') : Reaches k m m' := by
  refine ⟨1, ?_⟩
  rw [steps, h]
  rfl

/-- After the first step the run goes on from there. -/
theorem Reaches.head (h : Reaches k m m'') (hstep : m.step k = .next m') :
    m'' = m ∨ Reaches k m' m'' := by
  obtain ⟨n, hn⟩ := h
  cases n with
  | zero =>
      cases hn
      exact Or.inl rfl
  | succ n =>
      rw [steps, hstep] at hn
      exact Or.inr ⟨n, hn⟩

theorem Exits.after {out : List UInt8} (h : Exits k m' out) (hrun : Reaches k m m') :
    Exits k m out := by
  obtain ⟨m'', hrun', hexit⟩ := h
  exact ⟨m'', hrun.trans hrun', hexit⟩

/-- A property that every step keeps holds in all states that are reached. -/
theorem Reaches.invariant {I : Machine → Prop} (hstep : ∀ m m', I m → m.step k = .next m' → I m')
    (h : Reaches k m m') (hm : I m) : I m' := by
  obtain ⟨n, hn⟩ := h
  induction n generalizing m with
  | zero =>
      cases hn
      exact hm
  | succ n ih =>
      rw [steps] at hn
      cases hs : m.step k with
      | next m₁ =>
          rw [hs] at hn
          exact ih (hstep m m₁ hm hs) hn
      | exit out => rw [hs] at hn; cases hn
      | fault => rw [hs] at hn; cases hn

end Machine

end PureOS.Barrel
