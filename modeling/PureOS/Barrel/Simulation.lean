import PureOS.Barrel.Machine

set_option autoImplicit false

/-!
# Barrel: running the code of a syntax tree

The code of an expression computes its value, and the code of a statement does what
the statement does, wherever they lie in the code of the program.  The variables are
in their slots below the frame pointer, operands that wait are below the slots, and
nothing is ever written to the code.
-/

namespace PureOS.Barrel

open PureOS.Foundation PureOS.Foundation.X86

/-- `seg` lies in the code from byte `p` on. -/
def Has (whole : List Instr) (p : Nat) (seg : List Instr) : Prop :=
  ∃ pre post, whole = pre ++ (seg ++ post) ∧ len pre = p

theorem Has.append {whole seg seg' : List Instr} {p : Nat} (h : Has whole p (seg ++ seg')) :
    Has whole p seg ∧ Has whole (p + len seg) seg' := by
  obtain ⟨pre, post, rfl, rfl⟩ := h
  refine ⟨⟨pre, seg' ++ post, by rw [List.append_assoc], rfl⟩, ⟨pre ++ seg, post, ?_, len_append ..⟩⟩
  rw [List.append_assoc, List.append_assoc]

theorem Has.tail {whole rest : List Instr} {p : Nat} {i : Instr} (h : Has whole p (i :: rest)) :
    Has whole (p + i.size) rest := by
  obtain ⟨pre, post, rfl, rfl⟩ := h
  exact ⟨pre ++ [i], post, by rw [List.append_assoc]; rfl, by simp⟩

theorem Has.le {whole seg : List Instr} {p : Nat} (h : Has whole p seg) :
    p + len seg ≤ len whole := by
  obtain ⟨pre, post, rfl, rfl⟩ := h
  rw [len_append, len_append]
  omega

/-- The code fits into the file. -/
def Fits (whole : List Instr) : Prop := codeOff + len whole ≤ elfBufSize

namespace Machine

/-- The processor is about to execute the code at byte `p`. -/
structure At (whole : List Instr) (p : Nat) (m : Machine) : Prop where
  code : Loaded m.cpu.mem codeBase whole
  rip : m.cpu.rip = BitVec.ofNat 64 (codeBase + p)

/-- From `m` to `m'` nothing has changed but registers that hold no place, and the
stack below `R`. -/
structure Keeps (R : Nat) (m m' : Machine) : Prop where
  rsp : m'.cpu.rsp = m.cpu.rsp
  rbp : m'.cpu.rbp = m.cpu.rbp
  out : m'.out = m.out
  mem : ∀ a, a < stackBase ∨ R ≤ a → m'.cpu.mem a = m.cpu.mem a

theorem At.cast {whole : List Instr} {p q : Nat} {m : Machine} (h : m.At whole p) (hpq : p = q) :
    m.At whole q := hpq ▸ h

theorem Keeps.trans {R : Nat} {m m' m'' : Machine} (h : Keeps R m m') (h' : Keeps R m' m'') :
    Keeps R m m'' where
  rsp := h'.rsp.trans h.rsp
  rbp := h'.rbp.trans h.rbp
  out := h'.out.trans h.out
  mem a ha := (h'.mem a ha).trans (h.mem a ha)

theorem Keeps.mono {R R' : Nat} {m m' : Machine} (h : Keeps R m m') (hle : R ≤ R') :
    Keeps R' m m' :=
  ⟨h.rsp, h.rbp, h.out, fun a ha => h.mem a (ha.imp_right hle.trans)⟩

section

variable {k : Kernel} {whole rest : List Instr} {p q : Nat} {i : Instr} {m : Machine} {cpu : Cpu}

/-- The processor behind the instruction that it has fetched. -/
def behind (m : Machine) (p : Nat) : Cpu := { m.cpu with rip := BitVec.ofNat 64 (codeBase + p) }

theorem past_eq (h : m.cpu.rip = BitVec.ofNat 64 (codeBase + p)) (i : Instr) :
    m.cpu.past i = m.behind (p + i.size) := by
  rw [Cpu.past, behind, h, ← BitVec.ofNat_add, Nat.add_assoc]

theorem fetch_at (hfits : Fits whole) (hat : m.At whole p) (hhas : Has whole p (i :: rest)) :
    m.cpu.fetch = some i := by
  have hle := hhas.le
  obtain ⟨pre, post, rfl, rfl⟩ := hhas
  refine Cpu.fetch_of_loaded hat.code ?_
  rw [hat.rip]
  refine toNat_ofNat ?_
  simp only [Fits, codeOff, elfBufSize, codeBase, loadVaddr] at hfits ⊢
  omega

/-- A step of an instruction of the processor's own. -/
theorem step_at (hfits : Fits whole) (hat : m.At whole p) (hhas : Has whole p (i :: rest))
    (hne : i ≠ .syscall) (hexec : (m.behind (p + i.size)).execute i = some cpu) :
    m.step k = .next { m with cpu := cpu } := by
  rw [step, fetch_at hfits hat hhas]
  cases i with
  | syscall => exact absurd rfl hne
  | _ => rw [← past_eq hat.rip] at hexec; simp only [hexec]

/-- A step that touches neither the stack nor the memory. -/
theorem run_quiet (hfits : Fits whole) (hat : m.At whole p) (hhas : Has whole p (i :: rest))
    (hne : i ≠ .syscall) (hexec : (m.behind (p + i.size)).execute i = some cpu)
    (hrip : cpu.rip = BitVec.ofNat 64 (codeBase + q))
    (hsame : cpu.rsp = m.cpu.rsp ∧ cpu.rbp = m.cpu.rbp ∧ cpu.mem = m.cpu.mem) :
    Reaches k m { m with cpu := cpu } ∧ At whole q { m with cpu := cpu } ∧
      Keeps 0 m { m with cpu := cpu } := by
  obtain ⟨hrsp, hrbp, hmem⟩ := hsame
  refine ⟨.of_step (step_at hfits hat hhas hne hexec), ⟨?_, hrip⟩, hrsp, hrbp, rfl, fun a _ => ?_⟩
  · rw [hmem]
    exact hat.code
  · rw [hmem]

/-- The machine at another place of the code. -/
def goto (m : Machine) (q : Nat) : Machine := { m with cpu := m.behind q }

/-- The target of a jump. -/
theorem jump_eq (hfits : Fits whole) {d : Int} (hp : p ≤ len whole) (hq : q ≤ len whole)
    (hd : (q : Int) = p + d) :
    (m.behind p).jump (rel d) = m.behind q := by
  simp only [Fits, codeOff, elfBufSize] at hfits
  have hrip : BitVec.ofNat 64 (codeBase + p) + (rel d).signExtend 64 =
      BitVec.ofNat 64 (codeBase + q) :=
    ofNat_add_signExtend (by omega) (by omega) (by omega)
  rw [Cpu.jump, behind, behind]
  simp only [hrip]

/-- A jump. -/
theorem run_jmp (hfits : Fits whole) (hat : m.At whole p) {d : Int}
    (hhas : Has whole p (.jmp (rel d) :: rest)) (hq : q ≤ len whole) (hd : (q : Int) = p + 5 + d) :
    Reaches k m (m.goto q) ∧ (m.goto q).At whole q ∧ Keeps 0 m (m.goto q) := by
  have hle := hhas.le
  rw [len_cons, size_jmp] at hle
  refine run_quiet hfits hat hhas (by simp) ?_ rfl ⟨rfl, rfl, rfl⟩
  exact congrArg some (jump_eq hfits (by rw [size_jmp]; omega) hq (by rw [size_jmp]; omega))

/-- A branch that is taken. -/
theorem run_taken (hfits : Fits whole) (hat : m.At whole p) {d : Int}
    (hhas : Has whole p (.je (rel d) :: rest)) (hzf : m.cpu.zf = true) (hq : q ≤ len whole)
    (hd : (q : Int) = p + 6 + d) :
    Reaches k m (m.goto q) ∧ (m.goto q).At whole q ∧ Keeps 0 m (m.goto q) := by
  have hle := hhas.le
  rw [len_cons, size_je] at hle
  refine run_quiet hfits hat hhas (by simp) ?_ rfl ⟨rfl, rfl, rfl⟩
  refine (if_pos hzf).trans (congrArg some ?_)
  exact jump_eq hfits (by rw [size_je]; omega) hq (by rw [size_je]; omega)

/-- A branch that is not taken. -/
theorem run_not_taken (hfits : Fits whole) (hat : m.At whole p) {d : BitVec 32}
    (hhas : Has whole p (.je d :: rest)) (hzf : m.cpu.zf = false) :
    Reaches k m (m.goto (p + 6)) ∧ (m.goto (p + 6)).At whole (p + 6) ∧
      Keeps 0 m (m.goto (p + 6)) := by
  refine run_quiet hfits hat hhas (by simp) ?_ rfl ⟨rfl, rfl, rfl⟩
  refine (if_neg fun h => Bool.false_ne_true (hzf.symm.trans h)).trans ?_
  rw [size_je]

end

/-! ## Operators -/

section

variable {k : Kernel} {whole rest : List Instr} {p : Nat} {m : Machine}

theorem truth_eq (b : Bool) : BitVec.ofNat 64 b.toNat = truth b := by
  cases b <;> rfl

/-- A comparison leaves its truth value. -/
theorem run_compare (hfits : Fits whole) (hat : m.At whole p) {cond : Cond}
    (hhas : Has whole p (compareCode cond)) {b : Bool}
    (hcond : ∀ c : Cpu, c.zf = (m.cpu.rax == m.cpu.rcx) → c.cf = m.cpu.rax.ult m.cpu.rcx →
      c.holds cond = b) :
    ∃ m', Reaches k m m' ∧ m'.At whole (p + len (compareCode cond)) ∧ Keeps 0 m m' ∧
      m'.cpu.rax = truth b := by
  obtain ⟨hrun₁, hat₁, hkeep₁⟩ := run_quiet (k := k) hfits hat hhas (by simp) rfl rfl ⟨rfl, rfl, rfl⟩
  obtain ⟨hrun₂, hat₂, hkeep₂⟩ := run_quiet (k := k) hfits hat₁ hhas.tail (by simp) rfl rfl ⟨rfl, rfl, rfl⟩
  obtain ⟨hrun₃, hat₃, hkeep₃⟩ := run_quiet (k := k) hfits hat₂ hhas.tail.tail (by simp) rfl rfl ⟨rfl, rfl, rfl⟩
  refine ⟨_, (hrun₁.trans hrun₂).trans hrun₃, hat₃.cast (by simp [compareCode, Nat.add_assoc]),
    (hkeep₁.trans hkeep₂).trans hkeep₃, ?_⟩
  refine (low_setLow _ _).trans ?_
  rw [hcond _ rfl rfl, truth_eq]

/-- The quotient of two words is the quotient of their numbers. -/
theorem ofNat_div (a b : Word) : BitVec.ofNat 64 (a.toNat / b.toNat) = a / b := by
  apply BitVec.eq_of_toNat_eq
  rw [BitVec.toNat_udiv, toNat_ofNat]
  exact Nat.lt_of_le_of_lt (Nat.div_le_self ..) a.isLt

/-- A division leaves the quotient, or 0 when it jumps over the division by 0. -/
theorem run_div (hfits : Fits whole) (hat : m.At whole p) (hhas : Has whole p Op.div.code) :
    ∃ m', Reaches k m m' ∧ m'.At whole (p + len Op.div.code) ∧ Keeps 0 m m' ∧
      m'.cpu.rax = Op.div.eval m.cpu.rax m.cpu.rcx := by
  have hle := hhas.le
  have hlen : len Op.div.code = 21 := rfl
  rw [hlen] at hle
  obtain ⟨hrun₁, hat₁, hkeep₁⟩ := run_quiet (k := k) hfits hat hhas (by simp) rfl rfl ⟨rfl, rfl, rfl⟩
  rcases eq_or_ne m.cpu.rcx 0 with hzero | hne
  · have hzf : (m.cpu.rcx == 0) = true := beq_iff_eq.mpr hzero
    obtain ⟨hrun₂, hat₂, hkeep₂⟩ := run_taken (k := k) (q := p + 19) hfits hat₁ hhas.tail hzf
      (by omega) (by rw [show Instr.testRcx.size = 3 from rfl]; omega)
    have hskip : Has whole (p + 19) [.xorEax] := hhas.tail.tail.tail.tail.tail
    obtain ⟨hrun₃, hat₃, hkeep₃⟩ := run_quiet (k := k) hfits hat₂ hskip (by simp) rfl rfl ⟨rfl, rfl, rfl⟩
    refine ⟨_, (hrun₁.trans hrun₂).trans hrun₃, hat₃, (hkeep₁.trans hkeep₂).trans hkeep₃, ?_⟩
    rw [Op.eval, if_pos hzero]
  · have hzf : (m.cpu.rcx == 0) = false := beq_eq_false_iff_ne.mpr hne
    have hpos : 0 < m.cpu.rcx.toNat := by
      refine Nat.pos_of_ne_zero fun h => hne (BitVec.eq_of_toNat_eq h)
    obtain ⟨hrun₂, hat₂, hkeep₂⟩ := run_not_taken (k := k) hfits hat₁ hhas.tail hzf
    obtain ⟨hrun₃, hat₃, hkeep₃⟩ := run_quiet (k := k) hfits hat₂ hhas.tail.tail (by simp) rfl rfl
      ⟨rfl, rfl, rfl⟩
    have hquot : ¬(m.cpu.rcx.toNat = 0 ∨
        2 ^ 64 ≤ (0 * 2 ^ 64 + m.cpu.rax.toNat) / m.cpu.rcx.toNat) := by
      have hlt := m.cpu.rax.isLt
      have hle := Nat.div_le_self m.cpu.rax.toNat m.cpu.rcx.toNat
      rw [Nat.zero_mul, Nat.zero_add]
      omega
    obtain ⟨hrun₄, hat₄, hkeep₄⟩ := run_quiet (k := k) hfits hat₃ hhas.tail.tail.tail (by simp)
      (if_neg hquot) rfl ⟨rfl, rfl, rfl⟩
    obtain ⟨hrun₅, hat₅, hkeep₅⟩ := run_jmp (k := k) (q := p + 21) hfits hat₄
      hhas.tail.tail.tail.tail (by omega)
      (show ((p + 21 : Nat) : Int) = ((p + 3 + 6 + 2 + 3 : Nat) : Int) + 5 + 2 by omega)
    refine ⟨_, (((hrun₁.trans hrun₂).trans hrun₃).trans hrun₄).trans hrun₅, hat₅,
      (((hkeep₁.trans hkeep₂).trans hkeep₃).trans hkeep₄).trans hkeep₅, ?_⟩
    have hrax : (0 : Word).toNat * 2 ^ 64 + m.cpu.rax.toNat = m.cpu.rax.toNat := by simp
    rw [Op.eval, if_neg hne, ← ofNat_div]
    exact congrArg (fun v => BitVec.ofNat 64 (v / m.cpu.rcx.toNat)) hrax

/-- The code of an operator computes it. -/
theorem run_op (hfits : Fits whole) (op : Op) (hat : m.At whole p) (hhas : Has whole p op.code) :
    ∃ m', Reaches k m m' ∧ m'.At whole (p + len op.code) ∧ Keeps 0 m m' ∧
      m'.cpu.rax = op.eval m.cpu.rax m.cpu.rcx := by
  cases op with
  | add =>
      obtain ⟨hrun, hat', hkeep⟩ := run_quiet (k := k) hfits hat hhas (by simp) rfl rfl ⟨rfl, rfl, rfl⟩
      exact ⟨_, hrun, hat', hkeep, rfl⟩
  | sub =>
      obtain ⟨hrun, hat', hkeep⟩ := run_quiet (k := k) hfits hat hhas (by simp) rfl rfl ⟨rfl, rfl, rfl⟩
      exact ⟨_, hrun, hat', hkeep, rfl⟩
  | mul =>
      obtain ⟨hrun, hat', hkeep⟩ := run_quiet (k := k) hfits hat hhas (by simp) rfl rfl ⟨rfl, rfl, rfl⟩
      exact ⟨_, hrun, hat', hkeep, rfl⟩
  | div => exact run_div hfits hat hhas
  | eq => exact run_compare hfits hat hhas fun c hzf _ => hzf.trans (Bool.beq_eq_decide_eq ..)
  | ne =>
      refine run_compare hfits hat hhas fun c hzf _ => ?_
      rw [Cpu.holds, hzf, Bool.beq_eq_decide_eq, ← decide_not]
  | lt => exact run_compare hfits hat hhas fun c _ hcf => hcf.trans BitVec.ult_eq_decide_lt
  | le =>
      refine run_compare hfits hat hhas fun c hzf hcf => ?_
      rw [Cpu.holds, hzf, hcf, BitVec.ult_eq_decide_lt, Bool.beq_eq_decide_eq, ← Bool.decide_or,
        decide_eq_decide]
      bv_omega
  | gt =>
      refine run_compare hfits hat hhas fun c hzf hcf => ?_
      rw [Cpu.holds, hzf, hcf, BitVec.ult_eq_decide_lt, Bool.beq_eq_decide_eq, ← Bool.decide_or,
        ← decide_not, decide_eq_decide]
      bv_omega
  | ge =>
      refine run_compare hfits hat hhas fun c _ hcf => ?_
      rw [Cpu.holds, hcf, BitVec.ult_eq_decide_lt, ← decide_not, decide_eq_decide]
      bv_omega

/-! ## The stack -/

/-- The code stays loaded while nothing in front of the stack changes. -/
theorem loaded_of_mem {mem : Nat → UInt8} (hfits : Fits whole) (hat : m.At whole p)
    (hmem : ∀ a, loadVaddr ≤ a → a < stackBase → mem a = m.cpu.mem a) :
    Loaded mem codeBase whole := by
  refine hat.code.congr fun a hle hlt => hmem a ?_ ?_
  · simp only [codeBase] at hle
    omega
  · simp only [Fits] at hfits
    simp only [codeBase, stackBase] at hlt ⊢
    omega

/-- A push stores its word below the stack pointer. -/
theorem run_push (hfits : Fits whole) (hat : m.At whole p) (hhas : Has whole p (.pushRax :: rest))
    {R : Nat} (hrsp : m.cpu.rsp = BitVec.ofNat 64 R) (hlow : stackBase + 8 ≤ R)
    (hhigh : R ≤ stackTop) :
    ∃ m', Reaches k m m' ∧ m'.At whole (p + 1) ∧ m'.cpu.rsp = BitVec.ofNat 64 (R - 8) ∧
      m'.cpu.rbp = m.cpu.rbp ∧ m'.out = m.out ∧
      readLE m'.cpu.mem (R - 8) 8 = m.cpu.rax.toNat ∧
      ∀ a, a < R - 8 ∨ R ≤ a → m'.cpu.mem a = m.cpu.mem a := by
  have hexec : (m.behind (p + 1)).execute .pushRax = some { m.behind (p + 1) with
      rsp := BitVec.ofNat 64 (R - 8), mem := writeLE m.cpu.mem (R - 8) 8 m.cpu.rax.toNat } := by
    refine congrArg some (push_eq m.cpu.rax hrsp (by omega) ?_)
    simp only [stackTop, stackBase, loadVaddr, elfBufSize] at hhigh
    omega
  have hmem (a : Nat) (ha : a < R - 8 ∨ R ≤ a) :
      writeLE m.cpu.mem (R - 8) 8 m.cpu.rax.toNat a = m.cpu.mem a :=
    writeLE_of_outside _ _ (by omega)
  refine ⟨_, .of_step (step_at hfits hat hhas (by simp) hexec), ⟨?_, rfl⟩, rfl, rfl, rfl, ?_, hmem⟩
  · exact loaded_of_mem hfits hat fun a _ hlt => hmem a (Or.inl (by omega))
  · exact (readLE_writeLE_same ..).trans (Nat.mod_eq_of_lt m.cpu.rax.isLt)

/-- Two operands: the one in `rax` goes to `rcx`, the other comes from the stack. -/
theorem run_operands (hfits : Fits whole) (hat : m.At whole p)
    (hhas : Has whole p ([.movRcxRax, .popRax] ++ rest)) {R : Nat}
    (hrsp : m.cpu.rsp = BitVec.ofNat 64 R) (hhigh : R < stackTop) :
    ∃ m', Reaches k m m' ∧ m'.At whole (p + 4) ∧ m'.cpu.rcx = m.cpu.rax ∧
      m'.cpu.rax = BitVec.ofNat 64 (readLE m.cpu.mem R 8) ∧
      m'.cpu.rsp = BitVec.ofNat 64 (R + 8) ∧ m'.cpu.rbp = m.cpu.rbp ∧ m'.out = m.out ∧
      m'.cpu.mem = m.cpu.mem := by
  have haddr : m.cpu.rsp.toNat = R := by
    rw [hrsp]
    refine toNat_ofNat ?_
    simp only [stackTop, stackBase, loadVaddr, elfBufSize] at hhigh
    omega
  obtain ⟨hrun₁, hat₁, _⟩ := run_quiet (k := k) hfits hat hhas (by simp) rfl rfl ⟨rfl, rfl, rfl⟩
  have hstep₂ := step_at (k := k) hfits hat₁ hhas.tail (by simp) rfl
  refine ⟨_, hrun₁.trans (.of_step hstep₂), ⟨hat.code, rfl⟩, rfl, ?_, ?_, rfl, rfl, rfl⟩
  · exact congrArg (fun a => BitVec.ofNat 64 (readLE m.cpu.mem a 8)) haddr
  · change m.cpu.rsp + 8 = _
    rw [hrsp, BitVec.ofNat_add]
    rfl

end

/-! ## Expressions -/

/-- `rbp` while the program runs. -/
abbrev framePtr : Nat := stackTop - 8
/-- `rsp` between two statements. -/
abbrev restPtr : Nat := framePtr - frameBytes

/-- The address of a name's slot. -/
def slotAddr (V : List Name) (x : Name) : Nat := framePtr - (V.idxOf x + 1) * 8

/-- The variables are in their slots. -/
structure Frame (V : List Name) (σ : Store) (m : Machine) : Prop where
  rbp : m.cpu.rbp = BitVec.ofNat 64 framePtr
  slots : ∀ x v, σ x = some v → x ∈ V ∧ readLE m.cpu.mem (slotAddr V x) 8 = v.toNat

section

variable {k : Kernel} {whole : List Instr} {V : List Name} {σ : Store}

theorem slot_bounds (hV : V.length ≤ maxLocals) {x : Name} (hx : x ∈ V) :
    restPtr ≤ slotAddr V x ∧ slotAddr V x + 8 ≤ framePtr ∧
      (slotAddr V x : Int) = framePtr + Comp.slotDisp (V.idxOf x) := by
  have hidx := List.idxOf_lt_length_of_mem hx
  simp only [slotAddr, Comp.slotDisp, restPtr, framePtr, stackTop, stackBase, loadVaddr, elfBufSize,
    frameBytes, maxLocals] at hV ⊢
  omega

/-- The address that the code of a variable computes. -/
theorem slot_address {m : Machine} (hV : V.length ≤ maxLocals)
    (hrbp : m.cpu.rbp = BitVec.ofNat 64 framePtr) (x : Name) :
    m.cpu.rbp + (disp V x).signExtend 64 = BitVec.ofNat 64 (slotAddr V x) := by
  have hidx : V.idxOf x ≤ V.length := List.idxOf_le_length
  rw [hrbp, disp, rel]
  refine ofNat_add_signExtend ?_ ?_ ?_
  · simp only [Comp.slotDisp, maxLocals] at hV ⊢
    omega
  · simp only [Comp.slotDisp]
    omega
  · simp only [slotAddr, Comp.slotDisp, framePtr, stackTop, stackBase, loadVaddr, elfBufSize,
      maxLocals] at hV ⊢
    omega

theorem slotAddr_toNat (x : Name) : (BitVec.ofNat 64 (slotAddr V x)).toNat = slotAddr V x := by
  refine toNat_ofNat ?_
  simp only [slotAddr, framePtr, stackTop, stackBase, loadVaddr, elfBufSize]
  omega

/-- What happens below the slots does not matter to them. -/
theorem Frame.keep {m m' : Machine} {R : Nat} (h : Frame V σ m) (hV : V.length ≤ maxLocals)
    (hR : R ≤ restPtr) (hrbp : m'.cpu.rbp = m.cpu.rbp)
    (hmem : ∀ a, R ≤ a → a < framePtr → m'.cpu.mem a = m.cpu.mem a) : Frame V σ m' where
  rbp := hrbp.trans h.rbp
  slots x v hx := by
    obtain ⟨hmem_V, hread⟩ := h.slots x v hx
    refine ⟨hmem_V, ?_⟩
    rw [← hread]
    have hbounds := slot_bounds hV hmem_V
    exact readLE_congr fun a ha hlt => hmem a (by omega) (by omega)

/-- The code of an expression computes its value. -/
theorem run_expr (hfits : Fits whole) (hV : V.length ≤ maxLocals) {e : Expr} {p R : Nat}
    {m : Machine} {w : Word} (hhas : Has whole p (e.code V)) (hat : m.At whole p)
    (hframe : Frame V σ m) (hrsp : m.cpu.rsp = BitVec.ofNat 64 R)
    (hlow : stackBase + 8 * e.size ≤ R) (hhigh : R ≤ restPtr) (heval : e.eval σ = .ok w) :
    ∃ m', Reaches k m m' ∧ m'.At whole (p + e.size) ∧ Keeps R m m' ∧ m'.cpu.rax = w := by
  induction e generalizing p R m w with
  | num v =>
      cases heval
      obtain ⟨hrun, hat', hkeep⟩ := run_quiet (k := k) hfits hat hhas (by simp) rfl rfl ⟨rfl, rfl, rfl⟩
      exact ⟨_, hrun, hat', hkeep.mono (Nat.zero_le _), rfl⟩
  | var x =>
      rw [Expr.eval] at heval
      cases hx : σ x with
      | none => rw [hx] at heval; cases heval
      | some v =>
          rw [hx] at heval
          cases heval
          obtain ⟨hmem, hread⟩ := hframe.slots x w hx
          obtain ⟨hrun, hat', hkeep⟩ := run_quiet (k := k) hfits hat hhas (by simp) rfl rfl
            ⟨rfl, rfl, rfl⟩
          refine ⟨_, hrun, hat', hkeep.mono (Nat.zero_le _), ?_⟩
          change BitVec.ofNat 64 (readLE m.cpu.mem (m.cpu.rbp + (disp V x).signExtend 64).toNat 8) = w
          rw [slot_address hV hframe.rbp x, slotAddr_toNat, hread, BitVec.ofNat_toNat, BitVec.setWidth_eq]
  | neg e ih =>
      obtain ⟨v, hv, hw⟩ := bind_eq_ok heval
      cases hw
      obtain ⟨hhas₁, hhas₂⟩ := hhas.append
      rw [Expr.len_code] at hhas₂
      rw [Expr.size] at hlow
      obtain ⟨m₁, hrun₁, hat₁, hkeep₁, hrax₁⟩ := ih hhas₁ hat hframe hrsp (by omega) hhigh hv
      obtain ⟨hrun₂, hat₂, hkeep₂⟩ := run_quiet (k := k) hfits hat₁ hhas₂ (by simp) rfl rfl ⟨rfl, rfl, rfl⟩
      refine ⟨_, hrun₁.trans hrun₂, hat₂, hkeep₁.trans (hkeep₂.mono (Nat.zero_le _)), ?_⟩
      rw [← hrax₁]
      rfl
  | bin op a b iha ihb =>
      obtain ⟨v, hv, heval⟩ := bind_eq_ok heval
      obtain ⟨w', hw', hw⟩ := bind_eq_ok heval
      cases hw
      have hsize : (Expr.bin op a b).size = a.size + (1 + (b.size + (4 + len op.code))) := rfl
      rw [hsize] at hlow
      obtain ⟨hhas₁, hhas⟩ := hhas.append
      obtain ⟨hhas₂, hhas⟩ := hhas.append
      obtain ⟨hhas₃, hhas₄⟩ := hhas.append
      rw [Expr.len_code] at hhas₂ hhas₃ hhas₄
      have htop : restPtr + 264 = stackTop := by decide
      -- The left operand waits on the stack while the right one is computed.
      obtain ⟨m₁, hrun₁, hat₁, hkeep₁, hrax₁⟩ := iha hhas₁ hat hframe hrsp (by omega) hhigh hv
      obtain ⟨m₂, hrun₂, hat₂, hrsp₂, hrbp₂, hout₂, hread₂, hmem₂⟩ := run_push (k := k) hfits hat₁
        hhas₂ (hkeep₁.rsp.trans hrsp) (by omega) (by omega)
      have hframe₂ : Frame V σ m₂ := hframe.keep hV hhigh (hrbp₂.trans hkeep₁.rbp) fun x hx _ =>
        (hmem₂ x (Or.inr hx)).trans (hkeep₁.mem x (Or.inr hx))
      obtain ⟨m₃, hrun₃, hat₃, hkeep₃, hrax₃⟩ := ihb hhas₃ hat₂ hframe₂ hrsp₂ (by omega) (by omega) hw'
      rw [Expr.len_code] at hhas₄
      obtain ⟨m₄, hrun₄, hat₄, hrcx₄, hrax₄, hrsp₄, hrbp₄, hout₄, hmem₄⟩ := run_operands (k := k)
        hfits hat₃ hhas₄ (hkeep₃.rsp.trans hrsp₂) (by omega)
      obtain ⟨m₅, hrun₅, hat₅, hkeep₅, hrax₅⟩ := run_op (k := k) hfits op hat₄ hhas₄.append.2
      have hleft : m₄.cpu.rax = v := by
        have hwaits : readLE m₃.cpu.mem (R - 8) 8 = v.toNat := by
          rw [readLE_congr fun x hx _ => hkeep₃.mem x (Or.inr hx), hread₂, hrax₁]
        rw [hrax₄, hwaits, BitVec.ofNat_toNat, BitVec.setWidth_eq]
      refine ⟨m₅, (((hrun₁.trans hrun₂).trans hrun₃).trans hrun₄).trans hrun₅,
        hat₅.cast (by rw [hsize, show len [Instr.pushRax] = 1 from rfl]; omega), ⟨?_, ?_, ?_, fun x hx => ?_⟩, ?_⟩
      · rw [hkeep₅.rsp, hrsp₄, hrsp, show R - 8 + 8 = R by omega]
      · rw [hkeep₅.rbp, hrbp₄, hkeep₃.rbp, hrbp₂, hkeep₁.rbp]
      · rw [hkeep₅.out, hout₄, hkeep₃.out, hout₂, hkeep₁.out]
      · rw [hkeep₅.mem x (hx.imp_right fun _ => Nat.zero_le _), hmem₄,
          hkeep₃.mem x (hx.imp_right fun h => by omega), hmem₂ x (by omega), hkeep₁.mem x hx]
      · rw [hrax₅, hleft, hrcx₄, hrax₃]

end

/-! ## Statements -/

/-- Between two statements: the variables in their slots, and nothing below them. -/
structure Rest (V : List Name) (σ : Store) (m : Machine) : Prop where
  frame : Frame V σ m
  rsp : m.cpu.rsp = BitVec.ofNat 64 restPtr

section

variable {k : Kernel} {whole : List Instr} {V : List Name} {σ : Store} {p : Nat} {m : Machine}

theorem Rest.keep {m' : Machine} {R : Nat} (h : Rest V σ m) (hV : V.length ≤ maxLocals)
    (hR : R ≤ restPtr) (hkeep : Keeps R m m') : Rest V σ m' :=
  ⟨h.frame.keep hV hR hkeep.rbp fun a ha _ => hkeep.mem a (Or.inr ha), hkeep.rsp.trans h.rsp⟩

/-- An expression at the beginning of a statement. -/
theorem run_operand (hfits : Fits whole) (hV : V.length ≤ maxLocals) {e : Expr} {w : Word}
    (hhas : Has whole p (e.code V)) (hat : m.At whole p) (hrest : Rest V σ m)
    (heval : e.eval σ = .ok w) :
    ∃ m', Reaches k m m' ∧ m'.At whole (p + e.size) ∧ Rest V σ m' ∧ m'.out = m.out ∧
      m'.cpu.rax = w := by
  have hle := hhas.le
  rw [Expr.len_code] at hle
  have hlow : stackBase + 8 * e.size ≤ restPtr := by
    simp only [Fits, codeOff, elfBufSize] at hfits
    simp only [restPtr, framePtr, stackTop, frameBytes, maxLocals]
    omega
  obtain ⟨m', hrun, hat', hkeep, hrax⟩ := run_expr hfits hV hhas hat hrest.frame hrest.rsp hlow
    (Nat.le_refl _) heval
  exact ⟨m', hrun, hat', hrest.keep hV (Nat.le_refl _) hkeep, hkeep.out, hrax⟩

/-- A condition: the branch goes `d` bytes further when it is 0. -/
theorem run_branch (hfits : Fits whole) (hat : m.At whole p) {d : Nat}
    (hhas : Has whole p (branchCode d)) (hd : p + 9 + d ≤ len whole) :
    ∃ m', Reaches k m m' ∧ m'.At whole (if m.cpu.rax = 0 then p + 9 + d else p + 9) ∧
      Keeps 0 m m' := by
  obtain ⟨hrun₁, hat₁, hkeep₁⟩ := run_quiet (k := k) hfits hat hhas (by simp) rfl rfl ⟨rfl, rfl, rfl⟩
  rcases eq_or_ne m.cpu.rax 0 with hzero | hne
  · have hzf : (m.cpu.rax == 0) = true := beq_iff_eq.mpr hzero
    obtain ⟨hrun₂, hat₂, hkeep₂⟩ := run_taken (k := k) hfits hat₁ hhas.tail hzf hd
      (show ((p + 9 + d : Nat) : Int) = ((p + 3 : Nat) : Int) + 6 + d by omega)
    rw [if_pos hzero]
    exact ⟨_, hrun₁.trans hrun₂, hat₂, hkeep₁.trans hkeep₂⟩
  · have hzf : (m.cpu.rax == 0) = false := beq_eq_false_iff_ne.mpr hne
    obtain ⟨hrun₂, hat₂, hkeep₂⟩ := run_not_taken (k := k) hfits hat₁ hhas.tail hzf
    rw [if_neg hne]
    exact ⟨_, hrun₁.trans hrun₂, hat₂, hkeep₁.trans hkeep₂⟩

/-- An assignment stores into the slot of its variable. -/
theorem run_store (hfits : Fits whole) (hV : V.length ≤ maxLocals) {x : Name} (hx : x ∈ V)
    (hhas : Has whole p [.storeRbp (disp V x)]) (hat : m.At whole p) (hrest : Rest V σ m) :
    ∃ m', Reaches k m m' ∧ m'.At whole (p + 7) ∧
      Rest V (Function.update σ x (some m.cpu.rax)) m' ∧ m'.out = m.out := by
  have haddr : (m.cpu.rbp + (disp V x).signExtend 64).toNat = slotAddr V x := by
    rw [slot_address hV hrest.frame.rbp x, slotAddr_toNat]
  have hbounds := slot_bounds hV hx
  have hlow : stackBase ≤ restPtr := by decide
  let mem := writeLE m.cpu.mem (slotAddr V x) 8 m.cpu.rax.toNat
  have hexec : (m.behind (p + 7)).execute (.storeRbp (disp V x)) =
      some { m.behind (p + 7) with mem := mem } := by
    change some ((m.behind (p + 7)).store (m.cpu.rbp + (disp V x).signExtend 64) m.cpu.rax) = _
    rw [Cpu.store, haddr]
    rfl
  refine ⟨{ m with cpu := { m.behind (p + 7) with mem := mem } },
    .of_step (step_at hfits hat hhas (by simp) hexec), ⟨?_, rfl⟩, ⟨⟨hrest.frame.rbp, ?_⟩, hrest.rsp⟩,
    rfl⟩
  · exact loaded_of_mem hfits hat fun a _ hlt => writeLE_of_outside _ _ (by omega)
  · intro y v hy
    rcases eq_or_ne y x with rfl | hne
    · rw [Function.update_self] at hy
      cases hy
      refine ⟨hx, ?_⟩
      change readLE mem (slotAddr V y) 8 = m.cpu.rax.toNat
      rw [readLE_writeLE_same]
      exact Nat.mod_eq_of_lt m.cpu.rax.isLt
    · rw [Function.update_of_ne hne] at hy
      obtain ⟨hmem, hread⟩ := hrest.frame.slots y v hy
      refine ⟨hmem, ?_⟩
      change readLE mem (slotAddr V y) 8 = v.toNat
      have hidx : V.idxOf y ≠ V.idxOf x := fun h => hne (List.idxOf_inj hmem |>.mp h)
      have hbounds' := slot_bounds hV hmem
      rw [readLE_writeLE_of_disjoint _ _ (show slotAddr V y + 8 ≤ slotAddr V x ∨
        slotAddr V x + 8 ≤ slotAddr V y by simp only [Comp.slotDisp] at hbounds hbounds'; omega),
        hread]

/-- A print system call. -/
theorem run_print (hfits : Fits whole) (hV : V.length ≤ maxLocals) {newline : Bool}
    (hhas : Has whole p (printCode newline)) (hat : m.At whole p) (hrest : Rest V σ m) :
    ∃ m', Reaches k m m' ∧ m'.At whole (p + len (printCode newline)) ∧ Rest V σ m' ∧
      m'.out = m.out ++ printNum m.cpu.rax (truth newline) := by
  -- The registers of the call.
  have hargs : ∃ m', Reaches k m m' ∧ m'.At whole (p + len (printCode newline) - 2) ∧
      Has whole (p + len (printCode newline) - 2) [.syscall] ∧ Keeps 0 m m' ∧
      m'.cpu.rax = 32 ∧ m'.cpu.rdi = m.cpu.rax ∧ m'.cpu.rsi = truth newline := by
    obtain ⟨hrun₁, hat₁, hkeep₁⟩ := run_quiet (k := k) hfits hat hhas (by simp) rfl rfl ⟨rfl, rfl, rfl⟩
    cases newline with
    | true =>
        obtain ⟨hrun₂, hat₂, hkeep₂⟩ := run_quiet (k := k) (i := .movEsi (rel 1)) hfits hat₁ hhas.tail
          (by simp) rfl rfl ⟨rfl, rfl, rfl⟩
        obtain ⟨hrun₃, hat₃, hkeep₃⟩ := run_quiet (k := k) hfits hat₂ hhas.tail.tail (by simp) rfl rfl
          ⟨rfl, rfl, rfl⟩
        exact ⟨_, (hrun₁.trans hrun₂).trans hrun₃, hat₃, hhas.tail.tail.tail,
          (hkeep₁.trans hkeep₂).trans hkeep₃, rfl, rfl, rfl⟩
    | false =>
        obtain ⟨hrun₂, hat₂, hkeep₂⟩ := run_quiet (k := k) (i := .xorEsi) hfits hat₁ hhas.tail
          (by simp) rfl rfl ⟨rfl, rfl, rfl⟩
        obtain ⟨hrun₃, hat₃, hkeep₃⟩ := run_quiet (k := k) hfits hat₂ hhas.tail.tail (by simp) rfl rfl
          ⟨rfl, rfl, rfl⟩
        exact ⟨_, (hrun₁.trans hrun₂).trans hrun₃, hat₃, hhas.tail.tail.tail,
          (hkeep₁.trans hkeep₂).trans hkeep₃, rfl, rfl, rfl⟩
  obtain ⟨m₁, hrun, hat₁, hhas₁, hkeep, hrax, hrdi, hrsi⟩ := hargs
  have hrest₁ := hrest.keep hV (Nat.zero_le _) hkeep
  have hlen : 2 ≤ len (printCode newline) := by
    cases newline <;> decide
  have hcpu : m₁.cpu.past .syscall = m₁.behind (p + len (printCode newline)) := by
    rw [past_eq hat₁.rip, show p + len (printCode newline) - 2 + Instr.syscall.size =
      p + len (printCode newline) by rw [show Instr.syscall.size = 2 from rfl]; omega]
  let m₂ : Machine :=
    { cpu := k.ret (m₁.behind (p + len (printCode newline))),
      out := m₁.out ++ printNum m₁.cpu.rdi m₁.cpu.rsi }
  have hstep : m₁.step k = .next m₂ := by
    rw [step, fetch_at hfits hat₁ hhas₁, syscall, hcpu]
    exact if_pos hrax
  have hmem (a : Nat) (hlow : loadVaddr ≤ a) (hhigh : a < stackTop) :
      m₂.cpu.mem a = m₁.cpu.mem a := k.mem _ a hlow hhigh
  have htop : loadVaddr ≤ stackBase ∧ stackBase ≤ restPtr ∧ restPtr ≤ framePtr ∧
      framePtr + 8 = stackTop := by decide
  refine ⟨m₂, hrun.trans (.of_step hstep), ⟨?_, k.rip _⟩, ⟨?_, (k.rsp _).trans hrest₁.rsp⟩, ?_⟩
  · exact loaded_of_mem hfits hat₁ fun a hlow hlt => hmem a hlow (by omega)
  · exact hrest₁.frame.keep hV (Nat.le_refl _) (k.rbp _) fun a hlow hlt =>
      hmem a (by omega) (by omega)
  · change m₁.out ++ printNum m₁.cpu.rdi m₁.cpu.rsi = _
    rw [hkeep.out, hrdi, hrsi]

/-- Where a statement ends: behind its code, or behind the loop that it leaves. -/
def landing (exit : Option Nat) (last : Nat) : Signal → Nat
  | .normal => last
  | .break => last + exit.getD 0

/-- From `m` the machine runs to the end of a statement with this result.  A loop is left
only from inside. -/
def Ends (k : Kernel) (whole : List Instr) (V : List Name) (exit : Option Nat) (last : Nat)
    (m : Machine) (r : Result) : Prop :=
  ∃ m', Reaches k m m' ∧ m'.At whole (landing exit last r.1) ∧ Rest V r.2.1 m' ∧
    m'.out = m.out ++ r.2.2 ∧ (r.1 = .break → exit.isSome)

theorem Ends.after {exit : Option Nat} {last : Nat} {m₁ : Machine} {sig : Signal} {σ' : Store}
    {out₁ out : List UInt8} (h : Ends k whole V exit last m₁ (sig, σ', out))
    (hrun : Reaches k m m₁) (hout : m₁.out = m.out ++ out₁) :
    Ends k whole V exit last m (sig, σ', out₁ ++ out) := by
  obtain ⟨m', hrun', hat, hrest, hout', hleft⟩ := h
  refine ⟨m', hrun.trans hrun', hat, hrest, ?_, hleft⟩
  rw [hout', hout, List.append_assoc]

/-- The code of the statements does what they do with fuel `n`. -/
def RunsStmts (k : Kernel) (whole : List Instr) (V : List Name) (n : Nat) : Prop :=
  ∀ {inLoop : Bool} {s : Stmt} {exit : Option Nat} {σ : Store} {p : Nat} {m : Machine} {r : Result},
    Has whole p (s.code V exit) → m.At whole p → Rest V σ m → s.targets ⊆ V →
    exit.isSome = inLoop → p + s.size + exit.getD 0 ≤ len whole → s.exec n inLoop σ = .ok r →
    Ends k whole V exit (p + s.size) m r

section

variable {n : Nat} {exit : Option Nat} {r : Result} {e : Expr} {s t : Stmt}

theorem run_seq (ih : RunsStmts k whole V n) (hhas : Has whole p ((Stmt.seq s t).code V exit))
    (hat : m.At whole p) (hrest : Rest V σ m) (htargets : (Stmt.seq s t).targets ⊆ V)
    (hexit : p + (Stmt.seq s t).size + exit.getD 0 ≤ len whole)
    (hexec : (Stmt.seq s t).exec (n + 1) exit.isSome σ = .ok r) :
    Ends k whole V exit (p + (Stmt.seq s t).size) m r := by
  obtain ⟨r₁, hs, hexec⟩ := bind_eq_ok hexec
  obtain ⟨hhas₁, hhas₂⟩ := hhas.append
  rw [Stmt.len_code] at hhas₂
  rw [Stmt.size] at hexit ⊢
  obtain ⟨htargets₁, htargets₂⟩ := List.append_subset.mp htargets
  have hexit₁ : p + s.size + (exit.map (t.size + ·)).getD 0 ≤ len whole := by
    cases exit <;> simp at hexit ⊢ <;> omega
  obtain ⟨m₁, hrun₁, hat₁, hrest₁, hout₁, hleft₁⟩ := ih hhas₁ hat hrest htargets₁
    (Option.isSome_map ..) hexit₁ hs
  obtain ⟨sig, σ₁, out₁⟩ := r₁
  cases sig with
  | normal =>
      obtain ⟨⟨sig₂, σ₂, out₂⟩, ht, hr⟩ := bind_eq_ok hexec
      cases hr
      have hsecond := ih hhas₂ hat₁ hrest₁ htargets₂ rfl (by omega) ht
      rw [Nat.add_assoc] at hsecond
      exact hsecond.after hrun₁ hout₁
  | «break» =>
      cases hexec
      cases exit with
      | none => exact absurd (hleft₁ rfl) (by simp)
      | some d =>
          refine ⟨m₁, hrun₁, hat₁.cast ?_, hrest₁, hout₁, fun _ => rfl⟩
          simp only [landing, Option.map_some, Option.getD_some]
          omega

theorem run_ifThen (hfits : Fits whole) (hV : V.length ≤ maxLocals) (ih : RunsStmts k whole V n)
    (hhas : Has whole p ((Stmt.ifThen e s).code V exit)) (hat : m.At whole p) (hrest : Rest V σ m)
    (htargets : (Stmt.ifThen e s).targets ⊆ V)
    (hexit : p + (Stmt.ifThen e s).size + exit.getD 0 ≤ len whole)
    (hexec : (Stmt.ifThen e s).exec (n + 1) exit.isSome σ = .ok r) :
    Ends k whole V exit (p + (Stmt.ifThen e s).size) m r := by
  obtain ⟨v, hv, hexec⟩ := bind_eq_ok hexec
  obtain ⟨hhas₁, hhas⟩ := hhas.append
  obtain ⟨hhas₂, hhas₃⟩ := hhas.append
  rw [Expr.len_code] at hhas₂ hhas₃
  rw [len_branchCode] at hhas₃
  rw [Stmt.size] at hexit ⊢
  obtain ⟨m₁, hrun₁, hat₁, hrest₁, hout₁, hrax₁⟩ := run_operand (k := k) hfits hV hhas₁ hat hrest hv
  obtain ⟨m₂, hrun₂, hat₂, hkeep₂⟩ := run_branch (k := k) hfits hat₁ hhas₂ (by omega)
  have hrest₂ := hrest₁.keep hV (Nat.zero_le _) hkeep₂
  have hout₂ : m₂.out = m.out ++ [] := by rw [hkeep₂.out, hout₁, List.append_nil]
  rw [hrax₁] at hat₂
  split at hexec
  · rename_i hzero
    cases hexec
    rw [if_pos hzero] at hat₂
    exact ⟨m₂, hrun₁.trans hrun₂, hat₂.cast (by simp only [landing]; omega), hrest₂, hout₂,
      fun h => by cases h⟩
  · rename_i hne
    rw [if_neg hne] at hat₂
    have hbody := ih hhas₃ hat₂ hrest₂ htargets rfl (by omega) hexec
    have hends := hbody.after (hrun₁.trans hrun₂) hout₂
    rwa [show p + e.size + 9 + s.size = p + (e.size + (9 + s.size)) by omega] at hends

theorem run_ifElse (hfits : Fits whole) (hV : V.length ≤ maxLocals) (ih : RunsStmts k whole V n)
    (hhas : Has whole p ((Stmt.ifElse e s t).code V exit)) (hat : m.At whole p)
    (hrest : Rest V σ m) (htargets : (Stmt.ifElse e s t).targets ⊆ V)
    (hexit : p + (Stmt.ifElse e s t).size + exit.getD 0 ≤ len whole)
    (hexec : (Stmt.ifElse e s t).exec (n + 1) exit.isSome σ = .ok r) :
    Ends k whole V exit (p + (Stmt.ifElse e s t).size) m r := by
  obtain ⟨v, hv, hexec⟩ := bind_eq_ok hexec
  obtain ⟨hhas₁, hhas⟩ := hhas.append
  obtain ⟨hhas₂, hhas⟩ := hhas.append
  obtain ⟨hhas₃, hhas⟩ := hhas.append
  obtain ⟨hhas₄, hhas₅⟩ := hhas.append
  rw [Expr.len_code] at hhas₂ hhas₃ hhas₄ hhas₅
  rw [len_branchCode] at hhas₃ hhas₄ hhas₅
  rw [Stmt.len_code] at hhas₄ hhas₅
  rw [Stmt.size] at hexit ⊢
  obtain ⟨htargets₁, htargets₂⟩ := List.append_subset.mp htargets
  obtain ⟨m₁, hrun₁, hat₁, hrest₁, hout₁, hrax₁⟩ := run_operand (k := k) hfits hV hhas₁ hat hrest hv
  obtain ⟨m₂, hrun₂, hat₂, hkeep₂⟩ := run_branch (k := k) (d := s.size + 5) hfits hat₁ hhas₂ (by omega)
  have hrest₂ := hrest₁.keep hV (Nat.zero_le _) hkeep₂
  have hout₂ : m₂.out = m.out ++ [] := by rw [hkeep₂.out, hout₁, List.append_nil]
  rw [hrax₁] at hat₂
  split at hexec
  · -- The branch goes to the second block.
    rename_i hzero
    rw [if_pos hzero] at hat₂
    have hbody := ih hhas₅ (hat₂.cast (by
      rw [show len [Instr.jmp (rel t.size)] = 5 from rfl]
      omega)) hrest₂ htargets₂ rfl (by
      rw [show len [Instr.jmp (rel t.size)] = 5 from rfl]
      omega) hexec
    have hends := hbody.after (hrun₁.trans hrun₂) hout₂
    rwa [show p + e.size + 9 + s.size + len [Instr.jmp (rel t.size)] + t.size =
      p + (e.size + (9 + (s.size + (5 + t.size)))) by
        rw [show len [Instr.jmp (rel t.size)] = 5 from rfl]
        omega] at hends
  · -- The first block is followed by a jump over the second one.
    rename_i hne
    rw [if_neg hne] at hat₂
    have hexit₁ : p + e.size + 9 + s.size + (exit.map (5 + t.size + ·)).getD 0 ≤ len whole := by
      cases exit <;> simp at hexit ⊢ <;> omega
    obtain ⟨m₃, hrun₃, hat₃, hrest₃, hout₃, hleft₃⟩ := ih hhas₃ hat₂ hrest₂ htargets₁
      (Option.isSome_map ..) hexit₁ hexec
    obtain ⟨sig, σ₁, out₁⟩ := r
    have hrun := (hrun₁.trans hrun₂).trans hrun₃
    rw [hout₂, List.append_nil] at hout₃
    cases sig with
    | normal =>
        obtain ⟨hrun₄, hat₄, hkeep₄⟩ := run_jmp (k := k)
          (q := p + (e.size + (9 + (s.size + (5 + t.size))))) hfits hat₃ hhas₄ (by omega)
          (by simp only [landing]; omega)
        refine ⟨_, hrun.trans hrun₄, hat₄, hrest₃.keep hV (Nat.zero_le _) hkeep₄, ?_,
          fun h => by cases h⟩
        rw [hkeep₄.out, hout₃]
    | «break» =>
        cases exit with
        | none => exact absurd (hleft₃ rfl) (by simp)
        | some d =>
            refine ⟨m₃, hrun, hat₃.cast ?_, hrest₃, hout₃, fun _ => rfl⟩
            simp only [landing, Option.map_some, Option.getD_some]
            omega

/-- The body of a loop, and what follows when it is not left. -/
theorem run_again (hfits : Fits whole) (hV : V.length ≤ maxLocals) (ih : RunsStmts k whole V n)
    {top d : Nat} {next : Store → Except Stop Result}
    (hhas : Has whole p (s.code V (some 5) ++ [.jmp (rel (-(d : Nat)))]))
    (htop : top + d = p + (s.size + 5)) (hat : m.At whole p) (hrest : Rest V σ m)
    (htargets : s.targets ⊆ V)
    (hexec : (do
      let r ← s.exec n true σ
      r.again next) = .ok r)
    (hnext : ∀ {σ₁ m₁ r₁}, m₁.At whole top → Rest V σ₁ m₁ → next σ₁ = .ok r₁ →
      Ends k whole V exit (p + (s.size + 5)) m₁ r₁) :
    Ends k whole V exit (p + (s.size + 5)) m r := by
  obtain ⟨r₁, hs, hexec⟩ := bind_eq_ok hexec
  have hle := hhas.le
  obtain ⟨hhas₁, hhas₂⟩ := hhas.append
  rw [Stmt.len_code] at hhas₂
  rw [len_append, Stmt.len_code, show len [Instr.jmp (rel (-(d : Nat)))] = 5 from rfl] at hle
  obtain ⟨m₁, hrun₁, hat₁, hrest₁, hout₁, _⟩ := ih hhas₁ hat hrest htargets rfl
    (show p + s.size + 5 ≤ len whole by omega) hs
  obtain ⟨sig, σ₁, out₁⟩ := r₁
  cases sig with
  | normal =>
      obtain ⟨⟨sig₂, σ₂, out₂⟩, hagain, hr⟩ := bind_eq_ok hexec
      cases hr
      obtain ⟨hrun₂, hat₂, hkeep₂⟩ := run_jmp (k := k) (q := top) hfits hat₁ hhas₂ (by omega)
        (by simp only [landing]; omega)
      have hout₂ : (m₁.goto top).out = m.out ++ out₁ := by rw [hkeep₂.out, hout₁]
      exact (hnext hat₂ (hrest₁.keep hV (Nat.zero_le _) hkeep₂) hagain).after
        (hrun₁.trans hrun₂) hout₂
  | «break» =>
      cases hexec
      exact ⟨m₁, hrun₁, hat₁, hrest₁, hout₁, fun h => by cases h⟩

theorem run_while (hfits : Fits whole) (hV : V.length ≤ maxLocals) (ih : RunsStmts k whole V n)
    (hhas : Has whole p ((Stmt.while e s).code V exit)) (hat : m.At whole p) (hrest : Rest V σ m)
    (htargets : (Stmt.while e s).targets ⊆ V)
    (hexit : p + (Stmt.while e s).size + exit.getD 0 ≤ len whole)
    (hexec : (Stmt.while e s).exec (n + 1) exit.isSome σ = .ok r) :
    Ends k whole V exit (p + (Stmt.while e s).size) m r := by
  have hhas₀ := hhas
  obtain ⟨v, hv, hexec⟩ := bind_eq_ok hexec
  obtain ⟨hhas₁, hhas⟩ := hhas.append
  obtain ⟨hhas₂, hhas₃⟩ := hhas.append
  rw [Expr.len_code] at hhas₂ hhas₃
  rw [len_branchCode] at hhas₃
  have hsize : (Stmt.while e s).size = e.size + (9 + (s.size + 5)) := rfl
  obtain ⟨m₁, hrun₁, hat₁, hrest₁, hout₁, hrax₁⟩ := run_operand (k := k) hfits hV hhas₁ hat hrest hv
  obtain ⟨m₂, hrun₂, hat₂, hkeep₂⟩ := run_branch (k := k) (d := s.size + 5) hfits hat₁ hhas₂ (by omega)
  have hrest₂ := hrest₁.keep hV (Nat.zero_le _) hkeep₂
  have hout₂ : m₂.out = m.out ++ [] := by rw [hkeep₂.out, hout₁, List.append_nil]
  rw [hrax₁] at hat₂
  have hlast : p + e.size + 9 + (s.size + 5) = p + (Stmt.while e s).size := by omega
  split at hexec
  · rename_i hzero
    cases hexec
    rw [if_pos hzero, hlast] at hat₂
    exact ⟨m₂, hrun₁.trans hrun₂, hat₂, hrest₂, hout₂, fun h => by cases h⟩
  · rename_i hne
    rw [if_neg hne] at hat₂
    have hbody : Ends k whole V exit (p + e.size + 9 + (s.size + 5)) m₂ r := by
      refine run_again hfits hV ih hhas₃ (show p + _ = _ by omega) hat₂ hrest₂ htargets hexec ?_
      intro σ₁ m₁ r₁ hat' hrest' hnext
      rw [hlast]
      exact ih hhas₀ hat' hrest' htargets rfl hexit hnext
    rw [hlast] at hbody
    exact hbody.after (hrun₁.trans hrun₂) hout₂

theorem run_loop (hfits : Fits whole) (hV : V.length ≤ maxLocals) (ih : RunsStmts k whole V n)
    (hhas : Has whole p ((Stmt.loop s).code V exit)) (hat : m.At whole p) (hrest : Rest V σ m)
    (htargets : (Stmt.loop s).targets ⊆ V)
    (hexit : p + (Stmt.loop s).size + exit.getD 0 ≤ len whole)
    (hexec : (Stmt.loop s).exec (n + 1) exit.isSome σ = .ok r) :
    Ends k whole V exit (p + (Stmt.loop s).size) m r :=
  run_again hfits hV ih hhas rfl hat hrest htargets hexec fun hat' hrest' hnext =>
    ih hhas hat' hrest' htargets rfl hexit hnext

/-- The code of a statement does what the statement does. -/
theorem runsStmts (hfits : Fits whole) (hV : V.length ≤ maxLocals) (n : Nat) :
    RunsStmts k whole V n := by
  induction n with
  | zero => exact fun _ _ _ _ _ _ hexec => by cases hexec
  | succ n ih =>
      intro inLoop s exit σ p m r hhas hat hrest htargets hloop hexit hexec
      subst hloop
      cases s with
      | skip =>
          cases hexec
          exact ⟨m, .refl m, hat, hrest, (List.append_nil _).symm, fun h => by cases h⟩
      | seq s t => exact run_seq ih hhas hat hrest htargets hexit hexec
      | assign x e =>
          obtain ⟨v, hv, hr⟩ := bind_eq_ok hexec
          cases hr
          obtain ⟨hhas₁, hhas₂⟩ := hhas.append
          rw [Expr.len_code] at hhas₂
          obtain ⟨m₁, hrun₁, hat₁, hrest₁, hout₁, hrax₁⟩ := run_operand (k := k) hfits hV hhas₁ hat
            hrest hv
          obtain ⟨m₂, hrun₂, hat₂, hrest₂, hout₂⟩ := run_store (k := k) hfits hV
            (htargets List.mem_cons_self) hhas₂ hat₁ hrest₁
          rw [hrax₁] at hrest₂
          refine ⟨m₂, hrun₁.trans hrun₂, hat₂, hrest₂, ?_, fun h => by cases h⟩
          rw [hout₂, hout₁, List.append_nil]
      | print e newline =>
          obtain ⟨v, hv, hr⟩ := bind_eq_ok hexec
          cases hr
          obtain ⟨hhas₁, hhas₂⟩ := hhas.append
          rw [Expr.len_code] at hhas₂
          obtain ⟨m₁, hrun₁, hat₁, hrest₁, hout₁, hrax₁⟩ := run_operand (k := k) hfits hV hhas₁ hat
            hrest hv
          obtain ⟨m₂, hrun₂, hat₂, hrest₂, hout₂⟩ := run_print (k := k) hfits hV hhas₂ hat₁ hrest₁
          refine ⟨m₂, hrun₁.trans hrun₂, hat₂.cast (Nat.add_assoc ..), hrest₂, ?_, fun h => by cases h⟩
          rw [hout₂, hout₁, hrax₁]
      | ifThen e s => exact run_ifThen hfits hV ih hhas hat hrest htargets hexit hexec
      | ifElse e s t => exact run_ifElse hfits hV ih hhas hat hrest htargets hexit hexec
      | «while» e s => exact run_while hfits hV ih hhas hat hrest htargets hexit hexec
      | loop s => exact run_loop hfits hV ih hhas hat hrest htargets hexit hexec
      | «break» =>
          cases hexec
          obtain ⟨hrun, hat', hkeep⟩ := run_jmp (k := k) (q := p + 5 + exit.getD 0) hfits hat hhas
            hexit (by omega)
          have hrest' := hrest.keep hV (Nat.zero_le _) hkeep
          cases exit with
          | none => exact ⟨_, hrun, hat', hrest', (List.append_nil _).symm, fun h => by cases h⟩
          | some d => exact ⟨_, hrun, hat', hrest', (List.append_nil _).symm, fun _ => rfl⟩

end

end

end Machine

end PureOS.Barrel
