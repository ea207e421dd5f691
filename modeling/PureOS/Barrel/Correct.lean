import PureOS.Barrel.Balance
import PureOS.Barrel.Blocks

set_option autoImplicit false

/-!
# Barrel: the compiler is correct

A process that is started with the emitted code sets up its frame, runs the code of
the statements and exits.  So it prints what the program prints, and wherever it
comes, the stack is as deep as belongs to the place.
-/

namespace PureOS.Barrel

open PureOS.Foundation PureOS.Foundation.X86

namespace Machine

section

variable {k : Kernel} {V : List Name} {body : List Instr} {m : Machine}

/-- The states of the first three steps, and that nothing is printed meanwhile. -/
theorem run_prologue (hfits : Fits (prologueCode ++ body)) (hat : m.At (prologueCode ++ body) 0)
    (hrsp : m.cpu.rsp = BitVec.ofNat 64 stackTop) :
    ∃ m₁ m₂ m₃, m.step k = .next m₁ ∧ m₁.step k = .next m₂ ∧ m₂.step k = .next m₃ ∧
      m₁.cpu.rip = BitVec.ofNat 64 (codeBase + 1) ∧ m₂.cpu.rip = BitVec.ofNat 64 (codeBase + 4) ∧
      m₃.At (prologueCode ++ body) (len prologueCode) ∧ Rest V noVars m₃ ∧ m₃.out = m.out := by
  have hhas : Has (prologueCode ++ body) 0 prologueCode := ⟨[], body, rfl, rfl⟩
  have hlow : stackBase + 8 ≤ stackTop ∧ 8 ≤ stackTop ∧ stackTop < 2 ^ 64 ∧ stackBase < framePtr ∧
      frameBytes ≤ framePtr := by decide
  -- The frame pointer of the caller is saved on top of the stack.
  let mem := writeLE m.cpu.mem framePtr 8 m.cpu.rbp.toNat
  let m₁ : Machine :=
    { m with cpu := { m.behind 1 with rsp := BitVec.ofNat 64 framePtr, mem := mem } }
  have hpush : (m.behind 1).execute .pushRbp = some m₁.cpu :=
    congrArg some (@push_eq (m.behind 1) stackTop m.cpu.rbp hrsp hlow.2.1 hlow.2.2.1)
  have hstep₁ : m.step k = .next m₁ := step_at hfits hat hhas (by simp) hpush
  have hat₁ : m₁.At (prologueCode ++ body) 1 := by
    refine ⟨loaded_of_mem hfits hat fun a _ hlt => ?_, rfl⟩
    exact writeLE_of_outside _ _ (Or.inl (by omega))
  let m₂ : Machine := { m₁ with cpu := { m₁.behind 4 with rbp := BitVec.ofNat 64 framePtr } }
  have hstep₂ : m₁.step k = .next m₂ := step_at hfits hat₁ hhas.tail (by simp) rfl
  have hat₂ : m₂.At (prologueCode ++ body) 4 := ⟨hat₁.code, rfl⟩
  have hframe : (rel frameBytes).signExtend 64 = BitVec.ofNat 64 frameBytes := by decide
  have hrsp₃ : m₂.cpu.rsp - (rel frameBytes).signExtend 64 = BitVec.ofNat 64 restPtr := by
    rw [hframe]
    exact @ofNat_sub framePtr frameBytes hlow.2.2.2.2
  have hstep₃ := step_at (k := k) hfits hat₂ hhas.tail.tail (by simp) rfl
  exact ⟨m₁, m₂, _, hstep₁, hstep₂, hstep₃, rfl, rfl, ⟨hat₂.code, rfl⟩,
    ⟨⟨rfl, fun x v hx => by cases hx⟩, hrsp₃⟩, rfl⟩

/-- The code behind the last statement ends the process. -/
theorem run_exit {whole : List Instr} {p : Nat} (hfits : Fits whole) (hat : m.At whole p)
    (hhas : Has whole p exitCode) : m.Exits k m.out := by
  obtain ⟨hrun₁, hat₁, hkeep₁⟩ := run_quiet (k := k) hfits hat hhas (by simp) rfl rfl ⟨rfl, rfl, rfl⟩
  obtain ⟨hrun₂, hat₂, hkeep₂⟩ := run_quiet (k := k) hfits hat₁ hhas.tail (by simp) rfl rfl
    ⟨rfl, rfl, rfl⟩
  refine ⟨_, hrun₁.trans hrun₂, ?_⟩
  rw [step, fetch_at hfits hat₂ hhas.tail.tail]
  rfl

end

/-! ## A program from its start -/

section

variable {k : Kernel} {V : List Name} {p : Stmt} {m : Machine}

/-- The process does what the program does, and exits. -/
theorem exits_of_prints (hfits : Fits (programCode V p)) (hV : V.length ≤ maxLocals)
    (htargets : p.targets ⊆ V) (hat : m.At (programCode V p) 0)
    (hrsp : m.cpu.rsp = BitVec.ofNat 64 stackTop) (hout : m.out = []) {out : List UInt8}
    (hprints : p.Prints out) : m.Exits k out := by
  obtain ⟨m₁, m₂, m₃, hstep₁, hstep₂, hstep₃, _, _, hat₃, hrest₃, hout₃⟩ :=
    run_prologue (k := k) (V := V) hfits hat hrsp
  obtain ⟨n, sig, σ, hexec⟩ := hprints
  have hhas : Has (programCode V p) (len prologueCode) (p.code V none ++ exitCode) :=
    ⟨prologueCode, [], by rw [List.append_nil, programCode], rfl⟩
  obtain ⟨hhas₁, hhas₂⟩ := hhas.append
  have hle := hhas₁.le
  rw [Stmt.len_code] at hle hhas₂
  obtain ⟨m₄, hrun, hat₄, _, hout₄, hleft⟩ := runsStmts (k := k) hfits hV n hhas₁ hat₃ hrest₃
    htargets rfl hle hexec
  have hlanding : landing none (len prologueCode + p.size) sig = len prologueCode + p.size := by
    cases sig <;> rfl
  have hexit := run_exit (k := k) hfits (hat₄.cast hlanding) hhas₂
  rw [hout₄, hout₃, hout, List.nil_append] at hexit
  exact hexit.after ((((Reaches.of_step hstep₁).trans (.of_step hstep₂)).trans
    (.of_step hstep₃)).trans hrun)

/-- Every jump of the program goes to one of its instructions. -/
theorem jumpsLand (hfits : Fits (programCode V p)) : JumpsLand (programCode V p) := by
  intro pre i post d hcode hd
  have hall : AllLand (programCode V p) [] (programCode V p) := by
    refine .append (.of_no_jump (by simp [prologueCode, jumpDisp])) (.append ?_
      (.of_no_jump (by simp [exitCode, jumpDisp])))
    refine stmtLands hfits V p rfl rfl (by decide) ?_
    exact @place_behind _ _ _ _ prologueCode exitCode _ rfl rfl (by decide)
  obtain ⟨q, hq, pre', j, j', post', hplace, rfl, _⟩ := hall.get hcode d hd
  exact ⟨pre', j, j' :: post', hplace, hq⟩

/-- Where a statement begins or ends, nothing is on the stack. -/
theorem balanced_at_marks (hfits : Fits (programCode V p)) (hV : V.length ≤ maxLocals)
    (hat : m.At (programCode V p) 0) (hrsp : m.cpu.rsp = BitVec.ofNat 64 stackTop) {m' : Machine}
    (hreach : Reaches k m m') {q : Nat} (hq : q ∈ p.marks (len prologueCode))
    (hrip : m'.cpu.rip = BitVec.ofNat 64 (codeBase + q)) :
    m'.cpu.rsp = BitVec.ofNat 64 restPtr := by
  obtain ⟨m₁, m₂, m₃, hstep₁, hstep₂, hstep₃, hrip₁, hrip₂, hat₃, hrest₃, _⟩ :=
    run_prologue (k := k) (V := V) hfits hat hrsp
  have hsafe := safe_program hfits hV
  obtain ⟨mid, rest, hsplit, rfl, hlevel⟩ := level_mark V none hq
  have hbody : bodyCode V p = mid ++ (rest ++ exitCode) := by
    rw [bodyCode, hsplit, List.append_assoc]
  have hlen : len prologueCode + len (bodyCode V p) ≤ 4096 := by
    rw [← len_append]
    exact Nat.le_of_add_left_le hfits
  have hmid : len mid ≤ len (bodyCode V p) := by
    rw [hbody, len_append]
    omega
  -- No statement begins or ends in front of the frame's set-up.
  have hlate {a : Nat} (ha : a < len prologueCode)
      (hfirst : m'.cpu.rip = BitVec.ofNat 64 (codeBase + a)) : False := by
    have heq := place_inj (by omega) (by omega) (hrip.symm.trans hfirst)
    omega
  have hstart : Balanced (bodyCode V p) V [] m₃ := by
    refine ⟨?_, hat₃, ⟨restPtr, hrest₃.rsp, by simp⟩, hrest₃.frame.rbp⟩
    have hlong : 2 ≤ (bodyCode V p).length := by
      rw [bodyCode, List.length_append]
      exact Nat.le_add_left_of_le (by decide)
    rcases hcode : bodyCode V p with _ | ⟨i, _ | ⟨j, post⟩⟩
    · rw [hcode] at hlong
      exact absurd hlong (by decide)
    · rw [hcode] at hlong
      exact absurd hlong (by simp)
    · exact ⟨i, j :: post, rfl, fun hnil => by cases hnil⟩
  rcases hreach.head hstep₁ with rfl | hreach
  · exact (hlate (show 0 < 11 by decide) hat.rip).elim
  rcases hreach.head hstep₂ with rfl | hreach
  · exact (hlate (show 1 < 11 by decide) hrip₁).elim
  rcases hreach.head hstep₃ with rfl | hreach
  · exact (hlate (show 4 < 11 by decide) hrip₂).elim
  obtain ⟨pre, ⟨i, post, hcode, _⟩, hplace, ⟨R, hR, hdepth⟩, _⟩ :=
    hreach.invariant (I := fun m => ∃ pre, Balanced (bodyCode V p) V pre m)
      (fun _ _ h hstep => h.elim fun _ hbalanced => hbalanced.step hsafe hstep) ⟨[], hstart⟩
  have hpre : len pre ≤ len (bodyCode V p) := by
    rw [hcode, len_append]
    omega
  have heq := place_inj (by omega) (by omega) (hplace.rip.symm.trans hrip)
  have hsame : pre = mid := eq_of_len_eq (hcode.symm.trans hbody) (by omega)
  rw [hsame, hlevel] at hdepth
  rw [hR, show R = restPtr by omega]

end

end Machine

/-! ## The compiler -/

/-- What the compiler accepts is the text of one program, all jumps of the emitted code
go to instructions, and every process that is started with the code prints what the
program prints and then exits, with an empty stack wherever a statement begins or
ends. -/
theorem compile_correct {n : Nat} {src : List UInt8} {elf : Nat → UInt8} {c : Comp}
    (h : compile n src elf = .ok c) (herr : c.err = 0) :
    ∃ p, Denotes src p ∧ (∀ p', Denotes src p' → p' = p) ∧
      (∃ code, c.code = bytes code ∧ JumpsLand code) ∧
      ∀ (k : Kernel) (m : Machine), m.Boots c →
        (∀ out, p.Prints out → m.Exits k out) ∧
        ∀ m', Machine.Reaches k m m' → ∀ q ∈ p.marks (len prologueCode),
          m'.cpu.rip = BitVec.ofNat 64 (codeBase + q) →
          m'.cpu.rsp = BitVec.ofNat 64 Machine.restPtr := by
  obtain ⟨p, hparse, hcode, htargets, hready⟩ := compile_sound h herr
  have hlen : len (programCode c.names p) = c.clen := by
    rw [len, ← hcode, c.length_code]
  have hfits : Fits (programCode c.names p) := by
    rw [Fits, hlen]
    exact hready.room
  have hV : c.names.length ≤ maxLocals := by
    rw [Comp.names, List.length_map]
    exact hready.good.vars_length
  refine ⟨p, ⟨n, hparse⟩, fun p' hp' => hp'.unique ⟨n, hparse⟩,
    ⟨_, hcode, Machine.jumpsLand hfits⟩, fun k m hboots => ?_⟩
  have hat : m.At (programCode c.names p) 0 := by
    refine ⟨?_, hboots.rip⟩
    rw [Loaded, hlen, hboots.code]
    exact hcode
  exact ⟨fun out => Machine.exits_of_prints hfits hV htargets hat hboots.rsp hboots.out,
    fun m' hreach q hq => Machine.balanced_at_marks hfits hV hat hboots.rsp hreach hq⟩

/-- A loop that prints 2 and 1. -/
def countdownText : List UInt8 :=
  "let x = 2; while x { println x; let x = x - 1; }".toUTF8.toList

/-- Its tree. -/
def countdownTree : Stmt :=
  .seq (.assign [ch 'x'] (.num 2))
    (.seq (.while (.var [ch 'x'])
      (.seq (.print (.var [ch 'x']) true)
        (.seq (.assign [ch 'x'] (.bin .sub (.var [ch 'x']) (.num 1))) .skip)))
      .skip)

theorem compile_correct_countdown :
    ∃ c, compile 60 countdownText (fun _ => 0) = .ok c ∧ c.err = 0 ∧
      ∀ (k : Kernel) (m : Machine), m.Boots c → m.Exits k [ch '2', ch '\n', ch '1', ch '\n'] := by
  have haccepts : (match compile 60 countdownText (fun _ => 0) with
      | .ok c => c.err == 0
      | .error _ => false) = true := by decide +kernel
  have hparse : Parse.program 60 countdownText = some countdownTree := by decide +kernel
  have hexec : (match countdownTree.exec 20 false noVars with
      | .ok (_, _, out) => out == [ch '2', ch '\n', ch '1', ch '\n']
      | .error _ => false) = true := by decide +kernel
  cases hc : compile 60 countdownText (fun _ => 0) with
  | error fault =>
      rw [hc] at haccepts
      cases haccepts
  | ok c =>
      rw [hc] at haccepts
      have herr : c.err = 0 := beq_iff_eq.mp haccepts
      obtain ⟨p, hp, _, _, hruns⟩ := compile_correct hc herr
      obtain rfl := hp.unique ⟨60, hparse⟩
      refine ⟨c, rfl, herr, fun k m hboots => (hruns k m hboots).1 _ ?_⟩
      cases hr : countdownTree.exec 20 false noVars with
      | error stop =>
          rw [hr] at hexec
          cases hexec
      | ok r =>
          obtain ⟨sig, σ, out⟩ := r
          rw [hr] at hexec
          exact ⟨20, sig, σ, by rw [hr, beq_iff_eq.mp hexec]⟩

end PureOS.Barrel
