import Mathlib.Algebra.GroupWithZero.Nat
import Mathlib.Data.List.FinRange
import Mathlib.Logic.Function.Basic
import PureOS.Foundation.Word

set_option autoImplicit false

/-!
# Process: the process table (`syscall.rs`)

The process control block, the predicates the kernel evaluates on it, the search
for a free slot and the two ways of filling one.  A slot number is a `Fin
maxProcesses`; a number that comes from user space is a natural number until it
has been checked.

The kernel stack of a process that is not running holds the frame in which it
called `context_switch`.  `saved_rsp`, the pointer to that frame, is modelled by
what the frame says: the point at which the process continues and the argument
that is still needed there.
-/

namespace PureOS.Process

open PureOS.Foundation

/-- `MAX_PROCESSES`. -/
abbrev maxProcesses : Nat := 64
instance : NeZero maxProcesses := ⟨by decide⟩

/-- `IPC_MESSAGE_SIZE`. -/
abbrev ipcMessageSize : Nat := 64
/-- `EPHEMERAL_BASE`. -/
def ephemeralBase : Nat := 0x0000_1000_0000_0000
/-- `EPHEMERAL_BYTES_PER_PROCESS`. -/
def ephemeralBytesPerProcess : Nat := 16 * 1024 * 1024

/-- `ERR_INVALID_SYSCALL`. -/
def errInvalidSyscall : Int := -1
/-- `ERR_INVALID_PROCESS`. -/
def errInvalidProcess : Int := -2
/-- `ERR_NO_CAPACITY`. -/
def errNoCapacity : Int := -3
/-- `ERR_INVALID_POINTER`. -/
def errInvalidPointer : Int := -4
/-- `ERR_OUT_OF_MEMORY`. -/
def errOutOfMemory : Int := -5
/-- `ERR_UNSUPPORTED`. -/
def errUnsupported : Int := -38

/-- A slot of the process table. -/
abbrev Pid := Fin maxProcesses

/-- `ProcessState`. -/
inductive ProcessState where
  | empty
  | runnable
  | blockedOnSend (target : Pid)
  | blockedOnReceive
  | blockedOnReply (peer : Pid)
  | exited
  deriving DecidableEq, Repr

/-- Where a process continues when it is given the CPU: in its own code, or after
the `block_current` or `switch_context` inside the system call that gave it up.
The frames of `send_ipc` and `receive_ipc` keep the message pointer. -/
inductive Resume where
  | running
  | yieldCpu
  | sendIpc (msgPtr : Nat)
  | receiveIpc (msgPtr : Nat)
  | exitProcess
  deriving DecidableEq, Repr

/-- `ProcessControlBlock`. -/
structure Pcb where
  id : Nat := 0
  state : ProcessState := .empty
  pageTableBase : Nat := 0
  entry : Nat := 0
  userStack : Nat := 0
  layerBase : Nat := 0
  layerSize : Nat := 0
  nextFree : Nat := 0
  framesHead : Nat := 0
  ipcBuffer : Nat := 0
  ipcPeer : Nat := 0
  resume : Resume := .running
  exitCode : Nat := 0
  switchCount : Nat := 0
  startTick : Nat := 0
  deriving DecidableEq

namespace Pcb

/-- `ProcessControlBlock::empty`. -/
def empty : Pcb := {}

/-- `is_live`. -/
def isLive (p : Pcb) : Bool :=
  match p.state with
  | .empty | .exited => false
  | _ => true

/-- `contains_range`. -/
def containsRange (p : Pcb) (ptr len : Nat) : Bool :=
  match checkedAdd ptr len with
  | none => false
  | some fin => p.layerBase ≤ ptr && fin ≤ wrappingAdd p.layerBase p.layerSize

/-- A process may use every byte of a range that it may use. -/
theorem containsRange_byte {p : Pcb} {ptr len i : Nat} (h : p.containsRange ptr len = true)
    (hi : i < len) : p.containsRange (ptr + i) 1 = true := by
  unfold containsRange at h ⊢
  cases hend : checkedAdd ptr len with
  | none => simp [hend] at h
  | some fin =>
      obtain ⟨rfl, hlt⟩ := checkedAdd_eq_some hend
      have hbyte : checkedAdd (ptr + i) 1 = some (ptr + i + 1) := if_pos (by omega)
      simp only [hend, Bool.and_eq_true, decide_eq_true_eq] at h
      simp only [hbyte, Bool.and_eq_true, decide_eq_true_eq]
      omega

theorem isLive_of_runnable {p : Pcb} (h : p.state = .runnable) : p.isLive = true := by
  simp [isLive, h]

theorem isLive_of_blockedOnSend {p : Pcb} {t : Pid} (h : p.state = .blockedOnSend t) :
    p.isLive = true := by
  simp [isLive, h]

theorem isLive_of_blockedOnReceive {p : Pcb} (h : p.state = .blockedOnReceive) :
    p.isLive = true := by
  simp [isLive, h]

theorem isLive_of_blockedOnReply {p : Pcb} {t : Pid} (h : p.state = .blockedOnReply t) :
    p.isLive = true := by
  simp [isLive, h]

end Pcb

/-- `PROCESS_TABLE`. -/
abbrev Table := Pid → Pcb

namespace Table

/-- `valid_live_process`: the number is a slot, and the process in it is live. -/
def validLiveProcess (t : Table) (pid : Nat) : Bool :=
  if h : pid < maxProcesses then (t ⟨pid, h⟩).isLive else false

/-- `find_free_slot`: slot 0 is never given away. -/
def findFreeSlot (t : Table) : Option Pid :=
  (List.finRange maxProcesses).find? fun i =>
    i ≠ 0 ∧ ((t i).state = .empty ∨ (t i).state = .exited)

/-- `next_runnable_after`: round robin over the slots, the current one last. -/
def nextRunnableAfter (t : Table) (current : Pid) : Option Pid :=
  ((List.range maxProcesses).map fun step =>
    Fin.ofNat maxProcesses (current.val + (step + 1))).find? fun i => (t i).state = .runnable

theorem findFreeSlot_eq_some {t : Table} {i : Pid} (h : t.findFreeSlot = some i) :
    i ≠ 0 ∧ (t i).isLive = false := by
  have hfound := List.find?_some h
  simp only [decide_eq_true_eq] at hfound
  obtain ⟨hne, hstate | hstate⟩ := hfound
  · exact ⟨hne, by simp [Pcb.isLive, hstate]⟩
  · exact ⟨hne, by simp [Pcb.isLive, hstate]⟩

theorem nextRunnableAfter_eq_some {t : Table} {current next : Pid}
    (h : t.nextRunnableAfter current = some next) : (t next).state = .runnable := by
  simpa using List.find?_some h

theorem validLiveProcess_iff {t : Table} {pid : Nat} :
    t.validLiveProcess pid = true ↔ ∃ p : Pid, p.val = pid ∧ (t p).isLive = true := by
  unfold validLiveProcess
  split
  · rename_i h
    constructor
    · intro hlive
      exact ⟨⟨pid, h⟩, rfl, hlive⟩
    · rintro ⟨p, rfl, hlive⟩
      exact hlive
  · rename_i h
    constructor
    · intro hfalse
      cases hfalse
    · rintro ⟨p, rfl, _⟩
      exact absurd p.isLt h

end Table

/-! ## Filling a slot -/

/-- `provision_pcb`: the layer of a slot is its own stretch of the ephemeral
window. -/
def provisionPcb (i : Pid) (entry pageTableBase userStack tick : Nat) : Pcb where
  id := i
  state := .runnable
  pageTableBase := pageTableBase
  entry := entry
  userStack := userStack
  layerBase := ephemeralBase + i * ephemeralBytesPerProcess
  layerSize := ephemeralBytesPerProcess
  nextFree := ephemeralBase + i * ephemeralBytesPerProcess
  startTick := tick

/-- `provision_pcb_elf`: the layer is the loaded image. -/
def provisionPcbElf (i : Pid) (entry pageTableBase userStack codeBase codeSize tick : Nat) :
    Pcb where
  id := i
  state := .runnable
  pageTableBase := pageTableBase
  entry := entry
  userStack := userStack
  layerBase := codeBase
  layerSize := codeSize
  nextFree := codeBase
  startTick := tick

end PureOS.Process
