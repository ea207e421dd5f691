import PureOS.Foundation.Run
import PureOS.Foundation.Slice
import PureOS.Process.Table

set_option autoImplicit false

/-!
# Process: scheduling and rendezvous IPC (`syscall.rs`)

The kernel runs one process at a time and gives the CPU away only inside a system
call.  A step is what the current process does next: something in its own code, a
system call up to its return or to the switch that suspends it, the return from a
call it was suspended in, or a turn of the loop in `block_current` when nothing
was runnable.

The memory is physical: each process sees it through page tables of its own, which
share everything below the top level with those of the process they were cloned
from.  `copy_user_message` reads a byte through the tables of the sender and stores
it through those of the receiver.  An access through an entry that is not present
ends in the exception handler, which stops the machine: there is no step then.
Each call also reports what an observer of the messages would see; the reports are
not data of the source.
-/

namespace PureOS.Process

open PureOS.Foundation

/-- What an observer of the messages sees. -/
inductive Event where
  /-- `send_ipc` was accepted; the message is what the sender's buffer holds. -/
  | sent (src dst : Pid) (msg : List UInt8)
  /-- `receive_ipc` was accepted. -/
  | receiving (dst : Pid)
  /-- A message was copied; `msg` is what the receiver's buffer now holds. -/
  | delivered (src dst : Pid) (msg : List UInt8)
  /-- `receive_ipc` returned `value` with `msg` in its buffer. -/
  | received (dst : Pid) (value : Int) (msg : List UInt8)
  /-- `reply_ipc` succeeded; the reply is what the replier's buffer holds. -/
  | replied (src dst : Pid) (msg : List UInt8)
  /-- `send_ipc` returned `value` with `msg` in its buffer. -/
  | sendReturned (src : Pid) (value : Int) (msg : List UInt8)
  /-- A process was put into a slot. -/
  | created (pid : Pid)
  deriving DecidableEq

/-- The memory of the machine, and where each process has it: `place p a` is the byte
of memory that the page tables of `p` have at the address `a`.  Nothing keeps two
processes from having the same byte. -/
structure AddressSpaces where
  place : Pid → Nat → Nat
  byte : Nat → UInt8

namespace AddressSpaces

/-- A byte that a process reads. -/
def read (m : AddressSpaces) (p : Pid) (addr : Nat) : UInt8 := m.byte (m.place p addr)

/-- A process stores a byte. -/
def write (m : AddressSpaces) (p : Pid) (addr : Nat) (byte : UInt8) : AddressSpaces :=
  { m with byte := Function.update m.byte (m.place p addr) byte }

@[simp] theorem write_place (m : AddressSpaces) (p : Pid) (addr : Nat) (byte : UInt8) :
    (m.write p addr byte).place = m.place := rfl

@[simp] theorem read_write_self (m : AddressSpaces) (p : Pid) (addr : Nat) (byte : UInt8) :
    (m.write p addr byte).read p addr = byte :=
  Function.update_self ..

theorem write_byte_of_ne (m : AddressSpaces) {p : Pid} {addr b : Nat} (byte : UInt8)
    (h : b ≠ m.place p addr) : (m.write p addr byte).byte b = m.byte b :=
  Function.update_of_ne h ..

theorem read_write_of_ne (m : AddressSpaces) {p q : Pid} {addr a : Nat} (byte : UInt8)
    (h : m.place q a ≠ m.place p addr) : (m.write p addr byte).read q a = m.read q a :=
  m.write_byte_of_ne byte h

end AddressSpaces

/-- The state that the scheduler and the IPC calls work on. -/
structure Kernel where
  table : Table
  current : Pid
  mem : AddressSpaces
  tickCount : Nat

namespace Kernel

/-- `PROCESS_TABLE[pid] = ...` on some fields. -/
def setPcb (k : Kernel) (pid : Pid) (f : Pcb → Pcb) : Kernel :=
  { k with table := Function.update k.table pid (f (k.table pid)) }

@[simp] theorem setPcb_self (k : Kernel) (pid : Pid) (f : Pcb → Pcb) :
    (k.setPcb pid f).table pid = f (k.table pid) := by
  simp [setPcb]

@[simp] theorem setPcb_of_ne (k : Kernel) {pid p : Pid} (f : Pcb → Pcb) (h : p ≠ pid) :
    (k.setPcb pid f).table p = k.table p := by
  simp [setPcb, h]

@[simp] theorem setPcb_mem (k : Kernel) (pid : Pid) (f : Pcb → Pcb) :
    (k.setPcb pid f).mem = k.mem := rfl

@[simp] theorem setPcb_current (k : Kernel) (pid : Pid) (f : Pcb → Pcb) :
    (k.setPcb pid f).current = k.current := rfl

/-- The message in a buffer of a process. -/
def message (k : Kernel) (pid : Pid) (ptr : Nat) : List UInt8 :=
  slice (k.mem.read pid) ptr ipcMessageSize

/-! ## Scheduling -/

/-- `switch_context`. -/
def switchContext (k : Kernel) (prev next : Pid) : Kernel :=
  if prev = next then k
  else
    { k with current := next }.setPcb next fun p =>
      { p with
        switchCount := wrappingAdd p.switchCount 1
        startTick := if p.startTick = 0 then k.tickCount else p.startTick }

/-- One turn of the loop in `block_current`: without a runnable process the CPU
halts and the loop goes round again. -/
def blockCurrent (k : Kernel) (current : Pid) : Kernel :=
  match k.table.nextRunnableAfter current with
  | some next => k.switchContext current next
  | none => k

/-- `yield_cpu`, up to the switch. -/
def yieldCpu (k : Kernel) : Kernel :=
  let current := k.current
  match k.table.nextRunnableAfter current with
  | some next => (k.setPcb current fun p => { p with resume := .yieldCpu }).switchContext current next
  | none => k

/-! ## Messages -/

/-- `copy_user_message`: `len` bytes, one by one in ascending order. -/
def copyUserMessage (mem : AddressSpaces) (src : Pid) (srcPtr : Nat) (dst : Pid)
    (dstPtr : Nat) : Nat → AddressSpaces
  | 0 => mem
  | len + 1 =>
      let mem := copyUserMessage mem src srcPtr dst dstPtr len
      mem.write dst (dstPtr + len) (mem.read src (srcPtr + len))

theorem copyUserMessage_zero (mem : AddressSpaces) (src : Pid) (srcPtr : Nat) (dst : Pid)
    (dstPtr : Nat) : copyUserMessage mem src srcPtr dst dstPtr 0 = mem := rfl

theorem copyUserMessage_succ (mem : AddressSpaces) (src : Pid) (srcPtr : Nat) (dst : Pid)
    (dstPtr len : Nat) : copyUserMessage mem src srcPtr dst dstPtr (len + 1) =
      (copyUserMessage mem src srcPtr dst dstPtr len).write dst (dstPtr + len)
        ((copyUserMessage mem src srcPtr dst dstPtr len).read src (srcPtr + len)) := rfl

-- Unfolding a copy of a whole message would write out 64 stores.
attribute [irreducible] copyUserMessage

/-- What a system call does before it returns or suspends the process: its value
if it returns at once, what was observed, and the state. -/
structure Outcome where
  value : Option Int
  events : List Event
  kernel : Kernel

/-- A return without any effect. -/
def refuse (k : Kernel) (err : Int) : Outcome := ⟨some err, [], k⟩

/-- `send_ipc`, up to its return with an error or the switch in `block_current`. -/
def sendIpc (k : Kernel) (targetProc msgPtr : Nat) : Outcome :=
  let current := k.current
  if h : targetProc < maxProcesses then
    let target : Pid := ⟨targetProc, h⟩
    if current = target ∨ ¬k.table.validLiveProcess target then k.refuse errInvalidProcess
    else if ¬(k.table current).containsRange msgPtr ipcMessageSize then
      k.refuse errInvalidPointer
    else if (k.table target).state = .blockedOnReceive then
      -- The receiver is waiting already: rendezvous now.
      let dst := (k.table target).ipcBuffer
      if ¬(k.table target).containsRange dst ipcMessageSize then k.refuse errInvalidPointer
      else
        let copied := { k with
          mem := copyUserMessage k.mem current msgPtr target dst ipcMessageSize }
        let woken := copied.setPcb target fun p =>
          { p with ipcPeer := current, state := .runnable }
        let waiting := woken.setPcb current fun p =>
          { p with ipcBuffer := msgPtr, state := .blockedOnReply target, resume := .sendIpc msgPtr }
        ⟨none, [.sent current target (k.message current msgPtr),
          .delivered current target (copied.message target dst)], waiting.blockCurrent current⟩
    else
      -- The receiver is not ready: wait until it receives.
      let waiting := k.setPcb current fun p =>
        { p with ipcBuffer := msgPtr, state := .blockedOnSend target, resume := .sendIpc msgPtr }
      ⟨none, [.sent current target (k.message current msgPtr)], waiting.blockCurrent current⟩
  else k.refuse errInvalidProcess

/-- The scan of `receive_ipc` for a pending sender. -/
def pendingSender (k : Kernel) (current : Pid) : Option Pid :=
  (List.finRange maxProcesses).find? fun sender =>
    (k.table sender).state = .blockedOnSend current

/-- `receive_ipc`, up to its return or the switch in `block_current`. -/
def receiveIpc (k : Kernel) (msgPtr : Nat) : Outcome :=
  let current := k.current
  if ¬(k.table current).containsRange msgPtr ipcMessageSize then k.refuse errInvalidPointer
  else
    match k.pendingSender current with
    | some sender =>
        let src := (k.table sender).ipcBuffer
        if ¬(k.table sender).containsRange src ipcMessageSize then
          ⟨some errInvalidPointer, [], k.setPcb sender fun p => { p with state := .exited }⟩
        else
          let copied := { k with
            mem := copyUserMessage k.mem sender src current msgPtr ipcMessageSize }
          let noted := copied.setPcb current fun p => { p with ipcBuffer := msgPtr }
          let taken := noted.setPcb sender fun p => { p with state := .blockedOnReply current }
          ⟨some sender, [.receiving current,
            .delivered sender current (copied.message current msgPtr),
            .received current sender (taken.message current msgPtr)], taken⟩
    | none =>
        let waiting := k.setPcb current fun p =>
          { p with ipcBuffer := msgPtr, ipcPeer := 0, state := .blockedOnReceive,
                   resume := .receiveIpc msgPtr }
        ⟨none, [.receiving current], waiting.blockCurrent current⟩

/-- `reply_ipc`. -/
def replyIpc (k : Kernel) (targetProc msgPtr : Nat) : Outcome :=
  let current := k.current
  if h : targetProc < maxProcesses then
    let target : Pid := ⟨targetProc, h⟩
    if ¬k.table.validLiveProcess target then k.refuse errInvalidProcess
    else if ¬(k.table current).containsRange msgPtr ipcMessageSize then
      k.refuse errInvalidPointer
    else if (k.table target).state = .blockedOnReply current then
      let dst := (k.table target).ipcBuffer
      if ¬(k.table target).containsRange dst ipcMessageSize then k.refuse errInvalidPointer
      else
        let copied := { k with
          mem := copyUserMessage k.mem current msgPtr target dst ipcMessageSize }
        let woken := copied.setPcb target fun p =>
          { p with ipcPeer := current, ipcBuffer := 0, state := .runnable }
        ⟨some 0, [.replied current target (k.message current msgPtr)], woken⟩
    else k.refuse errInvalidProcess
  else k.refuse errInvalidProcess

/-! ## Creation and death -/

/-- The new process of a creation: through `provision_pcb` (`create_process`,
`spawn_initial_user`) or `provision_pcb_elf` (`elf::exec`), in the first free slot. -/
inductive NewProcess where
  | plain (entry pageTableBase userStack : Nat)
  | elf (entry pageTableBase userStack codeBase codeSize : Nat)

/-- The control block of a new process. -/
def NewProcess.pcb (new : NewProcess) (i : Pid) (tick : Nat) : Pcb :=
  match new with
  | .plain entry pml4 stack => provisionPcb i entry pml4 stack tick
  | .elf entry pml4 stack base size => provisionPcbElf i entry pml4 stack base size tick

/-- Fill the first free slot.  The page tables of the new process are cloned from the
current ones, and its pages are mapped: `memory` is what that leaves. -/
def create (k : Kernel) (new : NewProcess) (memory : AddressSpaces) : Outcome :=
  match k.table.findFreeSlot with
  | none => k.refuse errNoCapacity
  | some i =>
      ⟨some i, [.created i],
        { k.setPcb i (fun _ => new.pcb i k.tickCount) with mem := memory }⟩

/-- `create_thread`: a process with a stack of the caller's choice, which has to lie
in the layer of the new process. -/
def createThread (k : Kernel) (entry pageTableBase userStack stack : Nat)
    (memory : AddressSpaces) : Outcome :=
  let made := k.create (.plain entry pageTableBase userStack) memory
  match k.table.findFreeSlot with
  | none => made
  | some pid =>
      if stack = 0 then made
      else if ¬(made.kernel.table pid).containsRange stack 1 then
        ⟨some errInvalidPointer, made.events,
          made.kernel.setPcb pid fun p => { p with state := .exited }⟩
      else { made with kernel := made.kernel.setPcb pid fun p => { p with userStack := stack } }

/-- `exit_process`, up to the switch in `block_current`. -/
def exitProcess (k : Kernel) (code : Nat) : Outcome :=
  let current := k.current
  let gone := k.setPcb current fun p =>
    { p with state := .exited, exitCode := code, framesHead := 0, resume := .exitProcess }
  ⟨none, [], gone.blockCurrent current⟩

/-- `kill_process` takes effect: the number is the slot of another live process. -/
def Killable (k : Kernel) (pid : Nat) : Prop :=
  ∃ p : Pid, p.val = pid ∧ p ≠ k.current ∧ (k.table p).isLive = true

/-- `kill_process`. -/
def killProcess (k : Kernel) (pid : Nat) : Outcome :=
  if h : pid < maxProcesses then
    let p : Pid := ⟨pid, h⟩
    if p = k.current ∨ ¬(k.table p).isLive then k.refuse 0
    else ⟨some 1, [], k.setPcb p fun p => { p with state := .exited, exitCode := 9, framesHead := 0 }⟩
  else k.refuse 0

/-! ## Steps -/

/-- What the current process does in its own code. -/
inductive Call where
  /-- It stores a byte in its memory. -/
  | store (addr : Nat) (byte : UInt8)
  | yieldCpu
  | sendIpc (targetProc msgPtr : Nat)
  | receiveIpc (msgPtr : Nat)
  | replyIpc (targetProc msgPtr : Nat)
  | create (new : NewProcess) (memory : AddressSpaces)
  | createThread (entry pageTableBase userStack stack : Nat) (memory : AddressSpaces)
  | exitProcess (code : Nat)
  | killProcess (pid : Nat)

/-- Carry out a call. -/
def perform (k : Kernel) : Call → Outcome
  | .store addr byte =>
      ⟨none, [], { k with mem := k.mem.write k.current addr byte }⟩
  | .yieldCpu => ⟨none, [], k.yieldCpu⟩
  | .sendIpc target ptr => k.sendIpc target ptr
  | .receiveIpc ptr => k.receiveIpc ptr
  | .replyIpc target ptr => k.replyIpc target ptr
  | .create new memory => k.create new memory
  | .createThread entry pml4 userStack stack memory =>
      k.createThread entry pml4 userStack stack memory
  | .exitProcess code => k.exitProcess code
  | .killProcess pid => k.killProcess pid

/-- The current process is back from the switch in a call: what the call returns
and reports. -/
def returnFrom (k : Kernel) : Resume → List Event
  | .sendIpc ptr => [.sendReturned k.current 0 (k.message k.current ptr)]
  | .receiveIpc ptr =>
      [.received k.current (k.table k.current).ipcPeer (k.message k.current ptr)]
  | _ => []

/-- What happens next. -/
inductive Action where
  /-- The current process, in its own code, makes a call. -/
  | call (c : Call)
  /-- The current process returns from the call it was suspended in. -/
  | resume
  /-- The loop in `block_current` goes round. -/
  | halt

/-- The next state and what is observed, when the action is the next thing that
can happen. -/
def act (k : Kernel) : Action → Option (List Event × Kernel)
  | .call c =>
      if (k.table k.current).resume = .running then
        some ((k.perform c).events, (k.perform c).kernel)
      else none
  | .resume =>
      if (k.table k.current).state = .runnable ∧ (k.table k.current).resume ≠ .running then
        some (k.returnFrom (k.table k.current).resume,
          k.setPcb k.current fun p => { p with resume := .running })
      else none
  | .halt =>
      if (k.table k.current).state ≠ .runnable ∧ (k.table k.current).resume ≠ .running then
        some ([], k.blockCurrent k.current)
      else none

/-- A step, labelled with the action and with what is observed. -/
def Step (k : Kernel) (l : Action × List Event) (k' : Kernel) : Prop := k.act l.1 = some (l.2, k')

/-- A call of the current process in its own code. -/
theorem step_call {k : Kernel} (running : (k.table k.current).resume = .running) (c : Call) :
    Step k (.call c, (k.perform c).events) (k.perform c).kernel := by
  simp [Step, act, running]

theorem of_step_call {k k' : Kernel} {c : Call} {es : List Event}
    (h : Step k (.call c, es) k') : (k.table k.current).resume = .running ∧
      (k.perform c).events = es ∧ (k.perform c).kernel = k' := by
  simpa [Step, act] using h

theorem of_step_resume {k k' : Kernel} {es : List Event} (h : Step k (.resume, es) k') :
    ((k.table k.current).state = .runnable ∧ (k.table k.current).resume ≠ .running) ∧
      k.returnFrom (k.table k.current).resume = es ∧
      (k.setPcb k.current fun p => { p with resume := .running }) = k' := by
  simpa [Step, act] using h

theorem of_step_halt {k k' : Kernel} {es : List Event} (h : Step k (.halt, es) k') :
    ((k.table k.current).state ≠ .runnable ∧ (k.table k.current).resume ≠ .running) ∧
      [] = es ∧ k.blockCurrent k.current = k' := by
  simpa [Step, act] using h

section Acts

variable (P : Kernel → Action → Prop) [∀ k, DecidablePred (P k)]

/-- Carry out actions that meet a condition one after the other, with the labels of
the steps. -/
def acts (k : Kernel) : List Action → Option (List (Action × List Event) × Kernel)
  | [] => some ([], k)
  | a :: rest =>
      if P k a then
        match k.act a with
        | none => none
        | some (es, k') => (acts k' rest).map fun (h, last) => ((a, es) :: h, last)
      else none

variable {P}

/-- Actions that can be carried out give a run. -/
theorem run_of_acts {k k' : Kernel} {actions : List Action} {h : List (Action × List Event)}
    (hacts : acts P k actions = some (h, k')) :
    Run (fun k l k' => Step k l k' ∧ P k l.1) k h k' := by
  induction actions generalizing k h with
  | nil =>
      cases hacts
      exact .nil
  | cons a rest ih =>
      unfold acts at hacts
      split at hacts
      · rename_i hP
        cases hact : k.act a with
        | none =>
            rw [hact] at hacts
            cases hacts
        | some next =>
            rw [hact] at hacts
            obtain ⟨⟨h', last⟩, hrest, heq⟩ := Option.map_eq_some_iff.mp hacts
            cases heq
            exact .cons ⟨hact, hP⟩ (ih hrest)
      · cases hacts

end Acts

/-- What was observed in a history. -/
def observed (h : List (Action × List Event)) : List Event := h.flatMap Prod.snd

@[simp] theorem observed_nil : observed [] = [] := rfl

@[simp] theorem observed_snoc (h : List (Action × List Event)) (l : Action × List Event) :
    observed (h ++ [l]) = observed h ++ l.2 := by
  simp [observed]

end Kernel

end PureOS.Process
