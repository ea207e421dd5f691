import PureOS.Fs.Path
import PureOS.Process.Table

set_option autoImplicit false

/-!
# Files: descriptors (`syscall.rs`)

The descriptor tables of the processes over the RAM file system, and the system
calls on descriptors.  A descriptor keeps the number of a node, and nothing that
would tell one file in that slot from a later one.

The memory of the caller is an argument of the calls that read it; a call that
writes to it answers with the bytes it stores at the buffer.
-/

namespace PureOS.Files

open PureOS.Foundation PureOS.Fs PureOS.Process

/-- `MAX_FDS`. -/
abbrev maxFds : Nat := 16

instance : NeZero maxFds := ⟨by decide⟩

/-- A descriptor number that has been checked. -/
abbrev Fd := Fin maxFds

/-- `FdKind`. -/
inductive FdKind where
  | free
  | consoleOut
  | consoleIn
  | file
  deriving DecidableEq, Repr

/-- `FdEntry`. -/
structure FdEntry where
  kind : FdKind
  inode : NodeId
  offset : Nat
  flags : Nat
  deriving DecidableEq

/-- `FdEntry::free`. -/
def FdEntry.free : FdEntry := ⟨.free, 0, 0, 0⟩

/-- The descriptor table of one process. -/
abbrev FdTable := Fd → FdEntry

/-- `init_fd_table`. -/
def initFdTable : FdTable := fun fd =>
  if fd = 0 then ⟨.consoleIn, 0, 0, 0⟩
  else if fd = 1 ∨ fd = 2 then ⟨.consoleOut, 0, 0, 0⟩
  else FdEntry.free

/-- What the calls on descriptors read and change: the file system, the process
table, `FD_TABLES`, the keys that wait in the keyboard buffer and the bytes
written to the terminal. -/
structure System where
  fs : State
  table : Table
  fds : Pid → FdTable
  keys : List UInt8
  terminal : List UInt8

/-- A number as `i64`. -/
def asI64 (n : Int) : Int := n.bmod (2 ^ 64)

namespace System

/-- `FD_TABLES[pid][fd] = e`. -/
def setFd (s : System) (pid : Pid) (fd : Fd) (e : FdEntry) : System :=
  { s with fds := Function.update s.fds pid (Function.update (s.fds pid) fd e) }

/-- `find_free_fd`. -/
def findFreeFd (s : System) (pid : Pid) : Option Fd :=
  (List.finRange maxFds).find? fun fd => (s.fds pid fd).kind = .free

/-- The check at the head of every call: `if fd as usize >= MAX_FDS`. -/
def withFd {α : Type} (fd : Nat) (refused : α) (f : Fd → α) : α :=
  if h : fd < maxFds then f ⟨fd, h⟩ else refused

theorem withFd_of_lt {α : Type} {fd : Nat} {refused : α} {f : Fd → α} (h : fd < maxFds) :
    withFd fd refused f = f ⟨fd, h⟩ := dif_pos h

theorem withFd_of_le {α : Type} {fd : Nat} {refused : α} {f : Fd → α} (h : maxFds ≤ fd) :
    withFd fd refused f = refused := dif_neg (Nat.not_lt.mpr h)

/-- `sys_write`. -/
def sysWrite (s : System) (pid : Pid) (mem : Nat → UInt8) (fd buf len : Nat) : Int × System :=
  withFd fd (errUnsupported, s) fun fd =>
    if len = 0 then (0, s)
    else if ¬(s.table pid).containsRange buf len then (errInvalidPointer, s)
    else
      match (s.fds pid fd).kind with
      | .consoleOut => (asI64 len, { s with terminal := s.terminal ++ slice mem buf len })
      | .file =>
          match s.fs.write (s.fds pid fd).inode (slice mem buf len) with
          | (true, fs) => (asI64 len, { s with fs := fs })
          | (false, fs) => (-5, { s with fs := fs })
      | _ => (errUnsupported, s)

/-- `sys_read`: the value, the bytes stored at the buffer, and the state. -/
def sysRead (s : System) (pid : Pid) (fd buf len : Nat) : Int × List UInt8 × System :=
  withFd fd (errUnsupported, [], s) fun fd =>
    if len = 0 then (0, [], s)
    else if ¬(s.table pid).containsRange buf len then (errInvalidPointer, [], s)
    else
      match (s.fds pid fd).kind with
      | .consoleIn =>
          let got := s.keys.take len
          (if got = [] then -11 else (got.length : Int), got, { s with keys := s.keys.drop len })
      | .file =>
          let e := s.fds pid fd
          let data := s.fs.read e.inode
          let toCopy := min len (data.length - e.offset)
          (toCopy, (data.drop e.offset).take toCopy,
            s.setFd pid fd { e with offset := e.offset + toCopy })
      | _ => (errUnsupported, [], s)

/-- The path that a call copies from user memory: up to a zero, at most 255 bytes. -/
def userPath (mem : Nat → UInt8) (ptr : Nat) : List UInt8 :=
  ((List.range 255).map fun i => mem (wrappingAdd ptr i)).takeWhile (· ≠ 0)

/-- `sys_open`. -/
def sysOpen (s : System) (pid : Pid) (mem : Nat → UInt8) (pathPtr flags : Nat) : Int × System :=
  let path := userPath mem pathPtr
  if path = [] then (errInvalidPointer, s)
  else if path = ascii "/dev/console" ∨ path = ascii "/dev/stdout" then
    let fd := (s.findFreeFd pid).getD 1
    ((fd : Int), s.setFd pid fd ⟨.consoleOut, 0, 0, State.asU32 flags⟩)
  else if path = ascii "/dev/stdin" ∨ path = ascii "/dev/kbd" then
    let fd := (s.findFreeFd pid).getD 0
    ((fd : Int), s.setFd pid fd ⟨.consoleIn, 0, 0, State.asU32 flags⟩)
  else
    match (s.fs.resolve path).filter (s.fs.kind · = .file) with
    | none => (errInvalidPointer, s)
    | some node =>
        match s.findFreeFd pid with
        | none => (errNoCapacity, s)
        | some fd => ((fd : Int), s.setFd pid fd ⟨.file, node, 0, State.asU32 flags⟩)

/-- `sys_close`. -/
def sysClose (s : System) (pid : Pid) (fd : Nat) : Int × System :=
  withFd fd (errUnsupported, s) fun fd =>
    if (s.fds pid fd).kind = .free then (errInvalidPointer, s)
    else (0, s.setFd pid fd FdEntry.free)

/-- The offset that `sys_lseek` is asked for, before it is clamped. -/
def seekTarget (e : FdEntry) (size offset : Int) (whence : Nat) : Option Int :=
  match whence with
  | 0 => some offset
  | 1 => some (asI64 (asI64 e.offset + offset))
  | 2 => some (asI64 (size + offset))
  | _ => none

/-- `if new_off < 0 { new_off = 0; } if new_off > size { new_off = size; }`. -/
def clamp (size target : Int) : Int :=
  let target := if target < 0 then 0 else target
  if target > size then size else target

/-- `sys_lseek`. -/
def sysLseek (s : System) (pid : Pid) (fd : Nat) (offset : Int) (whence : Nat) : Int × System :=
  withFd fd (errUnsupported, s) fun fd =>
    let e := s.fds pid fd
    if e.kind = .file then
      let size : Int := s.fs.sizeOf e.inode
      match seekTarget e size offset whence with
      | none => (errInvalidPointer, s)
      | some target =>
          let target := clamp size target
          (target, s.setFd pid fd { e with offset := target.toNat })
    else (errUnsupported, s)

/-- `sys_dup`. -/
def sysDup (s : System) (pid : Pid) (fd : Nat) : Int × System :=
  withFd fd (errUnsupported, s) fun fd =>
    if (s.fds pid fd).kind = .free then (errInvalidPointer, s)
    else
      match s.findFreeFd pid with
      | none => (errNoCapacity, s)
      | some new => ((new : Int), s.setFd pid new (s.fds pid fd))

/-- `sys_fcntl`: `F_DUPFD`, `F_GETFD` and `F_SETFD`. -/
def sysFcntl (s : System) (pid : Pid) (fd cmd arg : Nat) : Int × System :=
  withFd fd (errUnsupported, s) fun fd =>
    let e := s.fds pid fd
    if e.kind = .free then (errInvalidPointer, s)
    else
      match cmd with
      | 1 => s.sysDup pid fd
      | 2 => ((e.flags : Int), s)
      | 3 => (0, s.setFd pid fd { e with flags := State.asU32 arg })
      | _ => (errUnsupported, s)

/-! ## Processes -/

/-- The end of `exit_process` and `kill_process`: every descriptor is freed. -/
def freeFds (s : System) (pid : Pid) : System :=
  { s with fds := Function.update s.fds pid fun _ => FdEntry.free }

/-- `provision_pcb` and `provision_pcb_elf`: a new process in the slot, with the
standard descriptors. -/
def provision (s : System) (pid : Pid) (pcb : Pcb) : System :=
  { s with
    table := Function.update s.table pid pcb
    fds := Function.update s.fds pid initFdTable }

/-- The state after `fs::init` and `init_process_manager`. -/
def boot : System where
  fs := State.init
  table := Function.update (fun _ => Pcb.empty) 0 (provisionPcb 0 0 0 0 0)
  fds := Function.update (fun _ _ => FdEntry.free) 0 initFdTable
  keys := []
  terminal := []

theorem boot_eq : boot = { boot with fs := State.baseTree } :=
  congrArg (fun fs => { boot with fs := fs }) State.init_eq

end System

end PureOS.Files
