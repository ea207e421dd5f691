import PureOS.Foundation.Loop
import PureOS.Memory.Paging

set_option autoImplicit false

/-!
# Memory: processes and their memory (`syscall.rs`)

The ways of making a process, the allocation of memory in its layer, and its end, with
all that they do to physical memory, the frames and the process table.
-/

namespace PureOS.Memory

open PureOS.Foundation PureOS.Process

/-- The pages that `while va < end { ...; va += 0x1000; }` goes through from `va` on, for
an aligned `va` and an aligned `end`. -/
def pagesFrom (va fin : Nat) : List Nat := (List.range ((fin - va) / 4096)).map (va + 4096 * ·)

theorem nodup_pagesFrom (lo hi : Nat) : (pagesFrom lo hi).Nodup := by
  refine List.Nodup.map (fun i j hij => ?_) List.nodup_range
  have heq : lo + 4096 * i = lo + 4096 * j := hij
  omega

/-- `align_up(size, PAGE_SIZE)`. -/
def alignUp (size : Nat) : Nat := pageDown (wrappingAdd size 4095)

/-- `USER_STACK_BYTES`. -/
def userStackBytes : Nat := 64 * 1024

namespace Kernel

variable (L : Layout)

/-- `read_cr3`: the tables of the running process. -/
def readCr3 (k : Kernel) : Nat := (k.table k.current).pageTableBase

/-- `clone_current_pml4_for`: the 512 entries of the highest level are copied. -/
def cloneCurrentPml4For (k : Kernel) (pid : Pid) : Kernel :=
  { k with mem := overlay k.mem (L.processPml4 pid) 4096 fun j => k.mem (pageDown k.readCr3 + j) }

/-- `user_stack_top`. -/
def userStackTop (pid : Pid) : Nat :=
  let top := wrappingAdd (L.userStacks pid) userStackBytes
  top - top % 16

/-- A body of the loops over pages: a frame is taken, entered into the list of the
process, mapped, and filled. -/
def trackAndMap (pid : Pid) (pml4 : Nat) (writable user : Bool)
    (fill : Nat → Nat → Kernel → Kernel) (va : Nat) (k : Kernel) : Except Int Unit × Kernel :=
  match k.allocFrame with
  | (none, k) => (.error errOutOfMemory, k)
  | (some phys, k) =>
      match (k.trackFrame pid phys).mapPage pml4 va phys writable user with
      | (false, k) => (.error errOutOfMemory, k)
      | (true, k) => (.ok (), fill va phys k)

/-- The other body: the frame is mapped before it is entered into the list. -/
def mapAndTrack (pid : Pid) (pml4 : Nat) (writable user : Bool)
    (fill : Nat → Nat → Kernel → Kernel) (va : Nat) (k : Kernel) : Except Int Unit × Kernel :=
  match k.allocFrame with
  | (none, k) => (.error errOutOfMemory, k)
  | (some phys, k) =>
      match k.mapPage pml4 va phys writable user with
      | (false, k) => (.error errOutOfMemory, k)
      | (true, k) => (.ok (), fill va phys (k.trackFrame pid phys))

/-- The copy of a page of kernel code: the kernel sees it at its physical address. -/
def copyCode (va phys : Nat) (k : Kernel) : Kernel :=
  { k with mem := overlay k.mem phys 4096 fun j => k.mem (va + j) }

/-- `spawn_initial_user`. -/
def spawnInitialUser (k : Kernel) (entry : Nat) : Int × Kernel :=
  match k.table.findFreeSlot with
  | none => (errNoCapacity, k)
  | some i =>
      let k := k.cloneCurrentPml4For L i
      let pml4 := L.processPml4 i
      let k := k.enterPcb i (provisionPcb i entry pml4 (userStackTop L i) k.tick)
      let codePage := pageDown entry
      let codeEnd := pageDown (wrappingAdd codePage 0x2000)
      match forEach (mapAndTrack i pml4 false true copyCode) (pagesFrom codePage codeEnd) k with
      | (.error e, k) => (e, k)
      | (.ok (), k) =>
          let stackStart := pageDown (L.userStacks i)
          let stackEnd := pageDown (wrappingAdd (L.userStacks i) (userStackBytes + 0xFFF))
          match forEach (mapAndTrack i pml4 true true fun _ _ k => k)
              (pagesFrom stackStart stackEnd) k with
          | (.error e, k) => (e, k)
          | (.ok (), k) => ((i : Int), k)

/-- `create_process`. -/
def createProcess (k : Kernel) (entry : Nat) : Int × Kernel :=
  match k.table.findFreeSlot with
  | none => (errNoCapacity, k)
  | some i =>
      let k := k.cloneCurrentPml4For L i
      ((i : Int), k.enterPcb i (provisionPcb i entry (L.processPml4 i) (userStackTop L i) k.tick))

/-- `create_thread`: `create_process`, and then the stack is checked and entered. -/
def createThread (k : Kernel) (entry stack : Nat) : Int × Kernel :=
  match k.table.findFreeSlot with
  | none => (errNoCapacity, k)
  | some i =>
      let k := (k.createProcess L entry).2
      if stack ≠ 0 then
        if ¬(k.table i).containsRange stack 1 then
          (errInvalidPointer, k.setPcb i { k.table i with state := .exited })
        else ((i : Int), k.setPcb i { k.table i with userStack := stack })
      else ((i : Int), k)

/-- `memory_allocate`, for the running process. -/
def memoryAllocate (k : Kernel) (size : Nat) : Int × Kernel :=
  if size = 0 then (errInvalidPointer, k)
  else
    let pid := k.current
    let pcb := k.table pid
    if ¬pcb.isLive then (errInvalidProcess, k)
    else
      match checkedAdd pcb.nextFree (alignUp size) with
      | none => (errOutOfMemory, k)
      | some fin =>
          if fin > wrappingAdd pcb.layerBase pcb.layerSize then (errOutOfMemory, k)
          else
            match forEach (trackAndMap pid pcb.pageTableBase true true fun _ _ k => k)
                (pagesFrom pcb.nextFree fin) k with
            | (.error e, k) => (e, k)
            | (.ok (), k) =>
                ((pcb.nextFree : Int), k.setPcb pid { k.table pid with nextFree := fin })

/-- The part of `exit_process` that is about memory: the state is changed, and the frames
go back. -/
def exitProcess (k : Kernel) (fuel : Nat) (code : Nat) : Option Kernel :=
  (k.setPcb k.current { k.table k.current with state := .exited, exitCode := code }).freeProcessFrames
    fuel k.current

/-- `kill_process`. -/
def killProcess (k : Kernel) (fuel : Nat) (pid : Pid) : Option (Bool × Kernel) :=
  if pid = k.current ∨ ¬(k.table pid).isLive then some (false, k)
  else
    ((k.setPcb pid { k.table pid with state := .exited, exitCode := 9 }).freeProcessFrames fuel
      pid).map fun k => (true, k)

end Kernel

end PureOS.Memory
