import PureOS.Foundation.Paged
import PureOS.Foundation.Word
import PureOS.Process.Table

set_option autoImplicit false

/-!
# Memory: frames (`frame.rs`)

Physical memory, the frame allocator above it, and the list of frames of a process.
The kernel sees physical memory at the same addresses, so a frame is a number that is
both its address and the pointer to it.
-/

namespace PureOS.Memory

open PureOS.Foundation PureOS.Process

/-- Where the linker put the statics of `syscall.rs` that are used by address:
`PROCESS_PML4`, whose entries have the alignment of a page, and `USER_STACKS`. -/
structure Layout where
  processPml4 : Pid → Nat
  userStacks : Pid → Nat
  pml4_aligned : ∀ p, Aligned (processPml4 p)
  pml4_lt : ∀ p, processPml4 p < 2 ^ 52
  pml4_injective : ∀ p q, processPml4 p = processPml4 q → p = q

/-- A layout with one table and one stack behind the other. -/
def Layout.packed : Layout where
  processPml4 p := 0x100000 + 4096 * p.val
  userStacks p := 0x200000 + 0x10000 * p.val
  pml4_aligned p := by unfold Aligned; omega
  pml4_lt p := by
    have : p.val < 64 := p.isLt
    omega
  pml4_injective p q h := Fin.ext (by omega)

/-- Physical memory, `POOL_NEXT`, `POOL_END` and `FREE_LIST_HEAD` of the allocator, the
process table, the running process and `TICK_COUNT`.  Two records are not in the code: `reads`, the
addresses that the loader has read an image at, and `tracked`, the frames that were passed
to `track_frame` for a process since it was created; the last one comes first. -/
structure Kernel where
  mem : Nat → UInt8
  poolNext : Nat
  poolEnd : Nat
  freeListHead : Nat
  table : Table
  current : Pid
  tick : Nat
  reads : List Nat
  tracked : Pid → List Nat

namespace Kernel

/-- Nothing in memory, no frames and no processes. -/
def blank : Kernel where
  mem _ := 0
  poolNext := 0
  poolEnd := 0
  freeListHead := 0
  table _ := .empty
  current := 0
  tick := 0
  reads := []
  tracked _ := []

/-- `PROCESS_TABLE[p] = pcb`. -/
def setPcb (k : Kernel) (p : Pid) (pcb : Pcb) : Kernel :=
  { k with table := Function.update k.table p pcb }

/-- `PROCESS_TABLE[p] = pcb`, from where on no frames have been tracked for `p`. -/
def enterPcb (k : Kernel) (p : Pid) (pcb : Pcb) : Kernel :=
  { k.setPcb p pcb with tracked := Function.update k.tracked p [] }

/-- `alloc_frame`: the head of the free list, or the next frame of the pool, zeroed. -/
def allocFrame (k : Kernel) : Option Nat × Kernel :=
  if k.freeListHead ≠ 0 then
    (some k.freeListHead, { k with
      freeListHead := word k.mem k.freeListHead
      mem := overlay k.mem k.freeListHead 4096 fun _ => 0 })
  else if k.poolNext = 0 ∨ wrappingAdd k.poolNext 4096 > k.poolEnd then (none, k)
  else
    (some k.poolNext, { k with
      poolNext := wrappingAdd k.poolNext 4096
      mem := overlay k.mem k.poolNext 4096 fun _ => 0 })

/-- `free_frame`. -/
def freeFrame (k : Kernel) (phys : Nat) : Kernel :=
  if phys = 0 ∨ ¬Aligned phys then k
  else { k with mem := setWord k.mem phys k.freeListHead, freeListHead := phys }

/-- `track_frame`: the frame becomes the head of the list of the process. -/
def trackFrame (k : Kernel) (pid : Pid) (phys : Nat) : Kernel :=
  { k with
    mem := setWord k.mem phys (k.table pid).framesHead
    tracked := Function.update k.tracked pid (phys :: k.tracked pid) }.setPcb pid
    { k.table pid with framesHead := phys }

/-- The loop of `free_process_frames`, with a bound on its turns.  `none` is an
exhausted bound: the list may run in a circle. -/
def freeFrames : Nat → Nat → Kernel → Option Kernel
  | 0, _, _ => none
  | fuel + 1, frame, k =>
      if frame = 0 then some k
      else freeFrames fuel (word k.mem frame) (k.freeFrame frame)

/-- `free_process_frames`. -/
def freeProcessFrames (k : Kernel) (fuel : Nat) (pid : Pid) : Option Kernel :=
  (freeFrames fuel (k.table pid).framesHead k).map fun k =>
    k.enterPcb pid { k.table pid with framesHead := 0 }

@[simp] theorem setPcb_self (k : Kernel) (p : Pid) (pcb : Pcb) :
    (k.setPcb p pcb).table p = pcb := by simp [setPcb]

@[simp] theorem setPcb_of_ne (k : Kernel) {p q : Pid} (pcb : Pcb) (h : q ≠ p) :
    (k.setPcb p pcb).table q = k.table q := by simp [setPcb, h]

@[simp] theorem setPcb_mem (k : Kernel) (p : Pid) (pcb : Pcb) : (k.setPcb p pcb).mem = k.mem := rfl

@[simp] theorem setPcb_poolNext (k : Kernel) (p : Pid) (pcb : Pcb) :
    (k.setPcb p pcb).poolNext = k.poolNext := rfl

@[simp] theorem setPcb_poolEnd (k : Kernel) (p : Pid) (pcb : Pcb) :
    (k.setPcb p pcb).poolEnd = k.poolEnd := rfl

@[simp] theorem setPcb_freeListHead (k : Kernel) (p : Pid) (pcb : Pcb) :
    (k.setPcb p pcb).freeListHead = k.freeListHead := rfl

@[simp] theorem setPcb_current (k : Kernel) (p : Pid) (pcb : Pcb) :
    (k.setPcb p pcb).current = k.current := rfl

end Kernel

end PureOS.Memory
