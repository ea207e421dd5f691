import PureOS.Foundation.Run
import PureOS.Memory.Outcome
import PureOS.Memory.Release

set_option autoImplicit false

/-!
# Memory: runs of the system

What processes do to memory and what the kernel does for them, one step after the other
from the start of the kernel.  As long as stores go into frames of processes, and the list of
a process that dies leads through its frames, the kernel agrees with a ledger all the time.
-/

namespace PureOS.Memory

open PureOS.Foundation PureOS.Process

/-! ## Steps -/

/-- What the running process does, or asks the kernel for.  The image of `exec` says what the loader
finds in each of its reads, whatever the tables that it is changing make of them by then.  `other`
is all that has nothing to do with memory. -/
inductive Action where
  | spawnInitialUser (entry : Nat)
  | exec (image : Image) (dataPtr size : Nat)
  | createProcess (entry : Nat)
  | createThread (entry stack : Nat)
  | memoryAllocate (size : Nat)
  | store (virt : Nat) (value : UInt8)
  | exitProcess (code : Nat)
  | killProcess (pid : Pid)
  | other

/-- Two process tables that agree in what is about memory. -/
structure SameMemory (t t' : Table) : Prop where
  isLive : ∀ p, (t' p).isLive = (t p).isLive
  pageTableBase : ∀ p, (t' p).pageTableBase = (t p).pageTableBase
  layerBase : ∀ p, (t' p).layerBase = (t p).layerBase
  layerSize : ∀ p, (t' p).layerSize = (t p).layerSize
  nextFree : ∀ p, (t' p).nextFree = (t p).nextFree
  framesHead : ∀ p, (t' p).framesHead = (t p).framesHead

/-- The running process is live. -/
def Kernel.Running (k : Kernel) : Prop := (k.table k.current).isLive = true

/-- One step.  A store, of the running process or of the kernel for it, goes where the processor
takes it. -/
inductive Step (L : Layout) : Kernel → Action → Kernel → Prop
  | spawnInitialUser {k : Kernel} {entry : Nat} (running : k.Running) :
      Step L k (.spawnInitialUser entry) (k.spawnInitialUser L entry).2
  | exec {k : Kernel} {image : Image} {dataPtr size : Nat} (running : k.Running) :
      Step L k (.exec image dataPtr size) (k.exec L image dataPtr size).2
  | createProcess {k : Kernel} {entry : Nat} (running : k.Running) :
      Step L k (.createProcess entry) (k.createProcess L entry).2
  | createThread {k : Kernel} {entry stack : Nat} (running : k.Running) :
      Step L k (.createThread entry stack) (k.createThread L entry stack).2
  | memoryAllocate {k : Kernel} {size : Nat} (running : k.Running) :
      Step L k (.memoryAllocate size) (k.memoryAllocate size).2
  | store {k : Kernel} {virt : Nat} {value : UInt8} {a : Access} (running : k.Running)
      (access : translate k.mem k.readCr3 virt = some a) (writable : a.writable = true) :
      Step L k (.store virt value) { k with mem := Function.update k.mem a.phys value }
  | exitProcess {k k' : Kernel} {fuel code : Nat} (running : k.Running)
      (run : k.exitProcess fuel code = some k') : Step L k (.exitProcess code) k'
  | killProcess {k k' : Kernel} {fuel : Nat} {pid : Pid} {killed : Bool} (running : k.Running)
      (run : k.killProcess fuel pid = some (killed, k')) : Step L k (.killProcess pid) k'
  | other {k : Kernel} {table : Table} {current : Pid} {tick : Nat}
      (same : SameMemory k.table table) (running : (table current).isLive = true) :
      Step L k .other { k with table := table, current := current, tick := tick }

/-! ## The condition -/

/-- The list of frames of a process runs through frames that were entered into it. -/
def Intact (k : Kernel) (p : Pid) : Prop :=
  ∃ l, Threaded (word k.mem) (k.table p).framesHead l ∧ ∀ f ∈ l, f ∈ k.tracked p

/-- A step that spares the links: stores go into frames that a process has, and a process dies
only while its list is intact. -/
def Sparing (k : Kernel) : Action → Prop
  | .store virt _ =>
      ∀ a, translate k.mem k.readCr3 virt = some a → ∃ p, pageDown a.phys ∈ k.tracked p
  | .exitProcess _ => Intact k k.current
  | .killProcess p => Intact k p
  | _ => True

/-- A step that meets the condition. -/
def SparingStep (L : Layout) (k : Kernel) (a : Action) (k' : Kernel) : Prop :=
  Step L k a k' ∧ Sparing k a

/-- The kernel when the first process is there.  The tables that it was started with form a
tree, and neither they nor the statics lie in the pool: that is what there is a ledger for. -/
structure Booted (L : Layout) (k : Kernel) : Prop where
  current : k.current = 0
  live : (k.table 0).isLive = true
  layerBase : (k.table 0).layerBase = ephemeralBase
  layerSize : (k.table 0).layerSize = ephemeralBytesPerProcess
  nextFree : (k.table 0).nextFree = ephemeralBase
  framesHead : (k.table 0).framesHead = 0
  others : ∀ p, p ≠ 0 → k.table p = .empty
  tracked : ∀ p, k.tracked p = []
  freeListHead : k.freeListHead = 0
  ledger : ∃ g, Holds L k g

variable {L : Layout} {k k' : Kernel} {g g' : Ledger} {pid : Pid}

/-! ## The ledger through the steps -/

theorem Holds.exec (h : Holds L k g) (hlive : k.Running) (image : Image) (dataPtr size : Nat) :
    ∃ g', Holds L (k.exec L image dataPtr size).2 g' := by
  obtain ⟨reads, heq⟩ := exec_eq L image k dataPtr size
  rw [heq]
  have h₁ := h.reads reads
  cases checked image dataPtr size with
  | none => exact ⟨g, h₁⟩
  | some range =>
      dsimp only
      rcases execLoad_outcome image dataPtr (headerOf image dataPtr) h₁ hlive range with
        ⟨_, hrun⟩ | ⟨slot, hslot, ⟨k', g', hrun, hlost⟩ | ⟨log, stack, k', g', hrun, hdone⟩⟩
      · rw [hrun]
        exact ⟨g, h₁⟩
      · rw [hrun]
        exact ⟨g', hlost.holds⟩
      · rw [hrun]
        exact ⟨g', hdone.added.holds.setPcb fun _ =>
          Or.inr ⟨(Table.findFreeSlot_eq_some hslot).1, rfl⟩⟩

theorem Holds.spawnInitialUser (h : Holds L k g) (hlive : k.Running) (entry : Nat) :
    ∃ g', Holds L (k.spawnInitialUser L entry).2 g' := by
  rcases spawnInitialUser_outcome h hlive entry with
    ⟨_, hrun⟩ | ⟨slot, hslot, ⟨k', g', hrun, hlost⟩ | ⟨log, k', g', hrun, hadded, _⟩⟩
  · rw [hrun]
    exact ⟨g, h⟩
  · rw [hrun]
    exact ⟨g', hlost.holds⟩
  · rw [hrun]
    exact ⟨g', hadded.holds⟩

theorem Holds.createProcess (h : Holds L k g) (hlive : k.Running) (entry : Nat) :
    Holds L (k.createProcess L entry).2 g := by
  rw [Kernel.createProcess_eq]
  cases hslot : k.table.findFreeSlot with
  | none => exact h
  | some slot => exact h.provisioned hlive hslot entry

/-- What `create_thread` adds to `create_process`. -/
theorem createThread_eq (L : Layout) (k : Kernel) (entry stack : Nat) :
    (k.table.findFreeSlot = none ∧ k.createThread L entry stack = (errNoCapacity, k)) ∨
    ∃ slot state userStack, k.table.findFreeSlot = some slot ∧
      (k.createThread L entry stack).2 = (k.provisioned L slot entry).setPcb slot
        { provisionPcb slot entry (L.processPml4 slot) (Kernel.userStackTop L slot) k.tick with
          state := state, userStack := userStack } ∧
      ((k.createThread L entry stack).1 < 0 → state = .exited) := by
  unfold Kernel.createThread
  rw [Kernel.createProcess_eq]
  cases hslot : k.table.findFreeSlot with
  | none => exact Or.inl ⟨rfl, rfl⟩
  | some slot =>
      right
      have hself : (k.provisioned L slot entry).table slot =
          provisionPcb slot entry (L.processPml4 slot) (Kernel.userStackTop L slot) k.tick :=
        Kernel.setPcb_self _ _ _
      have hpos : ¬((slot : Nat) : Int) < 0 := by omega
      dsimp only
      split
      · split
        · refine ⟨slot, .exited, Kernel.userStackTop L slot, rfl, ?_, fun _ => rfl⟩
          rw [hself]
          rfl
        · refine ⟨slot, .runnable, stack, rfl, ?_, fun hneg => absurd hneg hpos⟩
          rw [hself]
          rfl
      · refine ⟨slot, .runnable, Kernel.userStackTop L slot, rfl, ?_, fun hneg => absurd hneg hpos⟩
        have hsame : (k.provisioned L slot entry).setPcb slot
            ((k.provisioned L slot entry).table slot) = k.provisioned L slot entry := by
          rw [Kernel.setPcb, Function.update_eq_self]
        rw [hself] at hsame
        exact hsame.symm

theorem Holds.createThread (h : Holds L k g) (hlive : k.Running) (entry stack : Nat) :
    Holds L (k.createThread L entry stack).2 g := by
  rcases createThread_eq L k entry stack with ⟨_, hrun⟩ | ⟨slot, state, userStack, hslot, hrun, _⟩
  · rw [hrun]
    exact h
  · rw [hrun]
    exact (h.provisioned hlive hslot entry).setPcb fun _ =>
      Or.inr ⟨(Table.findFreeSlot_eq_some hslot).1, rfl⟩

theorem Holds.memoryAllocate (h : Holds L k g) (hlive : k.Running) (size : Nat) :
    ∃ g', Holds L (k.memoryAllocate size).2 g' := by
  rcases memoryAllocate_outcome h hlive size with
    ⟨_, e, _, hrun⟩ | ⟨fin, _, ⟨k', g', hrun, hlost⟩ | ⟨log, k', g', hrun, hadded, _⟩⟩
  · rw [hrun]
    exact ⟨g, h⟩
  · rw [hrun]
    exact ⟨g', hlost.holds⟩
  · rw [hrun]
    exact ⟨g', hadded.holds.setPcb fun hlive' => Or.inl ⟨hlive', rfl⟩⟩

/-- A store into a frame that a process has. -/
theorem Holds.store (h : Holds L k g) {a : Nat} (ha : ∃ p, pageDown a ∈ k.tracked p)
    (value : UInt8) : Holds L { k with mem := Function.update k.mem a value } g := by
  obtain ⟨p, hp⟩ := ha
  refine h.write (h.owners.tracked_held p _ hp) (fun b hb => Function.update_of_ne ?_ _ _) _ rfl
  rintro rfl
  unfold pageDown at hb
  omega

/-- The frames of a process that died are free. -/
theorem Freed.holds {l : List Nat} (hfreed : Freed L l k k' g) (h : Holds L k g)
    (hl : ∀ f ∈ l, f ∈ k.tracked pid) {pcb : Pcb}
    (hpcb : pcb.isLive = true →
      (k.table pid).isLive = true ∧ pcb.pageTableBase = (k.table pid).pageTableBase) :
    Holds L (k'.enterPcb pid pcb) (g.releaseAll l) := by
  have htable : ∀ p, ((k'.enterPcb pid pcb).table p).isLive = true →
      (k.table p).isLive = true ∧
        ((k'.enterPcb pid pcb).table p).pageTableBase = (k.table p).pageTableBase := by
    intro p hlive
    by_cases hp : p = pid
    · subst hp
      have hself : (k'.enterPcb p pcb).table p = pcb := Kernel.setPcb_self _ _ _
      rw [hself] at hlive ⊢
      exact hpcb hlive
    · have hother : (k'.enterPcb pid pcb).table p = k.table p :=
        (Kernel.setPcb_of_ne _ _ hp).trans (by rw [hfreed.table_eq])
      rw [hother] at hlive ⊢
      exact ⟨hlive, rfl⟩
  have htracked : ∀ p f, f ∈ (k'.enterPcb pid pcb).tracked p → p ≠ pid ∧ f ∈ k.tracked p := by
    intro p f hf
    change f ∈ Function.update k'.tracked pid [] p at hf
    by_cases hp : p = pid
    · rw [hp, Function.update_self] at hf
      exact absurd hf List.not_mem_nil
    · rw [Function.update_of_ne hp, hfreed.tracked_eq] at hf
      exact ⟨hp, hf⟩
  refine ⟨hfreed.pool.write (fun _ _ => rfl) rfl rfl rfl, hfreed.tables, ?_, ?_, ?_, ?_, ?_⟩
  · intro p hp hlive
    obtain ⟨hbefore, heq⟩ := htable p hlive
    exact heq.trans (h.owners.base p hp hbefore)
  · intro hlive
    obtain ⟨hbefore, heq⟩ := htable 0 hlive
    rw [heq]
    obtain ⟨hroot, hlt, hne⟩ := h.owners.base_zero hbefore
    refine ⟨?_, hlt, hne⟩
    rw [Ledger.releaseAll_of_not_mem]
    · exact hroot
    · intro hmem
      have hheld := h.owners.tracked_held pid _ (hl _ hmem)
      rw [hroot] at hheld
      cases hheld
  · intro p f hf
    obtain ⟨hp, hf⟩ := htracked p f hf
    rw [Ledger.releaseAll_of_not_mem]
    · exact h.owners.tracked_held p f hf
    · exact fun hmem => h.owners.tracked_disjoint p pid hp f hf (hl f hmem)
  · intro p
    by_cases hp : p = pid
    · have hnone : (k'.enterPcb pid pcb).tracked p = [] := by
        rw [hp]
        exact Function.update_self _ _ _
      rw [hnone]
      exact List.nodup_nil
    · have hother : (k'.enterPcb pid pcb).tracked p = k.tracked p :=
        (Function.update_of_ne hp _ _).trans (by rw [hfreed.tracked_eq])
      rw [hother]
      exact h.owners.tracked_nodup p
  · intro p q hpq f hf hf'
    exact h.owners.tracked_disjoint p q hpq f (htracked p f hf).2 (htracked q f hf').2

/-- The death of a process with an intact list. -/
theorem death_freed (h : Holds L k g) {l : List Nat}
    (hthread : Threaded (word k.mem) (k.table pid).framesHead l)
    (hl : ∀ f ∈ l, f ∈ k.tracked pid) (pcb : Pcb) (hstate : pcb.isLive = false)
    (hhead : pcb.framesHead = (k.table pid).framesHead) {fuel : Nat}
    (hrun : (k.setPcb pid pcb).freeProcessFrames fuel pid = some k') :
    ∃ k₁, Freed L l (k.setPcb pid pcb) k₁ g ∧
      k' = k₁.enterPcb pid { k₁.table pid with framesHead := 0 } ∧
      Holds L k' (g.releaseAll l) := by
  have h₁ : Holds L (k.setPcb pid pcb) g := h.setPcb fun hlive => by
    rw [hstate] at hlive
    cases hlive
  obtain ⟨k₁, hloop, rfl⟩ := Option.map_eq_some_iff.mp hrun
  rw [Kernel.setPcb_self, hhead] at hloop
  have hfreed := freeFrames_of_threaded h₁.pool h₁.tables hthread
    (fun f hf => h.owners.tracked_held pid f (hl f hf)) hloop
  refine ⟨k₁, hfreed, rfl, hfreed.holds h₁ hl fun hlive => ?_⟩
  have hdead : ({ k₁.table pid with framesHead := 0 } : Pcb).isLive = pcb.isLive := by
    rw [hfreed.table_eq, Kernel.setPcb_self]
    rfl
  rw [hdead, hstate] at hlive
  cases hlive

/-- A step that spares the links keeps the agreement with a ledger. -/
theorem SparingStep.holds {a : Action} (hstep : SparingStep L k a k') (h : Holds L k g) :
    ∃ g', Holds L k' g' := by
  obtain ⟨hstep, hsparing⟩ := hstep
  cases hstep with
  | spawnInitialUser running => exact h.spawnInitialUser running _
  | exec running => exact h.exec running _ _ _
  | createProcess running => exact ⟨g, h.createProcess running _⟩
  | createThread running => exact ⟨g, h.createThread running _ _⟩
  | memoryAllocate running => exact h.memoryAllocate running _
  | store _ access _ => exact ⟨g, h.store (hsparing _ access) _⟩
  | exitProcess _ run =>
      obtain ⟨l, hthread, hl⟩ := hsparing
      obtain ⟨_, _, _, hholds⟩ := death_freed h hthread hl _ (by rfl) (by rfl) run
      exact ⟨_, hholds⟩
  | killProcess _ run =>
      obtain ⟨l, hthread, hl⟩ := hsparing
      rw [Kernel.killProcess] at run
      split at run
      · cases run
        exact ⟨g, h⟩
      · obtain ⟨k₁, hrun, heq⟩ := Option.map_eq_some_iff.mp run
        cases heq
        obtain ⟨_, _, _, hholds⟩ := death_freed h hthread hl _ (by rfl) (by rfl) hrun
        exact ⟨_, hholds⟩
  | other same _ =>
      exact ⟨g, h.setTable (fun p hlive =>
        Or.inl ⟨(same.isLive p).symm.trans hlive, same.pageTableBase p⟩) _ _⟩

/-- In every state that such steps lead to, the kernel agrees with a ledger. -/
theorem holds_of_run {k₀ : Kernel} {h : List Action} (boot : Booted L k₀)
    (run : Run (SparingStep L) k₀ h k) : ∃ g, Holds L k g :=
  run.invariant_state (fun k => ∃ g, Holds L k g) boot.ledger
    fun _ _ _ ⟨_, hk⟩ hstep => hstep.holds hk

/-! ## A start -/

/-- A kernel with its first process, with tables that have no entries and so many frames. -/
def started (frames : Nat) : Kernel :=
  { Kernel.blank with
    poolNext := 0x400000
    poolEnd := 0x400000 + 4096 * frames
    table := fun p =>
      if p = 0 then
        { Pcb.empty with
          state := .runnable
          pageTableBase := 0x1000
          layerBase := ephemeralBase
          layerSize := ephemeralBytesPerProcess
          nextFree := ephemeralBase }
      else .empty }

/-- The roots of `started` and of the layout, and the frames. -/
def startLedger (frames : Nat) : Ledger where
  use f :=
    if Aligned f ∧ (f = 0x1000 ∨ 0x100000 ≤ f ∧ f < 0x140000) then .table 3 0
    else if Aligned f ∧ 0x400000 ≤ f ∧ f + 4096 ≤ 0x400000 + 4096 * frames then .unused
    else .other
  free := []

theorem startLedger_use (frames f : Nat) :
    (startLedger frames).use f = .table 3 0 ∧ Aligned f ∧
        (f = 0x1000 ∨ 0x100000 ≤ f ∧ f < 0x140000) ∨
      (startLedger frames).use f = .unused ∧ Aligned f ∧ 0x400000 ≤ f ∧
        f + 4096 ≤ 0x400000 + 4096 * frames ∨
      (startLedger frames).use f = .other ∧
        ¬(Aligned f ∧ 0x400000 ≤ f ∧ f + 4096 ≤ 0x400000 + 4096 * frames) := by
  by_cases htable : Aligned f ∧ (f = 0x1000 ∨ 0x100000 ≤ f ∧ f < 0x140000)
  · exact Or.inl ⟨if_pos htable, htable⟩
  · by_cases hunused : Aligned f ∧ 0x400000 ≤ f ∧ f + 4096 ≤ 0x400000 + 4096 * frames
    · exact Or.inr (Or.inl ⟨(if_neg htable).trans (if_pos hunused), hunused⟩)
    · exact Or.inr (Or.inr ⟨(if_neg htable).trans (if_neg hunused), hunused⟩)

theorem startLedger_root (frames : Nat) (p : Pid) :
    (startLedger frames).use (Layout.packed.processPml4 p) = .table 3 0 := by
  have hlt : p.val < 64 := p.isLt
  refine if_pos ⟨Layout.packed.pml4_aligned p, Or.inr ⟨Nat.le_add_right _ _, ?_⟩⟩
  change 0x100000 + 4096 * p.val < 0x140000
  omega

variable {frames : Nat}

theorem started_pool (hframes : frames ≤ 2 ^ 30) :
    PoolHolds (started frames) (startLedger frames) where
  frame f hf := by
    rcases startLedger_use frames f with ⟨-, haligned, hle⟩ | ⟨-, haligned, hle⟩ | ⟨hother, -⟩
    · exact ⟨by omega, haligned, by omega⟩
    · exact ⟨by omega, haligned, by omega⟩
    · exact absurd hother hf
  aligned := by
    change 0x400000 % 4096 = 0
    rfl
  next_lt := by
    change 0x400000 < 2 ^ 53
    decide
  end_le := by
    change 0x400000 + 4096 * frames ≤ 2 ^ 52
    omega
  unused f := by
    have hpos : 0x400000 ≠ 0 := by decide
    rcases startLedger_use frames f with ⟨htable, -, hle⟩ | ⟨hunused, hin⟩ | ⟨hother, hnot⟩
    · rw [htable]
      refine iff_of_false Use.noConfusion fun h => ?_
      have hmin : 0x400000 ≤ f := h.2.2.1
      omega
    · exact iff_of_true hunused ⟨hpos, hin⟩
    · rw [hother]
      exact iff_of_false Use.noConfusion fun h => hnot h.2
  threaded := .nil
  nodup := .nil
  mem_free f := by
    rcases startLedger_use frames f with ⟨huse, -⟩ | ⟨huse, -⟩ | ⟨huse, -⟩ <;> rw [huse] <;>
      exact iff_of_false List.not_mem_nil Use.noConfusion

theorem started_holds (hframes : frames ≤ 2 ^ 30) :
    Holds Layout.packed (started frames) (startLedger frames) where
  pool := started_pool hframes
  tables := by
    refine ⟨startLedger_root frames, fun t n pre _ i _ hpresent => ?_⟩
    have hzero : cell (started frames).mem t i = 0 := word_zero _
    rw [hzero] at hpresent
    exact absurd hpresent (by decide)
  owners := by
    have hroot : (startLedger frames).use 0x1000 = .table 3 0 := by
      rcases startLedger_use frames 0x1000 with ⟨huse, -⟩ | ⟨-, -, hle, -⟩ | ⟨huse, -⟩
      · exact huse
      · omega
      · have htable : Aligned 0x1000 ∧ (0x1000 = 0x1000 ∨ 0x100000 ≤ 0x1000 ∧ 0x1000 < 0x140000) :=
          ⟨rfl, Or.inl rfl⟩
        unfold startLedger
        dsimp only
        rw [if_pos htable]
    have hbase : ((started frames).table 0).pageTableBase = 0x1000 := rfl
    have hpage : pageDown 0x1000 = 0x1000 := rfl
    refine ⟨fun p hp hlive => ?_, fun _ => ?_, fun _ _ hf => absurd hf List.not_mem_nil,
      fun _ => List.nodup_nil, fun _ _ _ _ hf => absurd hf List.not_mem_nil⟩
    · have hempty : (started frames).table p = .empty := if_neg hp
      rw [hempty] at hlive
      cases hlive
    · rw [hbase, hpage]
      refine ⟨hroot, by decide, fun q heq => ?_⟩
      have hpos : 0x100000 ≤ Layout.packed.processPml4 q := Nat.le_add_right _ _
      omega

theorem booted_started (hframes : frames ≤ 2 ^ 30) : Booted Layout.packed (started frames) where
  current := rfl
  live := rfl
  layerBase := rfl
  layerSize := rfl
  nextFree := rfl
  framesHead := rfl
  others _ hp := if_neg hp
  tracked _ := rfl
  freeListHead := rfl
  ledger := ⟨startLedger frames, started_holds hframes⟩

end PureOS.Memory
