import PureOS.Process.Ipc

set_option autoImplicit false

/-!
# Process: what each call can do

One lemma for each call says everything it may answer and the state it then
leaves; the branches that change the state have names of their own.  The lemmas
about runs are derived from these alone.
-/

namespace PureOS.Process

open PureOS.Foundation

namespace Kernel

/-! ## Scheduling -/

/-- The scheduler changes nothing of a process but its counters. -/
theorem switchContext_table (k : Kernel) (prev next r : Pid) :
    ∃ count tick, (k.switchContext prev next).table r =
      { k.table r with switchCount := count, startTick := tick } := by
  unfold switchContext
  split
  · exact ⟨_, _, rfl⟩
  · by_cases hr : r = next
    · subst hr
      rw [setPcb_self]
      exact ⟨_, _, rfl⟩
    · rw [setPcb_of_ne _ _ hr]
      exact ⟨_, _, rfl⟩

@[simp] theorem switchContext_mem (k : Kernel) (prev next : Pid) :
    (k.switchContext prev next).mem = k.mem := by
  unfold switchContext
  split <;> rfl

theorem switchContext_current (k : Kernel) {prev next : Pid} (h : k.current = prev) :
    (k.switchContext prev next).current = next := by
  unfold switchContext
  split
  · rename_i heq
    rw [h, heq]
  · rfl

theorem blockCurrent_table (k : Kernel) (current r : Pid) :
    ∃ count tick, (k.blockCurrent current).table r =
      { k.table r with switchCount := count, startTick := tick } := by
  unfold blockCurrent
  cases k.table.nextRunnableAfter current with
  | some next => exact k.switchContext_table current next r
  | none => exact ⟨_, _, rfl⟩

@[simp] theorem blockCurrent_mem (k : Kernel) (current : Pid) :
    (k.blockCurrent current).mem = k.mem := by
  unfold blockCurrent
  cases k.table.nextRunnableAfter current with
  | some next => exact k.switchContext_mem current next
  | none => rfl

theorem blockCurrent_message (k : Kernel) (current r : Pid) (ptr : Nat) :
    (k.blockCurrent current).message r ptr = k.message r ptr := by
  rw [message, blockCurrent_mem]
  rfl

theorem blockCurrent_state (k : Kernel) (current r : Pid) :
    ((k.blockCurrent current).table r).state = (k.table r).state := by
  obtain ⟨count, tick, h⟩ := k.blockCurrent_table current r
  rw [h]

/-- The CPU goes to a runnable process, or stays where it is. -/
theorem blockCurrent_current (k : Kernel) :
    ((k.blockCurrent k.current).table (k.blockCurrent k.current).current).state = .runnable ∨
      (k.blockCurrent k.current).current = k.current := by
  rw [blockCurrent_state]
  unfold blockCurrent
  cases h : k.table.nextRunnableAfter k.current with
  | some next =>
      refine Or.inl ?_
      rw [k.switchContext_current rfl]
      exact Table.nextRunnableAfter_eq_some h
  | none => exact Or.inr rfl

@[simp] theorem yieldCpu_mem (k : Kernel) : k.yieldCpu.mem = k.mem := by
  unfold yieldCpu
  dsimp only
  cases k.table.nextRunnableAfter k.current with
  | some next => simp
  | none => rfl

theorem yieldCpu_message (k : Kernel) (r : Pid) (ptr : Nat) :
    k.yieldCpu.message r ptr = k.message r ptr := by
  rw [message, yieldCpu_mem]
  rfl

/-- A yield leaves every process as it was, up to the scheduler's counters and the
point at which the current one continues. -/
theorem yieldCpu_table (k : Kernel) (r : Pid) :
    ∃ resume count tick, k.yieldCpu.table r =
        { k.table r with resume := resume, switchCount := count, startTick := tick } ∧
      (resume = (k.table r).resume ∨ r = k.current ∧ resume = .yieldCpu) := by
  unfold yieldCpu
  dsimp only
  cases k.table.nextRunnableAfter k.current with
  | none => exact ⟨_, _, _, rfl, Or.inl rfl⟩
  | some next =>
      obtain ⟨count, tick, h⟩ :=
        (k.setPcb k.current fun p => { p with resume := .yieldCpu }).switchContext_table
          k.current next r
      by_cases hr : r = k.current
      · subst hr
        rw [setPcb_self] at h
        exact ⟨_, count, tick, h, Or.inr ⟨rfl, rfl⟩⟩
      · rw [setPcb_of_ne _ _ hr] at h
        exact ⟨_, count, tick, h, Or.inl rfl⟩

theorem yieldCpu_state (k : Kernel) (r : Pid) : (k.yieldCpu.table r).state = (k.table r).state := by
  obtain ⟨resume, count, tick, h, _⟩ := k.yieldCpu_table r
  rw [h]

theorem yieldCpu_current (k : Kernel) :
    (k.yieldCpu.table k.yieldCpu.current).state = .runnable ∨ k.yieldCpu.current = k.current := by
  rw [yieldCpu_state]
  unfold yieldCpu
  dsimp only
  cases h : k.table.nextRunnableAfter k.current with
  | some next =>
      refine Or.inl ?_
      dsimp only
      rw [switchContext_current _ (setPcb_current k k.current _)]
      exact Table.nextRunnableAfter_eq_some h
  | none => exact Or.inr rfl

/-! ## Messages -/

/-- A copy leaves the page tables as they are. -/
@[simp] theorem copyUserMessage_place (mem : AddressSpaces) (src : Pid) (srcPtr : Nat) (dst : Pid)
    (dstPtr len : Nat) : (copyUserMessage mem src srcPtr dst dstPtr len).place = mem.place := by
  induction len with
  | zero => rw [copyUserMessage_zero]
  | succ len ih =>
      rw [copyUserMessage_succ]
      exact ih

/-- A copy changes no byte but those of its destination. -/
theorem copyUserMessage_byte (mem : AddressSpaces) {src dst : Pid} {srcPtr dstPtr len b : Nat}
    (h : ∀ i, i < len → mem.place dst (dstPtr + i) ≠ b) :
    (copyUserMessage mem src srcPtr dst dstPtr len).byte b = mem.byte b := by
  induction len with
  | zero => rw [copyUserMessage_zero]
  | succ len ih =>
      have hlast : b ≠ (copyUserMessage mem src srcPtr dst dstPtr len).place dst (dstPtr + len) := by
        rw [copyUserMessage_place]
        exact (h len (Nat.lt_succ_self len)).symm
      rw [copyUserMessage_succ, AddressSpaces.write_byte_of_ne _ _ hlast]
      exact ih fun i hi => h i (Nat.lt_succ_of_lt hi)

/-- No byte that a copy stores is read or stored again by the rest of the copy. -/
def InOrder (mem : AddressSpaces) (src : Pid) (srcPtr : Nat) (dst : Pid) (dstPtr len : Nat) : Prop :=
  ∀ i j, i < j → j < len → mem.place dst (dstPtr + i) ≠ mem.place src (srcPtr + j) ∧
    mem.place dst (dstPtr + i) ≠ mem.place dst (dstPtr + j)

/-- A copy in order leaves in the destination what the source held. -/
theorem copyUserMessage_read (mem : AddressSpaces) {src dst : Pid} {srcPtr dstPtr len : Nat}
    (order : InOrder mem src srcPtr dst dstPtr len) {i : Nat} (hi : i < len) :
    (copyUserMessage mem src srcPtr dst dstPtr len).read dst (dstPtr + i) =
      mem.read src (srcPtr + i) := by
  induction len with
  | zero => exact absurd hi (Nat.not_lt_zero i)
  | succ len ih =>
      have hplace := copyUserMessage_place mem src srcPtr dst dstPtr len
      rw [copyUserMessage_succ]
      rcases Nat.lt_succ_iff_lt_or_eq.mp hi with hlt | heq
      · -- An earlier byte: the last store does not meet it.
        have hne := (order i len hlt (Nat.lt_succ_self len)).2
        rw [← hplace] at hne
        rw [AddressSpaces.read_write_of_ne _ _ hne]
        exact ih (fun i j hij hj => order i j hij (Nat.lt_succ_of_lt hj)) hlt
      · -- The last byte: the stores before did not meet the byte that is read.
        rw [heq, AddressSpaces.read_write_self, AddressSpaces.read, hplace]
        exact copyUserMessage_byte mem fun j hj => (order j len hj (Nat.lt_succ_self len)).1

/-- The state after a copy. -/
def copied (k : Kernel) (src : Pid) (srcPtr : Nat) (dst : Pid) (dstPtr : Nat) : Kernel :=
  { k with mem := copyUserMessage k.mem src srcPtr dst dstPtr ipcMessageSize }

@[simp] theorem copied_table (k : Kernel) (src : Pid) (srcPtr : Nat) (dst : Pid) (dstPtr : Nat) :
    (k.copied src srcPtr dst dstPtr).table = k.table := by simp only [copied]

@[simp] theorem copied_current (k : Kernel) (src : Pid) (srcPtr : Nat) (dst : Pid)
    (dstPtr : Nat) : (k.copied src srcPtr dst dstPtr).current = k.current := by simp only [copied]

@[simp] theorem copied_place (k : Kernel) (src : Pid) (srcPtr : Nat) (dst : Pid) (dstPtr : Nat) :
    (k.copied src srcPtr dst dstPtr).mem.place = k.mem.place :=
  copyUserMessage_place k.mem src srcPtr dst dstPtr ipcMessageSize

/-- Two buffers have no byte in common. -/
def Apart (k : Kernel) (p : Pid) (ptr : Nat) (q : Pid) (ptr' : Nat) : Prop :=
  ∀ i j, i < ipcMessageSize → j < ipcMessageSize →
    k.mem.place p (ptr + i) ≠ k.mem.place q (ptr' + j)

/-- A copy changes no buffer that has no byte in common with its destination. -/
theorem copied_message_of_apart (k : Kernel) {src dst r : Pid} {srcPtr dstPtr ptr : Nat}
    (h : k.Apart r ptr dst dstPtr) :
    (k.copied src srcPtr dst dstPtr).message r ptr = k.message r ptr := by
  refine slice_congr fun a hle hlt => ?_
  obtain ⟨i, rfl⟩ := Nat.exists_eq_add_of_le hle
  have hi : i < ipcMessageSize := Nat.lt_of_add_lt_add_left hlt
  rw [AddressSpaces.read, copied_place]
  exact copyUserMessage_byte k.mem fun j hj => (h i j hi hj).symm

/-- The destination of a copy in order then holds what the source held. -/
theorem copied_message (k : Kernel) {src dst : Pid} {srcPtr dstPtr : Nat}
    (order : InOrder k.mem src srcPtr dst dstPtr ipcMessageSize) :
    (k.copied src srcPtr dst dstPtr).message dst dstPtr = k.message src srcPtr := by
  unfold message slice
  refine List.map_congr_left fun i hi => ?_
  exact copyUserMessage_read k.mem order (List.mem_range.mp hi)

/-! ## `send_ipc` -/

/-- `send_ipc` to a waiting receiver. -/
def sendNow (k : Kernel) (target : Pid) (msgPtr : Nat) : Kernel :=
  (((k.copied k.current msgPtr target (k.table target).ipcBuffer).setPcb target fun p =>
      { p with ipcPeer := k.current, state := .runnable }).setPcb k.current fun p =>
    { p with ipcBuffer := msgPtr, state := .blockedOnReply target, resume := .sendIpc msgPtr })

/-- `send_ipc` to a receiver that is not ready. -/
def sendLater (k : Kernel) (target : Pid) (msgPtr : Nat) : Kernel :=
  k.setPcb k.current fun p =>
    { p with ipcBuffer := msgPtr, state := .blockedOnSend target, resume := .sendIpc msgPtr }

@[simp] theorem sendNow_current (k : Kernel) (target : Pid) (msgPtr : Nat) :
    (k.sendNow target msgPtr).current = k.current := by
  rw [sendNow, setPcb_current, setPcb_current, copied_current]

@[simp] theorem sendLater_current (k : Kernel) (target : Pid) (msgPtr : Nat) :
    (k.sendLater target msgPtr).current = k.current := rfl

/-- The target of a message is another live process. -/
def CanReach (k : Kernel) (targetProc : Nat) (target : Pid) : Prop :=
  target.val = targetProc ∧ k.current ≠ target ∧ (k.table target).isLive = true

theorem sendIpc_cases (k : Kernel) (targetProc msgPtr : Nat) :
    (∃ err, err < 0 ∧ k.sendIpc targetProc msgPtr = k.refuse err ∧
      (err = errInvalidPointer → (k.table k.current).containsRange msgPtr ipcMessageSize = true →
        ∃ target : Pid, (k.table target).state = .blockedOnReceive ∧
          (k.table target).containsRange (k.table target).ipcBuffer ipcMessageSize = false)) ∨
    (∃ target, k.CanReach targetProc target ∧
      (k.table k.current).containsRange msgPtr ipcMessageSize = true ∧
      (k.table target).state = .blockedOnReceive ∧
      k.sendIpc targetProc msgPtr = ⟨none,
        [.sent k.current target (k.message k.current msgPtr),
          .delivered k.current target
            ((k.copied k.current msgPtr target (k.table target).ipcBuffer).message target
              (k.table target).ipcBuffer)],
        (k.sendNow target msgPtr).blockCurrent k.current⟩) ∨
    (∃ target, k.CanReach targetProc target ∧
      (k.table k.current).containsRange msgPtr ipcMessageSize = true ∧
      k.sendIpc targetProc msgPtr = ⟨none,
        [.sent k.current target (k.message k.current msgPtr)],
        (k.sendLater target msgPtr).blockCurrent k.current⟩) := by
  unfold sendIpc
  dsimp only
  split
  · rename_i hlt
    split
    · exact Or.inl ⟨errInvalidProcess, by decide, rfl, fun h => absurd h (by decide)⟩
    · rename_i hvalid
      rw [not_or, not_not] at hvalid
      obtain ⟨hne, hlive⟩ := hvalid
      have hreach : k.CanReach targetProc ⟨targetProc, hlt⟩ := by
        obtain ⟨p, hp, hl⟩ := Table.validLiveProcess_iff.mp hlive
        obtain rfl : p = ⟨targetProc, hlt⟩ := Fin.ext hp
        exact ⟨rfl, hne, hl⟩
      split
      · rename_i hptr
        exact Or.inl ⟨errInvalidPointer, by decide, rfl, fun _ hc => absurd hc hptr⟩
      · rename_i hptr
        rw [not_not] at hptr
        split
        · rename_i hreceive
          split
          · rename_i hdst
            exact Or.inl ⟨errInvalidPointer, by decide, rfl, fun _ _ => ⟨_, hreceive, by simpa using hdst⟩⟩
          · exact Or.inr (Or.inl ⟨_, hreach, hptr, hreceive, rfl⟩)
        · exact Or.inr (Or.inr ⟨_, hreach, hptr, rfl⟩)
  · exact Or.inl ⟨errInvalidProcess, by decide, rfl, fun h => absurd h (by decide)⟩

/-! ## `receive_ipc` -/

/-- `receive_ipc` from a pending sender. -/
def receiveNow (k : Kernel) (sender : Pid) (msgPtr : Nat) : Kernel :=
  ((k.copied sender (k.table sender).ipcBuffer k.current msgPtr).setPcb k.current fun p =>
      { p with ipcBuffer := msgPtr }).setPcb sender fun p =>
    { p with state := .blockedOnReply k.current }

/-- `receive_ipc` without a pending sender. -/
def receiveLater (k : Kernel) (msgPtr : Nat) : Kernel :=
  k.setPcb k.current fun p =>
    { p with ipcBuffer := msgPtr, ipcPeer := 0, state := .blockedOnReceive,
             resume := .receiveIpc msgPtr }

@[simp] theorem receiveLater_current (k : Kernel) (msgPtr : Nat) :
    (k.receiveLater msgPtr).current = k.current := rfl

theorem pendingSender_eq_some {k : Kernel} {current sender : Pid}
    (h : k.pendingSender current = some sender) :
    (k.table sender).state = .blockedOnSend current := by
  simpa using List.find?_some h

theorem receiveIpc_cases (k : Kernel) (msgPtr : Nat) :
    (∃ err, err < 0 ∧ k.receiveIpc msgPtr = k.refuse err ∧
      (k.table k.current).containsRange msgPtr ipcMessageSize = false) ∨
    (∃ sender, (k.table sender).state = .blockedOnSend k.current ∧
      (k.table sender).containsRange (k.table sender).ipcBuffer ipcMessageSize = false ∧
      k.receiveIpc msgPtr =
        ⟨some errInvalidPointer, [], k.setPcb sender fun p => { p with state := .exited }⟩) ∨
    (∃ sender : Pid, (k.table k.current).containsRange msgPtr ipcMessageSize = true ∧
      k.pendingSender k.current = some sender ∧
      k.receiveIpc msgPtr = ⟨some sender,
        [.receiving k.current,
          .delivered sender k.current
            ((k.copied sender (k.table sender).ipcBuffer k.current msgPtr).message k.current
              msgPtr),
          .received k.current sender ((k.receiveNow sender msgPtr).message k.current msgPtr)],
        k.receiveNow sender msgPtr⟩) ∨
    ((k.table k.current).containsRange msgPtr ipcMessageSize = true ∧
      k.receiveIpc msgPtr =
        ⟨none, [.receiving k.current], (k.receiveLater msgPtr).blockCurrent k.current⟩) := by
  unfold receiveIpc
  dsimp only
  split
  · rename_i hptr
    exact Or.inl ⟨errInvalidPointer, by decide, rfl, by simpa using hptr⟩
  · rename_i hptr
    rw [not_not] at hptr
    cases hsender : k.pendingSender k.current with
    | some sender =>
        have hstate := pendingSender_eq_some hsender
        dsimp only
        split
        · rename_i hsrc
          exact Or.inr (Or.inl ⟨sender, hstate, by simpa using hsrc, rfl⟩)
        · exact Or.inr (Or.inr (Or.inl ⟨sender, hptr, rfl, rfl⟩))
    | none => exact Or.inr (Or.inr (Or.inr ⟨hptr, rfl⟩))

/-! ## `reply_ipc` -/

/-- `reply_ipc` to a process that waits for it. -/
def replyNow (k : Kernel) (target : Pid) (msgPtr : Nat) : Kernel :=
  (k.copied k.current msgPtr target (k.table target).ipcBuffer).setPcb target fun p =>
    { p with ipcPeer := k.current, ipcBuffer := 0, state := .runnable }

theorem replyIpc_cases (k : Kernel) (targetProc msgPtr : Nat) :
    (∃ err, err < 0 ∧ k.replyIpc targetProc msgPtr = k.refuse err ∧
      (err = errInvalidPointer → (k.table k.current).containsRange msgPtr ipcMessageSize = true →
        ∃ target : Pid, (k.table target).state = .blockedOnReply k.current ∧
          (k.table target).containsRange (k.table target).ipcBuffer ipcMessageSize = false)) ∨
    (∃ target : Pid, target.val = targetProc ∧ (k.table target).state = .blockedOnReply k.current ∧
      (k.table k.current).containsRange msgPtr ipcMessageSize = true ∧
      k.replyIpc targetProc msgPtr = ⟨some 0,
        [.replied k.current target (k.message k.current msgPtr)], k.replyNow target msgPtr⟩) := by
  unfold replyIpc
  dsimp only
  split
  · rename_i hlt
    split
    · exact Or.inl ⟨errInvalidProcess, by decide, rfl, fun h => absurd h (by decide)⟩
    · split
      · rename_i hptr
        exact Or.inl ⟨errInvalidPointer, by decide, rfl, fun _ hc => absurd hc hptr⟩
      · rename_i hptr
        rw [not_not] at hptr
        split
        · rename_i hstate
          split
          · rename_i hdst
            exact Or.inl ⟨errInvalidPointer, by decide, rfl, fun _ _ => ⟨_, hstate, by simpa using hdst⟩⟩
          · exact Or.inr ⟨_, rfl, hstate, hptr, rfl⟩
        · exact Or.inl ⟨errInvalidProcess, by decide, rfl, fun h => absurd h (by decide)⟩
  · exact Or.inl ⟨errInvalidProcess, by decide, rfl, fun h => absurd h (by decide)⟩

/-! ## Creation and death -/

/-- A creation puts a process into a slot without a live one.  It is runnable, but
for a thread with a stack outside its layer, which is dead at once. -/
structure Fills (k : Kernel) (i : Pid) (k' : Kernel) : Prop where
  free : k.table.findFreeSlot = some i
  current : k'.current = k.current
  other : ∀ r, r ≠ i → k'.table r = k.table r
  state : (k'.table i).state = .runnable ∨ (k'.table i).state = .exited

theorem NewProcess.pcb_state (new : NewProcess) (i : Pid) (tick : Nat) :
    (new.pcb i tick).state = .runnable := by
  cases new <;> rfl

theorem create_cases (k : Kernel) (new : NewProcess) (memory : AddressSpaces) :
    (k.table.findFreeSlot = none ∧ k.create new memory = k.refuse errNoCapacity) ∨
    (∃ i, k.Fills i (k.create new memory).kernel ∧
      (k.create new memory).events = [.created i] ∧
      ((k.create new memory).kernel.table i).state = .runnable) := by
  unfold create
  cases h : k.table.findFreeSlot with
  | none => exact Or.inl ⟨rfl, rfl⟩
  | some i =>
      have hstate : ((k.setPcb i fun _ => new.pcb i k.tickCount).table i).state = .runnable := by
        rw [setPcb_self]
        exact new.pcb_state i _
      have hother : ∀ r, r ≠ i →
          (k.setPcb i fun _ => new.pcb i k.tickCount).table r = k.table r :=
        fun r hr => setPcb_of_ne k _ hr
      exact Or.inr ⟨i, ⟨h, rfl, hother, Or.inl hstate⟩, rfl, hstate⟩

/-- Filling a slot and then working on its control block is filling it. -/
theorem Fills.setPcb {k k' : Kernel} {i : Pid} (h : k.Fills i k') (f : Pcb → Pcb)
    (state : (f (k'.table i)).state = .runnable ∨ (f (k'.table i)).state = .exited) :
    k.Fills i (k'.setPcb i f) where
  free := h.free
  current := h.current
  other r hr := (setPcb_of_ne k' f hr).trans (h.other r hr)
  state := by rwa [setPcb_self]

theorem createThread_cases (k : Kernel) (entry pml4 userStack stack : Nat)
    (memory : AddressSpaces) :
    (k.table.findFreeSlot = none ∧
      k.createThread entry pml4 userStack stack memory = k.refuse errNoCapacity) ∨
    (∃ i, k.Fills i (k.createThread entry pml4 userStack stack memory).kernel ∧
      (k.createThread entry pml4 userStack stack memory).events = [.created i]) := by
  unfold createThread
  dsimp only
  rcases k.create_cases (.plain entry pml4 userStack) memory with
    ⟨free, heq⟩ | ⟨i, hfills, hevents, hstate⟩
  · rw [free]
    exact Or.inl ⟨rfl, heq⟩
  · rw [hfills.free]
    dsimp only
    refine Or.inr ⟨i, ?_⟩
    split
    · exact ⟨hfills, hevents⟩
    · split
      · exact ⟨hfills.setPcb (fun p => { p with state := .exited }) (Or.inr rfl), hevents⟩
      · exact ⟨hfills.setPcb (fun p => { p with userStack := stack }) (Or.inl hstate), hevents⟩

/-- `kill_process` is refused, or marks the slot of another live process. -/
theorem killProcess_cases (k : Kernel) (pid : Nat) :
    (¬k.Killable pid ∧ k.killProcess pid = k.refuse 0) ∨
    (∃ p : Pid, p.val = pid ∧ k.Killable pid ∧ p ≠ k.current ∧
      k.killProcess pid = ⟨some 1, [],
        k.setPcb p fun p => { p with state := .exited, exitCode := 9, framesHead := 0 }⟩) := by
  unfold killProcess
  split
  · rename_i hlt
    dsimp only
    split
    · rename_i hrefuse
      refine Or.inl ⟨?_, rfl⟩
      intro hkill
      obtain ⟨p, hp, hne, hlive⟩ := hkill
      obtain rfl : p = ⟨pid, hlt⟩ := Fin.ext hp
      rcases hrefuse with hcur | hdead
      · exact hne hcur
      · exact hdead hlive
    · rename_i hkill
      rw [not_or, not_not] at hkill
      exact Or.inr ⟨⟨pid, hlt⟩, rfl, ⟨⟨pid, hlt⟩, rfl, hkill⟩, hkill.1, rfl⟩
  · rename_i hge
    refine Or.inl ⟨?_, rfl⟩
    intro hkill
    obtain ⟨p, hp, _⟩ := hkill
    exact hge (hp ▸ p.isLt)

end Kernel

end PureOS.Process
