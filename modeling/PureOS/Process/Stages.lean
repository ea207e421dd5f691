import PureOS.Foundation.Session
import PureOS.Process.Exec

set_option autoImplicit false

/-!
# Process: the stages of a rendezvous

A process sees its own sends as a sequence of exchanges (the message leaves, it is
delivered, the reply comes, the call returns with the reply in the buffer) and its
own receives as a sequence of receptions.  What is open at any moment is tied to the
control block and the memory of the process by `Stage`; every step of the kernel
moves every process from stage to stage, as long as nobody stores into a buffer in
which something waits for another one.
-/

namespace PureOS.Process

open PureOS.Foundation

/-! ## What a process sees -/

/-- The events of the sends of a process. -/
def senderView (p : Pid) (h : List Event) : List Event :=
  h.filter fun
    | .sent src _ _ => src = p
    | .delivered src _ _ => src = p
    | .replied _ dst _ => dst = p
    | .sendReturned src _ _ => src = p
    | _ => false

/-- The events of the receives of a process. -/
def receiverView (q : Pid) (h : List Event) : List Event :=
  h.filter fun
    | .receiving dst => dst = q
    | .delivered _ dst _ => dst = q
    | .received dst _ _ => dst = q
    | _ => false

@[simp] theorem senderView_append (p : Pid) (h h' : List Event) :
    senderView p (h ++ h') = senderView p h ++ senderView p h' := List.filter_append ..

@[simp] theorem receiverView_append (q : Pid) (h h' : List Event) :
    receiverView q (h ++ h') = receiverView q h ++ receiverView q h' := List.filter_append ..

/-- A send from its start to its return. -/
structure Exchange where
  peer : Pid
  msg : List UInt8
  reply : List UInt8

/-- What the sender sees of an exchange. -/
def Exchange.events (p : Pid) (x : Exchange) : List Event :=
  [.sent p x.peer x.msg, .delivered p x.peer x.msg, .replied x.peer p x.reply,
    .sendReturned p 0 x.reply]

theorem Exchange.complete (p q : Pid) (msg reply : List UInt8) :
    Sessions (Exchange.events p)
      [.sent p q msg, .delivered p q msg, .replied q p reply, .sendReturned p 0 reply] [] :=
  @Sessions.close _ _ (Exchange.events p) ⟨q, msg, reply⟩

/-- A receive from its start to its return. -/
structure Reception where
  sender : Pid
  msg : List UInt8

/-- What the receiver sees of a reception. -/
def Reception.events (q : Pid) (x : Reception) : List Event :=
  [.receiving q, .delivered x.sender q x.msg, .received q x.sender x.msg]

theorem Reception.complete (q p : Pid) (msg : List UInt8) :
    Sessions (Reception.events q)
      [.receiving q, .delivered p q msg, .received q p msg] [] :=
  @Sessions.close _ _ (Reception.events q) ⟨p, msg⟩

/-! ## Stages -/

/-- The buffer in which a message or a reply waits: for the receiver to take it, or for
the call of the process to return. -/
def Pcb.held (p : Pcb) : Option Nat :=
  match p.state, p.resume with
  | .blockedOnSend _, _ => some p.ipcBuffer
  | .runnable, .sendIpc ptr => some ptr
  | .runnable, .receiveIpc ptr => some ptr
  | _, _ => none

/-- How the open exchange and the open reception of a process show in its control
block and in its memory. -/
inductive Stage (r : Pid) (pcb : Pcb) (mem : Nat → UInt8) : List Event → List Event → Prop
  /-- There is no process in the slot. -/
  | gone (dead : pcb.isLive = false) : Stage r pcb mem [] []
  /-- The process is in its own code, or has yielded. -/
  | idle (state : pcb.state = .runnable)
      (resume : pcb.resume = .running ∨ pcb.resume = .yieldCpu) : Stage r pcb mem [] []
  /-- The message waits in the buffer until the receiver takes it. -/
  | sending (q : Pid) (state : pcb.state = .blockedOnSend q)
      (resume : pcb.resume = .sendIpc pcb.ipcBuffer)
      (buffer : pcb.containsRange pcb.ipcBuffer ipcMessageSize = true) :
      Stage r pcb mem [.sent r q (slice mem pcb.ipcBuffer ipcMessageSize)] []
  /-- The message is delivered and the reply is awaited in the buffer. -/
  | awaiting (q : Pid) (msg : List UInt8) (state : pcb.state = .blockedOnReply q)
      (resume : pcb.resume = .sendIpc pcb.ipcBuffer)
      (buffer : pcb.containsRange pcb.ipcBuffer ipcMessageSize = true) :
      Stage r pcb mem [.sent r q msg, .delivered r q msg] []
  /-- The reply is in the buffer, and the send has not returned yet. -/
  | answered (q : Pid) (msg : List UInt8) (ptr : Nat) (state : pcb.state = .runnable)
      (resume : pcb.resume = .sendIpc ptr)
      (buffer : pcb.containsRange ptr ipcMessageSize = true) :
      Stage r pcb mem [.sent r q msg, .delivered r q msg,
        .replied q r (slice mem ptr ipcMessageSize)] []
  /-- A message is awaited in the buffer. -/
  | receiving (state : pcb.state = .blockedOnReceive)
      (resume : pcb.resume = .receiveIpc pcb.ipcBuffer)
      (buffer : pcb.containsRange pcb.ipcBuffer ipcMessageSize = true) :
      Stage r pcb mem [] [.receiving r]
  /-- A message is in the buffer, and the receive has not returned yet. -/
  | informed (p : Pid) (ptr : Nat) (state : pcb.state = .runnable)
      (resume : pcb.resume = .receiveIpc ptr) (peer : pcb.ipcPeer = p)
      (buffer : pcb.containsRange ptr ipcMessageSize = true) :
      Stage r pcb mem [] [.receiving r, .delivered p r (slice mem ptr ipcMessageSize)]

namespace Stage

variable {r : Pid} {pcb : Pcb} {mem : Nat → UInt8} {s v : List Event}

/-- The scheduler's counters do not matter. -/
theorem counters (h : Stage r pcb mem s v) (count tick : Nat) :
    Stage r { pcb with switchCount := count, startTick := tick } mem s v := by
  cases h with
  | gone dead => exact .gone dead
  | idle state resume => exact .idle state resume
  | sending q state resume buffer => exact .sending q state resume buffer
  | awaiting q msg state resume buffer => exact .awaiting q msg state resume buffer
  | answered q msg ptr state resume buffer => exact .answered q msg ptr state resume buffer
  | receiving state resume buffer => exact .receiving state resume buffer
  | informed p ptr state resume peer buffer => exact .informed p ptr state resume peer buffer

/-- Nor does the memory outside the buffer in which something waits. -/
theorem mem_congr (h : Stage r pcb mem s v) {mem' : Nat → UInt8}
    (same : ∀ ptr, pcb.held = some ptr →
      slice mem' ptr ipcMessageSize = slice mem ptr ipcMessageSize) :
    Stage r pcb mem' s v := by
  cases h with
  | gone dead => exact .gone dead
  | idle state resume => exact .idle state resume
  | sending q state resume buffer =>
      rw [← same pcb.ipcBuffer (by simp [Pcb.held, state])]
      exact .sending q state resume buffer
  | awaiting q msg state resume buffer => exact .awaiting q msg state resume buffer
  | answered q msg ptr state resume buffer =>
      rw [← same ptr (by simp [Pcb.held, state, resume])]
      exact .answered q msg ptr state resume buffer
  | receiving state resume buffer => exact .receiving state resume buffer
  | informed p ptr state resume peer buffer =>
      rw [← same ptr (by simp [Pcb.held, state, resume])]
      exact .informed p ptr state resume peer buffer

/-- What waits for a process lies in its layer. -/
theorem buffer_of_held (h : Stage r pcb mem s v) {ptr : Nat} (held : pcb.held = some ptr) :
    pcb.containsRange ptr ipcMessageSize = true := by
  cases h with
  | gone dead =>
      cases hstate : pcb.state <;> simp [Pcb.held, Pcb.isLive, hstate] at held dead
  | idle state resume => rcases resume with resume | resume <;> simp [Pcb.held, state, resume] at held
  | sending q state resume buffer =>
      obtain rfl : pcb.ipcBuffer = ptr := by simpa [Pcb.held, state] using held
      exact buffer
  | awaiting q msg state => simp [Pcb.held, state] at held
  | answered q msg ptr' state resume buffer =>
      obtain rfl : ptr' = ptr := by simpa [Pcb.held, state, resume] using held
      exact buffer
  | receiving state => simp [Pcb.held, state] at held
  | informed p ptr' state resume peer buffer =>
      obtain rfl : ptr' = ptr := by simpa [Pcb.held, state, resume] using held
      exact buffer

/-- A process in its own code has nothing open. -/
theorem of_running (h : Stage r pcb mem s v) (running : pcb.resume = .running) :
    s = [] ∧ v = [] := by
  cases h with
  | gone => exact ⟨rfl, rfl⟩
  | idle => exact ⟨rfl, rfl⟩
  | sending _ _ resume => rw [running] at resume; cases resume
  | awaiting _ _ _ resume => rw [running] at resume; cases resume
  | answered _ _ _ _ resume => rw [running] at resume; cases resume
  | receiving _ resume => rw [running] at resume; cases resume
  | informed _ _ _ resume => rw [running] at resume; cases resume

theorem of_blockedOnSend (h : Stage r pcb mem s v) {q : Pid} (state : pcb.state = .blockedOnSend q) :
    s = [.sent r q (slice mem pcb.ipcBuffer ipcMessageSize)] ∧ v = [] ∧
      pcb.resume = .sendIpc pcb.ipcBuffer ∧
      pcb.containsRange pcb.ipcBuffer ipcMessageSize = true := by
  cases h with
  | gone dead => rw [Pcb.isLive_of_blockedOnSend state] at dead; cases dead
  | sending q' state' resume buffer =>
      rw [state] at state'
      cases state'
      exact ⟨rfl, rfl, resume, buffer⟩
  | idle state' | awaiting _ _ state' | answered _ _ _ state' | receiving state'
  | informed _ _ state' => rw [state] at state'; cases state'

theorem of_blockedOnReply (h : Stage r pcb mem s v) {q : Pid}
    (state : pcb.state = .blockedOnReply q) :
    (∃ msg, s = [.sent r q msg, .delivered r q msg]) ∧ v = [] ∧
      pcb.resume = .sendIpc pcb.ipcBuffer ∧
      pcb.containsRange pcb.ipcBuffer ipcMessageSize = true := by
  cases h with
  | gone dead => rw [Pcb.isLive_of_blockedOnReply state] at dead; cases dead
  | awaiting q' msg state' resume buffer =>
      rw [state] at state'
      cases state'
      exact ⟨⟨msg, rfl⟩, rfl, resume, buffer⟩
  | idle state' | sending _ state' | answered _ _ _ state' | receiving state'
  | informed _ _ state' => rw [state] at state'; cases state'

theorem of_blockedOnReceive (h : Stage r pcb mem s v) (state : pcb.state = .blockedOnReceive) :
    s = [] ∧ v = [.receiving r] ∧ pcb.resume = .receiveIpc pcb.ipcBuffer ∧
      pcb.containsRange pcb.ipcBuffer ipcMessageSize = true := by
  cases h with
  | gone dead => rw [Pcb.isLive_of_blockedOnReceive state] at dead; cases dead
  | receiving _ resume buffer => exact ⟨rfl, rfl, resume, buffer⟩
  | idle state' | sending _ state' | awaiting _ _ state' | answered _ _ _ state'
  | informed _ _ state' => rw [state] at state'; cases state'

/-- What is open on the sender's side is the beginning of an exchange. -/
theorem sends_prefix (h : Stage r pcb mem s v) : ∃ x : Exchange, s <+: x.events r := by
  cases h with
  | gone | idle | receiving | informed => exact ⟨⟨r, [], []⟩, List.nil_prefix⟩
  | sending q => exact ⟨⟨q, _, []⟩, [.delivered r q _, .replied q r [], .sendReturned r 0 []], rfl⟩
  | awaiting q msg => exact ⟨⟨q, msg, []⟩, [.replied q r [], .sendReturned r 0 []], rfl⟩
  | answered q msg => exact ⟨⟨q, msg, _⟩, [.sendReturned r 0 _], rfl⟩

/-- What is open on the receiver's side is the beginning of a reception. -/
theorem receives_prefix (h : Stage r pcb mem s v) : ∃ x : Reception, v <+: x.events r := by
  cases h with
  | gone | idle | sending | awaiting | answered => exact ⟨⟨r, []⟩, List.nil_prefix⟩
  | receiving => exact ⟨⟨r, []⟩, [.delivered r r [], .received r r []], rfl⟩
  | informed p => exact ⟨⟨p, _⟩, [.received r p _], rfl⟩

/-- A live process in its own code is runnable. -/
theorem runnable_of_running (h : Stage r pcb mem s v) (live : pcb.isLive = true)
    (running : pcb.resume = .running) : pcb.state = .runnable := by
  cases h with
  | gone dead => rw [live] at dead; cases dead
  | idle state => exact state
  | sending _ _ resume => rw [running] at resume; cases resume
  | awaiting _ _ _ resume => rw [running] at resume; cases resume
  | answered _ _ _ _ resume => rw [running] at resume; cases resume
  | receiving _ resume => rw [running] at resume; cases resume
  | informed _ _ _ resume => rw [running] at resume; cases resume

/-- A blocked process has a buffer that its layer contains. -/
theorem buffer_of_blocked (h : Stage r pcb mem s v) (live : pcb.isLive = true)
    (blocked : pcb.state ≠ .runnable) :
    pcb.containsRange pcb.ipcBuffer ipcMessageSize = true := by
  cases h with
  | gone dead => rw [live] at dead; cases dead
  | idle state | answered _ _ _ state | informed _ _ state => exact absurd state blocked
  | sending _ _ _ buffer | awaiting _ _ _ _ buffer | receiving _ _ buffer => exact buffer

end Stage

/-! ## Clean steps -/

namespace Kernel

/-- A copy that disturbs nothing: no byte that it stores is read or stored again by the
rest of it, and none belongs to a buffer in which something waits for another process
than its source. -/
structure CleanCopy (k : Kernel) (src : Pid) (srcPtr : Nat) (dst : Pid) (dstPtr : Nat) :
    Prop where
  order : InOrder k.mem src srcPtr dst dstPtr ipcMessageSize
  spares : ∀ p ptr, p ≠ src → (k.table p).held = some ptr → k.Apart p ptr dst dstPtr

/-- The bytes that an action stores disturb nothing. -/
def Clean (k : Kernel) : Action → Prop
  | .call (.store addr _) => ∀ p ptr, (k.table p).held = some ptr →
      ∀ i, i < ipcMessageSize → k.mem.place p (ptr + i) ≠ k.mem.place k.current addr
  | .call (.sendIpc targetProc msgPtr) => ∀ target : Pid, target.val = targetProc →
      (k.table target).state = .blockedOnReceive →
      (k.table k.current).containsRange msgPtr ipcMessageSize = true →
      k.CleanCopy k.current msgPtr target (k.table target).ipcBuffer
  | .call (.receiveIpc msgPtr) => ∀ sender, k.pendingSender k.current = some sender →
      (k.table k.current).containsRange msgPtr ipcMessageSize = true →
      k.CleanCopy sender (k.table sender).ipcBuffer k.current msgPtr
  | .call (.replyIpc targetProc msgPtr) => ∀ target : Pid, target.val = targetProc →
      (k.table target).state = .blockedOnReply k.current →
      (k.table k.current).containsRange msgPtr ipcMessageSize = true →
      k.CleanCopy k.current msgPtr target (k.table target).ipcBuffer
  | _ => True

end Kernel

/-! ## One process through one step -/

/-- The sends and receives of a process are sequences of sessions, and what is
open shows in the state. -/
def Following (r : Pid) (sends receives : List Event) (k : Kernel) : Prop :=
  ∃ s v, Sessions (Exchange.events r) sends s ∧ Sessions (Reception.events r) receives v ∧
    Stage r (k.table r) (k.mem.read r) s v

section Steps

variable {r : Pid} {s v : List Event} {k k' : Kernel}

/-- A process that nothing happens to goes on following the protocol. -/
theorem Stage.following_of_same (h : Stage r (k.table r) (k.mem.read r) s v)
    (table : ∃ count tick, k'.table r =
      { k.table r with switchCount := count, startTick := tick })
    (mem : ∀ ptr, (k.table r).held = some ptr → k'.message r ptr = k.message r ptr) :
    Following r s v k' := by
  obtain ⟨count, tick, htable⟩ := table
  refine ⟨s, v, .start s, .start v, ?_⟩
  rw [htable]
  exact (h.mem_congr mem).counters count tick

/-- A process that sees nothing and is not touched goes on as it was. -/
theorem Stage.following_of_unseen (h : Stage r (k.table r) (k.mem.read r) s v) {es : List Event}
    (unseen : senderView r es = [] ∧ receiverView r es = []) (table : k'.table r = k.table r)
    (mem : ∀ ptr, (k.table r).held = some ptr → k'.message r ptr = k.message r ptr) :
    Following r (s ++ senderView r es) (v ++ receiverView r es) k' := by
  rw [unseen.1, unseen.2, List.append_nil, List.append_nil]
  exact h.following_of_same ⟨_, _, table⟩ mem

theorem Stage.following_store (h : Stage r (k.table r) (k.mem.read r) s v) (addr : Nat)
    (byte : UInt8) (live : (k.table k.current).state = .runnable)
    (running : (k.table k.current).resume = .running)
    (clean : k.Clean (.call (.store addr byte))) :
    Following r s v (k.perform (.store addr byte)).kernel := by
  rcases eq_or_ne r k.current with rfl | hr
  · obtain ⟨rfl, rfl⟩ := h.of_running running
    exact ⟨[], [], .nil, .nil, .idle live (Or.inl running)⟩
  · refine h.following_of_same ⟨_, _, rfl⟩ fun ptr held => slice_congr fun a hle hlt => ?_
    obtain ⟨i, rfl⟩ := Nat.exists_eq_add_of_le hle
    exact k.mem.read_write_of_ne byte (clean r ptr held i (Nat.lt_of_add_lt_add_left hlt))

theorem Stage.following_yieldCpu (h : Stage r (k.table r) (k.mem.read r) s v)
    (live : (k.table k.current).state = .runnable)
    (running : (k.table k.current).resume = .running) : Following r s v k.yieldCpu := by
  obtain ⟨resume, count, tick, htable, hresume⟩ := k.yieldCpu_table r
  rcases eq_or_ne r k.current with rfl | hr
  · obtain ⟨rfl, rfl⟩ := h.of_running running
    refine ⟨[], [], .nil, .nil, ?_⟩
    rw [htable]
    refine .idle live ?_
    rcases hresume with rfl | ⟨_, rfl⟩
    · exact Or.inl running
    · exact Or.inr rfl
  · refine h.following_of_same ⟨count, tick, ?_⟩ fun ptr _ => k.yieldCpu_message r ptr
    rcases hresume with rfl | ⟨hcur, _⟩
    · exact htable
    · exact absurd hcur hr

theorem Stage.following_blockCurrent (h : Stage r (k.table r) (k.mem.read r) s v) (current : Pid) :
    Following r s v (k.blockCurrent current) :=
  h.following_of_same (k.blockCurrent_table current r) fun ptr _ =>
    k.blockCurrent_message current r ptr

/-- The scheduler does not disturb what is followed. -/
theorem Following.blockCurrent {sends receives : List Event} (h : Following r sends receives k)
    (current : Pid) : Following r sends receives (k.blockCurrent current) := by
  obtain ⟨s, v, hs, hv, hstage⟩ := h
  obtain ⟨s', v', hs', hv', hstage'⟩ := hstage.following_blockCurrent current
  refine ⟨s', v', ?_, ?_, hstage'⟩
  · exact List.append_nil sends ▸ hs.append ((List.append_nil s).symm ▸ hs')
  · exact List.append_nil receives ▸ hv.append ((List.append_nil v).symm ▸ hv')

theorem Stage.following_sendLater (h : Stage r (k.table r) (k.mem.read r) s v) {target : Pid}
    {msgPtr : Nat} (running : (k.table k.current).resume = .running)
    (buffer : (k.table k.current).containsRange msgPtr ipcMessageSize = true) :
    Following r (s ++ senderView r [.sent k.current target (k.message k.current msgPtr)])
      (v ++ receiverView r [.sent k.current target (k.message k.current msgPtr)])
      (k.sendLater target msgPtr) := by
  rcases eq_or_ne r k.current with rfl | hr
  · obtain ⟨rfl, rfl⟩ := h.of_running running
    refine ⟨[.sent k.current target (k.message k.current msgPtr)], [], ?_, ?_, ?_⟩
    · simpa [senderView] using Sessions.start _
    · simpa [receiverView] using Sessions.nil
    · rw [Kernel.sendLater, Kernel.setPcb_self, Kernel.setPcb_mem]
      exact .sending target rfl rfl buffer
  · exact h.following_of_unseen (by simp [senderView, receiverView, Ne.symm hr])
      (Kernel.setPcb_of_ne _ _ hr) fun _ _ => rfl

theorem Stage.following_sendNow (h : Stage r (k.table r) (k.mem.read r) s v) {target : Pid}
    {msgPtr : Nat} {delivered : List UInt8} (running : (k.table k.current).resume = .running)
    (buffer : (k.table k.current).containsRange msgPtr ipcMessageSize = true)
    (hne : k.current ≠ target) (waits : (k.table target).state = .blockedOnReceive)
    (clean : k.CleanCopy k.current msgPtr target (k.table target).ipcBuffer)
    (hdelivered : delivered = k.message k.current msgPtr) :
    Following r
      (s ++ senderView r [.sent k.current target (k.message k.current msgPtr),
        .delivered k.current target delivered])
      (v ++ receiverView r [.sent k.current target (k.message k.current msgPtr),
        .delivered k.current target delivered])
      (k.sendNow target msgPtr) := by
  subst hdelivered
  rcases eq_or_ne r k.current with rfl | hr
  · -- The sender: the exchange opens and the message is delivered at once.
    obtain ⟨rfl, rfl⟩ := h.of_running running
    refine ⟨[.sent k.current target (k.message k.current msgPtr),
      .delivered k.current target (k.message k.current msgPtr)], [], ?_, ?_, ?_⟩
    · simpa [senderView] using Sessions.start _
    · simpa [receiverView, Ne.symm hne] using Sessions.nil
    · rw [Kernel.sendNow, Kernel.setPcb_self, Kernel.setPcb_of_ne _ _ hne]
      exact .awaiting target _ rfl rfl buffer
  · rcases eq_or_ne r target with rfl | ht
    · -- The receiver: what it waited for is in its buffer.
      obtain ⟨rfl, rfl, resume, inLayer⟩ := h.of_blockedOnReceive waits
      refine ⟨[], [.receiving r, .delivered k.current r (k.message k.current msgPtr)],
        ?_, ?_, ?_⟩
      · simpa [senderView, hne] using Sessions.nil
      · simpa [receiverView] using Sessions.start _
      · rw [← k.copied_message clean.order, Kernel.sendNow, Kernel.setPcb_of_ne _ _ hr,
          Kernel.setPcb_self]
        exact .informed k.current _ rfl resume rfl inLayer
    · refine h.following_of_unseen (by simp [senderView, receiverView, Ne.symm hr, Ne.symm ht]) ?_
        fun ptr held => k.copied_message_of_apart (clean.spares r ptr hr held)
      rw [Kernel.sendNow, Kernel.setPcb_of_ne _ _ hr, Kernel.setPcb_of_ne _ _ ht]
      rfl

theorem Stage.following_receiveLater (h : Stage r (k.table r) (k.mem.read r) s v) {msgPtr : Nat}
    (running : (k.table k.current).resume = .running)
    (buffer : (k.table k.current).containsRange msgPtr ipcMessageSize = true) :
    Following r (s ++ senderView r [.receiving k.current])
      (v ++ receiverView r [.receiving k.current]) (k.receiveLater msgPtr) := by
  rcases eq_or_ne r k.current with rfl | hr
  · obtain ⟨rfl, rfl⟩ := h.of_running running
    refine ⟨[], [.receiving k.current], ?_, ?_, ?_⟩
    · simpa [senderView] using Sessions.nil
    · simpa [receiverView] using Sessions.start _
    · rw [Kernel.receiveLater, Kernel.setPcb_self, Kernel.setPcb_mem]
      exact .receiving rfl rfl buffer
  · exact h.following_of_unseen (by simp [senderView, receiverView, Ne.symm hr])
      (Kernel.setPcb_of_ne _ _ hr) fun _ _ => rfl

theorem Stage.following_receiveNow (h : Stage r (k.table r) (k.mem.read r) s v) {sender : Pid}
    {msgPtr : Nat} {es : List Event} {delivered received : List UInt8}
    (live : (k.table k.current).state = .runnable)
    (running : (k.table k.current).resume = .running)
    (waits : (k.table sender).state = .blockedOnSend k.current)
    (clean : k.CleanCopy sender (k.table sender).ipcBuffer k.current msgPtr)
    (hes : es = [.receiving k.current, .delivered sender k.current delivered,
      .received k.current sender received])
    (hdelivered : delivered = k.message sender (k.table sender).ipcBuffer)
    (hreceived : received = delivered) :
    Following r (s ++ senderView r es) (v ++ receiverView r es) (k.receiveNow sender msgPtr) := by
  have hne : sender ≠ k.current := by
    intro heq
    rw [heq, live] at waits
    cases waits
  subst hreceived hes
  rcases eq_or_ne r k.current with rfl | hr
  · -- The receiver: a whole reception at once.
    obtain ⟨rfl, rfl⟩ := h.of_running running
    refine ⟨[], [], ?_, ?_, ?_⟩
    · simpa [senderView, hne] using Sessions.nil
    · simpa [receiverView] using Reception.complete k.current sender received
    · rw [Kernel.receiveNow, Kernel.setPcb_of_ne _ _ (Ne.symm hne), Kernel.setPcb_self]
      exact .idle live (Or.inl running)
  · rcases eq_or_ne r sender with rfl | ht
    · -- The sender: its message is delivered.
      obtain ⟨rfl, rfl, resume, buffer⟩ := h.of_blockedOnSend waits
      refine ⟨[.sent r k.current received, .delivered r k.current received], [], ?_, ?_, ?_⟩
      · subst hdelivered
        simpa [senderView, Kernel.message] using Sessions.start _
      · simpa [receiverView, Ne.symm hne] using Sessions.nil
      · rw [Kernel.receiveNow, Kernel.setPcb_self, Kernel.setPcb_of_ne _ _ hr]
        exact .awaiting k.current _ rfl resume buffer
    · refine h.following_of_unseen (by simp [senderView, receiverView, Ne.symm hr, Ne.symm ht]) ?_
        fun ptr held => k.copied_message_of_apart (clean.spares r ptr ht held)
      rw [Kernel.receiveNow, Kernel.setPcb_of_ne _ _ ht, Kernel.setPcb_of_ne _ _ hr]
      rfl

theorem Stage.following_replyNow (h : Stage r (k.table r) (k.mem.read r) s v) {target : Pid}
    {msgPtr : Nat} (live : (k.table k.current).state = .runnable)
    (running : (k.table k.current).resume = .running)
    (waits : (k.table target).state = .blockedOnReply k.current)
    (clean : k.CleanCopy k.current msgPtr target (k.table target).ipcBuffer) :
    Following r
      (s ++ senderView r [.replied k.current target (k.message k.current msgPtr)])
      (v ++ receiverView r [.replied k.current target (k.message k.current msgPtr)])
      (k.replyNow target msgPtr) := by
  have hne : k.current ≠ target := by
    intro heq
    rw [← heq, live] at waits
    cases waits
  rcases eq_or_ne r target with rfl | ht
  · -- The sender: the reply is in its buffer.
    obtain ⟨⟨msg, rfl⟩, rfl, resume, inLayer⟩ := h.of_blockedOnReply waits
    refine ⟨[.sent r k.current msg, .delivered r k.current msg,
      .replied k.current r (k.message k.current msgPtr)], [], ?_, ?_, ?_⟩
    · simpa [senderView] using Sessions.start _
    · simpa [receiverView] using Sessions.nil
    · rw [← k.copied_message clean.order, Kernel.replyNow, Kernel.setPcb_self]
      exact .answered k.current msg _ rfl resume inLayer
  · refine h.following_of_unseen (by simp [senderView, receiverView, Ne.symm ht]) ?_
      fun ptr held => k.copied_message_of_apart (clean.spares r ptr ?_ held)
    · rw [Kernel.replyNow, Kernel.setPcb_of_ne _ _ ht]
      rfl
    · intro heq
      simp [Pcb.held, heq, live, running] at held

/-- A process that returns from a call closes what it has open. -/
theorem Stage.following_resume (h : Stage r (k.table r) (k.mem.read r) s v)
    (live : (k.table k.current).state = .runnable) :
    Following r
      (s ++ senderView r (k.returnFrom (k.table k.current).resume))
      (v ++ receiverView r (k.returnFrom (k.table k.current).resume))
      (k.setPcb k.current fun p => { p with resume := .running }) := by
  rcases eq_or_ne r k.current with rfl | hr
  · have hidle : Stage k.current
        ((k.setPcb k.current fun p => { p with resume := .running }).table k.current)
        (k.mem.read k.current) [] [] := by
      rw [Kernel.setPcb_self]
      exact .idle live (Or.inl rfl)
    cases h with
    | gone dead =>
        rw [Pcb.isLive_of_runnable live] at dead
        cases dead
    | idle _ resume =>
        refine ⟨[], [], ?_, ?_, hidle⟩
        · rcases resume with resume | resume <;>
            simpa [senderView, Kernel.returnFrom, resume] using Sessions.nil
        · rcases resume with resume | resume <;>
            simpa [receiverView, Kernel.returnFrom, resume] using Sessions.nil
    | answered q msg ptr _ resume =>
        refine ⟨[], [], ?_, ?_, hidle⟩
        · simpa [senderView, Kernel.returnFrom, resume, Kernel.message] using
            Exchange.complete k.current q msg _
        · simpa [receiverView, Kernel.returnFrom, resume] using Sessions.nil
    | informed p ptr _ resume peer =>
        refine ⟨[], [], ?_, ?_, hidle⟩
        · simpa [senderView, Kernel.returnFrom, resume] using Sessions.nil
        · simpa [receiverView, Kernel.returnFrom, resume, peer, Kernel.message] using
            Reception.complete k.current p _
    | sending _ state | awaiting _ _ state | receiving state => rw [live] at state; cases state
  · refine h.following_of_unseen ?_ (Kernel.setPcb_of_ne _ _ hr) fun _ _ => rfl
    cases (k.table k.current).resume <;>
      simp [Kernel.returnFrom, senderView, receiverView, Ne.symm hr]

end Steps

end PureOS.Process
