import PureOS.Process.Stages

set_option autoImplicit false

/-!
# Process: a rendezvous happens exactly once

Processes that only exchange messages and yield, in any order.  What holds after every
history is that every process follows the protocol, and a clean step keeps that.  Every
step is clean where the layers of the processes have bytes of their own; where two
processes were given the same page tables below the top level they have not.
-/

namespace PureOS.Process

open PureOS.Foundation

/-! ## Runs -/

namespace Kernel

/-- The calls of a process that only exchanges messages, yields and works in its
own memory. -/
def Action.OnlyMessages : Action → Prop
  | .call (.store _ _) | .call .yieldCpu | .call (.sendIpc _ _) | .call (.receiveIpc _)
  | .call (.replyIpc _ _) | .resume | .halt => True
  | .call (.create _ _) | .call (.createThread _ _ _ _ _) | .call (.exitProcess _)
  | .call (.killProcess _) => False

instance : DecidablePred Action.OnlyMessages
  | .call (.store _ _) | .call .yieldCpu | .call (.sendIpc _ _) | .call (.receiveIpc _)
  | .call (.replyIpc _ _) | .resume | .halt => isTrue trivial
  | .call (.create _ _) | .call (.createThread _ _ _ _ _) | .call (.exitProcess _)
  | .call (.killProcess _) => isFalse not_false

/-- A step in which nothing is created and nothing dies. -/
def MessageStep (k : Kernel) (l : Action × List Event) (k' : Kernel) : Prop :=
  Step k l k' ∧ l.1.OnlyMessages

/-- A step of message passing in which nothing that waits is disturbed. -/
def CleanStep (k : Kernel) (l : Action × List Event) (k' : Kernel) : Prop :=
  MessageStep k l k' ∧ k.Clean l.1

/-- No process is inside a send or a receive. -/
structure Fresh (k : Kernel) : Prop where
  current_live : (k.table k.current).isLive = true
  idle : ∀ p, (k.table p).isLive = true → (k.table p).state = .runnable ∧
    ((k.table p).resume = .running ∨ (k.table p).resume = .yieldCpu)

/-- What holds after every history: the current process is live and every process
follows the protocol. -/
structure Orderly (h : List (Action × List Event)) (k : Kernel) : Prop where
  current_live : (k.table k.current).isLive = true
  following : ∀ r, Following r (senderView r (observed h)) (receiverView r (observed h)) k

theorem Fresh.orderly {k : Kernel} (fresh : k.Fresh) : Orderly [] k where
  current_live := fresh.current_live
  following r := by
    refine ⟨[], [], .nil, .nil, ?_⟩
    cases hlive : (k.table r).isLive with
    | false => exact .gone hlive
    | true =>
        obtain ⟨state, resume⟩ := fresh.idle r hlive
        exact .idle state resume

namespace Orderly

variable {h : List (Action × List Event)} {k : Kernel}

theorem stage (ho : Orderly h k) (r : Pid) : ∃ s v, Stage r (k.table r) (k.mem.read r) s v := by
  obtain ⟨s, v, _, _, hstage⟩ := ho.following r
  exact ⟨s, v, hstage⟩

theorem runnable (ho : Orderly h k) (running : (k.table k.current).resume = .running) :
    (k.table k.current).state = .runnable := by
  obtain ⟨s, v, hstage⟩ := ho.stage k.current
  exact hstage.runnable_of_running ho.current_live running

theorem buffer (ho : Orderly h k) {p : Pid} (live : (k.table p).isLive = true)
    (blocked : (k.table p).state ≠ .runnable) :
    (k.table p).containsRange (k.table p).ipcBuffer ipcMessageSize = true := by
  obtain ⟨s, v, hstage⟩ := ho.stage p
  exact hstage.buffer_of_blocked live blocked

/-- Enough for one more step: every process, from whatever stage, goes on
following the protocol. -/
theorem step (ho : Orderly h k) {a : Action} {es : List Event} {k' : Kernel}
    (live : (k'.table k'.current).isLive = true)
    (follows : ∀ r s v, Stage r (k.table r) (k.mem.read r) s v →
      Following r (s ++ senderView r es) (v ++ receiverView r es) k') :
    Orderly (h ++ [(a, es)]) k' := by
  refine ⟨live, fun r => ?_⟩
  obtain ⟨s, v, hs, hv, hstage⟩ := ho.following r
  obtain ⟨s', v', hs', hv', hstage'⟩ := follows r s v hstage
  rw [observed_snoc, senderView_append, receiverView_append]
  exact ⟨s', v', hs.append hs', hv.append hv', hstage'⟩

/-- A step that nobody sees. -/
theorem step_silent (ho : Orderly h k) {a : Action} {k' : Kernel}
    (live : (k'.table k'.current).isLive = true)
    (follows : ∀ r s v, Stage r (k.table r) (k.mem.read r) s v → Following r s v k') :
    Orderly (h ++ [(a, [])]) k' := by
  refine ho.step live fun r s v hstage => ?_
  have hnone : senderView r [] = [] ∧ receiverView r [] = [] := ⟨rfl, rfl⟩
  rw [hnone.1, hnone.2, List.append_nil, List.append_nil]
  exact follows r s v hstage

/-- Blocking leaves a live process current. -/
theorem live_blockCurrent {k : Kernel} {current : Pid} (hcurrent : k.current = current)
    (live : (k.table current).isLive = true) :
    ((k.blockCurrent current).table (k.blockCurrent current).current).isLive = true := by
  subst hcurrent
  rcases k.blockCurrent_current with hrun | hsame
  · exact Pcb.isLive_of_runnable hrun
  · rw [hsame]
    obtain ⟨count, tick, htable⟩ := k.blockCurrent_table k.current k.current
    rw [htable]
    exact live

theorem sendIpc (ho : Orderly h k) (running : (k.table k.current).resume = .running)
    (a : Action) (targetProc msgPtr : Nat) (clean : k.Clean (.call (.sendIpc targetProc msgPtr))) :
    Orderly (h ++ [(a, (k.sendIpc targetProc msgPtr).events)])
      (k.sendIpc targetProc msgPtr).kernel := by
  rcases k.sendIpc_cases targetProc msgPtr with ⟨err, _, heq, _⟩ |
    ⟨target, ⟨htarget, hne, _⟩, buffer, waits, heq⟩ | ⟨target, ⟨_, hne, _⟩, buffer, heq⟩
  · rw [heq]
    exact ho.step_silent ho.current_live fun r s v hstage =>
      hstage.following_of_same ⟨_, _, rfl⟩ fun _ _ => rfl
  · rw [heq]
    have hclean := clean target htarget waits buffer
    refine ho.step ?_ fun r s v hstage => ?_
    · refine live_blockCurrent (k.sendNow_current target msgPtr) ?_
      rw [sendNow, setPcb_self]
      rfl
    · exact (hstage.following_sendNow running buffer hne waits hclean
        (k.copied_message hclean.order)).blockCurrent k.current
  · rw [heq]
    refine ho.step ?_ fun r s v hstage => ?_
    · refine live_blockCurrent (k.sendLater_current target msgPtr) ?_
      rw [sendLater, setPcb_self]
      rfl
    · exact (hstage.following_sendLater running buffer).blockCurrent k.current

theorem receiveIpc (ho : Orderly h k) (running : (k.table k.current).resume = .running)
    (a : Action) (msgPtr : Nat) (clean : k.Clean (.call (.receiveIpc msgPtr))) :
    Orderly (h ++ [(a, (k.receiveIpc msgPtr).events)]) (k.receiveIpc msgPtr).kernel := by
  have hrun := ho.runnable running
  rcases k.receiveIpc_cases msgPtr with ⟨err, _, heq, _⟩ | ⟨sender, waits, hbad, _⟩ |
    ⟨sender, buffer, pending, heq⟩ | ⟨buffer, heq⟩
  · rw [heq]
    exact ho.step_silent ho.current_live fun r s v hstage =>
      hstage.following_of_same ⟨_, _, rfl⟩ fun _ _ => rfl
  · have hbuffer := ho.buffer (Pcb.isLive_of_blockedOnSend waits) (by simp [waits])
    rw [hbad] at hbuffer
    cases hbuffer
  · rw [heq]
    have hclean := clean sender pending buffer
    have waits := pendingSender_eq_some pending
    have hne : sender ≠ k.current := by
      intro heq
      rw [heq, hrun] at waits
      cases waits
    refine ho.step ?_ fun r s v hstage => ?_
    · rw [receiveNow, setPcb_current, setPcb_current, copied_current,
        setPcb_of_ne _ _ (Ne.symm hne), setPcb_self]
      exact Pcb.isLive_of_runnable hrun
    · exact hstage.following_receiveNow hrun running waits hclean rfl
        (k.copied_message hclean.order) rfl
  · rw [heq]
    refine ho.step ?_ fun r s v hstage => ?_
    · refine live_blockCurrent (k.receiveLater_current msgPtr) ?_
      rw [receiveLater, setPcb_self]
      rfl
    · exact (hstage.following_receiveLater running buffer).blockCurrent k.current

theorem replyIpc (ho : Orderly h k) (running : (k.table k.current).resume = .running)
    (a : Action) (targetProc msgPtr : Nat)
    (clean : k.Clean (.call (.replyIpc targetProc msgPtr))) :
    Orderly (h ++ [(a, (k.replyIpc targetProc msgPtr).events)])
      (k.replyIpc targetProc msgPtr).kernel := by
  have hrun := ho.runnable running
  rcases k.replyIpc_cases targetProc msgPtr with
    ⟨err, _, heq, _⟩ | ⟨target, htarget, waits, buffer, heq⟩
  · rw [heq]
    exact ho.step_silent ho.current_live fun r s v hstage =>
      hstage.following_of_same ⟨_, _, rfl⟩ fun _ _ => rfl
  · rw [heq]
    have hne : k.current ≠ target := by
      intro heq
      rw [← heq, hrun] at waits
      cases waits
    have hclean := clean target htarget waits buffer
    refine ho.step ?_ fun r s v hstage => hstage.following_replyNow hrun running waits hclean
    rw [replyNow, setPcb_current, copied_current, setPcb_of_ne _ _ hne]
    exact ho.current_live

/-- One clean step of message passing. -/
theorem cleanStep (ho : Orderly h k) {l : Action × List Event} {k' : Kernel}
    (hstep : CleanStep k l k') : Orderly (h ++ [l]) k' := by
  obtain ⟨a, es⟩ := l
  obtain ⟨⟨hact, honly⟩, clean⟩ := hstep
  cases a with
  | call c =>
      obtain ⟨running, rfl, rfl⟩ := of_step_call hact
      have hrun := ho.runnable running
      cases c with
      | store addr byte =>
          exact ho.step_silent ho.current_live fun r s v hstage =>
            hstage.following_store addr byte hrun running clean
      | yieldCpu =>
          refine ho.step_silent ?_ fun r s v hstage => hstage.following_yieldCpu hrun running
          rcases k.yieldCpu_current with hnext | hsame
          · exact Pcb.isLive_of_runnable hnext
          · apply Pcb.isLive_of_runnable
            rw [perform, hsame, yieldCpu_state, hrun]
      | sendIpc target ptr => exact ho.sendIpc running _ target ptr clean
      | receiveIpc ptr => exact ho.receiveIpc running _ ptr clean
      | replyIpc target ptr => exact ho.replyIpc running _ target ptr clean
      | create | createThread | exitProcess | killProcess => exact honly.elim
  | resume =>
      obtain ⟨⟨hrun, _⟩, rfl, rfl⟩ := of_step_resume hact
      refine ho.step ?_ fun r s v hstage => hstage.following_resume hrun
      rw [setPcb_current, setPcb_self]
      exact ho.current_live
  | halt =>
      obtain ⟨_, rfl, rfl⟩ := of_step_halt hact
      exact ho.step_silent (live_blockCurrent rfl ho.current_live) fun r s v hstage =>
        hstage.following_blockCurrent k.current

theorem of_run {k₀ : Kernel} (fresh : k₀.Fresh) (run : Run CleanStep k₀ h k) : Orderly h k :=
  run.invariant Orderly fresh.orderly fun _ _ _ _ ho hstep => ho.cleanStep hstep

/-- An accepted pointer of the current process is the only one that can fail. -/
theorem no_inner_failure (ho : Orderly h k) {msgPtr : Nat}
    (buffer : (k.table k.current).containsRange msgPtr ipcMessageSize = true) :
    (∀ targetProc, (k.sendIpc targetProc msgPtr).value ≠ some errInvalidPointer) ∧
    (k.receiveIpc msgPtr).value ≠ some errInvalidPointer ∧
    (∀ targetProc, (k.replyIpc targetProc msgPtr).value ≠ some errInvalidPointer) := by
  refine ⟨fun targetProc => ?_, ?_, fun targetProc => ?_⟩
  · rcases k.sendIpc_cases targetProc msgPtr with ⟨err, _, heq, hinner⟩ |
      ⟨target, _, _, _, heq⟩ | ⟨target, _, _, heq⟩
    · rw [heq]
      intro herr
      obtain ⟨target, waits, hbad⟩ := hinner (Option.some.inj herr) buffer
      have hgood := ho.buffer (Pcb.isLive_of_blockedOnReceive waits) (by simp [waits])
      rw [hbad] at hgood
      cases hgood
    · simp [heq]
    · simp [heq]
  · rcases k.receiveIpc_cases msgPtr with ⟨err, _, _, hbad⟩ | ⟨sender, waits, hbad, _⟩ |
      ⟨sender, _, _, heq⟩ | ⟨_, heq⟩
    · rw [hbad] at buffer
      cases buffer
    · have hgood := ho.buffer (Pcb.isLive_of_blockedOnSend waits) (by simp [waits])
      rw [hbad] at hgood
      cases hgood
    · rw [heq]
      intro herr
      have hneg : (sender.val : Int) = errInvalidPointer := Option.some.inj herr
      simp only [errInvalidPointer] at hneg
      omega
    · simp [heq]
  · rcases k.replyIpc_cases targetProc msgPtr with
      ⟨err, _, heq, hinner⟩ | ⟨target, _, _, _, heq⟩
    · rw [heq]
      intro herr
      obtain ⟨target, waits, hbad⟩ := hinner (Option.some.inj herr) buffer
      have hgood := ho.buffer (Pcb.isLive_of_blockedOnReply waits) (by simp [waits])
      rw [hbad] at hgood
      cases hgood
    · rw [heq]
      intro herr
      cases herr

end Orderly

/-! ## Layers with bytes of their own -/

/-- The layers of the slots have different bytes of memory, and a layer has each of its
bytes at one address. -/
def Separate (k : Kernel) : Prop :=
  ∀ p q a b, (k.table p).containsRange a 1 = true → (k.table q).containsRange b 1 = true →
    k.mem.place p a = k.mem.place q b → p = q ∧ a = b

/-- A store goes to the layer of the current process. -/
def StaysInLayer (k : Kernel) : Action → Prop
  | .call (.store addr _) => (k.table k.current).containsRange addr 1 = true
  | _ => True

instance (k : Kernel) : DecidablePred k.StaysInLayer
  | .call (.store addr _) =>
      inferInstanceAs (Decidable ((k.table k.current).containsRange addr 1 = true))
  | .call .yieldCpu | .call (.sendIpc _ _) | .call (.receiveIpc _) | .call (.replyIpc _ _)
  | .call (.create _ _) | .call (.createThread _ _ _ _ _) | .call (.exitProcess _)
  | .call (.killProcess _) | .resume | .halt => isTrue trivial

/-- Nobody gets other page tables or another layer. -/
structure SameSpaces (k k' : Kernel) : Prop where
  place : k'.mem.place = k.mem.place
  layer : ∀ p, (k'.table p).containsRange = (k.table p).containsRange

namespace SameSpaces

variable {k k' k'' : Kernel}

theorem of_table (place : k'.mem.place = k.mem.place)
    (table : ∀ p, ((k'.table p).layerBase, (k'.table p).layerSize) =
      ((k.table p).layerBase, (k.table p).layerSize)) : SameSpaces k k' where
  place := place
  layer p := by
    obtain ⟨hbase, hsize⟩ := Prod.mk.inj (table p)
    funext ptr len
    rw [Pcb.containsRange, Pcb.containsRange, hbase, hsize]

theorem refl (k : Kernel) : SameSpaces k k := ⟨rfl, fun _ => rfl⟩

theorem setPcb (h : SameSpaces k k') (pid : Pid) {f : Pcb → Pcb}
    (hf : ∀ p, ((f p).layerBase, (f p).layerSize) = (p.layerBase, p.layerSize)) :
    SameSpaces k (k'.setPcb pid f) := by
  have hset : SameSpaces k' (k'.setPcb pid f) := by
    refine of_table rfl fun p => ?_
    rcases eq_or_ne p pid with rfl | hp
    · rw [setPcb_self]
      exact hf _
    · rw [setPcb_of_ne _ _ hp]
  exact ⟨hset.place.trans h.place, fun p => (hset.layer p).trans (h.layer p)⟩

theorem blockCurrent (h : SameSpaces k k') (current : Pid) :
    SameSpaces k (k'.blockCurrent current) := by
  have hblock : SameSpaces k' (k'.blockCurrent current) := by
    refine of_table (by rw [blockCurrent_mem]) fun p => ?_
    obtain ⟨count, tick, htable⟩ := k'.blockCurrent_table current p
    rw [htable]
  exact ⟨hblock.place.trans h.place, fun p => (hblock.layer p).trans (h.layer p)⟩

theorem copied (k : Kernel) (src : Pid) (srcPtr : Nat) (dst : Pid) (dstPtr : Nat) :
    SameSpaces k (k.copied src srcPtr dst dstPtr) :=
  ⟨k.copied_place src srcPtr dst dstPtr, fun p => by rw [copied_table]⟩

theorem yieldCpu (k : Kernel) : SameSpaces k k.yieldCpu := by
  refine of_table (by rw [yieldCpu_mem]) fun p => ?_
  obtain ⟨resume, count, tick, htable, _⟩ := k.yieldCpu_table p
  rw [htable]

theorem sendIpc (k : Kernel) (targetProc msgPtr : Nat) :
    SameSpaces k (k.sendIpc targetProc msgPtr).kernel := by
  rcases k.sendIpc_cases targetProc msgPtr with ⟨err, _, heq, _⟩ | ⟨target, _, _, _, heq⟩ |
    ⟨target, _, _, heq⟩
  · rw [heq]
    exact refl k
  · rw [heq]
    have hcopied := copied k k.current msgPtr target (k.table target).ipcBuffer
    refine blockCurrent (setPcb (setPcb hcopied target ?_) k.current ?_) k.current
    · exact fun _ => rfl
    · exact fun _ => rfl
  · rw [heq]
    refine blockCurrent (setPcb (refl k) k.current ?_) k.current
    exact fun _ => rfl

theorem receiveIpc (k : Kernel) (msgPtr : Nat) :
    SameSpaces k (k.receiveIpc msgPtr).kernel := by
  rcases k.receiveIpc_cases msgPtr with ⟨err, _, heq, _⟩ | ⟨sender, _, _, heq⟩ |
    ⟨sender, _, _, heq⟩ | ⟨_, heq⟩
  · rw [heq]
    exact refl k
  · rw [heq]
    dsimp only
    exact setPcb (refl k) sender fun _ => rfl
  · rw [heq]
    have hcopied := copied k sender (k.table sender).ipcBuffer k.current msgPtr
    dsimp only
    unfold receiveNow
    refine setPcb (setPcb hcopied k.current ?_) sender ?_
    · exact fun _ => rfl
    · exact fun _ => rfl
  · rw [heq]
    refine blockCurrent (setPcb (refl k) k.current ?_) k.current
    exact fun _ => rfl

theorem replyIpc (k : Kernel) (targetProc msgPtr : Nat) :
    SameSpaces k (k.replyIpc targetProc msgPtr).kernel := by
  rcases k.replyIpc_cases targetProc msgPtr with ⟨err, _, heq, _⟩ | ⟨target, _, _, _, heq⟩
  · rw [heq]
    exact refl k
  · rw [heq]
    have hcopied := copied k k.current msgPtr target (k.table target).ipcBuffer
    dsimp only
    unfold replyNow
    refine setPcb hcopied target ?_
    exact fun _ => rfl

/-- Message passing changes no page table and no layer. -/
theorem of_messageStep {l : Action × List Event} (hstep : MessageStep k l k') :
    SameSpaces k k' := by
  obtain ⟨a, es⟩ := l
  obtain ⟨hact, honly⟩ := hstep
  cases a with
  | call c =>
      obtain ⟨-, -, hkernel⟩ := of_step_call hact
      rw [← hkernel]
      cases c with
      | store addr byte => exact ⟨rfl, fun _ => rfl⟩
      | yieldCpu => exact yieldCpu k
      | sendIpc target ptr => exact sendIpc k target ptr
      | receiveIpc ptr => exact receiveIpc k ptr
      | replyIpc target ptr => exact replyIpc k target ptr
      | create | createThread | exitProcess | killProcess => exact honly.elim
  | resume =>
      obtain ⟨-, -, rfl⟩ := of_step_resume hact
      exact (refl k).setPcb k.current fun _ => rfl
  | halt =>
      obtain ⟨-, -, rfl⟩ := of_step_halt hact
      exact (refl k).blockCurrent k.current

end SameSpaces

namespace Separate

variable {h : List (Action × List Event)} {k k' : Kernel}

theorem congr (sep : k.Separate) (same : SameSpaces k k') : k'.Separate := by
  intro p q a b hp hq heq
  rw [same.layer] at hp hq
  rw [same.place] at heq
  exact sep p q a b hp hq heq

/-- A copy from one layer into another disturbs nothing. -/
theorem cleanCopy (sep : k.Separate) (ho : Orderly h k) {src dst : Pid} {srcPtr dstPtr : Nat}
    (hne : src ≠ dst) (hsrc : (k.table src).containsRange srcPtr ipcMessageSize = true)
    (hdst : (k.table dst).containsRange dstPtr ipcMessageSize = true)
    (nothing : (k.table dst).held = none) : k.CleanCopy src srcPtr dst dstPtr where
  order i j hij hj := by
    have hi : i < ipcMessageSize := hij.trans hj
    refine ⟨fun heq => ?_, fun heq => ?_⟩
    · have hsame := sep _ _ _ _ (Pcb.containsRange_byte hdst hi) (Pcb.containsRange_byte hsrc hj) heq
      exact hne hsame.1.symm
    · have hsame := sep _ _ _ _ (Pcb.containsRange_byte hdst hi) (Pcb.containsRange_byte hdst hj) heq
      exact hij.ne (Nat.add_left_cancel hsame.2)
  spares p ptr _ held i j hi hj heq := by
    obtain ⟨s, v, hstage⟩ := ho.stage p
    have hp := Pcb.containsRange_byte (hstage.buffer_of_held held) hi
    obtain ⟨rfl, _⟩ := sep _ _ _ _ hp (Pcb.containsRange_byte hdst hj) heq
    rw [nothing] at held
    cases held

/-- With layers of their own, and stores to them alone, every step is clean. -/
theorem clean (sep : k.Separate) (ho : Orderly h k) {l : Action × List Event}
    (hstep : Step k l k') (inLayer : k.StaysInLayer l.1) : k.Clean l.1 := by
  obtain ⟨a, es⟩ := l
  cases a with
  | resume | halt => trivial
  | call c =>
      have hrunning := (of_step_call hstep).1
      have hrun := ho.runnable hrunning
      have hfree : (k.table k.current).held = none := by simp [Pcb.held, hrun, hrunning]
      cases c with
      | yieldCpu | create | createThread | exitProcess | killProcess => trivial
      | store addr byte =>
          intro p ptr held i hi heq
          obtain ⟨s, v, hstage⟩ := ho.stage p
          have hp := Pcb.containsRange_byte (hstage.buffer_of_held held) hi
          obtain ⟨rfl, _⟩ := sep _ _ _ _ hp inLayer heq
          rw [hfree] at held
          cases held
      | sendIpc targetProc msgPtr =>
          intro target _ waits buffer
          have hne : k.current ≠ target := by
            intro heq
            rw [← heq, hrun] at waits
            cases waits
          have hdst := ho.buffer (Pcb.isLive_of_blockedOnReceive waits) (by simp [waits])
          exact sep.cleanCopy ho hne buffer hdst (by simp [Pcb.held, waits])
      | receiveIpc msgPtr =>
          intro sender pending buffer
          have waits := pendingSender_eq_some pending
          have hne : sender ≠ k.current := by
            intro heq
            rw [heq, hrun] at waits
            cases waits
          have hsrc := ho.buffer (Pcb.isLive_of_blockedOnSend waits) (by simp [waits])
          exact sep.cleanCopy ho hne hsrc buffer hfree
      | replyIpc targetProc msgPtr =>
          intro target _ waits buffer
          have hne : k.current ≠ target := by
            intro heq
            rw [← heq, hrun] at waits
            cases waits
          have hdst := ho.buffer (Pcb.isLive_of_blockedOnReply waits) (by simp [waits])
          exact sep.cleanCopy ho hne buffer hdst (by simp [Pcb.held, waits])

/-- Where the layers have bytes of their own from the start, every run whose stores stay
in the layers is clean. -/
theorem run_clean {k₀ : Kernel} (fresh : k₀.Fresh) (sep : k₀.Separate)
    (run : Run (fun k l k' => MessageStep k l k' ∧ k.StaysInLayer l.1) k₀ h k) :
    Run CleanStep k₀ h k ∧ k.Separate := by
  induction run with
  | nil => exact ⟨.nil, sep⟩
  | snoc _ last ih =>
      obtain ⟨hrun, hsep⟩ := ih
      have hclean := hsep.clean (Orderly.of_run fresh hrun) last.1.1 last.2
      exact ⟨.snoc hrun ⟨last.1, hclean⟩, hsep.congr (SameSpaces.of_messageStep last.1)⟩

end Separate

/-- A send that does not suspend its caller is refused. -/
theorem sendIpc_value (k : Kernel) (targetProc msgPtr : Nat) {value : Int}
    (h : (k.sendIpc targetProc msgPtr).value = some value) : value < 0 := by
  rcases k.sendIpc_cases targetProc msgPtr with ⟨err, hneg, heq, _⟩ |
    ⟨target, _, _, _, heq⟩ | ⟨target, _, _, heq⟩
  · rw [heq] at h
    obtain rfl : err = value := Option.some.inj h
    exact hneg
  · rw [heq] at h
    cases h
  · rw [heq] at h
    cases h

/-- In every run of message passing, the sends of every process are exchanges: the
message that left is delivered once, with the same bytes, the process it was
addressed to replies once, and then the send returns 0 with the bytes of the reply
in its buffer; a send returns 0 in no other way.  The receives of every process are
receptions: one message each, and the value is the number of its sender.  Blocked
processes have a buffer inside their layer, and no call whose own pointer is
accepted fails on the other side's. -/
theorem rendezvous_exactly_once {k₀ k : Kernel} {h : List (Action × List Event)}
    (fresh : k₀.Fresh) (run : Run CleanStep k₀ h k) :
    (∀ p, InSessions (Exchange.events p) (senderView p (observed h))) ∧
    (∀ q, InSessions (Reception.events q) (receiverView q (observed h))) ∧
    (∀ targetProc msgPtr value, (k.sendIpc targetProc msgPtr).value = some value → value < 0) ∧
    (∀ p, (∃ t, (k.table p).state = .blockedOnSend t) ∨ (k.table p).state = .blockedOnReceive ∨
        (∃ t, (k.table p).state = .blockedOnReply t) →
      (k.table p).containsRange (k.table p).ipcBuffer ipcMessageSize = true) ∧
    (∀ msgPtr, (k.table k.current).containsRange msgPtr ipcMessageSize = true →
      (∀ targetProc, (k.sendIpc targetProc msgPtr).value ≠ some errInvalidPointer) ∧
      (k.receiveIpc msgPtr).value ≠ some errInvalidPointer ∧
      (∀ targetProc, (k.replyIpc targetProc msgPtr).value ≠ some errInvalidPointer)) := by
  have ho := Orderly.of_run fresh run
  refine ⟨fun p => ?_, fun q => ?_, fun targetProc msgPtr value => k.sendIpc_value targetProc msgPtr,
    fun p hblocked => ?_, fun msgPtr buffer => ho.no_inner_failure buffer⟩
  · obtain ⟨s, v, hs, _, hstage⟩ := ho.following p
    obtain ⟨x, hx⟩ := hstage.sends_prefix
    exact ⟨s, x, hs, hx⟩
  · obtain ⟨s, v, _, hv, hstage⟩ := ho.following q
    obtain ⟨x, hx⟩ := hstage.receives_prefix
    exact ⟨v, x, hv, hx⟩
  · rcases hblocked with ⟨t, hstate⟩ | hstate | ⟨t, hstate⟩
    · exact ho.buffer (Pcb.isLive_of_blockedOnSend hstate) (by simp [hstate])
    · exact ho.buffer (Pcb.isLive_of_blockedOnReceive hstate) (by simp [hstate])
    · exact ho.buffer (Pcb.isLive_of_blockedOnReply hstate) (by simp [hstate])

/-- Every process has the memory of the machine at its own addresses, and the layer of
a slot is filled with its number. -/
def numbered : AddressSpaces where
  place _ addr := addr
  byte addr := UInt8.ofNat ((addr - ephemeralBase) / ephemeralBytesPerProcess)

/-- Two processes in their own code, with the layers of their slots. -/
def pair : Kernel where
  table p := if p = 1 ∨ p = 2 then provisionPcb p 0 0 0 0 else .empty
  current := 1
  mem := numbered
  tickCount := 0

theorem pair_fresh : pair.Fresh where
  current_live := rfl
  idle p hlive := by
    by_cases hp : p = 1 ∨ p = 2
    · simp [pair, hp, provisionPcb]
    · simp [pair, hp, Pcb.isLive, Pcb.empty] at hlive

/-- An address in the layer of a slot says which slot it is. -/
theorem pair_layer {p : Pid} {addr : Nat} (h : (pair.table p).containsRange addr 1 = true) :
    ephemeralBase + p * ephemeralBytesPerProcess ≤ addr ∧
      addr < ephemeralBase + (p + 1) * ephemeralBytesPerProcess := by
  unfold Pcb.containsRange at h
  cases hend : checkedAdd addr 1 with
  | none => simp [hend] at h
  | some fin =>
      obtain ⟨rfl, _⟩ := checkedAdd_eq_some hend
      have hp := p.isLt
      by_cases hslot : p = 1 ∨ p = 2
      · have hlayer : (pair.table p).layerBase = ephemeralBase + p * ephemeralBytesPerProcess ∧
            (pair.table p).layerSize = ephemeralBytesPerProcess := by
          simp [pair, hslot, provisionPcb]
        have hsum : ephemeralBase + p * ephemeralBytesPerProcess + ephemeralBytesPerProcess <
            wordSize := by
          simp only [ephemeralBase, ephemeralBytesPerProcess, wordSize, maxProcesses] at hp ⊢
          omega
        simp only [hend, hlayer, wrappingAdd_of_lt hsum, Bool.and_eq_true, decide_eq_true_eq] at h
        rw [Nat.add_mul, Nat.one_mul, ← Nat.add_assoc]
        exact ⟨h.1, h.2⟩
      · simp [pair, hslot, Pcb.empty, hend, wrappingAdd] at h

theorem pair_separate : pair.Separate := by
  intro p q a b hp hq heq
  obtain rfl : a = b := heq
  obtain ⟨hple, hplt⟩ := pair_layer hp
  obtain ⟨hqle, hqlt⟩ := pair_layer hq
  refine ⟨Fin.ext ?_, rfl⟩
  simp only [ephemeralBytesPerProcess] at hple hplt hqle hqlt
  omega

/-- The buffer at the beginning of the layer of a process. -/
def layerStart (p : Pid) : Nat := (pair.table p).layerBase

/-- Process 1 waits for a message, gets one from process 2, changes a byte and
sends the message back. -/
def echo : List Action :=
  [.call (.receiveIpc (layerStart 1)), .call (.sendIpc 1 (layerStart 2)), .resume,
    .call (.store (layerStart 1) 7), .call (.replyIpc 2 (layerStart 1)), .call .yieldCpu, .resume]

theorem rendezvous_exactly_once_echo :
    ∃ h k, Run CleanStep pair h k ∧
      observed h =
        [.receiving 1, .sent 2 1 (List.replicate 64 2), .delivered 2 1 (List.replicate 64 2),
          .received 1 2 (List.replicate 64 2), .replied 1 2 (7 :: List.replicate 63 2),
          .sendReturned 2 0 (7 :: List.replicate 63 2)] ∧
      InSessions (Exchange.events 2) (senderView 2 (observed h)) := by
  have hseen : (acts (fun k a => a.OnlyMessages ∧ k.StaysInLayer a) pair echo).map
      (fun x => observed x.1) = some
        [.receiving 1, .sent 2 1 (List.replicate 64 2), .delivered 2 1 (List.replicate 64 2),
          .received 1 2 (List.replicate 64 2), .replied 1 2 (7 :: List.replicate 63 2),
          .sendReturned 2 0 (7 :: List.replicate 63 2)] := by
    decide +kernel
  obtain ⟨⟨h, k⟩, hacts, hobserved⟩ := Option.map_eq_some_iff.mp hseen
  have hrun := (run_of_acts hacts).mono fun _ _ _ hstep =>
    (⟨⟨hstep.1, hstep.2.1⟩, hstep.2.2⟩ : MessageStep _ _ _ ∧ _)
  have hclean : Run CleanStep pair h k := (pair_separate.run_clean pair_fresh hrun).1
  exact ⟨h, k, hclean, hobserved, (rendezvous_exactly_once pair_fresh hclean).1 2⟩

/-- The first address behind the layers of the slots, below the same entry of the top
level as they are. -/
def imageBase : Nat := ephemeralBase + maxProcesses * ephemeralBytesPerProcess

/-- Two processes loaded from one image by a process whose layer has a page: the entry
of the top level that all three have leads to the same tables, and the page of the
image is the same frame for both. -/
def twins : Kernel where
  table p := if p = 1 ∨ p = 2 then provisionPcbElf p imageBase 0 0 imageBase 4096 0 else .empty
  current := 1
  mem := ⟨fun _ addr => addr, fun addr => UInt8.ofNat (addr - imageBase)⟩
  tickCount := 0

theorem twins_fresh : twins.Fresh where
  current_live := rfl
  idle p hlive := by
    by_cases hp : p = 1 ∨ p = 2
    · simp [twins, hp, provisionPcbElf]
    · simp [twins, hp, Pcb.isLive, Pcb.empty] at hlive

/-- Process 1 waits for a message in the middle of the buffer that process 2 sends. -/
def overlap : List Action := [.call (.receiveIpc (imageBase + 32)), .call (.sendIpc 1 imageBase)]

/-- The message that arrives is not the one that was sent: the copy reads the second half of the
buffer after it has stored the first half there. -/
theorem not_rendezvous_exactly_once :
    twins.Fresh ∧ ∃ h k, Run MessageStep twins h k ∧
      ¬InSessions (Exchange.events 2) (senderView 2 (observed h)) := by
  have hseen : (acts (fun _ a => a.OnlyMessages) twins overlap).map
      (fun x => senderView 2 (observed x.1)) = some
        [.sent 2 1 ((List.range 64).map UInt8.ofNat),
          .delivered 2 1 ((List.range 64).map fun i => UInt8.ofNat (i % 32))] := by
    decide +kernel
  obtain ⟨⟨h, k⟩, hacts, hview⟩ := Option.map_eq_some_iff.mp hseen
  refine ⟨twins_fresh, h, k, run_of_acts hacts, fun hin => ?_⟩
  rw [hview] at hin
  obtain ⟨x, hx⟩ := hin.isPrefix fun x => by simp [Exchange.events]
  simp only [Exchange.events, List.cons_prefix_cons, Event.sent.injEq, Event.delivered.injEq] at hx
  have hsame := hx.1.2.2.trans hx.2.1.2.2.symm
  revert hsame
  decide

end Kernel

end PureOS.Process
