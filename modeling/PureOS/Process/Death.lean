import PureOS.Process.Rendezvous

set_option autoImplicit false

/-!
# Process: messages and death

`exit_process` and `kill_process` mark a slot and leave the processes alone that
are blocked on it, and a later creation may give the slot to another process.
Runs in which nobody dies while somebody waits for it are the runs in which no
live process is left blocked on a dead one, and in them every message and every
reply is matched with the process it was addressed to.
-/

namespace PureOS.Process

open PureOS.Foundation

/-- The process a blocked process waits for. -/
def Pcb.WaitsFor (p : Pcb) (q : Pid) : Prop :=
  p.state = .blockedOnSend q ∨ p.state = .blockedOnReply q

theorem Pcb.not_waitsFor_of_runnable {p : Pcb} (h : p.state = .runnable) (q : Pid) :
    ¬p.WaitsFor q := by
  simp [WaitsFor, h]

theorem Pcb.not_waitsFor_of_blockedOnReceive {p : Pcb} (h : p.state = .blockedOnReceive)
    (q : Pid) : ¬p.WaitsFor q := by
  simp [WaitsFor, h]

/-- A process that waits for another is live. -/
theorem Pcb.WaitsFor.isLive {p : Pcb} {q : Pid} (h : p.WaitsFor q) : p.isLive = true := by
  rcases h with h | h
  · exact isLive_of_blockedOnSend h
  · exact isLive_of_blockedOnReply h

/-! ## Which process a message was addressed to -/

/-- A new send of `p`, or a new process in one of the two slots. -/
def Event.renews (p q : Pid) : Event → Bool
  | .sent src _ _ => src = p
  | .created pid => pid = p || pid = q
  | _ => false

/-- The last send of `p` is to `q`, and since then neither slot was given to a new
process. -/
def Pending (p q : Pid) (es : List Event) : Prop :=
  ∃ msg, (es.filter (Event.renews p q)).getLast? = some (.sent p q msg)

/-- A delivery and a reply need a pending message between the same processes. -/
def Event.Suits (before : List Event) : Event → Prop
  | .delivered src dst _ => Pending src dst before
  | .replied src dst _ => Pending dst src before
  | _ => True

/-- Every delivery and every reply is matched with the process the message was
addressed to, and not with a later one in its slot. -/
def Matched (es : List Event) : Prop := ∀ before e, before ++ [e] <+: es → e.Suits before

theorem Pending.append {p q : Pid} {es new : List Event} (h : Pending p q es)
    (harmless : ∀ e ∈ new, e.renews p q = false) : Pending p q (es ++ new) := by
  obtain ⟨msg, hlast⟩ := h
  have hnew : new.filter (Event.renews p q) = [] :=
    List.filter_eq_nil_iff.mpr fun e he => by simp [harmless e he]
  refine ⟨msg, ?_⟩
  rw [List.filter_append, hnew, List.append_nil, hlast]

theorem Pending.of_sent (p q : Pid) (msg : List UInt8) (es : List Event) :
    Pending p q (es ++ [.sent p q msg]) :=
  ⟨msg, by simp [Event.renews]⟩

theorem Matched.nil : Matched [] := by
  intro before e hprefix
  exact absurd (List.prefix_nil.mp hprefix) (by simp)

theorem Matched.snoc {es : List Event} {e : Event} (h : Matched es) (suits : e.Suits es) :
    Matched (es ++ [e]) := by
  intro before e' hprefix
  rcases List.prefix_concat_iff.mp hprefix with heq | hshort
  · obtain ⟨rfl, hlast⟩ := List.append_inj' heq rfl
    obtain rfl : e' = e := List.singleton_inj.mp hlast
    exact suits
  · exact h before e' hshort

/-- An event that neither sends, nor delivers, nor replies, nor creates. -/
def Event.Quiet : Event → Prop
  | .receiving _ | .received _ _ _ | .sendReturned _ _ _ => True
  | _ => False

theorem Event.Quiet.suits {e : Event} (h : e.Quiet) (es : List Event) : e.Suits es := by
  cases e with
  | receiving | received | sendReturned => exact trivial
  | sent | delivered | replied | created => exact h.elim

theorem Event.Quiet.renews_eq {e : Event} (h : e.Quiet) (p q : Pid) : e.renews p q = false := by
  cases e with
  | receiving | received | sendReturned => exact rfl
  | sent | delivered | replied | created => exact h.elim

theorem Matched.append_quiet {es new : List Event} (h : Matched es)
    (quiet : ∀ e ∈ new, e.Quiet) : Matched (es ++ new) := by
  induction new generalizing es with
  | nil => rwa [List.append_nil]
  | cons e rest ih =>
      have hfirst : Matched (es ++ [e]) := h.snoc ((quiet e List.mem_cons_self).suits es)
      have hrest := ih hfirst fun e' he' => quiet e' (List.mem_cons_of_mem e he')
      rwa [List.append_assoc, List.singleton_append] at hrest

namespace Kernel

/-! ## The condition -/

/-- No live process is blocked on a process that is not live. -/
def NoneStranded (k : Kernel) : Prop :=
  ∀ p q, (k.table p).WaitsFor q → (k.table q).isLive = true

/-- Some other process waits for this one. -/
def Awaited (k : Kernel) (d : Pid) : Prop := ∃ p, p ≠ d ∧ (k.table p).WaitsFor d

/-- Nobody dies while another process waits for it. -/
def Sparing (k : Kernel) : Action → Prop
  | .call (.exitProcess _) => ¬k.Awaited k.current
  | .call (.killProcess pid) => k.Killable pid → ∀ d : Pid, d.val = pid → ¬k.Awaited d
  | _ => True

/-- A step in which nobody dies while another process waits for it. -/
def SparingStep (k : Kernel) (l : Action × List Event) (k' : Kernel) : Prop :=
  Step k l k' ∧ k.Sparing l.1

/-! ## The invariant -/

/-- What a process waits for is live, and its message is still on the way to the
process it was addressed to, in a buffer inside its layer. -/
structure Attached (es : List Event) (k : Kernel) (p : Pid) : Prop where
  target : ∀ q, (k.table p).WaitsFor q → (k.table q).isLive = true ∧ Pending p q es
  buffer : ∀ q, (k.table p).state = .blockedOnSend q →
    (k.table p).containsRange (k.table p).ipcBuffer ipcMessageSize = true

/-- What holds after every history of sparing steps. -/
structure Consistent (h : List (Action × List Event)) (k : Kernel) : Prop where
  current_live : (k.table k.current).isLive = true ∨ (k.table k.current).resume ≠ .running
  attached : ∀ p, Attached (observed h) k p
  matched : Matched (observed h)

/-- A process that waits for nobody. -/
theorem Attached.of_not_waiting {es : List Event} {k : Kernel} {p : Pid}
    (h : ∀ q, ¬(k.table p).WaitsFor q) : Attached es k p where
  target q hq := absurd hq (h q)
  buffer q hq := absurd (Or.inl hq) (h q)

/-- A process that goes on waiting as it did. -/
theorem Attached.keep {es new : List Event} {k k' : Kernel} {p : Pid} (h : Attached es k p)
    (state : (k'.table p).state = (k.table p).state)
    (buffer : (k.table p).containsRange (k.table p).ipcBuffer ipcMessageSize = true →
      (k'.table p).containsRange (k'.table p).ipcBuffer ipcMessageSize = true)
    (live : ∀ q, (k.table p).WaitsFor q → (k.table q).isLive = true →
      (k'.table q).isLive = true)
    (harmless : ∀ q, (k.table p).WaitsFor q → ∀ e ∈ new, e.renews p q = false) :
    Attached (es ++ new) k' p where
  target q hq := by
    have hq' : (k.table p).WaitsFor q := by
      unfold Pcb.WaitsFor at hq ⊢
      rwa [state] at hq
    obtain ⟨hlive, hpending⟩ := h.target q hq'
    exact ⟨live q hq' hlive, hpending.append (harmless q hq')⟩
  buffer q hq := by
    rw [state] at hq
    exact buffer (h.buffer q hq)

namespace Consistent

variable {h : List (Action × List Event)} {k k' : Kernel}

theorem noneStranded (hc : Consistent h k) : k.NoneStranded :=
  fun p q hwait => ((hc.attached p).target q hwait).1

/-- A step after which every process is in the state it was in. -/
theorem step_same (hc : Consistent h k) {a : Action} {es : List Event}
    (current_live : (k'.table k'.current).isLive = true ∨ (k'.table k'.current).resume ≠ .running)
    (table : ∀ r, ∃ resume count tick, k'.table r =
      { k.table r with resume := resume, switchCount := count, startTick := tick })
    (quiet : ∀ e ∈ es, e.Quiet) : Consistent (h ++ [(a, es)]) k' where
  current_live := current_live
  attached p := by
    rw [observed_snoc]
    refine (hc.attached p).keep ?_ ?_ ?_ fun q _ e he => (quiet e he).renews_eq p q
    · obtain ⟨resume, count, tick, htable⟩ := table p
      rw [htable]
    · intro hbuffer
      obtain ⟨resume, count, tick, htable⟩ := table p
      rw [htable]
      exact hbuffer
    · intro q _ hlive
      obtain ⟨resume, count, tick, htable⟩ := table q
      rw [htable]
      exact hlive
  matched := by
    rw [observed_snoc]
    exact hc.matched.append_quiet quiet

/-- The scheduler does not matter. -/
theorem blockCurrent (hc : Consistent h k) : Consistent h (k.blockCurrent k.current) where
  current_live := by
    rcases k.blockCurrent_current with hrun | hsame
    · exact Or.inl (Pcb.isLive_of_runnable hrun)
    · obtain ⟨count, tick, htable⟩ := k.blockCurrent_table k.current k.current
      rw [hsame, htable]
      exact hc.current_live
  attached p := by
    have hkeep : Attached (observed h ++ []) (k.blockCurrent k.current) p := by
      refine (hc.attached p).keep (k.blockCurrent_state k.current p) ?_ ?_ ?_
      · intro hbuffer
        obtain ⟨count, tick, htable⟩ := k.blockCurrent_table k.current p
        rw [htable]
        exact hbuffer
      · intro q _ hlive
        obtain ⟨count, tick, htable⟩ := k.blockCurrent_table k.current q
        rw [htable]
        exact hlive
      · intro q _ e he
        exact absurd he List.not_mem_nil
    rwa [List.append_nil] at hkeep
  matched := hc.matched

theorem refuse (hc : Consistent h k) (a : Action) (err : Int) :
    Consistent (h ++ [(a, (k.refuse err).events)]) (k.refuse err).kernel :=
  hc.step_same hc.current_live (fun _ => ⟨_, _, _, rfl⟩) fun _ he => absurd he List.not_mem_nil

/-- A step that changes some control blocks.  The touched processes are attached as
they should be and go on living, or nobody waits for them; nothing is seen that
disturbs the waiting of the others. -/
theorem step (hc : Consistent h k) {a : Action} {es : List Event} (touched : List Pid)
    (current_live : (k'.table k'.current).isLive = true ∨ (k'.table k'.current).resume ≠ .running)
    (other : ∀ r, r ∉ touched → k'.table r = k.table r)
    (attached : ∀ r ∈ touched, Attached (observed h ++ es) k' r)
    (lives : ∀ r ∈ touched, (k'.table r).isLive = true ∨ ¬k.Awaited r)
    (harmless : ∀ r, r ∉ touched → ∀ q, (k.table r).WaitsFor q → ∀ e ∈ es, e.renews r q = false)
    (matched : Matched (observed h ++ es)) : Consistent (h ++ [(a, es)]) k' where
  current_live := current_live
  attached p := by
    rw [observed_snoc]
    by_cases hp : p ∈ touched
    · exact attached p hp
    · refine (hc.attached p).keep ?_ ?_ ?_ (harmless p hp)
      · rw [other p hp]
      · rw [other p hp]
        exact id
      · intro q hwait hlive
        by_cases hq : q ∈ touched
        · rcases lives q hq with hlive' | hnone
          · exact hlive'
          · have hne : p ≠ q := fun heq => hp (heq ▸ hq)
            exact absurd ⟨p, hne, hwait⟩ hnone
        · rw [other q hq]
          exact hlive
  matched := by
    rw [observed_snoc]
    exact matched

/-! ### Messages -/

theorem sendNow (hc : Consistent h k) (a : Action) {target : Pid} {msgPtr : Nat}
    (hne : k.current ≠ target) (msg delivered : List UInt8) :
    Consistent (h ++ [(a, [.sent k.current target msg, .delivered k.current target delivered])])
      (k.sendNow target msgPtr) := by
  have hself : ((k.sendNow target msgPtr).table k.current).state = .blockedOnReply target := by
    rw [Kernel.sendNow, setPcb_self]
  have htarget : ((k.sendNow target msgPtr).table target).state = .runnable := by
    rw [Kernel.sendNow, setPcb_of_ne _ _ (Ne.symm hne), setPcb_self]
  have hpending := Pending.of_sent k.current target msg (observed h)
  refine hc.step [k.current, target] ?_ ?_ ?_ ?_ ?_ ?_
  · exact Or.inl (Pcb.isLive_of_blockedOnReply hself)
  · intro r hr
    rw [List.mem_pair, not_or] at hr
    rw [Kernel.sendNow, setPcb_of_ne _ _ hr.1, setPcb_of_ne _ _ hr.2, copied_table]
  · intro r hr
    rcases List.mem_pair.mp hr with rfl | rfl
    · refine ⟨fun q hq => ?_, fun q hq => ?_⟩
      · unfold Pcb.WaitsFor at hq
        rw [hself] at hq
        rcases hq with hq | hq
        · cases hq
        · cases hq
          refine ⟨Pcb.isLive_of_runnable htarget, ?_⟩
          rw [List.append_cons]
          exact hpending.append fun e he => List.mem_singleton.mp he ▸ rfl
      · rw [hself] at hq
        cases hq
    · exact .of_not_waiting fun q => Pcb.not_waitsFor_of_runnable htarget q
  · intro r hr
    rcases List.mem_pair.mp hr with rfl | rfl
    · exact Or.inl (Pcb.isLive_of_blockedOnReply hself)
    · exact Or.inl (Pcb.isLive_of_runnable htarget)
  · intro r hr q _ e he
    rw [List.mem_pair, not_or] at hr
    rcases List.mem_pair.mp he with rfl | rfl
    · exact decide_eq_false (Ne.symm hr.1)
    · rfl
  · rw [List.append_cons]
    have hsent : Matched (observed h ++ [.sent k.current target msg]) := hc.matched.snoc trivial
    exact hsent.snoc hpending

theorem sendLater (hc : Consistent h k) (a : Action) {target : Pid} {msgPtr : Nat}
    (hne : k.current ≠ target) (live : (k.table target).isLive = true)
    (buffer : (k.table k.current).containsRange msgPtr ipcMessageSize = true)
    (msg : List UInt8) :
    Consistent (h ++ [(a, [.sent k.current target msg])]) (k.sendLater target msgPtr) := by
  have hself : (k.sendLater target msgPtr).table k.current =
      { k.table k.current with
        ipcBuffer := msgPtr, state := .blockedOnSend target, resume := .sendIpc msgPtr } := by
    rw [Kernel.sendLater, setPcb_self]
  have hstate : ((k.sendLater target msgPtr).table k.current).state = .blockedOnSend target := by
    rw [hself]
  have htarget : (k.sendLater target msgPtr).table target = k.table target :=
    setPcb_of_ne _ _ (Ne.symm hne)
  refine hc.step [k.current] ?_ ?_ ?_ ?_ ?_ ?_
  · exact Or.inl (Pcb.isLive_of_blockedOnSend hstate)
  · intro r hr
    exact setPcb_of_ne _ _ (fun heq => hr (List.mem_singleton.mpr heq))
  · intro r hr
    obtain rfl := List.mem_singleton.mp hr
    refine ⟨fun q hq => ?_, fun q hq => ?_⟩
    · unfold Pcb.WaitsFor at hq
      rw [hstate] at hq
      rcases hq with hq | hq
      · cases hq
        rw [htarget]
        exact ⟨live, Pending.of_sent k.current target msg (observed h)⟩
      · cases hq
    · rw [hself]
      exact buffer
  · intro r hr
    obtain rfl := List.mem_singleton.mp hr
    exact Or.inl (Pcb.isLive_of_blockedOnSend hstate)
  · intro r hr q _ e he
    obtain rfl := List.mem_singleton.mp he
    exact decide_eq_false fun heq => hr (List.mem_singleton.mpr heq.symm)
  · exact hc.matched.snoc trivial

theorem receiveNow (hc : Consistent h k) (a : Action) {sender : Pid} {msgPtr : Nat}
    (live : (k.table k.current).isLive = true)
    (buffer : (k.table k.current).containsRange msgPtr ipcMessageSize = true)
    (waits : (k.table sender).state = .blockedOnSend k.current) {es : List Event}
    (delivered received : List UInt8)
    (hes : es = [.receiving k.current, .delivered sender k.current delivered,
      .received k.current sender received]) :
    Consistent (h ++ [(a, es)]) (k.receiveNow sender msgPtr) := by
  obtain ⟨_, hpending⟩ := (hc.attached sender).target k.current (Or.inl waits)
  have hsender : ((k.receiveNow sender msgPtr).table sender).state = .blockedOnReply k.current := by
    rw [Kernel.receiveNow, setPcb_self]
  have hself : k.current ≠ sender → (k.receiveNow sender msgPtr).table k.current =
      { k.table k.current with ipcBuffer := msgPtr } := by
    intro hne
    rw [Kernel.receiveNow, setPcb_of_ne _ _ hne, setPcb_self, copied_table]
  have hlive : ((k.receiveNow sender msgPtr).table k.current).isLive = true := by
    rcases eq_or_ne k.current sender with heq | hne
    · rw [heq]
      exact Pcb.isLive_of_blockedOnReply hsender
    · rw [hself hne]
      exact live
  have hquiet : ∀ q, ∀ e ∈ es, ∀ r, e.renews r q = false := by
    intro q e he r
    subst hes
    simp only [List.mem_cons, List.not_mem_nil, or_false] at he
    rcases he with rfl | rfl | rfl <;> rfl
  refine hc.step [sender, k.current] (Or.inl hlive) ?_ ?_ ?_ (fun r _ q _ e he => hquiet q e he r) ?_
  · intro r hr
    rw [List.mem_pair, not_or] at hr
    rw [Kernel.receiveNow, setPcb_of_ne _ _ hr.1, setPcb_of_ne _ _ hr.2, copied_table]
  · intro r hr
    rcases eq_or_ne r sender with rfl | hne
    · refine ⟨fun q hq => ?_, fun q hq => ?_⟩
      · unfold Pcb.WaitsFor at hq
        rw [hsender] at hq
        rcases hq with hq | hq
        · cases hq
        · cases hq
          exact ⟨hlive, hpending.append fun e he => hquiet _ e he r⟩
      · rw [hsender] at hq
        cases hq
    · obtain rfl : r = k.current := (List.mem_pair.mp hr).resolve_left hne
      refine (hc.attached k.current).keep ?_ ?_ ?_ fun q _ e he => hquiet q e he k.current
      · rw [hself hne]
      · rw [hself hne]
        exact fun _ => buffer
      · intro q _ hq
        rcases eq_or_ne q sender with rfl | hqs
        · exact Pcb.isLive_of_blockedOnReply hsender
        · rcases eq_or_ne q k.current with rfl | hqc
          · exact hlive
          · rw [Kernel.receiveNow, setPcb_of_ne _ _ hqs, setPcb_of_ne _ _ hqc, copied_table]
            exact hq
  · intro r hr
    rcases List.mem_pair.mp hr with rfl | rfl
    · exact Or.inl (Pcb.isLive_of_blockedOnReply hsender)
    · exact Or.inl hlive
  · subst hes
    have hreceiving : Matched (observed h ++ [.receiving k.current]) := hc.matched.snoc trivial
    have hdelivered := hreceiving.snoc (e := .delivered sender k.current delivered)
      (hpending.append fun e he => List.mem_singleton.mp he ▸ rfl)
    have hall := hdelivered.snoc (e := .received k.current sender received) trivial
    simpa using hall

theorem receiveLater (hc : Consistent h k) (a : Action) (msgPtr : Nat) :
    Consistent (h ++ [(a, [.receiving k.current])]) (k.receiveLater msgPtr) := by
  have hstate : ((k.receiveLater msgPtr).table k.current).state = .blockedOnReceive := by
    rw [Kernel.receiveLater, setPcb_self]
  refine hc.step [k.current] ?_ ?_ ?_ ?_ ?_ ?_
  · exact Or.inl (Pcb.isLive_of_blockedOnReceive hstate)
  · intro r hr
    exact setPcb_of_ne _ _ (fun heq => hr (List.mem_singleton.mpr heq))
  · intro r hr
    obtain rfl := List.mem_singleton.mp hr
    exact .of_not_waiting fun q => Pcb.not_waitsFor_of_blockedOnReceive hstate q
  · intro r hr
    obtain rfl := List.mem_singleton.mp hr
    exact Or.inl (Pcb.isLive_of_blockedOnReceive hstate)
  · intro r _ q _ e he
    exact List.mem_singleton.mp he ▸ rfl
  · exact hc.matched.snoc trivial

theorem replyNow (hc : Consistent h k) (a : Action) {target : Pid} {msgPtr : Nat}
    (current_live : (k.table k.current).isLive = true)
    (waits : (k.table target).state = .blockedOnReply k.current) (msg : List UInt8) :
    Consistent (h ++ [(a, [.replied k.current target msg])]) (k.replyNow target msgPtr) := by
  obtain ⟨_, hpending⟩ := (hc.attached target).target k.current (Or.inr waits)
  have htarget : ((k.replyNow target msgPtr).table target).state = .runnable := by
    rw [Kernel.replyNow, setPcb_self]
  have hother : ∀ r, r ≠ target → (k.replyNow target msgPtr).table r = k.table r := by
    intro r hr
    rw [Kernel.replyNow, setPcb_of_ne _ _ hr, copied_table]
  refine hc.step [target] ?_ ?_ ?_ ?_ ?_ ?_
  · refine Or.inl ?_
    rcases eq_or_ne k.current target with heq | hne
    · rw [show (k.replyNow target msgPtr).current = target from heq]
      exact Pcb.isLive_of_runnable htarget
    · rw [show (k.replyNow target msgPtr).current = k.current from rfl, hother _ hne]
      exact current_live
  · exact fun r hr => hother r (fun heq => hr (List.mem_singleton.mpr heq))
  · intro r hr
    obtain rfl := List.mem_singleton.mp hr
    exact .of_not_waiting fun q => Pcb.not_waitsFor_of_runnable htarget q
  · intro r hr
    obtain rfl := List.mem_singleton.mp hr
    exact Or.inl (Pcb.isLive_of_runnable htarget)
  · intro r _ q _ e he
    exact List.mem_singleton.mp he ▸ rfl
  · exact hc.matched.snoc hpending

theorem sendIpc (hc : Consistent h k) (a : Action)
    (targetProc msgPtr : Nat) :
    Consistent (h ++ [(a, (k.sendIpc targetProc msgPtr).events)])
      (k.sendIpc targetProc msgPtr).kernel := by
  rcases k.sendIpc_cases targetProc msgPtr with ⟨err, _, heq, _⟩ |
    ⟨target, ⟨_, hne, _⟩, _, _, heq⟩ | ⟨target, ⟨_, hne, htarget⟩, buffer, heq⟩
  · rw [heq]
    exact hc.refuse a err
  · rw [heq]
    exact (hc.sendNow a hne _ _).blockCurrent
  · rw [heq]
    exact (hc.sendLater a hne htarget buffer _).blockCurrent

theorem receiveIpc (hc : Consistent h k) (live : (k.table k.current).isLive = true) (a : Action)
    (msgPtr : Nat) :
    Consistent (h ++ [(a, (k.receiveIpc msgPtr).events)]) (k.receiveIpc msgPtr).kernel := by
  rcases k.receiveIpc_cases msgPtr with ⟨err, _, heq, _⟩ | ⟨sender, waits, hbad, _⟩ |
    ⟨sender, buffer, pending, heq⟩ | ⟨_, heq⟩
  · rw [heq]
    exact hc.refuse a err
  · have hgood := (hc.attached sender).buffer k.current waits
    rw [hbad] at hgood
    cases hgood
  · rw [heq]
    exact hc.receiveNow a live buffer (pendingSender_eq_some pending) _ _ rfl
  · rw [heq]
    exact (hc.receiveLater a msgPtr).blockCurrent

theorem replyIpc (hc : Consistent h k) (live : (k.table k.current).isLive = true) (a : Action)
    (targetProc msgPtr : Nat) :
    Consistent (h ++ [(a, (k.replyIpc targetProc msgPtr).events)])
      (k.replyIpc targetProc msgPtr).kernel := by
  rcases k.replyIpc_cases targetProc msgPtr with
    ⟨err, _, heq, _⟩ | ⟨target, _, waits, _, heq⟩
  · rw [heq]
    exact hc.refuse a err
  · rw [heq]
    exact hc.replyNow a live waits _

/-! ### Creation -/

/-- A new process in a slot that nobody waits for. -/
theorem fill (hc : Consistent h k) (live : (k.table k.current).isLive = true) (a : Action)
    {i : Pid} (hfills : k.Fills i k') : Consistent (h ++ [(a, [.created i])]) k' := by
  have hdead : (k.table i).isLive = false := (Table.findFreeSlot_eq_some hfills.free).2
  have hcur : k.current ≠ i := by
    intro heq
    rw [heq, hdead] at live
    cases live
  have hnobody : ∀ p, ¬(k.table p).WaitsFor i := by
    intro p hwait
    have hlive := hc.noneStranded p i hwait
    rw [hdead] at hlive
    cases hlive
  refine hc.step [i] ?_ ?_ ?_ ?_ ?_ (hc.matched.snoc trivial)
  · rw [hfills.current, hfills.other _ hcur]
    exact Or.inl live
  · exact fun r hr => hfills.other r fun heq => hr (List.mem_singleton.mpr heq)
  · intro r hr
    obtain rfl := List.mem_singleton.mp hr
    refine .of_not_waiting fun q => ?_
    rcases hfills.state with hstate | hstate <;> simp [Pcb.WaitsFor, hstate]
  · intro r hr
    obtain rfl := List.mem_singleton.mp hr
    refine Or.inr ?_
    intro hawaited
    obtain ⟨p, _, hwait⟩ := hawaited
    exact hnobody p hwait
  · intro r hr q hwait e he
    obtain rfl := List.mem_singleton.mp he
    have hir : i ≠ r := fun heq => hr (List.mem_singleton.mpr heq.symm)
    have hiq : i ≠ q := fun heq => hnobody r (heq ▸ hwait)
    simp [Event.renews, hir, hiq]

theorem create (hc : Consistent h k) (live : (k.table k.current).isLive = true) (a : Action)
    (new : NewProcess) (memory : AddressSpaces) :
    Consistent (h ++ [(a, (k.create new memory).events)]) (k.create new memory).kernel := by
  rcases k.create_cases new memory with ⟨_, heq⟩ | ⟨i, hfills, hevents, _⟩
  · rw [heq]
    exact hc.refuse a _
  · rw [hevents]
    exact hc.fill live a hfills

theorem createThread (hc : Consistent h k) (live : (k.table k.current).isLive = true) (a : Action)
    (entry pml4 userStack stack : Nat) (memory : AddressSpaces) :
    Consistent (h ++ [(a, (k.createThread entry pml4 userStack stack memory).events)])
      (k.createThread entry pml4 userStack stack memory).kernel := by
  rcases k.createThread_cases entry pml4 userStack stack memory with
    ⟨_, heq⟩ | ⟨i, hfills, hevents⟩
  · rw [heq]
    exact hc.refuse a _
  · rw [hevents]
    exact hc.fill live a hfills

/-! ### Death -/

/-- The death of a process that nobody waits for. -/
theorem die (hc : Consistent h k) (a : Action) {d : Pid}
    (current_live : (k'.table k'.current).isLive = true ∨ (k'.table k'.current).resume ≠ .running)
    (other : ∀ r, r ≠ d → k'.table r = k.table r) (dead : (k'.table d).state = .exited)
    (nobody : ¬k.Awaited d) : Consistent (h ++ [(a, [])]) k' := by
  refine hc.step [d] current_live ?_ ?_ ?_ ?_ ?_
  · exact fun r hr => other r fun heq => hr (List.mem_singleton.mpr heq)
  · intro r hr
    obtain rfl := List.mem_singleton.mp hr
    refine .of_not_waiting fun q hwait => ?_
    have hlive := hwait.isLive
    simp [Pcb.isLive, dead] at hlive
  · intro r hr
    obtain rfl := List.mem_singleton.mp hr
    exact Or.inr nobody
  · intro r _ q _ e he
    exact absurd he List.not_mem_nil
  · rw [List.append_nil]
    exact hc.matched

theorem exitProcess (hc : Consistent h k) (a : Action) (code : Nat)
    (nobody : ¬k.Awaited k.current) :
    Consistent (h ++ [(a, (k.exitProcess code).events)]) (k.exitProcess code).kernel := by
  have hgone : Consistent (h ++ [(a, [])]) (k.setPcb k.current fun p =>
      { p with state := .exited, exitCode := code, framesHead := 0, resume := .exitProcess }) := by
    refine hc.die a ?_ (fun r hr => setPcb_of_ne k _ hr) ?_ nobody
    · refine Or.inr ?_
      rw [setPcb_current, setPcb_self]
      simp
    · rw [setPcb_self]
  exact hgone.blockCurrent

theorem killProcess (hc : Consistent h k) (a : Action) (pid : Nat)
    (nobody : k.Killable pid → ∀ d : Pid, d.val = pid → ¬k.Awaited d) :
    Consistent (h ++ [(a, (k.killProcess pid).events)]) (k.killProcess pid).kernel := by
  rcases k.killProcess_cases pid with ⟨_, heq⟩ | ⟨d, hd, hkill, hne, heq⟩
  · rw [heq]
    exact hc.refuse a 0
  · rw [heq]
    dsimp only
    refine hc.die a ?_ (fun r hr => setPcb_of_ne k _ hr) ?_ (nobody hkill d hd)
    · rw [setPcb_current, setPcb_of_ne k _ (Ne.symm hne)]
      exact hc.current_live
    · rw [setPcb_self]

/-- One sparing step. -/
theorem sparingStep (hc : Consistent h k) {l : Action × List Event}
    (hstep : SparingStep k l k') : Consistent (h ++ [l]) k' := by
  obtain ⟨a, es⟩ := l
  obtain ⟨hact, hsparing⟩ := hstep
  cases a with
  | call c =>
      obtain ⟨running, rfl, rfl⟩ := of_step_call hact
      have live : (k.table k.current).isLive = true :=
        hc.current_live.resolve_right (not_not_intro running)
      cases c with
      | store addr byte =>
          exact hc.step_same (Or.inl live) (fun _ => ⟨_, _, _, rfl⟩)
            fun _ he => absurd he List.not_mem_nil
      | yieldCpu =>
          refine hc.step_same ?_ (fun r => ?_) fun _ he => absurd he List.not_mem_nil
          · refine Or.inl ?_
            rcases k.yieldCpu_current with hnext | hsame
            · exact Pcb.isLive_of_runnable hnext
            · obtain ⟨resume, count, tick, htable, _⟩ := k.yieldCpu_table k.current
              rw [perform, hsame, htable]
              exact live
          · obtain ⟨resume, count, tick, htable, _⟩ := k.yieldCpu_table r
            exact ⟨resume, count, tick, htable⟩
      | sendIpc target ptr => exact hc.sendIpc _ target ptr
      | receiveIpc ptr => exact hc.receiveIpc live _ ptr
      | replyIpc target ptr => exact hc.replyIpc live _ target ptr
      | create new memory => exact hc.create live _ new memory
      | createThread entry pml4 userStack stack memory =>
          exact hc.createThread live _ entry pml4 userStack stack memory
      | exitProcess code => exact hc.exitProcess _ code hsparing
      | killProcess pid => exact hc.killProcess _ pid hsparing
  | resume =>
      obtain ⟨⟨hrun, _⟩, rfl, rfl⟩ := of_step_resume hact
      refine hc.step_same ?_ (fun r => ?_) fun e he => ?_
      · rw [setPcb_current, setPcb_self]
        exact Or.inl (Pcb.isLive_of_runnable hrun)
      · rcases eq_or_ne r k.current with rfl | hr
        · rw [setPcb_self]
          exact ⟨_, _, _, rfl⟩
        · rw [setPcb_of_ne _ _ hr]
          exact ⟨_, _, _, rfl⟩
      · cases hres : (k.table k.current).resume with
        | sendIpc ptr | receiveIpc ptr =>
            rw [hres] at he
            rw [List.mem_singleton.mp he]
            exact trivial
        | running | yieldCpu | exitProcess =>
            rw [hres] at he
            exact absurd he List.not_mem_nil
  | halt =>
      have hhalt : [] = es ∧ k.blockCurrent k.current = k' := by
        have := hact
        simp only [Step, act, Option.ite_none_right_eq_some, Option.some.injEq,
          Prod.mk.injEq] at this
        exact this.2
      obtain ⟨rfl, rfl⟩ := hhalt
      have hsame : Consistent (h ++ [(.halt, [])]) k :=
        hc.step_same hc.current_live (fun _ => ⟨_, _, _, rfl⟩)
          fun _ he => absurd he List.not_mem_nil
      exact hsame.blockCurrent

theorem of_run {k₀ : Kernel} (fresh : k₀.Fresh) (run : Run SparingStep k₀ h k) :
    Consistent h k := by
  refine run.invariant Consistent ?_ fun _ _ _ _ hc hstep => hc.sparingStep hstep
  refine ⟨Or.inl fresh.current_live, fun p => .of_not_waiting fun q hwait => ?_, .nil⟩
  exact Pcb.not_waitsFor_of_runnable (fresh.idle p hwait.isLive).1 q hwait

end Consistent

/-! ## Runs -/

/-- A process that is waited for and dead is a process left alone. -/
theorem not_noneStranded {k k' : Kernel} {d : Pid} (awaited : k.Awaited d)
    (other : ∀ r, r ≠ d → (k'.table r).state = (k.table r).state)
    (dead : (k'.table d).state = .exited) : ¬k'.NoneStranded := by
  intro hnone
  obtain ⟨p, hne, hwait⟩ := awaited
  have hwait' : (k'.table p).WaitsFor d := by
    unfold Pcb.WaitsFor at hwait ⊢
    rwa [other p hne]
  have hlive := hnone p d hwait'
  simp [Pcb.isLive, dead] at hlive

/-- A step after which nobody is left alone is a sparing step. -/
theorem sparing_of_noneStranded {k k' : Kernel} {l : Action × List Event} (hstep : Step k l k')
    (hnone : k'.NoneStranded) : k.Sparing l.1 := by
  obtain ⟨a, es⟩ := l
  cases a with
  | resume | halt => exact trivial
  | call c =>
      have hcall : (k.perform c).kernel = k' := by
        have hact := hstep
        simp only [Step, act, Option.ite_none_right_eq_some, Option.some.injEq,
          Prod.mk.injEq] at hact
        exact hact.2.2
      cases c with
      | exitProcess code =>
          intro hawaited
          refine not_noneStranded hawaited (fun r hr => ?_) ?_ hnone
          · rw [← hcall, perform, Kernel.exitProcess, blockCurrent_state, setPcb_of_ne _ _ hr]
          · rw [← hcall, perform, Kernel.exitProcess, blockCurrent_state, setPcb_self]
      | killProcess pid =>
          intro hkill d hd hawaited
          rcases k.killProcess_cases pid with ⟨hnot, _⟩ | ⟨d', hd', _, _, heq⟩
          · exact hnot hkill
          · obtain rfl : d' = d := Fin.ext (hd'.trans hd.symm)
            refine not_noneStranded hawaited (fun r hr => ?_) ?_ hnone
            · rw [← hcall, perform, heq, setPcb_of_ne _ _ hr]
            · rw [← hcall, perform, heq, setPcb_self]
      | store | yieldCpu | sendIpc | receiveIpc | replyIpc | create | createThread => exact trivial

/-- The runs in which nobody dies while another process waits for it are exactly
the runs in which no state leaves a live process blocked on a dead one; and in them
every delivery and every reply is matched with the process that the message was
addressed to. -/
theorem ipc_survives_sparing_deaths {k₀ k : Kernel} {h : List (Action × List Event)}
    (fresh : k₀.Fresh) :
    (Run SparingStep k₀ h k ↔
      Run (fun k l k' => Step k l k' ∧ k'.NoneStranded) k₀ h k) ∧
    (Run SparingStep k₀ h k → k.NoneStranded ∧ Matched (observed h)) := by
  refine ⟨⟨fun run => ?_, fun run => ?_⟩, fun run => ?_⟩
  · induction run with
    | nil => exact .nil
    | snoc run last ih =>
        have hc := Consistent.of_run fresh (.snoc run last)
        exact .snoc ih ⟨last.1, hc.noneStranded⟩
  · exact run.mono fun s l s' hstep => ⟨hstep.1, sparing_of_noneStranded hstep.1 hstep.2⟩
  · have hc := Consistent.of_run fresh run
    exact ⟨hc.noneStranded, hc.matched⟩

/-- Three processes in their own code. -/
def trio : Kernel where
  table p := if p.val < 3 then provisionPcb p 0 0 0 0 else .empty
  current := 1
  mem := numbered
  tickCount := 0

theorem trio_fresh : trio.Fresh where
  current_live := rfl
  idle p hlive := by
    by_cases hp : p.val < 3
    · simp [trio, hp, provisionPcb]
    · simp [trio, hp, Pcb.isLive, Pcb.empty] at hlive

theorem ipc_survives_sparing_deaths_kill :
    ∃ h k, Run SparingStep trio h k ∧ (k.table 2).state = .exited ∧ k.NoneStranded ∧
      Matched (observed h) := by
  have hsparing : trio.Sparing (.call (.killProcess 2)) := by
    intro _ d _ hawaited
    obtain ⟨p, _, hwait⟩ := hawaited
    exact Pcb.not_waitsFor_of_runnable (trio_fresh.idle p hwait.isLive).1 d hwait
  have hrun : Run SparingStep trio _ _ := .snoc .nil ⟨step_call rfl (.killProcess 2), hsparing⟩
  have hexited : ((trio.perform (.killProcess 2)).kernel.table 2).state = .exited := by
    decide +kernel
  exact ⟨_, _, hrun, hexited, (ipc_survives_sparing_deaths trio_fresh).2 hrun⟩

/-- Process 1 sends to process 2, which yields; process 0 kills process 2. -/
def desertion : List Action :=
  [.call (.sendIpc 2 (trio.table 1).layerBase), .call .yieldCpu, .call (.killProcess 2)]

/-- Process 0 puts a new process into slot 2, which receives. -/
def usurpation : List Action :=
  desertion ++ [.call (.create (.plain 0 0 0) numbered), .call .yieldCpu,
    .call (.receiveIpc (trio.table 2).layerBase)]

/-- Nobody repairs the sender of a dead receiver, and the next process in the slot
gets the message. -/
theorem ipc_does_not_survive_kill :
    trio.Fresh ∧ (∃ h k, Run Step trio h k ∧ ¬k.NoneStranded) ∧
      (∃ h k, Run Step trio h k ∧ ¬Matched (observed h)) := by
  refine ⟨trio_fresh, ?_, ?_⟩
  · have hstates : (acts (fun _ _ => True) trio desertion).map
        (fun x => ((x.2.table 1).state, (x.2.table 2).state)) =
          some (.blockedOnSend 2, .exited) := by
      decide +kernel
    obtain ⟨⟨h, k⟩, hacts, hseen⟩ := Option.map_eq_some_iff.mp hstates
    have hsender : (k.table 1).state = .blockedOnSend 2 := congrArg Prod.fst hseen
    have hdead : (k.table 2).state = .exited := congrArg Prod.snd hseen
    have hrun := run_of_acts hacts
    refine ⟨h, k, hrun.mono fun _ _ _ hstep => hstep.1, fun hnone => ?_⟩
    have hlive := hnone 1 2 (Or.inl hsender)
    simp [Pcb.isLive, hdead] at hlive
  · have hevents : (acts (fun _ _ => True) trio usurpation).map (fun x => observed x.1) = some
        [.sent 1 2 (List.replicate 64 1), .created 2, .receiving 2,
          .delivered 1 2 (List.replicate 64 1), .received 2 1 (List.replicate 64 1)] := by
      decide +kernel
    obtain ⟨⟨h, k⟩, hacts, hseen⟩ := Option.map_eq_some_iff.mp hevents
    have hrun := run_of_acts hacts
    refine ⟨h, k, hrun.mono fun _ _ _ hstep => hstep.1, fun hmatched => ?_⟩
    rw [hseen] at hmatched
    obtain ⟨msg, hlast⟩ := hmatched [.sent 1 2 (List.replicate 64 1), .created 2, .receiving 2]
      (.delivered 1 2 (List.replicate 64 1)) ⟨[.received 2 1 (List.replicate 64 1)], rfl⟩
    have hcreated : ([.sent 1 2 (List.replicate 64 1), .created 2, .receiving 2].filter
        (Event.renews 1 2)).getLast? = some (.created 2) := by
      decide
    rw [hcreated] at hlast
    cases hlast

end Kernel

end PureOS.Process
