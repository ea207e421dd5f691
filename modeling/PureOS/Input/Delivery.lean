import PureOS.Foundation.Run
import PureOS.Input.Ps2

set_option autoImplicit false

/-!
# Input: which driver gets which byte

A poll takes whatever is first in the queue, and drops what is not for its driver.  While every
poll finds only bytes of its own, each byte that has arrived is in the queue or was given to its
driver, once and in the order of arrival.
-/

namespace PureOS.Input

open PureOS.Foundation

/-- The controller and its two drivers. -/
structure Ps2 where
  ctl : Controller
  kbd : Keyboard
  mouse : Mouse

/-- The calls that take bytes from the queue.  Each comes with what arrives during it. -/
inductive PollCall where
  | keyboardPoll (ticks : List Tick)
  | readKey (ticks : List Tick)
  | mousePoll (screen : Screen) (ticks : List Tick)

namespace Ps2

/-- What a call does. -/
def call (s : Ps2) : PollCall → Ps2
  | .keyboardPoll ticks =>
      let (kbd, ctl) := s.kbd.poll (s.ctl.during ticks)
      { s with ctl := ctl, kbd := kbd }
  | .readKey ticks =>
      let (_, kbd, ctl) := s.kbd.readKey (s.ctl.during ticks)
      { s with ctl := ctl, kbd := kbd }
  | .mousePoll screen ticks =>
      let (mouse, ctl) := s.mouse.poll screen (s.ctl.during ticks)
      { s with ctl := ctl, mouse := mouse }

/-- The system takes calls in any order. -/
def Step (s : Ps2) (c : PollCall) (s' : Ps2) : Prop := s' = s.call c

end Ps2

/-- The bytes of one port, of the auxiliary one or of the keyboard. -/
def bytesOf (aux : Bool) (l : List Tagged) : List UInt8 :=
  (l.filter fun b => b.aux == aux).map Tagged.byte

/-- Each byte that has arrived was given to its driver or waits in the queue. -/
structure Ps2.Delivered (s : Ps2) : Prop where
  keyboard : bytesOf false s.ctl.arrived = s.kbd.decoded ++ bytesOf false s.ctl.queue
  mouse : bytesOf true s.ctl.arrived = s.mouse.assembled ++ bytesOf true s.ctl.queue

/-- The bytes that `n` turns of a poll take. -/
def Controller.takes : Nat → Controller → List Tagged
  | 0, _ => []
  | n + 1, c =>
      match c.advance.queue with
      | [] => []
      | b :: rest => b :: takes n { c.advance with queue := rest }

/-- The call finds only bytes of its own driver, which was initialised before; or it takes
nothing, since the mouse is off or waits for another try. -/
def Ps2.Careful (s : Ps2) : PollCall → Prop
  | .keyboardPoll ticks | .readKey ticks =>
      s.kbd.initDone = true ∧ ∀ b ∈ (s.ctl.during ticks).takes 64, b.aux = false
  | .mousePoll _ ticks =>
      s.mouse.enabled = false ∨
      s.mouse.initDone = false ∧ s.mouse.initFailed = true ∧ s.mouse.retryTicks + 1 < 300 ∨
      s.mouse.initDone = true ∧ ∀ b ∈ (s.ctl.during ticks).takes 16, b.aux = true

theorem bytesOf_append (aux : Bool) (l l' : List Tagged) :
    bytesOf aux (l ++ l') = bytesOf aux l ++ bytesOf aux l' := by
  rw [bytesOf, List.filter_append, List.map_append]
  rfl

theorem bytesOf_cons (aux : Bool) (b : Tagged) (l : List Tagged) :
    bytesOf aux (b :: l) = (if b.aux = aux then [b.byte] else []) ++ bytesOf aux l := by
  unfold bytesOf
  rw [List.filter_cons]
  by_cases h : b.aux = aux
  · rw [if_pos (beq_iff_eq.mpr h), if_pos h]
    rfl
  · rw [if_neg (mt beq_iff_eq.mp h), if_neg h]
    rfl

/-- No byte of a port is among those that are all of the other one. -/
theorem bytesOf_eq_nil {aux : Bool} {l : List Tagged} : bytesOf aux l = [] ↔ ∀ b ∈ l, b.aux ≠ aux := by
  rw [bytesOf, List.map_eq_nil_iff, List.filter_eq_nil_iff]
  exact forall₂_congr fun b _ => not_congr beq_iff_eq

/-! ## The controller -/

/-- How many bytes of each kind have left the queue: what has arrived, up to what waits. -/
structure Controller.Gone (c c' : Controller) (taken : List Tagged) : Prop where
  moved : ∃ new, c'.arrived = c.arrived ++ new ∧ c.queue ++ new = taken ++ c'.queue

theorem Controller.Gone.refl (c : Controller) : c.Gone c [] :=
  ⟨[], (List.append_nil _).symm, List.append_nil _⟩

theorem Controller.Gone.trans {c c' c'' : Controller} {l l' : List Tagged} (h : c.Gone c' l)
    (h' : c'.Gone c'' l') : c.Gone c'' (l ++ l') := by
  obtain ⟨new, harrived, hqueue⟩ := h
  obtain ⟨new', harrived', hqueue'⟩ := h'
  refine ⟨new ++ new', ?_, ?_⟩
  · rw [harrived', harrived, List.append_assoc]
  · rw [← List.append_assoc, hqueue, List.append_assoc, hqueue', List.append_assoc]

theorem Controller.gone_advance (c : Controller) : c.Gone c.advance [] :=
  ⟨(c.coming.headD ⟨[], false⟩).bytes, rfl, rfl⟩

/-- The status when nothing waits. -/
theorem Controller.readStatus_of_nil {c : Controller} (h : c.advance.queue = []) :
    ∃ status : Status, c.readStatus = (status, c.advance) ∧ status.obf = false :=
  ⟨c.readStatus.1, rfl, by rw [readStatus, h]; rfl⟩

/-- The status is that of the first byte. -/
theorem Controller.readStatus_of_cons {c : Controller} {b : Tagged} {rest : List Tagged}
    (h : c.advance.queue = b :: rest) :
    ∃ status : Status, c.readStatus = (status, c.advance) ∧ status.obf = true ∧
      status.aux = b.aux :=
  ⟨c.readStatus.1, rfl, by rw [readStatus, h]; rfl, by rw [readStatus, h]; rfl⟩

theorem Controller.gone_readData {c : Controller} {b : Tagged} {rest : List Tagged}
    (h : c.queue = b :: rest) :
    c.readData.1 = b.byte ∧ c.readData.2 = { c with queue := rest } ∧
      c.Gone c.readData.2 [b] := by
  have hstate : c.readData.2 = { c with queue := rest } := by rw [readData, h]; rfl
  refine ⟨by rw [readData, h]; rfl, hstate, [], ?_, ?_⟩
  · rw [hstate, List.append_nil]
  · rw [hstate, h, List.append_nil]
    rfl

/-- What a port has received is accounted for after bytes were taken. -/
theorem Controller.Gone.account {c c' : Controller} {l : List Tagged} (h : c.Gone c' l)
    {aux : Bool} {given : List UInt8} (hbefore : bytesOf aux c.arrived = given ++ bytesOf aux c.queue) :
    bytesOf aux c'.arrived = given ++ bytesOf aux l ++ bytesOf aux c'.queue := by
  obtain ⟨new, harrived, hqueue⟩ := h
  rw [harrived, bytesOf_append, hbefore, List.append_assoc, ← bytesOf_append, hqueue, bytesOf_append,
    List.append_assoc]

/-! ## The polls -/

theorem Keyboard.pushBuf_decoded (k : Keyboard) (ch : UInt8) : (k.pushBuf ch).decoded = k.decoded := by
  unfold Keyboard.pushBuf
  dsimp only
  split <;> rfl

/-- A scancode is decoded once. -/
theorem Keyboard.handleScancode_decoded (k : Keyboard) (code : UInt8) :
    (k.handleScancode code).decoded = k.decoded ++ [code] := by
  unfold Keyboard.handleScancode
  dsimp only
  split
  · rfl
  split
  · rw [Keyboard.pushBuf_decoded]
  split
  · rfl
  split
  · rfl
  split
  · rfl
  split
  · rfl
  generalize entryAt (if k.shift = true then shiftMap else normalMap) (code.toNat % 128) = ch
  split
  · rw [Keyboard.pushBuf_decoded]
  · rfl

/-- A byte is put into a packet once. -/
theorem Mouse.assemble_assembled (screen : Screen) (m : Mouse) (desyncs : Nat) (byte : UInt8) :
    (m.assemble screen desyncs byte).1.assembled = m.assembled ++ [byte] := by
  unfold Mouse.assemble
  dsimp only
  split
  · rfl
  split
  · rfl
  split
  · rfl
  · rfl

/-- The loop of `keyboard::poll` takes what comes first, and decodes what is from the keyboard. -/
theorem Keyboard.pollLoop_takes (n : Nat) (k : Keyboard) (c : Controller) :
    c.Gone (k.pollLoop n c).2 (c.takes n) ∧
      (k.pollLoop n c).1.decoded = k.decoded ++ bytesOf false (c.takes n) := by
  induction n generalizing k c with
  | zero => exact ⟨.refl c, (List.append_nil _).symm⟩
  | succ n ih =>
      rw [Keyboard.pollLoop, Controller.takes]
      cases hqueue : c.advance.queue with
      | nil =>
          obtain ⟨status, hstatus, hobf⟩ := Controller.readStatus_of_nil hqueue
          simp only [hstatus, hobf, Bool.false_eq_true, not_false_eq_true, if_true]
          exact ⟨c.gone_advance, (List.append_nil _).symm⟩
      | cons b rest =>
          obtain ⟨status, hstatus, hobf, haux⟩ := Controller.readStatus_of_cons hqueue
          obtain ⟨hbyte, hstate, hgone⟩ := Controller.gone_readData hqueue
          have hboth := c.gone_advance.trans hgone
          rw [hstate] at hboth
          simp only [hstatus, hobf, not_true_eq_false, if_false, hbyte, hstate, haux]
          cases hport : b.aux with
          | true =>
              obtain ⟨hrest, hdecoded⟩ := ih k { c.advance with queue := rest }
              rw [bytesOf_cons, hport, if_neg (Ne.symm Bool.false_ne_true), if_pos rfl]
              exact ⟨hboth.trans hrest, hdecoded⟩
          | false =>
              obtain ⟨hrest, hdecoded⟩ :=
                ih (k.handleScancode b.byte) { c.advance with queue := rest }
              rw [bytesOf_cons, hport, if_pos rfl, if_neg Bool.false_ne_true]
              refine ⟨hboth.trans hrest, ?_⟩
              rw [hdecoded, Keyboard.handleScancode_decoded, List.append_assoc]

/-- The loop of the mouse's `poll` takes what comes first, and assembles what is from the mouse. -/
theorem Mouse.pollLoop_takes (screen : Screen) (n desyncs : Nat) (m : Mouse) (c : Controller) :
    c.Gone (m.pollLoop screen n desyncs c).2 (c.takes n) ∧
      (m.pollLoop screen n desyncs c).1.assembled = m.assembled ++ bytesOf true (c.takes n) := by
  induction n generalizing desyncs m c with
  | zero => exact ⟨.refl c, (List.append_nil _).symm⟩
  | succ n ih =>
      rw [Mouse.pollLoop, Controller.takes]
      cases hqueue : c.advance.queue with
      | nil =>
          obtain ⟨status, hstatus, hobf⟩ := Controller.readStatus_of_nil hqueue
          simp only [hstatus, hobf, Bool.false_eq_true, not_false_eq_true, if_true]
          exact ⟨c.gone_advance, (List.append_nil _).symm⟩
      | cons b rest =>
          obtain ⟨status, hstatus, hobf, haux⟩ := Controller.readStatus_of_cons hqueue
          obtain ⟨hbyte, hstate, hgone⟩ := Controller.gone_readData hqueue
          have hboth := c.gone_advance.trans hgone
          rw [hstate] at hboth
          simp only [hstatus, hobf, not_true_eq_false, if_false, hbyte, hstate, haux]
          cases hport : b.aux with
          | false =>
              obtain ⟨hrest, hassembled⟩ := ih desyncs m { c.advance with queue := rest }
              rw [bytesOf_cons, hport, if_pos Bool.false_ne_true, if_neg Bool.false_ne_true]
              exact ⟨hboth.trans hrest, hassembled⟩
          | true =>
              obtain ⟨hrest, hassembled⟩ := ih (m.assemble screen desyncs b.byte).2
                (m.assemble screen desyncs b.byte).1 { c.advance with queue := rest }
              rw [bytesOf_cons, hport, if_pos rfl, if_neg (not_not.mpr rfl)]
              refine ⟨hboth.trans hrest, ?_⟩
              rw [hassembled, Mouse.assemble_assembled, List.append_assoc]

/-! ## Calls -/

namespace Ps2

variable {s s' : Ps2}

/-- A poll of the keyboard delivers what it takes exactly if that is all from the keyboard. -/
theorem Delivered.keyboardPoll_iff (h : s.Delivered) (hinit : s.kbd.initDone = true)
    (ticks : List Tick) :
    (s.call (.keyboardPoll ticks)).Delivered ↔
      ∀ b ∈ (s.ctl.during ticks).takes 64, b.aux = false := by
  have hpoll : s.kbd.poll (s.ctl.during ticks) = s.kbd.pollLoop 64 (s.ctl.during ticks) := by
    rw [Keyboard.poll, if_neg (not_not.mpr hinit)]
  obtain ⟨hgone, hdecoded⟩ := Keyboard.pollLoop_takes 64 s.kbd (s.ctl.during ticks)
  rw [← hpoll] at hgone hdecoded
  have hkeyboard := hgone.account h.keyboard
  have hmouse := hgone.account h.mouse
  have hnil : bytesOf true ((s.ctl.during ticks).takes 64) = [] ↔
      ∀ b ∈ (s.ctl.during ticks).takes 64, b.aux = false := by
    rw [bytesOf_eq_nil]
    exact forall₂_congr fun b _ => Bool.not_eq_true b.aux ▸ Iff.rfl
  rw [← hnil]
  constructor
  · intro h'
    have hlost : bytesOf true (s.kbd.poll (s.ctl.during ticks)).2.arrived =
        s.mouse.assembled ++ bytesOf true (s.kbd.poll (s.ctl.during ticks)).2.queue := h'.mouse
    rw [hmouse] at hlost
    have hleft := List.append_cancel_right hlost
    exact List.append_right_eq_self.mp hleft
  · intro hempty
    refine ⟨?_, ?_⟩
    · rw [← hdecoded] at hkeyboard
      exact hkeyboard
    · rw [hempty, List.append_nil] at hmouse
      exact hmouse

/-- `read_key` polls, and takes a character from the ring. -/
theorem call_readKey (s : Ps2) (ticks : List Tick) :
    (s.call (.readKey ticks)).ctl = (s.call (.keyboardPoll ticks)).ctl ∧
      (s.call (.readKey ticks)).kbd.decoded = (s.call (.keyboardPoll ticks)).kbd.decoded ∧
      (s.call (.readKey ticks)).mouse = (s.call (.keyboardPoll ticks)).mouse := by
  unfold Ps2.call Keyboard.readKey
  dsimp only
  split
  · exact ⟨rfl, rfl, rfl⟩
  · exact ⟨rfl, rfl, rfl⟩

theorem Delivered.congr (h : s.Delivered) (hctl : s'.ctl = s.ctl)
    (hdecoded : s'.kbd.decoded = s.kbd.decoded) (hmouse : s'.mouse = s.mouse) : s'.Delivered where
  keyboard := by rw [hctl, hdecoded]; exact h.keyboard
  mouse := by rw [hctl, hmouse]; exact h.mouse

/-- A poll of the mouse delivers what it takes exactly if that is all from the mouse. -/
theorem Delivered.mousePoll_iff (h : s.Delivered) (henabled : s.mouse.enabled = true)
    (hinit : s.mouse.initDone = true) (screen : Screen) (ticks : List Tick) :
    (s.call (.mousePoll screen ticks)).Delivered ↔
      ∀ b ∈ (s.ctl.during ticks).takes 16, b.aux = true := by
  have hpoll : s.mouse.poll screen (s.ctl.during ticks) =
      s.mouse.pollLoop screen 16 0 (s.ctl.during ticks) := by
    rw [Mouse.poll, if_neg (not_not.mpr henabled), if_pos hinit]
  obtain ⟨hgone, hassembled⟩ := Mouse.pollLoop_takes screen 16 0 s.mouse (s.ctl.during ticks)
  rw [← hpoll] at hgone hassembled
  have hkeyboard := hgone.account h.keyboard
  have hmouse := hgone.account h.mouse
  have hnil : bytesOf false ((s.ctl.during ticks).takes 16) = [] ↔
      ∀ b ∈ (s.ctl.during ticks).takes 16, b.aux = true := by
    rw [bytesOf_eq_nil]
    exact forall₂_congr fun b _ => Bool.not_eq_false b.aux ▸ Iff.rfl
  rw [← hnil]
  constructor
  · intro h'
    have hlost : bytesOf false (s.mouse.poll screen (s.ctl.during ticks)).2.arrived =
        s.kbd.decoded ++ bytesOf false (s.mouse.poll screen (s.ctl.during ticks)).2.queue :=
      h'.keyboard
    rw [hkeyboard] at hlost
    exact List.append_right_eq_self.mp (List.append_cancel_right hlost)
  · intro hempty
    refine ⟨?_, ?_⟩
    · rw [hempty, List.append_nil] at hkeyboard
      exact hkeyboard
    · rw [← hassembled] at hmouse
      exact hmouse

/-- The mouse is off, or waits for another try. -/
theorem Delivered.mousePoll_idle (h : s.Delivered)
    (hidle : s.mouse.enabled = false ∨
      s.mouse.initDone = false ∧ s.mouse.initFailed = true ∧ s.mouse.retryTicks + 1 < 300)
    (screen : Screen) (ticks : List Tick) : (s.call (.mousePoll screen ticks)).Delivered := by
  have hpoll : ∃ m : Mouse, s.mouse.poll screen (s.ctl.during ticks) = (m, s.ctl.during ticks) ∧
      m.assembled = s.mouse.assembled := by
    unfold Mouse.poll
    rcases hidle with hoff | ⟨hinit, hfailed, hwait⟩
    · rw [hoff]
      exact ⟨s.mouse, rfl, rfl⟩
    · cases s.mouse.enabled with
      | false => exact ⟨s.mouse, rfl, rfl⟩
      | true =>
          rw [if_neg (not_not.mpr rfl), if_neg (by rw [hinit]; exact Bool.false_ne_true),
            if_pos hfailed, if_neg (Nat.not_le.mpr hwait)]
          exact ⟨_, rfl, rfl⟩
  obtain ⟨m, hpoll, hassembled⟩ := hpoll
  have hcall : s.call (.mousePoll screen ticks) =
      { s with ctl := s.ctl.during ticks, mouse := m } := by
    rw [Ps2.call, hpoll]
  rw [hcall]
  refine ⟨h.keyboard, ?_⟩
  dsimp only
  rw [hassembled]
  exact h.mouse

/-- The step lemma. -/
theorem Delivered.step (h : s.Delivered) {c : PollCall} (hstep : s.Step c s')
    (careful : s.Careful c) : s'.Delivered := by
  cases hstep
  cases c with
  | keyboardPoll ticks => exact (h.keyboardPoll_iff careful.1 ticks).mpr careful.2
  | readKey ticks =>
      have hpoll := (h.keyboardPoll_iff careful.1 ticks).mpr careful.2
      obtain ⟨hctl, hdecoded, hmouse⟩ := call_readKey s ticks
      exact hpoll.congr hctl hdecoded hmouse
  | mousePoll screen ticks =>
      rcases careful with hoff | hwaits | ⟨hinit, hmouse⟩
      · exact h.mousePoll_idle (Or.inl hoff) screen ticks
      · exact h.mousePoll_idle (Or.inr hwaits) screen ticks
      · cases henabled : s.mouse.enabled with
        | false => exact h.mousePoll_idle (Or.inl henabled) screen ticks
        | true => exact (h.mousePoll_iff henabled hinit screen ticks).mpr hmouse

/-- In every run whose polls find only bytes of their own driver, every byte that has arrived was
given to its driver once, in the order of arrival, or waits in the queue; when the queue is empty
they all were. -/
theorem delivered_of_careful_run {calls : List PollCall} (h : s.Delivered)
    (run : Run (fun s c s' => Step s c s' ∧ s.Careful c) s calls s') :
    s'.Delivered ∧
      (s'.ctl.queue = [] → s'.kbd.decoded = bytesOf false s'.ctl.arrived ∧
        s'.mouse.assembled = bytesOf true s'.ctl.arrived) := by
  have hdelivered : s'.Delivered :=
    run.invariant_state Delivered h fun _ _ _ h hstep => h.step hstep.1 hstep.2
  refine ⟨hdelivered, fun hempty => ?_⟩
  have hkeyboard := hdelivered.keyboard
  have hmouse := hdelivered.mouse
  rw [hempty, show bytesOf false [] = [] from rfl, List.append_nil] at hkeyboard
  rw [hempty, show bytesOf true [] = [] from rfl, List.append_nil] at hmouse
  exact ⟨hkeyboard.symm, hmouse.symm⟩

/-- Both drivers are initialised, and nothing has arrived. -/
def ready : Ps2 where
  ctl := ⟨[], [], []⟩
  kbd := ⟨fun _ => 0, 0, 0, true, false, false, []⟩
  mouse := ⟨true, false, 0, true, fun _ => 0, 0, 512, 384, 0, []⟩

/-- A key is pressed before a poll of the keyboard. -/
def press : PollCall := .keyboardPoll [⟨[⟨0x1e, false⟩], false⟩]

/-- The mouse is moved before its poll. -/
def movement : PollCall :=
  .mousePoll ⟨1024, 768, 5⟩ [⟨[⟨0x08, true⟩, ⟨5, true⟩, ⟨3, true⟩], false⟩]

theorem delivered_of_careful_run_ready :
    ((ready.call press).call movement).Delivered ∧
      ((ready.call press).call movement).kbd.decoded = [0x1e] ∧
      ((ready.call press).call movement).mouse.assembled = [0x08, 5, 3] := by
  have htakes : (∀ b ∈ (ready.ctl.during [⟨[⟨0x1e, false⟩], false⟩]).takes 64, b.aux = false) ∧
      ∀ b ∈ ((ready.call press).ctl.during
        [⟨[⟨0x08, true⟩, ⟨5, true⟩, ⟨3, true⟩], false⟩]).takes 16, b.aux = true := by
    decide +kernel
  have hpress : ready.Careful press := ⟨rfl, htakes.1⟩
  have hmovement : (ready.call press).Careful movement := Or.inr (Or.inr ⟨rfl, htakes.2⟩)
  have hrun : Run (fun s c s' => Step s c s' ∧ s.Careful c) ready [press, movement]
      ((ready.call press).call movement) := (Run.nil.snoc ⟨rfl, hpress⟩).snoc ⟨rfl, hmovement⟩
  exact ⟨(delivered_of_careful_run ⟨rfl, rfl⟩ hrun).1, by decide +kernel, by decide +kernel⟩

/-- The mouse is polled while a byte of the keyboard waits: the byte is dropped. -/
theorem not_delivered_of_run :
    ¬∀ (s s' : Ps2) (calls : List PollCall), s.Delivered → Run Step s calls s' →
      (s'.kbd.head + 1) % 256 ≠ s'.kbd.tail → s'.Delivered := by
  intro h
  have hrun : Run Step ready [.mousePoll ⟨1024, 768, 5⟩ [⟨[⟨0x1e, false⟩], false⟩]]
      (ready.call (.mousePoll ⟨1024, 768, 5⟩ [⟨[⟨0x1e, false⟩], false⟩])) := Run.nil.snoc rfl
  have hkeyboard := (h _ _ _ ⟨rfl, rfl⟩ hrun (by decide +kernel)).keyboard
  exact absurd hkeyboard (by decide +kernel)

end Ps2

end PureOS.Input
