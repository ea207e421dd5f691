import PureOS.Input.KeyBuffers

set_option autoImplicit false

/-!
# Input: the reports of USB keyboards (`usb/hid.rs`)

A report names the keys that are down.  The driver types a key when it goes down, and the first key
of the report again while nothing changes: in the thirtieth report, and then in every sixth.
-/

namespace PureOS.Input

open PureOS.Foundation

/-- A boot report: the modifiers and six places for keys. -/
structure Report where
  mods : UInt8
  keys : List UInt8
  six : keys.length = 6

/-! ## Characters -/

/-- The characters of `keycode_to_ascii` without shift. -/
def usageNormal : List (Nat × List UInt8) :=
  [(0x04, ascii "abcdefghijklmnopqrstuvwxyz1234567890"), (0x28, [0x0a, 0x1b, 0x08, 0x09]),
    (0x2c, ascii " -=[]\\;'`,./"), (0x59, ascii "1234567890"), (0xe3, [keyMeta]), (0xe7, [keyMeta])]

/-- The characters of `keycode_to_ascii` with shift. -/
def usageShift : List (Nat × List UInt8) :=
  [(0x04, ascii "ABCDEFGHIJKLMNOPQRSTUVWXYZ!@#$%^&*()"), (0x28, [0x0a, 0x1b, 0x08, 0x09]),
    (0x2c, ascii " _+\x7b\x7d|:\"~<>?"), (0x59, ascii "1234567890"), (0xe3, [keyMeta]),
    (0xe7, [keyMeta])]

/-- `keycode_to_ascii`. -/
def keycodeToAscii (key mods : UInt8) : Option UInt8 :=
  let shift := mods &&& 0x22 ≠ 0
  let ctrl := mods &&& 0x11 ≠ 0
  let alt := mods &&& 0x44 ≠ 0
  if ctrl ∧ alt then none
  else
    let ch := entryAt (if shift then usageShift else usageNormal) key.toNat
    if ch ≠ 0 then some ch else none

/-- `if let Some(ch) = keycode_to_ascii(key, mods) { push_key(ch); }`. -/
def KeyBuf.pushCode (b : KeyBuf) (key mods : UInt8) : KeyBuf :=
  match keycodeToAscii key mods with
  | some ch => b.pushKey ch
  | none => b

/-! ## The driver -/

/-- `REPEAT_DELAY`. -/
abbrev repeatDelay : UInt32 := 30

/-- `REPEAT_RATE`. -/
abbrev repeatRate : UInt32 := 6

/-- The statics of the keyboard. -/
structure HidKeyboard where
  lastKeys : List UInt8
  lastMods : UInt8
  repeatKey : UInt8
  repeatMods : UInt8
  repeatCounter : UInt32
  repeatActive : Bool
  keyBuf : KeyBuf

/-- `first_key`. -/
def Report.firstKey (r : Report) : UInt8 := (r.keys.find? (· ≠ 0)).getD 0

namespace HidKeyboard

/-- The loop over the keys: whether one is new, and what is pushed. -/
def pressNew (k : HidKeyboard) (r : Report) : Bool × KeyBuf :=
  r.keys.foldl (fun (anyNew, b) c =>
    if c = 0 then (anyNew, b)
    else if ¬k.lastKeys.contains c then (true, b.pushCode c r.mods)
    else (anyNew, b)) (false, k.keyBuf)

/-- A key that has been down is still down. -/
def hold (k : HidKeyboard) (mods : UInt8) : HidKeyboard :=
  let counter := k.repeatCounter + 1
  if ¬k.repeatActive ∧ repeatDelay ≤ counter then
    { k with
      repeatActive := true
      repeatCounter := 0
      keyBuf := k.keyBuf.pushCode k.repeatKey mods }
  else if k.repeatActive ∧ repeatRate ≤ counter then
    { k with repeatCounter := 0, keyBuf := k.keyBuf.pushCode k.repeatKey mods }
  else { k with repeatCounter := counter }

/-- `process_report`. -/
def processReport (k : HidKeyboard) (r : Report) : HidKeyboard :=
  let (anyNew, b) := k.pressNew r
  let k := { k with keyBuf := b }
  let first := r.firstKey
  let restart := { k with
    repeatKey := first, repeatMods := r.mods, repeatCounter := 1, repeatActive := false }
  let k :=
    if first = 0 then { k with repeatKey := 0, repeatCounter := 0, repeatActive := false }
    else if anyNew then restart
    else if first = k.repeatKey then k.hold r.mods
    else restart
  { k with lastKeys := r.keys, lastMods := r.mods }

/-- The statics before the first report. -/
structure Fresh (k : HidKeyboard) : Prop where
  no_keys : k.lastKeys = List.replicate 6 0
  no_key : k.repeatKey = 0
  counter : k.repeatCounter = 0
  idle : k.repeatActive = false

end HidKeyboard

/-! ## What is typed

The reports before one are in a list with the latest first. -/

/-- The keys that were down. -/
def downBefore : List Report → List UInt8
  | [] => List.replicate 6 0
  | r :: _ => r.keys

/-- The first key that was down. -/
def firstBefore : List Report → UInt8
  | [] => 0
  | r :: _ => r.firstKey

/-- The keys that have gone down. -/
def Report.newKeys (r : Report) (before : List Report) : List UInt8 :=
  r.keys.filter fun c => c ≠ 0 ∧ c ∉ downBefore before

/-- How many reports there are with the first key of the latest one, counted from the last in which
a key was new. -/
def heldFor : List Report → Nat
  | [] => 0
  | r :: before =>
      if r.firstKey = 0 then 0
      else if r.newKeys before ≠ [] ∨ r.firstKey ≠ firstBefore before then 1
      else heldFor before + 1

/-- The reports in which a key is typed again. -/
def Repeats (n : Nat) : Prop := 30 ≤ n ∧ (n - 30) % 6 = 0

instance (n : Nat) : Decidable (Repeats n) := inferInstanceAs (Decidable (_ ∧ _))

/-- What is typed by a report. -/
def typedAt (before : List Report) (r : Report) : List UInt8 :=
  ((r.newKeys before).filterMap fun c => keycodeToAscii c r.mods) ++
    if Repeats (heldFor (r :: before)) then (keycodeToAscii r.firstKey r.mods).toList else []

/-- A report comes in, or a character is read. -/
inductive UsbEvent where
  | report (r : Report)
  | readKey

/-- The keyboard after an event, and the characters that have been read. -/
def HidKeyboard.event (t : HidKeyboard × List UInt8) : UsbEvent → HidKeyboard × List UInt8
  | .report r => (t.1.processReport r, t.2)
  | .readKey => ({ t.1 with keyBuf := t.1.keyBuf.readKey.2 }, t.2 ++ t.1.keyBuf.readKey.1.toList)

/-- What the events ask of the buffer, if a report types what it should. -/
def bufferOps : List Report → List UsbEvent → List (BufferOp UInt8)
  | _, [] => []
  | before, .report r :: events => (typedAt before r).map .push ++ bufferOps (r :: before) events
  | before, .readKey :: events => .pop :: bufferOps before events

section Reports

variable {k : HidKeyboard} {before : List Report} {r : Report}

/-- Several characters are pushed. -/
def KeyBuf.pushAll (b : KeyBuf) (chars : List UInt8) : KeyBuf := chars.foldl KeyBuf.pushKey b

theorem pushCode_eq (b : KeyBuf) (key mods : UInt8) :
    b.pushCode key mods = b.pushAll (keycodeToAscii key mods).toList := by
  unfold KeyBuf.pushCode
  cases keycodeToAscii key mods with
  | none => rfl
  | some ch => rfl

/-- The state of the driver behind some reports. -/
structure HidKeyboard.Behind (k : HidKeyboard) (before : List Report) : Prop where
  last : k.lastKeys = downBefore before
  key : k.repeatKey = firstBefore before
  active : k.repeatActive = decide (30 ≤ heldFor before)
  counter : k.repeatCounter.toNat =
    if 30 ≤ heldFor before then (heldFor before - 30) % 6 else heldFor before

theorem HidKeyboard.Fresh.behind (h : k.Fresh) : k.Behind [] where
  last := h.no_keys
  key := h.no_key
  active := h.idle
  counter := by rw [h.counter]; rfl

/-- The loop pushes the characters of the new keys. -/
theorem pressNew_eq (h : k.lastKeys = downBefore before) (r : Report) :
    k.pressNew r = (decide (r.newKeys before ≠ []),
      k.keyBuf.pushAll ((r.newKeys before).filterMap fun c => keycodeToAscii c r.mods)) := by
  have hloop : ∀ (keys : List UInt8) (anyNew : Bool) (b : KeyBuf),
      keys.foldl (fun (p : Bool × KeyBuf) c =>
        if c = 0 then (p.1, p.2)
        else if ¬k.lastKeys.contains c then (true, p.2.pushCode c r.mods)
        else (p.1, p.2)) (anyNew, b) =
      (anyNew || decide (keys.filter (fun c => c ≠ 0 ∧ c ∉ downBefore before) ≠ []),
        b.pushAll ((keys.filter fun c => c ≠ 0 ∧ c ∉ downBefore before).filterMap
          fun c => keycodeToAscii c r.mods)) := by
    intro keys
    induction keys with
    | nil => simp [KeyBuf.pushAll]
    | cons c keys ih =>
        intro anyNew b
        rw [List.foldl_cons]
        by_cases hzero : c = 0
        · rw [if_pos hzero, ih, List.filter_cons_of_neg (by simp [hzero])]
        · rw [if_neg hzero]
          by_cases hlast : c ∈ downBefore before
          · rw [if_neg (by simpa [h] using hlast), ih, List.filter_cons_of_neg (by simp [hlast])]
          · rw [if_pos (by simpa [h] using hlast), ih,
              List.filter_cons_of_pos (by simp [hzero, hlast]), pushCode_eq]
            cases hcode : keycodeToAscii c r.mods with
            | none => simp [hcode, KeyBuf.pushAll]
            | some ch => simp [hcode, KeyBuf.pushAll]
  exact (hloop r.keys false k.keyBuf).trans (by rw [Bool.false_or]; rfl)

theorem not_repeats_of_lt {n : Nat} (h : n < 30) : ¬Repeats n := fun hrep =>
  absurd hrep.1 (Nat.not_le.mpr h)

/-- A report as long as the last one but for one more: the key is typed when its time has come. -/
theorem hold_spec (h : k.Behind before) (mods : UInt8) :
    (k.hold mods).lastKeys = k.lastKeys ∧ (k.hold mods).repeatKey = k.repeatKey ∧
    (k.hold mods).repeatActive = decide (30 ≤ heldFor before + 1) ∧
    ((k.hold mods).repeatCounter.toNat =
      if 30 ≤ heldFor before + 1 then (heldFor before + 1 - 30) % 6 else heldFor before + 1) ∧
    (k.hold mods).keyBuf = k.keyBuf.pushAll
      (if Repeats (heldFor before + 1) then (keycodeToAscii k.repeatKey mods).toList else []) := by
  have hactive := h.active
  have hcounter := h.counter
  have hlt : k.repeatCounter.toNat < 30 := by
    rw [hcounter]
    split
    · omega
    · omega
  have hnext : (k.repeatCounter + 1).toNat = k.repeatCounter.toNat + 1 := by
    rw [UInt32.toNat_add]
    exact Nat.mod_eq_of_lt (Nat.lt_trans (Nat.succ_lt_succ hlt) (by decide))
  have hdelay : repeatDelay ≤ k.repeatCounter + 1 ↔ 30 ≤ k.repeatCounter.toNat + 1 := by
    rw [UInt32.le_iff_toNat_le, hnext]
    rfl
  have hrate : repeatRate ≤ k.repeatCounter + 1 ↔ 6 ≤ k.repeatCounter.toNat + 1 := by
    rw [UInt32.le_iff_toNat_le, hnext]
    rfl
  unfold HidKeyboard.hold
  rcases Nat.lt_or_ge (heldFor before) 30 with hbefore | hbefore
  · -- The delay is still running, or ends with this report.
    rw [if_neg (Nat.not_le.mpr hbefore)] at hcounter
    rw [decide_eq_false (Nat.not_le.mpr hbefore)] at hactive
    by_cases hends : heldFor before = 29
    · have hcount : repeatDelay ≤ k.repeatCounter + 1 := hdelay.mpr (by omega)
      simp [hactive, hcount, hends, pushCode_eq, Repeats]
    · have hcount : ¬repeatDelay ≤ k.repeatCounter + 1 := fun hle => by
        have := hdelay.mp hle
        omega
      have hshort : ¬30 ≤ heldFor before + 1 := by omega
      simp [hactive, hcount, hnext, hcounter, hshort, KeyBuf.pushAll, Repeats]
  · rw [if_pos hbefore] at hcounter
    rw [decide_eq_true hbefore] at hactive
    have hlong : 30 ≤ heldFor before + 1 := Nat.le_succ_of_le hbefore
    by_cases hends : (heldFor before - 30) % 6 = 5
    · have hcount : repeatRate ≤ k.repeatCounter + 1 := hrate.mpr (by omega)
      have hzero : (heldFor before - 29) % 6 = 0 := by omega
      simp [hactive, hcount, hlong, hzero, pushCode_eq, Repeats]
    · have hcount : ¬repeatRate ≤ k.repeatCounter + 1 := fun hle => by
        have := hrate.mp hle
        omega
      have hmod : (heldFor before - 29) % 6 = (heldFor before - 30) % 6 + 1 := by omega
      simp [hactive, hcount, hnext, hcounter, hlong, hmod, KeyBuf.pushAll, Repeats]

theorem KeyBuf.pushAll_append (b : KeyBuf) (chars chars' : List UInt8) :
    b.pushAll (chars ++ chars') = (b.pushAll chars).pushAll chars' := List.foldl_append

/-- A report types what it should, and leaves the driver behind it. -/
theorem HidKeyboard.Behind.report (h : k.Behind before) (r : Report) :
    (k.processReport r).Behind (r :: before) ∧
      (k.processReport r).keyBuf = k.keyBuf.pushAll (typedAt before r) := by
  have hpress := pressNew_eq h.last r
  unfold HidKeyboard.processReport
  rw [hpress]
  dsimp only
  obtain ⟨b, hb⟩ : ∃ b, b = k.keyBuf.pushAll
      ((r.newKeys before).filterMap fun c => keycodeToAscii c r.mods) := ⟨_, rfl⟩
  have htyped : k.keyBuf.pushAll (typedAt before r) = b.pushAll
      (if Repeats (heldFor (r :: before)) then (keycodeToAscii r.firstKey r.mods).toList
        else []) := by
    rw [hb, ← KeyBuf.pushAll_append, typedAt]
  rw [htyped, ← hb]
  by_cases hfirst : r.firstKey = 0
  · have hheld : heldFor (r :: before) = 0 := if_pos hfirst
    rw [if_pos hfirst, hheld, if_neg (not_repeats_of_lt (by decide))]
    refine ⟨⟨rfl, hfirst.symm, ?_, ?_⟩, rfl⟩
    · rw [hheld]; rfl
    · rw [hheld]; rfl
  rw [if_neg hfirst]
  by_cases hnew : r.newKeys before = []
  · rw [decide_eq_false (not_not_intro hnew), if_neg (by decide)]
    by_cases hsame : r.firstKey = k.repeatKey
    · have hheld : heldFor (r :: before) = heldFor before + 1 := by
        rw [heldFor, if_neg hfirst, if_neg]
        rintro (hne | hne)
        · exact hne hnew
        · exact hne (hsame.trans h.key)
      have hk : ({ k with keyBuf := b } : HidKeyboard).Behind before :=
        ⟨h.last, h.key, h.active, h.counter⟩
      obtain ⟨-, hkey, hactive, hcounter, hbuf⟩ := hold_spec hk r.mods
      rw [if_pos hsame, hheld]
      refine ⟨⟨rfl, hkey.trans hsame.symm, ?_, ?_⟩, ?_⟩
      · rw [hheld]; exact hactive
      · rw [hheld]; exact hcounter
      · rw [hbuf, hsame]
    · have hheld : heldFor (r :: before) = 1 := by
        rw [heldFor, if_neg hfirst, if_pos (Or.inr fun heq => hsame (heq.trans h.key.symm))]
      rw [if_neg hsame, hheld, if_neg (not_repeats_of_lt (by decide))]
      refine ⟨⟨rfl, rfl, ?_, ?_⟩, rfl⟩
      · rw [hheld]; rfl
      · rw [hheld]; rfl
  · have hheld : heldFor (r :: before) = 1 := by
      rw [heldFor, if_neg hfirst, if_pos (Or.inl hnew)]
    rw [decide_eq_true hnew, if_pos rfl, hheld, if_neg (not_repeats_of_lt (by decide))]
    refine ⟨⟨rfl, rfl, ?_, ?_⟩, rfl⟩
    · rw [hheld]; rfl
    · rw [hheld]; rfl

/-- Characters that are pushed one after the other. -/
theorem run_push (b : KeyBuf) (chars accepted popped : List UInt8) :
    ∃ accepted', (chars.map .push).foldl KeyBuf.buffer.step ⟨b, accepted, popped⟩ =
      ⟨b.pushAll chars, accepted', popped⟩ := by
  induction chars generalizing b accepted with
  | nil => exact ⟨accepted, rfl⟩
  | cons ch chars ih =>
      obtain ⟨accepted', hrun⟩ := ih (b.pushKey ch)
        (if KeyBuf.buffer.Full b then accepted else accepted ++ [ch])
      exact ⟨accepted', hrun⟩

/-- Events do to the buffer what the uses of it do. -/
theorem events_eq (events : List UsbEvent) (h : k.Behind before) {t : BufferTrace KeyBuf UInt8}
    (hstate : t.state = k.keyBuf) :
    let t' := (bufferOps before events).foldl KeyBuf.buffer.step t
    (events.foldl HidKeyboard.event (k, t.popped)).1.keyBuf = t'.state ∧
      (events.foldl HidKeyboard.event (k, t.popped)).2 = t'.popped := by
  induction events generalizing k before t with
  | nil => exact ⟨hstate.symm, rfl⟩
  | cons event events ih =>
      obtain ⟨state, accepted, popped⟩ := t
      obtain rfl : state = k.keyBuf := hstate
      cases event with
      | report r =>
          obtain ⟨hbehind, hbuf⟩ := h.report r
          obtain ⟨accepted', hrun⟩ := run_push k.keyBuf (typedAt before r) accepted popped
          rw [bufferOps, List.foldl_append, hrun]
          exact ih hbehind (t := ⟨_, accepted', popped⟩) hbuf.symm
      | readKey =>
          rw [bufferOps, List.foldl_cons]
          exact ih (k := { k with keyBuf := k.keyBuf.readKey.2 })
            (t := ⟨k.keyBuf.readKey.2, accepted, popped ++ k.keyBuf.readKey.1.toList⟩)
            ⟨h.last, h.key, h.active, h.counter⟩ rfl

end Reports

/-- Whatever reports come in and whenever characters are read: the buffer is used as if each report
pushed the characters that it types, so that what is read is what was typed, in order and once, but
for what was typed while fifteen characters were waiting; the next read brings the first character
that was not read yet. -/
theorem reports_typed {k : HidKeyboard} (hfresh : k.Fresh) (hwr : k.keyBuf.wr < 16)
    (hrd : k.keyBuf.rd < 16) (events : List UsbEvent) :
    let t := KeyBuf.buffer.run k.keyBuf (bufferOps [] events)
    (events.foldl HidKeyboard.event (k, [])).1.keyBuf = t.state ∧
      (events.foldl HidKeyboard.event (k, [])).2 = t.popped ∧
      t.popped <+: k.keyBuf.held ++ t.accepted ∧
      t.state.readKey.1 = (k.keyBuf.held ++ t.accepted)[t.popped.length]? ∧
      (KeyBuf.buffer.Full t.state ↔
        k.keyBuf.held.length + t.accepted.length = t.popped.length + 15) := by
  obtain ⟨hstate, hpopped⟩ := events_eq events hfresh.behind (t := ⟨k.keyBuf, [], []⟩) rfl
  have hvalid : k.keyBuf.cyclicView.Valid 16 := ⟨hwr, hrd⟩
  obtain ⟨hordered, hnext, hfull, -⟩ :=
    KeyBuf.buffer_isCyclic.isQueue.fifoFrom hvalid (bufferOps [] events)
  exact ⟨hstate, hpopped, hordered, hnext, hfull⟩

/-- The keyboard as it is started. -/
def idleKeyboard : HidKeyboard where
  lastKeys := List.replicate 6 0
  lastMods := 0
  repeatKey := 0
  repeatMods := 0
  repeatCounter := 0
  repeatActive := false
  keyBuf := ⟨fun _ => 0, 0, 0⟩

/-- A key is pressed with shift, and the character is read. -/
theorem reports_typed_pressed :
    let events : List UsbEvent := [.report ⟨2, [4, 0, 0, 0, 0, 0], rfl⟩, .readKey]
    let t := KeyBuf.buffer.run idleKeyboard.keyBuf (bufferOps [] events)
    (events.foldl HidKeyboard.event (idleKeyboard, [])).1.keyBuf = t.state ∧
      (events.foldl HidKeyboard.event (idleKeyboard, [])).2 = t.popped ∧
      t.popped <+: idleKeyboard.keyBuf.held ++ t.accepted ∧
      t.state.readKey.1 = (idleKeyboard.keyBuf.held ++ t.accepted)[t.popped.length]? ∧
      (KeyBuf.buffer.Full t.state ↔
        idleKeyboard.keyBuf.held.length + t.accepted.length = t.popped.length + 15) :=
  reports_typed ⟨rfl, rfl, rfl, rfl⟩ (by decide) (by decide) _

/-- A key that is held alone: it is typed in its first report, in the thirtieth, and then in every
sixth. -/
example : ((List.range 40).filter fun n => Repeats (n + 1)) = [29, 35] := by decide

end PureOS.Input
