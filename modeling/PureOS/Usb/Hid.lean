import PureOS.Foundation.Fuel
import PureOS.Usb.Control

set_option autoImplicit false

/-!
# USB: the configuration of a HID device (`ehci.rs`)

`setup_hid_device` walks over the descriptors of a configuration, which come from the device and
may hold anything.  It looks for an interrupt IN endpoint behind a HID interface.
-/

namespace PureOS.Usb

open PureOS.Foundation

/-! ## The code -/

/-- `DevState`. -/
inductive DevState where
  | detached | addressed | configured | ready
  deriving DecidableEq

/-- `UsbDevice`. -/
structure UsbDevice where
  valid : Bool
  port : UInt8
  speed : UInt8
  address : UInt8
  state : DevState
  vendor : UInt16
  product : UInt16
  deviceClass : UInt8
  subclass : UInt8
  protocol : UInt8
  intInEndpoint : UInt8
  intInterval : UInt8
  buf : Vector UInt8 64
  deriving DecidableEq

/-- `CLASS_HID`, and the types of descriptors. -/
def classHid : UInt8 := 3

def descDevice : UInt8 := 1

def descConfig : UInt8 := 2

def descInterface : UInt8 := 4

def descEndpoint : UInt8 := 5

/-- The types of requests, and the requests. -/
def reqTypeOut : UInt8 := 0x21

def reqStdDevIn : UInt8 := 0x80

def reqGetDescriptor : UInt8 := 6

def reqSetAddress : UInt8 := 5

def reqSetConfiguration : UInt8 := 9

def reqSetProtocol : UInt8 := 11

def reqSetIdle : UInt8 := 10

/-- What the driver asks the controller for. -/
inductive Event where
  | request (addr : UInt8) (setup : SetupPacket)
  | intQh (addr epAddr : UInt8)
  | intQhMouse (addr epAddr : UInt8)

/-- The entry of the device, and what was asked for. -/
structure Hid where
  device : UsbDevice
  events : List Event

/-- A buffer for a configuration: `config_buf`. -/
abbrev ConfigBuf := Vector UInt8 64

/-- `config_buf[i]`. -/
def byteAt (buf : ConfigBuf) (i : Nat) : Except Fault UInt8 :=
  match buf[i]? with
  | some b => .ok b
  | none => .error .panic

/-- `boot_setup` and `idle_setup` are sent, and the subclass and the protocol are stored. -/
def Hid.bootProtocol (h : Hid) (addr number subclass protocol : UInt8) : Hid where
  device := { h.device with subclass, protocol }
  events := h.events ++ [.request addr ⟨reqTypeOut, reqSetProtocol, 0, number.toUInt16, 0⟩,
    .request addr ⟨reqTypeOut, reqSetIdle, 0, number.toUInt16, 0⟩]

/-- The endpoint is stored, and its queue is set up. -/
def Hid.useEndpoint (h : Hid) (addr epAddr interval : UInt8) : Hid where
  device := { h.device with intInEndpoint := epAddr, intInterval := interval, state := .ready }
  events := h.events ++
    [if h.device.subclass = 2 then .intQhMouse addr epAddr else .intQh addr epAddr]

/-- The branch for an interface: whether it is a HID one, and what becomes of the device. -/
def onInterface (buf : ConfigBuf) (addr : UInt8) (i : Nat) (hidIfaceFound : Bool) (h : Hid) :
    Except Fault (Bool × Hid) := do
  let ifaceClass ← byteAt buf (i + 5)
  let ifaceSubclass ← byteAt buf (i + 6)
  let ifaceProtocol ← byteAt buf (i + 7)
  if ifaceClass = classHid then do
    let number ← byteAt buf (i + 2)
    .ok (true, h.bootProtocol addr number ifaceSubclass ifaceProtocol)
  else .ok (hidIfaceFound, h)

/-- The branch for an endpoint: the device when it is an interrupt IN one. -/
def onEndpoint (buf : ConfigBuf) (addr : UInt8) (i : Nat) (h : Hid) :
    Except Fault (Option Hid) := do
  let epAddr ← byteAt buf (i + 2)
  let epAttr ← byteAt buf (i + 3)
  let epType := epAttr &&& 0x03
  if epType = 3 ∧ epAddr &&& 0x80 ≠ 0 then do
    let interval ← byteAt buf (i + 6)
    .ok (some (h.useEndpoint addr epAddr interval))
  else .ok none

/-- What a turn of the loop ends with. -/
inductive Turn where
  | done (h : Hid)
  | next (i : Nat) (hidIfaceFound : Bool) (h : Hid)

/-- The body of the loop. -/
def turn (buf : ConfigBuf) (addr : UInt8) (totalLen i : Nat) (hidIfaceFound : Bool) (h : Hid) :
    Except Fault Turn := do
  let len ← byteAt buf i
  let descType ← byteAt buf (i + 1)
  if len = 0 then .ok (.done h)
  else do
    let (hidIfaceFound, h) ←
      (if descType = descInterface ∧ i + 9 ≤ totalLen then onInterface buf addr i hidIfaceFound h
      else .ok (hidIfaceFound, h) : Except Fault (Bool × Hid))
    let ready ←
      (if descType = descEndpoint ∧ hidIfaceFound ∧ i + 7 ≤ totalLen then onEndpoint buf addr i h
      else .ok none : Except Fault (Option Hid))
    match ready with
    | some h => .ok (.done h)
    | none =>
        .ok (.next (if i + len.toNat ≤ totalLen then i + len.toNat else totalLen) hidIfaceFound h)

/-- `while i < total_len`. -/
def walk (buf : ConfigBuf) (addr : UInt8) (totalLen : Nat) :
    Nat → Nat → Bool → Hid → Except Fault Hid
  | 0, _, _, _ => .error .fuel
  | fuel + 1, i, hidIfaceFound, h =>
      if i < totalLen then do
        match ← turn buf addr totalLen i hidIfaceFound h with
        | .done h => .ok h
        | .next i hidIfaceFound h => walk buf addr totalLen fuel i hidIfaceFound h
      else .ok h

/-- The request for the configuration descriptor. -/
def configRequest : SetupPacket :=
  ⟨reqStdDevIn, reqGetDescriptor, descConfig.toUInt16 <<< 8, 0, 64⟩

/-- `setup_hid_device`, when the transfer of the configuration fills the buffer or fails. -/
def setupHidDevice (d : UsbDevice) (config : Option ConfigBuf) : Except Fault Hid :=
  let asked : Hid := ⟨d, [.request d.address configRequest]⟩
  match config with
  | none => .ok asked
  | some buf => do
      let first ← byteAt buf 0
      if first < 9 then .ok asked
      else do
        let lo ← byteAt buf 2
        let hi ← byteAt buf 3
        let totalLen := min (lo.toUInt16 ||| hi.toUInt16 <<< 8).toNat 64
        walk buf d.address totalLen 65 9 false asked

/-! ## What the buffer says -/

/-- The byte at a place inside the buffer. -/
def peek (buf : ConfigBuf) (i : Nat) : UInt8 := (buf[i]?).getD 0

/-- `total_len`. -/
def totalOf (buf : ConfigBuf) : Nat :=
  min ((peek buf 2).toUInt16 ||| (peek buf 3).toUInt16 <<< 8).toNat 64

/-- A HID interface is read at a place. -/
def hidAt (buf : ConfigBuf) (total i : Nat) : Bool :=
  peek buf (i + 1) = descInterface ∧ i + 9 ≤ total ∧ peek buf (i + 5) = classHid

/-- An interrupt IN endpoint is read at a place. -/
def interruptAt (buf : ConfigBuf) (total i : Nat) : Bool :=
  peek buf (i + 1) = descEndpoint ∧ i + 7 ≤ total ∧ peek buf (i + 3) &&& 0x03 = 3 ∧
    peek buf (i + 2) &&& 0x80 ≠ 0

/-- The lengths in the buffer lead to a place, with the HID interfaces on the way noted and no
interrupt IN endpoint behind one. -/
inductive Visits (buf : ConfigBuf) (total : Nat) : Nat → Bool → Prop
  | start : Visits buf total 9 false
  | next {i : Nat} {found : Bool} (before : Visits buf total i found) (inside : i < total)
      (length : peek buf i ≠ 0) (open_ : ¬ (interruptAt buf total i ∧ found))
      (fits : i + (peek buf i).toNat ≤ total) :
      Visits buf total (i + (peek buf i).toNat) (found || hidAt buf total i)

theorem byteAt_of_lt {buf : ConfigBuf} {i : Nat} (h : i < 64) : byteAt buf i = .ok (peek buf i) := by
  have hget : buf[i]? = some (buf.get ⟨i, h⟩) := Vector.getElem?_eq_getElem h
  rw [byteAt, peek, hget]
  rfl

theorem byteAt_of_le {buf : ConfigBuf} {i : Nat} (h : 64 ≤ i) : byteAt buf i = .error .panic := by
  have hget : buf[i]? = none := Vector.getElem?_eq_none h
  rw [byteAt, hget]

/-! ## One turn -/

section Turns

variable {buf : ConfigBuf} {addr : UInt8} {total i : Nat} {found : Bool} {h : Hid}

theorem onInterface_eq (hi : i + 9 ≤ 64) : onInterface buf addr i found h =
    .ok (if peek buf (i + 5) = classHid then
      (true, h.bootProtocol addr (peek buf (i + 2)) (peek buf (i + 6)) (peek buf (i + 7)))
      else (found, h)) := by
  rw [onInterface, byteAt_of_lt (by omega), bind_ok, byteAt_of_lt (by omega), bind_ok,
    byteAt_of_lt (by omega), bind_ok]
  split
  · rw [byteAt_of_lt (by omega), bind_ok]
  · rfl

theorem onEndpoint_eq (hi : i + 7 ≤ 64) : onEndpoint buf addr i h =
    .ok (if peek buf (i + 3) &&& 0x03 = 3 ∧ peek buf (i + 2) &&& 0x80 ≠ 0 then
      some (h.useEndpoint addr (peek buf (i + 2)) (peek buf (i + 6))) else none) := by
  rw [onEndpoint, byteAt_of_lt (by omega), bind_ok, byteAt_of_lt (by omega), bind_ok]
  split
  · rename_i hin
    rw [byteAt_of_lt (by omega)]
    exact if_pos hin
  · rename_i hin
    exact if_neg hin

/-- The device behind a turn that goes on. -/
def passed (buf : ConfigBuf) (addr : UInt8) (total i : Nat) (h : Hid) : Hid :=
  if hidAt buf total i then
    h.bootProtocol addr (peek buf (i + 2)) (peek buf (i + 6)) (peek buf (i + 7))
  else h

theorem interfacePart_eq (htotal : total ≤ 64) :
    (if peek buf (i + 1) = descInterface ∧ i + 9 ≤ total then onInterface buf addr i found h
      else .ok (found, h)) = .ok (found || hidAt buf total i, passed buf addr total i h) := by
  by_cases hread : peek buf (i + 1) = descInterface ∧ i + 9 ≤ total
  · obtain ⟨hface, hfits⟩ := hread
    rw [if_pos ⟨hface, hfits⟩, onInterface_eq (by omega)]
    by_cases hclass : peek buf (i + 5) = classHid <;>
      simp [passed, hidAt, hface, hfits, hclass]
  · have hhid : hidAt buf total i = false := by
      rw [hidAt, decide_eq_false]
      exact fun hand => hread ⟨hand.1, hand.2.1⟩
    rw [if_neg hread, passed, hhid, Bool.or_false]
    rfl

theorem endpointPart_eq (htotal : total ≤ 64) :
    (if peek buf (i + 1) = descEndpoint ∧ found ∧ i + 7 ≤ total then onEndpoint buf addr i h
      else .ok none) = .ok (if interruptAt buf total i ∧ found then
        some (h.useEndpoint addr (peek buf (i + 2)) (peek buf (i + 6))) else none) := by
  by_cases hread : peek buf (i + 1) = descEndpoint ∧ found ∧ i + 7 ≤ total
  · obtain ⟨hend, hfound, hfits⟩ := hread
    rw [if_pos ⟨hend, hfound, hfits⟩, onEndpoint_eq (by omega)]
    simp [interruptAt, hend, hfound, hfits]
  · have hnot : ¬ (interruptAt buf total i ∧ found) := by
      rw [interruptAt, decide_eq_true_iff]
      exact fun hand => hread ⟨hand.1.1, hand.2, hand.1.2.1⟩
    rw [if_neg hread, if_neg hnot]

/-- No descriptor is an interface and an endpoint. -/
theorem hidAt_of_interruptAt (hint : interruptAt buf total i) : hidAt buf total i = false := by
  have htype : peek buf (i + 1) = descEndpoint := (decide_eq_true_iff.mp hint).1
  rw [hidAt, decide_eq_false]
  rw [htype]
  exact fun hand => absurd hand.1 (by decide)

/-- What a turn does where the type of the descriptor can be read. -/
theorem turn_eq (hi : i + 1 < 64) (htotal : total ≤ 64) : turn buf addr total i found h =
    .ok (if peek buf i = 0 then .done h
      else if interruptAt buf total i ∧ found then
        .done (h.useEndpoint addr (peek buf (i + 2)) (peek buf (i + 6)))
      else .next (if i + (peek buf i).toNat ≤ total then i + (peek buf i).toNat else total)
        (found || hidAt buf total i) (passed buf addr total i h)) := by
  rw [turn, byteAt_of_lt (by omega), bind_ok, byteAt_of_lt hi, bind_ok]
  by_cases hlen : peek buf i = 0
  · rw [if_pos hlen, if_pos hlen]
  · rw [if_neg hlen, if_neg hlen, interfacePart_eq htotal, bind_ok]
    simp only [endpointPart_eq htotal, bind_ok]
    by_cases hint : interruptAt buf total i
    · have hhid := hidAt_of_interruptAt hint
      cases found <;> simp [hint, hhid, passed]
    · simp [hint]

/-- At the last byte of the buffer the type is read outside. -/
theorem turn_last : turn buf addr total 63 found h = .error .panic := by
  rw [turn, byteAt_of_lt (by decide), bind_ok, byteAt_of_le (by decide)]
  rfl

end Turns

/-! ## The whole walk -/

section Walks

variable {buf : ConfigBuf} {addr : UInt8} {total : Nat}

theorem walk_of_le {fuel i : Nat} {found : Bool} {h : Hid} (hle : total ≤ i) :
    walk buf addr total (fuel + 1) i found h = .ok h := by
  rw [walk, if_neg (by omega)]

/-- A turn that ends the walk. -/
theorem walk_of_done {fuel i : Nat} {found : Bool} {h h' : Hid} (hi : i < total)
    (hturn : turn buf addr total i found h = .ok (.done h')) :
    walk buf addr total (fuel + 1) i found h = .ok h' := by
  rw [walk, if_pos hi, hturn, bind_ok]

/-- A turn that goes on. -/
theorem walk_of_next {fuel i i' : Nat} {found found' : Bool} {h h' : Hid} (hi : i < total)
    (hturn : turn buf addr total i found h = .ok (.next i' found' h')) :
    walk buf addr total (fuel + 1) i found h = walk buf addr total fuel i' found' h' := by
  rw [walk, if_pos hi, hturn, bind_ok]

theorem walk_of_panic {fuel i : Nat} {found : Bool} {h : Hid} (hi : i < total)
    (hturn : turn buf addr total i found h = .error .panic) :
    walk buf addr total (fuel + 1) i found h = .error .panic := by
  rw [walk, if_pos hi, hturn]
  rfl

/-- The cases of a turn inside the buffer. -/
theorem turn_cases (htotal : total ≤ 64) {i : Nat} (hi : i < total) (found : Bool) (h : Hid) :
    (i = 63 ∧ turn buf addr total i found h = .error .panic) ∨
    (∃ h', turn buf addr total i found h = .ok (.done h')) ∨
    (i + (peek buf i).toNat ≤ total ∧ peek buf i ≠ 0 ∧
      ¬ (interruptAt buf total i ∧ found) ∧
      turn buf addr total i found h = .ok (.next (i + (peek buf i).toNat)
        (found || hidAt buf total i) (passed buf addr total i h))) ∨
    (∃ found' h', turn buf addr total i found h = .ok (.next total found' h')) := by
  by_cases hlast : i = 63
  · refine Or.inl ⟨hlast, ?_⟩
    rw [hlast]
    exact turn_last
  · refine Or.inr ?_
    rw [turn_eq (by omega) htotal]
    by_cases hlen : peek buf i = 0
    · rw [if_pos hlen]
      exact Or.inl ⟨_, rfl⟩
    · rw [if_neg hlen]
      by_cases hint : interruptAt buf total i ∧ found
      · rw [if_pos hint]
        exact Or.inl ⟨_, rfl⟩
      · rw [if_neg hint]
        by_cases hfits : i + (peek buf i).toNat ≤ total
        · rw [if_pos hfits]
          exact Or.inr (Or.inl ⟨hfits, hlen, hint, rfl⟩)
        · rw [if_neg hfits]
          exact Or.inr (Or.inr ⟨_, _, rfl⟩)

theorem toNat_pos {b : UInt8} (h : b ≠ 0) : 0 < b.toNat :=
  Nat.pos_of_ne_zero fun hzero => h (UInt8.toNat_inj.mp hzero)

/-- The walk ends: every turn goes on by a byte at least. -/
theorem walk_ne_fuel (htotal : total ≤ 64) (fuel i : Nat) (found : Bool) (h : Hid)
    (hfuel : total - i < fuel) : walk buf addr total fuel i found h ≠ .error .fuel := by
  induction fuel generalizing i found h with
  | zero => exact absurd hfuel (Nat.not_lt_zero _)
  | succ fuel ih =>
      by_cases hi : i < total
      · rcases @turn_cases buf addr total htotal i hi found h with
          ⟨_, hturn⟩ | ⟨h', hturn⟩ | ⟨hfits, hlen, _, hturn⟩ | ⟨found', h', hturn⟩
        · rw [walk_of_panic hi hturn]
          simp
        · rw [walk_of_done hi hturn]
          simp
        · rw [walk_of_next hi hturn]
          have hpos := toNat_pos hlen
          exact ih _ _ _ (by omega)
        · rw [walk_of_next hi hturn]
          exact ih _ _ _ (by omega)
      · rw [walk_of_le (by omega)]
        simp

/-- A walk reads outside the buffer only when it comes to the last byte. -/
theorem visits_of_walk_panic (htotal : total ≤ 64) (fuel : Nat) {i : Nat} {found : Bool} {h : Hid}
    (hvisits : Visits buf total i found) (hpanic : walk buf addr total fuel i found h = .error .panic) :
    total = 64 ∧ ∃ found, Visits buf total 63 found := by
  induction fuel generalizing i found h with
  | zero => cases hpanic
  | succ fuel ih =>
      by_cases hi : i < total
      · rcases @turn_cases buf addr total htotal i hi found h with
          ⟨rfl, _⟩ | ⟨h', hturn⟩ | ⟨hfits, hlen, hopen, hturn⟩ | ⟨found', h', hturn⟩
        · exact ⟨by omega, found, hvisits⟩
        · rw [walk_of_done hi hturn] at hpanic
          cases hpanic
        · rw [walk_of_next hi hturn] at hpanic
          exact ih (hvisits.next hi hlen hopen hfits) hpanic
        · rw [walk_of_next hi hturn] at hpanic
          cases fuel with
          | zero => cases hpanic
          | succ fuel =>
              rw [walk_of_le (Nat.le_refl _)] at hpanic
              cases hpanic
      · rw [walk_of_le (by omega)] at hpanic
        cases hpanic

/-- The walk comes to every place that the lengths lead to. -/
theorem walk_of_visits (htotal : total ≤ 64) {i : Nat} {found : Bool}
    (hvisits : Visits buf total i found) (hlast : i < 64) (h : Hid) :
    ∃ fuel h', total - i < fuel ∧
      walk buf addr total 65 9 false h = walk buf addr total fuel i found h' := by
  induction hvisits with
  | start => exact ⟨65, h, by omega, rfl⟩
  | @next i found before inside length open_ fits ih =>
      have hpos := toNat_pos length
      obtain ⟨fuel, h', hfuel, heq⟩ := ih (by omega)
      have hi : i + 1 < 64 := by omega
      cases fuel with
      | zero => exact absurd hfuel (Nat.not_lt_zero _)
      | succ fuel =>
          have hturn := @turn_eq buf addr total i found h' hi htotal
          rw [if_neg length, if_neg open_, if_pos fits] at hturn
          exact ⟨fuel, _, by omega, heq.trans (walk_of_next inside hturn)⟩

/-- The walk over a buffer reads outside it exactly if the lengths lead to its last byte. -/
theorem walk_panic_iff (htotal : total ≤ 64) (h : Hid) :
    walk buf addr total 65 9 false h = .error .panic ↔
      total = 64 ∧ ∃ found, Visits buf total 63 found := by
  constructor
  · exact visits_of_walk_panic htotal 65 .start
  · rintro ⟨rfl, found, hvisits⟩
    obtain ⟨fuel, h', hfuel, heq⟩ := @walk_of_visits buf addr 64 htotal 63 found hvisits (by decide) h
    rw [heq]
    cases fuel with
    | zero => exact absurd hfuel (Nat.not_lt_zero _)
    | succ fuel => exact walk_of_panic (by decide) turn_last

end Walks

theorem totalOf_le (buf : ConfigBuf) : totalOf buf ≤ 64 := Nat.min_le_right _ _

/-- `setup_hid_device` behind a transfer that filled the buffer. -/
theorem setupHidDevice_some (d : UsbDevice) (buf : ConfigBuf) :
    setupHidDevice d (some buf) = if peek buf 0 < 9 then .ok ⟨d, [.request d.address configRequest]⟩
      else walk buf d.address (totalOf buf) 65 9 false ⟨d, [.request d.address configRequest]⟩ := by
  rw [setupHidDevice, byteAt_of_lt (by decide), bind_ok]
  split
  · rfl
  · rw [byteAt_of_lt (by decide), bind_ok, byteAt_of_lt (by decide), bind_ok]
    rfl

theorem setupHidDevice_ne_fuel (d : UsbDevice) (buf : ConfigBuf) :
    setupHidDevice d (some buf) ≠ .error .fuel := by
  rw [setupHidDevice_some]
  split
  · simp
  · exact walk_ne_fuel (totalOf_le buf) 65 9 false _ (by have := totalOf_le buf; omega)

/-- The lengths of a buffer lead to its last byte. -/
def LeadsToLast (buf : ConfigBuf) : Prop :=
  9 ≤ peek buf 0 ∧ totalOf buf = 64 ∧ ∃ found, Visits buf 64 63 found

theorem setupHidDevice_panic_iff (d : UsbDevice) (buf : ConfigBuf) :
    setupHidDevice d (some buf) = .error .panic ↔ LeadsToLast buf := by
  rw [setupHidDevice_some, LeadsToLast]
  split
  · rename_i hshort
    simp only [reduceCtorEq, false_iff, not_and]
    exact fun hlong => absurd hshort (UInt8.not_lt.mpr hlong)
  · rename_i hlong
    rw [walk_panic_iff (totalOf_le buf)]
    constructor
    · rintro ⟨htotal, found, hvisits⟩
      rw [htotal] at hvisits
      exact ⟨UInt8.not_lt.mp hlong, htotal, found, hvisits⟩
    · rintro ⟨-, htotal, found, hvisits⟩
      rw [htotal]
      exact ⟨rfl, found, hvisits⟩

/-! ## What the walk leaves alone -/

/-- The entry keeps its place and its address, and its state unless it becomes ready. -/
structure SameEntry (d d' : UsbDevice) : Prop where
  valid : d'.valid = d.valid
  port : d'.port = d.port
  address : d'.address = d.address
  state : d'.state = d.state ∨ d'.state = .ready

namespace SameEntry

theorem refl (d : UsbDevice) : SameEntry d d := ⟨rfl, rfl, rfl, Or.inl rfl⟩

theorem trans {d d' d'' : UsbDevice} (h : SameEntry d d') (h' : SameEntry d' d'') :
    SameEntry d d'' where
  valid := h'.valid.trans h.valid
  port := h'.port.trans h.port
  address := h'.address.trans h.address
  state := by
    rcases h'.state with hkeep | hready
    · rw [hkeep]
      exact h.state
    · exact Or.inr hready

end SameEntry

/-- The device behind a turn. -/
def Turn.hid : Turn → Hid
  | .done h => h
  | .next _ _ h => h

section Same

variable {buf : ConfigBuf} {addr : UInt8} {total : Nat}

theorem passed_same (i : Nat) (h : Hid) :
    SameEntry h.device (passed buf addr total i h).device := by
  rw [passed]
  split
  · exact ⟨rfl, rfl, rfl, Or.inl rfl⟩
  · exact .refl _

theorem turn_same (htotal : total ≤ 64) {i : Nat} (hi : i < total) {found : Bool} {h : Hid}
    {t : Turn} (hturn : turn buf addr total i found h = .ok t) : SameEntry h.device t.hid.device := by
  by_cases hlast : i = 63
  · rw [hlast, turn_last] at hturn
    cases hturn
  · rw [turn_eq (by omega) htotal] at hturn
    cases hturn
    split
    · exact .refl _
    · split
      · exact ⟨rfl, rfl, rfl, Or.inr rfl⟩
      · exact passed_same i h

theorem walk_same (htotal : total ≤ 64) (fuel : Nat) {i : Nat} {found : Bool} {h h' : Hid}
    (hwalk : walk buf addr total fuel i found h = .ok h') : SameEntry h.device h'.device := by
  induction fuel generalizing i found h with
  | zero => cases hwalk
  | succ fuel ih =>
      rw [walk] at hwalk
      split at hwalk
      · rename_i hi
        obtain ⟨t, hturn, hrest⟩ := bind_eq_ok hwalk
        have hsame := turn_same htotal hi hturn
        cases t with
        | done h₁ =>
            cases hrest
            exact hsame
        | next i' found' h₁ => exact hsame.trans (ih hrest)
      · cases hwalk
        exact .refl _

end Same

/-- `setup_hid_device` changes the class fields and the endpoint, and makes the device ready. -/
theorem setupHidDevice_same {d : UsbDevice} {config : Option ConfigBuf} {h : Hid}
    (hrun : setupHidDevice d config = .ok h) : SameEntry d h.device := by
  cases config with
  | none =>
      cases hrun
      exact .refl d
  | some buf =>
      rw [setupHidDevice_some] at hrun
      split at hrun
      · cases hrun
        exact .refl d
      · exact walk_same (totalOf_le buf) 65 hrun

end PureOS.Usb
