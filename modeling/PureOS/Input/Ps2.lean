import Mathlib.Logic.Function.Basic
import PureOS.Foundation.Bytes

set_option autoImplicit false

/-!
# Input: the PS/2 drivers (`keyboard.rs`, `ps2mouse.rs`)

One controller with a queue of bytes, and two drivers that poll it.  Bytes may arrive whenever
the status is read: a call comes with what arrives at each of its reads.  The bytes that were
given to the decoder of scancodes and to the assembler of packets are kept with the drivers.
-/

namespace PureOS.Input

open PureOS.Foundation

/-- A byte in the controller: of the keyboard, or of the auxiliary port. -/
structure Tagged where
  byte : UInt8
  aux : Bool
  deriving DecidableEq

/-- What comes with a read of the status: bytes that arrive, and `STATUS_IBF`. -/
structure Tick where
  bytes : List Tagged
  ibf : Bool

/-- The queue, what comes with the next reads of the status, and all that has arrived. -/
structure Controller where
  queue : List Tagged
  coming : List Tick
  arrived : List Tagged

/-- The bits of the status that are looked at. -/
structure Status where
  obf : Bool
  ibf : Bool
  aux : Bool

namespace Controller

/-- The controller when a call begins that `ticks` come with. -/
def during (c : Controller) (ticks : List Tick) : Controller := { c with coming := ticks }

/-- What comes with the next read of the status has come. -/
def advance (c : Controller) : Controller where
  queue := c.queue ++ (c.coming.headD ⟨[], false⟩).bytes
  coming := c.coming.tail
  arrived := c.arrived ++ (c.coming.headD ⟨[], false⟩).bytes

/-- `inb(0x64)`. -/
def readStatus (c : Controller) : Status × Controller :=
  (⟨!c.advance.queue.isEmpty, (c.coming.headD ⟨[], false⟩).ibf,
    (c.advance.queue.head?.map Tagged.aux).getD false⟩, c.advance)

/-- `inb(0x60)`. -/
def readData (c : Controller) : UInt8 × Controller :=
  ((c.queue.head?.map Tagged.byte).getD 0, { c with queue := c.queue.tail })

/-- `drain`, and the loop in `keyboard::init`. -/
def drain : Nat → Controller → Controller
  | 0, c => c
  | n + 1, c =>
      let (status, c) := c.readStatus
      if ¬status.obf then c else drain n c.readData.2

/-- `wait_write`. -/
def waitWrite : Nat → Controller → Controller
  | 0, c => c
  | n + 1, c =>
      let (status, c) := c.readStatus
      if ¬status.ibf then c else waitWrite n c

/-- `wait_read`. -/
def waitRead : Nat → Controller → Bool × Controller
  | 0, c => (false, c)
  | n + 1, c =>
      let (status, c) := c.readStatus
      if status.obf then (true, c) else waitRead n c

/-- The loop of `send_to_mouse` that waits for `ACK`. -/
def waitAck : Nat → Controller → Bool × Controller
  | 0, c => (false, c)
  | n + 1, c =>
      match c.waitRead 1000 with
      | (false, c) => waitAck n c
      | (true, c) =>
          let (byte, c) := c.readData
          if byte = 0xfa then (true, c) else waitAck n c

/-- `send_to_mouse`.  What is written to the ports is answered by what arrives. -/
def sendToMouse (c : Controller) : Bool × Controller :=
  ((c.waitWrite 1000).waitWrite 1000).waitAck 500

end Controller

/-! ## The keyboard -/

/-- `KEY_META`. -/
def keyMeta : UInt8 := 0xfb

/-- `NORMAL_MAP`, as the rows of keys from a code on. -/
def normalMap : List (Nat × List UInt8) :=
  [(0x01, [0x1b]), (0x02, ascii "1234567890-="), (0x0e, [0x08]), (0x0f, [0x09]),
    (0x10, ascii "qwertyuiop[]"), (0x1c, [0x0a]), (0x1e, ascii "asdfghjkl;'`"), (0x2b, ascii "\\"),
    (0x2c, ascii "zxcvbnm,./"), (0x37, ascii "*"), (0x39, ascii " ")]

/-- `SHIFT_MAP`. -/
def shiftMap : List (Nat × List UInt8) :=
  [(0x01, [0x1b]), (0x02, ascii "!@#$%^&*()_+"), (0x0e, [0x08]), (0x0f, [0x09]),
    (0x10, ascii "QWERTYUIOP\x7b\x7d"), (0x1c, [0x0a]), (0x1e, ascii "ASDFGHJKL:\"~"),
    (0x2b, ascii "|"), (0x2c, ascii "ZXCVBNM<>?"), (0x37, ascii "*"), (0x39, ascii " ")]

/-- The entry of a table for a code. -/
def entryAt (rows : List (Nat × List UInt8)) (code : Nat) : UInt8 :=
  match rows.find? fun r => r.1 ≤ code && code < r.1 + r.2.length with
  | none => 0
  | some r => r.2.getD (code - r.1) 0

/-- The statics of `keyboard.rs`, and the bytes that `handle_scancode` was called with. -/
structure Keyboard where
  keybuf : Nat → UInt8
  head : Nat
  tail : Nat
  initDone : Bool
  shift : Bool
  extended : Bool
  decoded : List UInt8

namespace Keyboard

/-- `push_buf`. -/
def pushBuf (k : Keyboard) (ch : UInt8) : Keyboard :=
  let next := (k.head + 1) % 256
  if next ≠ k.tail then { k with keybuf := Function.update k.keybuf k.head ch, head := next }
  else k

/-- `handle_scancode`. -/
def handleScancode (k : Keyboard) (code : UInt8) : Keyboard :=
  let k := { k with decoded := k.decoded ++ [code] }
  if code = 0xe0 then { k with extended := true }
  else if code = 0x5b ∨ code = 0x5c then k.pushBuf keyMeta
  else if code = 0x2a ∨ code = 0x36 then { k with shift := true }
  else if code = 0xaa ∨ code = 0xb6 then { k with shift := false }
  else if code.toNat.testBit 7 then { k with extended := false }
  else if k.extended then { k with extended := false }
  else
    let ch := entryAt (if k.shift then shiftMap else normalMap) (code.toNat % 128)
    if ch ≠ 0 then k.pushBuf ch else k

/-- `init`. -/
def init (k : Keyboard) (c : Controller) : Keyboard × Controller :=
  ({ k with head := 0, tail := 0, shift := false, extended := false, initDone := true }, c.drain 32)

/-- The loop of `poll`. -/
def pollLoop : Nat → Keyboard → Controller → Keyboard × Controller
  | 0, k, c => (k, c)
  | n + 1, k, c =>
      let (status, c) := c.readStatus
      if ¬status.obf then (k, c)
      else
        let (code, c) := c.readData
        if status.aux then pollLoop n k c else pollLoop n (k.handleScancode code) c

/-- `poll`. -/
def poll (k : Keyboard) (c : Controller) : Keyboard × Controller :=
  let (k, c) := if ¬k.initDone then k.init c else (k, c)
  pollLoop 64 k c

/-- `read_key`. -/
def readKey (k : Keyboard) (c : Controller) : Option UInt8 × Keyboard × Controller :=
  let (k, c) := k.poll c
  if k.tail = k.head then (none, k, c)
  else (some (k.keybuf k.tail), { k with tail := (k.tail + 1) % 256 }, c)

end Keyboard

/-! ## The mouse -/

/-- What the driver asks of the framebuffer and of the configuration. -/
structure Screen where
  width : Int
  height : Int
  sensitivity : Int

/-- The statics of `ps2mouse.rs`, and the bytes that were put into `PACKET_BUF`. -/
structure Mouse where
  initDone : Bool
  initFailed : Bool
  retryTicks : Nat
  enabled : Bool
  packetBuf : Nat → UInt8
  packetPos : Nat
  x : Int
  y : Int
  buttons : UInt8
  assembled : List UInt8

namespace Mouse

/-- `init`. -/
def init (screen : Screen) (m : Mouse) (c : Controller) : Mouse × Controller :=
  if m.initDone ∨ m.initFailed then (m, c)
  else
    match ((c.drain 64).waitWrite 1000).waitRead 1000 with
    | (false, c) => ({ m with initFailed := true }, c)
    | (true, c) =>
        let c := ((c.readData.2.waitWrite 1000).waitWrite 1000).waitWrite 1000
        let (defaultsOk, c) := c.sendToMouse
        let (enableOk, c) := c.sendToMouse
        if ¬defaultsOk ∧ ¬enableOk then ({ m with initFailed := true, retryTicks := 0 }, c)
        else
          ({ m with
            initDone := true
            packetPos := 0
            x := screen.width.tdiv 2
            y := screen.height.tdiv 2 }, c.drain 64)

/-- A displacement: the sign is in the first byte. -/
def delta (screen : Screen) (negative : Bool) (raw : UInt8) : Int :=
  ((if negative then (raw.toNat : Int) - 256 else raw.toNat) * screen.sensitivity).tdiv 5

/-- A packet is complete: the position and the buttons. -/
def move (screen : Screen) (m : Mouse) : Mouse :=
  let b0 := m.packetBuf 0
  let dx := delta screen (b0.toNat.testBit 4) (m.packetBuf 1)
  let dy := delta screen (b0.toNat.testBit 5) (m.packetBuf 2)
  { m with
    x := min (max (m.x + dx) 0) (screen.width - 1)
    y := min (max (m.y - dy) 0) (screen.height - 1)
    buttons := b0 &&& 7
    packetPos := 0 }

/-- A byte of the mouse is put into the packet.  The number counts the packets that began with a
wrong byte since the poll began. -/
def assemble (screen : Screen) (m : Mouse) (desyncs : Nat) (byte : UInt8) : Mouse × Nat :=
  let m := { m with
    packetBuf := Function.update m.packetBuf m.packetPos byte
    packetPos := m.packetPos + 1
    assembled := m.assembled ++ [byte] }
  if m.packetPos ≠ 3 then (m, desyncs)
  else if (m.packetBuf 0).toNat.testBit 3 then (m.move screen, desyncs)
  else if desyncs + 1 ≥ 3 then ({ m with packetPos := 0 }, desyncs + 1)
  else
    let buf := Function.update m.packetBuf 0 (m.packetBuf 1)
    ({ m with packetBuf := Function.update buf 1 (m.packetBuf 2), packetPos := 2 }, desyncs + 1)

/-- The loop of `poll`. -/
def pollLoop (screen : Screen) : Nat → Nat → Mouse → Controller → Mouse × Controller
  | 0, _, m, c => (m, c)
  | n + 1, desyncs, m, c =>
      let (status, c) := c.readStatus
      if ¬status.obf then (m, c)
      else
        let (byte, c) := c.readData
        if ¬status.aux then pollLoop screen n desyncs m c
        else
          let (m, desyncs) := m.assemble screen desyncs byte
          pollLoop screen n desyncs m c

/-- `poll`. -/
def poll (screen : Screen) (m : Mouse) (c : Controller) : Mouse × Controller :=
  if ¬m.enabled then (m, c)
  else if m.initDone then pollLoop screen 16 0 m c
  else if m.initFailed then
    if m.retryTicks + 1 ≥ 300 then init screen { m with retryTicks := 0, initFailed := false } c
    else ({ m with retryTicks := m.retryTicks + 1 }, c)
  else
    let (m, c) := init screen m c
    if m.initFailed then (m, c) else pollLoop screen 16 0 m c

end Mouse

end PureOS.Input
