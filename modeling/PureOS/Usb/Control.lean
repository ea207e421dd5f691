import Mathlib.Algebra.Group.Nat.Defs
import Mathlib.Logic.Relation
import Mathlib.Tactic.IntervalCases
import PureOS.Foundation.Bytes
import PureOS.Foundation.Packing

set_option autoImplicit false

/-!
# USB: control transfers of the EHCI driver (`ehci.rs`)

The driver writes a queue head and up to three transfer descriptors into static arrays and rings
the doorbell; the controller then follows the links it finds in memory.  The setup packet shares
its bytes with the first two words of the setup descriptor, which are written later.
-/

namespace PureOS.Usb

open PureOS.Foundation

/-! ## Memory -/

/-- The physical memory, byte by byte. -/
abbrev Memory := Nat → UInt8

/-- The 32-bit word at an address. -/
def word (m : Memory) (a : Nat) : Nat := readLE m a 4

/-- `QH_SIZE` and `QTD_SIZE`. -/
def qhSize : Nat := 48

def qtdSize : Nat := 32

/-- The statics of a control transfer. -/
inductive Static where
  | asyncHeadQh | ctrlQh | ctrlQtdSetup | ctrlQtdData | ctrlQtdStatus
  deriving DecidableEq

/-- The size of the array. -/
def Static.size : Static → Nat
  | .asyncHeadQh | .ctrlQh => qhSize
  | .ctrlQtdSetup | .ctrlQtdData | .ctrlQtdStatus => qtdSize

/-- Where the linker puts the statics: apart from each other, below 4 GiB, and not at address 0
or 1. -/
structure Placement where
  addr : Static → Nat
  above : ∀ s, 1 < addr s
  below : ∀ s, addr s + s.size ≤ 2 ^ 32
  apart : ∀ s t, s ≠ t → addr s + s.size ≤ addr t ∨ addr t + t.size ≤ addr s

namespace Placement

variable (p : Placement)

/-- The word `i` of a static. -/
def read32 (m : Memory) (s : Static) (i : Nat) : Nat := word m (p.addr s + 4 * i)

/-- `write_volatile(s.add(i), v)`. -/
def write32 (m : Memory) (s : Static) (i v : Nat) : Memory := writeLE m (p.addr s + 4 * i) 4 v

/-- `for i in 0..SIZE/4 { write_volatile(s.add(i), 0u32); }`. -/
def clear (m : Memory) (s : Static) : Memory :=
  (List.range (s.size / 4)).foldl (fun m i => p.write32 m s i 0) m

end Placement

/-! ## The code -/

/-- `SetupPacket`. -/
structure SetupPacket where
  bmRequestType : UInt8
  bRequest : UInt8
  wValue : UInt16
  wIndex : UInt16
  wLength : UInt16

/-- `write_setup_buf`. -/
def writeSetupBuf (m : Memory) (buf : Nat) (sp : SetupPacket) : Memory :=
  let m := writeLE m buf 1 sp.bmRequestType.toNat
  let m := writeLE m (buf + 1) 1 sp.bRequest.toNat
  let m := writeLE m (buf + 2) 2 sp.wValue.toNat
  let m := writeLE m (buf + 4) 2 sp.wIndex.toNat
  writeLE m (buf + 6) 2 sp.wLength.toNat

/-- `TOKEN_ACTIVE`, `TOKEN_IOC` and the `TOKEN_PID_*`. -/
def tokenActive : Nat := 1 <<< 7

def tokenIoc : Nat := 1 <<< 15

def tokenPidOut : Nat := 0

def tokenPidIn : Nat := 1

def tokenPidSetup : Nat := 2

/-- The link that ends a chain. -/
def terminate : Nat := 1

/-- `TOKEN_ACTIVE | pid | (len << 16) | TOKEN_IOC`. -/
def token (pid len : Nat) : Nat := tokenActive ||| pid ||| (len <<< 16) ||| tokenIoc

/-- A buffer of the caller: `as_ptr()` and `len()`. -/
structure Buffer where
  ptr : UInt64
  len : Nat

section Transfer

variable (p : Placement)

/-- The four `Clear all` loops. -/
def clearAll (m : Memory) : Memory :=
  let m := p.clear m .ctrlQh
  let m := p.clear m .ctrlQtdSetup
  let m := p.clear m .ctrlQtdData
  p.clear m .ctrlQtdStatus

/-- From `qh_char` to the end of the setup stage. -/
def setupStage (m : Memory) (targetAddr : UInt8) (setup : SetupPacket) : Memory :=
  let m := p.write32 m .ctrlQh 2 ((targetAddr.toNat <<< 16) ||| (0 <<< 12) ||| 64)
  let m := writeSetupBuf m (p.addr .ctrlQtdSetup) setup
  let m := p.write32 m .ctrlQtdSetup 0 terminate
  let m := p.write32 m .ctrlQtdSetup 1 terminate
  let m := p.write32 m .ctrlQtdSetup 2 (token tokenPidSetup 8)
  let m := p.write32 m .ctrlQtdSetup 3 (p.addr .ctrlQtdSetup)
  p.write32 m .ctrlQtdSetup 0 (p.addr .ctrlQtdData)

/-- `let (pid, buf_phys, len) = ..`: an output buffer goes first. -/
def dataFields (dataOut dataIn : Option Buffer) : Option (Nat × Buffer) :=
  match dataOut, dataIn with
  | some out, _ => some (tokenPidOut, out)
  | none, some inn => some (tokenPidIn, inn)
  | none, none => none

/-- `if has_data { .. } else { .. }`. -/
def putDataStage (m : Memory) (dataOut dataIn : Option Buffer) : Memory :=
  match dataFields dataOut dataIn with
  | some (pid, buf) =>
      let dataLen := min (buf.len % 2 ^ 32) 4096
      let m := p.write32 m .ctrlQtdData 0 terminate
      let m := p.write32 m .ctrlQtdData 1 terminate
      let m := p.write32 m .ctrlQtdData 2 (token pid dataLen)
      let m := p.write32 m .ctrlQtdData 3 buf.ptr.toNat
      let m := p.write32 m .ctrlQtdSetup 0 (p.addr .ctrlQtdData)
      p.write32 m .ctrlQtdData 0 (p.addr .ctrlQtdStatus)
  | none => p.write32 m .ctrlQtdSetup 0 (p.addr .ctrlQtdStatus)

/-- The status stage, and the overlay of the queue head. -/
def putStatusStage (m : Memory) (dataIn : Option Buffer) : Memory :=
  let statusPid := if dataIn.isSome then tokenPidOut else tokenPidIn
  let m := p.write32 m .ctrlQtdStatus 0 terminate
  let m := p.write32 m .ctrlQtdStatus 1 terminate
  p.write32 m .ctrlQtdStatus 2 (token statusPid 0)

/-- `Link QH to async list`. -/
def linkQueue (m : Memory) : Memory :=
  let m := p.write32 m .ctrlQh 3 (p.addr .ctrlQtdSetup)
  let m := p.write32 m .ctrlQh 4 0
  let m := p.write32 m .ctrlQh 5 (token tokenPidSetup 8)
  let m := p.write32 m .ctrlQh 6 (p.addr .ctrlQtdSetup)
  p.write32 m .asyncHeadQh 0 (p.addr .ctrlQh ||| 2 ||| 0)

/-- `control_transfer_with_addr` up to the doorbell: the memory that the controller finds. -/
def controlTransferWithAddr (m : Memory) (targetAddr : UInt8) (setup : SetupPacket)
    (dataOut dataIn : Option Buffer) : Memory :=
  let m := clearAll p m
  let m := setupStage p m targetAddr setup
  let m := putDataStage p m dataOut dataIn
  let m := putStatusStage p m dataIn
  linkQueue p m

end Transfer

/-! ## What the controller should find -/

/-- The little-endian encoding of a setup packet. -/
def SetupPacket.encode (sp : SetupPacket) : List UInt8 :=
  [sp.bmRequestType, sp.bRequest] ++ toLE 2 sp.wValue.toNat ++ toLE 2 sp.wIndex.toNat ++
    toLE 2 sp.wLength.toNat

/-- Where the data go. -/
inductive Direction where
  | toDevice | toHost

namespace Direction

/-- The packet identifier of a direction. -/
def pid : Direction → Nat
  | toDevice => tokenPidOut
  | toHost => tokenPidIn

/-- The other direction. -/
def opposite : Direction → Direction
  | toDevice => toHost
  | toHost => toDevice

end Direction

/-- The data stage of a transfer: at most 4096 bytes. -/
structure DataStage where
  direction : Direction
  buf : Buffer
  fits : buf.len ≤ 4096

/-- The arguments `data_out` and `data_in` for a stage. -/
def dataOut : Option DataStage → Option Buffer
  | some ⟨.toDevice, buf, _⟩ => some buf
  | _ => none

def dataIn : Option DataStage → Option Buffer
  | some ⟨.toHost, buf, _⟩ => some buf
  | _ => none

/-- The direction of the status stage: against the data, and to the host without them. -/
def statusDirection (stage : Option DataStage) : Direction :=
  stage.elim .toHost fun d => d.direction.opposite

/-- The links of a descriptor: the next one and the alternate one. -/
def linksOf (m : Memory) (a : Nat) : List Nat := [word m a, word m (a + 4)]

/-- From one descriptor the controller may come to another one. -/
def Leads (m : Memory) (a b : Nat) : Prop := b ∈ linksOf m a ∧ b ≠ terminate

/-- The links lead through the descriptors in order, and then end. -/
def Chain (m : Memory) (link : Nat) : List Nat → Prop
  | [] => link = terminate
  | a :: as => link = a ∧ link ≠ terminate ∧ Chain m (word m a) as

/-- An active descriptor with its packet identifier and its length. -/
structure Transfers (m : Memory) (a pid len : Nat) : Prop where
  active : word m (a + 8) / 2 ^ 7 % 2 = 1
  identifier : word m (a + 8) % 2 ^ 2 = pid
  length : word m (a + 8) / 2 ^ 16 % 2 ^ 15 = len

/-- The second descriptor of a transfer. -/
def second : Option DataStage → Static
  | some _ => .ctrlQtdData
  | none => .ctrlQtdStatus

/-- The descriptors of a transfer in order. -/
def descriptors : Option DataStage → List Static
  | some _ => [.ctrlQtdSetup, .ctrlQtdData, .ctrlQtdStatus]
  | none => [.ctrlQtdSetup, .ctrlQtdStatus]

/-- What memory holds of a transfer that was handed over. -/
structure HandedOver (p : Placement) (m : Memory) (targetAddr : UInt8) (setup : SetupPacket)
    (stage : Option DataStage) : Prop where
  queued : word m (p.addr .asyncHeadQh) = p.addr .ctrlQh ||| 2
  addressed : word m (p.addr .ctrlQh + 8) / 2 ^ 16 % 2 ^ 12 = targetAddr.toNat
  chain : Chain m (word m (p.addr .ctrlQh + 12)) ((descriptors stage).map p.addr)
  alone : ∀ a, Relation.ReflTransGen (Leads m) (word m (p.addr .ctrlQh + 12)) a →
    a ∈ (descriptors stage).map p.addr
  setupTd : Transfers m (p.addr .ctrlQtdSetup) tokenPidSetup 8
  dataTd : ∀ d ∈ stage, Transfers m (p.addr .ctrlQtdData) d.direction.pid d.buf.len ∧
    word m (p.addr .ctrlQtdData + 12) = d.buf.ptr.toNat % 2 ^ 32
  statusTd : Transfers m (p.addr .ctrlQtdStatus) (statusDirection stage).pid 0
  packet : slice m (word m (p.addr .ctrlQtdSetup + 12)) 8 = setup.encode

/-! ## Words of the statics -/

namespace Placement

variable (p : Placement)

theorem read32_write32_same (m : Memory) (s : Static) (i v : Nat) :
    p.read32 (p.write32 m s i v) s i = v % 2 ^ 32 := readLE_writeLE_same m _ 4 v

/-- A write to another word does not matter. -/
theorem read32_write32_ne (m : Memory) {s t : Static} {i j : Nat} (v : Nat)
    (hi : i < s.size / 4) (hj : j < t.size / 4) (h : s ≠ t ∨ i ≠ j) :
    p.read32 (p.write32 m s i v) t j = p.read32 m t j := by
  refine readLE_writeLE_of_disjoint m v ?_
  rcases eq_or_ne s t with rfl | hst
  · have hne : i ≠ j := h.resolve_left fun hss => hss rfl
    omega
  · have hapart := p.apart s t hst
    omega

/-- The address of a static fits a word. -/
theorem addr_mod (s : Static) : p.addr s % 2 ^ 32 = p.addr s := by
  have hsize : 0 < s.size := by cases s <;> decide
  have hbelow := p.below s
  exact Nat.mod_eq_of_lt (by omega)

theorem addr_ne_terminate (s : Static) : p.addr s ≠ terminate := by
  have habove := p.above s
  unfold terminate
  omega

end Placement

theorem terminate_mod : terminate % 2 ^ 32 = terminate := rfl

/-! ## Tokens -/

/-- A token holds its length above 16 lower bits. -/
theorem token_eq {pid : Nat} (len : Nat) (h : pid < 4) :
    token pid len = len * 2 ^ 16 + (2 ^ 15 + 2 ^ 7 + pid) := by
  have hlow : tokenIoc ||| (tokenActive ||| pid) = 2 ^ 15 + 2 ^ 7 + pid := by
    interval_cases pid <;> rfl
  calc token pid len = pack 16 len (tokenIoc ||| (tokenActive ||| pid)) := by
        rw [token, pack, Nat.or_comm (tokenActive ||| pid), Nat.or_assoc,
          Nat.or_comm (tokenActive ||| pid), Nat.or_comm tokenIoc]
    _ = len * 2 ^ 16 + (2 ^ 15 + 2 ^ 7 + pid) := by
        rw [hlow, pack_eq (by omega)]

/-- A descriptor with a token is one with its fields. -/
theorem transfers_of_token {m : Memory} {a pid len : Nat} (hpid : pid < 4) (hlen : len < 2 ^ 15)
    (h : word m (a + 8) = token pid len % 2 ^ 32) : Transfers m a pid len := by
  rw [token_eq len hpid] at h
  constructor <;> omega

theorem Direction.pid_lt (d : Direction) : d.pid < 4 := by
  cases d <;> decide

/-! ## What is found -/

/-- The words of the statics when the doorbell rings. -/
structure Words (p : Placement) (m : Memory) (targetAddr : UInt8) (stage : Option DataStage) :
    Prop where
  head : p.read32 m .asyncHeadQh 0 = (p.addr .ctrlQh ||| 2) % 2 ^ 32
  device : p.read32 m .ctrlQh 2 = ((targetAddr.toNat <<< 16) ||| (0 <<< 12) ||| 64) % 2 ^ 32
  first : p.read32 m .ctrlQh 3 = p.addr .ctrlQtdSetup
  setupNext : p.read32 m .ctrlQtdSetup 0 = p.addr (second stage)
  setupAlt : p.read32 m .ctrlQtdSetup 1 = terminate
  setupToken : p.read32 m .ctrlQtdSetup 2 = token tokenPidSetup 8 % 2 ^ 32
  setupBuf : p.read32 m .ctrlQtdSetup 3 = p.addr .ctrlQtdSetup
  dataNext : ∀ d ∈ stage, p.read32 m .ctrlQtdData 0 = p.addr .ctrlQtdStatus
  dataAlt : ∀ d ∈ stage, p.read32 m .ctrlQtdData 1 = terminate
  dataToken : ∀ d ∈ stage, p.read32 m .ctrlQtdData 2 = token d.direction.pid d.buf.len % 2 ^ 32
  dataBuf : ∀ d ∈ stage, p.read32 m .ctrlQtdData 3 = d.buf.ptr.toNat % 2 ^ 32
  statusNext : p.read32 m .ctrlQtdStatus 0 = terminate
  statusAlt : p.read32 m .ctrlQtdStatus 1 = terminate
  statusToken : p.read32 m .ctrlQtdStatus 2 = token (statusDirection stage).pid 0 % 2 ^ 32

section Found

variable (p : Placement) (m : Memory) (targetAddr : UInt8) (setup : SetupPacket)
  (stage : Option DataStage)

/-- The memory that is handed over. -/
def handed : Memory :=
  controlTransferWithAddr p m targetAddr setup (dataOut stage) (dataIn stage)

theorem dataFields_eq :
    dataFields (dataOut stage) (dataIn stage) = stage.map fun d => (d.direction.pid, d.buf) := by
  rcases stage with - | ⟨- | -, buf, fits⟩ <;> rfl

theorem statusPid_eq : (if (dataIn stage).isSome then tokenPidOut else tokenPidIn) =
    (statusDirection stage).pid := by
  rcases stage with - | ⟨- | -, buf, fits⟩ <;> rfl

/-- The setup packet goes into the setup descriptor alone. -/
theorem read32_writeSetupBuf (m : Memory) {t : Static} {j : Nat} (hj : j < t.size / 4)
    (h : t ≠ .ctrlQtdSetup) :
    p.read32 (writeSetupBuf m (p.addr .ctrlQtdSetup) setup) t j = p.read32 m t j := by
  have hapart := p.apart t .ctrlQtdSetup h
  have hsize : Static.ctrlQtdSetup.size = 32 := rfl
  unfold Placement.read32 word writeSetupBuf
  simp (disch := omega) only [readLE_writeLE_of_disjoint]

/-- The stages of the transfer, with its arguments put in. -/
theorem handed_eq : handed p m targetAddr setup stage =
    linkQueue p (p.write32 (p.write32 (p.write32
      (putDataStage p (setupStage p (clearAll p m) targetAddr setup) (dataOut stage) (dataIn stage))
      .ctrlQtdStatus 0 terminate) .ctrlQtdStatus 1 terminate) .ctrlQtdStatus 2
        (token (statusDirection stage).pid 0)) := by
  rw [← statusPid_eq]
  rfl

theorem handed_words : Words p (handed p m targetAddr setup stage) targetAddr stage := by
  rw [handed_eq, putDataStage, dataFields_eq]
  cases stage with
  | none =>
      constructor <;>
        simp (disch := decide) only [linkQueue, Option.map, setupStage, second, terminate_mod,
          Placement.read32_write32_same, Placement.read32_write32_ne, read32_writeSetupBuf,
          Placement.addr_mod, Nat.or_zero, Option.mem_def, reduceCtorEq, false_implies,
          implies_true]
  | some d =>
      have hlen : min (d.buf.len % 2 ^ 32) 4096 = d.buf.len := by
        have hfits := d.fits
        omega
      constructor <;>
        simp (disch := decide) only [linkQueue, Option.map, setupStage, second, terminate_mod,
          hlen,
          Placement.read32_write32_same, Placement.read32_write32_ne, read32_writeSetupBuf,
          Placement.addr_mod, Nat.or_zero, Option.mem_def, Option.some.injEq, forall_eq']

end Found

/-! ## From the words to the chain -/

namespace Words

variable {p : Placement} {m : Memory} {targetAddr : UInt8} {stage : Option DataStage}

/-- The links of a descriptor of the transfer lead to the next one, or end. -/
theorem leads (w : Words p m targetAddr stage) {a b : Nat}
    (ha : a ∈ (descriptors stage).map p.addr) (h : Leads m a b) :
    b ∈ (descriptors stage).map p.addr := by
  obtain ⟨hlink, hne⟩ := h
  have hsetup : linksOf m (p.addr .ctrlQtdSetup) = [p.addr (second stage), terminate] :=
    congrArg₂ (fun x y => [x, y]) w.setupNext w.setupAlt
  have hstatus : linksOf m (p.addr .ctrlQtdStatus) = [terminate, terminate] :=
    congrArg₂ (fun x y => [x, y]) w.statusNext w.statusAlt
  cases stage with
  | none =>
      simp only [descriptors, second, List.map_cons, List.map_nil, List.mem_cons,
        List.not_mem_nil, or_false] at ha hsetup ⊢
      rcases ha with rfl | rfl
      · simp only [hsetup, List.mem_cons, List.not_mem_nil, or_false] at hlink
        exact Or.inr (hlink.resolve_right hne)
      · simp only [hstatus, List.mem_cons, List.not_mem_nil, or_false, or_self] at hlink
        exact absurd hlink hne
  | some d =>
      have hdata : linksOf m (p.addr .ctrlQtdData) = [p.addr .ctrlQtdStatus, terminate] :=
        congrArg₂ (fun x y => [x, y]) (w.dataNext d rfl) (w.dataAlt d rfl)
      simp only [descriptors, second, List.map_cons, List.map_nil, List.mem_cons,
        List.not_mem_nil, or_false] at ha hsetup ⊢
      rcases ha with rfl | rfl | rfl
      · simp only [hsetup, List.mem_cons, List.not_mem_nil, or_false] at hlink
        exact Or.inr (Or.inl (hlink.resolve_right hne))
      · simp only [hdata, List.mem_cons, List.not_mem_nil, or_false] at hlink
        exact Or.inr (Or.inr (hlink.resolve_right hne))
      · simp only [hstatus, List.mem_cons, List.not_mem_nil, or_false, or_self] at hlink
        exact absurd hlink hne

theorem chain (w : Words p m targetAddr stage) :
    Chain m (word m (p.addr .ctrlQh + 12)) ((descriptors stage).map p.addr) := by
  have hfirst : word m (p.addr .ctrlQh + 12) = p.addr .ctrlQtdSetup := w.first
  have hsetup : word m (p.addr .ctrlQtdSetup) = p.addr (second stage) := w.setupNext
  have hstatus : word m (p.addr .ctrlQtdStatus) = terminate := w.statusNext
  rw [hfirst]
  cases stage with
  | none =>
      rw [second] at hsetup
      refine ⟨rfl, p.addr_ne_terminate _, ?_⟩
      rw [hsetup]
      exact ⟨rfl, p.addr_ne_terminate _, hstatus⟩
  | some d =>
      have hdata : word m (p.addr .ctrlQtdData) = p.addr .ctrlQtdStatus := w.dataNext d rfl
      rw [second] at hsetup
      refine ⟨rfl, p.addr_ne_terminate _, ?_⟩
      rw [hsetup]
      refine ⟨rfl, p.addr_ne_terminate _, ?_⟩
      rw [hdata]
      exact ⟨rfl, p.addr_ne_terminate _, hstatus⟩

/-- Nothing else is reached. -/
theorem alone (w : Words p m targetAddr stage) {a : Nat}
    (h : Relation.ReflTransGen (Leads m) (word m (p.addr .ctrlQh + 12)) a) :
    a ∈ (descriptors stage).map p.addr := by
  have hfirst : word m (p.addr .ctrlQh + 12) = p.addr .ctrlQtdSetup := w.first
  induction h with
  | refl =>
      rw [hfirst]
      cases stage <;> exact List.mem_cons_self
  | tail _ hlast ih => exact w.leads ih hlast

theorem addressed (w : Words p m targetAddr stage) :
    word m (p.addr .ctrlQh + 8) / 2 ^ 16 % 2 ^ 12 = targetAddr.toNat := by
  have hdevice : word m (p.addr .ctrlQh + 8) = (targetAddr.toNat <<< 16 ||| 0 <<< 12 ||| 64) %
    2 ^ 32 := w.device
  have hlt : targetAddr.toNat < 2 ^ 8 := targetAddr.toNat_lt
  have hpack : targetAddr.toNat <<< 16 ||| 0 <<< 12 ||| 64 = targetAddr.toNat * 2 ^ 16 + 64 := by
    rw [Nat.zero_shiftLeft, Nat.or_zero]
    exact pack_eq (by decide)
  rw [hdevice, hpack]
  omega

/-- What the controller takes for the setup packet: the links of the setup descriptor. -/
theorem packet (w : Words p m targetAddr stage) :
    slice m (word m (p.addr .ctrlQtdSetup + 12)) 8 =
      toLE 4 (p.addr (second stage)) ++ toLE 4 terminate := by
  have hbuf : word m (p.addr .ctrlQtdSetup + 12) = p.addr .ctrlQtdSetup := w.setupBuf
  have hnext : readLE m (p.addr .ctrlQtdSetup) 4 = p.addr (second stage) := w.setupNext
  have halt : readLE m (p.addr .ctrlQtdSetup + 4) 4 = terminate := w.setupAlt
  calc slice m (word m (p.addr .ctrlQtdSetup + 12)) 8
      = slice m (p.addr .ctrlQtdSetup) 4 ++ slice m (p.addr .ctrlQtdSetup + 4) 4 := by
        rw [hbuf, ← slice_append]
    _ = toLE 4 (p.addr (second stage)) ++ toLE 4 terminate := by
        rw [slice_eq_toLE, slice_eq_toLE, hnext, halt]

end Words

/-! ## The result -/

/-- The transfer is handed over as it should be exactly if the encoding of its packet is what the
links of the setup descriptor leave in its place. -/
theorem controlTransfer_handedOver_iff (p : Placement) (m : Memory) (targetAddr : UInt8) (setup : SetupPacket)
    (stage : Option DataStage) :
    HandedOver p (controlTransferWithAddr p m targetAddr setup (dataOut stage) (dataIn stage))
      targetAddr setup stage ↔
    setup.encode = toLE 4 (p.addr (second stage)) ++ toLE 4 terminate := by
  have w := handed_words p m targetAddr setup stage
  constructor
  · intro h
    rw [← h.packet]
    exact w.packet
  · intro henc
    refine ⟨?_, w.addressed, w.chain, fun a => w.alone, ?_, ?_, ?_, ?_⟩
    · have hhead : word _ (p.addr .asyncHeadQh) = (p.addr .ctrlQh ||| 2) % 2 ^ 32 := w.head
      have hqh : p.addr .ctrlQh < 2 ^ 32 := by
        rw [← p.addr_mod]
        exact Nat.mod_lt _ (by decide)
      exact hhead.trans (Nat.mod_eq_of_lt (Nat.or_lt_two_pow hqh (by decide)))
    · exact transfers_of_token (by decide) (by decide) w.setupToken
    · intro d hd
      have hfits := d.fits
      exact ⟨transfers_of_token d.direction.pid_lt (by omega) (w.dataToken d hd), w.dataBuf d hd⟩
    · exact transfers_of_token (statusDirection stage).pid_lt (by decide) w.statusToken
    · rw [henc]
      exact w.packet

/-- A placement from the start of the kernel on. -/
def Placement.fromBase : Placement where
  addr
    | .asyncHeadQh => 0x2000000
    | .ctrlQh => 0x2000040
    | .ctrlQtdSetup => 0x2000080
    | .ctrlQtdData => 0x20000A0
    | .ctrlQtdStatus => 0x20000C0
  above := by
    intro s
    cases s <;> decide
  below := by
    intro s
    cases s <;> decide
  apart := by
    intro s t
    cases s <;> cases t <;> decide

/-- The request of `desc_device_max_packet`: the first 8 bytes of the device descriptor. -/
def getDescriptor : SetupPacket := ⟨0x80, 6, 0x0100, 0, 8⟩

/-- Its data stage. -/
def intoBuf : DataStage := ⟨.toHost, ⟨0x2100000, 8⟩, by decide⟩

/-- The first request to a new device goes out with the links of its descriptor in place of the
packet. -/
theorem getDescriptor_not_handedOver : ¬ HandedOver .fromBase
    (controlTransferWithAddr .fromBase (fun _ => 0) 0 getDescriptor none (some ⟨0x2100000, 8⟩))
    0 getDescriptor (some intoBuf) := by
  intro h
  have w := handed_words .fromBase (fun _ => 0) 0 getDescriptor (some intoBuf)
  have hne : toLE 4 (Placement.fromBase.addr .ctrlQtdData) ++ toLE 4 terminate ≠
      getDescriptor.encode := by decide
  exact hne (w.packet.symm.trans h.packet)

end PureOS.Usb
