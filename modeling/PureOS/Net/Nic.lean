import PureOS.Foundation.Ring
import PureOS.Foundation.Run
import PureOS.Net.Packet

set_option autoImplicit false

/-!
# Net: the receive ring of the card (`net/nic.rs`)

The card writes records behind each other into a ring of 8192 bytes; `poll_rx` takes them out.
The header of a record is read as if it never went over the end of the ring, and a record that
leaves 16 bytes of the ring free looks like no record at all.  Everywhere else the polls hand
out the frames in the order in which they came in.
-/

namespace PureOS.Net

open PureOS.Foundation

/-! ## The code -/

/-- `RX_BUF_SIZE`. -/
def rxBufSize : Nat := 8192
/-- `_ALIGN`. -/
def rxAlign : Nat := 16

/-- The fields of `DMA` that receiving uses, and the registers CAPR and CBR. -/
structure Nic where
  rawRx : Packet
  rxStart : Nat
  rxCur : UInt16
  capr : UInt16
  cbr : UInt16
  initialized : Bool
  rawSize : rawRx.length = rxBufSize + rxAlign
  startLt : rxStart < rxAlign

/-- `for i in 0..n { buf[dst + i] = raw_rx[src + i] }`. -/
def copyInto (raw : Packet) (src dst : Nat) : Nat → Packet → Except Fault Packet
  | 0, buf => .ok buf
  | n + 1, buf => do
      let buf ← copyInto raw src dst n buf
      let b ← byte raw (src + n)
      if dst + n < buf.length then return buf.set (dst + n) b else throw .panic

/-- A subtraction that must not go below zero. -/
def subtract (a b : Nat) : Except Fault Nat := if b ≤ a then .ok (a - b) else .error .panic

namespace Nic

/-- Where `poll_rx` reads next. -/
def off (s : Nic) : Nat := s.rxCur.toNat % rxBufSize

/-- `DMA.rx_cur = cur; outw(io + REG_CAPR, DMA.rx_cur.wrapping_sub(16))`. -/
def moveTo (s : Nic) (cur : UInt16) : Nic := { s with rxCur := cur, capr := cur - 16 }

/-- What `poll_rx` does behind the header, with the length in it. -/
def readRecord (s : Nic) (pktLen : Nat) (buf : Packet) : Except Fault (Nat × Packet × Nic) :=
  if pktLen < 4 ∨ pktLen > rxBufSize then .ok (0, buf, s.moveTo s.cbr)
  else
    let dataEnd := s.off + 4 + pktLen
    let pktStart := s.off + 4
    let copyLen := min (pktLen - 4) buf.length
    let next := s.moveTo ((s.rxCur + 4 + UInt16.ofNat pktLen) % UInt16.ofNat rxBufSize)
    if dataEnd ≤ rxBufSize then do
      let buf ← copyInto s.rawRx (s.rxStart + pktStart) 0 copyLen buf
      return (copyLen, buf, next)
    else do
      let first ← subtract rxBufSize pktStart
      let buf ← copyInto s.rawRx (s.rxStart + pktStart) 0 (min first copyLen) buf
      let buf ← copyInto s.rawRx s.rxStart first (copyLen - first) buf
      return (copyLen, buf, next)

/-- `poll_rx`: the number of bytes, the buffer and the state afterwards. -/
def pollRx (s : Nic) (buf : Packet) : Except Fault (Nat × Packet × Nic) :=
  if ¬s.initialized then .ok (0, buf, s)
  else if s.capr = s.cbr ∨ s.rxCur = s.cbr then .ok (0, buf, s)
  else do
    let lo ← byte s.rawRx (s.rxStart + s.off + 2)
    let hi ← byte s.rawRx (s.rxStart + s.off + 3)
    s.readRecord (fromLE [lo, hi]) buf

end Nic

/-! ## The card -/

/-- A frame as the card receives it: with a status and a checksum around its bytes. -/
structure RxFrame where
  status : Packet
  bytes : Packet
  crc : Packet
  statusSize : status.length = 2
  crcSize : crc.length = 4
  long : 14 ≤ bytes.length
  short : bytes.length ≤ 1514

/-- The record that the card writes into the ring. -/
def RxFrame.record (f : RxFrame) : Packet :=
  f.status ++ (toLE 2 (f.bytes.length + 4) ++ (f.bytes ++ f.crc))

/-- The bytes between the driver and the card. -/
def Nic.used (s : Nic) : Nat := (s.cbr.toNat + rxBufSize - s.off) % rxBufSize

/-- The card writes a record behind the last one. -/
def Nic.receive (s : Nic) (f : RxFrame) : Nic :=
  { s with
    rawRx := ringWrite rxBufSize s.rxStart s.rawRx s.cbr.toNat f.record
    cbr := (s.cbr + UInt16.ofNat f.record.length) % UInt16.ofNat rxBufSize
    rawSize := by rw [length_ringWrite, s.rawSize] }

/-- The card and the driver, with what has come in and what the polls have returned. -/
structure Line where
  nic : Nic
  sent : List Packet
  got : List Packet

/-- A frame comes in, or the driver polls with a buffer. -/
inductive LineEvent
  | frame (f : RxFrame)
  | poll (buf : Packet)

/-- The line before the first frame: the driver has read as far as the card has written. -/
structure Line.Fresh (l : Line) : Prop where
  initialized : l.nic.initialized = true
  curLt : l.nic.rxCur.toNat < rxBufSize
  level : l.nic.cbr = l.nic.rxCur
  capr : l.nic.capr = l.nic.rxCur - 16
  sent : l.sent = []
  got : l.got = []

/-- A frame comes in for which there is room; or a poll with room for every frame returns. -/
inductive Line.Step (l : Line) : LineEvent → Line → Prop
  | frame {f : RxFrame} (hroom : l.nic.used + f.record.length < rxBufSize) :
      Line.Step l (.frame f) { l with nic := l.nic.receive f, sent := l.sent ++ [f.bytes] }
  | poll {buf out : Packet} {n : Nat} {nic : Nic} (hbuf : 1514 ≤ buf.length)
      (hpoll : l.nic.pollRx buf = .ok (n, out, nic)) :
      Line.Step l (.poll buf)
        { l with nic := nic, got := if n = 0 then l.got else l.got ++ [out.take n] }

/-! ## Copying -/

theorem copyInto_ok {raw : Packet} {src dst n : Nat} (buf : Packet)
    (h : n = 0 ∨ src + n ≤ raw.length ∧ dst + n ≤ buf.length) :
    ∃ out, copyInto raw src dst n buf = .ok out ∧ out.length = buf.length ∧
      ∀ k, out[k]? = if dst ≤ k ∧ k < dst + n then raw[src + (k - dst)]? else buf[k]? := by
  induction n with
  | zero => exact ⟨buf, rfl, rfl, fun k => (if_neg (by omega)).symm⟩
  | succ n ih =>
      obtain ⟨out, hout, hlen, hbytes⟩ := ih (by omega)
      refine ⟨out.set (dst + n) raw[src + n], ?_, ?_, fun k => ?_⟩
      · rw [copyInto, hout, bind_ok, byte_ok (by omega), bind_ok, if_pos (by omega)]
        rfl
      · rw [List.length_set, hlen]
      · by_cases hk : dst + n = k
        · subst hk
          rw [List.getElem?_set_self (by omega), if_pos (by omega), Nat.add_sub_cancel_left,
            List.getElem?_eq_getElem]
        · rw [List.getElem?_set_ne hk, hbytes]
          by_cases hin : dst ≤ k ∧ k < dst + n
          · rw [if_pos hin, if_pos (by omega)]
          · rw [if_neg hin, if_neg (by omega)]

theorem subtract_ok {a b : Nat} (h : b ≤ a) : subtract a b = .ok (a - b) := if_pos h

namespace Nic

variable {s : Nic} {buf : Packet}

/-- The driver sees nothing to be read. -/
def Idle (s : Nic) : Prop := s.initialized = false ∨ s.capr = s.cbr ∨ s.rxCur = s.cbr

instance (s : Nic) : Decidable s.Idle := inferInstanceAs (Decidable (_ ∨ _))

/-- The length in the two bytes behind the status, the place being inside the memory. -/
def lengthField (s : Nic) : Nat :=
  fromLE [s.rawRx[s.rxStart + s.off + 2]?.getD 0, s.rawRx[s.rxStart + s.off + 3]?.getD 0]

/-- A length that no record has. -/
def BadLength (n : Nat) : Prop := n < 4 ∨ n > rxBufSize

theorem pollRx_idle (h : s.Idle) : s.pollRx buf = .ok (0, buf, s) := by
  rw [pollRx]
  rcases h with hinit | hlevel
  · rw [hinit, if_pos (by decide)]
  · by_cases hinit : s.initialized = true
    · rw [if_neg (by simp [hinit]), if_pos hlevel]
    · rw [if_pos hinit]

/-- The header is read, even outside of the ring, if only it is inside of the memory. -/
theorem pollRx_header (h : ¬s.Idle) (hin : s.rxStart + s.off + 3 < s.rawRx.length) :
    s.pollRx buf = s.readRecord s.lengthField buf := by
  have hinit : ¬¬s.initialized = true :=
    fun hnot => h (Or.inl (Bool.eq_false_of_not_eq_true hnot))
  have hlo := List.getElem?_eq_getElem (l := s.rawRx) (i := s.rxStart + s.off + 2) (by omega)
  have hhi := List.getElem?_eq_getElem (l := s.rawRx) (i := s.rxStart + s.off + 3) hin
  rw [pollRx, if_neg hinit, if_neg fun hlevel => h (Or.inr hlevel), byte_of_get hlo, bind_ok,
    byte_of_get hhi, bind_ok, lengthField, hlo, hhi]
  rfl

theorem pollRx_outside (h : ¬s.Idle) (hout : s.rawRx.length ≤ s.rxStart + s.off + 3) :
    s.pollRx buf = .error .panic := by
  have hinit : ¬¬s.initialized = true :=
    fun hnot => h (Or.inl (Bool.eq_false_of_not_eq_true hnot))
  rw [pollRx, if_neg hinit, if_neg fun hlevel => h (Or.inr hlevel), byte, byte,
    List.getElem?_eq_none hout]
  cases s.rawRx[s.rxStart + s.off + 2]? <;> rfl

/-- A record whose header ends in the ring is copied, whatever its length. -/
theorem readRecord_ok {n : Nat} (hn : ¬BadLength n) (hoff : s.off + 4 ≤ rxBufSize) :
    ∃ out, s.readRecord n buf = .ok (min (n - 4) buf.length, out,
        s.moveTo ((s.rxCur + 4 + UInt16.ofNat n) % UInt16.ofNat rxBufSize)) ∧
      ∀ k < min (n - 4) buf.length,
        out[k]? = s.rawRx[s.rxStart + (s.off + (4 + k)) % rxBufSize]? := by
  have hsize := s.rawSize
  have hstart := s.startLt
  unfold rxAlign at hsize hstart
  unfold BadLength at hn
  have hring : rxBufSize = 8192 := rfl
  rw [readRecord, if_neg hn]
  dsimp only
  by_cases hend : s.off + 4 + n ≤ rxBufSize
  · obtain ⟨out, hout, -, hbytes⟩ := @copyInto_ok s.rawRx
      (s.rxStart + (s.off + 4)) 0 (min (n - 4) buf.length) buf (by omega)
    refine ⟨out, ?_, fun k hk => ?_⟩
    · rw [if_pos hend, hout]
      rfl
    · rw [hbytes, if_pos (by omega), Nat.mod_eq_of_lt (by omega)]
      exact congrArg (fun i => s.rawRx[i]?) (by omega)
  · obtain ⟨mid, hmid, hlen, hfirst⟩ := @copyInto_ok s.rawRx
      (s.rxStart + (s.off + 4)) 0 (min (rxBufSize - (s.off + 4)) (min (n - 4) buf.length)) buf (by omega)
    obtain ⟨out, hout, -, hrest⟩ := @copyInto_ok s.rawRx s.rxStart
      (rxBufSize - (s.off + 4)) (min (n - 4) buf.length - (rxBufSize - (s.off + 4))) mid (by omega)
    refine ⟨out, ?_, fun k hk => ?_⟩
    · rw [if_neg hend, subtract_ok hoff, bind_ok, hmid, bind_ok, hout]
      rfl
    · rw [hrest]
      by_cases hk' : k < rxBufSize - (s.off + 4)
      · rw [if_neg (by omega), hfirst, if_pos (by omega), Nat.mod_eq_of_lt (by omega)]
        exact congrArg (fun i => s.rawRx[i]?) (by omega)
      · rw [if_pos (by omega), Nat.mod_eq_sub_mod (by omega), Nat.mod_eq_of_lt (by omega)]
        exact congrArg (fun i => s.rawRx[i]?) (by omega)

theorem readRecord_underflow {n : Nat} (hn : ¬BadLength n) (hoff : rxBufSize < s.off + 4) :
    s.readRecord n buf = .error .panic := by
  unfold BadLength at hn
  rw [readRecord, if_neg hn]
  dsimp only
  rw [if_neg (by omega), subtract, if_neg (by omega)]
  rfl

/-- The polls that return: the driver sees nothing, the header ends in the ring, or what it
reads in place of a length is not one. -/
def Safe (s : Nic) : Prop :=
  s.Idle ∨ s.off + 4 ≤ rxBufSize ∨
    s.rxStart + s.off + 3 < s.rawRx.length ∧ BadLength s.lengthField

/-- In every state of the memory and of the registers, exactly these polls return. -/
theorem pollRx_returns_iff (s : Nic) (buf : Packet) : (∃ r, s.pollRx buf = .ok r) ↔ s.Safe := by
  have hsize := s.rawSize
  have hstart := s.startLt
  unfold rxAlign at hsize hstart
  by_cases hidle : s.Idle
  · exact ⟨fun _ => Or.inl hidle, fun _ => ⟨_, pollRx_idle hidle⟩⟩
  constructor
  · rintro ⟨r, hr⟩
    by_cases hoff : s.off + 4 ≤ rxBufSize
    · exact Or.inr (Or.inl hoff)
    by_cases hin : s.rxStart + s.off + 3 < s.rawRx.length
    · refine Or.inr (Or.inr ⟨hin, ?_⟩)
      by_contra hgood
      rw [pollRx_header hidle hin, readRecord_underflow hgood (by omega)] at hr
      cases hr
    · rw [pollRx_outside hidle (by omega)] at hr
      cases hr
  · rintro (h | hoff | ⟨hin, hbad⟩)
    · exact absurd h hidle
    · rw [pollRx_header hidle (by omega)]
      by_cases hbad : BadLength s.lengthField
      · exact ⟨_, if_pos hbad⟩
      · obtain ⟨out, hout, _⟩ := @readRecord_ok _ buf _ hbad hoff
        exact ⟨_, hout⟩
    · rw [pollRx_header hidle hin]
      exact ⟨_, if_pos hbad⟩

end Nic

/-! ## Frames are handed out in order -/

/-- Between the driver and the card are the records of these frames, and the other frames have
been returned. -/
structure Line.Follows (l : Line) (waiting : List RxFrame) : Prop where
  initialized : l.nic.initialized = true
  curLt : l.nic.rxCur.toNat < rxBufSize
  capr : l.nic.capr = l.nic.rxCur - 16
  room : (waiting.flatMap RxFrame.record).length < rxBufSize
  cbr : l.nic.cbr.toNat =
    (l.nic.rxCur.toNat + (waiting.flatMap RxFrame.record).length) % rxBufSize
  holds : RingHolds rxBufSize l.nic.rxStart l.nic.rawRx l.nic.rxCur.toNat
    (waiting.flatMap RxFrame.record)
  order : l.sent = l.got ++ waiting.map RxFrame.bytes

/-- A poll can take out what comes next: the header of the record ends in the ring, and the
records do not leave 16 bytes free, unless the driver is at the start of the ring. -/
def Nic.Fit (s : Nic) : Prop :=
  s.used = 0 ∨ s.off + 4 ≤ rxBufSize ∧ (s.used + 16 ≠ rxBufSize ∨ s.rxCur.toNat < 16)

theorem RxFrame.length_record (f : RxFrame) : f.record.length = f.bytes.length + 8 := by
  rw [record, List.length_append, List.length_append, List.length_append, f.statusSize, f.crcSize,
    length_toLE]
  omega

theorem ring_add {c : UInt16} {n : Nat} (h : c.toNat + n < 65536) :
    ((c + UInt16.ofNat n) % UInt16.ofNat rxBufSize).toNat = (c.toNat + n) % rxBufSize := by
  rw [UInt16.toNat_mod, UInt16.toNat_add, UInt16.toNat_ofNat', Nat.add_mod_mod,
    Nat.mod_eq_of_lt (show c.toNat + n < 2 ^ 16 from h)]
  rfl

namespace Line.Follows

variable {l : Line} {waiting : List RxFrame}

theorem off_eq (h : l.Follows waiting) : l.nic.off = l.nic.rxCur.toNat := Nat.mod_eq_of_lt h.curLt

theorem used_eq (h : l.Follows waiting) :
    l.nic.used = (waiting.flatMap RxFrame.record).length := by
  have hroom := h.room
  have hcur := h.curLt
  have hcbr := h.cbr
  rw [Nic.used, h.off_eq]
  unfold rxBufSize at *
  omega

theorem of_fresh (h : l.Fresh) : l.Follows [] where
  initialized := h.initialized
  curLt := h.curLt
  capr := h.capr
  room := by decide
  cbr := by
    rw [h.level]
    exact (Nat.mod_eq_of_lt h.curLt).symm
  holds := fun i hi => absurd hi (Nat.not_lt_zero i)
  order := by rw [h.sent, h.got]; rfl

/-- A frame that comes in waits behind the others. -/
theorem frame (h : l.Follows waiting) {f : RxFrame}
    (hroom : l.nic.used + f.record.length < rxBufSize) :
    Line.Follows { l with nic := l.nic.receive f, sent := l.sent ++ [f.bytes] }
      (waiting ++ [f]) := by
  have hcur := h.curLt
  have hcbr := h.cbr
  rw [h.used_eq] at hroom
  have hflat : (waiting ++ [f]).flatMap RxFrame.record =
      waiting.flatMap RxFrame.record ++ f.record := by
    rw [List.flatMap_append, List.flatMap_singleton]
  refine ⟨h.initialized, h.curLt, h.capr, ?_, ?_, ?_, ?_⟩
  · rw [hflat, List.length_append]
    exact hroom
  · have hnext : (l.nic.receive f).cbr.toNat =
        (l.nic.cbr.toNat + f.record.length) % rxBufSize := by
      refine ring_add ?_
      unfold rxBufSize at *
      omega
    rw [hflat, List.length_append]
    refine hnext.trans ?_
    rw [hcbr, Nat.mod_add_mod, Nat.add_assoc]
    rfl
  · have hwrite : ringWrite rxBufSize l.nic.rxStart l.nic.rawRx l.nic.cbr.toNat f.record =
        ringWrite rxBufSize l.nic.rxStart l.nic.rawRx
          (l.nic.rxCur.toNat + (waiting.flatMap RxFrame.record).length) f.record := by
      refine ringWrite_congr ?_
      rw [hcbr, Nat.mod_mod]
    have hmem : l.nic.rxStart + rxBufSize ≤ l.nic.rawRx.length := by
      have := l.nic.rawSize
      have := l.nic.startLt
      omega
    have hholds := h.holds.write hmem (by omega : _ + f.record.length ≤ _)
    rw [← hwrite] at hholds
    rw [hflat]
    exact hholds
  · rw [List.map_append, ← List.append_assoc, ← h.order]
    rfl

/-- With records waiting, the driver sees them, unless they leave 16 bytes free. -/
theorem not_idle (h : l.Follows waiting) (hsome : 0 < l.nic.used)
    (hfree : l.nic.used + 16 ≠ rxBufSize ∨ l.nic.rxCur.toNat < 16) : ¬l.nic.Idle := by
  have hcur := h.curLt
  have hcbr := h.cbr
  have hroom := h.room
  rw [h.used_eq] at hsome hfree
  have hcapr : l.nic.capr.toNat = (65536 - 16 + l.nic.rxCur.toNat) % 65536 := by
    rw [h.capr, UInt16.toNat_sub]
    rfl
  rintro (hinit | hlevel | hlevel)
  · rw [h.initialized] at hinit
    cases hinit
  · rw [hlevel] at hcapr
    unfold rxBufSize at *
    omega
  · rw [← hlevel] at hcbr
    unfold rxBufSize at *
    omega

/-- A byte of the record that waits first. -/
theorem byte_first {f : RxFrame} {rest : List RxFrame} (h : l.Follows (f :: rest)) {k : Nat}
    (hk : k < f.record.length) :
    l.nic.rawRx[l.nic.rxStart + (l.nic.off + k) % rxBufSize]? = f.record[k]? := by
  have hholds := h.holds
  rw [List.flatMap_cons] at hholds
  rw [h.off_eq]
  exact (RingHolds.append_iff.mp hholds).1 k hk

theorem lengthField_eq {f : RxFrame} {rest : List RxFrame} (h : l.Follows (f :: rest))
    (hoff : l.nic.off + 4 ≤ rxBufSize) : l.nic.lengthField = f.bytes.length + 4 := by
  have hlen := f.length_record
  have hlow := h.byte_first (k := 2) (by omega)
  have hhigh := h.byte_first (k := 3) (by omega)
  rw [Nat.mod_eq_of_lt (by omega), ← Nat.add_assoc] at hlow hhigh
  have hfield : ∀ k < 2, f.record[2 + k]? = (toLE 2 (f.bytes.length + 4))[k]? := by
    intro k hk
    have hstatus := f.statusSize
    rw [RxFrame.record, List.getElem?_append_right (by omega),
      List.getElem?_append_left (by rw [length_toLE]; omega)]
    exact congrArg (fun i => (toLE 2 (f.bytes.length + 4))[i]?) (by omega)
  have hshort := f.short
  have hvalue := fromLE_toLE 2 (f.bytes.length + 4)
  rw [Nic.lengthField, hlow, hhigh, hfield 0 (by omega), hfield 1 (by omega)]
  rw [Nat.mod_eq_of_lt (by omega)] at hvalue
  exact hvalue

/-- The frame of the record that waits first, as it is copied. -/
theorem frame_bytes {f : RxFrame} {rest : List RxFrame} (h : l.Follows (f :: rest)) {out : Packet}
    (hout : ∀ k < f.bytes.length,
      out[k]? = l.nic.rawRx[l.nic.rxStart + (l.nic.off + (4 + k)) % rxBufSize]?) :
    out.take f.bytes.length = f.bytes := by
  have hlen := f.length_record
  have hstatus := f.statusSize
  apply List.ext_getElem?
  intro k
  by_cases hk : k < f.bytes.length
  · rw [List.getElem?_take_of_lt hk, hout k hk, h.byte_first (by omega), RxFrame.record,
      List.getElem?_append_right (by omega),
      List.getElem?_append_right (by rw [length_toLE]; omega),
      List.getElem?_append_left (by rw [length_toLE]; omega), length_toLE]
    exact congrArg (fun i => f.bytes[i]?) (by omega)
  · rw [List.getElem?_eq_none (by rw [List.length_take]; omega), List.getElem?_eq_none (by omega)]

/-- A poll takes out the record that waits first. -/
theorem poll_some {f : RxFrame} {rest : List RxFrame} (h : l.Follows (f :: rest))
    (hfit : l.nic.Fit) {buf : Packet} (hbuf : 1514 ≤ buf.length) :
    ∃ out nic, l.nic.pollRx buf = .ok (f.bytes.length, out, nic) ∧
      out.take f.bytes.length = f.bytes ∧
      Line.Follows { l with nic := nic, got := l.got ++ [f.bytes] } rest := by
  have hrecord := f.length_record
  have hlong := f.long
  have hshort := f.short
  have hused := h.used_eq
  have hcur := h.curLt
  have hroom := h.room
  rw [List.flatMap_cons, List.length_append] at hused hroom
  obtain hnone | ⟨hoff, hfree⟩ := hfit
  · omega
  have hmem : l.nic.rxStart + l.nic.off + 3 < l.nic.rawRx.length := by
    have := l.nic.rawSize
    have := l.nic.startLt
    omega
  have hlength := h.lengthField_eq hoff
  have hgood : ¬Nic.BadLength (f.bytes.length + 4) := by
    unfold Nic.BadLength rxBufSize
    omega
  obtain ⟨out, hout, hbytes⟩ := @Nic.readRecord_ok l.nic buf _ hgood hoff
  have hcopy : min (f.bytes.length + 4 - 4) buf.length = f.bytes.length := by omega
  rw [hcopy] at hout hbytes
  refine ⟨out, l.nic.moveTo ((l.nic.rxCur + 4 + UInt16.ofNat (f.bytes.length + 4)) %
    UInt16.ofNat rxBufSize), ?_, h.frame_bytes hbytes, ?_⟩
  · rw [l.nic.pollRx_header (h.not_idle (by omega) hfree) hmem, hlength]
    exact hout
  have hnext : ((l.nic.rxCur + 4 + UInt16.ofNat (f.bytes.length + 4)) %
      UInt16.ofNat rxBufSize).toNat = (l.nic.rxCur.toNat + f.record.length) % rxBufSize := by
    have hsum : (l.nic.rxCur + 4).toNat = l.nic.rxCur.toNat + 4 := by
      rw [UInt16.toNat_add]
      exact Nat.mod_eq_of_lt (show _ + 4 < 65536 by unfold rxBufSize at hcur; omega)
    rw [ring_add (by rw [hsum]; unfold rxBufSize at hcur; omega), hsum, hrecord]
    exact congrArg (· % rxBufSize) (by omega)
  have hcbr := h.cbr
  have hholds := h.holds
  rw [List.flatMap_cons, List.length_append] at hcbr
  rw [List.flatMap_cons] at hholds
  refine ⟨h.initialized, ?_, rfl, by omega, ?_, ?_, ?_⟩
  · exact hnext.trans_lt (Nat.mod_lt _ (by decide))
  · refine hcbr.trans ?_
    refine Eq.trans ?_ (congrArg (fun n => (n + _) % rxBufSize) hnext.symm)
    rw [Nat.mod_add_mod, Nat.add_assoc]
  · refine (RingHolds.append_iff.mp hholds).2.congr ?_
    refine Eq.trans ?_ (congrArg (· % rxBufSize) hnext.symm)
    rw [Nat.mod_mod]
  · refine h.order.trans ?_
    rw [List.map_cons, List.append_assoc]
    rfl

/-- With no record waiting, a poll returns nothing. -/
theorem poll_none (h : l.Follows []) (buf : Packet) : l.nic.pollRx buf = .ok (0, buf, l.nic) := by
  refine Nic.pollRx_idle (Or.inr (Or.inr ?_))
  have hcbr := h.cbr
  rw [List.flatMap_nil, List.length_nil, Nat.add_zero, Nat.mod_eq_of_lt h.curLt] at hcbr
  exact (UInt16.toNat_inj.mp hcbr).symm

end Line.Follows

/-- A frame comes in; or the driver polls when it can take out what comes next. -/
def Line.CarefulStep (l : Line) (e : LineEvent) (l' : Line) : Prop :=
  l.Step e l' ∧ ∀ buf, e = .poll buf → l.nic.Fit

/-- After careful steps, what has come in and has not been returned waits in the ring. -/
theorem Line.follows_of_run {l₀ l : Line} {events : List LineEvent} (hfresh : l₀.Fresh)
    (hrun : Run Line.CarefulStep l₀ events l) : ∃ waiting, l.Follows waiting := by
  refine Run.invariant_state (fun l : Line => ∃ waiting, l.Follows waiting)
    ⟨[], .of_fresh hfresh⟩ ?_ hrun
  rintro l e l' ⟨waiting, h⟩ ⟨hstep, hfit⟩
  cases hstep with
  | frame hroom => exact ⟨_, h.frame hroom⟩
  | @poll buf out n nic hbuf hpoll =>
      cases waiting with
      | nil =>
          rw [h.poll_none buf] at hpoll
          cases hpoll
          exact ⟨[], h⟩
      | cons f rest =>
          obtain ⟨out', nic', hpoll', hbytes, h'⟩ := h.poll_some (hfit buf rfl) hbuf
          rw [hpoll] at hpoll'
          cases hpoll'
          have hlong := f.long
          rw [if_neg (by omega), hbytes]
          exact ⟨rest, h'⟩

/-- In every run with careful steps, the polls return the frames that have come in, in order
and each once; and a poll returns, in every state of the memory and of the registers, exactly
if the driver sees nothing, the header ends in the ring or its length is not one. -/
theorem pollRx_delivers {l₀ l : Line} {events : List LineEvent} (hfresh : l₀.Fresh)
    (hrun : Run Line.CarefulStep l₀ events l) :
    (l.got <+: l.sent ∧ ∀ buf, 1514 ≤ buf.length → l.nic.Fit →
      ∃ n out nic, l.nic.pollRx buf = .ok (n, out, nic) ∧
        (if n = 0 then [] else [out.take n]) = (l.sent.drop l.got.length).take 1) ∧
    ∀ (s : Nic) (buf : Packet), (∃ r, s.pollRx buf = .ok r) ↔ s.Safe := by
  refine ⟨?_, Nic.pollRx_returns_iff⟩
  obtain ⟨waiting, h⟩ := Line.follows_of_run hfresh hrun
  refine ⟨⟨_, h.order.symm⟩, fun buf hbuf hfit => ?_⟩
  rw [h.order, List.drop_left]
  cases waiting with
  | nil => exact ⟨0, buf, l.nic, h.poll_none buf, rfl⟩
  | cons f rest =>
      obtain ⟨out, nic, hpoll, hbytes, _⟩ := h.poll_some hfit hbuf
      have hlong := f.long
      refine ⟨_, out, nic, hpoll, ?_⟩
      rw [if_neg (by omega), hbytes]
      rfl

/-- A card and a driver at a place of the ring, with a memory of zeros. -/
def levelNic (cur : UInt16) : Nic where
  rawRx := List.replicate (rxBufSize + rxAlign) 0
  rxStart := 0
  rxCur := cur
  capr := cur - 16
  cbr := cur
  initialized := true
  rawSize := List.length_replicate
  startLt := by decide

/-- The same line, before the first frame. -/
def levelLine (cur : UInt16) : Line := ⟨levelNic cur, [], []⟩

theorem levelLine_fresh {cur : UInt16} (h : cur.toNat < rxBufSize) : (levelLine cur).Fresh :=
  ⟨rfl, h, rfl, rfl, rfl, rfl⟩

/-- A frame of 14 bytes. -/
def smallFrame : RxFrame where
  status := [1, 0]
  bytes := [1, 2, 3, 4, 5, 6, 7, 8, 9, 10, 11, 12, 13, 14]
  crc := [0, 0, 0, 0]
  statusSize := rfl
  crcSize := rfl
  long := by decide
  short := by decide

/-- The line after this frame has come in. -/
def filledLine (cur : UInt16) : Line :=
  ⟨(levelNic cur).receive smallFrame, [smallFrame.bytes], []⟩

/-- At the start of the ring, the frame is returned. -/
theorem pollRx_delivers_small :
    ∃ n out nic, (filledLine 0).nic.pollRx (List.replicate 1518 0) = .ok (n, out, nic) ∧
      (if n = 0 then [] else [out.take n]) = [smallFrame.bytes] := by
  have hrun : Run Line.CarefulStep (levelLine 0) [.frame smallFrame] (filledLine 0) :=
    .snoc .nil ⟨.frame (f := smallFrame) (by decide +kernel), fun buf h => by cases h⟩
  exact (pollRx_delivers (levelLine_fresh (by decide)) hrun).1.2 _
    (by rw [List.length_replicate]; omega) (Or.inr (by decide +kernel))

/-- At the end of the ring, the header of the frame is not found, and the frame is lost; and
from other states a poll reads outside the memory. -/
theorem not_pollRx_delivers :
    (¬∀ (l₀ l : Line) (events : List LineEvent), l₀.Fresh → Run Line.Step l₀ events l →
      ∀ buf, 1514 ≤ buf.length → ∃ n out nic, l.nic.pollRx buf = .ok (n, out, nic) ∧
        (if n = 0 then [] else [out.take n]) = (l.sent.drop l.got.length).take 1) ∧
    ¬∀ (s : Nic) (buf : Packet), ∃ r, s.pollRx buf = .ok r := by
  constructor
  · intro h
    have hrun : Run Line.Step (levelLine 8190) [.frame smallFrame] (filledLine 8190) :=
      .snoc .nil (.frame (f := smallFrame) (by decide +kernel))
    obtain ⟨n, out, nic, hpoll, hout⟩ := h _ _ _ (levelLine_fresh (by decide)) hrun
      (List.replicate 1518 0) (by rw [List.length_replicate]; omega)
    have hzero : ∀ k, rxBufSize ≤ k → k < rxBufSize + rxAlign →
        (filledLine 8190).nic.rawRx[k]? = some 0 := by
      intro k hk hlt
      refine (get_ringWrite_of_ne fun i _ => ?_).trans (List.getElem?_replicate_of_lt hlt)
      have hmod := Nat.mod_lt ((levelNic 8190).cbr.toNat + i) (show 0 < rxBufSize by decide)
      show k ≠ 0 + _
      omega
    have hlength : (filledLine 8190).nic.lengthField = 0 := by
      have hoff : (filledLine 8190).nic.rxStart + (filledLine 8190).nic.off = 8190 := by
        decide +kernel
      rw [Nic.lengthField, hoff, hzero _ (by decide) (by decide), hzero _ (by decide) (by decide)]
      rfl
    rw [Nic.pollRx_header (by decide +kernel) (by decide +kernel), hlength, Nic.readRecord,
      if_pos (Or.inl (by decide))] at hpoll
    cases hpoll
    cases hout
  · intro h
    let s : Nic := { levelNic 8191 with rxStart := 15, cbr := 0, startLt := by decide }
    obtain ⟨r, hr⟩ := h s []
    have hmem : s.rawRx.length ≤ s.rxStart + s.off + 3 := by
      rw [s.rawSize]
      decide +kernel
    rw [Nic.pollRx_outside (by decide +kernel) hmem] at hr
    cases hr

end PureOS.Net
