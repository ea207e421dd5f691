import PureOS.Net.Connection

set_option autoImplicit false

/-!
# Net: the stream that the application reads

The kernel stores the payload of every segment behind what it has, whatever its
sequence number, acknowledges all of it even when the buffer is full, and drops what
a read has no room for.  So the application reads the peer's stream while every
segment that is acted on brings the bytes that come next and fits into the buffer,
and every read takes all there is.
-/

namespace PureOS.Net

open PureOS.Foundation

/-! ## Segments that the kernel builds -/

section

variable {conn : TcpConn} {flags : UInt8} {payload segment : Packet}

theorem Built.eq (h : Built conn flags payload segment) :
    ∃ a b, segment = ((toBE 2 conn.srcPort ++ (toBE 2 conn.dstPort ++ (toBE 4 conn.seq ++
      (toBE 4 conn.ack ++ ([0x50, flags, 0xFF, 0xFF, 0, 0, 0, 0] ++ payload))))).set 16 a).set 17 b := by
  obtain ⟨raw, csum, hraw, rfl⟩ := h
  rw [buildTcp] at hraw
  split at hraw
  · cases hraw
    exact ⟨_, _, rfl⟩
  · cases hraw

theorem Built.segSeq (h : Built conn flags payload segment) :
    segSeq segment = conn.seq % 2 ^ 32 := by
  obtain ⟨a, b, rfl⟩ := h.eq
  rw [Net.segSeq, beAt]
  simp [List.drop_append, drop_toBE, fromBE_toBE]

theorem Built.segAck (h : Built conn flags payload segment) :
    segAck segment = conn.ack % 2 ^ 32 := by
  obtain ⟨a, b, rfl⟩ := h.eq
  rw [Net.segAck, beAt]
  simp [List.drop_append, drop_toBE, fromBE_toBE]

end

/-! ## What the application has -/

/-- The bytes that the reads have returned so far. -/
def takenOf (log : List Event) : Packet :=
  log.flatMap fun
    | .read conn room => conn.rxbuf.take room
    | _ => []

/-- The bytes that are stored for the application, read or not. -/
def storedOf (conn : TcpConn) (log : List Event) : Packet := takenOf log ++ conn.rxbuf

@[simp] theorem takenOf_read (log : List Event) (conn : TcpConn) (room : Nat) :
    takenOf (log ++ [.read conn room]) = takenOf log ++ conn.rxbuf.take room := by
  simp [takenOf]

theorem takenOf_other {log : List Event} {e : Event} (h : ∀ conn room, e ≠ .read conn room) :
    takenOf (log ++ [e]) = takenOf log := by
  cases e with
  | read conn room => exact absurd rfl (h conn room)
  | _ => simp [takenOf]

variable (stream : Packet) (base : Nat)

/-- The segment brings the bytes of the peer's stream from `off` on, or it says that the
stream ends there. -/
def Brings (data : Packet) (off : Nat) : Prop :=
  segSeq data = (base + off) % 2 ^ 32 ∧ segPayload data <+: stream.drop off ∧
    (segPayload data = [] → off = stream.length)

/-- Every segment that is acted on is one of the peer's, from anywhere in its stream. -/
def FromPeer (_ : List Event) : Event → Prop
  | .segment conn _ data => conn.Acts data → ∃ off, Brings stream base data off
  | .connect _ | .closed => False
  | _ => True

/-- Every segment that is acted on brings the bytes that come next, and they fit into the
buffer; every read has room for all that is stored. -/
def InOrder (log : List Event) : Event → Prop
  | .segment conn _ data =>
      conn.Acts data → Brings stream base data (storedOf conn log).length ∧
        conn.rxbuf.length + (segPayload data).length ≤ rxbufSize
  | .read conn room => conn.rxbuf.length ≤ room
  | .connect _ | .closed => False
  | _ => True

/-- The acknowledgement number of a segment that is built covers no byte of the stream that
is not stored. -/
def AckStored (log : List Event) : Event → Prop
  | .built conn segment =>
      ∃ k, segAck segment = (base + k) % 2 ^ 32 ∧
        ∀ i < stream.length, i < k → i < (storedOf conn log).length
  | _ => True

/-- The reads give the peer's stream, and no acknowledgement covers a byte that is not
stored. -/
def ReadsStream (log : List Event) : Prop :=
  takenOf log <+: stream ∧ Along (AckStored stream base) log

/-- What holds of the connection while everything is in order. -/
structure Streaming (l : Link) : Prop where
  opened : l.1.Open
  stored : storedOf l.1 l.2 <+: stream
  /-- The next number to acknowledge is the one behind what is stored. -/
  ack : l.1.state = .established → l.1.ack = (base + (storedOf l.1 l.2).length) % 2 ^ 32
  /-- Behind the end of the stream that number is one higher. -/
  fin : l.1.state = .finWait →
    (storedOf l.1 l.2).length = stream.length ∧ l.1.ack = (base + (stream.length + 1)) % 2 ^ 32
  acks : Along (AckStored stream base) l.2

variable {stream base}

theorem streaming_segment {conn conn' : TcpConn} {log : List Event} {src : Ip} {data : Packet}
    {answer : Bool} (h : Streaming stream base (conn, log))
    (hok : InOrder stream base log (.segment conn src data))
    (hmove : conn.onSegment data = .ok (conn', answer)) :
    Streaming stream base (conn', log ++ [.segment conn src data]) := by
  have htaken : takenOf (log ++ [.segment conn src data]) = takenOf log :=
    takenOf_other fun _ _ h => by cases h
  have hacks : Along (AckStored stream base) (log ++ [.segment conn src data]) :=
    h.acks.snoc trivial
  rcases TcpConn.onSegment_cases hmove with ⟨_, rfl⟩ | ⟨hopens, _⟩ | ⟨htakes, rfl⟩ | ⟨hfin, rfl⟩
  · exact ⟨h.opened, by rw [storedOf, htaken]; exact h.stored, by rw [storedOf, htaken]; exact h.ack,
      by rw [storedOf, htaken]; exact h.fin, hacks⟩
  · have hsyn := hopens.2.1
    rcases h.opened with hstate | hstate
    all_goals cases hsyn.symm.trans hstate
  · -- The payload goes behind what is stored.
    obtain ⟨⟨hseq, hpayload, _⟩, hroom⟩ := hok (Or.inr (Or.inl htakes))
    have hall : (segPayload data).take (min (segPayload data).length
        (rxbufSize - conn.rxbuf.length)) = segPayload data :=
      List.take_of_length_le (by omega)
    obtain ⟨rest, hrest⟩ := hpayload
    obtain ⟨tail, htail⟩ := h.stored
    have hdrop : stream.drop (storedOf conn log).length = tail := by
      rw [← htail, List.drop_left]
    refine ⟨h.opened, ⟨rest, ?_⟩, fun _ => ?_, fun hstate => ?_, hacks⟩
    · change takenOf _ ++ (conn.rxbuf ++ _) ++ rest = stream
      rw [htaken, hall, ← List.append_assoc, List.append_assoc, hrest, hdrop]
      exact htail
    · change (segSeq data + (segPayload data).length) % 2 ^ 32 =
        (base + (takenOf _ ++ (conn.rxbuf ++ _)).length) % 2 ^ 32
      rw [htaken, hall, hseq, ← List.append_assoc, List.length_append, storedOf, Nat.mod_add_mod,
        Nat.add_assoc]
    · cases htakes.2.1.symm.trans hstate
  · -- The end of the stream comes when all of it is stored.
    obtain ⟨⟨hseq, _, hend⟩, _⟩ := hok (Or.inr (Or.inr hfin))
    have hall := hend hfin.2.2.2.1
    refine ⟨Or.inr rfl, ?_, (fun hstate => by cases hstate), fun _ => ⟨?_, ?_⟩, hacks⟩
    · rw [storedOf, htaken]
      exact h.stored
    · rw [storedOf, htaken]
      exact hall
    · change (segSeq data + 1) % 2 ^ 32 = _
      rw [hseq, Nat.mod_add_mod, hall, Nat.add_assoc]

/-- Everything that happens keeps it. -/
theorem streaming_action {l l' : Link} (h : Streaming stream base l)
    (hok : Along (InOrder stream base) l'.2) (haction : Stack.Action l l') :
    Streaming stream base l' := by
  cases haction with
  | move hmove =>
      cases hmove with
      | segment src data hseg => exact streaming_segment h hok.last hseg
      | @built conn log flags payload segment hbuilt =>
          have htaken : takenOf (log ++ [.built conn segment]) = takenOf log :=
            takenOf_other fun _ _ h => by cases h
          refine ⟨h.opened, by rw [storedOf, htaken]; exact h.stored,
            by rw [storedOf, htaken]; exact h.ack, by rw [storedOf, htaken]; exact h.fin,
            h.acks.snoc ?_⟩
          rcases h.opened with hstate | hstate
          · refine ⟨_, ?_, fun i _ hi => hi⟩
            rw [hbuilt.segAck, h.ack hstate, Nat.mod_mod]
          · obtain ⟨hall, hack⟩ := h.fin hstate
            refine ⟨stream.length + 1, ?_, fun i hi _ => hall ▸ hi⟩
            rw [hbuilt.segAck, hack, Nat.mod_mod]
  | @emitted conn log segment hopen hseq =>
      have htaken : takenOf (log ++ [.emitted segment]) = takenOf log :=
        takenOf_other fun _ _ h => by cases h
      exact ⟨h.opened, by rw [storedOf, htaken]; exact h.stored, by rw [storedOf, htaken]; exact h.ack,
        by rw [storedOf, htaken]; exact h.fin, h.acks.snoc trivial⟩
  | read conn log room =>
      have hroom : conn.rxbuf.length ≤ room := hok.last
      have hstored : storedOf { conn with rxbuf := [] } (log ++ [.read conn room]) =
          storedOf conn log := by
        rw [storedOf, takenOf_read, List.take_of_length_le hroom, List.append_nil, storedOf]
      exact ⟨h.opened, by rw [hstored]; exact h.stored, by rw [hstored]; exact h.ack,
        by rw [hstored]; exact h.fin, h.acks.snoc trivial⟩
  | connect l hstate hseq hrxbuf => exact hok.last.elim
  | closed conn log => exact hok.last.elim

/-- On an established connection whose segments, as far as they are acted on, come in order
and fit into the buffer, and whose reads take all there is, the application reads the
peer's stream, and no acknowledgement covers a byte that has not been stored. -/
theorem reads_stream_in_order {s₀ s : Stack} {calls : List Stack.Call}
    (hest : s₀.tcp.state = .established) (hrxbuf : s₀.tcp.rxbuf = [])
    (hack : s₀.tcp.ack = base % 2 ^ 32) (hlog : s₀.log = []) (hrun : Run Stack.Step s₀ calls s)
    (hok : Along (InOrder stream base) s.log) : ReadsStream stream base s.log := by
  have hstart : Streaming stream base s₀.link := by
    have hstored : storedOf s₀.tcp s₀.log = [] := by
      rw [storedOf, hlog, hrxbuf]
      rfl
    refine ⟨Or.inl hest, ?_, fun _ => ?_, fun hstate => ?_, ?_⟩
    · rw [Stack.link, hstored]
      exact List.nil_prefix
    · rw [Stack.link, hstored]
      exact hack
    · rw [show s₀.tcp.state = .finWait from hstate] at hest
      cases hest
    · rw [Stack.link, hlog]
      exact .nil
  have hend := Stack.Actions.invariant (fun _ _ => streaming_action) (Stack.run_actions hrun) hok hstart
  exact ⟨(List.prefix_append _ _).trans hend.stored, hend.acks⟩

/-! ## Two runs -/

instance (stream : Packet) (base : Nat) (data : Packet) (off : Nat) :
    Decidable (Brings stream base data off) :=
  inferInstanceAs (Decidable (_ ∧ _ ∧ (_ → _)))

instance (stream : Packet) (base : Nat) (log : List Event) (e : Event) :
    Decidable (InOrder stream base log e) :=
  match e with
  | .segment _ _ _ => inferInstanceAs (Decidable (_ → _ ∧ _))
  | .built _ _ | .emitted _ => inferInstanceAs (Decidable True)
  | .read _ _ => inferInstanceAs (Decidable (_ ≤ _))
  | .connect _ | .closed => inferInstanceAs (Decidable False)

/-- A connection to port 80 that expects byte 500. -/
def openStack : Stack :=
  { Stack.init with
    tcp := { state := .established, dstIp := ip4 10 0 2 2, dstPort := 80, srcPort := 40000,
             seq := 1001, ack := 500, rxbuf := [] } }

/-- A frame with some bytes of the peer's stream. -/
def streamFrame (src : Ip) (srcPort seq ack : Nat) (flags : UInt8) (payload : Packet) : Packet :=
  ethFrame (.replicate 6 0) (.replicate 6 2) ethTypeIp
    (ipv4Header src (.replicate 4 0) ipProtoTcp (40 + payload.length) 0 ++
      ((buildTcp seq ack flags payload srcPort 40000).toOption.getD []))

/-- Two segments in order, and a read behind each. -/
def orderedStack : Stack :=
  let s := openStack.afterRx 2 (streamFrame (ip4 10 0 2 2) 80 500 1001 tcpFlagAck [104, 105])
  let s := (s.tcpReadData 10).2
  let s := s.afterRx 2 (streamFrame (ip4 10 0 2 2) 80 502 1001 tcpFlagAck [33])
  (s.tcpReadData 10).2

theorem reads_stream_in_order_greeting : ReadsStream [104, 105, 33] 500 orderedStack.log :=
  @reads_stream_in_order [104, 105, 33] 500 openStack orderedStack _ rfl rfl rfl rfl
    (.snoc (.snoc (.snoc (.snoc .nil (Stack.step_afterRx (by decide +kernel)))
      (.read _ 10)) (Stack.step_afterRx (by decide +kernel))) (.read _ 10))
    (by decide +kernel)

/-- Every segment brings the beginning of the stream. -/
def FromStart (stream : Packet) (base : Nat) (_ : List Event) : Event → Prop
  | .segment _ _ data => Brings stream base data 0
  | .built _ _ | .emitted _ | .read _ _ => True
  | .connect _ | .closed => False

instance (stream : Packet) (base : Nat) (log : List Event) (e : Event) :
    Decidable (FromStart stream base log e) :=
  match e with
  | .segment _ _ data => inferInstanceAs (Decidable (Brings stream base data 0))
  | .built _ _ | .emitted _ | .read _ _ => inferInstanceAs (Decidable True)
  | .connect _ | .closed => inferInstanceAs (Decidable False)

theorem fromPeer_of_fromStart {stream : Packet} {base : Nat} {log : List Event} {e : Event}
    (h : FromStart stream base log e) : FromPeer stream base log e := by
  cases e with
  | segment conn src data => exact fun _ => ⟨0, h⟩
  | built | emitted | read => trivial
  | connect | closed => exact h.elim

/-- One segment that comes twice, and a read behind both. -/
def doubledStack : Stack :=
  let frame := streamFrame (ip4 10 0 2 2) 80 500 1001 tcpFlagAck [7]
  let s := (openStack.afterRx 2 frame).afterRx 2 frame
  (s.tcpReadData 10).2

theorem not_reads_stream_on_duplicate :
    ¬∀ (stream : Packet) (base : Nat) (s₀ s : Stack) (calls : List Stack.Call),
      s₀.tcp.state = .established → s₀.tcp.rxbuf = [] → s₀.tcp.ack = base % 2 ^ 32 → s₀.log = [] →
      Run Stack.Step s₀ calls s → Along (FromPeer stream base) s.log →
      ReadsStream stream base s.log := by
  intro h
  have hpeer : Along (FromStart [7] 500) doubledStack.log := by decide +kernel
  have hrun := h [7] 500 openStack doubledStack _ rfl rfl rfl rfl
    (.snoc (.snoc (.snoc .nil (Stack.step_afterRx (by decide +kernel)))
      (Stack.step_afterRx (by decide +kernel))) (.read _ 10))
    (hpeer.mono fun _ _ => fromPeer_of_fromStart)
  exact absurd hrun.1 (by decide +kernel)

end PureOS.Net
