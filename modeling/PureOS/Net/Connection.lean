import Mathlib.Logic.Relation
import PureOS.Foundation.Log
import PureOS.Foundation.Run
import PureOS.Net.Receive

set_option autoImplicit false

/-!
# Net: what happens to the connection

However deep the calls nest, two things happen to the connection while frames are
handled: a segment changes it, and a segment is built from it.  A run of the stack
is any sequence of frames, sends, reads and new connections, with anything coming in
meanwhile.
-/

namespace PureOS.Net

open PureOS.Foundation

/-- The connection and the log. -/
abbrev Link := TcpConn × List Event

/-- The part of the stack that a claim about the connection speaks of. -/
def Stack.link (s : Stack) : Link := (s.tcp, s.log)

/-- A segment with its checksum, built from the connection. -/
def Built (conn : TcpConn) (flags : UInt8) (payload segment : Packet) : Prop :=
  ∃ raw csum, buildTcp conn.seq conn.ack flags payload conn.srcPort conn.dstPort = .ok raw ∧
    segment = withChecksum raw csum

/-! ## Segments -/

/-- The sequence number of a segment. -/
def segSeq (data : Packet) : Nat := beAt 4 data 4
/-- The acknowledgement number of a segment. -/
def segAck (data : Packet) : Nat := beAt 4 data 8
/-- The flags of a segment. -/
def segFlags (data : Packet) : UInt8 := data[13]?.getD 0
/-- The bytes that a segment carries. -/
def segPayload (data : Packet) : Packet := data.drop ((data[12]?.getD 0).toNat / 16 * 4)

namespace TcpConn

/-- The segment answers the request for a connection. -/
def Opens (conn : TcpConn) (data : Packet) : Prop :=
  20 ≤ data.length ∧ conn.state = .synSent ∧ segFlags data &&& tcpFlagSyn ≠ 0 ∧
    segFlags data &&& tcpFlagAck ≠ 0

/-- The segment carries bytes on an established connection. -/
def Takes (conn : TcpConn) (data : Packet) : Prop :=
  20 ≤ data.length ∧ conn.state = .established ∧ segFlags data &&& tcpFlagAck ≠ 0 ∧
    segPayload data ≠ []

/-- The segment ends the peer's stream, and carries nothing. -/
def Finishes (conn : TcpConn) (data : Packet) : Prop :=
  20 ≤ data.length ∧ conn.state = .established ∧ segFlags data &&& tcpFlagAck ≠ 0 ∧
    segPayload data = [] ∧ segFlags data &&& tcpFlagFin ≠ 0

/-- The segment changes the connection. -/
def Acts (conn : TcpConn) (data : Packet) : Prop :=
  conn.Opens data ∨ conn.Takes data ∨ conn.Finishes data

instance (conn : TcpConn) (data : Packet) : Decidable (conn.Opens data) :=
  inferInstanceAs (Decidable (_ ∧ _))

instance (conn : TcpConn) (data : Packet) : Decidable (conn.Takes data) :=
  inferInstanceAs (Decidable (_ ∧ _))

instance (conn : TcpConn) (data : Packet) : Decidable (conn.Finishes data) :=
  inferInstanceAs (Decidable (_ ∧ _))

instance (conn : TcpConn) (data : Packet) : Decidable (conn.Acts data) :=
  inferInstanceAs (Decidable (_ ∨ _))

/-- The connection has been established. -/
def Open (conn : TcpConn) : Prop := conn.state = .established ∨ conn.state = .finWait

/-- What a segment does. -/
theorem onSegment_cases {conn conn' : TcpConn} {data : Packet} {answer : Bool}
    (h : conn.onSegment data = .ok (conn', answer)) :
    ¬conn.Acts data ∧ conn' = conn ∨
    conn.Opens data ∧ conn' = { conn with
      state := .established, ack := (segSeq data + 1) % 2 ^ 32, seq := segAck data } ∨
    conn.Takes data ∧ conn' = { conn with
      rxbuf := conn.rxbuf ++
        (segPayload data).take (min (segPayload data).length (rxbufSize - conn.rxbuf.length))
      ack := (segSeq data + (segPayload data).length) % 2 ^ 32 } ∨
    conn.Finishes data ∧ conn' = { conn with
      state := .finWait, ack := (segSeq data + 1) % 2 ^ 32 } := by
  rw [onSegment] at h
  split at h
  · rename_i hlen
    cases h
    refine Or.inl ⟨?_, rfl⟩
    rintro (⟨hle, _⟩ | ⟨hle, _⟩ | ⟨hle, _⟩)
    all_goals exact absurd hlen (Nat.not_lt.mpr hle)
  · rename_i hlen
    have hlen : 20 ≤ data.length := Nat.not_lt.mp hlen
    have hflags : data[13] = segFlags data := by
      rw [segFlags, List.getElem?_eq_getElem (by omega), Option.getD_some]
    have hpayload : tcpPayload data (data[12].toNat / 16 * 4) = .ok (segPayload data) := by
      rw [segPayload, List.getElem?_eq_getElem (by omega), Option.getD_some, tcpPayload]
      split
      · rw [cut_ok (by omega) (Nat.le_refl _), List.take_length]
      · rw [List.drop_eq_nil_of_le (by omega)]
    rw [be_ok (by omega), be_ok (by omega), byte_ok (by omega), byte_ok (by omega), hflags] at h
    simp only [bind_ok, hpayload] at h
    split at h
    · rename_i hopens
      cases h
      exact Or.inr (Or.inl ⟨⟨hlen, hopens⟩, rfl⟩)
    · rename_i hopens
      split at h
      · rename_i hest
        split at h
        · rename_i hne
          cases h
          exact Or.inr (Or.inr (Or.inl ⟨⟨hlen, hest.1, hest.2, hne⟩, rfl⟩))
        · rename_i hnil
          rw [not_not] at hnil
          split at h
          · rename_i hfin
            cases h
            exact Or.inr (Or.inr (Or.inr ⟨⟨hlen, hest.1, hest.2, hnil, hfin⟩, rfl⟩))
          · rename_i hfin
            cases h
            refine Or.inl ⟨?_, rfl⟩
            rintro (⟨_, hacts⟩ | ⟨_, _, _, hacts⟩ | ⟨_, _, _, _, hacts⟩)
            · exact hopens hacts
            · exact hacts hnil
            · exact hfin hacts
      · rename_i hest
        cases h
        refine Or.inl ⟨?_, rfl⟩
        rintro (⟨_, hacts⟩ | ⟨_, hstate, hack, _⟩ | ⟨_, hstate, hack, _⟩)
        · exact hopens hacts
        · exact hest ⟨hstate, hack⟩
        · exact hest ⟨hstate, hack⟩

end TcpConn

/-- One thing that happens while frames are handled. -/
inductive Move : Link → Link → Prop where
  | segment {conn conn' : TcpConn} {log : List Event} {answer : Bool} (src : Ip) (data : Packet)
      (h : conn.onSegment data = .ok (conn', answer)) :
      Move (conn, log) (conn', log ++ [.segment conn src data])
  | built {conn : TcpConn} {log : List Event} {flags : UInt8} {payload segment : Packet}
      (h : Built conn flags payload segment) : Move (conn, log) (conn, log ++ [.built conn segment])

/-- Some such things, one after the other. -/
abbrev Moves : Link → Link → Prop := Relation.ReflTransGen Move

theorem Move.prefix {l l' : Link} (h : Move l l') : l.2 <+: l'.2 := by
  cases h <;> exact List.prefix_append ..

/-- An established connection keeps its sequence number. -/
theorem Move.open {l l' : Link} (h : Move l l') (hopen : l.1.Open) :
    l'.1.Open ∧ l'.1.seq = l.1.seq := by
  cases h with
  | built => exact ⟨hopen, rfl⟩
  | segment src data h =>
      rcases TcpConn.onSegment_cases h with ⟨_, rfl⟩ | ⟨hopens, rfl⟩ | ⟨_, rfl⟩ | ⟨_, rfl⟩
      · exact ⟨hopen, rfl⟩
      · rcases hopen with hstate | hstate
        all_goals
          have hsyn := hopens.2.1
          rw [hstate] at hsyn
          cases hsyn
      · exact ⟨hopen, rfl⟩
      · exact ⟨Or.inr rfl, rfl⟩

theorem Moves.open {l l' : Link} (h : Moves l l') (hopen : l.1.Open) :
    l'.1.Open ∧ l'.1.seq = l.1.seq := by
  induction h with
  | refl => exact ⟨hopen, rfl⟩
  | tail _ hlast ih =>
      obtain ⟨hopen', hseq⟩ := hlast.open ih.1
      exact ⟨hopen', hseq.trans ih.2⟩

namespace Stack

theorem link_nicSend (frame : Packet) (s : Stack) : (s.nicSend frame).2.link = s.link := by
  rw [nicSend]
  split <;> rfl

theorem link_sendEth (dst : Mac) (ethertype : Nat) (payload : Packet) (s : Stack) :
    (s.sendEth dst ethertype payload).2.link = s.link := by
  rw [sendEth]
  split
  · rfl
  · exact link_nicSend _ s

theorem link_deliver (callback : UdpCallback) (payload : Packet) (src : Ip) (port : Nat) (s : Stack) :
    (s.deliver callback payload src port).link = s.link := by
  cases callback <;> rfl

/-- `rx` does nothing else to the connection. -/
def Follows (rx : Packet → Stack → Except Fault Stack) : Prop :=
  ∀ frame s s', rx frame s = .ok s' → Moves s.link s'.link

section

variable {rx : Packet → Stack → Except Fault Stack} {n : Nat} {s s' : Stack}

theorem handlePolled_moves (hrx : Follows rx) {bytes : Packet}
    (h : handlePolled rx bytes s = .ok s') : Moves s.link s'.link := by
  rw [handlePolled] at h
  split at h
  · exact hrx _ s s' h
  · cases h
    exact .refl

theorem waitArp_moves (hrx : Follows rx) {ip : Ip} {mac : Option Mac}
    (h : waitArp rx ip n s = .ok (mac, s')) : Moves s.link s'.link := by
  induction n generalizing s with
  | zero => cases h
  | succ n ih =>
      rw [waitArp] at h
      split at h
      · cases h
        exact .refl
      · cases h
        exact .refl
      · obtain ⟨s₁, hs₁, h⟩ := bind_eq_ok h
        have hmoves := handlePolled_moves hrx hs₁
        split at h
        · cases h
          exact hmoves
        · exact hmoves.trans (ih h)

theorem arpTries_moves (hrx : Follows rx) {ip : Ip} {tries : Nat} {mac : Option Mac}
    (h : arpTries rx n ip tries s = .ok (mac, s')) : Moves s.link s'.link := by
  induction tries generalizing s with
  | zero =>
      cases h
      exact .refl
  | succ tries ih =>
      obtain ⟨⟨mac₁, s₁⟩, hs₁, h⟩ := bind_eq_ok h
      have hmoves := waitArp_moves hrx hs₁
      rw [show (s.arpRequest ip).link = s.link from link_sendEth ..] at hmoves
      cases mac₁ with
      | some mac₁ =>
          cases h
          exact hmoves
      | none => exact hmoves.trans (ih h)

theorem targetMac_moves (hrx : Follows rx) {dst : Ip} {mac : Option Mac}
    (h : targetMac rx n dst s = .ok (mac, s')) : Moves s.link s'.link := by
  rw [targetMac] at h
  split at h
  · cases h
    exact .refl
  · rw [arpResolve] at h
    split at h
    · cases h
      exact .refl
    · exact arpTries_moves hrx h

theorem sendIpv4_moves (hrx : Follows rx) {dst : Ip} {proto : UInt8} {payload : Packet} {id : Nat}
    {sent : Bool} (h : sendIpv4 rx n dst proto payload id s = .ok (sent, s')) :
    Moves s.link s'.link := by
  rw [sendIpv4] at h
  split at h
  · cases h
  · obtain ⟨⟨mac, s₁⟩, hs₁, h⟩ := bind_eq_ok h
    have hmoves := targetMac_moves hrx hs₁
    cases mac with
    | none =>
        cases h
        exact hmoves
    | some mac =>
        simp only at h
        split at h
        · cases h
        · have hs' : s' = (s₁.nicSend _).2 := (congrArg Prod.snd (Except.ok.inj h)).symm
          rw [hs', link_nicSend]
          exact hmoves

/-- A segment is built, and then whatever comes in is handled. -/
theorem sendTcpRaw_moves (hrx : Follows rx) {conn : TcpConn} {flags : UInt8}
    {payload segment : Packet} {sent : Bool}
    (h : sendTcpRaw rx n conn flags payload s = .ok (segment, sent, s')) :
    Built conn flags payload segment ∧ Moves (s.tcp, s.log ++ [.built conn segment]) s'.link := by
  obtain ⟨raw, hraw, h⟩ := bind_eq_ok h
  obtain ⟨⟨sent₁, s₁⟩, hs₁, h⟩ := bind_eq_ok h
  cases h
  exact ⟨⟨raw, _, hraw, rfl⟩, sendIpv4_moves hrx hs₁⟩

theorem handleTcp_moves (hrx : Follows rx) {data : Packet} {src : Ip}
    (h : handleTcp rx n data src s = .ok s') : Moves s.link s'.link := by
  obtain ⟨⟨conn, answer⟩, hconn, h⟩ := bind_eq_ok h
  have hmove : Move s.link (conn, s.log ++ [.segment s.tcp src data]) := .segment src data hconn
  cases answer with
  | false =>
      cases h
      exact .single hmove
  | true =>
      obtain ⟨⟨segment, sent, s₁⟩, hs₁, h⟩ := bind_eq_ok h
      cases h
      obtain ⟨hbuilt, hmoves⟩ := sendTcpRaw_moves hrx hs₁
      exact ((Relation.ReflTransGen.single hmove).tail (.built hbuilt)).trans hmoves

theorem handleUdp_link {data : Packet} {src : Ip} (h : handleUdp data src s = .ok s') :
    s'.link = s.link := by
  rw [handleUdp] at h
  split at h
  · cases h
    rfl
  · obtain ⟨srcPort, _, h⟩ := bind_eq_ok h
    obtain ⟨dstPort, _, h⟩ := bind_eq_ok h
    obtain ⟨len, _, h⟩ := bind_eq_ok h
    split at h
    · cases h
      rfl
    · obtain ⟨payload, _, h⟩ := bind_eq_ok h
      cases h
      exact dispatch_keeps link (fun _ s => link_deliver _ _ _ _ s) _ _ s

theorem handleIpv4_moves (hrx : Follows rx) {packet : Packet}
    (h : handleIpv4 rx n packet s = .ok s') : Moves s.link s'.link := by
  have hself {s : Stack} (h : (Except.ok s : Except Fault Stack) = .ok s') : Moves s.link s'.link := by
    cases h
    exact .refl
  rw [handleIpv4] at h
  split at h
  · exact hself h
  obtain ⟨first, _, h⟩ := bind_eq_ok h
  split at h
  · exact hself h
  simp only at h
  split at h
  · exact hself h
  obtain ⟨csum, _, h⟩ := bind_eq_ok h
  obtain ⟨head, _, h⟩ := bind_eq_ok h
  obtain ⟨check, _, h⟩ := bind_eq_ok h
  split at h
  · exact hself h
  obtain ⟨totalLen, _, h⟩ := bind_eq_ok h
  split at h
  · exact hself h
  obtain ⟨proto, _, h⟩ := bind_eq_ok h
  obtain ⟨src, _, h⟩ := bind_eq_ok h
  split at h
  · obtain ⟨data, _, h⟩ := bind_eq_ok h
    rw [handleUdp_link h]
  split at h
  · obtain ⟨data, _, h⟩ := bind_eq_ok h
    exact handleTcp_moves hrx h
  · exact hself h

theorem receive_moves (hrx : Follows rx) {frame : Packet} (h : receive rx n frame s = .ok s') :
    Moves s.link s'.link := by
  rw [receive] at h
  split at h
  · cases h
    exact .refl
  obtain ⟨ethertype, _, h⟩ := bind_eq_ok h
  obtain ⟨payload, _, h⟩ := bind_eq_ok h
  split at h
  · rw [handleArp] at h
    split at h
    · cases h
      exact .refl
    obtain ⟨op, _, h⟩ := bind_eq_ok h
    obtain ⟨srcIp, _, h⟩ := bind_eq_ok h
    obtain ⟨srcMac, _, h⟩ := bind_eq_ok h
    obtain ⟨targetIp, _, h⟩ := bind_eq_ok h
    simp only at h
    split at h
    · cases h
      rw [arpReply, link_sendEth]
      exact .refl
    · cases h
      exact .refl
  split at h
  · exact handleIpv4_moves hrx h
  · cases h
    exact .refl

end

/-- `handle_rx` follows the rule, with any frames coming in meanwhile. -/
theorem handleRx_follows (n : Nat) : Follows (handleRx n) := by
  induction n with
  | zero => exact fun _ _ _ h => by cases h
  | succ n ih => exact fun frame s s' h => receive_moves ih h

theorem tcpSend_moves {n : Nat} {data : Packet} {s s' : Stack} {ok : Bool}
    (h : tcpSend n data s = .ok (ok, s')) :
    s'.link = s.link ∨ s.tcp.state = .established ∧ ∃ segment l,
      Built s.tcp (tcpFlagPsh ||| tcpFlagAck) data segment ∧
        Moves (s.tcp, s.log ++ [.built s.tcp segment]) l ∧
        (s'.link = l ∨ s'.link = (l.1, l.2 ++ [.emitted segment])) := by
  rw [tcpSend] at h
  split at h
  · cases h
    exact Or.inl rfl
  · rename_i hstate
    obtain ⟨⟨segment, sent, s₁⟩, hs₁, h⟩ := bind_eq_ok h
    obtain ⟨hbuilt, hmoves⟩ := sendTcpRaw_moves (handleRx_follows n) hs₁
    refine Or.inr ⟨not_not.mp hstate, segment, s₁.link, hbuilt, hmoves, ?_⟩
    cases h
    cases sent with
    | false => exact Or.inl rfl
    | true => exact Or.inr rfl

theorem waitConnect_moves {n fuel : Nat} {s s' : Stack} {ok : Bool}
    (h : waitConnect n fuel s = .ok (ok, s')) :
    ∃ l, Moves s.link l ∧
      (s'.link = l ∨ s'.link = ({ l.1 with state := .closed }, l.2 ++ [.closed])) := by
  induction fuel generalizing s with
  | zero => cases h
  | succ fuel ih =>
      rw [waitConnect] at h
      split at h
      · cases h
        exact ⟨s.link, .refl, Or.inr rfl⟩
      · cases h
        exact ⟨s.link, .refl, Or.inr rfl⟩
      · obtain ⟨s₁, hs₁, h⟩ := bind_eq_ok h
        have hmoves := handlePolled_moves (handleRx_follows n) hs₁
        split at h
        · cases h
          exact ⟨_, hmoves, Or.inl rfl⟩
        · obtain ⟨l, hl, hend⟩ := ih h
          exact ⟨l, hmoves.trans hl, hend⟩

/-- A new connection: the segment that asks for it, what comes in, and perhaps its end. -/
theorem tcpConnect_moves {n : Nat} {dst : Ip} {dstPort srcPort : Nat} {s s' : Stack} {ok : Bool}
    (h : tcpConnect n dst dstPort srcPort s = .ok (ok, s')) :
    ∃ conn l, conn.state = .synSent ∧ conn.seq = 1000 ∧ conn.rxbuf = [] ∧
      Moves (conn, s.log ++ [.connect conn]) l ∧
      (s'.link = l ∨ s'.link = ({ l.1 with state := .closed }, l.2 ++ [.closed])) := by
  obtain ⟨⟨segment, sent, s₁⟩, hs₁, h⟩ := bind_eq_ok h
  obtain ⟨hbuilt, hmoves⟩ := sendTcpRaw_moves (handleRx_follows n) hs₁
  obtain ⟨l, hl, hend⟩ := waitConnect_moves h
  exact ⟨_, l, rfl, rfl, rfl,
    ((Relation.ReflTransGen.single (.built hbuilt)).trans hmoves).trans hl, hend⟩

/-! ## Runs -/

/-- What is asked of the stack. -/
inductive Call where
  /-- The card is going to find this. -/
  | polls (polls : List Poll)
  | receive (frame : Packet)
  | send (data : Packet)
  | read (room : Nat)
  | connect (dst : Ip) (dstPort srcPort : Nat)

/-- A call that comes back. -/
inductive Step : Stack → Call → Stack → Prop where
  | polls (s : Stack) (polls : List Poll) : Step s (.polls polls) { s with polls := polls }
  | receive {s s' : Stack} {n : Nat} {frame : Packet} (h : handleRx n frame s = .ok s') :
      Step s (.receive frame) s'
  | send {s s' : Stack} {n : Nat} {data : Packet} {ok : Bool} (h : tcpSend n data s = .ok (ok, s')) :
      Step s (.send data) s'
  | read (s : Stack) (room : Nat) : Step s (.read room) (s.tcpReadData room).2
  | connect {s s' : Stack} {n : Nat} {dst : Ip} {dstPort srcPort : Nat} {ok : Bool}
      (h : tcpConnect n dst dstPort srcPort s = .ok (ok, s')) :
      Step s (.connect dst dstPort srcPort) s'

/-- The stack behind a frame, as long as it is handled. -/
def afterRx (n : Nat) (frame : Packet) (s : Stack) : Stack :=
  match handleRx n frame s with
  | .ok s' => s'
  | .error _ => s

theorem step_afterRx {n : Nat} {frame : Packet} {s : Stack} (h : (handleRx n frame s).isOk) :
    Step s (.receive frame) (s.afterRx n frame) := by
  refine .receive (n := n) ?_
  rw [afterRx]
  cases hr : handleRx n frame s with
  | error fault =>
      rw [hr] at h
      cases h
  | ok s' => rfl

/-- The stack behind a call that answers, as long as it comes back. -/
def afterCall (r : Except Fault (Bool × Stack)) (s : Stack) : Stack :=
  match r with
  | .ok (_, s') => s'
  | .error _ => s

theorem eq_afterCall {r : Except Fault (Bool × Stack)} (s : Stack) (h : r.isOk) :
    ∃ ok, r = .ok (ok, afterCall r s) := by
  cases r with
  | error fault => cases h
  | ok answer => exact ⟨answer.1, rfl⟩

/-- One thing that happens to the connection in a run. -/
inductive Action : Link → Link → Prop where
  | move {l l' : Link} (h : Move l l') : Action l l'
  | emitted {conn : TcpConn} {log : List Event} {segment : Packet} (hopen : conn.Open)
      (hseq : ∃ conn₀ flags payload, Built conn₀ flags payload segment ∧ conn₀.seq = conn.seq) :
      Action (conn, log) (conn, log ++ [.emitted segment])
  | read (conn : TcpConn) (log : List Event) (room : Nat) :
      Action (conn, log) ({ conn with rxbuf := [] }, log ++ [.read conn room])
  | connect (l : Link) {conn : TcpConn} (hstate : conn.state = .synSent) (hseq : conn.seq = 1000)
      (hrxbuf : conn.rxbuf = []) : Action l (conn, l.2 ++ [.connect conn])
  | closed (conn : TcpConn) (log : List Event) :
      Action (conn, log) ({ conn with state := .closed }, log ++ [.closed])

/-- Some of them, one after the other. -/
abbrev Actions : Link → Link → Prop := Relation.ReflTransGen Action

theorem Action.prefix {l l' : Link} (h : Action l l') : l.2 <+: l'.2 := by
  cases h with
  | move h => exact h.prefix
  | _ => exact List.prefix_append ..

/-- The invariant rule over a run, for conditions on the log. -/
theorem Actions.invariant {I : Link → Prop} {ok : List Event → Event → Prop} {l l' : Link}
    (hstep : ∀ l l', I l → Along ok l'.2 → Action l l' → I l') (h : Actions l l')
    (hok : Along ok l'.2) (hl : I l) : I l' := by
  induction h with
  | refl => exact hl
  | tail _ hlast ih => exact hstep _ _ (ih (hok.of_prefix hlast.prefix)) hok hlast

theorem actions_of_moves {l l' : Link} (h : Moves l l') : Actions l l' :=
  Relation.ReflTransGen.mono (fun _ _ h => Action.move h) _ _ h

/-- What a call does to the connection. -/
theorem Step.actions {s s' : Stack} {c : Call} (h : Step s c s') : Actions s.link s'.link := by
  cases h with
  | polls => exact .refl
  | receive h => exact actions_of_moves (handleRx_follows _ _ _ _ h)
  | send h =>
      rcases tcpSend_moves h with heq | ⟨hstate, segment, l, hbuilt, hmoves, hend⟩
      · rw [heq]
      · have hsent : Actions s.link l :=
          (Relation.ReflTransGen.single (Action.move (.built hbuilt))).trans (actions_of_moves hmoves)
        rcases hend with heq | heq
        · rw [heq]
          exact hsent
        · obtain ⟨hopen, hseq⟩ := Moves.open hmoves (Or.inl hstate)
          rw [heq]
          exact hsent.tail (.emitted hopen ⟨_, _, _, hbuilt, hseq.symm⟩)
  | read room => exact .single (.read s.tcp s.log room)
  | connect h =>
      obtain ⟨conn, l, hstate, hseq, hrxbuf, hmoves, hend⟩ := tcpConnect_moves h
      have hdone : Actions s.link l :=
        (Relation.ReflTransGen.single (.connect s.link hstate hseq hrxbuf)).trans (actions_of_moves hmoves)
      rcases hend with heq | heq
      · rw [heq]
        exact hdone
      · rw [heq]
        exact hdone.tail (.closed l.1 l.2)

/-- What a run does to the connection. -/
theorem run_actions {s s' : Stack} {calls : List Call} (h : Run Step s calls s') :
    Actions s.link s'.link := by
  induction h with
  | nil => exact .refl
  | snoc _ last ih => exact ih.trans last.actions

end Stack

end PureOS.Net
