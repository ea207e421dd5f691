import PureOS.Net.Stream

set_option autoImplicit false

/-!
# Net: which segments reach the connection, and what it sends

`handle_tcp` looks at neither the sender nor the ports, takes any acknowledgement
number for its own when a connection opens, and nothing ever moves the sequence
number on.  So the connection belongs to its peer only while no other segment is
acted on, and the sequence numbers are right only for the first data that is sent.
-/

namespace PureOS.Net

open PureOS.Foundation

/-- The segment comes from the peer of the connection, and answers its request. -/
def Matches (conn : TcpConn) (src : Ip) (data : Packet) : Prop :=
  src = conn.dstIp ∧ beAt 2 data 0 = conn.dstPort ∧ beAt 2 data 2 = conn.srcPort ∧
    (conn.state = .synSent → segAck data = 1001)

/-- The connection after an event. -/
def Event.apply (conn : TcpConn) : Event → TcpConn
  | .segment _ _ data =>
      match conn.onSegment data with
      | .ok (conn', _) => conn'
      | .error _ => conn
  | .read _ _ => { conn with rxbuf := [] }
  | .connect conn' => conn'
  | .closed => { conn with state := .closed }
  | .built _ _ | .emitted _ => conn

/-- The connection after a log. -/
def replay (conn : TcpConn) (log : List Event) : TcpConn := log.foldl Event.apply conn

/-- The segments that `tcp_send` has sent on the latest connection. -/
def sendsOf (log : List Event) : List Packet :=
  log.foldl (fun sends e =>
    match e with
    | .emitted segment => sends ++ [segment]
    | .connect _ => []
    | _ => sends) []

/-- The segments carry consecutive ranges of sequence numbers from `start` on. -/
def Consecutive : Nat → List Packet → Prop
  | _, [] => True
  | start, segment :: rest =>
      segSeq segment = start % 2 ^ 32 ∧ Consecutive (start + (segPayload segment).length) rest

/-- A segment finds the connection that the log has led to, and changes it only if it is
one of the peer's. -/
def Demuxed (conn₀ : TcpConn) (log : List Event) : Event → Prop
  | .segment conn src data =>
      conn = replay conn₀ log ∧ ((Event.segment conn src data).apply conn ≠ conn → Matches conn src data)
  | _ => True

/-- Every segment that is acted on is one of the peer's, and data is sent only while none
has been sent before. -/
def Proper (log : List Event) : Event → Prop
  | .segment conn src data => conn.Acts data → Matches conn src data
  | .emitted _ => ∀ segment ∈ sendsOf log, segPayload segment = []
  | _ => True

@[simp] theorem replay_snoc (conn : TcpConn) (log : List Event) (e : Event) :
    replay conn (log ++ [e]) = e.apply (replay conn log) := by
  rw [replay, List.foldl_append]
  rfl

@[simp] theorem sendsOf_emitted (log : List Event) (segment : Packet) :
    sendsOf (log ++ [.emitted segment]) = sendsOf log ++ [segment] := by
  rw [sendsOf, List.foldl_append]
  rfl

@[simp] theorem sendsOf_connect (log : List Event) (conn : TcpConn) :
    sendsOf (log ++ [.connect conn]) = [] := by
  rw [sendsOf, List.foldl_append]
  rfl

theorem sendsOf_other {log : List Event} {e : Event} (he : ∀ segment, e ≠ .emitted segment)
    (hc : ∀ conn, e ≠ .connect conn) : sendsOf (log ++ [e]) = sendsOf log := by
  rw [sendsOf, List.foldl_append]
  cases e with
  | emitted segment => exact absurd rfl (he segment)
  | connect conn => exact absurd rfl (hc conn)
  | _ => rfl

/-- Behind segments without data one more may follow. -/
theorem Consecutive.snoc {start : Nat} {sends : List Packet} {segment : Packet}
    (h : Consecutive start sends) (hempty : ∀ s ∈ sends, segPayload s = [])
    (hseq : segSeq segment = start % 2 ^ 32) : Consecutive start (sends ++ [segment]) := by
  induction sends with
  | nil => exact ⟨hseq, trivial⟩
  | cons s sends ih =>
      obtain ⟨hfirst, hrest⟩ := h
      have hs : segPayload s = [] := hempty s List.mem_cons_self
      rw [hs] at hrest
      refine ⟨hfirst, ?_⟩
      rw [hs]
      exact ih hrest fun t ht => hempty t (List.mem_cons_of_mem _ ht)

/-- What holds of the connection and the log while everything is proper. -/
structure Faithful (conn₀ : TcpConn) (l : Link) : Prop where
  conn : l.1 = replay conn₀ l.2
  events : Along (Demuxed conn₀) l.2
  seq : l.1.Open → l.1.seq = 1001
  sends : Consecutive 1001 (sendsOf l.2)

variable {conn₀ : TcpConn}

theorem faithful_segment {conn conn' : TcpConn} {log : List Event} {src : Ip} {data : Packet}
    {answer : Bool} (h : Faithful conn₀ (conn, log)) (hok : Proper log (.segment conn src data))
    (hmove : conn.onSegment data = .ok (conn', answer)) :
    Faithful conn₀ (conn', log ++ [.segment conn src data]) := by
  have hconn : conn = replay conn₀ log := h.conn
  have happly : (Event.segment conn src data).apply conn = conn' := by
    rw [Event.apply, hmove]
  have hcases := TcpConn.onSegment_cases hmove
  refine ⟨?_, h.events.snoc ⟨hconn, fun hne => hok ?_⟩, fun hopen => ?_, ?_⟩
  · rw [replay_snoc, ← hconn, happly]
  · rw [happly] at hne
    rcases hcases with ⟨_, hsame⟩ | ⟨hopens, _⟩ | ⟨htakes, _⟩ | ⟨hfin, _⟩
    · exact absurd hsame hne
    · exact Or.inl hopens
    · exact Or.inr (Or.inl htakes)
    · exact Or.inr (Or.inr hfin)
  · rcases hcases with ⟨_, rfl⟩ | ⟨hopens, rfl⟩ | ⟨htakes, rfl⟩ | ⟨hfin, rfl⟩
    · exact h.seq hopen
    · exact (hok (Or.inl hopens)).2.2.2 hopens.2.1
    · exact h.seq hopen
    · exact h.seq (Or.inl hfin.2.1)
  · rw [sendsOf_other (fun _ h => by cases h) fun _ h => by cases h]
    exact h.sends

/-- Everything that happens keeps it. -/
theorem faithful_action {l l' : Link} (h : Faithful conn₀ l) (hok : Along Proper l'.2)
    (haction : Stack.Action l l') : Faithful conn₀ l' := by
  cases haction with
  | move hmove =>
      cases hmove with
      | segment src data hseg => exact faithful_segment h hok.last hseg
      | built hbuilt =>
          refine ⟨?_, h.events.snoc trivial, h.seq, ?_⟩
          · rw [replay_snoc]
            exact h.conn
          · rw [sendsOf_other (fun _ h => by cases h) fun _ h => by cases h]
            exact h.sends
  | @emitted conn log segment hopen hseq =>
      obtain ⟨conn', flags, payload, hbuilt, hsame⟩ := hseq
      refine ⟨?_, h.events.snoc trivial, h.seq, ?_⟩
      · rw [replay_snoc]
        exact h.conn
      · rw [sendsOf_emitted]
        refine h.sends.snoc hok.last ?_
        rw [hbuilt.segSeq, hsame, h.seq hopen]
  | read conn log room =>
      refine ⟨?_, h.events.snoc trivial, h.seq, ?_⟩
      · rw [replay_snoc, ← show conn = replay conn₀ log from h.conn]
        rfl
      · rw [sendsOf_other (fun _ h => by cases h) fun _ h => by cases h]
        exact h.sends
  | connect l hstate hseq hrxbuf =>
      refine ⟨?_, h.events.snoc trivial, fun hopen => ?_, ?_⟩
      · rw [replay_snoc]
        rfl
      · rcases hopen with hopen | hopen
        all_goals cases hstate.symm.trans hopen
      · rw [sendsOf_connect]
        trivial
  | closed conn log =>
      refine ⟨?_, h.events.snoc trivial, fun hopen => ?_, ?_⟩
      · rw [replay_snoc, ← show conn = replay conn₀ log from h.conn]
        rfl
      · rcases hopen with hopen | hopen
        all_goals cases hopen
      · rw [sendsOf_other (fun _ h => by cases h) fun _ h => by cases h]
        exact h.sends

/-- The connection is what its events have made of it, only segments of the peer change it,
and what `tcp_send` sends carries consecutive sequence numbers. -/
def Disciplined (s₀ s : Stack) : Prop :=
  s.tcp = replay s₀.tcp s.log ∧ Along (Demuxed s₀.tcp) s.log ∧ Consecutive 1001 (sendsOf s.log)

/-- It is so in every run, from no connection on, in which every segment that is acted on
is one of the peer's and data is sent once. -/
theorem disciplined_of_proper {s₀ s : Stack} {calls : List Stack.Call}
    (hclosed : s₀.tcp.state = .closed) (hlog : s₀.log = []) (hrun : Run Stack.Step s₀ calls s)
    (hok : Along Proper s.log) : Disciplined s₀ s := by
  have hstart : Faithful s₀.tcp s₀.link := by
    refine ⟨?_, ?_, fun hopen => ?_, ?_⟩
    · rw [Stack.link, hlog]
      rfl
    · rw [Stack.link, hlog]
      exact .nil
    · rcases hopen with hopen | hopen
      all_goals cases hclosed.symm.trans hopen
    · rw [Stack.link, hlog]
      trivial
  have hend := Stack.Actions.invariant (fun _ _ => faithful_action) (Stack.run_actions hrun) hok hstart
  exact ⟨hend.conn, hend.events, hend.sends⟩

/-! ## Two runs -/

instance (conn : TcpConn) (src : Ip) (data : Packet) : Decidable (Matches conn src data) :=
  inferInstanceAs (Decidable (_ ∧ _ ∧ _ ∧ (_ → _)))

instance (conn : TcpConn) (log : List Event) (e : Event) : Decidable (Demuxed conn log e) :=
  match e with
  | .segment _ _ _ => inferInstanceAs (Decidable (_ ∧ (_ → _)))
  | .built _ _ | .emitted _ | .read _ _ | .connect _ | .closed => inferInstanceAs (Decidable True)

instance (log : List Event) (e : Event) : Decidable (Proper log e) :=
  match e with
  | .segment _ _ _ => inferInstanceAs (Decidable (_ → _))
  | .emitted _ => inferInstanceAs (Decidable (∀ segment ∈ _, _))
  | .built _ _ | .read _ _ | .connect _ | .closed => inferInstanceAs (Decidable True)

/-- The card works, and is going to find the answers to an ARP request and to a request for
a connection. -/
def readyStack : Stack :=
  { Stack.init with
    online := true
    polls := [
      .frame (ethFrame (.replicate 6 0) (.replicate 6 2) ethTypeArp
        (arpPacket arpReplyOp (.replicate 6 2) (ip4 10 0 2 2) (.replicate 6 0) (.replicate 4 0))),
      .frame (streamFrame (ip4 10 0 2 2) 80 499 1001 (tcpFlagSyn ||| tcpFlagAck) [])] }

/-- A connection has been opened. -/
def connectedStack : Stack :=
  Stack.afterCall (readyStack.tcpConnect 4 (ip4 10 0 2 2) 80 40000) readyStack

/-- Data has been sent on it. -/
def askedStack : Stack := Stack.afterCall (connectedStack.tcpSend 4 [71, 69, 84]) connectedStack

theorem run_askedStack : Run Stack.Step readyStack
    [.connect (ip4 10 0 2 2) 80 40000, .send [71, 69, 84]] askedStack := by
  obtain ⟨_, hconnect⟩ := Stack.eq_afterCall (r := readyStack.tcpConnect 4 (ip4 10 0 2 2) 80 40000)
    readyStack (by decide +kernel)
  obtain ⟨_, hsend⟩ := Stack.eq_afterCall (r := connectedStack.tcpSend 4 [71, 69, 84]) connectedStack
    (by decide +kernel)
  exact .snoc (.snoc .nil (.connect hconnect)) (.send hsend)

theorem disciplined_of_proper_asked : Disciplined readyStack askedStack :=
  disciplined_of_proper rfl rfl run_askedStack (by decide +kernel)

/-- A segment from another address, for other ports, on the same connection. -/
def forgedStack : Stack :=
  askedStack.afterRx 4 (streamFrame (ip4 6 6 6 6) 1234 500 1001 tcpFlagAck [33])

theorem not_disciplined_on_forged :
    ¬∀ (s₀ s : Stack) (calls : List Stack.Call), s₀.tcp.state = .closed → s₀.log = [] →
      Run Stack.Step s₀ calls s → Disciplined s₀ s := by
  intro h
  have hforged := h readyStack forgedStack _ rfl rfl
    (run_askedStack.snoc (Stack.step_afterRx (by decide +kernel)))
  exact absurd hforged.2.1 (by decide +kernel)

end PureOS.Net
