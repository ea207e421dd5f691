import PureOS.Net.Handlers

set_option autoImplicit false

/-!
# Net: whose answers the resolver gives (`net/dns.rs`)

A response names the question that it answers.  `dns_resolve` reads neither that nor the number
of the response, and the cache does not know for which name an address was stored.
-/

namespace PureOS.Net

open PureOS.Foundation

/-! ## Responses -/

/-- The name of a question, as it is sent: each label with its length, and an empty one. -/
def wireName (labels : List Packet) : Packet :=
  labels.flatMap (fun label => UInt8.ofNat label.length :: label) ++ [0]

/-- What is asked about a host: its addresses. -/
def question (hostname : Packet) : Packet := wireName (labelsOf hostname) ++ [0, 1, 0, 1]

/-- Labels of 1 to 63 bytes from one place to another, up to the empty one. -/
inductive Labels (p : Packet) : Nat → Nat → Prop where
  | root {off : Nat} (h : p[off]? = some 0) : Labels p off (off + 1)
  | label {off e : Nat} {b : UInt8} (h : p[off]? = some b) (hpos : b ≠ 0) (hsmall : b.toNat ≤ 63)
      (rest : Labels p (off + (b.toNat + 1)) e) : Labels p off e

/-- A pointer to another name, in two bytes. -/
def PointerAt (p : Packet) (off e : Nat) : Prop :=
  (∃ b, p[off]? = some b ∧ b &&& 0xC0 = 0xC0) ∧ e = off + 2

/-- A name from one place to another: labels, and a pointer or the empty one at their end. -/
inductive NameAt (p : Packet) : Nat → Nat → Prop where
  | root {off : Nat} (h : p[off]? = some 0) : NameAt p off (off + 1)
  | pointer {off e : Nat} (h : PointerAt p off e) : NameAt p off e
  | label {off e : Nat} {b : UInt8} (h : p[off]? = some b) (hpos : b ≠ 0) (hsmall : b.toNat ≤ 63)
      (rest : NameAt p (off + (b.toNat + 1)) e) : NameAt p off e

/-- A name as `dns_resolve` can skip it: a pointer alone, or labels without one. -/
def PlainName (p : Packet) (off e : Nat) : Prop := PointerAt p off e ∨ Labels p off e

/-- So many records from a place on, and where each goes on behind its name. -/
inductive Records (name : Packet → Nat → Nat → Prop) (p : Packet) : Nat → Nat → List Nat → Prop where
  | nil (off : Nat) : Records name p 0 off []
  | cons {n off o : Nat} {rest : List Nat} (hname : name p off o)
      (hfits : o + 10 + beAt 2 p (o + 8) ≤ p.length)
      (hrest : Records name p n (o + 10 + beAt 2 p (o + 8)) rest) :
      Records name p (n + 1) off (o :: rest)

/-- A response to the query for a host: its number, its question, and the answers. -/
structure Response (name : Packet → Nat → Nat → Prop) (hostname p : Packet) (records : List Nat) :
    Prop where
  long : 12 ≤ p.length
  id : p.take 2 = dnsHeader.take 2
  isResponse : 128 ≤ (p[2]?.getD 0).toNat
  one : beAt 2 p 4 = 1
  same : question hostname <+: p.drop 12
  proper : Labels p 12 (12 + (wireName (labelsOf hostname)).length)
  answers : Records name p (beAt 2 p 6) (12 + (question hostname).length) records

/-- Four bytes as an address. -/
def ipAt (p : Packet) (off : Nat) : Ip := Vector.ofFn fun k => p[off + k.val]?.getD 0

/-- One of the records is an A record with this address. -/
def HasAddress (p : Packet) (records : List Nat) (ip : Ip) : Prop :=
  ∃ o ∈ records, beAt 2 p o = 1 ∧ beAt 2 p (o + 8) = 4 ∧ ip = ipAt p (o + 10)

/-- Among the frames is a response to a query for the host, with the address. -/
def Answered (frames : List Packet) (hostname : Packet) (ip : Ip) : Prop :=
  ∃ frame ∈ frames, ∃ p records, frameUdp frame = some (dnsPort, p) ∧
    Response NameAt hostname p records ∧ HasAddress p records ip

/-- The frames that a call brings in. -/
def NetCall.frames : NetCall → List Packet
  | .stack (.polls polls) => polls.filterMap fun p =>
      match p with
      | .late => none
      | .frame bytes => some (bytes.take rxFrameSize)
  | .stack (.receive frame) => [frame]
  | _ => []

/-- The frames of a history. -/
def framesOf (history : List NetCall) : List Packet := history.flatMap NetCall.frames

/-- No datagram for the resolver is waiting but responses to a query for the host, with names
that can be skipped. -/
def Honest (hostname : Packet) (polls : List Poll) : Prop :=
  ∀ bytes, Poll.frame bytes ∈ polls → ∀ p, frameUdp (bytes.take rxFrameSize) = some (dnsPort, p) →
    p = [] ∨ ∃ records, Response PlainName hostname p records

/-- What is cached first was stored for the host, or nothing is cached and what comes in are
responses for the host. -/
def Resolver.Honest (r : Resolver) : NetCall → Prop
  | .resolve hostname _ => hostname ≠ [] →
      (∀ entry, r.cached = some entry → entry.name = hostname) ∧
        (r.cached = none → Net.Honest hostname r.net.polls)
  | _ => True

/-- A call under that condition. -/
def Resolver.HonestStep (r : Resolver) (c : NetCall) (r' : Resolver) : Prop := r.Step c r' ∧ r.Honest c

/-! ## The query asks the question -/

theorem encodeLabels_eq {cap : Nat} {labels : List Packet} {buf name : Packet}
    (h : encodeLabels cap labels buf = .ok (some name)) : name = buf ++ wireName labels := by
  induction labels generalizing buf with
  | nil =>
      rw [encodeLabels] at h
      split at h
      · cases h
        rfl
      · cases h
  | cons label rest ih =>
      rw [encodeLabels] at h
      split at h
      · cases h
      · rw [ih h, wireName, wireName, List.flatMap_cons, List.append_assoc, List.append_assoc]

/-- What `dns_resolve` sends: the header and the question. -/
theorem dnsQuery_eq {hostname query : Packet} (h : dnsQuery hostname = .ok (some query)) :
    query = dnsHeader ++ question hostname := by
  obtain ⟨name, hname, h⟩ := bind_eq_ok h
  cases name with
  | none => cases h
  | some name =>
      dsimp only at h
      split at h
      · cases h
      · cases h
        rw [encodeLabels_eq hname, List.nil_append, question, List.append_assoc]

/-! ## Skipping names -/

section

variable {p resp : Packet} {hostname : Packet} {off e n : Nat} {records : List Nat} {ip : Ip}

theorem not_pointer {b : UInt8} (h : b.toNat ≤ 63) : b &&& 0xC0 ≠ 0xC0 := by
  intro heq
  have hnat := congrArg UInt8.toNat heq
  rw [UInt8.toNat_and] at hnat
  have hle : b.toNat &&& (0xC0 : UInt8).toNat ≤ b.toNat := Nat.and_le_left
  rw [hnat] at hle
  have hval : (0xC0 : UInt8).toNat = 192 := rfl
  omega

/-- The buffer holds the beginning of a response. -/
theorem get_of_take (htake : resp = p.take 512) {i : Nat} {b : UInt8} (h : resp[i]? = some b) :
    p[i]? = some b := by
  rw [htake, List.getElem?_take] at h
  split at h
  · exact h
  · cases h

/-- A name of labels is skipped up to its end, when it is skipped. -/
theorem skipQuestion_eq (htake : resp = p.take 512) (hname : Labels p off e) {e' : Nat}
    (h : skipQuestion resp n off = some e') : e' = e := by
  induction hname generalizing n with
  | root hb =>
      cases n with
      | zero => cases h
      | succ n =>
          rw [skipQuestion] at h
          split at h
          · cases h
          · rename_i b hget
            have hsame := get_of_take htake hget
            rw [hb] at hsame
            cases hsame
            rw [if_pos rfl] at h
            cases h
            rfl
  | label hb hpos hsmall _ ih =>
      cases n with
      | zero => cases h
      | succ n =>
          rw [skipQuestion] at h
          split at h
          · cases h
          · rename_i b hget
            have hsame := get_of_take htake hget
            rw [hb] at hsame
            cases hsame
            rw [if_neg hpos, if_neg (not_pointer hsmall)] at h
            split at h
            · cases h
            · exact ih h

/-- A name of labels in front of a record is skipped up to its end, or the response ends. -/
theorem skipLabels_eq (htake : resp = p.take 512) (hname : Labels p off e)
    (hn : resp.length ≤ off + n) :
    skipLabels resp n off = e ∨ resp.length ≤ skipLabels resp n off := by
  induction hname generalizing n with
  | @root off hb =>
      cases n with
      | zero => exact Or.inr hn
      | succ n =>
          rw [skipLabels]
          split
          · rename_i hnone
            exact Or.inr (List.getElem?_eq_none_iff.mp hnone)
          · rename_i b hget
            have hsame := get_of_take htake hget
            rw [hb] at hsame
            cases hsame
            exact Or.inl (if_pos rfl)
  | @label off e b hb hpos hsmall _ ih =>
      cases n with
      | zero => exact Or.inr hn
      | succ n =>
          rw [skipLabels]
          split
          · rename_i hnone
            exact Or.inr (List.getElem?_eq_none_iff.mp hnone)
          · rename_i b' hget
            have hsame := get_of_take htake hget
            rw [hb] at hsame
            cases hsame
            rw [if_neg hpos]
            exact ih (by omega)

theorem skipOwner_eq (htake : resp = p.take 512) (hname : PlainName p off e)
    (hoff : off < resp.length) : skipOwner resp off = e ∨ resp.length ≤ skipOwner resp off := by
  have hget : resp[off]? = some resp[off] := List.getElem?_eq_getElem hoff
  have hsame := get_of_take htake hget
  rw [skipOwner, hget, Option.getD_some]
  rcases hname with ⟨⟨b, hb, hpointer⟩, rfl⟩ | hlabels
  · rw [hb] at hsame
    cases hsame
    exact Or.inl (if_pos hpointer)
  · have hplain : resp[off] &&& 0xC0 ≠ 0xC0 := by
      cases hlabels with
      | root hb =>
          rw [hb] at hsame
          rw [← Option.some.inj hsame]
          decide
      | label hb _ hsmall _ =>
          rw [hb] at hsame
          rw [← Option.some.inj hsame]
          exact not_pointer hsmall
    rw [if_neg hplain]
    exact skipLabels_eq htake hlabels (by omega)

/-! ## Reading records -/

theorem beAt_of_take_512 (htake : resp = p.take 512) {i : Nat} (hi : i + 2 ≤ resp.length) :
    beAt 2 resp i = beAt 2 p i := by
  rw [htake, List.length_take] at hi
  rw [beAt, beAt, htake, List.drop_take, List.take_take, Nat.min_eq_left (by omega)]

theorem ipAt_of_take (htake : resp = p.take 512) (hoff : off + 4 ≤ resp.length) :
    (Vector.ofFn fun k : Fin 4 => resp[off + k.val]?.getD 0) = ipAt p off := by
  rw [ipAt]
  congr 1
  funext k
  have hget : resp[off + k.val]? = some resp[off + k.val] := List.getElem?_eq_getElem (by omega)
  rw [hget, get_of_take htake hget]

/-- The address that is found stands in an A record. -/
theorem firstAddress_eq (htake : resp = p.take 512) (hrecords : Records PlainName p n off records)
    (h : firstAddress resp n off = some ip) : HasAddress p records ip := by
  induction hrecords with
  | nil => cases h
  | @cons n off o rest hname hfits hrest ih =>
      rw [firstAddress] at h
      split at h
      · cases h
      rename_i hoff
      dsimp only at h
      split at h
      · cases h
      rename_i hlen
      rcases skipOwner_eq htake hname (by omega) with hskip | hskip
      · rw [hskip] at h hlen
        rw [beAt_of_take_512 htake (by omega), beAt_of_take_512 htake (by omega)] at h
        split at h
        · rename_i hrecord
          obtain ⟨htype, hsize, hend⟩ := hrecord
          rw [ipAt_of_take htake hend] at h
          exact ⟨o, List.mem_cons_self, htype, hsize, (Option.some.inj h).symm⟩
        · obtain ⟨o', hmem, haddress⟩ := ih h
          exact ⟨o', List.mem_cons_of_mem _ hmem, haddress⟩
      · omega

/-- What `dns_resolve` finds in a response for the host is the address of an A record. -/
theorem parseResponse_eq (htake : resp = p.take 512)
    (hresponse : Response PlainName hostname p records) (h : parseResponse resp = some ip) :
    HasAddress p records ip := by
  rw [parseResponse] at h
  split at h
  · cases h
  rename_i hlen
  dsimp only at h
  split at h
  · cases h
  split at h
  · cases h
  rename_i off hskip
  rw [skipQuestion_eq htake hresponse.proper hskip, beAt_of_take_512 htake (by omega)] at h
  refine firstAddress_eq htake ?_ h
  have hanswers := hresponse.answers
  rwa [question, List.length_append, ← Nat.add_assoc] at hanswers

theorem nameAt_of_labels (h : Labels p off e) : NameAt p off e := by
  induction h with
  | root hb => exact .root hb
  | label hb hpos hsmall _ ih => exact .label hb hpos hsmall ih

theorem nameAt_of_plain (h : PlainName p off e) : NameAt p off e :=
  h.elim .pointer nameAt_of_labels

theorem Response.general (h : Response PlainName hostname p records) :
    Response NameAt hostname p records := by
  have hrecords : ∀ {n off records}, Records PlainName p n off records →
      Records NameAt p n off records := by
    intro n off records hplain
    induction hplain with
    | nil off => exact .nil off
    | cons hname hfits _ ih => exact .cons (nameAt_of_plain hname) hfits ih
  exact ⟨h.long, h.id, h.isResponse, h.one, h.same, h.proper, hrecords h.answers⟩

end

/-! ## Runs -/

/-- The callback of the resolver is registered for its own port alone. -/
def OwnPort (udp : Handlers) : Prop :=
  ∀ handler, some handler ∈ udp.toList → handler.callback = .dns → handler.port = dnsPort

/-- What is waiting has come in. -/
def Known (frames : List Packet) (polls : List Poll) : Prop :=
  ∀ bytes, Poll.frame bytes ∈ polls → bytes.take rxFrameSize ∈ frames

/-- What can be said of the buffer while `dns_resolve` waits: it is empty, or it holds the
beginning of a response for the host that has come in. -/
def Buffered (frames : List Packet) (hostname resp : Packet) : Prop :=
  resp = [] ∨ ∃ frame ∈ frames, ∃ p records, frameUdp frame = some (dnsPort, p) ∧
    Response PlainName hostname p records ∧ resp = p.take 512

/-- What holds after some calls: each entry of the cache answers a query for its name. -/
structure Sourced (history : List NetCall) (r : Resolver) : Prop where
  ownPort : OwnPort r.net.udp
  known : Known (framesOf history) r.net.polls
  cached : ∀ entry, some entry ∈ r.cache.toList → Answered (framesOf history) entry.name entry.ip

section

variable {frames frames' : List Packet} {hostname : Packet} {ip : Ip} {history : List NetCall}
variable {r r' : Resolver} {c : NetCall} {answer : Ip}

theorem Answered.mono (h : Answered frames hostname ip) (hsub : frames ⊆ frames') :
    Answered frames' hostname ip := by
  obtain ⟨frame, hmem, hrest⟩ := h
  exact ⟨frame, hsub hmem, hrest⟩

theorem stable_known (frames : List Packet) :
    Stack.Stable (fun _ => True) fun s => OwnPort s.udp ∧ Known frames s.polls where
  sends _ _ h := h
  learns _ _ h := h
  moves _ _ _ h := h
  polls s p rest h hpolls := by
    refine ⟨h.1, fun bytes hmem => h.2 bytes ?_⟩
    rw [hpolls]
    exact List.mem_cons_of_mem _ hmem
  polled _ _ _ _ _ := trivial
  delivers s _ handler payload src srcPort h _ _ _ := by
    rw [Stack.udp_deliver, Stack.polls_deliver]
    exact h

/-- What stays so while `dns_resolve` waits for a response. -/
theorem stable_buffered (frames : List Packet) (hostname : Packet) :
    Stack.Stable
      (fun frame => frame ∈ frames ∧ ∀ p, frameUdp frame = some (dnsPort, p) →
        p = [] ∨ ∃ records, Response PlainName hostname p records)
      fun s => OwnPort s.udp ∧ Known frames s.polls ∧ Honest hostname s.polls ∧
        Buffered frames hostname s.dnsResp where
  sends _ _ h := h
  learns _ _ h := h
  moves _ _ _ h := h
  polls s p rest h hpolls := by
    obtain ⟨hport, hknown, hhonest, hbuffered⟩ := h
    rw [hpolls] at hknown hhonest
    exact ⟨hport, fun bytes hmem => hknown bytes (List.mem_cons_of_mem _ hmem),
      fun bytes hmem => hhonest bytes (List.mem_cons_of_mem _ hmem), hbuffered⟩
  polled s bytes rest h hpolls := by
    obtain ⟨_, hknown, hhonest, _⟩ := h
    rw [hpolls] at hknown hhonest
    exact ⟨hknown bytes List.mem_cons_self, hhonest bytes List.mem_cons_self⟩
  delivers s frame handler payload src srcPort h hok hudp hmem := by
    obtain ⟨hport, hknown, hhonest, hbuffered⟩ := h
    rw [Stack.udp_deliver, Stack.polls_deliver]
    refine ⟨hport, hknown, hhonest, ?_⟩
    cases hcallback : handler.callback with
    | service id => exact hbuffered
    | dns =>
        rw [hport handler hmem hcallback] at hudp
        change Buffered frames hostname (payload.take 512)
        rcases hok.2 payload hudp with hnil | ⟨records, hresponse⟩
        · exact Or.inl (by rw [hnil]; rfl)
        · exact Or.inr ⟨frame, hok.1, payload, records, hudp, hresponse, rfl⟩

theorem OwnPort.listen {s : Stack} (h : OwnPort s.udp) {port : Nat} {callback : UdpCallback}
    (hcallback : callback = .dns → port = dnsPort) : OwnPort (s.udpListen port callback).2.udp := by
  rcases udpListen_cases port callback s with ⟨i, _, _, hset⟩ | ⟨_, hsame⟩
  · intro handler hmem hdns
    obtain ⟨j, hj⟩ := Listed.mem_handlers.mp hmem
    rw [hset] at hj
    by_cases hji : j = i
    · subst hji
      have hself : (s.udp.set j (some { port := port, callback := callback }))[j] =
          some { port := port, callback := callback } := Vector.getElem_set_self _
      rw [hself] at hj
      cases hj
      exact hcallback hdns
    · have hne : i.val ≠ j.val := fun hv => hji (Fin.ext hv.symm)
      have hother : (s.udp.set i (some { port := port, callback := callback }))[j] = s.udp[j] :=
        Vector.getElem_set_ne _ _ hne
      rw [hother] at hj
      exact h handler (Listed.mem_handlers.mpr ⟨j, hj⟩) hdns
  · rw [hsame]
    exact h

theorem udpListen_polls (port : Nat) (callback : UdpCallback) (s : Stack) :
    (s.udpListen port callback).2.polls = s.polls := by
  rw [Stack.udpListen]
  split <;> rfl

theorem mem_dnsCacheAdd {entry : DnsEntry}
    (h : some entry ∈ (r.dnsCacheAdd hostname ip).cache.toList) :
    some entry ∈ r.cache.toList ∨ entry = { ip := ip, name := hostname } := by
  rw [Resolver.dnsCacheAdd] at h
  split at h
  · exact Or.inl h
  · rw [Vector.toList_set] at h
    rcases List.mem_or_eq_of_mem_set h with hmem | heq
    · exact Or.inl hmem
    · exact Or.inr (Option.some.inj heq)

/-- What a call of `dns_resolve` answers, and what it leaves behind. -/
theorem Sourced.resolve (h : Sourced history r) {n : Nat}
    (hhonest : r.Honest (.resolve hostname answer)) (hs : r.dnsResolve n hostname = .ok (answer, r')) :
    (answer = noIp ∨ Answered (framesOf history) hostname answer) ∧ Sourced history r' := by
  rcases Resolver.dnsResolve_cases hs with ⟨_, rfl, rfl⟩ | ⟨hne, hcases⟩
  · exact ⟨Or.inl rfl, h⟩
  · obtain ⟨hcache, hnet⟩ := hhonest hne
    have hlistening : OwnPort r.listening.net.udp ∧ Known (framesOf history) r.listening.net.polls := by
      refine ⟨h.ownPort.listen fun _ => rfl, ?_⟩
      change Known _ (r.net.udpListen dnsPort .dns).2.polls
      rw [udpListen_polls]
      exact h.known
    rcases hcases with ⟨entry, hcached, rfl, rfl⟩ | ⟨hnone, s', hs', hend⟩
    · have hmem : some entry ∈ r.cache.toList := by
        obtain ⟨found, hfound, heq⟩ := List.exists_of_findSome?_eq_some hcached
        exact heq ▸ hfound
      refine ⟨Or.inr ?_, hlistening.1, hlistening.2, h.cached⟩
      rw [← hcache entry hcached]
      exact h.cached entry hmem
    · have hpolls : Honest hostname r.listening.net.polls := by
        change Honest hostname (r.net.udpListen dnsPort .dns).2.polls
        rw [udpListen_polls]
        exact hnet hnone
      have hkept : OwnPort s'.udp ∧ Known (framesOf history) s'.polls := by
        rcases hs' with rfl | hleads
        · exact hlistening
        · exact hleads _ _ (stable_known (framesOf history)) hlistening
      rcases hend with ⟨rfl, rfl⟩ | ⟨hleads, hfull, hparse, rfl⟩
      · exact ⟨Or.inl rfl, hkept.1, hkept.2, h.cached⟩
      · obtain ⟨_, _, _, hbuffered⟩ := hleads _ _ (stable_buffered (framesOf history) hostname)
          ⟨hlistening.1, hlistening.2, hpolls, Or.inl rfl⟩
        have hanswered : Answered (framesOf history) hostname answer := by
          rcases hbuffered with hnil | ⟨frame, hmem, p, records, hudp, hresponse, htake⟩
          · exact absurd hnil hfull
          · exact ⟨frame, hmem, p, records, hudp, hresponse.general,
              parseResponse_eq htake hresponse hparse⟩
        refine ⟨Or.inr hanswered, ?_, ?_, ?_⟩
        · rw [Resolver.dnsCacheAdd_net]
          exact hkept.1
        · rw [Resolver.dnsCacheAdd_net]
          exact hkept.2
        · intro entry hmem
          rcases mem_dnsCacheAdd hmem with hold | rfl
          · exact h.cached entry hold
          · exact hanswered

theorem framesOf_snoc (history : List NetCall) (c : NetCall) :
    framesOf (history ++ [c]) = framesOf history ++ c.frames := by
  rw [framesOf, framesOf, List.flatMap_append, List.flatMap_singleton]

/-- More frames make no difference. -/
theorem Sourced.grow (h : Sourced history r) (c : NetCall) : Sourced (history ++ [c]) r := by
  have hsub : framesOf history ⊆ framesOf (history ++ [c]) := by
    rw [framesOf_snoc]
    exact List.subset_append_left _ _
  exact ⟨h.ownPort, fun bytes hmem => hsub (h.known bytes hmem),
    fun entry hmem => (h.cached entry hmem).mono hsub⟩

theorem Sourced.step (h : Sourced history r) (hstep : r.HonestStep c r') :
    Sourced (history ++ [c]) r' := by
  obtain ⟨hstep, hhonest⟩ := hstep
  cases hstep with
  | resolve hs => exact (h.resolve hhonest hs).2.grow _
  | listen port id =>
      have hgrown := h.grow (.listen port id (r.net.udpListen port (.service id)).1)
      refine ⟨h.ownPort.listen (fun hdns => nomatch hdns), ?_, hgrown.cached⟩
      rw [udpListen_polls]
      exact hgrown.known
  | configure server =>
      have hgrown := h.grow (.configure server)
      exact ⟨hgrown.ownPort, hgrown.known, hgrown.cached⟩
  | @stack s' c hs =>
      have hgrown := h.grow (.stack c)
      have hI := stable_known (framesOf (history ++ [.stack c]))
      have hstart : OwnPort r.net.udp ∧ Known (framesOf (history ++ [.stack c])) r.net.polls :=
        ⟨hgrown.ownPort, hgrown.known⟩
      have hend : OwnPort s'.udp ∧ Known (framesOf (history ++ [.stack c])) s'.polls := by
        cases hs with
        | polls polls =>
            refine ⟨h.ownPort, fun bytes hmem => ?_⟩
            rw [framesOf_snoc]
            refine List.mem_append_right _ (List.mem_filterMap.mpr ⟨.frame bytes, hmem, rfl⟩)
        | receive hs => exact hI.handleRx _ _ _ _ hstart trivial hs
        | send hs => exact hI.tcpSend hstart hs
        | read room => exact hstart
        | connect hs => exact hI.tcpConnect hstart hs
      exact ⟨hend.1, hend.2, hgrown.cached⟩

theorem Sourced.of_run {r₀ : Resolver} (hfresh : r₀.Fresh)
    (h : Run Resolver.HonestStep r₀ history r) : Sourced history r := by
  refine h.invariant Sourced ⟨?_, ?_, ?_⟩ fun _ _ _ _ hsourced hstep => hsourced.step hstep
  · intro handler hmem
    rw [hfresh.udp] at hmem
    simp at hmem
  · intro bytes hmem
    rw [hfresh.polls] at hmem
    cases hmem
  · intro entry hmem
    rw [hfresh.cache] at hmem
    simp at hmem

end

/-- After every history under that condition, `dns_resolve` answers 0.0.0.0 or an address from
an A record of a response to a query for the same host that has come in. -/
theorem resolve_answers_the_question {r₀ r r' : Resolver} {history : List NetCall} {hostname : Packet}
    {answer : Ip} (hfresh : r₀.Fresh) (hrun : Run Resolver.HonestStep r₀ history r)
    (hstep : r.HonestStep (.resolve hostname answer) r') :
    answer = noIp ∨ Answered (framesOf history) hostname answer := by
  obtain ⟨hstep, hhonest⟩ := hstep
  cases hstep with
  | resolve hs => exact ((Sourced.of_run hfresh hrun).resolve hhonest hs).1

/-- A server and the stack that knows its hardware address. -/
def askingResolver : Resolver where
  net :=
    { Stack.init with
      mac := .replicate 6 2
      ip := ip4 10 0 2 15
      arp := Stack.init.arp.set 0 { ip := ip4 10 0 2 3, mac := .replicate 6 82, valid := true }
      online := true }
  server := ip4 10 0 2 3
  cache := .replicate dnsCacheSize none

/-- A response for the host "a": 1.2.3.4. -/
def responseForA : Packet :=
  [0, 1, 0x81, 0x80, 0, 1, 0, 1, 0, 0, 0, 0, 1, 97, 0, 0, 1, 0, 1,
    0xC0, 12, 0, 1, 0, 1, 0, 0, 0, 60, 0, 4, 1, 2, 3, 4]

/-- The frame that it comes in. -/
def frameForA : Packet :=
  ethFrame (.replicate 6 2) (.replicate 6 82) ethTypeIp
    (udpPacket (ip4 10 0 2 3) (ip4 10 0 2 15) 53 53 responseForA)

/-- The resolver when the frame is waiting. -/
def waitingResolver : Resolver :=
  { askingResolver with net := { askingResolver.net with polls := [.frame frameForA] } }

theorem frameUdp_frameForA : frameUdp (frameForA.take rxFrameSize) = some (dnsPort, responseForA) := by
  decide +kernel

/-- The response is one for "a". -/
theorem response_responseForA : Response PlainName [97] responseForA [21] where
  long := by decide
  id := rfl
  isResponse := by decide
  one := by decide +kernel
  same := by decide +kernel
  proper := .label (b := 1) rfl (by decide) (by decide) (.root rfl)
  answers := by
    have hcount : beAt 2 responseForA 6 = 0 + 1 := by decide +kernel
    rw [hcount]
    refine .cons (o := 21) (Or.inl ⟨⟨0xC0, rfl, rfl⟩, rfl⟩) (by decide +kernel) (.nil _)

/-- What a call of `dns_resolve` gives, when only the address is known. -/
theorem exists_of_answer {r : Resolver} {n : Nat} {hostname : Packet} {answer : Ip}
    (h : (r.dnsResolve n hostname).toOption.map Prod.fst = some answer) :
    ∃ r', r.dnsResolve n hostname = .ok (answer, r') := by
  cases hr : r.dnsResolve n hostname with
  | error fault =>
      rw [hr] at h
      cases h
  | ok p =>
      rw [hr] at h
      cases h
      exact ⟨p.2, rfl⟩

/-- The host "a" is asked for, and the response for it comes in. -/
theorem resolve_answers_the_question_a :
    ip4 1 2 3 4 = noIp ∨
      Answered (framesOf [.stack (.polls [.frame frameForA])]) [97] (ip4 1 2 3 4) := by
  obtain ⟨r', hs⟩ := @exists_of_answer waitingResolver 3 [97] (ip4 1 2 3 4) (by decide +kernel)
  refine @resolve_answers_the_question askingResolver waitingResolver r' _ _ _ ⟨rfl, rfl, rfl⟩
    (.snoc .nil ⟨.stack (.polls askingResolver.net [.frame frameForA]), trivial⟩) ⟨.resolve hs, ?_⟩
  intro _
  refine ⟨fun entry hcached => ?_, fun _ bytes hmem p hudp => ?_⟩
  · have hnone : waitingResolver.cached = none := by decide +kernel
    rw [hnone] at hcached
    cases hcached
  · have hpolls : waitingResolver.net.polls = [.frame frameForA] := rfl
    rw [hpolls, List.mem_singleton] at hmem
    cases hmem
    rw [frameUdp_frameForA] at hudp
    cases hudp
    exact Or.inr ⟨[21], response_responseForA⟩

/-- When "b" is asked for after "a", the answer is the address of "a". -/
theorem not_resolve_answers_the_question :
    ¬∀ (r₀ r r' : Resolver) (history : List NetCall) (hostname : Packet) (answer : Ip),
      r₀.Fresh → Run Resolver.Step r₀ history r → r.Step (.resolve hostname answer) r' →
        answer = noIp ∨ Answered (framesOf history) hostname answer := by
  intro h
  have hanswers : ((waitingResolver.dnsResolve 3 [97]).toOption.bind fun p =>
      ((p.2.dnsResolve 3 [98]).toOption.map fun q => (p.1, q.1))) =
        some (ip4 1 2 3 4, ip4 1 2 3 4) := by
    decide +kernel
  obtain ⟨⟨first, r₁⟩, hfirst, hsecond⟩ := Option.bind_eq_some_iff.mp hanswers
  obtain ⟨⟨second, r₂⟩, hsecond, heq⟩ := Option.map_eq_some_iff.mp hsecond
  cases heq
  have hs₁ : waitingResolver.dnsResolve 3 [97] = .ok ((ip4 1 2 3 4), r₁) := by
    cases hr : waitingResolver.dnsResolve 3 [97] with
    | error fault =>
        rw [hr] at hfirst
        cases hfirst
    | ok p =>
        rw [hr] at hfirst
        cases hfirst
        rfl
  obtain ⟨r₂', hs₂⟩ := @exists_of_answer r₁ 3 [98] (ip4 1 2 3 4) (by rw [hsecond]; rfl)
  have h₁ : Run Resolver.Step askingResolver _ waitingResolver :=
    .snoc .nil (.stack (.polls askingResolver.net [.frame frameForA]))
  rcases h _ _ _ _ _ _ ⟨rfl, rfl, rfl⟩ (h₁.snoc (.resolve hs₁)) (.resolve hs₂) with hzero | hanswered
  · cases hzero
  · obtain ⟨frame, hmem, p, records, hudp, hresponse, _⟩ := hanswered
    have hframe : frame = frameForA.take rxFrameSize := by
      simpa [framesOf, NetCall.frames] using hmem
    rw [hframe, frameUdp_frameForA] at hudp
    cases hudp
    have hsame := hresponse.same
    revert hsame
    decide +kernel

end PureOS.Net
