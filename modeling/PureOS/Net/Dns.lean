import PureOS.Net.Connection
import PureOS.Net.Keeps
import PureOS.Foundation.Run
import PureOS.Foundation.Slots

set_option autoImplicit false

/-!
# Net: the resolver (`net/dns.rs`, `net/mod.rs`)

`dns_resolve` asks a server for the address of a host and waits for an answer.  The answer that
comes goes into a buffer, and the address into a cache of eight entries.  An entry of the cache
also says here for which host it was stored; the source keeps only the address.
-/

namespace PureOS.Net

open PureOS.Foundation

/-- `DNS_PORT`. -/
abbrev dnsPort : Nat := 53
/-- `DNS_CACHE_SIZE`. -/
abbrev dnsCacheSize : Nat := 8
/-- The length of `query`. -/
abbrev dnsQuerySize : Nat := 512

/-- `[0; 4]`. -/
abbrev noIp : Ip := .replicate 4 0

/-- `DnsEntry`, when it is valid. -/
structure DnsEntry where
  ip : Ip
  /-- The host that was asked for. -/
  name : Packet
  deriving DecidableEq

/-- The resolver and the stack below. -/
structure Resolver where
  net : Stack
  /-- `DNS_SERVER`. -/
  server : Ip
  /-- `DNS_CACHE`. -/
  cache : Vector (Option DnsEntry) dnsCacheSize

/-! ## The question -/

/-- The labels of a name: what stands between the dots. -/
def labelsOf (name : Packet) : List Packet := name.splitOn 46

/-- The loop of `dns_encode_name` over the labels, into a buffer of `cap` bytes. -/
def encodeLabels (cap : Nat) : List Packet → Packet → Except Fault (Option Packet)
  | [], buf => if buf.length < cap then .ok (some (buf ++ [0])) else .error .panic
  | label :: rest, buf =>
      if label.length > 63 ∨ buf.length + label.length + 1 > cap then .ok none
      else encodeLabels cap rest (buf ++ UInt8.ofNat label.length :: label)

/-- `dns_encode_name`. -/
def dnsEncodeName (name : Packet) (cap : Nat) : Except Fault (Option Packet) :=
  encodeLabels cap (labelsOf name) []

/-- The header of a query: the number 1, one question. -/
def dnsHeader : Packet := [0, 1, 1, 0, 0, 1, 0, 0, 0, 0, 0, 0]

/-- The query that `dns_resolve` builds. -/
def dnsQuery (hostname : Packet) : Except Fault (Option Packet) := do
  let name ← dnsEncodeName hostname (dnsQuerySize - 12)
  match name with
  | none => return none
  | some name =>
      if 12 + name.length + 4 > dnsQuerySize then .error .panic
      else return some (dnsHeader ++ name ++ [0, 1, 0, 1])

/-! ## The answer -/

/-- The loop that skips the name of the question: where it ends, unless the answer ends first. -/
def skipQuestion (resp : Packet) : Nat → Nat → Option Nat
  | 0, _ => none
  | n + 1, off =>
      match resp[off]? with
      | none => none
      | some b =>
          if b = 0 then some (off + 1)
          else if b &&& 0xC0 = 0xC0 then some (off + 2)
          else if off + (b.toNat + 1) ≥ resp.length then none
          else skipQuestion resp n (off + (b.toNat + 1))

/-- The loop that skips the labels of a name in front of a record. -/
def skipLabels (resp : Packet) : Nat → Nat → Nat
  | 0, off => off
  | n + 1, off =>
      match resp[off]? with
      | none => off
      | some b => if b = 0 then off + 1 else skipLabels resp n (off + (b.toNat + 1))

/-- Where the name in front of a record ends. -/
def skipOwner (resp : Packet) (off : Nat) : Nat :=
  if (resp[off]?.getD 0) &&& 0xC0 = 0xC0 then off + 2 else skipLabels resp resp.length off

/-- The loop over the records: the first address in an A record. -/
def firstAddress (resp : Packet) : Nat → Nat → Option Ip
  | 0, _ => none
  | n + 1, off =>
      if off ≥ resp.length then none
      else
        let off := skipOwner resp off
        if off + 10 > resp.length then none
        else
          let rdlen := beAt 2 resp (off + 8)
          if beAt 2 resp off = 1 ∧ rdlen = 4 ∧ off + 10 + 4 ≤ resp.length then
            some (Vector.ofFn fun k => resp[off + 10 + k.val]?.getD 0)
          else firstAddress resp n (off + 10 + rdlen)

/-- What `dns_resolve` finds in a response. -/
def parseResponse (resp : Packet) : Option Ip :=
  if resp.length < 12 then none
  else
    let ancount := beAt 2 resp 6
    if ancount = 0 then none
    else
      match skipQuestion resp resp.length 12 with
      | none => none
      | some off => firstAddress resp ancount (off + 4)

namespace Resolver

/-- `dns_cache_add`, which does nothing when the cache is full. -/
def dnsCacheAdd (name : Packet) (ip : Ip) (r : Resolver) : Resolver :=
  match firstSlot (fun entry => entry.isNone) r.cache with
  | none => r
  | some i => { r with cache := r.cache.set i (some { ip := ip, name := name }) }

/-- The first entry of the cache that is valid. -/
def cached (r : Resolver) : Option DnsEntry := r.cache.toList.findSome? id

/-- The loop of `dns_resolve` that waits for the response. -/
def waitResponse (n : Nat) : Nat → Stack → Except Fault Stack
  | 0, _ => .error .fuel
  | fuel + 1, s =>
      match s.polls with
      | [] => .ok s
      | .late :: rest => .ok { s with polls := rest }
      | .frame bytes :: rest => do
          let s ← Stack.handlePolled (Stack.handleRx n) bytes { s with polls := rest }
          if s.dnsResp.length > 0 then return s else waitResponse n fuel s

/-- `dns_resolve`. -/
def dnsResolve (n : Nat) (hostname : Packet) (r : Resolver) : Except Fault (Ip × Resolver) :=
  if hostname = [] then .ok (noIp, r)
  else
    let r := { r with net := (r.net.udpListen dnsPort .dns).2 }
    match r.cached with
    | some entry => .ok (entry.ip, r)
    | none =>
        if ipEq r.server noIp then .ok (noIp, r)
        else do
          let query ← dnsQuery hostname
          match query with
          | none => return (noIp, r)
          | some query =>
              let (sent, net) ←
                Stack.sendUdp n r.server dnsPort 53 query { r.net with dnsResp := [] }
              if !sent then return (noIp, { r with net := net })
              else
                let net ← waitResponse n n net
                let r := { r with net := net }
                if net.dnsResp.length = 0 then return (noIp, r)
                else
                  match parseResponse net.dnsResp with
                  | none => return (noIp, r)
                  | some ip => return (ip, r.dnsCacheAdd hostname ip)

end Resolver

/-! ## What a call of the resolver does -/

/-- The stack `s` can become `s'` by what it does itself: what survives that survives. -/
def Stack.Leads (s s' : Stack) : Prop := ∀ ok I, Stack.Stable ok I → I s → I s'

section

variable {r r' : Resolver} {n : Nat} {hostname : Packet} {answer : Ip}

theorem Resolver.dnsCacheAdd_net (name : Packet) (ip : Ip) (r : Resolver) :
    (r.dnsCacheAdd name ip).net = r.net := by
  rw [Resolver.dnsCacheAdd]
  split <;> rfl

theorem Resolver.waitResponse_leads {fuel : Nat} {s s' : Stack}
    (h : Resolver.waitResponse n fuel s = .ok s') : s.Leads s' := by
  intro ok I hI hs
  induction fuel generalizing s with
  | zero => cases h
  | succ fuel ih =>
      rw [Resolver.waitResponse] at h
      split at h
      · cases h
        exact hs
      · rename_i hpolls
        cases h
        exact hI.polls _ _ _ hs hpolls
      · rename_i hpolls
        obtain ⟨s₁, hs₁, h⟩ := bind_eq_ok h
        have hhandled := hI.handlePolled (hI.handleRx n) hs hpolls hs₁
        split at h
        · cases h
          exact hhandled
        · exact ih h hhandled

/-- The resolver behind the `udp_listen` of `dns_resolve`. -/
def Resolver.listening (r : Resolver) : Resolver :=
  { r with net := (r.net.udpListen dnsPort .dns).2 }

/-- What `dns_resolve` can do: refuse the empty name, answer from the cache, or ask. -/
theorem Resolver.dnsResolve_cases (h : r.dnsResolve n hostname = .ok (answer, r')) :
    (hostname = [] ∧ answer = noIp ∧ r' = r) ∨
      hostname ≠ [] ∧
        ((∃ entry, r.cached = some entry ∧ answer = entry.ip ∧ r' = r.listening) ∨
          r.cached = none ∧ ∃ s', (r.listening.net = s' ∨
              Stack.Leads { r.listening.net with dnsResp := [] } s') ∧
            (answer = noIp ∧ r' = { r.listening with net := s' } ∨
              Stack.Leads { r.listening.net with dnsResp := [] } s' ∧ s'.dnsResp ≠ [] ∧
                parseResponse s'.dnsResp = some answer ∧
                r' = ({ r.listening with net := s' } : Resolver).dnsCacheAdd hostname answer)) := by
  rw [Resolver.dnsResolve] at h
  split at h
  · rename_i hempty
    cases h
    exact Or.inl ⟨hempty, rfl, rfl⟩
  · rename_i hne
    refine Or.inr ⟨hne, ?_⟩
    have hcache : r.listening.cached = r.cached := rfl
    change (match r.listening.cached with | some entry => _ | none => _) = _ at h
    rw [hcache] at h
    cases hcached : r.cached with
    | some entry =>
        rw [hcached] at h
        cases h
        exact Or.inl ⟨entry, rfl, rfl, rfl⟩
    | none =>
        rw [hcached] at h
        refine Or.inr ⟨rfl, ?_⟩
        dsimp only at h
        split at h
        · cases h
          exact ⟨_, Or.inl rfl, Or.inl ⟨rfl, rfl⟩⟩
        · obtain ⟨query, _, h⟩ := bind_eq_ok h
          cases query with
          | none =>
              cases h
              exact ⟨_, Or.inl rfl, Or.inl ⟨rfl, rfl⟩⟩
          | some query =>
              obtain ⟨⟨sent, net⟩, hsent, h⟩ := bind_eq_ok h
              have hnet : Stack.Leads { r.listening.net with dnsResp := [] } net :=
                fun ok I hI hs => hI.sendUdp hs hsent
              dsimp only at h
              split at h
              · cases h
                exact ⟨net, Or.inr hnet, Or.inl ⟨rfl, rfl⟩⟩
              · obtain ⟨net', hwait, h⟩ := bind_eq_ok h
                have hnet' : Stack.Leads { r.listening.net with dnsResp := [] } net' :=
                  fun ok I hI hs => Resolver.waitResponse_leads hwait ok I hI (hnet ok I hI hs)
                refine ⟨net', Or.inr hnet', ?_⟩
                split at h
                · cases h
                  exact Or.inl ⟨rfl, rfl⟩
                · rename_i hlen
                  split at h
                  · cases h
                    exact Or.inl ⟨rfl, rfl⟩
                  · rename_i ip hparse
                    cases h
                    exact Or.inr ⟨hnet', fun hnil => hlen (by rw [hnil]; rfl), hparse, rfl⟩

end

/-! ## Runs -/

/-- What is asked of the resolver and of the stack. -/
inductive NetCall where
  /-- `dns_resolve`, and what it answers. -/
  | resolve (hostname : Packet) (answer : Ip)
  /-- `udp_listen` by another service, and whether there was room. -/
  | listen (port id : Nat) (done : Bool)
  /-- `DNS_SERVER` is set. -/
  | configure (server : Ip)
  /-- Something else that the stack does. -/
  | stack (c : Stack.Call)

/-- A call that comes back. -/
inductive Resolver.Step : Resolver → NetCall → Resolver → Prop where
  | resolve {r r' : Resolver} {n : Nat} {hostname : Packet} {answer : Ip}
      (h : r.dnsResolve n hostname = .ok (answer, r')) : Step r (.resolve hostname answer) r'
  | listen (r : Resolver) (port id : Nat) :
      Step r (.listen port id (r.net.udpListen port (.service id)).1)
        { r with net := (r.net.udpListen port (.service id)).2 }
  | configure (r : Resolver) (server : Ip) : Step r (.configure server) { r with server := server }
  | stack {r : Resolver} {s' : Stack} {c : Stack.Call} (h : Stack.Step r.net c s') :
      Step r (.stack c) { r with net := s' }

/-- A resolver before its first call: nothing is registered, cached or waiting. -/
structure Resolver.Fresh (r : Resolver) : Prop where
  udp : r.net.udp = .replicate maxUdpHandlers none
  cache : r.cache = .replicate dnsCacheSize none
  polls : r.net.polls = []

end PureOS.Net
