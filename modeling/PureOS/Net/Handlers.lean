import PureOS.Net.Datagram
import PureOS.Net.Dns
import Mathlib.Data.Fintype.Card

set_option autoImplicit false

/-!
# Net: the table of handlers (`net/eth.rs`, `net/dns.rs`)

`udp_listen` puts a port and a callback into the first of four slots that is free, whether or
not they stand in the table already, and `dns_resolve` calls it every time.
-/

namespace PureOS.Net

open PureOS.Foundation

/-- The pair that a call registers. -/
def NetCall.registers : NetCall → Option UdpHandler
  | .resolve hostname _ => if hostname = [] then none else some { port := dnsPort, callback := .dns }
  | .listen port id _ => some { port := port, callback := .service id }
  | _ => none

/-- The pairs that have been registered. -/
def registered (history : List NetCall) : Finset UdpHandler :=
  (history.filterMap NetCall.registers).toFinset

/-- The table of handlers is as it should be after some calls. -/
structure TableSound (history : List NetCall) (r : Resolver) : Prop where
  /-- A pair is in one slot at most. -/
  distinct : ∀ (i j : Fin maxUdpHandlers) (handler : UdpHandler),
    getElem r.net.udp i i.isLt = some handler → getElem r.net.udp j j.isLt = some handler → i = j
  /-- A datagram goes to a callback once at most. -/
  once : ∀ port payload src srcPort,
    ((callsFor port payload src srcPort r.net.udp.toList).map UdpCall.callback).Nodup
  /-- While less than four pairs have been registered, there is room for another. -/
  room : (registered history).card < maxUdpHandlers →
    ∀ port callback, (r.net.udpListen port callback).1 = true

/-- What a call registers is not in the table, or the table is full. -/
def Resolver.Careful (r : Resolver) (c : NetCall) : Prop :=
  ∀ handler, c.registers = some handler → some handler ∉ r.net.udp.toList ∨ none ∉ r.net.udp.toList

/-- A careful call. -/
def Resolver.CarefulStep (r : Resolver) (c : NetCall) (r' : Resolver) : Prop :=
  r.Step c r' ∧ r.Careful c

/-! ## What a call does to the table -/

/-- The table of handlers. -/
abbrev Handlers := Vector (Option UdpHandler) maxUdpHandlers

theorem stable_udp (udp : Handlers) : Stack.Stable (fun _ => True) fun s => s.udp = udp where
  sends _ _ h := h
  learns _ _ h := h
  moves _ _ _ h := h
  polls _ _ _ h _ := h
  polled _ _ _ _ _ := trivial
  delivers s _ handler payload src srcPort h _ _ _ :=
    (Stack.udp_deliver handler.callback payload src srcPort s).trans h

theorem Stack.Leads.udp {s s' : Stack} (h : s.Leads s') : s'.udp = s.udp :=
  h _ _ (stable_udp s.udp) rfl

theorem Stack.Step.udp {s s' : Stack} {c : Stack.Call} (h : Stack.Step s c s') : s'.udp = s.udp := by
  have hI := stable_udp s.udp
  cases h with
  | polls polls => rfl
  | receive h => exact hI.handleRx _ _ _ _ rfl trivial h
  | send h => exact hI.tcpSend rfl h
  | read room => rfl
  | connect h => exact hI.tcpConnect rfl h

/-- `udp_listen` takes the first free slot, or finds none. -/
theorem udpListen_cases (port : Nat) (callback : UdpCallback) (s : Stack) :
    (∃ i : Fin maxUdpHandlers, getElem s.udp i i.isLt = none ∧ (s.udpListen port callback).1 = true ∧
      (s.udpListen port callback).2.udp =
        s.udp.set i (some { port := port, callback := callback }) i.isLt) ∨
      (∀ i : Fin maxUdpHandlers, getElem s.udp i i.isLt ≠ none) ∧ s.udpListen port callback = (false, s) := by
  have hslot : (List.finRange maxUdpHandlers).find? (fun i => s.udp[i].isNone) =
      firstSlot (fun handler => handler.isNone) s.udp := rfl
  rw [Stack.udpListen, hslot]
  cases hfirst : firstSlot (fun handler => handler.isNone) s.udp with
  | some i => exact Or.inl ⟨i, Option.isNone_iff_eq_none.mp (firstSlot_eq_some hfirst), rfl, rfl⟩
  | none =>
      refine Or.inr ⟨fun i hnone => ?_, rfl⟩
      have hfull := firstSlot_eq_none.mp hfirst i
      rw [hnone] at hfull
      cases hfull

/-- What a call does to the table: nothing, or what `udp_listen` does for the pair that it
registers. -/
theorem Resolver.Step.udp {r r' : Resolver} {c : NetCall} (h : r.Step c r') :
    match c.registers with
    | none => r'.net.udp = r.net.udp
    | some handler => r'.net.udp = (r.net.udpListen handler.port handler.callback).2.udp := by
  cases h with
  | resolve h =>
      rename_i hostname answer
      rw [NetCall.registers]
      rcases dnsResolve_cases h with ⟨hempty, _, rfl⟩ | ⟨hne, hcases⟩
      · rw [if_pos hempty]
      · rw [if_neg hne]
        rcases hcases with ⟨entry, _, _, rfl⟩ | ⟨_, s', hs', hend⟩
        · rfl
        · have hudp : s'.udp = r.listening.net.udp := by
            rcases hs' with rfl | hleads
            · rfl
            · exact hleads.udp
          rcases hend with ⟨_, rfl⟩ | ⟨_, _, _, rfl⟩
          · exact hudp
          · rw [dnsCacheAdd_net]
            exact hudp
  | listen port id => rfl
  | configure server => rfl
  | stack h => exact h.udp

/-- No pair is in two slots, and all of them have been registered. -/
structure Listed (history : List NetCall) (r : Resolver) : Prop where
  distinct : ∀ (i j : Fin maxUdpHandlers) (handler : UdpHandler),
    getElem r.net.udp i i.isLt = some handler → getElem r.net.udp j j.isLt = some handler → i = j
  listed : ∀ (i : Fin maxUdpHandlers) (handler : UdpHandler),
    getElem r.net.udp i i.isLt = some handler → handler ∈ registered history

namespace Listed

variable {history : List NetCall} {r r' : Resolver} {c : NetCall}

theorem mem_handlers {udp : Handlers} {handler : Option UdpHandler} :
    handler ∈ udp.toList ↔ ∃ i : Fin maxUdpHandlers, getElem udp i i.isLt = handler := by
  rw [Vector.mem_toList_iff, Vector.mem_iff_getElem]
  constructor
  · rintro ⟨i, hi, heq⟩
    exact ⟨⟨i, hi⟩, heq⟩
  · rintro ⟨i, heq⟩
    exact ⟨i.val, i.isLt, heq⟩

theorem mem_registered_snoc {handler : UdpHandler} :
    handler ∈ registered (history ++ [c]) ↔
      handler ∈ registered history ∨ c.registers = some handler := by
  rw [registered, registered, List.filterMap_append, List.mem_toFinset, List.mem_append,
    List.mem_toFinset]
  refine or_congr_right ?_
  rw [List.mem_filterMap]
  constructor
  · rintro ⟨c', hc', heq⟩
    rwa [List.mem_singleton.mp hc'] at heq
  · exact fun heq => ⟨c, List.mem_singleton_self c, heq⟩

/-- A careful call keeps the table in order. -/
theorem step (h : Listed history r) (hstep : r.CarefulStep c r') :
    Listed (history ++ [c]) r' := by
  obtain ⟨hstep, hcareful⟩ := hstep
  have hudp := hstep.udp
  cases hreg : c.registers with
  | none =>
      rw [hreg] at hudp
      refine ⟨?_, ?_⟩
      · rw [hudp]
        exact h.distinct
      · rw [hudp]
        exact fun i handler hi => mem_registered_snoc.mpr (Or.inl (h.listed i handler hi))
  | some handler =>
      rw [hreg] at hudp
      dsimp only at hudp
      rcases udpListen_cases handler.port handler.callback r.net with ⟨i, hfree, _, hset⟩ | ⟨_, hsame⟩
      · rw [hset] at hudp
        -- There is a free slot, so the pair is not in the table.
        have hnew : ∀ j : Fin maxUdpHandlers, r.net.udp[j] ≠ some handler := by
          rcases hcareful handler hreg with hnot | hfull
          · exact fun j hj => hnot (mem_handlers.mpr ⟨j, hj⟩)
          · exact absurd (mem_handlers.mpr ⟨i, hfree⟩) hfull
        have hget : ∀ j : Fin maxUdpHandlers, r'.net.udp[j] =
            if j = i then some handler else r.net.udp[j] := by
          intro j
          rw [hudp]
          by_cases hji : j = i
          · subst hji
            rw [if_pos rfl]
            exact Vector.getElem_set_self _
          · have hne : i.val ≠ j.val := fun hv => hji (Fin.ext hv.symm)
            rw [if_neg hji]
            exact Vector.getElem_set_ne _ _ hne
        refine ⟨?_, ?_⟩
        · intro j k handler' hj hk
          rw [hget] at hj hk
          split at hj
          · split at hk
            · rename_i hji hki
              rw [hji, hki]
            · cases hj
              exact absurd hk (hnew k)
          · split at hk
            · cases hk
              exact absurd hj (hnew j)
            · exact h.distinct j k handler' hj hk
        · intro j handler' hj
          rw [hget] at hj
          rw [mem_registered_snoc]
          split at hj
          · cases hj
            exact Or.inr hreg
          · exact Or.inl (h.listed j handler' hj)
      · rw [hsame] at hudp
        refine ⟨?_, ?_⟩
        · rw [hudp]
          exact h.distinct
        · rw [hudp]
          exact fun i handler' hi => mem_registered_snoc.mpr (Or.inl (h.listed i handler' hi))

theorem of_run {r₀ : Resolver} (hfresh : r₀.Fresh) (h : Run Resolver.CarefulStep r₀ history r) :
    Listed history r := by
  refine h.invariant Listed ⟨?_, ?_⟩ fun _ _ _ _ hlisted hstep => hlisted.step hstep
  · intro i j handler hi
    rw [hfresh.udp] at hi
    simp at hi
  · intro i handler hi
    rw [hfresh.udp] at hi
    simp at hi

/-- Each callback is called once at most. -/
theorem once (h : Listed history r) (port : Nat) (payload : Packet) (src : Ip) (srcPort : Nat) :
    ((callsFor port payload src srcPort r.net.udp.toList).map UdpCall.callback).Nodup := by
  rw [List.Nodup, List.pairwise_map, callsFor, List.pairwise_filterMap, List.pairwise_iff_getElem]
  intro i j hi hj hij call hcall call' hcall' heq
  have hcalled : ∀ {handler : Option UdpHandler} {call : UdpCall},
      (handler.bind fun h => if h.port = port then
        some (⟨h.callback, payload, src, srcPort⟩ : UdpCall) else none) = some call →
      handler = some { port := port, callback := call.callback } := by
    intro handler call hsome
    obtain ⟨h', rfl, hcall⟩ := Option.bind_eq_some_iff.mp hsome
    split at hcall
    · rename_i hport
      cases hcall
      rw [← hport]
    · cases hcall
  have hi' := hcalled hcall
  have hj' := hcalled hcall'
  rw [← heq] at hj'
  rw [Vector.getElem_toList] at hi' hj'
  have hlt : i < maxUdpHandlers := by rwa [Vector.length_toList] at hi
  have hlt' : j < maxUdpHandlers := by rwa [Vector.length_toList] at hj
  have hsame := h.distinct ⟨i, hlt⟩ ⟨j, hlt'⟩ _ hi' hj'
  have hval := congrArg Fin.val hsame
  change i = j at hval
  omega

/-- Four slots are more than the pairs that have been registered. -/
theorem room (h : Listed history r) (hcard : (registered history).card < maxUdpHandlers) (port : Nat)
    (callback : UdpCallback) : (r.net.udpListen port callback).1 = true := by
  rcases udpListen_cases port callback r.net with ⟨_, _, hdone, _⟩ | ⟨hfull, _⟩
  · exact hdone
  · have hsome : ∀ i : Fin maxUdpHandlers, ∃ handler, r.net.udp[i] = some handler :=
      fun i => Option.ne_none_iff_exists'.mp (hfull i)
    choose handler hhandler using hsome
    have hle : (Finset.univ : Finset (Fin maxUdpHandlers)).card ≤ (registered history).card := by
      refine Finset.card_le_card_of_injOn handler (fun i _ => h.listed i _ (hhandler i)) ?_
      intro i _ j _ heq
      exact h.distinct i j _ (hhandler i) (heq ▸ hhandler j)
    rw [Finset.card_univ, Fintype.card_fin] at hle
    omega

end Listed

/-- After every history of careful calls the table of handlers is as it should be. -/
theorem tableSound_of_careful_run {r₀ r : Resolver} {history : List NetCall} (hfresh : r₀.Fresh)
    (h : Run Resolver.CarefulStep r₀ history r) : TableSound history r :=
  have hlisted := Listed.of_run hfresh h
  { distinct := hlisted.distinct, once := hlisted.once, room := hlisted.room }

/-- A resolver without a server, before its first call. -/
def idleResolver : Resolver where
  net := .init
  server := noIp
  cache := .replicate dnsCacheSize none

/-- The resolver behind a name that it cannot ask for. -/
theorem step_idle {r : Resolver} (hserver : r.server = noIp) (hcache : r.cached = none) :
    r.Step (.resolve [97] noIp) r.listening := by
  refine .resolve (n := 1) ?_
  have hserver' : ipEq r.listening.server noIp = true := by
    change ipEq r.server noIp = true
    rw [hserver]
    decide
  rw [Resolver.dnsResolve, if_neg (by decide)]
  have hnet : (({ r with net := (r.net.udpListen dnsPort .dns).2 } : Resolver)).cached = none := hcache
  simp only [hnet]
  exact if_pos hserver'

/-- A name, and then a service on another port. -/
theorem tableSound_of_careful_run_listen :
    TableSound [.resolve [97] noIp, .listen 68 1 true]
      { idleResolver.listening with
        net := (idleResolver.listening.net.udpListen 68 (.service 1)).2 } := by
  refine @tableSound_of_careful_run idleResolver _ _ ⟨rfl, rfl, rfl⟩ ?_
  have h₁ : Run Resolver.CarefulStep idleResolver [.resolve [97] noIp] idleResolver.listening :=
    .snoc .nil ⟨step_idle rfl rfl, fun handler hreg => by cases hreg; decide⟩
  exact h₁.snoc ⟨.listen idleResolver.listening 68 1, fun handler hreg => by cases hreg; decide⟩

/-- Asking for two names takes two slots for one pair. -/
theorem not_tableSound_of_run :
    ¬∀ (r₀ r : Resolver) (history : List NetCall), r₀.Fresh → Run Resolver.Step r₀ history r →
      TableSound history r := by
  intro h
  have h₁ : Run Resolver.Step idleResolver _ idleResolver.listening := .snoc .nil (step_idle rfl rfl)
  have h₂ := h₁.snoc (step_idle rfl rfl)
  have hsound := h _ _ _ ⟨rfl, rfl, rfl⟩ h₂
  have hsame := hsound.distinct 0 1 { port := dnsPort, callback := .dns } (by decide +kernel)
    (by decide +kernel)
  cases hsame

end PureOS.Net
