import Mathlib.Data.Fin.Basic
import Mathlib.Logic.Function.Basic
import PureOS.Foundation.Run
import PureOS.Usb.Configuration

set_option autoImplicit false

/-!
# USB: the device table and the addresses (`mod.rs`, `ehci.rs`)

Every scan of a port may enter a device into the table or take one out.  Addresses come from a
counter that only grows, and an entry is valid from the moment its address is assigned, long before
the device is configured.
-/

namespace PureOS.Usb

open PureOS.Foundation

/-! ## The code -/

/-- The device table, `NEXT_ADDR`, and what was asked of the controller. -/
structure State where
  devices : Fin 8 → UsbDevice
  nextAddr : UInt8
  events : List Event

/-- An entry of the table at the start. -/
def UsbDevice.blank : UsbDevice :=
  ⟨false, 0, 0, 0, .detached, 0, 0, 0, 0, 0, 0, 0, .replicate 64 0⟩

namespace State

/-- The statics at the start. -/
def init : State := ⟨fun _ => .blank, 1, []⟩

variable (s : State)

/-- `already`: a valid entry has the port. -/
def Known (port : UInt8) : Prop := ∃ i, (s.devices i).valid ∧ (s.devices i).port = port

instance (port : UInt8) : Decidable (s.Known port) :=
  inferInstanceAs (Decidable (∃ i, (s.devices i).valid ∧ (s.devices i).port = port))

/-- A request is sent. -/
def ask (addr : UInt8) (setup : SetupPacket) : State :=
  { s with events := s.events ++ [.request addr setup] }

/-- `USB_DEVICES[i] = d`. -/
def put (i : Fin 8) (d : UsbDevice) : State :=
  { s with devices := Function.update s.devices i d }

/-- `alloc_device`. -/
def allocDevice : Option (Fin 8) := (List.finRange 8).find? fun i => !(s.devices i).valid

/-- `assign_address`. -/
def assignAddress (i : Fin 8) (port speed : UInt8) : Option (UInt8 × State) :=
  let addr := s.nextAddr
  if addr = 0 then none
  else
    let s := { s with nextAddr := s.nextAddr + 1 }
    some (addr, s.put i
      ⟨true, port, speed, addr, .addressed, 0, 0, 0, 0, 0, 0, 0, .replicate 64 0⟩)

end State

/-- What the control transfers of an enumeration come back with: nothing when one fails. -/
structure Outcomes where
  maxPacket : Option (Vector UInt8 8)
  setAddress : Bool
  deviceDesc : Option (Vector UInt8 18)
  setConfiguration : Bool
  config : Option ConfigBuf

/-- The requests of `desc_device_max_packet` and `desc_device`. -/
def deviceRequest (length : UInt16) : SetupPacket :=
  ⟨reqStdDevIn, reqGetDescriptor, descDevice.toUInt16 <<< 8, 0, length⟩

/-- The request of `set_address`. -/
def addressRequest (newAddr : UInt8) : SetupPacket := ⟨0, reqSetAddress, newAddr.toUInt16, 0, 0⟩

/-- The request of `set_configuration`. -/
def configurationRequest (config : UInt8) : SetupPacket :=
  ⟨0, reqSetConfiguration, config.toUInt16, 0, 0⟩

/-- The fields of the device descriptor go into the entry. -/
def UsbDevice.describe (d : UsbDevice) (desc : Vector UInt8 18) : UsbDevice :=
  { d with
    vendor := desc[10].toUInt16 ||| desc[11].toUInt16 <<< 8
    product := desc[12].toUInt16 ||| desc[13].toUInt16 <<< 8
    deviceClass := desc[4]
    subclass := desc[5]
    protocol := desc[6] }

/-- `enumerate_device` behind `SET_ADDRESS`. -/
def configureDevice (s : State) (i : Fin 8) (addr : UInt8) (o : Outcomes) : Except Fault State :=
  let s := s.put i { s.devices i with address := addr, state := .addressed }
  let s := s.ask addr (deviceRequest 18)
  match o.deviceDesc with
  | none => .ok s
  | some desc =>
      let s := s.put i ((s.devices i).describe desc)
      if desc[17] = 0 then .ok s
      else
        let s := s.ask addr (configurationRequest 1)
        if o.setConfiguration = false then .ok s
        else
          let s := s.put i { s.devices i with state := .configured }
          if (s.devices i).deviceClass = classHid then do
            let h ← setupHidDevice (s.devices i) o.config
            .ok { s.put i h.device with events := s.events ++ h.events }
          else .ok s

/-- `enumerate_device`. -/
def enumerateDevice (s : State) (port speed : UInt8) (o : Outcomes) : Except Fault State :=
  if s.Known port then .ok s
  else
    match s.allocDevice with
    | none => .ok s
    | some i =>
        let s := s.ask 0 (deviceRequest 8)
        match o.maxPacket with
        | none => .ok s
        | some _ =>
            match s.assignAddress i port speed with
            | none => .ok s
            | some (addr, s) =>
                let s := s.ask 0 (addressRequest addr)
                if o.setAddress = false then .ok (s.put i { s.devices i with valid := false })
                else configureDevice s i addr o

/-- What a scan finds at a port. -/
structure Scan where
  port : UInt8
  connected : Bool
  enabled : Bool
  speed : UInt8
  outcomes : Outcomes

/-- The entries of the port are not valid any more. -/
def State.remove (s : State) (port : UInt8) : State :=
  { s with devices := fun i =>
      if (s.devices i).valid ∧ (s.devices i).port = port then { s.devices i with valid := false }
      else s.devices i }

/-- The body of the loop of `poll_root_hub`, for one port. -/
def scanPort (s : State) (e : Scan) : Except Fault State :=
  if e.connected ∧ e.enabled ∧ ¬ s.Known e.port then
    enumerateDevice s e.port e.speed e.outcomes
  else if e.connected = false ∧ s.Known e.port then .ok (s.remove e.port)
  else .ok s

/-! ## What should hold -/

/-- No two valid entries have the same key. -/
def DistinctBy (key : UsbDevice → UInt8) (s : State) : Prop :=
  ∀ i j, (s.devices i).valid → (s.devices j).valid → key (s.devices i) = key (s.devices j) → i = j

/-- The table as it should be. -/
structure Sound (s : State) : Prop where
  range : ∀ i, (s.devices i).valid → 1 ≤ (s.devices i).address ∧ (s.devices i).address ≤ 127
  addresses : DistinctBy UsbDevice.address s
  ports : DistinctBy UsbDevice.port s
  configured : ∀ i, (s.devices i).valid →
    (s.devices i).state = .configured ∨ (s.devices i).state = .ready
  assigns : ∀ i port speed, s.allocDevice = some i → (s.assignAddress i port speed).isSome

/-- The transfers behind `SET_ADDRESS` succeed, and the device has a configuration. -/
def Outcomes.Configures (o : Outcomes) : Prop :=
  (∃ desc, o.deviceDesc = some desc ∧ desc[17] ≠ 0) ∧ o.setConfiguration = true

/-- When a scan comes to assign an address, the counter has one, and the device that takes it can
be configured; a device that does not take it does not use up the last value of the counter. -/
def Careful (s : State) (e : Scan) : Prop :=
  e.connected → e.enabled → ¬ s.Known e.port → s.allocDevice.isSome →
    e.outcomes.maxPacket.isSome →
    if e.outcomes.setAddress then s.nextAddr ≤ 127 ∧ e.outcomes.Configures
    else s.nextAddr ≠ 255

def ScanStep (s : State) (e : Scan) (s' : State) : Prop := scanPort s e = .ok s'

def CarefulScan (s : State) (e : Scan) (s' : State) : Prop := ScanStep s e s' ∧ Careful s e

/-! ## What a scan does to the table -/

namespace State

variable (s : State) (i : Fin 8)

@[simp] theorem ask_devices (addr : UInt8) (setup : SetupPacket) :
    (s.ask addr setup).devices = s.devices := rfl

@[simp] theorem ask_nextAddr (addr : UInt8) (setup : SetupPacket) :
    (s.ask addr setup).nextAddr = s.nextAddr := rfl

@[simp] theorem put_self (d : UsbDevice) : (s.put i d).devices i = d := by
  unfold put
  exact Function.update_self i d s.devices

theorem put_of_ne {j : Fin 8} (d : UsbDevice) (h : j ≠ i) :
    (s.put i d).devices j = s.devices j := by
  unfold put
  exact Function.update_of_ne h d s.devices

@[simp] theorem put_nextAddr (d : UsbDevice) : (s.put i d).nextAddr = s.nextAddr := rfl

end State

/-- Only one entry of the table has changed: it is as valid as before, for the same port, and has
an address. -/
structure Stays (s s' : State) (i : Fin 8) (addr : UInt8) : Prop where
  others : ∀ j, j ≠ i → s'.devices j = s.devices j
  nextAddr : s'.nextAddr = s.nextAddr
  valid : (s'.devices i).valid = (s.devices i).valid
  port : (s'.devices i).port = (s.devices i).port
  address : (s'.devices i).address = addr

namespace Stays

variable {s s' : State} {i : Fin 8} {addr : UInt8}

/-- The entry is written once more. -/
theorem put (h : Stays s s' i addr) {d : UsbDevice} (hvalid : d.valid = (s'.devices i).valid)
    (hport : d.port = (s'.devices i).port) (haddress : d.address = (s'.devices i).address) :
    Stays s (s'.put i d) i addr where
  others j hj := (s'.put_of_ne i d hj).trans (h.others j hj)
  nextAddr := h.nextAddr
  valid := by rw [State.put_self, hvalid, h.valid]
  port := by rw [State.put_self, hport, h.port]
  address := by rw [State.put_self, haddress, h.address]

/-- What was asked for is not in the table. -/
theorem congr {s'' : State} (h : Stays s s' i addr) (hdevices : s''.devices = s'.devices)
    (hnext : s''.nextAddr = s'.nextAddr) : Stays s s'' i addr where
  others j hj := by
    rw [hdevices]
    exact h.others j hj
  nextAddr := hnext.trans h.nextAddr
  valid := by rw [hdevices, h.valid]
  port := by rw [hdevices, h.port]
  address := by rw [hdevices, h.address]

theorem ask (h : Stays s s' i addr) (dest : UInt8) (setup : SetupPacket) :
    Stays s (s'.ask dest setup) i addr := h.congr rfl rfl

theorem addressed (s : State) (i : Fin 8) (addr : UInt8) :
    Stays s (s.put i { s.devices i with address := addr, state := .addressed }) i addr where
  others j hj := s.put_of_ne i _ hj
  nextAddr := rfl
  valid := by rw [State.put_self]
  port := by rw [State.put_self]
  address := by rw [State.put_self]

end Stays

/-- Behind `SET_ADDRESS` the entry stays, and it is configured if all goes well. -/
theorem configureDevice_stays {s s' : State} {i : Fin 8} {addr : UInt8} {o : Outcomes}
    (h : configureDevice s i addr o = .ok s') :
    Stays s s' i addr ∧
      (o.Configures → (s'.devices i).state = .configured ∨ (s'.devices i).state = .ready) := by
  have hstart := (Stays.addressed s i addr).ask addr (deviceRequest 18)
  rw [configureDevice] at h
  generalize (s.put i { s.devices i with address := addr, state := .addressed }).ask addr
    (deviceRequest 18) = s₁ at h hstart
  cases hdesc : o.deviceDesc with
  | none =>
      simp only [hdesc] at h
      cases h
      refine ⟨hstart, ?_⟩
      rintro ⟨⟨desc, hsome, -⟩, -⟩
      rw [hdesc] at hsome
      cases hsome
  | some desc =>
      have hdescribed := @Stays.put s s₁ i addr hstart ((s₁.devices i).describe desc) rfl rfl rfl
      simp only [hdesc] at h
      generalize s₁.put i ((s₁.devices i).describe desc) = s₂ at h hdescribed
      split at h
      · rename_i hzero
        cases h
        refine ⟨hdescribed, ?_⟩
        rintro ⟨⟨desc', hsome, hne⟩, -⟩
        rw [hdesc] at hsome
        cases hsome
        exact absurd hzero hne
      · have hasked := hdescribed.ask addr (configurationRequest 1)
        generalize s₂.ask addr (configurationRequest 1) = s₃ at h hasked
        split at h
        · rename_i hfail
          cases h
          refine ⟨hasked, ?_⟩
          rintro ⟨-, hset⟩
          rw [hfail] at hset
          cases hset
        · have hconf := @Stays.put s s₃ i addr hasked { s₃.devices i with state := .configured } rfl rfl rfl
          have hstate : ((s₃.put i { s₃.devices i with state := .configured }).devices i).state =
              .configured := by rw [State.put_self]
          generalize s₃.put i { s₃.devices i with state := .configured } = s₄ at h hconf hstate
          split at h
          · obtain ⟨hid, hrun, hdone⟩ := bind_eq_ok h
            have hsame := setupHidDevice_same hrun
            cases hdone
            refine ⟨(hconf.put hsame.valid hsame.port hsame.address).congr rfl rfl, fun _ => ?_⟩
            have hresult := hsame.state
            rw [hstate, ← s₄.put_self i hid.device] at hresult
            exact hresult
          · cases h
            exact ⟨hconf, fun _ => Or.inl hstate⟩

/-! ## The cases of a scan -/

/-- A device was entered into a free slot: the counter went on by one, and the entry has what it
stood at. -/
structure Enters (s s' : State) (port : UInt8) (o : Outcomes) (i : Fin 8) : Prop where
  unknown : ¬ s.Known port
  free : s.allocDevice = some i
  heard : o.maxPacket.isSome
  counter : s.nextAddr ≠ 0
  nextAddr : s'.nextAddr = s.nextAddr + 1
  others : ∀ j, j ≠ i → s'.devices j = s.devices j
  port : (s'.devices i).port = port
  address : (s'.devices i).address = s.nextAddr
  valid : (s'.devices i).valid = o.setAddress
  state : o.setAddress → o.Configures →
    (s'.devices i).state = .configured ∨ (s'.devices i).state = .ready

/-- The table and the counter are as before. -/
def Unchanged (s s' : State) : Prop := s'.devices = s.devices ∧ s'.nextAddr = s.nextAddr

theorem assignAddress_cases {s s' : State} {i : Fin 8} {port speed addr : UInt8}
    (h : s.assignAddress i port speed = some (addr, s')) :
    s.nextAddr ≠ 0 ∧ addr = s.nextAddr ∧ s'.nextAddr = s.nextAddr + 1 ∧
      (∀ j, j ≠ i → s'.devices j = s.devices j) ∧ (s'.devices i).port = port ∧
      (s'.devices i).valid ∧ (s'.devices i).address = s.nextAddr := by
  rw [State.assignAddress] at h
  split at h
  · cases h
  · rename_i hne
    cases h
    refine ⟨hne, rfl, rfl, fun j hj => State.put_of_ne _ i _ hj, ?_, ?_, ?_⟩ <;>
      rw [State.put_self]

theorem enumerateDevice_cases {s s' : State} {port speed : UInt8} {o : Outcomes}
    (h : enumerateDevice s port speed o = .ok s') :
    Unchanged s s' ∨ ∃ i, Enters s s' port o i := by
  rw [enumerateDevice] at h
  split at h
  · cases h
    exact Or.inl ⟨rfl, rfl⟩
  · rename_i hunknown
    split at h
    · cases h
      exact Or.inl ⟨rfl, rfl⟩
    · rename_i i hfree
      cases hpacket : o.maxPacket with
      | none =>
          simp only [hpacket] at h
          cases h
          exact Or.inl ⟨rfl, rfl⟩
      | some packet =>
          simp only [hpacket] at h
          cases hassign : (s.ask 0 (deviceRequest 8)).assignAddress i port speed with
          | none =>
              simp only [hassign] at h
              cases h
              exact Or.inl ⟨rfl, rfl⟩
          | some r =>
              obtain ⟨addr, s₁⟩ := r
              obtain ⟨hne, haddr, hnext, hothers, hport, hvalid, haddress⟩ :=
                assignAddress_cases hassign
              simp only [hassign] at h
              refine Or.inr ⟨i, ?_⟩
              split at h
              · rename_i hset
                cases h
                refine ⟨hunknown, hfree, by rw [hpacket]; rfl, hne, hnext,
                  fun j hj => (State.put_of_ne _ i _ hj).trans (hothers j hj), ?_, ?_, ?_, ?_⟩
                · rw [State.put_self]
                  exact hport
                · rw [State.put_self]
                  exact haddress
                · rw [State.put_self, hset]
                · rw [hset]
                  exact fun hfalse => by cases hfalse
              · rename_i hset
                obtain ⟨hstays, hstate⟩ := configureDevice_stays h
                have hset' : o.setAddress = true := by simpa using hset
                refine ⟨hunknown, hfree, by rw [hpacket]; rfl, hne, hstays.nextAddr.trans hnext,
                  fun j hj => (hstays.others j hj).trans (hothers j hj), hstays.port.trans hport,
                  hstays.address.trans haddr, ?_, fun _ => hstate⟩
                rw [hset', hstays.valid]
                exact hvalid

/-- What a scan can do: nothing to the table, enter a device, or take the entries of a port out. -/
theorem scanPort_cases {s s' : State} {e : Scan} (h : ScanStep s e s') :
    Unchanged s s' ∨ (e.connected ∧ e.enabled ∧ ∃ i, Enters s s' e.port e.outcomes i) ∨
      s' = s.remove e.port := by
  rw [ScanStep, scanPort] at h
  split at h
  · rename_i hnew
    rcases enumerateDevice_cases h with hsame | hen
    · exact Or.inl hsame
    · exact Or.inr (Or.inl ⟨hnew.1, hnew.2.1, hen⟩)
  · split at h
    · cases h
      exact Or.inr (Or.inr rfl)
    · cases h
      exact Or.inl ⟨rfl, rfl⟩

/-! ## The invariant -/

/-- The table as it should be, with a counter that is ahead of all addresses. -/
structure Inv (s : State) : Prop where
  counter : s.nextAddr ≠ 0
  below : ∀ i, (s.devices i).valid → (s.devices i).address.toNat < s.nextAddr.toNat
  range : ∀ i, (s.devices i).valid → 1 ≤ (s.devices i).address ∧ (s.devices i).address ≤ 127
  addresses : DistinctBy UsbDevice.address s
  ports : DistinctBy UsbDevice.port s
  configured : ∀ i, (s.devices i).valid →
    (s.devices i).state = .configured ∨ (s.devices i).state = .ready

theorem Inv.sound {s : State} (h : Inv s) : Sound s where
  range := h.range
  addresses := h.addresses
  ports := h.ports
  configured := h.configured
  assigns i port speed _ := by
    rw [State.assignAddress, if_neg h.counter]
    rfl

theorem Inv.init : Inv .init where
  counter := by decide
  below _ hi := by cases hi
  range _ hi := by cases hi
  addresses _ _ hi := by cases hi
  ports _ _ hi := by cases hi
  configured _ hi := by cases hi

/-- Fewer valid entries and a counter that did not go back keep the invariant. -/
theorem Inv.shrink {s s' : State} (h : Inv s)
    (hfewer : ∀ i, (s'.devices i).valid → s'.devices i = s.devices i) (hcounter : s'.nextAddr ≠ 0)
    (hnext : s.nextAddr.toNat ≤ s'.nextAddr.toNat) : Inv s' := by
  have hvalid : ∀ i, (s'.devices i).valid → (s.devices i).valid := by
    intro i hi
    rw [← hfewer i hi]
    exact hi
  have hdistinct : ∀ key, DistinctBy key s → DistinctBy key s' := by
    intro key hkey i j hi hj heq
    rw [hfewer i hi, hfewer j hj] at heq
    exact hkey i j (hvalid i hi) (hvalid j hj) heq
  refine ⟨hcounter, ?_, ?_, hdistinct _ h.addresses, hdistinct _ h.ports, ?_⟩
  · intro i hi
    rw [hfewer i hi]
    exact Nat.lt_of_lt_of_le (h.below i (hvalid i hi)) hnext
  · intro i hi
    rw [hfewer i hi]
    exact h.range i (hvalid i hi)
  · intro i hi
    rw [hfewer i hi]
    exact h.configured i (hvalid i hi)

/-- A key that no other valid entry has keeps the keys distinct. -/
theorem DistinctBy.insert {key : UsbDevice → UInt8} {s s' : State} {i : Fin 8}
    (h : DistinctBy key s) (hothers : ∀ j, j ≠ i → s'.devices j = s.devices j)
    (hnew : ∀ j, (s.devices j).valid → key (s.devices j) ≠ key (s'.devices i)) :
    DistinctBy key s' := by
  intro j k hj hk heq
  by_cases hji : j = i
  · by_cases hki : k = i
    · rw [hji, hki]
    · rw [hothers k hki] at hk heq
      rw [hji] at heq
      exact absurd heq.symm (hnew k hk)
  · rw [hothers j hji] at hj heq
    by_cases hki : k = i
    · rw [hki] at heq
      exact absurd heq (hnew j hj)
    · rw [hothers k hki] at hk heq
      exact h j k hj hk heq

theorem toNat_succ {c : UInt8} (h : c.toNat < 255) : (c + 1).toNat = c.toNat + 1 := by
  rw [UInt8.toNat_add]
  exact Nat.mod_eq_of_lt (Nat.succ_lt_succ h)

/-- A device that does not take its address leaves no valid entry. -/
theorem Inv.rejected {s s' : State} {port : UInt8} {o : Outcomes} {i : Fin 8} (h : Inv s)
    (hen : Enters s s' port o i) (hset : o.setAddress = false) (hlast : s.nextAddr ≠ 255) :
    Inv s' := by
  have hlt : s.nextAddr.toNat < 255 := by
    have hle : s.nextAddr.toNat < 256 := s.nextAddr.toNat_lt
    have hne : s.nextAddr.toNat ≠ 255 := fun heq => hlast (UInt8.toNat_inj.mp heq)
    omega
  have hsucc := toNat_succ hlt
  rw [← hen.nextAddr] at hsucc
  refine h.shrink ?_ ?_ (by omega)
  · intro j hj
    by_cases hji : j = i
    · rw [hji, hen.valid, hset] at hj
      cases hj
    · exact hen.others j hji
  · intro hzero
    rw [hzero, UInt8.toNat_zero] at hsucc
    omega

/-- A device that takes its address and can be configured keeps the invariant. -/
theorem Inv.accepted {s s' : State} {port : UInt8} {o : Outcomes} {i : Fin 8} (h : Inv s)
    (hen : Enters s s' port o i) (hset : o.setAddress = true) (hlow : s.nextAddr ≤ 127)
    (hconf : o.Configures) : Inv s' := by
  have hle : s.nextAddr.toNat ≤ 127 := UInt8.le_iff_toNat_le.mp hlow
  have hsucc := toNat_succ (c := s.nextAddr) (by omega)
  rw [← hen.nextAddr] at hsucc
  have hpos := toNat_pos h.counter
  refine ⟨?_, ?_, ?_, ?_, ?_, ?_⟩
  · intro hzero
    rw [hzero, UInt8.toNat_zero] at hsucc
    omega
  · intro j hj
    by_cases hji : j = i
    · rw [hji, hen.address]
      omega
    · rw [hen.others j hji] at hj ⊢
      have hbelow := h.below j hj
      omega
  · intro j hj
    by_cases hji : j = i
    · rw [hji, hen.address]
      exact ⟨UInt8.le_iff_toNat_le.mpr hpos, hlow⟩
    · rw [hen.others j hji] at hj ⊢
      exact h.range j hj
  · refine h.addresses.insert hen.others fun j hj heq => ?_
    have hbelow := h.below j hj
    rw [heq, hen.address] at hbelow
    exact absurd hbelow (Nat.lt_irrefl _)
  · refine h.ports.insert hen.others fun j hj heq => ?_
    rw [hen.port] at heq
    exact hen.unknown ⟨j, hj, heq⟩
  · intro j hj
    by_cases hji : j = i
    · rw [hji]
      exact hen.state hset hconf
    · rw [hen.others j hji] at hj ⊢
      exact h.configured j hj

theorem Inv.remove {s : State} (h : Inv s) (port : UInt8) : Inv (s.remove port) := by
  refine h.shrink ?_ h.counter (Nat.le_refl _)
  intro i hi
  unfold State.remove at hi ⊢
  dsimp only at hi ⊢
  split at hi
  · cases hi
  · rename_i hnot
    exact if_neg hnot

/-- A careful scan keeps the invariant. -/
theorem Inv.scan {s s' : State} {e : Scan} (h : Inv s) (hstep : CarefulScan s e s') : Inv s' := by
  obtain ⟨hscan, hcareful⟩ := hstep
  rcases scanPort_cases hscan with ⟨hdevices, hnext⟩ | ⟨hconn, hen, i, henters⟩ | rfl
  · refine h.shrink (fun i _ => by rw [hdevices]) ?_ (Nat.le_of_eq ?_)
    · rw [hnext]
      exact h.counter
    · rw [hnext]
  · have hcond := hcareful hconn hen henters.unknown (by rw [henters.free]; rfl) henters.heard
    cases hset : e.outcomes.setAddress with
    | false =>
        rw [hset] at hcond
        exact h.rejected henters hset hcond
    | true =>
        rw [hset] at hcond
        exact h.accepted henters hset hcond.1 hcond.2
  · exact h.remove e.port

/-! ## The result -/

/-- In every run of careful scans the table is as it should be. -/
theorem sound_of_careful {scans : List Scan} {s : State}
    (run : Run CarefulScan State.init scans s) : Sound s :=
  (run.invariant_state Inv .init fun _ _ _ hinv hstep => hinv.scan hstep).sound

/-- The descriptor of a storage device with one configuration. -/
def storageDesc : Vector UInt8 18 :=
  .ofFn fun i => [18, 1, 0, 2, 8, 0, 0, 64, 0x81, 7, 0x67, 0x55, 0, 1, 1, 2, 3, 1].getD i 0

/-- A storage device at a port, and what comes back from it. -/
def attach (port : UInt8) (deviceDesc : Option (Vector UInt8 18)) : Scan :=
  ⟨port, true, true, 2, ⟨some (.replicate 8 64), true, deviceDesc, true, none⟩⟩

/-- There is nothing at a port any more. -/
def detach (port : UInt8) : Scan := { attach port none with connected := false }

/-- What a scan leaves. -/
def State.scanned (s : State) (e : Scan) : State :=
  match scanPort s e with
  | .ok s' => s'
  | .error _ => s

theorem scanStep_scanned {s : State} {e : Scan} (h : (scanPort s e).toBool = true) :
    ScanStep s e (s.scanned e) := by
  rw [ScanStep, State.scanned]
  cases hscan : scanPort s e with
  | ok s' => rfl
  | error fault =>
      rw [hscan] at h
      cases h

theorem careful_attach {s : State} {port : UInt8} (h : s.nextAddr ≤ 127) :
    Careful s (attach port (some storageDesc)) :=
  fun _ _ _ _ _ => ⟨h, ⟨storageDesc, rfl, by decide⟩, rfl⟩

/-- Two devices are configured, the first one is taken away, and one comes back at its port. -/
def plugged : List Scan :=
  [attach 3 (some storageDesc), attach 5 (some storageDesc), detach 3,
    attach 3 (some storageDesc)]

theorem sound_of_careful_plugged :
    let s := plugged.foldl State.scanned .init
    Sound s ∧ (s.devices 0).valid = true ∧ (s.devices 0).address = 3 ∧
      (s.devices 1).valid = true ∧ (s.devices 1).address = 2 := by
  have hfirst : CarefulScan .init (attach 3 (some storageDesc)) _ :=
    ⟨scanStep_scanned (by decide +kernel), careful_attach (by decide)⟩
  have hsecond : CarefulScan _ (attach 5 (some storageDesc)) _ :=
    ⟨@scanStep_scanned (State.init.scanned (attach 3 (some storageDesc))) _ (by decide +kernel),
      careful_attach (by decide +kernel)⟩
  have hgone : CarefulScan _ (detach 3) _ :=
    ⟨@scanStep_scanned ((plugged.take 2).foldl State.scanned .init) _ (by decide +kernel),
      fun hconnected => by cases hconnected⟩
  have hback : CarefulScan _ (attach 3 (some storageDesc)) _ :=
    ⟨@scanStep_scanned ((plugged.take 3).foldl State.scanned .init) _ (by decide +kernel),
      careful_attach (by decide +kernel)⟩
  have hrun : Run CarefulScan .init plugged _ :=
    .cons hfirst (.cons hsecond (.cons hgone (.cons hback .nil)))
  exact ⟨sound_of_careful hrun, by decide +kernel, by decide +kernel, by decide +kernel,
    by decide +kernel⟩

/-- A device that took its address and then fails to answer stays in the table. -/
theorem scans_not_sound : ¬ ∀ scans s, Run ScanStep State.init scans s → Sound s := by
  intro h
  have hentry : (scanPort .init (attach 3 none)).map
      (fun s => ((s.devices 0).valid, (s.devices 0).state)) = .ok (true, .addressed) := by
    decide +kernel
  cases hrun : scanPort .init (attach 3 none) with
  | error e =>
      rw [hrun] at hentry
      cases hentry
  | ok s =>
      rw [hrun] at hentry
      obtain ⟨hvalid, hstate⟩ := Prod.mk.inj (Except.ok.inj hentry)
      have hconf := (h [attach 3 none] s (.snoc .nil hrun)).configured 0 hvalid
      rw [hstate] at hconf
      rcases hconf with hc | hc <;> cases hc

end PureOS.Usb
