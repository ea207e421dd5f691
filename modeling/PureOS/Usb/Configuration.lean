import Mathlib.Algebra.Group.Nat.Defs
import Mathlib.Data.List.GetD
import PureOS.Usb.Hid

set_option autoImplicit false

/-!
# USB: well-formed configurations

A configuration is a header and a chain of descriptors.  An endpoint belongs to the interface that
came last before it.  The walk looks for the first interrupt IN endpoint that comes anywhere behind
a HID interface, which need not be the interface that it belongs to.
-/

namespace PureOS.Usb

open PureOS.Foundation

/-! ## Descriptors -/

/-- A descriptor: its first byte is its length, and its type asks for some length. -/
structure Descriptor where
  bytes : List UInt8
  length : (bytes.getD 0 0).toNat = bytes.length
  two : 2 ≤ bytes.length
  interface : bytes.getD 1 0 = descInterface → 9 ≤ bytes.length
  endpoint : bytes.getD 1 0 = descEndpoint → 7 ≤ bytes.length

namespace Descriptor

variable (d : Descriptor)

def byte (k : Nat) : UInt8 := d.bytes.getD k 0

def isInterface : Bool := d.byte 1 = descInterface

/-- `bInterfaceClass` is that of HID. -/
def isHid : Bool := d.byte 1 = descInterface ∧ d.byte 5 = classHid

/-- `bmAttributes` says interrupt, and `bEndpointAddress` says IN. -/
def isInterrupt : Bool :=
  d.byte 1 = descEndpoint ∧ d.byte 3 &&& 0x03 = 3 ∧ d.byte 2 &&& 0x80 ≠ 0

end Descriptor

/-- The bytes of a chain. -/
def bytesOf (ds : List Descriptor) : List UInt8 := ds.flatMap Descriptor.bytes

/-- The buffer holds the bytes from a place on. -/
def Holds (buf : ConfigBuf) (i : Nat) (bs : List UInt8) : Prop :=
  ∀ k < bs.length, peek buf (i + k) = bs.getD k 0

/-- A well-formed configuration that fits the buffer: its header and its descriptors. -/
structure Configures (buf : ConfigBuf) (ds : List Descriptor) : Prop where
  header : peek buf 0 = 9
  kind : peek buf 1 = descConfig
  total : (peek buf 2).toNat + 256 * (peek buf 3).toNat = 9 + (bytesOf ds).length
  fits : 9 + (bytesOf ds).length ≤ 64
  holds : Holds buf 9 (bytesOf ds)

/-! ## What is wanted -/

/-- What a device takes over: the endpoint, and the interface for it. -/
structure Choice where
  intInEndpoint : UInt8
  intInterval : UInt8
  subclass : UInt8
  protocol : UInt8
  deriving DecidableEq

/-- The choice of an endpoint with an interface. -/
def choiceOf (endpoint iface : Descriptor) : Choice :=
  ⟨endpoint.byte 2, endpoint.byte 6, iface.byte 6, iface.byte 7⟩

/-- An interrupt IN endpoint of a chain, with the last HID interface before it and the interface
that it belongs to. -/
structure Spot where
  hid : Option Descriptor
  iface : Option Descriptor
  endpoint : Descriptor

/-- The interrupt IN endpoints of a chain in order. -/
def spots (hid iface : Option Descriptor) : List Descriptor → List Spot
  | [] => []
  | d :: ds =>
      if d.isInterface then spots (if d.isHid then some d else hid) (some d) ds
      else if d.isInterrupt then ⟨hid, iface, d⟩ :: spots hid iface ds
      else spots hid iface ds

namespace Spot

/-- The endpoint belongs to a HID interface. -/
def belongs (s : Spot) : Bool := s.iface.any Descriptor.isHid

/-- There is a HID interface before the endpoint. -/
def behind (s : Spot) : Bool := s.hid.isSome

end Spot

/-- The first interrupt IN endpoint that belongs to a HID interface, with that interface. -/
def wanted (ds : List Descriptor) : Option Choice :=
  ((spots none none ds).find? Spot.belongs).bind fun s => s.iface.map (choiceOf s.endpoint)

/-- The device became ready with a choice, or nothing was there to choose and it did not. -/
def Takes (before after : UsbDevice) : Option Choice → Prop
  | some c => after.state = .ready ∧
      (⟨after.intInEndpoint, after.intInterval, after.subclass, after.protocol⟩ : Choice) = c
  | none => after.state = before.state

/-- The first interrupt IN endpoint behind a HID interface belongs to one, or there is none, or it
looks the same as the one that is wanted. -/
def Loyal (ds : List Descriptor) : Prop :=
  ∀ s, (spots none none ds).find? Spot.behind = some s →
    s.belongs ∨ wanted ds = s.hid.map (choiceOf s.endpoint)

/-! ## The descriptors in the buffer -/

section Reading

variable {buf : ConfigBuf} {total i : Nat} {d : Descriptor} {bs : List UInt8}

theorem Holds.peek_eq (h : Holds buf i (d.bytes ++ bs)) {k : Nat} (hk : k < d.bytes.length) :
    peek buf (i + k) = d.byte k := by
  rw [h k (by rw [List.length_append]; omega), Descriptor.byte,
    List.getD_append _ _ _ _ hk]

theorem Holds.tail (h : Holds buf i (d.bytes ++ bs)) : Holds buf (i + d.bytes.length) bs := by
  intro k hk
  rw [Nat.add_assoc, h (d.bytes.length + k) (by rw [List.length_append]; omega),
    List.getD_append_right _ _ _ _ (Nat.le_add_right _ _), Nat.add_sub_cancel_left]

/-- The first byte of a descriptor is its length, which is not 0. -/
theorem Holds.peek_length (h : Holds buf i (d.bytes ++ bs)) :
    (peek buf i).toNat = d.bytes.length := by
  have htwo := d.two
  have hfirst : peek buf i = d.byte 0 := h.peek_eq (k := 0) (by omega)
  rw [hfirst]
  exact d.length

theorem Holds.hidAt_eq (h : Holds buf i (d.bytes ++ bs)) (hfits : i + d.bytes.length ≤ total) :
    hidAt buf total i = d.isHid := by
  have htwo := d.two
  have htype : peek buf (i + 1) = d.byte 1 := h.peek_eq (by omega)
  rw [hidAt, Descriptor.isHid, htype, decide_eq_decide]
  by_cases hface : d.byte 1 = descInterface
  · have hnine := d.interface hface
    have hclass : peek buf (i + 5) = d.byte 5 := h.peek_eq (by omega)
    rw [hclass]
    exact and_congr_right fun _ => and_iff_right (by omega)
  · simp only [hface, false_and]

theorem Holds.interruptAt_eq (h : Holds buf i (d.bytes ++ bs))
    (hfits : i + d.bytes.length ≤ total) : interruptAt buf total i = d.isInterrupt := by
  have htwo := d.two
  have htype : peek buf (i + 1) = d.byte 1 := h.peek_eq (by omega)
  rw [interruptAt, Descriptor.isInterrupt, htype, decide_eq_decide]
  by_cases hend : d.byte 1 = descEndpoint
  · have hseven := d.endpoint hend
    have haddr : peek buf (i + 2) = d.byte 2 := h.peek_eq (by omega)
    have hattr : peek buf (i + 3) = d.byte 3 := h.peek_eq (by omega)
    rw [haddr, hattr]
    exact and_congr_right fun _ => and_iff_right (by omega)
  · simp only [hend, false_and]

end Reading

theorem Descriptor.isHid_of_not_isInterface {d : Descriptor} (h : d.isInterface = false) :
    d.isHid = false := by
  rw [isInterface, decide_eq_false_iff_not] at h
  rw [isHid, decide_eq_false]
  exact fun hand => h hand.1

theorem Descriptor.isInterface_of_isInterrupt {d : Descriptor} (h : d.isInterrupt) :
    d.isInterface = false := by
  have hend := (decide_eq_true_iff.mp h).1
  rw [isInterface, decide_eq_false_iff_not, hend]
  decide

/-! ## The walk over a chain -/

/-- What the walk takes: the first interrupt IN endpoint behind a HID interface. -/
def taken (hid iface : Option Descriptor) (ds : List Descriptor) : Option Choice :=
  ((spots hid iface ds).find? Spot.behind).bind fun s => s.hid.map (choiceOf s.endpoint)

/-- An interrupt IN endpoint behind a HID interface is taken. -/
theorem taken_hit {f : Descriptor} {iface : Option Descriptor} {d : Descriptor}
    {ds : List Descriptor} (h : d.isInterrupt) :
    taken (some f) iface (d :: ds) = some (choiceOf d f) := by
  rw [taken, spots, if_neg (by simp [Descriptor.isInterface_of_isInterrupt h]), if_pos h,
    List.find?_cons_of_pos rfl]
  rfl

/-- Every other descriptor is passed. -/
theorem taken_miss {hid iface : Option Descriptor} {d : Descriptor} {ds : List Descriptor}
    (h : ¬ (d.isInterrupt ∧ hid.isSome)) :
    taken hid iface (d :: ds) =
      taken (if d.isHid then some d else hid) (if d.isInterface then some d else iface) ds := by
  rw [taken, taken, spots]
  cases hface : d.isInterface with
  | true => rfl
  | false =>
      rw [Descriptor.isHid_of_not_isInterface hface]
      cases hint : d.isInterrupt with
      | false => rfl
      | true =>
          have hnone : hid.isSome = false := by simpa [hint] using h
          have hmiss : ¬ (Spot.behind ⟨hid, iface, d⟩) := by
            rw [Spot.behind, hnone]
            decide
          rw [if_neg (by decide), if_pos rfl, List.find?_cons_of_neg hmiss]
          rfl

section Chains

variable {buf : ConfigBuf} {addr : UInt8} {total : Nat}

/-- The device keeps the subclass and the protocol of the last HID interface. -/
def Keeps (hid : Option Descriptor) (d : UsbDevice) : Prop :=
  ∀ f ∈ hid, d.subclass = f.byte 6 ∧ d.protocol = f.byte 7

/-- What was chosen further on counts from here. -/
theorem Takes.of_passed {i : Nat} {h : Hid} {after : UsbDevice} {c : Option Choice}
    (ht : Takes (passed buf addr total i h).device after c) : Takes h.device after c := by
  cases c with
  | some c => exact ht
  | none =>
      have hstate : (passed buf addr total i h).device.state = h.device.state := by
        rw [passed]
        split <;> rfl
      rw [Takes, ← hstate]
      exact ht

theorem Keeps.passed {i : Nat} {hid : Option Descriptor} {d : Descriptor} {bs : List UInt8}
    {h : Hid} (hkeeps : Keeps hid h.device) (hholds : Holds buf i (d.bytes ++ bs))
    (hfits : i + d.bytes.length ≤ total) :
    Keeps (if d.isHid then some d else hid) (passed buf addr total i h).device := by
  rw [Usb.passed, hholds.hidAt_eq hfits]
  cases hhid : d.isHid with
  | false => exact hkeeps
  | true =>
      have hnine := d.interface (decide_eq_true_iff.mp hhid).1
      rw [hholds.peek_eq (k := 6) (by omega), hholds.peek_eq (k := 7) (by omega)]
      rintro f ⟨⟩
      exact ⟨rfl, rfl⟩

/-- The walk over a chain takes the first interrupt IN endpoint behind a HID interface. -/
theorem walk_chain (htotal : total ≤ 64) (ds : List Descriptor) {fuel i : Nat}
    {hid iface : Option Descriptor} {h : Hid} (hholds : Holds buf i (bytesOf ds))
    (hend : total = i + (bytesOf ds).length) (hfuel : total - i < fuel)
    (hkeeps : Keeps hid h.device) :
    ∃ h', walk buf addr total fuel i hid.isSome h = .ok h' ∧
      Takes h.device h'.device (taken hid iface ds) := by
  induction ds generalizing fuel i hid iface h with
  | nil =>
      cases fuel with
      | zero => exact absurd hfuel (Nat.not_lt_zero _)
      | succ fuel => exact ⟨h, walk_of_le (Nat.le_of_eq hend), rfl⟩
  | cons d ds ih =>
      have hbytes : bytesOf (d :: ds) = d.bytes ++ bytesOf ds := List.flatMap_cons
      rw [hbytes] at hholds hend
      rw [List.length_append] at hend
      have htwo := d.two
      have hlen := hholds.peek_length
      have hfits : i + d.bytes.length ≤ total := by omega
      have hne : peek buf i ≠ 0 := by
        intro hzero
        rw [hzero, UInt8.toNat_zero] at hlen
        omega
      have hturn := @turn_eq buf addr total i hid.isSome h (by omega) htotal
      rw [if_neg hne, hlen, hholds.interruptAt_eq hfits, hholds.hidAt_eq hfits,
        if_pos hfits] at hturn
      cases fuel with
      | zero => exact absurd hfuel (Nat.not_lt_zero _)
      | succ fuel =>
          by_cases hhit : d.isInterrupt ∧ hid.isSome
          · obtain ⟨hint, hsome⟩ := hhit
            obtain ⟨f, rfl⟩ := Option.isSome_iff_exists.mp hsome
            obtain ⟨hsub, hprot⟩ := hkeeps f rfl
            have hseven := d.endpoint (decide_eq_true_iff.mp hint).1
            rw [if_pos ⟨hint, rfl⟩, hholds.peek_eq (k := 2) (by omega),
              hholds.peek_eq (k := 6) (by omega)] at hturn
            refine ⟨_, walk_of_done (by omega) hturn, ?_⟩
            rw [taken_hit hint]
            exact ⟨rfl, by simp only [Hid.useEndpoint, choiceOf, hsub, hprot]⟩
          · have hfound : (hid.isSome || d.isHid) =
                (if d.isHid then some d else hid).isSome := by
              cases d.isHid <;> simp
            rw [if_neg hhit, hfound] at hturn
            obtain ⟨h', hwalk, htakes⟩ := @ih fuel (i + d.bytes.length) _
              (if d.isInterface then some d else iface) _ hholds.tail (by omega) (by omega)
              (@Keeps.passed buf addr total i hid d _ h hkeeps hholds hfits)
            rw [walk_of_next (by omega) hturn, taken_miss hhit]
            exact ⟨h', hwalk, htakes.of_passed⟩

end Chains

/-! ## A configuration as a whole -/

/-- `u16::from(lo) | (u16::from(hi) << 8)`. -/
theorem toNat_le16 (lo hi : UInt8) :
    (lo.toUInt16 ||| hi.toUInt16 <<< 8).toNat = lo.toNat + 256 * hi.toNat := by
  have hlo : lo.toNat < 2 ^ 8 := lo.toNat_lt
  have hhi : hi.toNat < 2 ^ 8 := hi.toNat_lt
  have hfit : hi.toNat <<< 8 < 2 ^ 16 := by
    rw [Nat.shiftLeft_eq]
    omega
  have hshift : (hi.toUInt16 <<< 8).toNat = hi.toNat <<< 8 := by
    rw [UInt16.toNat_shiftLeft, UInt8.toNat_toUInt16]
    exact Nat.mod_eq_of_lt hfit
  calc (lo.toUInt16 ||| hi.toUInt16 <<< 8).toNat = pack 8 hi.toNat lo.toNat := by
        rw [UInt16.toNat_or, hshift, UInt8.toNat_toUInt16, Nat.or_comm, pack]
    _ = lo.toNat + 256 * hi.toNat := by
        rw [pack_eq hlo]
        omega

theorem Configures.totalOf_eq {buf : ConfigBuf} {ds : List Descriptor} (h : Configures buf ds) :
    totalOf buf = 9 + (bytesOf ds).length := by
  rw [totalOf, toNat_le16, h.total]
  exact Nat.min_eq_left h.fits

/-- What `setup_hid_device` takes from a well-formed configuration. -/
theorem setupHidDevice_chain (d : UsbDevice) {buf : ConfigBuf} {ds : List Descriptor}
    (h : Configures buf ds) :
    ∃ h', setupHidDevice d (some buf) = .ok h' ∧ Takes d h'.device (taken none none ds) := by
  have htotal := h.totalOf_eq
  rw [setupHidDevice_some, h.header, if_neg (by decide)]
  have hfuel : totalOf buf - 9 < 65 := by
    have hle := totalOf_le buf
    omega
  exact @walk_chain buf d.address _ (totalOf_le buf) ds 65 9 none none _ h.holds htotal hfuel
    fun f hf => by cases hf

/-- A device that was not ready takes one choice or none. -/
theorem Takes.unique {before after : UsbDevice} {c c' : Option Choice}
    (hbefore : before.state ≠ .ready) (h : Takes before after c) (h' : Takes before after c') :
    c = c' := by
  cases c with
  | none =>
      cases c' with
      | none => rfl
      | some c' => exact absurd (h.symm.trans h'.1) hbefore
  | some c =>
      cases c' with
      | none => exact absurd (h'.symm.trans h.1) hbefore
      | some c' => exact congrArg some (h.2.symm.trans h'.2)

/-- A HID interface that an endpoint belongs to is the last one before it. -/
theorem hid_eq_of_belongs {hid iface : Option Descriptor} {ds : List Descriptor} {s : Spot}
    (hinv : iface.any Descriptor.isHid → hid = iface) (hs : s ∈ spots hid iface ds)
    (hbelongs : s.belongs) : s.hid = s.iface := by
  induction ds generalizing hid iface with
  | nil => cases hs
  | cons d ds ih =>
      rw [spots] at hs
      split at hs
      · refine ih ?_ hs
        intro hhid
        exact if_pos hhid
      · split at hs
        · rcases List.mem_cons.mp hs with rfl | hrest
          · exact hinv hbelongs
          · exact ih hinv hrest
        · exact ih hinv hs

/-- What is taken is what is wanted exactly for a loyal chain. -/
theorem taken_eq_wanted_iff (ds : List Descriptor) : taken none none ds = wanted ds ↔ Loyal ds := by
  have hhid : ∀ s ∈ spots none none ds, s.belongs → s.hid = s.iface :=
    fun s hs => hid_eq_of_belongs (fun h => by cases h) hs
  have hbehind : ∀ s ∈ spots none none ds, s.belongs → s.behind := by
    intro s hs hbelongs
    rw [Spot.behind, hhid s hs hbelongs]
    exact Option.isSome_of_any hbelongs
  unfold Loyal
  cases hfind : (spots none none ds).find? Spot.behind with
  | none =>
      have hnone : (spots none none ds).find? Spot.belongs = none := by
        rw [List.find?_eq_none] at hfind ⊢
        exact fun s hs hbelongs => hfind s hs (hbehind s hs hbelongs)
      simp [taken, wanted, hfind, hnone]
  | some s =>
      have htaken : taken none none ds = s.hid.map (choiceOf s.endpoint) := by
        rw [taken, hfind]
        rfl
      rw [htaken]
      constructor
      · rintro heq _ ⟨⟩
        exact Or.inr heq.symm
      · intro hloyal
        rcases hloyal s rfl with hbelongs | heq
        · obtain ⟨hs, before, rest, hsplit, hfirst⟩ := List.find?_eq_some_iff_append.mp hfind
          have hwanted : (spots none none ds).find? Spot.belongs = some s := by
            refine List.find?_eq_some_iff_append.mpr ⟨hbelongs, before, rest, hsplit, ?_⟩
            intro a ha
            have hmem : a ∈ spots none none ds := by
              rw [hsplit]
              exact List.mem_append_left _ ha
            have hnot := hfirst a ha
            cases hb : a.belongs with
            | false => rfl
            | true =>
                rw [hbehind a hmem hb] at hnot
                cases hnot
          rw [wanted, hwanted, hhid s (List.mem_of_find?_eq_some hfind) hbelongs]
          rfl
        · exact heq.symm

/-! ## The result -/

/-- What `setup_hid_device` should do with a buffer: end, stay inside it, and take from a
well-formed configuration the endpoint that is wanted. -/
structure SetsUp (d : UsbDevice) (buf : ConfigBuf) : Prop where
  ends : setupHidDevice d (some buf) ≠ .error .fuel
  inside : setupHidDevice d (some buf) ≠ .error .panic
  takes : ∀ ds, Configures buf ds →
    ∃ h, setupHidDevice d (some buf) = .ok h ∧ Takes d h.device (wanted ds)

/-- A configured device is set up as it should be exactly if the lengths in the buffer do not lead
to its last byte, and the first interrupt IN endpoint behind a HID interface belongs to one. -/
theorem setsUp_iff (d : UsbDevice) (buf : ConfigBuf) :
    SetsUp { d with state := .configured } buf ↔
      ¬ LeadsToLast buf ∧ ∀ ds, Configures buf ds → Loyal ds := by
  constructor
  · intro h
    refine ⟨fun hlast => h.inside ((setupHidDevice_panic_iff _ buf).mpr hlast), ?_⟩
    intro ds hds
    obtain ⟨h₁, hrun, hwanted⟩ := h.takes ds hds
    obtain ⟨h₂, hrun', htaken⟩ := setupHidDevice_chain { d with state := .configured } hds
    rw [hrun] at hrun'
    cases hrun'
    exact (taken_eq_wanted_iff ds).mp (htaken.unique (fun hready => by cases hready) hwanted)
  · rintro ⟨hlast, hloyal⟩
    refine ⟨setupHidDevice_ne_fuel _ buf,
      fun hpanic => hlast ((setupHidDevice_panic_iff _ buf).mp hpanic), ?_⟩
    intro ds hds
    rw [← (taken_eq_wanted_iff ds).mpr (hloyal ds hds)]
    exact setupHidDevice_chain _ hds

/-- A device that was given an address and a configuration. -/
def justConfigured : UsbDevice :=
  ⟨true, 0, 2, 1, .configured, 0, 0, classHid, 0, 0, 0, 0, .replicate 64 0⟩

/-- A buffer that starts with some bytes. -/
def padded (bs : List UInt8) : ConfigBuf := .ofFn fun i => bs.getD i 0

/-- Interfaces of HID, of a vendor and of HID, with an interrupt IN endpoint for the last two. -/
def composite : List Descriptor :=
  [⟨[9, 4, 0, 0, 0, 3, 0, 0, 0], by decide, by decide, by decide, by decide⟩,
    ⟨[9, 4, 1, 0, 1, 0xFF, 0, 0, 0], by decide, by decide, by decide, by decide⟩,
    ⟨[7, 5, 0x81, 3, 8, 0, 4], by decide, by decide, by decide, by decide⟩,
    ⟨[9, 4, 2, 0, 1, 3, 1, 1, 0], by decide, by decide, by decide, by decide⟩,
    ⟨[7, 5, 0x82, 3, 8, 0, 10], by decide, by decide, by decide, by decide⟩]

/-- The configuration with these interfaces. -/
def compositeBuf : ConfigBuf := padded ([9, 2, 50, 0, 3, 1, 0, 0x80, 50] ++ bytesOf composite)

/-- The start of a long configuration: six descriptors of 9 bytes come before the last byte. -/
def longBuf : ConfigBuf :=
  padded ([9, 2, 200, 0, 1, 1, 0, 0x80, 50] ++
    (List.replicate 6 [9, 0x24, 0, 0, 0, 0, 0, 0, 0]).flatten)

theorem composite_configures : Configures compositeBuf composite where
  header := by decide
  kind := by decide
  total := by decide
  fits := by decide
  holds := by
    unfold Holds
    decide +kernel

/-- The endpoint of a vendor's interface is taken for one of HID, and a long configuration is read
outside the buffer. -/
theorem not_setsUp : ¬ SetsUp justConfigured compositeBuf ∧ ¬ SetsUp justConfigured longBuf := by
  constructor
  · intro h
    obtain ⟨h', hrun, htakes⟩ := h.takes composite composite_configures
    have hwanted : wanted composite = some ⟨0x82, 10, 1, 1⟩ := by decide
    have hgot : (setupHidDevice justConfigured (some compositeBuf)).map
        (fun h => h.device.intInEndpoint) = .ok 0x81 := by decide +kernel
    rw [hrun] at hgot
    rw [hwanted] at htakes
    have hend : h'.device.intInEndpoint = 0x82 := congrArg Choice.intInEndpoint htakes.2
    have hgot' : h'.device.intInEndpoint = 0x81 := Except.ok.inj hgot
    rw [hend] at hgot'
    exact absurd hgot' (by decide)
  · intro h
    refine h.inside ?_
    have herr : (setupHidDevice justConfigured (some longBuf)).map
        (fun h => h.device.intInEndpoint) = .error .panic := by decide +kernel
    cases hrun : setupHidDevice justConfigured (some longBuf) with
    | error e =>
        rw [hrun] at herr
        exact congrArg Except.error (Except.error.inj herr)
    | ok h' =>
        rw [hrun] at herr
        cases herr

end PureOS.Usb
