import PureOS.Net.Answers

set_option autoImplicit false

/-!
# Net: DHCP options (`net/dhcp.rs`)

The walk of `parse_dhcp_options` over the options of a packet, next to what a list of options
says about a tag.  A short option overwrites only the first bytes of what an earlier one has
left, and the first bytes of the packet are read before its length is looked at.
-/

namespace PureOS.Net

open PureOS.Foundation

/-! ## The code -/

/-- `DHCP_OPT_SUBNET`. -/
def dhcpOptSubnet : UInt8 := 1
/-- `DHCP_OPT_ROUTER`. -/
def dhcpOptRouter : UInt8 := 3
/-- `DHCP_OPT_DNS`. -/
def dhcpOptDns : UInt8 := 6
/-- `DHCP_OPT_END`. -/
def dhcpOptEnd : UInt8 := 255

/-- The local variables `subnet`, `router` and `dns`. -/
structure DhcpFields where
  subnet : Ip := ip4 255 255 255 255
  router : Ip := noIp
  dns : Ip := noIp

/-- `for i in 0..n { field[i] = data[off + i] }`. -/
def copyOption (data : Packet) (off : Nat) : Nat → Ip → Except Fault Ip
  | 0, field => .ok field
  | n + 1, field => do
      let field ← copyOption data off n field
      let b ← byte data (off + n)
      if n < 4 then return field.setIfInBounds n b else throw .panic

/-- What one option does to the variables. -/
def readOption (data : Packet) (tag : UInt8) (off len : Nat) (fields : DhcpFields) :
    Except Fault DhcpFields :=
  if tag = dhcpOptSubnet then do
    return { fields with subnet := ← copyOption data off (min 4 len) fields.subnet }
  else if tag = dhcpOptRouter then do
    return { fields with router := ← copyOption data off (min 4 len) fields.router }
  else if tag = dhcpOptDns then do
    return { fields with dns := ← copyOption data off (min 4 len) fields.dns }
  else .ok fields

/-- The loop over the options. -/
def readOptions (data : Packet) : Nat → Nat → DhcpFields → Except Fault DhcpFields
  | 0, _, _ => .error .fuel
  | n + 1, off, fields =>
      if off ≥ data.length then .ok fields
      else do
        let tag ← byte data off
        if tag = dhcpOptEnd then return fields
        else if tag = 0 then readOptions data n (off + 1) fields
        else if off + 1 ≥ data.length then return fields
        else
          let len ← byte data (off + 1)
          if off + 2 + len.toNat > data.length then return fields
          else
            let fields ← readOption data tag (off + 2) len.toNat fields
            readOptions data n (off + 2 + len.toNat) fields

/-- What `parse_dhcp_options` returns. -/
structure DhcpResult where
  found : Bool
  yiaddr : Ip
  router : Ip
  dns : Ip
  deriving DecidableEq

/-- `parse_dhcp_options`. -/
def parseDhcpOptions (data : Packet) : Except Fault DhcpResult := do
  let yiaddr ← copyOption data 16 4 noIp
  if data.length < 240 then return ⟨false, yiaddr, noIp, noIp⟩
  else
    let cookie ← array 4 data 236
    if cookie ≠ ip4 99 130 83 99 then return ⟨false, yiaddr, noIp, noIp⟩
    else
      let fields ← readOptions data data.length 240 {}
      return ⟨true, yiaddr, fields.router, fields.dns⟩

/-! ## What a packet says -/

/-- An option: a tag that is neither a pad nor the end, and up to 255 bytes. -/
structure DhcpOption where
  tag : UInt8
  value : Packet
  notPad : tag ≠ 0
  notEnd : tag ≠ dhcpOptEnd
  short : value.length < 256

/-- The bytes of an option, or of a pad. -/
def dhcpItem : Option DhcpOption → Packet
  | none => [0]
  | some o => o.tag :: UInt8.ofNat o.value.length :: o.value

/-- A packet with the cookie, a list of pads and options, and an end. -/
structure DhcpPacket (data : Packet) (items : List (Option DhcpOption)) (ending : Packet) :
    Prop where
  long : 240 ≤ data.length
  cookie : (data.drop 236).take 4 = [99, 130, 83, 99]
  options : data.drop 240 = items.flatMap dhcpItem ++ ending
  ends : ending = [] ∨ ∃ rest, ending = dhcpOptEnd :: rest

/-- The values of the options with a tag, in order. -/
def valuesOf (tag : UInt8) (items : List (Option DhcpOption)) : List Packet :=
  items.filterMap fun item => item.bind fun o => if o.tag = tag then some o.value else none

/-- The last of some values that has more than `k` bytes. -/
def lastLonger (k : Nat) (values : List Packet) : Option Packet :=
  values.reverse.find? fun v => decide (k < v.length)

/-- The first four bytes of a value. -/
def firstFour (value : Packet) : Ip := Vector.ofFn fun k => value[k.val]?.getD 0

/-- The result is what the options say about the addresses. -/
structure DhcpResult.Says (r : DhcpResult) (data : Packet) (items : List (Option DhcpOption)) :
    Prop where
  found : r.found = true
  yiaddr : r.yiaddr = ipAt data 16
  router : ∀ value, lastLonger 3 (valuesOf dhcpOptRouter items) = some value →
    r.router = firstFour value
  dns : ∀ value, lastLonger 3 (valuesOf dhcpOptDns items) = some value →
    r.dns = firstFour value

/-- Of the values behind the last one with four bytes, each byte is repeated by the last one
that has it. -/
def Repeated (values : List Packet) : Prop :=
  ∀ front value back, values = front ++ value :: back → 3 < value.length →
    (∀ v ∈ back, v.length ≤ 3) →
    ∀ k < 4, ∀ v, lastLonger k back = some v → v[k]? = value[k]?

variable {data : Packet} {off n : Nat} {fields : DhcpFields} {tag : UInt8} {field : Ip}

/-! ## Copying -/

theorem ip_ext {a b : Ip} (h : ∀ k < 4, a[k]? = b[k]?) : a = b := by
  refine Vector.ext fun k hk => ?_
  have hbyte := h k hk
  rw [Vector.getElem?_eq_getElem hk, Vector.getElem?_eq_getElem hk] at hbyte
  exact Option.some.inj hbyte

/-- Copying the first bytes of an option inside the packet changes these bytes. -/
theorem copyOption_ok (field : Ip) (hn : n ≤ 4) (h : off + n ≤ data.length) :
    ∃ r, copyOption data off n field = .ok r ∧
      ∀ k, r[k]? = if k < n then data[off + k]? else field[k]? := by
  induction n with
  | zero => exact ⟨field, rfl, fun k => (if_neg (Nat.not_lt_zero k)).symm⟩
  | succ n ih =>
      obtain ⟨r, hr, hbytes⟩ := ih (by omega) (by omega)
      refine ⟨r.setIfInBounds n data[off + n], ?_, fun k => ?_⟩
      · rw [copyOption, hr, bind_ok, byte_ok (by omega), bind_ok, if_pos (by omega)]
        rfl
      · rw [Vector.getElem?_setIfInBounds]
        by_cases hk : n = k
        · subst hk
          rw [if_pos rfl, if_pos (by omega), if_pos (by omega), List.getElem?_eq_getElem]
        · rw [if_neg hk, hbytes]
          by_cases hlt : k < n
          · rw [if_pos hlt, if_pos (by omega)]
          · rw [if_neg hlt, if_neg (by omega)]

/-- Copying bytes from outside the packet panics. -/
theorem copyOption_panic (field : Ip) (hn : n ≤ 4) (hpos : 0 < n) (h : data.length < off + n) :
    copyOption data off n field = .error .panic := by
  induction n with
  | zero => exact absurd hpos (Nat.lt_irrefl 0)
  | succ n ih =>
      by_cases hbefore : 0 < n ∧ data.length < off + n
      · rw [copyOption, ih (by omega) hbefore.1 hbefore.2]
        rfl
      · have hrest : ∃ r, copyOption data off n field = .ok r := by
          cases n with
          | zero => exact ⟨field, rfl⟩
          | succ m =>
              obtain ⟨r, hr, _⟩ := @copyOption_ok data off (m + 1) field
                (by omega) (by omega)
              exact ⟨r, hr⟩
        obtain ⟨r, hr⟩ := hrest
        rw [copyOption, hr, bind_ok, byte, List.getElem?_eq_none (by omega)]
        rfl

/-- The bytes of `new` are those of the last value that has them, and else those of `old`. -/
def Overwritten (old new : Ip) (values : List Packet) : Prop :=
  ∀ k < 4, new[k]? = match lastLonger k values with
    | some v => v[k]?
    | none => old[k]?

theorem lastLonger_append (k : Nat) (front back : List Packet) :
    lastLonger k (front ++ back) = (lastLonger k back).or (lastLonger k front) := by
  rw [lastLonger, List.reverse_append, List.find?_append]
  rfl

theorem lastLonger_cons (k : Nat) (v : Packet) (values : List Packet) :
    lastLonger k (v :: values) =
      (lastLonger k values).or (if k < v.length then some v else none) := by
  have happend := lastLonger_append k [v] values
  rw [List.singleton_append] at happend
  rw [happend]
  congr 1
  by_cases hk : k < v.length
  · simp [lastLonger, hk]
  · simp [lastLonger, hk]

theorem Overwritten.refl (field : Ip) : Overwritten field field [] := fun _ _ => rfl

theorem Overwritten.cons {old mid new : Ip} {v : Packet} {values : List Packet}
    (hfirst : ∀ k, mid[k]? = if k < min 4 v.length then v[k]? else old[k]?)
    (hrest : Overwritten mid new values) : Overwritten old new (v :: values) := by
  intro k hk
  rw [hrest k hk, lastLonger_cons, hfirst]
  cases lastLonger k values with
  | some w => rfl
  | none =>
      by_cases hlt : k < v.length
      · rw [if_pos hlt, if_pos (by omega)]
        rfl
      · rw [if_neg hlt, if_neg (by omega)]
        rfl

/-! ## The walk -/

/-- What one option inside the packet does: the variable of its tag gets its first bytes. -/
theorem readOption_ok (fields : DhcpFields) (tag : UInt8) {len : Nat}
    (h : off + len ≤ data.length) :
    ∃ r, readOption data tag off len fields = .ok r ∧
      (∀ k, r.router[k]? = if tag = dhcpOptRouter ∧ k < min 4 len then data[off + k]?
        else fields.router[k]?) ∧
      ∀ k, r.dns[k]? = if tag = dhcpOptDns ∧ k < min 4 len then data[off + k]?
        else fields.dns[k]? := by
  have hcopy := fun field : Ip =>
    @copyOption_ok data off (min 4 len) field (by omega) (by omega)
  rw [readOption]
  by_cases hsubnet : tag = dhcpOptSubnet
  · subst hsubnet
    obtain ⟨r, hr, _⟩ := hcopy fields.subnet
    rw [if_pos rfl, hr]
    exact ⟨_, rfl, fun k => (if_neg fun h => absurd h.1 (by decide)).symm,
      fun k => (if_neg fun h => absurd h.1 (by decide)).symm⟩
  rw [if_neg hsubnet]
  by_cases hrouter : tag = dhcpOptRouter
  · subst hrouter
    obtain ⟨r, hr, hbytes⟩ := hcopy fields.router
    rw [if_pos rfl, hr]
    refine ⟨_, rfl, fun k => ?_, fun k => (if_neg fun h => absurd h.1 (by decide)).symm⟩
    simpa using hbytes k
  rw [if_neg hrouter]
  by_cases hdns : tag = dhcpOptDns
  · subst hdns
    obtain ⟨r, hr, hbytes⟩ := hcopy fields.dns
    rw [if_pos rfl, hr]
    refine ⟨_, rfl, fun k => (if_neg fun h => absurd h.1 (by decide)).symm, fun k => ?_⟩
    simpa using hbytes k
  rw [if_neg hdns]
  exact ⟨fields, rfl, fun k => (if_neg fun h => hrouter h.1).symm,
    fun k => (if_neg fun h => hdns h.1).symm⟩

/-- The loop over the options ends, and reads no index outside the packet. -/
theorem readOptions_ok (data : Packet) (fields : DhcpFields) (hpos : 0 < n)
    (hn : data.length < off + n) : ∃ r, readOptions data n off fields = .ok r := by
  induction n generalizing off fields with
  | zero => exact absurd hpos (Nat.lt_irrefl 0)
  | succ n ih =>
      rw [readOptions]
      by_cases hoff : off ≥ data.length
      · exact ⟨fields, if_pos hoff⟩
      rw [if_neg hoff, byte_ok (by omega), bind_ok]
      split
      · exact ⟨fields, rfl⟩
      split
      · exact ih fields (by omega) (by omega)
      by_cases hlen : off + 1 ≥ data.length
      · exact ⟨fields, if_pos hlen⟩
      rw [if_neg hlen, byte_ok (by omega), bind_ok]
      split
      · exact ⟨fields, rfl⟩
      · obtain ⟨r, hr, _⟩ := @readOption_ok data (off + 2) fields data[off] data[off + 1].toNat
          (by omega)
        rw [hr, bind_ok]
        exact ih r (by omega) (by omega)

/-! ## The walk follows the list -/

theorem valuesOf_some (tag : UInt8) (o : DhcpOption) (items : List (Option DhcpOption)) :
    valuesOf tag (some o :: items) =
      (if o.tag = tag then [o.value] else []) ++ valuesOf tag items := by
  rw [valuesOf, List.filterMap_cons, Option.bind_some]
  by_cases htag : o.tag = tag
  · rw [if_pos htag, if_pos htag]
    rfl
  · rw [if_neg htag, if_neg htag]
    rfl

theorem Overwritten.item {old mid new : Ip} {o : DhcpOption} {items : List (Option DhcpOption)}
    (hfirst : ∀ k, mid[k]? =
      if o.tag = tag ∧ k < min 4 o.value.length then o.value[k]? else old[k]?)
    (hrest : Overwritten mid new (valuesOf tag items)) :
    Overwritten old new (valuesOf tag (some o :: items)) := by
  rw [valuesOf_some]
  by_cases htag : o.tag = tag
  · rw [if_pos htag]
    refine Overwritten.cons (fun k => ?_) hrest
    rw [hfirst]
    by_cases hk : k < min 4 o.value.length
    · rw [if_pos ⟨htag, hk⟩, if_pos hk]
    · rw [if_neg fun h => hk h.2, if_neg hk]
  · rw [if_neg htag]
    have hsame : mid = old := ip_ext fun k _ => by rw [hfirst, if_neg fun h => htag h.1]
    rw [hsame] at hrest
    exact hrest

theorem get_of_drop {front : Packet} {b : UInt8} {rest : Packet}
    (h : data.drop off = front ++ b :: rest) : data[off + front.length]? = some b := by
  rw [← List.getElem?_drop, h, List.getElem?_append_right (Nat.le_refl _), Nat.sub_self]
  rfl

/-- On a list of options, the walk leaves of every option the bytes that no later one of its
tag overwrites. -/
theorem readOptions_items {items : List (Option DhcpOption)} {ending : Packet}
    (h : data.drop off = items.flatMap dhcpItem ++ ending)
    (hends : ending = [] ∨ ∃ rest, ending = dhcpOptEnd :: rest) (hpos : 0 < n)
    (hn : data.length < off + n) :
    ∃ r, readOptions data n off fields = .ok r ∧
      Overwritten fields.router r.router (valuesOf dhcpOptRouter items) ∧
      Overwritten fields.dns r.dns (valuesOf dhcpOptDns items) := by
  induction items generalizing off n fields with
  | nil =>
      refine ⟨fields, ?_, .refl _, .refl _⟩
      obtain ⟨n, rfl⟩ : ∃ m, n = m + 1 := ⟨n - 1, by omega⟩
      rw [List.flatMap_nil, List.nil_append] at h
      rw [readOptions]
      rcases hends with rfl | ⟨rest, rfl⟩
      · exact if_pos (List.drop_eq_nil_iff.mp h)
      · have htag : data[off]? = some dhcpOptEnd := @get_of_drop _ _ [] _ _ h
        have hoff := lt_of_get htag
        rw [if_neg (by omega), byte_of_get htag, bind_ok]
        exact if_pos rfl
  | cons item items ih =>
      obtain ⟨n, rfl⟩ : ∃ m, n = m + 1 := ⟨n - 1, by omega⟩
      rw [List.flatMap_cons, List.append_assoc] at h
      rw [readOptions]
      cases item with
      | none =>
          have htag : data[off]? = some 0 := @get_of_drop _ _ [] _ _ h
          have hoff := lt_of_get htag
          have hnext : data.drop (off + 1) = items.flatMap dhcpItem ++ ending := by
            rw [← List.drop_drop, h]
            rfl
          rw [if_neg (by omega), byte_of_get htag, bind_ok, if_neg (by decide), if_pos rfl]
          exact ih hnext (by omega) (by omega)
      | some o =>
          have htag : data[off]? = some o.tag := @get_of_drop _ _ [] _ _ h
          have hlen : data[off + 1]? = some (UInt8.ofNat o.value.length) :=
            @get_of_drop _ _ [o.tag] _ _ h
          have hsize : (UInt8.ofNat o.value.length).toNat = o.value.length :=
            Nat.mod_eq_of_lt o.short
          have hbody : data.drop (off + 2) = o.value ++ (items.flatMap dhcpItem ++ ending) := by
            rw [← List.drop_drop, h]
            rfl
          have hnext : data.drop (off + 2 + o.value.length) = items.flatMap dhcpItem ++ ending := by
            rw [← List.drop_drop, hbody, List.drop_left]
          have hoff := lt_of_get hlen
          have hfits : off + 2 + o.value.length ≤ data.length := by
            have hcount := congrArg List.length hbody
            rw [List.length_drop, List.length_append] at hcount
            omega
          obtain ⟨mid, hmid, hrouter, hdns⟩ := readOption_ok fields o.tag hfits
          have hvalue : ∀ k, k < min 4 o.value.length → data[off + 2 + k]? = o.value[k]? := by
            intro k hk
            rw [← List.getElem?_drop, hbody, List.getElem?_append_left (by omega)]
          obtain ⟨r, hr, hrouter', hdns'⟩ :=
            @ih _ n mid hnext (by omega) (by omega)
          rw [if_neg (by omega), byte_of_get htag, bind_ok, if_neg o.notEnd, if_neg o.notPad,
            if_neg (by omega), byte_of_get hlen, bind_ok, hsize, if_neg (by omega), hmid, bind_ok]
          refine ⟨r, hr, Overwritten.item (fun k => ?_) hrouter',
            Overwritten.item (fun k => ?_) hdns'⟩
          · rw [hrouter]
            exact if_ctx_congr Iff.rfl (fun hk => hvalue k hk.2) fun _ => rfl
          · rw [hdns]
            exact if_ctx_congr Iff.rfl (fun hk => hvalue k hk.2) fun _ => rfl

/-! ## What is returned -/

theorem copyOption_header (h : 20 ≤ data.length) :
    copyOption data 16 4 noIp = .ok (ipAt data 16) := by
  obtain ⟨r, hr, hbytes⟩ := @copyOption_ok data 16 4 noIp (Nat.le_refl 4) h
  have hsame : r = ipAt data 16 := ip_ext fun k hk => by
    rw [hbytes, if_pos hk, ipAt, Vector.getElem?_ofFn, dif_pos hk,
      List.getElem?_eq_getElem (by omega)]
    rfl
  rw [hr, hsame]

/-- From 20 bytes on, the function returns; with less, the header is read outside. -/
theorem parseDhcpOptions_returns (data : Packet) :
    (∃ r, parseDhcpOptions data = .ok r) ↔ 20 ≤ data.length := by
  constructor
  · rintro ⟨r, hr⟩
    by_contra hshort
    rw [parseDhcpOptions, copyOption_panic _ (by omega) (by omega) (by omega)] at hr
    cases hr
  · intro hlong
    rw [parseDhcpOptions, copyOption_header hlong, bind_ok]
    by_cases h240 : data.length < 240
    · exact ⟨_, if_pos h240⟩
    rw [if_neg h240, array_ok (by omega), bind_ok]
    split
    · exact ⟨_, rfl⟩
    · obtain ⟨fields, hfields⟩ :=
        @readOptions_ok 240 data.length data {} (by omega) (by omega)
      exact ⟨_, by rw [hfields]; rfl⟩

/-- On a packet with a cookie and a list of options, the walk decides the addresses. -/
theorem parseDhcpOptions_packet {items : List (Option DhcpOption)} {ending : Packet}
    (h : DhcpPacket data items ending) :
    ∃ router dns, parseDhcpOptions data = .ok ⟨true, ipAt data 16, router, dns⟩ ∧
      Overwritten noIp router (valuesOf dhcpOptRouter items) ∧
      Overwritten noIp dns (valuesOf dhcpOptDns items) := by
  have hlong := h.long
  have hcookie : (Vector.ofFn fun k : Fin 4 => data[236 + k.val]) = ip4 99 130 83 99 := by
    refine ip_ext fun k hk => ?_
    have hbyte := congrArg (fun bytes : Packet => bytes[k]?) h.cookie
    rw [List.getElem?_take_of_lt hk, List.getElem?_drop,
      List.getElem?_eq_getElem (by omega)] at hbyte
    rw [Vector.getElem?_ofFn, dif_pos hk, hbyte]
    obtain rfl | rfl | rfl | rfl : k = 0 ∨ k = 1 ∨ k = 2 ∨ k = 3 := by omega
    all_goals rfl
  obtain ⟨fields, hfields, hrouter, hdns⟩ :=
    @readOptions_items _ _ data.length {} _ _ h.options h.ends (by omega) (by omega)
  refine ⟨fields.router, fields.dns, ?_, hrouter, hdns⟩
  rw [parseDhcpOptions, copyOption_header (by omega), bind_ok, if_neg (by omega),
    array_ok (by omega), bind_ok, hcookie, if_neg (fun hne => hne rfl), hfields]
  rfl

/-- Later values leave the last one with four bytes as it is, exactly if they repeat it. -/
theorem Overwritten.repeated_iff {old new : Ip} {values : List Packet}
    (h : Overwritten old new values) :
    (∀ value, lastLonger 3 values = some value → new = firstFour value) ↔
      Repeated values := by
  constructor
  · rintro hright front value back rfl hlong hback k hk v hv
    have hlast : lastLonger 3 (front ++ value :: back) = some value := by
      have hnone : lastLonger 3 back = none :=
        List.find?_eq_none.mpr fun v hv => by
          have := hback v (List.mem_reverse.mp hv)
          rw [decide_eq_true_eq]
          omega
      rw [lastLonger_append, lastLonger_cons, hnone, if_pos hlong]
      rfl
    have hbyte := h k hk
    have hin : k < value.length := by omega
    rw [hright value hlast, lastLonger_append, lastLonger_cons, hv, firstFour,
      Vector.getElem?_ofFn, dif_pos hk, List.getElem?_eq_getElem hin] at hbyte
    rw [List.getElem?_eq_getElem hin]
    exact hbyte.symm
  · intro hrepeated value hlast
    obtain ⟨hlong, after, before, hsplit, hafter⟩ := List.find?_eq_some_iff_append.mp hlast
    have hvalues : values = before.reverse ++ value :: after.reverse := by
      rw [← List.reverse_reverse values, hsplit, List.reverse_append, List.reverse_cons,
        List.append_assoc, List.singleton_append]
    have hlong : 3 < value.length := of_decide_eq_true hlong
    have hback : ∀ v ∈ after.reverse, v.length ≤ 3 := fun v hv => by
      have := hafter v (List.mem_reverse.mp hv)
      simp at this
      omega
    refine ip_ext fun k hk => ?_
    have hbyte : value[k]? = some ((value[k]?).getD 0) := by
      rw [List.getElem?_eq_getElem (by omega)]
      rfl
    rw [h k hk, hvalues, lastLonger_append, lastLonger_cons, firstFour, Vector.getElem?_ofFn,
      dif_pos hk, ← hbyte, if_pos (by omega)]
    cases hv : lastLonger k after.reverse with
    | none => rfl
    | some v => exact hrepeated before.reverse value after.reverse hvalues hlong hback k hk v hv

/-- The function returns what the options of a packet say, exactly if the packet has 20 bytes
and the short options behind a router or DNS option with four bytes repeat it. -/
theorem parseDhcpOptions_says_iff (data : Packet) :
    (∃ r, parseDhcpOptions data = .ok r ∧
        ∀ items ending, DhcpPacket data items ending → r.Says data items) ↔
      20 ≤ data.length ∧ ∀ items ending, DhcpPacket data items ending →
        Repeated (valuesOf dhcpOptRouter items) ∧ Repeated (valuesOf dhcpOptDns items) := by
  constructor
  · rintro ⟨r, hr, hanswer⟩
    refine ⟨(parseDhcpOptions_returns data).mp ⟨r, hr⟩, fun items ending hpacket => ?_⟩
    obtain ⟨router, dns, hparse, hrouter, hdns⟩ := parseDhcpOptions_packet hpacket
    rw [hr] at hparse
    cases hparse
    have hright := hanswer items ending hpacket
    exact ⟨hrouter.repeated_iff.mp hright.router, hdns.repeated_iff.mp hright.dns⟩
  · rintro ⟨hlong, hrepeated⟩
    obtain ⟨r, hr⟩ := (parseDhcpOptions_returns data).mpr hlong
    refine ⟨r, hr, fun items ending hpacket => ?_⟩
    obtain ⟨router, dns, hparse, hrouter, hdns⟩ := parseDhcpOptions_packet hpacket
    rw [hr] at hparse
    cases hparse
    have hboth := hrepeated items ending hpacket
    exact ⟨rfl, rfl, hrouter.repeated_iff.mpr hboth.1, hdns.repeated_iff.mpr hboth.2⟩

/-- A packet with two router options, of which the second has one byte. -/
def shortRouterPacket : Packet :=
  List.replicate 236 0 ++ [99, 130, 83, 99, 3, 4, 10, 0, 2, 2, 3, 1, 192, 255]

/-- Its options. -/
def shortRouterItems : List (Option DhcpOption) :=
  [some ⟨3, [10, 0, 2, 2], by decide, by decide, by decide⟩,
    some ⟨3, [192], by decide, by decide, by decide⟩]

/-- The empty packet makes the function panic; and a short option changes a router address. -/
theorem not_parseDhcpOptions_says :
    parseDhcpOptions [] = .error .panic ∧
      ¬∃ r, parseDhcpOptions shortRouterPacket = .ok r ∧ ∀ items ending,
        DhcpPacket shortRouterPacket items ending → r.Says shortRouterPacket items := by
  refine ⟨rfl, ?_⟩
  rintro ⟨r, hr, hanswer⟩
  have hpacket : DhcpPacket shortRouterPacket shortRouterItems [255] :=
    ⟨by decide +kernel, by decide +kernel, by decide +kernel, Or.inr ⟨[], rfl⟩⟩
  have hrouter := (hanswer _ _ hpacket).router [10, 0, 2, 2] (by decide +kernel)
  have hparse : parseDhcpOptions shortRouterPacket =
      .ok ⟨true, noIp, ip4 192 0 2 2, noIp⟩ := by decide +kernel
  rw [hparse] at hr
  cases hr
  revert hrouter
  decide +kernel

end PureOS.Net
