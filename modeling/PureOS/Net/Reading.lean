import PureOS.Net.Answers

set_option autoImplicit false

/-!
# Net: reading a DNS response (`net/dns.rs`)

The part of `dns_resolve` that reads the response, index by index, next to what a response
says: the address in the first A record of the Internet class.  No index is ever outside the
response.  In front of a record, labels that end in a pointer are not understood, and the
class of a record is not looked at.
-/

namespace PureOS.Net

open PureOS.Foundation

/-! ## The code -/

/-- The loop over the name of the question: where it ends, or `none` for a return. -/
def readQuestion (resp : Packet) : Nat → Nat → Except Fault (Option Nat)
  | 0, _ => .error .fuel
  | n + 1, off =>
      if off ≥ resp.length then .ok none
      else do
        let b ← byte resp off
        if b = 0 then return some (off + 1)
        else if b &&& 0xC0 = 0xC0 then return some (off + 2)
        else if off + (b.toNat + 1) ≥ resp.length then return none
        else readQuestion resp n (off + (b.toNat + 1))

/-- The loop over the labels in front of a record. -/
def readLabels (resp : Packet) : Nat → Nat → Except Fault Nat
  | 0, _ => .error .fuel
  | n + 1, off =>
      if off ≥ resp.length then .ok off
      else do
        let b ← byte resp off
        if b = 0 then return off + 1
        else readLabels resp n (off + (b.toNat + 1))

/-- Where the name in front of a record ends. -/
def readOwner (resp : Packet) (off : Nat) : Except Fault Nat := do
  let b ← byte resp off
  if b &&& 0xC0 = 0xC0 then return off + 2 else readLabels resp resp.length off

/-- The loop over the records. -/
def readRecords (resp : Packet) : Nat → Nat → Except Fault (Option Ip)
  | 0, _ => .ok none
  | n + 1, off =>
      if off ≥ resp.length then .ok none
      else do
        let off ← readOwner resp off
        if off + 10 > resp.length then return none
        else
          let atype ← be 2 resp off
          let _aclass ← be 2 resp (off + 2)
          let _ttl ← be 4 resp (off + 4)
          let rdlen ← be 2 resp (off + 8)
          let off := off + 10
          if atype = 1 ∧ rdlen = 4 ∧ off + 4 ≤ resp.length then
            let ip ← array 4 resp off
            return some ip
          else readRecords resp n (off + rdlen)

/-- What `dns_resolve` does with a response. -/
def readResponse (resp : Packet) : Except Fault (Option Ip) :=
  if resp.length < 12 then .ok none
  else do
    let ancount ← be 2 resp 6
    if ancount = 0 then return none
    else
      match ← readQuestion resp resp.length 12 with
      | none => return none
      | some off => readRecords resp ancount (off + 4)

variable {p : Packet} {off e n : Nat}

/-! ## No index is outside -/

theorem readQuestion_eq (p : Packet) (n off : Nat) (hn : p.length < off + n) (hpos : 0 < n) :
    readQuestion p n off = .ok (skipQuestion p n off) := by
  induction n generalizing off with
  | zero => exact absurd hpos (Nat.lt_irrefl 0)
  | succ n ih =>
      rw [readQuestion, skipQuestion]
      by_cases hoff : off ≥ p.length
      · rw [if_pos hoff, List.getElem?_eq_none hoff]
      · rw [if_neg hoff, byte_ok (by omega), bind_ok, List.getElem?_eq_getElem (by omega)]
        dsimp only
        split
        · rfl
        split
        · rfl
        split
        · rfl
        · exact ih _ (by omega) (by omega)

theorem readLabels_eq (p : Packet) (n off : Nat) (hn : p.length < off + n) (hpos : 0 < n) :
    readLabels p n off = .ok (skipLabels p n off) := by
  induction n generalizing off with
  | zero => exact absurd hpos (Nat.lt_irrefl 0)
  | succ n ih =>
      rw [readLabels, skipLabels]
      by_cases hoff : off ≥ p.length
      · rw [if_pos hoff, List.getElem?_eq_none hoff]
      · rw [if_neg hoff, byte_ok (by omega), bind_ok, List.getElem?_eq_getElem (by omega)]
        dsimp only
        split
        · rfl
        · exact ih _ (by omega) (by omega)

theorem readOwner_eq (p : Packet) (hoff : 0 < off) (hlt : off < p.length) :
    readOwner p off = .ok (skipOwner p off) := by
  rw [readOwner, byte_ok hlt, bind_ok, skipOwner, List.getElem?_eq_getElem hlt, Option.getD_some]
  split
  · rfl
  · exact readLabels_eq p _ _ (by omega) (by omega)

/-- The loop over the records reads no index outside the response. -/
theorem readRecords_eq (p : Packet) (n : Nat) (hoff : 0 < off) :
    readRecords p n off = .ok (firstAddress p n off) := by
  induction n generalizing off with
  | zero => rfl
  | succ n ih =>
      rw [readRecords, firstAddress]
      by_cases hend : off ≥ p.length
      · rw [if_pos hend, if_pos hend]
      rw [if_neg hend, if_neg hend, readOwner_eq p hoff (by omega), bind_ok]
      dsimp only
      by_cases hlen : skipOwner p off + 10 > p.length
      · rw [if_pos hlen, if_pos hlen]
        rfl
      rw [if_neg hlen, if_neg hlen, be_ok (by omega), bind_ok, be_ok (by omega), bind_ok,
        be_ok (by omega), bind_ok, be_ok (by omega), bind_ok]
      split
      · rename_i hrecord
        rw [array_ok hrecord.2.2, bind_ok]
        refine congrArg (fun ip => Except.ok (some ip)) ?_
        congr 1
        funext k
        rw [List.getElem?_eq_getElem (by omega), Option.getD_some]
      · exact ih (by omega)

/-- Reading a response always ends, and no index is outside it. -/
theorem readResponse_eq (p : Packet) : readResponse p = .ok (parseResponse p) := by
  rw [readResponse, parseResponse]
  by_cases hlen : p.length < 12
  · rw [if_pos hlen, if_pos hlen]
  rw [if_neg hlen, if_neg hlen, be_ok (by omega), bind_ok]
  dsimp only
  split
  · rfl
  rw [readQuestion_eq p _ _ (by omega) (by omega), bind_ok]
  cases skipQuestion p p.length 12 with
  | none => rfl
  | some off => exact readRecords_eq p _ (by omega)

/-! ## What a response says -/

/-- A response with one question, whose name ends at `e`; the records go on at these places
behind their names. -/
structure OneQuestion (p : Packet) (e : Nat) (records : List Nat) : Prop where
  long : 12 ≤ p.length
  one : beAt 2 p 4 = 1
  name : NameAt p 12 e
  fits : e + 4 ≤ p.length
  answers : Records NameAt p (beAt 2 p 6) (e + 4) records

/-- A record of type A with four bytes, of whatever class. -/
def FourBytes (p : Packet) (o : Nat) : Prop := beAt 2 p o = 1 ∧ beAt 2 p (o + 8) = 4

/-- The same of the Internet class: the record of an address. -/
def IsAddress (p : Packet) (o : Nat) : Prop := FourBytes p o ∧ beAt 2 p (o + 2) = 1

instance (p : Packet) (o : Nat) : Decidable (FourBytes p o) := inferInstanceAs (Decidable (_ ∧ _))

instance (p : Packet) (o : Nat) : Decidable (IsAddress p o) := inferInstanceAs (Decidable (_ ∧ _))

/-- The first address among the records, or 0.0.0.0. -/
def answerOf (p : Packet) (records : List Nat) : Ip :=
  ((records.find? fun o => decide (IsAddress p o)).map fun o => ipAt p (o + 10)).getD noIp

/-- The records from a place on, as far as they are looked at, have names that can be skipped,
and the first one of type A with four bytes is an address. -/
def Understood (p : Packet) : Nat → List Nat → Prop
  | _, [] => True
  | off, o :: rest => PlainName p off o ∧
      if FourBytes p o then IsAddress p o
      else Understood p (o + 10 + beAt 2 p (o + 8)) rest

/-! ## Names are skipped -/

theorem NameAt.lt_length (h : NameAt p off e) : off < p.length := by
  cases h with
  | root hb => exact lt_of_get hb
  | pointer hp =>
      obtain ⟨⟨b, hb, _⟩, _⟩ := hp
      exact lt_of_get hb
  | label hb _ _ _ => exact lt_of_get hb

/-- The name of the question is skipped, in whatever form it is. -/
theorem skipQuestion_of_name (h : NameAt p off e) (hn : p.length < off + n) :
    skipQuestion p n off = some e := by
  induction h generalizing n with
  | root hb =>
      have hlt := lt_of_get hb
      obtain ⟨n, rfl⟩ : ∃ k, n = k + 1 := ⟨n - 1, by omega⟩
      rw [skipQuestion, hb]
      exact if_pos rfl
  | pointer hp =>
      obtain ⟨⟨b, hb, hpointer⟩, rfl⟩ := hp
      have hlt := lt_of_get hb
      obtain ⟨n, rfl⟩ : ∃ k, n = k + 1 := ⟨n - 1, by omega⟩
      have hne : b ≠ 0 := by
        rintro rfl
        exact absurd hpointer (by decide)
      rw [skipQuestion, hb]
      dsimp only
      rw [if_neg hne, if_pos hpointer]
  | label hb hpos hsmall rest ih =>
      have hlt := lt_of_get hb
      have hrest := rest.lt_length
      obtain ⟨n, rfl⟩ : ∃ k, n = k + 1 := ⟨n - 1, by omega⟩
      rw [skipQuestion, hb]
      dsimp only
      rw [if_neg hpos, if_neg (not_pointer hsmall), if_neg (by omega)]
      exact ih (by omega)

theorem skipLabels_of_labels (h : Labels p off e) (hn : p.length < off + n) :
    skipLabels p n off = e := by
  induction h generalizing n with
  | root hb =>
      have hlt := lt_of_get hb
      obtain ⟨n, rfl⟩ : ∃ k, n = k + 1 := ⟨n - 1, by omega⟩
      rw [skipLabels, hb]
      exact if_pos rfl
  | label hb hpos _ rest ih =>
      have hlt := lt_of_get hb
      obtain ⟨n, rfl⟩ : ∃ k, n = k + 1 := ⟨n - 1, by omega⟩
      rw [skipLabels, hb]
      dsimp only
      rw [if_neg hpos]
      exact ih (by omega)

/-- A name in front of a record is skipped, if it is a pointer alone or labels alone. -/
theorem skipOwner_of_plain (h : PlainName p off e) (hoff : 0 < off) : skipOwner p off = e := by
  rcases h with ⟨⟨b, hb, hpointer⟩, rfl⟩ | hlabels
  · rw [skipOwner, hb, Option.getD_some, if_pos hpointer]
  · have hplain : ∃ b, p[off]? = some b ∧ b &&& 0xC0 ≠ 0xC0 := by
      cases hlabels with
      | root hb => exact ⟨0, hb, by decide⟩
      | label hb _ hsmall _ => exact ⟨_, hb, not_pointer hsmall⟩
    obtain ⟨b, hb, hne⟩ := hplain
    rw [skipOwner, hb, Option.getD_some, if_neg hne]
    exact skipLabels_of_labels hlabels (by omega)

/-! ## The first address -/

theorem firstAddress_of_understood {records : List Nat} (hoff : 0 < off)
    (hrecords : Records NameAt p n off records) (h : Understood p off records) :
    (firstAddress p n off).getD noIp = answerOf p records := by
  induction hrecords with
  | nil => rfl
  | @cons n off o rest hname hfits _ ih =>
      obtain ⟨hplain, hnext⟩ := h
      have hlt := hname.lt_length
      rw [firstAddress, if_neg (by omega), skipOwner_of_plain hplain hoff]
      dsimp only
      rw [if_neg (by omega), answerOf, List.find?_cons]
      by_cases hfour : FourBytes p o
      · rw [if_pos hfour] at hnext
        have hsize := hfour.2
        rw [if_pos ⟨hfour.1, hfour.2, by omega⟩, decide_eq_true hnext]
        rfl
      · rw [if_neg hfour] at hnext
        have hnot : ¬IsAddress p o := fun haddress => hfour haddress.1
        rw [if_neg fun hall => hfour ⟨hall.1, hall.2.1⟩, decide_eq_false hnot]
        exact ih (by omega) hnext

/-- Reading a response ends without a fault; and the result is what the response says, if its
records can be understood up to the first address. -/
theorem readResponse_of_understood (p : Packet) :
    ∃ r, readResponse p = .ok r ∧ ∀ (e : Nat) (records : List Nat), OneQuestion p e records →
      Understood p (e + 4) records → r.getD noIp = answerOf p records := by
  refine ⟨parseResponse p, readResponse_eq p, fun e records hone h => ?_⟩
  have hlong := hone.long
  have hanswers := hone.answers
  rw [parseResponse, if_neg (by omega)]
  dsimp only
  by_cases hnone : beAt 2 p 6 = 0
  · rw [if_pos hnone]
    rw [hnone] at hanswers
    cases hanswers
    rfl
  · rw [if_neg hnone, skipQuestion_of_name hone.name (by omega)]
    exact firstAddress_of_understood (by omega) hanswers h

/-- A pointer in front of an address. -/
theorem readResponse_of_understood_a :
    ∃ r, readResponse responseForA = .ok r ∧ r.getD noIp = ip4 1 2 3 4 := by
  obtain ⟨r, hread, hright⟩ := readResponse_of_understood responseForA
  refine ⟨r, hread, ?_⟩
  have hone : OneQuestion responseForA 15 [21] :=
    ⟨by decide, by decide +kernel, .label (b := 1) rfl (by decide) (by decide) (.root rfl),
      by decide, by
        have hcount : beAt 2 responseForA 6 = 0 + 1 := by decide +kernel
        rw [hcount]
        exact .cons (o := 21) (.pointer ⟨⟨0xC0, rfl, rfl⟩, rfl⟩) (by decide +kernel) (.nil _)⟩
  have hunderstood : Understood responseForA 19 [21] := by
    refine ⟨Or.inl ⟨⟨0xC0, rfl, rfl⟩, rfl⟩, ?_⟩
    rw [if_pos (by decide +kernel)]
    decide +kernel
  rw [hright 15 [21] hone hunderstood]
  decide +kernel

/-- A response for the host "a": a record of another type, whose name is a label before a
pointer, and the address 1.2.3.4. -/
def responseBehindLabel : Packet :=
  [0, 1, 0x81, 0x80, 0, 1, 0, 2, 0, 0, 0, 0, 1, 97, 0, 0, 1, 0, 1,
    1, 98, 0xC0, 12, 0, 16, 0, 1, 0, 0, 0, 60, 0, 1, 0,
    0xC0, 12, 0, 1, 0, 1, 0, 0, 0, 60, 0, 4, 1, 2, 3, 4]

/-- A label before a pointer hides what comes behind. -/
theorem not_readResponse_behind_label :
    ¬∀ p : Packet, p.length ≤ 512 → ∃ r, readResponse p = .ok r ∧
      ∀ (e : Nat) (records : List Nat), OneQuestion p e records →
        r.getD noIp = answerOf p records := by
  intro h
  obtain ⟨r, hread, hright⟩ := h responseBehindLabel (by decide)
  have hone : OneQuestion responseBehindLabel 15 [23, 36] :=
    ⟨by decide, by decide +kernel, .label (b := 1) rfl (by decide) (by decide) (.root rfl),
      by decide, by
        have hcount : beAt 2 responseBehindLabel 6 = 0 + 1 + 1 := by decide +kernel
        have hlength : beAt 2 responseBehindLabel (23 + 8) = 1 := by decide +kernel
        rw [hcount]
        refine .cons (o := 23) (.label (b := 1) rfl (by decide) (by decide)
          (.pointer ⟨⟨0xC0, rfl, rfl⟩, rfl⟩)) (by decide +kernel) ?_
        rw [hlength]
        exact .cons (o := 36) (.pointer ⟨⟨0xC0, rfl, rfl⟩, rfl⟩) (by decide +kernel) (.nil _)⟩
  have hsame := hright 15 [23, 36] hone
  have hnone : readResponse responseBehindLabel = .ok none := by decide +kernel
  rw [hnone] at hread
  cases hread
  revert hsame
  decide +kernel

end PureOS.Net
