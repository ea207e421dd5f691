import PureOS.Jpeg.RoundTrip
import PureOS.Jpeg.Walk

set_option autoImplicit false

/-!
# Jpeg: files that are well formed (`jpeg.rs`)

A baseline file is a list of segments, a scan header and the coded data.  `decode_jpeg` takes
the length of a segment without the two bytes of the length field off twice, so that it goes on
two bytes before the end of a segment.
-/

namespace PureOS.Jpeg

open PureOS.Foundation Parse

/-- A number as two bytes, the high one first. -/
def bytes16 (n : Nat) : List UInt8 := [UInt8.ofNat (n / 256), UInt8.ofNat (n % 256)]

/-- Two numbers of four bits in one byte. -/
def nibbles (high low : Nat) : UInt8 := UInt8.ofNat (high * 16 + low)

/-- The entries of a quantization table, in the order of the file. -/
inductive Entries where
  | bytes (entries : Vector UInt8 64)
  | words (entries : Vector UInt16 64)

/-- The entry at a place of the file. -/
def Entries.get : Entries → Fin 64 → Nat
  | .bytes entries, i => (getElem entries i (lt_sixtyFour i)).toNat
  | .words entries, i => (getElem entries i (lt_sixtyFour i)).toNat

/-- A quantization table as a file declares it. -/
structure QuantTable where
  id : Fin 4
  entries : Entries

def QuantTable.toBytes (t : QuantTable) : List UInt8 :=
  match t.entries with
  | .bytes entries => nibbles 0 t.id :: entries.toList
  | .words entries => nibbles 1 t.id :: entries.toList.flatMap fun e => bytes16 e.toNat

/-- A Huffman table as a file declares it. -/
structure CodeTable where
  ac : Bool
  id : Fin 4
  spec : Spec
  valid : spec.Valid

def CodeTable.toBytes (t : CodeTable) : List UInt8 :=
  nibbles t.ac.toNat t.id :: t.spec.bits.toList ++ t.spec.symbols

/-- A component of the frame header. -/
structure Component where
  id : UInt8
  h : Fin 16
  v : Fin 16
  tq : Fin 4

/-- A component of the scan header. -/
structure Selector where
  id : UInt8
  td : Fin 4
  ta : Fin 4

/-- A marker that stands in front of a length, and not before tables, a frame or a scan. -/
def CarriesLength (marker : UInt8) : Prop :=
  1 < marker.toNat ∧ marker.toNat < 0xFF ∧ ¬(0xD0 ≤ marker.toNat ∧ marker.toNat ≤ 0xDA) ∧
    marker ≠ 0xDB ∧ marker ≠ 0xC0 ∧ marker ≠ 0xC4

instance (marker : UInt8) : Decidable (CarriesLength marker) :=
  inferInstanceAs (Decidable (_ ∧ _ ∧ _ ∧ _ ∧ _ ∧ _))

/-- A segment in front of the scan. -/
inductive Segment where
  /-- An application segment, a comment or another one that is skipped. -/
  | other (marker : UInt8) (payload : List UInt8) (length : CarriesLength marker)
  | dqt (tables : List QuantTable)
  | dht (tables : List CodeTable)
  | sof0 (height width : Nat) (components : List Component)

namespace Segment

def marker : Segment → UInt8
  | other marker _ _ => marker
  | dqt _ => 0xDB
  | dht _ => 0xC4
  | sof0 _ _ _ => 0xC0

def payload : Segment → List UInt8
  | other _ payload _ => payload
  | dqt tables => tables.flatMap QuantTable.toBytes
  | dht tables => tables.flatMap CodeTable.toBytes
  | sof0 height width components =>
      8 :: bytes16 height ++ bytes16 width ++ UInt8.ofNat components.length ::
        components.flatMap fun c => [c.id, nibbles c.h c.v, UInt8.ofNat c.tq]

/-- The marker, the length and what it is the length of. -/
def toBytes (s : Segment) : List UInt8 :=
  0xFF :: s.marker :: bytes16 (s.payload.length + 2) ++ s.payload

end Segment

/-- A baseline file.  The lengths fit into the length fields. -/
structure Stream where
  segments : List Segment
  selectors : List Selector
  coded : List UInt8
  short : ∀ s ∈ segments, s.payload.length + 2 < 2 ^ 16
  few : selectors.length ≤ 4

namespace Stream

variable (s : Stream)

/-- The scan header. -/
def scanHeader : List UInt8 :=
  0xFF :: 0xDA :: bytes16 (6 + 2 * s.selectors.length) ++ UInt8.ofNat s.selectors.length ::
    s.selectors.flatMap (fun c => [c.id, nibbles c.td c.ta]) ++ [0, 63, 0]

/-- What stands in front of the coded data. -/
def front : List UInt8 := [0xFF, 0xD8] ++ s.segments.flatMap Segment.toBytes ++ s.scanHeader

def toBytes : List UInt8 := s.front ++ s.coded

/-- The markers of some segments from a place on, each with the place behind it. -/
def places (start : Nat) : List Segment → List (UInt8 × Nat)
  | [] => [(0xDA, start + 2)]
  | segment :: rest => (segment.marker, start + 2) :: places (start + segment.toBytes.length) rest

/-- The quantization tables, in the order of the file. -/
def quantTables : List QuantTable :=
  s.segments.flatMap fun
    | .dqt tables => tables
    | _ => []

/-- The Huffman tables, in the order of the file. -/
def codeTables : List CodeTable :=
  s.segments.flatMap fun
    | .dht tables => tables
    | _ => []

/-- The tables that were loaded are the ones that were declared last. -/
structure Loaded (h : Header) : Prop where
  quant : ∀ id : Fin 4, ∀ t, (s.quantTables.filter (·.id = id)).getLast? = some t →
    getElem h.quantPresent id (lt_four id) = true ∧ ∀ i : Fin 64,
      getElem (getElem h.quantTables id (lt_four id)) (getElem zigzag i (lt_sixtyFour i)) (zigzag_lt i) =
        t.entries.get i
  dc : ∀ id : Fin 4, ∀ t, (s.codeTables.filter fun t => !t.ac && t.id = id).getLast? = some t →
    t.spec.DecodedBy (getElem h.dcTables id (lt_four id))
  ac : ∀ id : Fin 4, ∀ t, (s.codeTables.filter fun t => t.ac && t.id = id).getLast? = some t →
    t.spec.DecodedBy (getElem h.acTables id (lt_four id))

/-- The walk over the markers of a file comes to its segments and to no others, loads its tables
and begins with the coded data behind the scan header. -/
def Walked : Prop :=
  ∃ h, readHeader s.toBytes = .ok h ∧ h.visited = places 2 s.segments ∧ s.Loaded h ∧
    h.scanStart = s.front.length

end Stream

section

variable {data : List UInt8} {h h' : Header}

theorem segLen_eq_ok {pos len : Nat} (hlen : segLen data pos = .ok len) : len = lenAt data pos := by
  have hcut : ¬CutOff data pos := fun hcut => by
    rw [segLen_cutOff hcut] at hlen
    cases hlen
  exact ((segLen_meets hcut).of_ok hlen).1

/-- A segment that is skipped is left two bytes before its end. -/
theorem skipSegment_early (hskip : skipSegment data h = .ok h') :
    h'.pos + 2 = h.pos + lenAt data h.pos := by
  rw [skipSegment] at hskip
  cases hlen : segLen data h.pos with
  | error stop =>
      rw [hlen] at hskip
      cases hskip
  | ok len =>
      rw [hlen, Parse.bind_ok, sub] at hskip
      have hlen := segLen_eq_ok hlen
      split at hskip
      · cases hskip
      · cases hskip
        change h.pos + (len - 2) + 2 = _
        omega

/-- The scan is to begin two bytes before the end of the scan header. -/
theorem scanSegment_early (hscan : scanSegment data h = .ok h') :
    h'.scanStart = h.pos + lenAt data h.pos - 2 := by
  have hgood : ¬BadSegment data h.numComponents h.pos .sos := fun hbad => by
    have harm := arm_bad hbad
    rw [arm, hscan] at harm
    cases harm
  exact ((scanSegment_meets h hgood).of_ok hscan).2.2.2

end

/-- No file is walked as it should be: the loop over the markers never ends with a scan. -/
theorem Stream.not_walked (s : Stream) : ¬s.Walked := by
  rintro ⟨h, hok, -⟩
  exact readHeader_ne_ok s.toBytes h hok

/-- A code with one word. -/
def oneWord : Spec where
  bits := #v[1, 0, 0, 0, 0, 0, 0, 0, 0, 0, 0, 0, 0, 0, 0, 0]
  symbols := [0]

/-- An image of eight by eight points, with a comment in front. -/
def smallFile : Stream where
  segments := [
    .other 0xFE [1, 2] (by decide),
    .dqt [⟨0, .bytes (.replicate 64 1)⟩],
    .sof0 8 8 [⟨1, 1, 1, 0⟩, ⟨2, 1, 1, 0⟩, ⟨3, 1, 1, 0⟩],
    .dht [⟨false, 0, oneWord, by decide +kernel⟩, ⟨true, 0, oneWord, by decide +kernel⟩]]
  selectors := [⟨1, 0, 0⟩, ⟨2, 0, 0⟩, ⟨3, 0, 0⟩]
  coded := [0x03, 0xFF, 0xD9]
  short := by decide +kernel
  few := by decide

theorem not_walked_smallFile : ¬∀ s : Stream, s.Walked := by
  intro h
  obtain ⟨header, hok, -⟩ := h smallFile
  have hrefused : readHeader smallFile.toBytes = .error .refused := by decide +kernel
  rw [hok] at hrefused
  cases hrefused

end PureOS.Jpeg
