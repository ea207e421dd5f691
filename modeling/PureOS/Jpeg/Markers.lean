import PureOS.Foundation.Parse
import PureOS.Jpeg.Huffman

set_option autoImplicit false

/-!
# Jpeg: the markers of a file (`jpeg.rs`)

`decode_jpeg` goes from marker to marker and reads the tables and the frame header.  What comes
behind the markers is a parameter here, `scan`: nothing ever gets there, as will be seen.
Arithmetic that leaves its range counts as a panic.
-/

namespace PureOS.Jpeg

open PureOS.Foundation Parse

/-- `ZIGZAG`. -/
def zigzag : Vector (Fin 64) 64 :=
  #v[0, 1, 8, 16, 9, 2, 3, 10,
    17, 24, 32, 25, 18, 11, 4, 5,
    12, 19, 26, 33, 40, 48, 41, 34,
    27, 20, 13, 6, 7, 14, 21, 28,
    35, 42, 49, 56, 57, 50, 43, 36,
    29, 22, 15, 23, 30, 37, 44, 51,
    58, 59, 52, 45, 38, 31, 39, 46,
    53, 60, 61, 54, 47, 55, 62, 63]

theorem zigzag_lt (i : Fin 64) : (zigzag[i]).val < 64 := (zigzag[i]).isLt

/-- What `decode_jpeg` has read.  `visited` is not in the source: it keeps the markers that were
found, each with the place behind it. -/
structure Header where
  pos : Nat
  width : Nat
  height : Nat
  numComponents : Nat
  compId : Vector UInt8 3
  compH : Vector UInt8 3
  compV : Vector UInt8 3
  compTq : Vector UInt8 3
  compTd : Vector UInt8 3
  compTa : Vector UInt8 3
  quantTables : Vector (Vector Nat 64) 4
  quantPresent : Vector Bool 4
  dcTables : Vector HuffTable 4
  acTables : Vector HuffTable 4
  scanStart : Nat
  visited : List (UInt8 × Nat)
  deriving DecidableEq

/-- Behind the marker at the start of the file. -/
def Header.start : Header where
  pos := 2
  width := 0
  height := 0
  numComponents := 0
  compId := .replicate 3 0
  compH := .replicate 3 1
  compV := .replicate 3 1
  compTq := .replicate 3 0
  compTd := .replicate 3 0
  compTa := .replicate 3 0
  quantTables := .replicate 4 (.replicate 64 0)
  quantPresent := .replicate 4 false
  dcTables := .replicate 4 .empty
  acTables := .replicate 4 .empty
  scanStart := 0
  visited := []

section

variable (data : List UInt8)

/-- The length of the segment at a place, when the segment lies inside the data. -/
def segLen (pos : Nat) : Parse Nat :=
  if pos + 1 > data.length then refuse
  else do
    let len ← be16 data pos
    if pos + len > data.length then refuse else return len

/-- The arms of `decode_jpeg` that skip a segment: `pos += seg_len - 2`. -/
def skipSegment (h : Header) : Parse Header := do
  let len ← segLen data h.pos
  let n ← sub len 2
  return { h with pos := h.pos + n }

/-- The loop over the 64 values of a table of one byte each. -/
def readQuant8 : List (Fin 64) → Nat → Vector Nat 64 → Parse (Nat × Vector Nat 64)
  | [], pos, qvals => .ok (pos, qvals)
  | i :: rest, pos, qvals =>
      if pos ≥ data.length then refuse
      else do
        let b ← byteAt data pos
        readQuant8 rest (pos + 1) (qvals.set zigzag[i] b.toNat)

/-- The loop over the 64 values of a table of two bytes each. -/
def readQuant16 : List (Fin 64) → Nat → Vector Nat 64 → Parse (Nat × Vector Nat 64)
  | [], pos, qvals => .ok (pos, qvals)
  | i :: rest, pos, qvals =>
      if pos + 1 ≥ data.length then refuse
      else do
        let v ← be16 data pos
        readQuant16 rest (pos + 2) (qvals.set zigzag[i] v)

/-- A quantization table. -/
def readQuantTable (h : Header) : Parse Header :=
  if h.pos ≥ data.length then refuse
  else do
    let info ← byteAt data h.pos
    let prec := info.toNat / 16
    let tqi := info.toNat % 16
    if htqi : tqi < 4 then
      let (pos, qvals) ←
        if prec = 0 then readQuant8 data (List.finRange 64) (h.pos + 1) (.replicate 64 0)
        else readQuant16 data (List.finRange 64) (h.pos + 1) (.replicate 64 0)
      return { h with
        pos := pos
        quantTables := h.quantTables.set tqi qvals
        quantPresent := h.quantPresent.set tqi true }
    else refuse

/-- The loop over the counts of a Huffman table. -/
def readCounts : List (Fin 16) → Nat → Vector UInt8 16 → Parse (Nat × Vector UInt8 16)
  | [], pos, bits => .ok (pos, bits)
  | i :: rest, pos, bits =>
      if pos ≥ data.length then refuse
      else do
        let b ← byteAt data pos
        readCounts rest (pos + 1) (bits.set i b (lt_sixteen i))

/-- The loop over the symbols of a Huffman table. -/
def readSymbols : Nat → Nat → List UInt8 → Parse (Nat × List UInt8)
  | 0, pos, symbols => .ok (pos, symbols)
  | n + 1, pos, symbols =>
      if pos ≥ data.length then refuse
      else do
        let b ← byteAt data pos
        readSymbols n (pos + 1) (symbols ++ [b])

/-- A Huffman table. -/
def readHuffTable (h : Header) : Parse Header :=
  if h.pos ≥ data.length then refuse
  else do
    let info ← byteAt data h.pos
    let isAc := info.toNat / 16
    let tableId := info.toNat % 16
    if hid : tableId < 4 then
      let (pos, bits) ← readCounts data (List.finRange 16) (h.pos + 1) (.replicate 16 0)
      let numSymbols := (bits.toList.map UInt8.toNat).sum
      let (pos, symbols) ← readSymbols data (min numSymbols 256) pos []
      -- The symbols are followed by zeros, up to 256 of them.
      let values := symbols ++ .replicate (256 - symbols.length) 0
      if isAc = 0 then
        return { h with
          pos := pos
          dcTables := h.dcTables.set tableId (h.dcTables[tableId].fillFromBits bits values) }
      else
        return { h with
          pos := pos
          acTables := h.acTables.set tableId (h.acTables[tableId].fillFromBits bits values) }
    else refuse

/-- The loop of a segment with tables: `while pos < end`. -/
def readTables (table : Header → Parse Header) (stop : Nat) : Nat → Header → Parse Header
  | 0, _ => .error (.fault .fuel)
  | n + 1, h =>
      if h.pos < stop then do
        let h ← table h
        readTables table stop n h
      else .ok h

/-- The arms for the quantization tables and the Huffman tables. -/
def tablesSegment (table : Header → Parse Header) (h : Header) : Parse Header := do
  let len ← segLen data h.pos
  readTables table (h.pos + len) (data.length + 1) { h with pos := h.pos + 2 }

/-- The loop of the frame header over the components. -/
def readComponents (pos : Nat) : List (Fin 3) → Header → Parse Header
  | [], h => .ok h
  | i :: rest, h => do
      let base := pos + 8 + i.val * 3
      let id ← byteAt data base
      let hv ← byteAt data (base + 1)
      let tq ← byteAt data (base + 2)
      let h :=
        { h with
          compId := h.compId.set i id
          compH := h.compH.set i (UInt8.ofNat (hv.toNat / 16))
          compV := h.compV.set i (UInt8.ofNat (hv.toNat % 16))
          compTq := h.compTq.set i tq }
      if hv.toNat / 16 = 0 ∨ hv.toNat % 16 = 0 then refuse
      else if htq : tq.toNat < 4 then
        if !h.quantPresent[tq.toNat] then refuse else readComponents pos rest h
      else refuse

/-- The arm for the frame header. -/
def frameSegment (h : Header) : Parse Header := do
  let pos := h.pos
  let len ← segLen data pos
  if len < 6 then refuse
  else
    let precision ← byteAt data (pos + 2)
    if precision ≠ 8 then refuse
    else
      let height ← be16 data (pos + 3)
      let width ← be16 data (pos + 5)
      let numComponents ← byteAt data (pos + 7)
      if numComponents ≠ 3 then refuse
      else if len < 8 + 3 * 3 then refuse
      else
        let h ← readComponents data pos (List.finRange 3)
          { h with height := height, width := width, numComponents := 3 }
        let n ← sub len 2
        return { h with pos := pos + n }

/-- The inner loop of the scan header: the tables of a component. -/
def selectTables (base : Nat) : List (Fin 3) → Header → Parse Header
  | [], h => .ok h
  | j :: rest, h => do
      let id ← byteAt data base
      if id = h.compId[j] then
        let tables ← byteAt data (base + 1)
        selectTables base rest
          { h with
            compTd := h.compTd.set j (UInt8.ofNat (tables.toNat / 16))
            compTa := h.compTa.set j (UInt8.ofNat (tables.toNat % 16)) }
      else selectTables base rest h

/-- The outer loop of the scan header. -/
def selectAll (pos : Nat) : List Nat → Header → Parse Header
  | [], h => .ok h
  | i :: rest, h => do
      let h ← selectTables data (pos + 3 + i * 2)
        ((List.finRange 3).filter fun j => j.val < h.numComponents) h
      selectAll pos rest h

/-- The arm for the scan header.  The scan begins at `pos + seg_len - 2`, and the loop over the
markers is to end. -/
def scanSegment (h : Header) : Parse Header := do
  let pos := h.pos
  let len ← segLen data pos
  let n ← byteAt data (pos + 2)
  if n.toNat ≠ h.numComponents then refuse
  else
    let h ← selectAll data pos (List.range n.toNat) h
    let spectralStart ← byteAt data (pos + 3 + n.toNat * 2)
    let spectralEnd ← byteAt data (pos + 4 + n.toNat * 2)
    let approx ← byteAt data (pos + 5 + n.toNat * 2)
    if spectralStart ≠ 0 ∨ spectralEnd ≠ 63 ∨ approx ≠ 0 then refuse
    else return { h with scanStart := pos + len - 2, pos := data.length }

/-- The arms of the match over the markers. -/
inductive Kind where
  /-- A marker without a segment. -/
  | alone
  /-- The end of the image. -/
  | eoi
  /-- A segment that is skipped. -/
  | skip
  | dqt
  | sof0
  | dht
  | sos
  deriving DecidableEq

/-- The arm of a marker. -/
def kindOf (marker : UInt8) : Kind :=
  if marker = 0xD8 then .alone
  else if marker = 0xD9 then .eoi
  else if marker = 0x00 then .alone
  else if 0xD0 ≤ marker ∧ marker ≤ 0xD7 then .alone
  else if marker = 0xDB then .dqt
  else if marker = 0xC0 then .sof0
  else if marker = 0xC4 then .dht
  else if marker = 0xDA then .sos
  -- The application segments, the comments and the unknown ones.
  else .skip

/-- An arm of the match, and whether the loop goes on. -/
def arm (h : Header) : Kind → Parse (Bool × Header)
  | .alone => .ok (true, h)
  | .eoi => .ok (false, h)
  | .skip => (skipSegment data h).map (true, ·)
  | .dqt => (tablesSegment data (readQuantTable data) h).map (true, ·)
  | .sof0 => (frameSegment data h).map (true, ·)
  | .dht => (tablesSegment data (readHuffTable data) h).map (true, ·)
  | .sos => (scanSegment data h).map (true, ·)

/-- A turn of the loop over the markers, and whether the loop goes on. -/
def turn (h : Header) : Parse (Bool × Header) :=
  if h.pos + 1 > data.length then refuse
  else do
    let b ← byteAt data h.pos
    if b ≠ 0xFF then
      if h.pos ≥ data.length - 1 then return (false, h)
      else return (true, { h with pos := h.pos + 1 })
    else if h.pos + 1 ≥ data.length then refuse
    else
      let marker ← byteAt data (h.pos + 1)
      arm data
        { h with pos := h.pos + 2, visited := h.visited ++ [(marker, h.pos + 2)] } (kindOf marker)

/-- The loop over the markers. -/
def markers : Nat → Header → Parse Header
  | 0, _ => .error (.fault .fuel)
  | n + 1, h => do
      let (again, h) ← turn data h
      if again then markers n h else return h

/-- The part of `decode_jpeg` up to the scan. -/
def readHeader : Parse Header :=
  if data.length < 4 then refuse
  else do
    let b₀ ← byteAt data 0
    let b₁ ← byteAt data 1
    if b₀ ≠ 0xFF ∨ b₁ ≠ 0xD8 then refuse
    else
      let h ← markers data (data.length + 1) .start
      if h.width = 0 ∨ h.height = 0 ∨ h.scanStart = 0 then refuse else return h

/-- `decode_jpeg`. -/
def decodeJpeg (scan : Header → Parse Bool) : Except Fault Bool :=
  match readHeader data >>= scan with
  | .ok b => .ok b
  | .error .refused => .ok false
  | .error (.fault f) => .error f

end

end PureOS.Jpeg
