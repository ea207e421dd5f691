import Mathlib.Data.Fintype.EquivFin
import Mathlib.Data.List.Forall2
import PureOS.Foundation.Profile
import PureOS.Jpeg.Entropy
import PureOS.Jpeg.Stream

set_option autoImplicit false

/-!
# Jpeg: the blocks of a scan (`jpeg.rs`)

The loops of `decode_jpeg` that decode the blocks, hand them to the inverse transform and draw the
units.  The coefficients stay in the order of the scan, while the entries of the quantization
tables are in the natural order, and a restart marker does not reset the prediction.  What comes
between two blocks may panic, and then the later ones are not handed over: a transform whose
arithmetic leaves 32 bits, a place in `comp_buf` that it has no room for, and the drawing of a
unit, which looks for a point of a subsampled component behind the 64 pixels of its block.  The
colours that are drawn are left out.
-/

namespace PureOS.Jpeg

open PureOS.Foundation Parse

/-! ## The code -/

/-- What the reader returns, in the decoder. -/
def lift {α : Type} : Except Fault α → Parse α
  | .ok a => .ok a
  | .error f => .error (.fault f)

/-- The entry of a table of four, by a byte of the header. -/
def pick {α : Type} (tables : Vector α 4) (i : UInt8) : Parse α :=
  match tables[i.toNat]? with
  | some t => .ok t
  | none => panic

/-- The sign of a value that was read as `size` bits. -/
def extend (size bits : Nat) : Int :=
  if (bits >>> (size - 1)) &&& 1 = 0 then bits - (2 ^ size - 1) else bits

/-- The difference of a DC coefficient. -/
def decodeDc (t : HuffTable) (r : BitReader) : Parse (Int × BitReader) := do
  let (cat, r) ← lift (t.decode r)
  if cat.toNat > 11 then refuse
  else if cat.toNat > 0 then
    let (bits, r) ← lift (r.readBits cat.toNat)
    return (extend cat.toNat bits, r)
  else return (0, r)

/-- The loop over the AC coefficients from number `k` on. -/
def decodeAc (t : HuffTable) :
    Nat → Nat → Vector Int 64 → BitReader → Parse (Vector Int 64 × BitReader)
  | 0, _, _, _ => .error (.fault .fuel)
  | n + 1, k, coeff, r =>
      if k < 64 then do
        let (sym, r) ← lift (t.decode r)
        if sym = 0 then return (coeff, r)
        else
          let run := sym.toNat / 16
          let size := sym.toNat % 16
          if size = 0 then decodeAc t n (k + 16) coeff r
          else if hk : k + run < 64 then
            let (bits, r) ← lift (r.readBits size)
            decodeAc t n (k + run + 1) (coeff.set (k + run) (extend size bits)) r
          else return (coeff, r)
      else .ok (coeff, r)

theorem place_lt (i : Fin 64) : i.val < 64 := i.isLt

theorem comp_lt (ci : Fin 3) : ci.val < 3 := ci.isLt

/-- The products with the entries of the quantization table, place by place. -/
def dequantize (coeff : Vector Int 64) (qt : Vector Nat 64) : Parse (Vector Int 64) :=
  let product := Vector.ofFn fun i : Fin 64 =>
    getElem coeff i.val (place_lt i) * (getElem qt i.val (place_lt i) : Int)
  if ∀ v ∈ product.toList, InI32 v then .ok product else panic

/-- The reader, and the predictions of the components. -/
structure ScanState where
  reader : BitReader
  dcPred : Vector Int 3

/-- A block of a component, as it is handed to `idct_2d`. -/
def decodeBlock (h : Header) (ci : Fin 3) (s : ScanState) :
    Parse (Vector Int 64 × ScanState) := do
  let dc ← pick h.dcTables (getElem h.compTd ci.val (comp_lt ci))
  let (diff, r) ← decodeDc dc s.reader
  let pred := getElem s.dcPred ci.val (comp_lt ci) + diff
  if ¬InI32 pred then panic
  else
    let ac ← pick h.acTables (getElem h.compTa ci.val (comp_lt ci))
    let (coeff, r) ← decodeAc ac 64 1 ((Vector.replicate 64 0).set 0 pred) r
    let qt ← pick h.quantTables (getElem h.compTq ci.val (comp_lt ci))
    let coeff ← dequantize coeff qt
    return (coeff, ⟨r, s.dcPred.set ci.val pred (comp_lt ci)⟩)

/-- `COS128`. -/
def cos128 : Vector Int 32 := #v[
  128, 126, 118, 106, 91, 71, 49, 25, 0, -25, -49, -71, -91, -106, -118, -126,
  -128, -126, -118, -106, -91, -71, -49, -25, 0, 25, 49, 71, 91, 106, 118, 126]

/-- `M0`. -/
def m0 : Int := 91

/-- `idct_1d_row`. -/
def idct1dRow (coeff : Vector Int 8) : Except Fault (Vector Int 8) :=
  Vector.ofFnM fun i : Fin 8 => do
    let first ← Profile.checked.mulI coeff[0] m0
    let sum ← (List.finRange 7).foldlM (fun sum k => do
      let term ← Profile.checked.mulI (coeff.get k.succ)
        (getElem cos128 ((2 * i.val + 1) * (k.val + 1) % 32) (Nat.mod_lt _ (by decide)))
      Profile.checked.addI sum term) first
    return sum.tdiv 256

/-- `idct_2d`: the rows, then the columns. -/
def idct2d (block : Vector Int 64) : Except Fault (Vector Int 64) := do
  let tmp ← Vector.ofFnM fun y : Fin 8 =>
    idct1dRow (.ofFn fun x : Fin 8 => getElem block (y.val * 8 + x.val) (by omega))
  let columns ← Vector.ofFnM fun x : Fin 8 => idct1dRow (.ofFn fun y : Fin 8 => (tmp.get y).get x)
  return .ofFn fun i : Fin 64 =>
    let val := (columns.get ⟨i.val % 8, by omega⟩).get ⟨i.val / 8, by omega⟩ + 128
    if val < 0 then 0 else if val > 255 then 255 else val

/-- `comp_buf[ci][bi] = idct_2d(&coeff)`: there is room for four blocks of a component. -/
def store (bi : Nat) (coeff : Vector Int 64) : Parse Unit := do
  let _ ← lift (idct2d coeff)
  if bi < 4 then return () else panic

/-- The places of the blocks of a component: `bi = by * h + bx`. -/
def blockIndices (h : Header) (ci : Fin 3) : List Nat :=
  let across := (getElem h.compH ci.val (comp_lt ci)).toNat
  let down := (getElem h.compV ci.val (comp_lt ci)).toNat
  (List.range down).flatMap fun row => (List.range across).map fun column => row * across + column

/-- The components of the frame. -/
def components (h : Header) : List (Fin 3) :=
  (List.finRange 3).filter fun ci => decide (ci.val < h.numComponents)

/-- The largest of the three factors. -/
def maxFactor (factors : Vector UInt8 3) : Nat :=
  max (max factors[0].toNat factors[1].toNat) factors[2].toNat

/-- The number of units in a length of the image. -/
def mcusAlong (length factor : Nat) : Nat := (length + 8 * factor - 1) / (8 * factor)

/-- The number of units of the image. -/
def mcuCount (h : Header) : Nat :=
  mcusAlong h.height (maxFactor h.compV) * mcusAlong h.width (maxFactor h.compH)

/-- The size of the framebuffer. -/
structure Screen where
  width : Nat
  height : Nat

/-- The pixel of a component at a point of a unit is in `comp_buf`: no divisor is zero, and
neither `bi` nor `pi` is out of range. -/
def InCompBuf (h : Header) (ci : Fin 3) (xOff yOff : Nat) : Prop :=
  let across := (getElem h.compH ci.val (comp_lt ci)).toNat
  let down := (getElem h.compV ci.val (comp_lt ci)).toNat
  let blkW := 8 * maxFactor h.compH / across
  let blkH := 8 * maxFactor h.compV / down
  0 < across ∧ 0 < down ∧
    min (yOff / blkH) (down - 1) * across + min (xOff / blkW) (across - 1) < 4 ∧
    yOff % blkH * 8 + xOff % blkW < 64

instance (h : Header) (ci : Fin 3) (xOff yOff : Nat) : Decidable (InCompBuf h ci xOff yOff) :=
  inferInstanceAs (Decidable (_ ∧ _))

/-- The drawing of a unit finds every pixel: those of the points that are on the screen and on the
image. -/
def drawsInside (h : Header) (screen : Screen) (mcuX mcuY : Nat) : Bool :=
  (List.range (8 * maxFactor h.compV)).all fun yOff =>
    (List.range (8 * maxFactor h.compH)).all fun xOff =>
      let absY := mcuY * (8 * maxFactor h.compV) + yOff
      let absX := mcuX * (8 * maxFactor h.compH) + xOff
      decide (screen.height ≤ absY ∨ h.height ≤ absY) ||
        decide (screen.width ≤ absX ∨ h.width ≤ absX) ||
          (components h).all fun ci => decide (InCompBuf h ci xOff yOff)

/-- What the loops come to: a block of a component, with its place in `comp_buf`, and the drawing
of a unit. -/
inductive Task where
  | block (ci : Fin 3) (bi : Nat)
  | draw (mcuX mcuY : Nat)

/-- A unit: the blocks of all components, and its drawing. -/
def mcuTasks (h : Header) (mcuX mcuY : Nat) : List Task :=
  (components h).flatMap (fun ci => (blockIndices h ci).map (.block ci)) ++ [.draw mcuX mcuY]

/-- The units row by row. -/
def tasks (h : Header) : List Task :=
  (List.range (mcusAlong h.height (maxFactor h.compV))).flatMap fun mcuY =>
    (List.range (mcusAlong h.width (maxFactor h.compH))).flatMap fun mcuX => mcuTasks h mcuX mcuY

/-- Carry out tasks one after the other: the blocks that are handed to `idct_2d`, up to the end or
to the failure that the result is. -/
def runTasks (h : Header) (screen : Screen) :
    List Task → ScanState → List (Vector Int 64) × Parse ScanState
  | [], s => ([], .ok s)
  | .block ci bi :: rest, s =>
      match decodeBlock h ci s with
      | .error stop => ([], .error stop)
      | .ok (coeff, s) =>
          match store bi coeff with
          | .error stop => ([coeff], .error stop)
          | .ok _ => (coeff :: (runTasks h screen rest s).1, (runTasks h screen rest s).2)
  | .draw mcuX mcuY :: rest, s =>
      if drawsInside h screen mcuX mcuY then runTasks h screen rest s else ([], panic)

/-- The scan: without a factor the number of the units is not defined. -/
def decodeScan (h : Header) (screen : Screen) (data : List UInt8) :
    List (Vector Int 64) × Parse ScanState :=
  if maxFactor h.compH = 0 ∨ maxFactor h.compV = 0 then ([], panic)
  else runTasks h screen (tasks h) ⟨.new (data.drop h.scanStart), .replicate 3 0⟩

/-! ## Coded blocks -/

/-- The number of bits of a magnitude. -/
def category (v : Int) : Nat := if v = 0 then 0 else v.natAbs.log2 + 1

/-- The bits of a value: a negative one has those of its distance from the least one. -/
def magnitude (v : Int) : List Bool :=
  msbBits (category v) (if 0 < v then v else v + (2 ^ category v - 1)).toNat

/-- The table has a word for a symbol: it is found in front of any bits. -/
def HuffTable.Codes (t : HuffTable) (w : List Bool) (symbol : UInt8) : Prop :=
  ∀ post, t.lookup (List.finRange 16) 0 (w ++ post) = some (symbol, post)

/-- The code of a difference: the word of its category and its bits. -/
def DcCode (t : HuffTable) (diff : Int) (bits : List Bool) : Prop :=
  ∃ w, t.Codes w (UInt8.ofNat (category diff)) ∧ category diff ≤ 11 ∧ bits = w ++ magnitude diff

/-- The code of the coefficients from number `k` on. -/
inductive AcCode (t : HuffTable) (c : Nat → Int) : Nat → List Bool → Prop
  /-- The last coefficient has been coded. -/
  | full : AcCode t c 64 []
  /-- The end of the block: all others are zero. -/
  | eob {k : Nat} {w : List Bool} (hk : k < 64) (hzero : ∀ j, k ≤ j → j < 64 → c j = 0)
      (hw : t.Codes w 0x00) : AcCode t c k w
  /-- Sixteen zeros. -/
  | zrl {k : Nat} {w bits : List Bool} (hk : k + 16 ≤ 64)
      (hzero : ∀ j, k ≤ j → j < k + 16 → c j = 0) (hw : t.Codes w 0xF0)
      (rest : AcCode t c (k + 16) bits) : AcCode t c k (w ++ bits)
  /-- Some zeros and a value. -/
  | value {k run : Nat} {w bits : List Bool} (hrun : run < 16) (hk : k + run < 64)
      (hzero : ∀ j, k ≤ j → j < k + run → c j = 0) (hne : c (k + run) ≠ 0)
      (hsize : category (c (k + run)) < 16)
      (hw : t.Codes w (UInt8.ofNat (run * 16 + category (c (k + run)))))
      (rest : AcCode t c (k + run + 1) bits) :
      AcCode t c k (w ++ (magnitude (c (k + run)) ++ bits))

/-- A block: its component, the difference of its DC coefficient, its other coefficients in the
order of the scan, and its bits. -/
structure CodedBlock where
  comp : Fin 3
  diff : Int
  ac : Nat → Int
  bits : List Bool

/-- The place of coefficient number `k` in the natural order. -/
def naturalPlace (k : Fin 64) : Fin 64 := getElem zigzag k.val (place_lt k)

/-- The tables of the component have the code of a block. -/
structure BlockCode (h : Header) (b : CodedBlock) : Prop where
  codes : ∃ dc ac front back,
    h.dcTables[(getElem h.compTd b.comp.val b.comp.isLt).toNat]? = some dc ∧
    h.acTables[(getElem h.compTa b.comp.val b.comp.isLt).toNat]? = some ac ∧
    DcCode dc b.diff front ∧ AcCode ac b.ac 1 back ∧ b.bits = front ++ back

/-- The coefficients of a block, when the DC coefficient before it is `pred`. -/
def CodedBlock.coeff (b : CodedBlock) (pred : Int) (k : Nat) : Int :=
  if k = 0 then pred + b.diff else b.ac k

/-- The DC coefficients of the components behind a block. -/
def CodedBlock.after (b : CodedBlock) (pred : Fin 3 → Int) (ci : Fin 3) : Int :=
  if ci = b.comp then pred ci + b.diff else pred ci

/-- The coefficients of blocks, each with its component. -/
def coefficients : (Fin 3 → Int) → List CodedBlock → List (Fin 3 × (Nat → Int))
  | _, [] => []
  | pred, b :: rest => (b.comp, b.coeff (pred b.comp)) :: coefficients (b.after pred) rest

/-- The DC coefficients behind blocks. -/
def predAfter (pred : Fin 3 → Int) (blocks : List CodedBlock) : Fin 3 → Int :=
  blocks.foldl (fun pred b => b.after pred) pred

/-- The blocks between two restart markers.  Their bits are filled up with ones. -/
structure Interval where
  blocks : List CodedBlock
  bytes : List UInt8
  pad : Nat
  padLt : pad < 8
  packed : BitReader.bitsOf bytes = blocks.flatMap CodedBlock.bits ++ List.replicate pad true
  /-- The marker behind it, unless it is the last one. -/
  marker : Fin 8

/-- The coded data of a scan. -/
def scanItems : List Interval → List CodedItem
  | [] => []
  | [i] => i.bytes.map .byte
  | i :: j :: rest => i.bytes.map .byte ++ .restart i.marker :: scanItems (j :: rest)

/-- The coefficients of a scan: behind a restart marker the predictions are zero again. -/
def scanCoefficients (intervals : List Interval) : List (Fin 3 × (Nat → Int)) :=
  intervals.flatMap fun i => coefficients (fun _ => 0) i.blocks

/-- The number of blocks of a component in a unit. -/
def blocksPerMcu (h : Header) (ci : Fin 3) : Nat :=
  (getElem h.compV ci.val (comp_lt ci)).toNat * (getElem h.compH ci.val (comp_lt ci)).toNat

/-- The components of the blocks of a unit. -/
def mcuPattern (h : Header) : List (Fin 3) :=
  (List.finRange 3).flatMap fun ci => List.replicate (blocksPerMcu h ci) ci

/-- A baseline scan behind a frame header: `q` are the quantization tables of the components in
the order of the file. -/
structure ScanOf (h : Header) (q : Fin 3 → Entries) (intervals : List Interval)
    (data : List UInt8) : Prop where
  three : h.numComponents = 3
  size : 0 < h.width ∧ 0 < h.height
  factors : ∀ ci : Fin 3, 0 < (getElem h.compH ci.val ci.isLt).toNat ∧
    0 < (getElem h.compV ci.val ci.isLt).toNat
  quant : ∀ ci : Fin 3, ∃ qt, h.quantTables[(getElem h.compTq ci.val ci.isLt).toNat]? = some qt ∧
    ∀ k : Fin 64, getElem qt (naturalPlace k).val (naturalPlace k).isLt = (q ci).get k
  coded : ∀ i ∈ intervals, ∀ b ∈ i.blocks, BlockCode h b
  order : (intervals.flatMap Interval.blocks).map CodedBlock.comp =
    (List.replicate (mcuCount h) (mcuPattern h)).flatten
  range : ∀ c ∈ scanCoefficients intervals, ∀ k < 64, (c.2 k).natAbs < 2 ^ 15
  data : ∃ tail, Apart tail ∧ data.drop h.scanStart = codedBytes (scanItems intervals) ++ tail

/-- Every block is handed over with the product of a coefficient and its entry at the place of
the coefficient in the natural order. -/
def HandedOver (h : Header) (screen : Screen) (q : Fin 3 → Entries) (intervals : List Interval)
    (data : List UInt8) : Prop :=
  List.Forall₂ (fun (c : Fin 3 × (Nat → Int)) (block : Vector Int 64) => ∀ k : Fin 64,
    getElem block (naturalPlace k).val (naturalPlace k).isLt =
      c.2 k.val * ((q c.1).get k : Int)) (scanCoefficients intervals) (decodeScan h screen data).1

/-- The tasks that a block comes after. -/
def beforeLast : List Task → List Task
  | [] => []
  | t :: rest =>
      if rest.any fun t => t matches .block _ _ then t :: beforeLast rest else []

/-- The entries of the table of a component, by their places. -/
def entriesOf (h : Header) (ci : Fin 3) : Vector Nat 64 :=
  (h.quantTables[(getElem h.compTq ci.val (comp_lt ci)).toNat]?).getD (.replicate 64 0)

/-- A block as the code hands it over: the products at the places of the scan. -/
def product (h : Header) (c : Fin 3 × (Nat → Int)) : Vector Int 64 :=
  .ofFn fun i => c.2 i.val * (getElem (entriesOf h c.1) i.val (place_lt i) : Int)

/-- What the code does before it hands over the last block fails nowhere: no block is out of the
room for its component, no point that is drawn is behind the pixels of its block, and no transform
leaves its range. -/
structure Survives (h : Header) (screen : Screen) (intervals : List Interval) : Prop where
  room : ∀ ci bi, Task.block ci bi ∈ beforeLast (tasks h) → bi < 4
  inside : ∀ mcuX mcuY, Task.draw mcuX mcuY ∈ beforeLast (tasks h) →
    drawsInside h screen mcuX mcuY = true
  transforms : ∀ c ∈ (scanCoefficients intervals).dropLast, ∃ pixels,
    idct2d (product h c) = .ok pixels

/-- Every coefficient is the one whose number is its place in the natural order, unless its
entry is zero. -/
def Unscrambled (q : Fin 3 → Entries) (intervals : List Interval) : Prop :=
  ∀ c ∈ scanCoefficients intervals, ∀ k : Fin 64,
    c.2 (naturalPlace k).val = c.2 k.val ∨ (q c.1).get k = 0

/-- No restart marker is noticed: the bits in front of it fill their bytes, and the predictions
are zero. -/
def Steady : List Interval → Prop
  | [] => True
  | [_] => True
  | i :: j :: rest =>
      i.pad = 0 ∧ predAfter (fun _ => 0) i.blocks = (fun _ => 0) ∧ Steady (j :: rest)

/-! ## Magnitudes -/

theorem category_bounds {v : Int} (h : v ≠ 0) :
    ∃ n, category v = n + 1 ∧ 2 ^ n ≤ v.natAbs ∧ v.natAbs < 2 ^ (n + 1) := by
  refine ⟨v.natAbs.log2, if_neg h, ?_, ?_⟩
  · exact Nat.log2_self_le (Int.natAbs_ne_zero.mpr h)
  · exact Nat.lt_log2_self

theorem category_eq_zero {v : Int} : category v = 0 ↔ v = 0 := by
  constructor
  · intro h
    by_contra hne
    obtain ⟨n, hn, -⟩ := category_bounds hne
    omega
  · rintro rfl
    rfl

theorem length_magnitude (v : Int) : (magnitude v).length = category v := length_msbBits _ _

/-- The value comes back from its bits. -/
theorem extend_magnitude {v : Int} (h : v ≠ 0) :
    extend (category v) (bitsVal (magnitude v)) = v := by
  obtain ⟨n, hn, hlow, hhigh⟩ := category_bounds h
  rw [magnitude, bitsVal_msbBits, hn, extend, Nat.add_sub_cancel, Nat.shiftRight_eq_div_pow,
    Nat.and_one_is_mod]
  have hpow : 2 ^ (n + 1) = 2 * 2 ^ n := by rw [Nat.pow_succ, Nat.mul_comm]
  have hpos : 0 < 2 ^ n := Nat.two_pow_pos n
  have hcast : ((2 : Int) ^ (n + 1)) = ((2 ^ (n + 1) : Nat) : Int) := by
    rw [Int.natCast_pow]
    rfl
  rw [hcast, hpow]
  rw [hpow] at hhigh
  generalize 2 ^ n = m at hlow hhigh hpos
  by_cases hv : 0 < v
  · have hu : (if 0 < v then v else v + ((2 * m : Nat) - 1)).toNat = v.natAbs := by
      rw [if_pos hv]
      omega
    have hdiv : v.natAbs / m = 1 := Nat.div_eq_of_lt_le (by omega) (by omega)
    rw [hu, Nat.mod_eq_of_lt hhigh, hdiv, if_neg (by decide)]
    omega
  · have hu : (if 0 < v then v else v + ((2 * m : Nat) - 1)).toNat = 2 * m - 1 - v.natAbs := by
      rw [if_neg hv]
      omega
    have hmod : (2 * m - 1 - v.natAbs) % (2 * m) = 2 * m - 1 - v.natAbs :=
      Nat.mod_eq_of_lt (by omega)
    have hdiv : (2 * m - 1 - v.natAbs) / m = 0 := Nat.div_eq_of_lt (by omega)
    rw [hu, hmod, hdiv, if_pos rfl]
    omega

theorem decode_codes {t : HuffTable} {w post : List Bool} {symbol : UInt8} {r : BitReader}
    (h : t.Codes w symbol) (hwf : r.WellFormed) (hstream : r.stream = w ++ post) :
    ∃ r', lift (t.decode r) = .ok (symbol, r') ∧ r'.WellFormed ∧ r'.stream = post := by
  have hlookup := h post
  rw [← hstream] at hlookup
  obtain ⟨r', hdecode, hwf', hstream'⟩ := decode_of_lookup hwf hlookup
  exact ⟨r', by rw [hdecode]; rfl, hwf', hstream'⟩

theorem read_magnitude {v : Int} {post : List Bool} {r : BitReader} (hsize : category v ≤ 25)
    (hwf : r.WellFormed) (hstream : r.stream = magnitude v ++ post) :
    ∃ r', lift (r.readBits (category v)) = .ok (bitsVal (magnitude v), r') ∧ r'.WellFormed ∧
      r'.stream = post := by
  obtain ⟨r', hread, hwf', hstream'⟩ := BitReader.readBits_ok hwf
    (by rw [length_magnitude]; exact hsize) hstream
  rw [length_magnitude] at hread
  exact ⟨r', by rw [hread]; rfl, hwf', hstream'⟩

/-! ## A block is decoded -/

theorem decodeDc_code {t : HuffTable} {diff : Int} {bits post : List Bool} {r : BitReader}
    (h : DcCode t diff bits) (hwf : r.WellFormed) (hstream : r.stream = bits ++ post) :
    ∃ r', decodeDc t r = .ok (diff, r') ∧ r'.WellFormed ∧ r'.stream = post := by
  obtain ⟨w, hw, hle, rfl⟩ := h
  rw [List.append_assoc] at hstream
  obtain ⟨r₁, hdecode, hwf₁, hstream₁⟩ := decode_codes hw hwf hstream
  have hcat : (UInt8.ofNat (category diff)).toNat = category diff := by
    rw [UInt8.toNat_ofNat', Nat.mod_eq_of_lt (by omega)]
  rw [decodeDc, hdecode, Parse.bind_ok]
  dsimp only
  rw [hcat, if_neg (by omega)]
  by_cases hzero : diff = 0
  · subst hzero
    exact ⟨r₁, rfl, hwf₁, hstream₁⟩
  · have hpos : category diff > 0 := Nat.pos_of_ne_zero fun h => hzero (category_eq_zero.mp h)
    obtain ⟨r', hread, hwf', hstream'⟩ := read_magnitude (by omega) hwf₁ hstream₁
    refine ⟨r', ?_, hwf', hstream'⟩
    rw [if_pos hpos, hread, Parse.bind_ok]
    dsimp only
    rw [extend_magnitude hzero]
    rfl

/-- The coefficients from number `k` on are decoded, and the others stay. -/
theorem decodeAc_code {t : HuffTable} {c : Nat → Int} {k n : Nat} {bits post : List Bool}
    {r : BitReader} {coeff : Vector Int 64} (h : AcCode t c k bits) (hwf : r.WellFormed)
    (hstream : r.stream = bits ++ post) (hn : 64 < n + k)
    (hzero : ∀ j (hj : j < 64), k ≤ j → coeff[j] = 0) :
    ∃ coeff' r', decodeAc t n k coeff r = .ok (coeff', r') ∧ r'.WellFormed ∧ r'.stream = post ∧
      ∀ j (hj : j < 64), coeff'[j] = if j < k then coeff[j] else c j := by
  induction h generalizing n r coeff with
  | full =>
      obtain ⟨n, rfl⟩ : ∃ m, n = m + 1 := ⟨n - 1, by omega⟩
      refine ⟨coeff, r, ?_, hwf, hstream, fun j hj => (if_pos hj).symm⟩
      rw [decodeAc, if_neg (by omega)]
  | @eob k w hk hend hw =>
      obtain ⟨n, rfl⟩ : ∃ m, n = m + 1 := ⟨n - 1, by omega⟩
      obtain ⟨r', hdecode, hwf', hstream'⟩ := decode_codes hw hwf hstream
      refine ⟨coeff, r', ?_, hwf', hstream', fun j hj => ?_⟩
      · rw [decodeAc, if_pos hk, hdecode]
        rfl
      · by_cases hlt : j < k
        · rw [if_pos hlt]
        · rw [if_neg hlt, hzero j hj (by omega), hend j (by omega) hj]
  | @zrl k w bits hk hend hw _ ih =>
      obtain ⟨n, rfl⟩ : ∃ m, n = m + 1 := ⟨n - 1, by omega⟩
      rw [List.append_assoc] at hstream
      obtain ⟨r₁, hdecode, hwf₁, hstream₁⟩ := decode_codes hw hwf hstream
      obtain ⟨coeff', r', hrest, hwf', hstream', hget⟩ := @ih n r₁ coeff
        hwf₁ hstream₁ (by omega) fun j hj hle => hzero j hj (by omega)
      refine ⟨coeff', r', ?_, hwf', hstream', fun j hj => ?_⟩
      · rw [decodeAc, if_pos (by omega), hdecode, Parse.bind_ok]
        exact hrest
      · rw [hget j hj]
        by_cases hlt : j < k
        · rw [if_pos (by omega), if_pos hlt]
        · rw [if_neg hlt]
          split
          · rw [hzero j hj (by omega), hend j (by omega) (by omega)]
          · rfl
  | @value k run w bits hrun hk hend hne hsize hw _ ih =>
      obtain ⟨n, rfl⟩ : ∃ m, n = m + 1 := ⟨n - 1, by omega⟩
      rw [List.append_assoc, List.append_assoc] at hstream
      obtain ⟨r₁, hdecode, hwf₁, hstream₁⟩ := decode_codes hw hwf hstream
      obtain ⟨r₂, hread, hwf₂, hstream₂⟩ := read_magnitude (by omega) hwf₁ hstream₁
      have hpos : 0 < category (c (k + run)) :=
        Nat.pos_of_ne_zero fun h => hne (category_eq_zero.mp h)
      have hsym : (UInt8.ofNat (run * 16 + category (c (k + run)))).toNat =
          run * 16 + category (c (k + run)) := by
        rw [UInt8.toNat_ofNat', Nat.mod_eq_of_lt (by omega)]
      have hnonzero : UInt8.ofNat (run * 16 + category (c (k + run))) ≠ 0 := fun h => by
        rw [h] at hsym
        have : (0 : UInt8).toNat = 0 := rfl
        omega
      have hrunOf : (run * 16 + category (c (k + run))) / 16 = run := by omega
      have hsizeOf : (run * 16 + category (c (k + run))) % 16 = category (c (k + run)) := by omega
      obtain ⟨coeff', r', hrest, hwf', hstream', hget⟩ := @ih n r₂
        (coeff.set (k + run) (c (k + run))) hwf₂ hstream₂ (by omega) fun j hj hle => by
          rw [Vector.getElem_set_ne _ _ (by omega)]
          exact hzero j hj (by omega)
      refine ⟨coeff', r', ?_, hwf', hstream', fun j hj => ?_⟩
      · rw [decodeAc, if_pos (by omega), hdecode, Parse.bind_ok]
        dsimp only
        rw [if_neg hnonzero]
        simp only [hsym, hrunOf, hsizeOf]
        rw [if_neg (by omega), dif_pos hk, hread, Parse.bind_ok]
        dsimp only
        rw [extend_magnitude hne]
        exact hrest
      · rw [hget j hj]
        by_cases hlt : j < k + run + 1
        · rw [if_pos hlt]
          by_cases heq : k + run = j
          · subst heq
            rw [Vector.getElem_set_self, if_neg (by omega)]
          · rw [Vector.getElem_set_ne _ _ heq]
            by_cases hlow : j < k
            · rw [if_pos hlow]
            · rw [if_neg hlow, hzero j hj (by omega), hend j (by omega) (by omega)]
        · rw [if_neg hlt, if_neg (by omega)]

section

variable {h : Header} {q : Fin 3 → Entries} {s : ScanState} {b : CodedBlock}
  {blocks : List CodedBlock} {post : List Bool} {pred : Fin 3 → Int}

theorem entriesOf_eq {ci : Fin 3} {qt : Vector Nat 64}
    (hqt : h.quantTables[(getElem h.compTq ci.val ci.isLt).toNat]? = some qt) :
    entriesOf h ci = qt := by
  rw [entriesOf, hqt]
  rfl

theorem product_get {c : Fin 3 × (Nat → Int)} {qt : Vector Nat 64}
    (hqt : h.quantTables[(getElem h.compTq c.1.val c.1.isLt).toNat]? = some qt) (i : Nat)
    (hi : i < 64) : (product h c)[i] = c.2 i * ((qt[i] : Nat) : Int) := by
  rw [product, Vector.getElem_ofFn]
  simp only [entriesOf_eq hqt]

theorem pick_ok {α : Type} {tables : Vector α 4} {i : UInt8} {t : α}
    (h : tables[i.toNat]? = some t) : pick tables i = .ok t := by
  rw [pick, h]

/-- Coefficients of 15 bits do not leave the range with any entry. -/
theorem fits_product {c : Int} {e : Nat} (hc : c.natAbs < 2 ^ 15) (he : e < 2 ^ 16) :
    InI32 (c * (e : Int)) := by
  have habs : (c * (e : Int)).natAbs ≤ (2 ^ 15 - 1) * (2 ^ 16 - 1) := by
    rw [Int.natAbs_mul, Int.natAbs_natCast]
    exact Nat.mul_le_mul (by omega) (by omega)
  unfold InI32
  omega

theorem Entries.get_lt (e : Entries) (k : Fin 64) : e.get k < 2 ^ 16 := by
  cases e with
  | bytes entries => exact (UInt8.toNat_lt _).trans (by decide)
  | words entries => exact UInt16.toNat_lt _

theorem naturalPlace_surjective : ∀ i : Fin 64, ∃ k : Fin 64, naturalPlace k = i := by
  decide +kernel

theorem dequantize_ok {coeff : Vector Int 64} {qt : Vector Nat 64}
    (hfits : ∀ i (hi : i < 64), InI32 (coeff[i] * ((qt[i] : Nat) : Int))) :
    ∃ block, dequantize coeff qt = .ok block ∧
      ∀ i (hi : i < 64), block[i] = coeff[i] * ((qt[i] : Nat) : Int) := by
  have hall : ∀ v ∈ (Vector.ofFn fun i : Fin 64 =>
      getElem coeff i.val i.isLt * (getElem qt i.val i.isLt : Int)).toList, InI32 v := by
    intro v hv
    obtain ⟨i, hi, rfl⟩ := List.getElem_of_mem hv
    have hlt : i < 64 := by rwa [Vector.length_toList] at hi
    rw [Vector.getElem_toList, Vector.getElem_ofFn]
    exact hfits i hlt
  refine ⟨Vector.ofFn fun i : Fin 64 =>
    getElem coeff i.val i.isLt * (getElem qt i.val i.isLt : Int), ?_, fun i hi => ?_⟩
  · rw [dequantize, if_pos hall]
  · rw [Vector.getElem_ofFn]

theorem decodeBlock_code (hcode : BlockCode h b) (hwf : s.reader.WellFormed)
    (hstream : s.reader.stream = b.bits ++ post) {p : Int}
    (hp : getElem s.dcPred b.comp.val b.comp.isLt = p)
    {qt : Vector Nat 64}
    (hqt : h.quantTables[(getElem h.compTq b.comp.val b.comp.isLt).toNat]? = some qt)
    (hentries : ∀ i (hi : i < 64), qt[i] < 2 ^ 16)
    (hrange : ∀ k < 64, (b.coeff p k).natAbs < 2 ^ 15) :
    ∃ s', decodeBlock h b.comp s = .ok (product h (b.comp, b.coeff p), s') ∧
      s'.reader.WellFormed ∧ s'.reader.stream = post ∧
      s'.dcPred = s.dcPred.set b.comp.val (p + b.diff) b.comp.isLt := by
  obtain ⟨dc, ac, front, back, hdc, hac, hdiff, hcoeff, hbits⟩ := hcode.codes
  rw [hbits, List.append_assoc] at hstream
  obtain ⟨r₁, hread₁, hwf₁, hstream₁⟩ := decodeDc_code hdiff hwf hstream
  have hdcRange : (p + b.diff).natAbs < 2 ^ 15 := hrange 0 (by decide)
  have hfits : InI32 (p + b.diff) := by
    unfold InI32
    omega
  obtain ⟨coeff, r₂, hread₂, hwf₂, hstream₂, hget⟩ := @decodeAc_code _ _ _ 64 _ _ _
    ((Vector.replicate 64 0).set 0 (p + b.diff)) hcoeff hwf₁ hstream₁ (by decide)
    fun j hj hle => by
      rw [Vector.getElem_set_ne _ _ (by omega), Vector.getElem_replicate]
  have hcoeffs : ∀ i (hi : i < 64), coeff[i] = b.coeff p i := by
    intro i hi
    rw [hget i hi, CodedBlock.coeff]
    by_cases hzero : i = 0
    · subst hzero
      rw [if_pos (by decide), if_pos rfl, Vector.getElem_set_self]
    · rw [if_neg (by omega), if_neg hzero]
  obtain ⟨block, hblock, hproduct⟩ := @dequantize_ok coeff qt fun i hi => by
    rw [hcoeffs i hi]
    exact fits_product (hrange i hi) (hentries i hi)
  have hsame : block = product h (b.comp, b.coeff p) := by
    apply Vector.ext
    intro i hi
    rw [hproduct i hi, hcoeffs i hi, product_get (c := (b.comp, b.coeff p)) hqt i hi]
  refine ⟨⟨r₂, s.dcPred.set b.comp.val (p + b.diff) b.comp.isLt⟩, ?_, hwf₂, hstream₂, rfl⟩
  rw [decodeBlock, pick_ok hdc, Parse.bind_ok, hread₁, Parse.bind_ok]
  dsimp only
  rw [hp, if_neg (not_not_intro hfits), pick_ok hac, Parse.bind_ok, hread₂, Parse.bind_ok]
  dsimp only
  rw [pick_ok hqt, Parse.bind_ok, hblock, hsame]
  rfl

/-- The entries of the quantization tables are numbers of 16 bits. -/
def TablesFit (h : Header) : Prop :=
  ∀ ci : Fin 3, ∃ qt, h.quantTables[(getElem h.compTq ci.val (comp_lt ci)).toNat]? = some qt ∧
    ∀ i (hi : i < 64), qt[i] < 2 ^ 16

/-! ## The drawing -/

theorem drawsInside_iff {screen : Screen} {mcuX mcuY : Nat} :
    drawsInside h screen mcuX mcuY = true ↔
      ∀ yOff, yOff < 8 * maxFactor h.compV → ∀ xOff, xOff < 8 * maxFactor h.compH →
        mcuY * (8 * maxFactor h.compV) + yOff < min screen.height h.height →
        mcuX * (8 * maxFactor h.compH) + xOff < min screen.width h.width →
        ∀ ci ∈ components h, InCompBuf h ci xOff yOff := by
  simp only [drawsInside, List.all_eq_true, List.mem_range, Bool.or_eq_true, decide_eq_true_eq,
    lt_min_iff, ← not_lt]
  refine forall₂_congr fun yOff _ => forall₂_congr fun xOff _ => ?_
  tauto

/-- Without a subsampled component every point that is drawn has its pixel. -/
theorem drawsInside_of_full (hwidth : 0 < maxFactor h.compH) (hheight : 0 < maxFactor h.compV)
    (hfour : maxFactor h.compV * maxFactor h.compH ≤ 4)
    (hfull : ∀ ci ∈ components h, (getElem h.compH ci.val (comp_lt ci)).toNat = maxFactor h.compH ∧
      (getElem h.compV ci.val (comp_lt ci)).toNat = maxFactor h.compV)
    (screen : Screen) (mcuX mcuY : Nat) : drawsInside h screen mcuX mcuY = true := by
  refine drawsInside_iff.mpr fun yOff hy xOff hx _ _ ci hci => ?_
  obtain ⟨hacross, hdown⟩ := hfull ci hci
  unfold InCompBuf
  dsimp only
  rw [hacross, hdown, Nat.mul_div_cancel _ hwidth, Nat.mul_div_cancel _ hheight]
  refine ⟨hwidth, hheight, ?_, by omega⟩
  have hrow : min (yOff / 8) (maxFactor h.compV - 1) + 1 ≤ maxFactor h.compV := by omega
  have hrows := Nat.mul_le_mul_right (maxFactor h.compH) hrow
  rw [Nat.succ_mul] at hrows
  omega

/-- A component with one row of blocks, beside one with more, has no pixel for the ninth row of
points. -/
theorem not_drawsInside_of_subsampled {ci : Fin 3} (hci : ci ∈ components h)
    (hdown : (getElem h.compV ci.val (comp_lt ci)).toNat = 1) (hmore : 2 ≤ maxFactor h.compV)
    (hwidth : 0 < maxFactor h.compH) {screen : Screen} {mcuX mcuY : Nat}
    (hrow : mcuY * (8 * maxFactor h.compV) + 8 < min screen.height h.height)
    (hcolumn : mcuX * (8 * maxFactor h.compH) < min screen.width h.width) :
    drawsInside h screen mcuX mcuY = false := by
  rw [Bool.eq_false_iff, Ne, drawsInside_iff]
  intro hall
  have hpixel := hall 8 (by omega) 0 (by omega) hrow (by rwa [Nat.add_zero]) ci hci
  obtain ⟨-, -, -, hlt⟩ := hpixel
  rw [hdown, Nat.div_one, Nat.mod_eq_of_lt (by omega)] at hlt
  omega

/-! ## The loops -/

/-- The component of the block that a task decodes. -/
def Task.comp : Task → Option (Fin 3)
  | .block ci _ => some ci
  | .draw _ _ => none

theorem store_eq_ok {bi : Nat} {block : Vector Int 64} :
    store bi block = .ok () ↔ bi < 4 ∧ ∃ pixels, idct2d block = .ok pixels := by
  rw [store]
  cases idct2d block with
  | error f =>
      constructor
      · intro h
        cases h
      · rintro ⟨-, pixels, h⟩
        cases h
  | ok pixels =>
      rw [lift, Parse.bind_ok]
      by_cases hbi : bi < 4
      · rw [if_pos hbi]
        exact ⟨fun _ => ⟨hbi, pixels, rfl⟩, fun _ => rfl⟩
      · rw [if_neg hbi]
        constructor
        · intro h
          cases h
        · intro h
          exact absurd h.1 hbi

/-- Every task that a block comes after passes, where these are the blocks. -/
def Passes (h : Header) (screen : Screen) : List Task → List (Vector Int 64) → Prop
  | [], _ => True
  | .block _ _ :: rest, [] => Passes h screen rest []
  | .block _ bi :: rest, block :: handed =>
      (handed ≠ [] → store bi block = .ok ()) ∧ Passes h screen rest handed
  | .draw mcuX mcuY :: rest, handed =>
      (handed ≠ [] → drawsInside h screen mcuX mcuY = true) ∧ Passes h screen rest handed

theorem passes_nil (screen : Screen) (ts : List Task) : Passes h screen ts [] := by
  induction ts with
  | nil => trivial
  | cons t rest ih =>
      cases t with
      | block ci bi => exact ih
      | draw mcuX mcuY => exact ⟨fun hne => absurd rfl hne, ih⟩

theorem filterMap_block (ci : Fin 3) (bi : Nat) (rest : List Task) :
    (Task.block ci bi :: rest).filterMap Task.comp = ci :: rest.filterMap Task.comp := rfl

/-- A block is still to come exactly if something is still to be handed over. -/
theorem any_block_eq {ts : List Task} {handed : List (Vector Int 64)}
    (hlen : handed.length = (ts.filterMap Task.comp).length) :
    (ts.any fun t => t matches .block _ _) = !handed.isEmpty := by
  induction ts with
  | nil =>
      obtain rfl : handed = [] := List.length_eq_zero_iff.mp hlen
      rfl
  | cons t rest ih =>
      cases t with
      | block ci bi =>
          obtain ⟨block, handed, rfl⟩ := List.exists_cons_of_length_eq_add_one hlen
          rfl
      | draw mcuX mcuY => exact ih hlen

theorem beforeLast_nil {ts : List Task} (hnone : ts.filterMap Task.comp = []) :
    beforeLast ts = [] := by
  have hlen : ([] : List (Vector Int 64)).length = (ts.filterMap Task.comp).length := by
    rw [hnone]
    rfl
  cases ts with
  | nil => rfl
  | cons t rest =>
      cases t with
      | block ci bi => cases hnone
      | draw mcuX mcuY =>
          rw [beforeLast, @any_block_eq rest _ hlen]
          exact if_neg (by simp)

/-- That every task passes which a block comes after, task by task. -/
theorem passes_iff {screen : Screen} {ts : List Task} {handed : List (Vector Int 64)}
    (hlen : handed.length = (ts.filterMap Task.comp).length) :
    Passes h screen ts handed ↔
      (∀ ci bi, Task.block ci bi ∈ beforeLast ts → bi < 4) ∧
      (∀ mcuX mcuY, Task.draw mcuX mcuY ∈ beforeLast ts →
        drawsInside h screen mcuX mcuY = true) ∧
      ∀ block ∈ handed.dropLast, ∃ pixels, idct2d block = .ok pixels := by
  induction ts generalizing handed with
  | nil =>
      obtain rfl : handed = [] := List.length_eq_zero_iff.mp hlen
      simp [Passes, beforeLast]
  | cons t rest ih =>
      cases t with
      | block ci bi =>
          rw [filterMap_block, List.length_cons] at hlen
          obtain ⟨block, handed, rfl⟩ := List.exists_cons_of_length_eq_add_one hlen
          have hrest : handed.length = (rest.filterMap Task.comp).length := Nat.succ.inj hlen
          rw [Passes, ih hrest, beforeLast, any_block_eq hrest, store_eq_ok]
          cases handed with
          | nil => simp [List.length_eq_zero_iff.mp hrest.symm, beforeLast_nil]
          | cons next handed =>
              rw [List.dropLast_cons_cons]
              simp only [List.isEmpty_cons, Bool.not_false, if_true, List.mem_cons,
                Task.block.injEq, reduceCtorEq, false_or]
              constructor
              · rintro ⟨hstore, hroom, hinside, hfits⟩
                obtain ⟨hbi, hpixels⟩ := hstore (List.cons_ne_nil _ _)
                refine ⟨?_, hinside, ?_⟩
                · rintro ci' bi' (⟨rfl, rfl⟩ | hmem)
                  · exact hbi
                  · exact hroom ci' bi' hmem
                · rintro block' (rfl | hmem)
                  · exact hpixels
                  · exact hfits block' hmem
              · rintro ⟨hroom, hinside, hfits⟩
                exact ⟨fun _ => ⟨hroom ci bi (Or.inl ⟨rfl, rfl⟩), hfits block (Or.inl rfl)⟩,
                  fun ci' bi' hmem => hroom ci' bi' (Or.inr hmem), hinside,
                  fun block' hmem => hfits block' (Or.inr hmem)⟩
      | draw mcuX mcuY =>
          have hrest : handed.length = (rest.filterMap Task.comp).length := hlen
          rw [Passes, ih hrest, beforeLast, any_block_eq hrest]
          cases handed with
          | nil => simp [List.length_eq_zero_iff.mp hrest.symm, beforeLast_nil]
          | cons next handed =>
              simp only [List.isEmpty_cons, Bool.not_false, if_true, List.mem_cons,
                Task.draw.injEq, reduceCtorEq, false_or]
              constructor
              · rintro ⟨hdraw, hroom, hinside, hfits⟩
                refine ⟨hroom, ?_, hfits⟩
                rintro x y (⟨rfl, rfl⟩ | hmem)
                · exact hdraw (List.cons_ne_nil _ _)
                · exact hinside x y hmem
              · rintro ⟨hroom, hinside, hfits⟩
                exact ⟨fun _ => hinside mcuX mcuY (Or.inl ⟨rfl, rfl⟩), hroom,
                  fun x y hmem => hinside x y (Or.inr hmem), hfits⟩

/-- Tasks are carried out one after the other, with predictions that go on.  The products of the
blocks are handed over up to a task that does not pass. -/
theorem runTasks_blocks {screen : Screen} {ts : List Task}
    (hts : ts.filterMap Task.comp = blocks.map CodedBlock.comp)
    (hcode : ∀ b ∈ blocks, BlockCode h b) (htables : TablesFit h)
    (hwf : s.reader.WellFormed)
    (hstream : s.reader.stream = blocks.flatMap CodedBlock.bits ++ post)
    (hpred : ∀ ci : Fin 3, getElem s.dcPred ci.val ci.isLt = pred ci)
    (hrange : ∀ c ∈ coefficients pred blocks, ∀ k < 64, (c.2 k).natAbs < 2 ^ 15) :
    (runTasks h screen ts s).1 <+: (coefficients pred blocks).map (product h) ∧
      ((runTasks h screen ts s).1 = (coefficients pred blocks).map (product h) ↔
        Passes h screen ts ((coefficients pred blocks).map (product h))) := by
  induction ts generalizing blocks s pred with
  | nil =>
      obtain rfl : blocks = [] := List.map_eq_nil_iff.mp hts.symm
      exact ⟨List.nil_prefix, fun _ => trivial, fun _ => rfl⟩
  | cons t rest ih =>
      cases t with
      | draw mcuX mcuY =>
          rw [runTasks]
          split
          · rename_i hinside
            obtain ⟨hbegins, hiff⟩ := ih hts hcode hwf hstream hpred hrange
            refine ⟨hbegins, hiff.trans ?_⟩
            rw [Passes]
            exact ⟨fun hpass => ⟨fun _ => hinside, hpass⟩, fun hpass => hpass.2⟩
          · rename_i houtside
            refine ⟨List.nil_prefix, ?_⟩
            rw [Passes]
            constructor
            · intro hnone
              rw [← hnone]
              exact ⟨fun hne => absurd rfl hne, passes_nil screen rest⟩
            · intro hpass
              by_contra hne
              exact houtside (hpass.1 fun hnone => hne hnone.symm)
      | block ci bi =>
          rw [filterMap_block] at hts
          obtain ⟨b, blocks, rfl, hcomp, hrest⟩ := List.map_eq_cons_iff.mp hts.symm
          subst hcomp
          rw [List.flatMap_cons, List.append_assoc] at hstream
          rw [coefficients] at hrange ⊢
          obtain ⟨qt, hqt, hentries⟩ := htables b.comp
          obtain ⟨s₁, hblock, hwf₁, hstream₁, hset⟩ :=
            decodeBlock_code (hcode b List.mem_cons_self) hwf hstream (hpred b.comp) hqt hentries
              (hrange _ List.mem_cons_self)
          have hpred₁ : ∀ ci : Fin 3, getElem s₁.dcPred ci.val ci.isLt = b.after pred ci := by
            intro ci
            rw [CodedBlock.after]
            by_cases hci : ci = b.comp
            · subst hci
              rw [if_pos rfl]
              simp only [hset, Vector.getElem_set_self]
            · have hne : b.comp.val ≠ ci.val := fun heq => hci (Fin.ext heq.symm)
              rw [if_neg hci, ← hpred ci]
              simp only [hset, Vector.getElem_set_ne _ _ hne]
          obtain ⟨hbegins, hiff⟩ := ih hrest.symm
            (fun b' hb' => hcode b' (List.mem_cons_of_mem b hb')) hwf₁ hstream₁ hpred₁
            fun c hc => hrange c (List.mem_cons_of_mem _ hc)
          rw [List.map_cons, Passes, runTasks, hblock]
          dsimp only
          cases hstore : store bi (product h (b.comp, b.coeff (pred b.comp))) with
          | ok u =>
              dsimp only
              refine ⟨List.cons_prefix_cons.mpr ⟨rfl, hbegins⟩, ?_⟩
              rw [List.cons_inj_right, hiff]
              exact ⟨fun hpass => ⟨fun _ => rfl, hpass⟩, fun hpass => hpass.2⟩
          | error stop =>
              dsimp only
              refine ⟨List.cons_prefix_cons.mpr ⟨rfl, List.nil_prefix⟩, ?_⟩
              rw [List.cons_inj_right]
              constructor
              · intro hnone
                rw [← hnone]
                exact ⟨fun hne => absurd rfl hne, passes_nil screen rest⟩
              · intro hpass
                by_contra hne
                cases hpass.1 fun hnone => hne hnone.symm

theorem length_blockIndices (ci : Fin 3) : (blockIndices h ci).length = blocksPerMcu h ci := by
  rw [blockIndices, blocksPerMcu]
  simp [List.length_flatMap, Nat.mul_comm]

theorem components_eq (hthree : h.numComponents = 3) : components h = List.finRange 3 := by
  rw [components, hthree]
  rfl

/-- The blocks of a unit come component by component. -/
theorem comp_mcuTasks (hthree : h.numComponents = 3) (mcuX mcuY : Nat) :
    (mcuTasks h mcuX mcuY).filterMap Task.comp = mcuPattern h := by
  have hcomp : ∀ ci : Fin 3, ((blockIndices h ci).map (Task.block ci)).filterMap Task.comp =
      List.replicate (blocksPerMcu h ci) ci := by
    intro ci
    rw [List.filterMap_map, ← length_blockIndices, ← List.map_const', ← List.filterMap_eq_map]
    rfl
  rw [mcuTasks, components_eq hthree, List.filterMap_append, mcuPattern, List.filterMap_flatMap]
  simp [hcomp, Task.comp]

theorem comp_tasks (hthree : h.numComponents = 3) :
    (tasks h).filterMap Task.comp = (List.replicate (mcuCount h) (mcuPattern h)).flatten := by
  have hconst : ∀ (l : List Nat) (p : List (Fin 3)),
      l.flatMap (fun _ => p) = (List.replicate l.length p).flatten := by
    intro l p
    rw [List.flatMap_def, List.map_const']
  rw [tasks, List.filterMap_flatMap]
  simp only [List.filterMap_flatMap, comp_mcuTasks hthree, hconst, List.length_range]
  rw [mcuCount]
  induction mcusAlong h.height (maxFactor h.compV) with
  | zero =>
      rw [Nat.zero_mul]
      rfl
  | succ n ih =>
      rw [List.replicate_succ, List.flatten_cons, ih, Nat.succ_mul, Nat.add_comm,
        List.replicate_add, List.flatten_append]

end

section

variable {data tail : List UInt8} {pos : Nat} {h : Header}

/-! ## Quantization tables -/

/-- Entries at the places of the natural order. -/
def placed (f : Fin 64 → Nat) (is : List (Fin 64)) (qvals : Vector Nat 64) : Vector Nat 64 :=
  is.foldl (fun qvals i => qvals.set (naturalPlace i).val (f i) (naturalPlace i).isLt) qvals

theorem naturalPlace_injective (i j : Fin 64) (h : naturalPlace i = naturalPlace j) : i = j :=
  Finite.injective_iff_surjective.mpr naturalPlace_surjective h

theorem placed_of_not_mem (f : Fin 64 → Nat) {is : List (Fin 64)} (qvals : Vector Nat 64)
    {k : Fin 64} (hk : k ∉ is) :
    getElem (placed f is qvals) (naturalPlace k).val (naturalPlace k).isLt =
      getElem qvals (naturalPlace k).val (naturalPlace k).isLt := by
  induction is generalizing qvals with
  | nil => rfl
  | cons i is ih =>
      obtain ⟨hne, hrest⟩ := List.ne_and_not_mem_of_not_mem_cons hk
      rw [placed, List.foldl_cons, ← placed, ih _ hrest]
      refine Vector.getElem_set_ne _ _ fun heq => hne ?_
      exact (naturalPlace_injective i k (Fin.ext heq)).symm

/-- The k-th entry is at the k-th place. -/
theorem placed_of_mem (f : Fin 64 → Nat) {is : List (Fin 64)} (hnodup : is.Nodup)
    (qvals : Vector Nat 64) {k : Fin 64} (hk : k ∈ is) :
    getElem (placed f is qvals) (naturalPlace k).val (naturalPlace k).isLt = f k := by
  induction is generalizing qvals with
  | nil => cases hk
  | cons i is ih =>
      obtain ⟨hnot, hnodup⟩ := List.nodup_cons.mp hnodup
      rw [placed, List.foldl_cons, ← placed]
      rcases List.mem_cons.mp hk with rfl | hk
      · rw [placed_of_not_mem f _ hnot]
        exact Vector.getElem_set_self _
      · exact ih hnodup _ hk

theorem readQuant8_placed (f : Fin 64 → UInt8) {is : List (Fin 64)} {qvals : Vector Nat 64}
    (hdata : data.drop pos = is.map f ++ tail) :
    readQuant8 data is pos qvals =
      .ok (pos + is.length, placed (fun i => (f i).toNat) is qvals) := by
  induction is generalizing pos qvals with
  | nil => rfl
  | cons i is ih =>
      rw [List.map_cons, List.cons_append] at hdata
      have hlt : pos < data.length := by
        have hlen := congrArg List.length hdata
        rw [List.length_drop, List.length_cons] at hlen
        omega
      rw [List.drop_eq_getElem_cons hlt] at hdata
      obtain ⟨hbyte, hrest⟩ := List.cons.inj hdata
      rw [readQuant8, if_neg (by omega), byteAt_ok hlt, Parse.bind_ok, ih hrest, hbyte,
        List.length_cons, Nat.add_assoc, Nat.add_comm 1]
      rfl

theorem readQuant16_placed (f : Fin 64 → UInt16) {is : List (Fin 64)} {qvals : Vector Nat 64}
    (hdata : data.drop pos = is.flatMap (fun i => bytes16 (f i).toNat) ++ tail) :
    readQuant16 data is pos qvals =
      .ok (pos + 2 * is.length, placed (fun i => (f i).toNat) is qvals) := by
  induction is generalizing pos qvals with
  | nil => rfl
  | cons i is ih =>
      rw [List.flatMap_cons, List.append_assoc, bytes16, List.cons_append, List.cons_append,
        List.nil_append] at hdata
      have hlt : pos + 1 < data.length := by
        have hlen := congrArg List.length hdata
        rw [List.length_drop, List.length_cons, List.length_cons] at hlen
        omega
      rw [List.drop_eq_getElem_cons (by omega), List.drop_eq_getElem_cons hlt] at hdata
      obtain ⟨hhigh, hdata⟩ := List.cons.inj hdata
      obtain ⟨hlow, hrest⟩ := List.cons.inj hdata
      have hword : be16 data pos = .ok (f i).toNat := by
        have hsmall := UInt16.toNat_lt (f i)
        rw [be16, byteAt_ok (by omega), byteAt_ok hlt, hhigh, hlow]
        change Except.ok ((UInt8.ofNat _).toNat * 256 + (UInt8.ofNat _).toNat) = _
        rw [UInt8.toNat_ofNat', UInt8.toNat_ofNat']
        exact congrArg Except.ok (by omega)
      have hpos : pos + 1 + 1 + 2 * is.length = pos + 2 * (i :: is).length := by
        rw [List.length_cons]
        omega
      rw [readQuant16, if_neg (by omega), hword, Parse.bind_ok, ih hrest, hpos]
      rfl

theorem toList_eq_map {α : Type} (entries : Vector α 64) :
    entries.toList = (List.finRange 64).map fun i => getElem entries i.val i.isLt := by
  apply List.ext_getElem <;> simp

/-- A quantization table is loaded with each entry at its place in the natural order. -/
theorem readQuantTable_loads (t : QuantTable) (hdata : data.drop h.pos = t.toBytes ++ tail) :
    ∃ qt : Vector Nat 64,
      readQuantTable data h = .ok { h with
        pos := h.pos + t.toBytes.length
        quantTables := h.quantTables.set t.id qt
        quantPresent := h.quantPresent.set t.id true } ∧
      ∀ k : Fin 64, getElem qt (naturalPlace k).val (naturalPlace k).isLt = t.entries.get k := by
  obtain ⟨id, entries⟩ := t
  have hnibble : ∀ high, high < 16 → (nibbles high id.val).toNat = high * 16 + id.val := by
    intro high hhigh
    rw [nibbles, UInt8.toNat_ofNat']
    omega
  have hid : ∀ high, (high * 16 + id.val) % 16 = id.val := by
    intro high
    omega
  have hlt : h.pos < data.length := by
    have hlen := congrArg List.length hdata
    rw [List.length_drop, List.length_append] at hlen
    cases entries <;> simp only [QuantTable.toBytes, List.length_cons] at hlen <;> omega
  rw [List.drop_eq_getElem_cons hlt] at hdata
  cases entries with
  | bytes entries =>
      obtain ⟨hbyte, hrest⟩ := List.cons.inj hdata
      rw [toList_eq_map entries] at hrest
      refine ⟨placed (Entries.bytes entries).get (List.finRange 64) (.replicate 64 0), ?_,
        fun k => placed_of_mem _ (List.nodup_finRange 64) _ (List.mem_finRange k)⟩
      rw [readQuantTable, if_neg (by omega), byteAt_ok hlt, Parse.bind_ok, hbyte]
      simp only [hnibble 0 (by decide), hid]
      rw [dif_pos id.isLt, if_pos (by omega), readQuant8_placed _ hrest, Parse.bind_ok]
      simp only [QuantTable.toBytes, List.length_cons, Vector.length_toList, List.length_finRange,
        Nat.add_assoc, Nat.add_comm 1]
      rfl
  | words entries =>
      obtain ⟨hbyte, hrest⟩ := List.cons.inj hdata
      have hlist : (entries.toList.flatMap fun e => bytes16 e.toNat) =
          (List.finRange 64).flatMap fun i => bytes16 (getElem entries i.val i.isLt).toNat := by
        rw [toList_eq_map entries, List.flatMap_map]
      have hlength : (entries.toList.flatMap fun e => bytes16 e.toNat).length = 128 := by
        rw [hlist]
        rfl
      rw [hlist] at hrest
      refine ⟨placed (Entries.words entries).get (List.finRange 64) (.replicate 64 0), ?_,
        fun k => placed_of_mem _ (List.nodup_finRange 64) _ (List.mem_finRange k)⟩
      rw [readQuantTable, if_neg (by omega), byteAt_ok hlt, Parse.bind_ok, hbyte]
      simp only [hnibble 1 (by decide), hid]
      rw [dif_pos id.isLt, if_neg (by omega), readQuant16_placed _ hrest, Parse.bind_ok]
      simp only [QuantTable.toBytes, List.length_cons, hlength, List.length_finRange,
        Nat.add_assoc, Nat.add_comm 1]
      rfl

end
section

variable {h : Header} {q : Fin 3 → Entries} {intervals : List Interval} {data : List UInt8}
  {blocks blocks' : List CodedBlock} {pred : Fin 3 → Int}

/-! ## Restart markers -/

theorem dataBytes_append (items items' : List CodedItem) :
    dataBytes (items ++ items') = dataBytes items ++ dataBytes items' := by
  induction items with
  | nil => rfl
  | cons item items ih =>
      cases item with
      | byte b => exact congrArg (b :: ·) ih
      | restart k => exact ih

theorem dataBytes_bytes (bytes : List UInt8) : dataBytes (bytes.map .byte) = bytes := by
  induction bytes with
  | nil => rfl
  | cons b bytes ih => exact congrArg (b :: ·) ih

theorem coefficients_append : coefficients pred (blocks ++ blocks') =
    coefficients pred blocks ++ coefficients (predAfter pred blocks) blocks' := by
  induction blocks generalizing pred with
  | nil => rfl
  | cons b blocks ih =>
      rw [List.cons_append, coefficients, coefficients, ih]
      rfl

theorem length_coefficients : (coefficients pred blocks).length = blocks.length := by
  induction blocks generalizing pred with
  | nil => rfl
  | cons b blocks ih => exact congrArg (· + 1) ih

/-- Without a marker that is noticed, the predictions of the code are those of the format. -/
theorem steady_coefficients (hsteady : Steady intervals) :
    coefficients (fun _ => 0) (intervals.flatMap Interval.blocks) =
      scanCoefficients intervals := by
  induction intervals with
  | nil => rfl
  | cons i rest ih =>
      rw [List.flatMap_cons, coefficients_append, scanCoefficients, List.flatMap_cons]
      cases rest with
      | nil => rfl
      | cons j rest =>
          obtain ⟨-, hzero, hrest⟩ := hsteady
          rw [hzero, ih hrest]
          rfl

/-- The bits of the blocks come one after the other. -/
theorem steady_bits (hsteady : Steady intervals) :
    ∃ n, BitReader.bitsOf (dataBytes (scanItems intervals)) =
      (intervals.flatMap Interval.blocks).flatMap CodedBlock.bits ++ List.replicate n true := by
  induction intervals with
  | nil => exact ⟨0, rfl⟩
  | cons i rest ih =>
      cases rest with
      | nil =>
          refine ⟨i.pad, ?_⟩
          rw [scanItems, dataBytes_bytes, i.packed, List.flatMap_singleton]
      | cons j rest =>
          obtain ⟨hpad, -, hrest⟩ := hsteady
          obtain ⟨n, hn⟩ := ih hrest
          refine ⟨n, ?_⟩
          have hpacked := i.packed
          rw [hpad, List.replicate_zero, List.append_nil] at hpacked
          have hsplit : (i :: j :: rest).flatMap Interval.blocks =
            i.blocks ++ (j :: rest).flatMap Interval.blocks := rfl
          rw [scanItems, dataBytes_append, dataBytes_bytes, dataBytes, BitReader.bitsOf_append,
            hpacked, hn, hsplit, List.flatMap_append, List.append_assoc]

/-! ## What is handed over -/

theorem ScanOf.tablesFit (hscan : ScanOf h q intervals data) : TablesFit h := by
  intro ci
  obtain ⟨qt, hqt, hentries⟩ := hscan.quant ci
  refine ⟨qt, hqt, fun i hi => ?_⟩
  obtain ⟨k, hk⟩ := naturalPlace_surjective ⟨i, hi⟩
  have hentry := hentries k
  simp only [hk] at hentry
  rw [hentry]
  exact (q ci).get_lt k

/-- A product is at its place exactly if the coefficient of this place is the same one. -/
theorem product_iff (hscan : ScanOf h q intervals data) (c : Fin 3 × (Nat → Int)) :
    (∀ k : Fin 64, getElem (product h c) (naturalPlace k).val (naturalPlace k).isLt =
        c.2 k.val * ((q c.1).get k : Int)) ↔
      ∀ k : Fin 64, c.2 (naturalPlace k).val = c.2 k.val ∨ (q c.1).get k = 0 := by
  obtain ⟨qt, hqt, hentries⟩ := hscan.quant c.1
  refine forall_congr' fun k => ?_
  rw [product_get hqt _ (naturalPlace k).isLt, hentries k, mul_eq_mul_right_iff,
    Int.natCast_eq_zero]

/-- What the code hands over: the products at the places of the scan, up to a failure. -/
theorem decodeScan_products (hscan : ScanOf h q intervals data) (hsteady : Steady intervals)
    (hplain : Plain (scanItems intervals)) (screen : Screen) :
    (decodeScan h screen data).1 <+: (scanCoefficients intervals).map (product h) ∧
      ((decodeScan h screen data).1 = (scanCoefficients intervals).map (product h) ↔
        Survives h screen intervals) := by
  obtain ⟨tail, hapart, hdata⟩ := hscan.data
  obtain ⟨n, hbits⟩ := steady_bits hsteady
  have hstream : (BitReader.new (data.drop h.scanStart)).stream =
      (intervals.flatMap Interval.blocks).flatMap CodedBlock.bits ++
        (List.replicate n true ++ BitReader.bitsOf (BitReader.payload tail)) := by
    rw [hdata, BitReader.stream_new, payload_of_plain hplain hapart, BitReader.bitsOf_append,
      hbits, List.append_assoc]
  have hcode : ∀ b ∈ intervals.flatMap Interval.blocks, BlockCode h b := by
    intro b hb
    obtain ⟨i, hi, hbi⟩ := List.mem_flatMap.mp hb
    exact hscan.coded i hi b hbi
  have hcomp : (tasks h).filterMap Task.comp =
      (intervals.flatMap Interval.blocks).map CodedBlock.comp := by
    rw [comp_tasks hscan.three, hscan.order]
  obtain ⟨hbegins, hiff⟩ := runTasks_blocks hcomp
    (s := ⟨.new (data.drop h.scanStart), .replicate 3 0⟩) hcode hscan.tablesFit
    (BitReader.new_wellFormed _) hstream
    (fun ci => Vector.getElem_replicate ci.isLt)
    (by rw [steady_coefficients hsteady]; exact hscan.range)
  have hlen : ((scanCoefficients intervals).map (product h)).length =
      ((tasks h).filterMap Task.comp).length := by
    rw [hcomp, ← steady_coefficients hsteady, List.length_map, List.length_map,
      length_coefficients]
  rw [steady_coefficients hsteady] at hbegins hiff
  obtain ⟨hacross, hdown⟩ := hscan.factors 0
  have hfactors : ¬(maxFactor h.compH = 0 ∨ maxFactor h.compV = 0) := by
    have hwidth : (getElem h.compH 0 (by decide)).toNat ≤ maxFactor h.compH :=
      (Nat.le_max_left _ _).trans (Nat.le_max_left _ _)
    have hheight : (getElem h.compV 0 (by decide)).toNat ≤ maxFactor h.compV :=
      (Nat.le_max_left _ _).trans (Nat.le_max_left _ _)
    have hacross' : 0 < (getElem h.compH 0 (by decide)).toNat := hacross
    have hdown' : 0 < (getElem h.compV 0 (by decide)).toNat := hdown
    omega
  rw [decodeScan, if_neg hfactors]
  refine ⟨hbegins, hiff.trans ((passes_iff hlen).trans ?_)⟩
  rw [← List.map_dropLast]
  simp only [List.forall_mem_map]
  exact ⟨fun ⟨hroom, hinside, hfits⟩ => ⟨hroom, hinside, hfits⟩,
    fun hsurvives => ⟨hsurvives.room, hsurvives.inside, hsurvives.transforms⟩⟩

/-- If every block is handed over at its place, none of the products is missing, and the order of
the coefficients makes no difference. -/
theorem products_of_handedOver (hscan : ScanOf h q intervals data) (hsteady : Steady intervals)
    (hplain : Plain (scanItems intervals)) {screen : Screen}
    (hover : HandedOver h screen q intervals data) :
    (decodeScan h screen data).1 = (scanCoefficients intervals).map (product h) ∧
      Unscrambled q intervals := by
  obtain ⟨hbegins, -⟩ := decodeScan_products hscan hsteady hplain screen
  have hall : (decodeScan h screen data).1 = (scanCoefficients intervals).map (product h) := by
    refine hbegins.eq_of_length ?_
    rw [List.length_map, hover.length_eq]
  rw [HandedOver, hall, List.forall₂_map_right_iff, List.forall₂_same] at hover
  exact ⟨hall, fun c hc => (product_iff hscan c).mp (hover c hc)⟩

/-- A scan whose restart markers need not be noticed, and whose bytes do not look like markers,
is handed over as the format says, exactly if nothing fails before the last block is handed over
and the order of the coefficients makes no difference. -/
theorem handedOver_iff (hscan : ScanOf h q intervals data) (hsteady : Steady intervals)
    (hplain : Plain (scanItems intervals)) (screen : Screen) :
    HandedOver h screen q intervals data ↔
      Survives h screen intervals ∧ Unscrambled q intervals := by
  obtain ⟨-, hiff⟩ := decodeScan_products hscan hsteady hplain screen
  constructor
  · intro hover
    obtain ⟨hall, hunscrambled⟩ := products_of_handedOver hscan hsteady hplain hover
    exact ⟨hiff.mp hall, hunscrambled⟩
  · rintro ⟨hsurvives, hunscrambled⟩
    rw [HandedOver, hiff.mpr hsurvives, List.forall₂_map_right_iff, List.forall₂_same]
    exact fun c hc => (product_iff hscan c).mpr (hunscrambled c hc)

end

/-! ## A scan that is handed over wrongly -/

/-- One word, of one bit, for no difference. -/
def dotDc : Spec where
  bits := oneWord.bits
  symbols := [0x00]

/-- A word for the end of a block, and one for a zero and a value of one bit. -/
def dotAc : Spec where
  bits := #v[1, 1, 0, 0, 0, 0, 0, 0, 0, 0, 0, 0, 0, 0, 0, 0]
  symbols := [0x00, 0x11]

/-- The header of an image of eight by eight points. -/
def dotHeader : Header :=
  { Header.start with
    width := 8
    height := 8
    numComponents := 3
    quantTables := .replicate 4 (.replicate 64 1)
    dcTables := .replicate 4 (HuffTable.empty.fillFromBits dotDc.bits dotDc.symbols)
    acTables := .replicate 4 (HuffTable.empty.fillFromBits dotAc.bits dotAc.symbols) }

/-- A block with nothing but its second coefficient. -/
def dotBlock : CodedBlock where
  comp := 0
  diff := 0
  ac := fun k => if k = 2 then 1 else 0
  bits := [false, true, false, true, false]

/-- A block of zeros. -/
def emptyBlock (ci : Fin 3) : CodedBlock where
  comp := ci
  diff := 0
  ac := fun _ => 0
  bits := [false, false]

/-- The blocks of the image, all of them between the same markers. -/
def dotInterval : Interval where
  blocks := [dotBlock, emptyBlock 1, emptyBlock 2]
  bytes := [0x50, 0x7F]
  pad := 7
  padLt := by decide
  packed := by decide
  marker := 0

/-- Tables of ones. -/
def ones : Fin 3 → Entries := fun _ => .bytes (.replicate 64 1)

theorem codes_of_word {s : Spec} (hv : s.Valid) {l : Fin 16} {i : Nat} {symbol : UInt8}
    (hword : s.IsWord l i symbol) (hgap : Canonical.NoGap s.count l) :
    (HuffTable.empty.fillFromBits s.bits s.symbols).Codes (Canonical.word s.count l i) symbol :=
  lookup_word hv (HuffTable.fillFromBits_filled hv _) hword hgap

theorem codes_dotDc :
    (HuffTable.empty.fillFromBits dotDc.bits dotDc.symbols).Codes [false] 0x00 :=
  codes_of_word (s := dotDc) (l := 0) (i := 0) (by decide)
    ⟨by decide, by decide, by decide⟩ fun g hg => absurd hg (Nat.not_lt_zero g)

theorem codes_dotAc_end :
    (HuffTable.empty.fillFromBits dotAc.bits dotAc.symbols).Codes [false] 0x00 :=
  codes_of_word (s := dotAc) (l := 0) (i := 0) (by decide)
    ⟨by decide, by decide, by decide⟩ fun g hg => absurd hg (Nat.not_lt_zero g)

theorem codes_dotAc_value :
    (HuffTable.empty.fillFromBits dotAc.bits dotAc.symbols).Codes [true, false] 0x11 :=
  codes_of_word (s := dotAc) (l := 1) (i := 0) (by decide)
    ⟨by decide, by decide, by decide⟩ fun g hg _ k hk => by
      have hg : g < 1 := hg
      omega

theorem blockCode_dotBlock : BlockCode dotHeader dotBlock := by
  refine ⟨_, _, [false], [true, false, true, false], rfl, rfl,
    ⟨[false], codes_dotDc, by decide, rfl⟩, ?_, rfl⟩
  refine @AcCode.value _ _ 1 1 [true, false] [false] (by decide) (by decide) ?_ (by decide)
    (by decide) codes_dotAc_value ?_
  · intro j hj hlt
    obtain rfl : j = 1 := by omega
    rfl
  · exact AcCode.eob (by decide) (fun j hj _ => if_neg (by omega)) codes_dotAc_end

/-- All components have the same tables. -/
theorem dotHeader_tables (ci : Fin 3) :
    dotHeader.dcTables[(getElem dotHeader.compTd ci.val ci.isLt).toNat]? =
        some (HuffTable.empty.fillFromBits dotDc.bits dotDc.symbols) ∧
      dotHeader.acTables[(getElem dotHeader.compTa ci.val ci.isLt).toNat]? =
        some (HuffTable.empty.fillFromBits dotAc.bits dotAc.symbols) := by
  have hindex : (getElem dotHeader.compTd ci.val ci.isLt).toNat < 4 ∧
      (getElem dotHeader.compTa ci.val ci.isLt).toNat < 4 := by
    revert ci
    decide
  exact ⟨Vector.getElem?_replicate.trans (if_pos hindex.1),
    Vector.getElem?_replicate.trans (if_pos hindex.2)⟩

theorem blockCode_emptyBlock (ci : Fin 3) : BlockCode dotHeader (emptyBlock ci) := by
  obtain ⟨hdc, hac⟩ := dotHeader_tables ci
  exact ⟨_, _, [false], [false], hdc, hac, ⟨[false], codes_dotDc, Nat.zero_le 11, rfl⟩,
    AcCode.eob (by decide) (fun j _ _ => rfl) codes_dotAc_end, rfl⟩

theorem scanOf_dot : ScanOf dotHeader ones [dotInterval] [0x50, 0x7F] where
  three := rfl
  size := ⟨by decide, by decide⟩
  factors := by decide
  quant ci := by
    have hindex : (getElem dotHeader.compTq ci.val ci.isLt).toNat < 4 := by
      revert ci
      decide
    have hone : ∀ k, (ones ci).get k = 1 := fun k =>
      congrArg UInt8.toNat (Vector.getElem_replicate k.isLt)
    refine ⟨.replicate 64 1, Vector.getElem?_replicate.trans (if_pos hindex), fun k => ?_⟩
    rw [Vector.getElem_replicate, hone]
  coded := by
    intro i hi b hb
    obtain rfl := List.mem_singleton.mp hi
    rcases List.mem_cons.mp hb with rfl | hb
    · exact blockCode_dotBlock
    · rcases List.mem_cons.mp hb with rfl | hb
      · exact blockCode_emptyBlock 1
      · obtain rfl := List.mem_singleton.mp hb
        exact blockCode_emptyBlock 2
  order := by decide
  range := by decide +kernel
  data := ⟨[], apart_nil, by decide⟩

/-- Without a byte 0xFF no byte looks like a marker. -/
theorem plain_dot : Plain (scanItems [dotInterval]) := by
  intro front b back heq
  have hmem : CodedItem.byte 0xFF ∈ scanItems [dotInterval] := by
    rw [heq]
    exact List.mem_append_right front List.mem_cons_self
  simp [scanItems, dotInterval] at hmem

/-- The second coefficient is not handed over at its place. -/
theorem not_unscrambled_dot : ¬Unscrambled ones [dotInterval] := by
  intro hunscrambled
  have hsecond := hunscrambled _ List.mem_cons_self 2
  revert hsecond
  decide +kernel

theorem handedOver_iff_dot : ¬HandedOver dotHeader ⟨8, 8⟩ ones [dotInterval] [0x50, 0x7F] := by
  intro hover
  have hiff := handedOver_iff scanOf_dot trivial plain_dot ⟨8, 8⟩
  exact not_unscrambled_dot (hiff.mp hover).2

theorem not_handedOver : ¬∀ h screen q intervals data, ScanOf h q intervals data →
    HandedOver h screen q intervals data := by
  intro hall
  have hover := hall _ ⟨8, 8⟩ _ _ _ scanOf_dot
  exact not_unscrambled_dot (products_of_handedOver scanOf_dot trivial plain_dot hover).2

end PureOS.Jpeg
