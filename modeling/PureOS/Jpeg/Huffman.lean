import PureOS.Foundation.Canonical
import PureOS.Foundation.Loop
import PureOS.Jpeg.Reader
import Mathlib.Data.Vector.Basic

set_option autoImplicit false

/-!
# Jpeg: Huffman tables (`jpeg.rs`)

A table keeps, for each length, the smallest and the largest code word, and where its symbols
begin.  `fill_from_bits` counts the words up, but goes to the next length without a shift when
a length has no words.
-/

namespace PureOS.Jpeg

open PureOS.Foundation PureOS.Foundation.Canonical

theorem lt_four (i : Fin 4) : i.val < 4 := i.isLt

theorem lt_sixteen (i : Fin 16) : i.val < 16 := i.isLt

theorem lt_sixtyFour (i : Fin 64) : i.val < 64 := i.isLt

/-- `HuffTable`. -/
structure HuffTable where
  maxCode : Vector Int 16
  minCode : Vector Int 16
  valPtr : Vector UInt8 16
  values : Vector UInt8 256
  deriving DecidableEq

namespace HuffTable

/-- `HuffTable::empty`. -/
def empty : HuffTable where
  maxCode := .replicate 16 (-1)
  minCode := .replicate 16 (-1)
  valPtr := .replicate 16 0
  values := .replicate 256 0

/-- The inner loop of `fill_from_bits`: the symbols of `n` words. -/
def fillValues (symbols : List UInt8) : Nat → Nat → Vector UInt8 256 → Nat × Vector UInt8 256
  | 0, vi, values => (vi, values)
  | n + 1, vi, values =>
      if h : vi < 256 then fillValues symbols n (vi + 1) (values.set vi (symbols[vi]?.getD 0))
      else fillValues symbols n vi values

/-- What `fill_from_bits` keeps in its loop: `code`, `vi` and the table. -/
structure Filling where
  code : Int
  vi : Nat
  table : HuffTable

/-- A turn of the loop of `fill_from_bits`. -/
def fillLength (bits : Vector UInt8 16) (symbols : List UInt8) (s : Filling) (l : Fin 16) : Filling :=
  let n := bits[l].toNat
  if n = 0 then
    { s with table :=
        { s.table with
          maxCode := s.table.maxCode.set l (-1)
          minCode := s.table.minCode.set l (-1)
          valPtr := s.table.valPtr.set l (UInt8.ofNat s.vi) } }
  else
    let (vi, values) := fillValues symbols n s.vi s.table.values
    { code := 2 * (s.code + n)
      vi := vi
      table :=
        { maxCode := s.table.maxCode.set l (s.code + n - 1)
          minCode := s.table.minCode.set l s.code
          valPtr := s.table.valPtr.set l (UInt8.ofNat s.vi)
          values := values } }

/-- `fill_from_bits`. -/
def fillFromBits (bits : Vector UInt8 16) (symbols : List UInt8) (t : HuffTable) : HuffTable :=
  ((List.finRange 16).foldl (fillLength bits symbols) { code := 0, vi := 0, table := t }).table

/-- The loop of `decode` over the lengths that are left. -/
def decodeLoop (t : HuffTable) : List (Fin 16) → Int → BitReader → Except Fault (UInt8 × BitReader)
  | [], _, r => .ok (0, r)
  | l :: rest, code, r => do
      let (bit, r) ← r.readBit
      let code := 2 * code + bit
      if code ≤ t.maxCode[l] ∧ code ≥ t.minCode[l] then
        match t.values[t.valPtr[l].toNat + (code - t.minCode[l]).toNat]? with
        | some value => return (value, r)
        | none => .error .panic
      else decodeLoop t rest code r

/-- `decode`. -/
def decode (t : HuffTable) (r : BitReader) : Except Fault (UInt8 × BitReader) :=
  t.decodeLoop (List.finRange 16) 0 r

/-- So many symbols, one after the other. -/
def decodeMany (t : HuffTable) : Nat → BitReader → Except Fault (List UInt8 × BitReader)
  | 0, r => .ok ([], r)
  | n + 1, r => do
      let (value, r) ← t.decode r
      let (values, r) ← t.decodeMany n r
      return (value :: values, r)

end HuffTable

/-- The specification of a table: how many words there are of each length, and their symbols. -/
structure Spec where
  bits : Vector UInt8 16
  symbols : List UInt8

namespace Spec

variable (spec : Spec)

/-- How many words have `l + 1` bits. -/
def count (l : Nat) : Nat := (spec.bits[l]?.getD 0).toNat

/-- The counts leave room for the words, and each has a symbol of its own. -/
structure Valid : Prop where
  kraft : Kraft spec.count 16
  total : shorter spec.count 16 = spec.symbols.length
  small : spec.symbols.length ≤ 256
  distinct : spec.symbols.Nodup

/-- A word of the code, and its symbol. -/
structure IsWord (l i : Nat) (symbol : UInt8) : Prop where
  length : l < 16
  number : i < spec.count l
  value : spec.symbols[shorter spec.count l + i]? = some symbol

/-- The bits of some symbols, by the standard. -/
inductive Encodes : List UInt8 → List Bool → Prop where
  | nil : Encodes [] []
  | cons {l i : Nat} {symbol : UInt8} {symbols : List UInt8} {bits : List Bool}
      (h : spec.IsWord l i symbol) (rest : Encodes symbols bits) :
      Encodes (symbol :: symbols) (word spec.count l i ++ bits)

/-- A table gives back what was encoded, and takes no other bits than those. -/
def DecodedBy (t : HuffTable) : Prop :=
  ∀ symbols bits, spec.Encodes symbols bits → ∀ r : BitReader, ∀ post, r.WellFormed →
    r.stream = bits ++ post →
    ∃ r', t.decodeMany symbols.length r = .ok (symbols, r') ∧ r'.WellFormed ∧ r'.stream = post

/-- `fill_from_bits` gets by without the shift: no length without words follows one with words
and is followed by one, or the only word behind such a length has 16 bits and stands for 0. -/
def Fillable : Prop :=
  (∀ l < 16, spec.count l ≠ 0 → NoGap spec.count l) ∨
    spec.count 15 = 1 ∧ spec.symbols.getLast? = some 0 ∧
      ∀ l < 15, spec.count l ≠ 0 → NoGap spec.count l

end Spec

/-! ## What the table holds -/

/-- The first word of length `l + 1`, as `fill_from_bits` counts. -/
def filledCode (count : Nat → Nat) : Nat → Nat
  | 0 => 0
  | l + 1 => if count l = 0 then filledCode count l else 2 * (filledCode count l + count l)

/-- The table that `fill_from_bits` makes. -/
structure Filled (spec : Spec) (t : HuffTable) : Prop where
  unused : ∀ l : Fin 16, spec.count l = 0 → t.maxCode[l] = -1
  minCode : ∀ l : Fin 16, spec.count l ≠ 0 → t.minCode[l] = filledCode spec.count l
  maxCode : ∀ l : Fin 16, spec.count l ≠ 0 →
    t.maxCode[l] = filledCode spec.count l + spec.count l - 1
  valPtr : ∀ l : Fin 16, spec.count l ≠ 0 → t.valPtr[l].toNat = shorter spec.count l
  values : ∀ v < spec.symbols.length, t.values[v]? = spec.symbols[v]?

section

variable {spec : Spec} {count : Nat → Nat} {l i n : Nat}

theorem filledCode_le (count : Nat → Nat) (l : Nat) : filledCode count l ≤ firstCode count l := by
  induction l with
  | zero => exact Nat.le_refl _
  | succ l ih =>
      rw [filledCode, firstCode]
      split <;> omega

/-- Without a gap the count is right. -/
theorem filledCode_eq (h : NoGap count l) : filledCode count l = firstCode count l := by
  induction l with
  | zero => rfl
  | succ l ih =>
      have hbefore := ih fun g hg => h g (by omega)
      rw [filledCode, firstCode]
      split
      · rename_i hzero
        have hfirst : firstCode count l = 0 := firstCode_of_unused (h l (Nat.lt_succ_self l) hzero)
        omega
      · omega

/-- Behind a gap the count is too low. -/
theorem filledCode_lt (h : ¬NoGap count l) : filledCode count l < firstCode count l := by
  unfold NoGap at h
  push Not at h
  obtain ⟨g, hg, hzero, k, hk, hused⟩ := h
  have hpos : 0 < firstCode count g := firstCode_pos hk hused
  have hle := filledCode_le count g
  induction l, hg using Nat.le_induction with
  | base =>
      rw [filledCode, firstCode, if_pos hzero]
      omega
  | succ l _ ih =>
      rw [filledCode, firstCode]
      split <;> omega

namespace HuffTable

/-- The symbols of a length go behind the ones before. -/
theorem fillValues_spec (symbols : List UInt8) (n vi : Nat) (values : Vector UInt8 256)
    (h : vi + n ≤ 256) :
    (fillValues symbols n vi values).1 = vi + n ∧
      ∀ v : Nat, (fillValues symbols n vi values).2[v]? =
        if vi ≤ v ∧ v < vi + n then some (symbols[v]?.getD 0) else values[v]? := by
  induction n generalizing vi values with
  | zero =>
      refine ⟨rfl, fun v => ?_⟩
      rw [if_neg (by omega)]
      rfl
  | succ n ih =>
      have hvi : vi < 256 := by omega
      rw [fillValues, dif_pos hvi]
      obtain ⟨hend, hget⟩ := ih (vi + 1) (values.set vi (symbols[vi]?.getD 0)) (by omega)
      refine ⟨by omega, fun v => ?_⟩
      rw [hget v]
      by_cases hv : v = vi
      · subst hv
        rw [if_neg (by omega), if_pos (by omega)]
        exact Vector.getElem?_set_self _
      · rw [Vector.getElem?_set_ne _ (fun h => hv h.symm)]
        by_cases hin : vi + 1 ≤ v ∧ v < vi + 1 + n
        · rw [if_pos hin, if_pos (by omega)]
        · rw [if_neg hin, if_neg (by omega)]

/-- What the loop of `fill_from_bits` has done after the lengths below `k`. -/
structure FilledTo (spec : Spec) (k : Nat) (s : Filling) : Prop where
  code : s.code = filledCode spec.count k
  vi : s.vi = shorter spec.count k
  unused : ∀ l : Fin 16, l.val < k → spec.count l = 0 → s.table.maxCode[l] = -1
  minCode : ∀ l : Fin 16, l.val < k → spec.count l ≠ 0 →
    s.table.minCode[l] = filledCode spec.count l
  maxCode : ∀ l : Fin 16, l.val < k → spec.count l ≠ 0 →
    s.table.maxCode[l] = filledCode spec.count l + spec.count l - 1
  valPtr : ∀ l : Fin 16, l.val < k → spec.count l ≠ 0 →
    s.table.valPtr[l].toNat = shorter spec.count l
  values : ∀ v < shorter spec.count k, s.table.values[v]? = spec.symbols[v]?

/-- An entry of the array of a length, after the entry of one length is written. -/
theorem set_cases {α : Type} {P : Nat → α → Prop} {t : Vector α 16} {k : Fin 16} {a : α}
    (hbefore : ∀ l : Fin 16, l.val < k → P l t[l]) (ha : P k a) (l : Fin 16) (hl : l.val < k.val + 1) :
    P l (t.set k a)[l] := by
  by_cases hlk : l = k
  · subst hlk
    have hself : (t.set l a)[l] = a := Vector.getElem_set_self _
    rwa [hself]
  · have hne : k.val ≠ l.val := fun h => hlk (Fin.ext h.symm)
    have hother : (t.set k a)[l] = t[l] := Vector.getElem_set_ne _ _ hne
    rw [hother]
    exact hbefore l (by omega)

theorem count_eq (spec : Spec) (l : Fin 16) : spec.bits[l].toNat = spec.count l := by
  rw [Spec.count, Vector.getElem?_eq_getElem l.isLt]
  rfl

theorem shorter_le (h : spec.Valid) (hl : l ≤ 16) : shorter spec.count l ≤ spec.symbols.length :=
  (shorter_mono hl).trans_eq h.total

theorem FilledTo.step (h : spec.Valid) (k : Fin 16) {s : Filling} (hs : FilledTo spec k s) :
    FilledTo spec (k.val + 1) (fillLength spec.bits spec.symbols s k) := by
  have hnext : shorter spec.count (k.val + 1) ≤ 256 := (shorter_le h k.isLt).trans h.small
  rw [shorter_succ] at hnext
  rw [fillLength, count_eq]
  dsimp only
  by_cases hzero : spec.count k = 0
  · rw [if_pos hzero]
    refine ⟨?_, ?_, ?_, ?_, ?_, ?_, ?_⟩
    · rw [filledCode, if_pos hzero]
      exact hs.code
    · rw [shorter_succ, hzero]
      exact hs.vi
    · exact set_cases (P := fun l (c : Int) => spec.count l = 0 → c = -1) hs.unused fun _ => rfl
    · exact set_cases (P := fun l (c : Int) => spec.count l ≠ 0 → c = filledCode spec.count l) hs.minCode
        fun hne => absurd hzero hne
    · exact set_cases
        (P := fun l (c : Int) => spec.count l ≠ 0 → c = filledCode spec.count l + spec.count l - 1)
        hs.maxCode fun hne => absurd hzero hne
    · exact set_cases
        (P := fun l p => spec.count l ≠ 0 → UInt8.toNat p = shorter spec.count l)
        hs.valPtr fun hne => absurd hzero hne
    · rw [shorter_succ, hzero]
      exact hs.values
  · rw [if_neg hzero]
    obtain ⟨hvi, hvalues⟩ := fillValues_spec spec.symbols (spec.count k) s.vi s.table.values
      (by rw [hs.vi]; exact hnext)
    refine ⟨?_, ?_, ?_, ?_, ?_, ?_, ?_⟩
    · rw [filledCode, if_neg hzero, hs.code]
      push_cast
      ring
    · rw [shorter_succ, ← hs.vi]
      exact hvi
    · exact set_cases (P := fun l (c : Int) => spec.count l = 0 → c = -1) hs.unused
        fun h0 => absurd h0 hzero
    · exact set_cases (P := fun l (c : Int) => spec.count l ≠ 0 → c = filledCode spec.count l) hs.minCode
        fun _ => hs.code
    · exact set_cases
        (P := fun l (c : Int) => spec.count l ≠ 0 → c = filledCode spec.count l + spec.count l - 1)
        hs.maxCode fun _ => by rw [hs.code]
    · refine set_cases
        (P := fun l p => spec.count l ≠ 0 → UInt8.toNat p = shorter spec.count l)
        hs.valPtr fun _ => ?_
      rw [hs.vi, UInt8.toNat_ofNat']
      exact Nat.mod_eq_of_lt (by omega)
    · intro v hv
      rw [shorter_succ] at hv
      have hlen := shorter_le h (Nat.succ_le_of_lt k.isLt)
      rw [shorter_succ] at hlen
      rw [hvalues v, hs.vi]
      by_cases hnew : shorter spec.count k ≤ v
      · rw [if_pos ⟨hnew, hv⟩, List.getElem?_eq_getElem (by omega)]
        rfl
      · rw [if_neg (by omega)]
        exact hs.values v (by omega)

/-- The table that `fill_from_bits` makes. -/
theorem fillFromBits_filled (h : spec.Valid) (t : HuffTable) :
    Filled spec (fillFromBits spec.bits spec.symbols t) := by
  have hstart : FilledTo spec 0 { code := 0, vi := 0, table := t } := by
    refine ⟨rfl, rfl, ?_, ?_, ?_, ?_, ?_⟩
    · exact fun l hl => absurd hl (Nat.not_lt_zero _)
    · exact fun l hl => absurd hl (Nat.not_lt_zero _)
    · exact fun l hl => absurd hl (Nat.not_lt_zero _)
    · exact fun l hl => absurd hl (Nat.not_lt_zero _)
    · exact fun v hv => absurd hv (Nat.not_lt_zero _)
  have hend := foldl_finRange hstart fun k _ hs => hs.step h k
  refine ⟨?_, ?_, ?_, ?_, ?_⟩
  · exact fun l => hend.unused l l.isLt
  · exact fun l => hend.minCode l l.isLt
  · exact fun l => hend.maxCode l l.isLt
  · exact fun l => hend.valPtr l l.isLt
  · intro v hv
    rw [← h.total] at hv
    exact hend.values v hv

/-! ## Decoding as a function of the bits -/

/-- A word of length `l + 1` is in the range of the table. -/
def Matches (t : HuffTable) (l : Fin 16) (code : Int) : Prop :=
  code ≤ t.maxCode[l] ∧ code ≥ t.minCode[l]

instance (t : HuffTable) (l : Fin 16) (code : Int) : Decidable (t.Matches l code) :=
  inferInstanceAs (Decidable (_ ∧ _))

/-- What `decode` makes of bits, and what it leaves of them. -/
def lookup (t : HuffTable) : List (Fin 16) → Int → List Bool → Option (UInt8 × List Bool)
  | [], _, bits => some (0, bits)
  | _ :: _, _, [] => none
  | l :: rest, code, b :: bits =>
      if t.Matches l (2 * code + b.toNat) then
        (t.values[t.valPtr[l].toNat + (2 * code + b.toNat - t.minCode[l]).toNat]?).map
          fun value => (value, bits)
      else lookup t rest (2 * code + b.toNat) bits

/-- `decode` does with a reader what it makes of its bits. -/
theorem decodeLoop_eq (t : HuffTable) (ls : List (Fin 16)) (code : Int) {r : BitReader}
    (hwf : r.WellFormed) :
    match t.lookup ls code r.stream with
    | some (value, post) =>
        ∃ r', t.decodeLoop ls code r = .ok (value, r') ∧ r'.WellFormed ∧ r'.stream = post
    | none => ∃ fault, t.decodeLoop ls code r = .error fault := by
  induction ls generalizing code r with
  | nil => exact ⟨r, rfl, hwf, rfl⟩
  | cons l ls ih =>
      rw [decodeLoop]
      cases hstream : r.stream with
      | nil =>
          refine ⟨.panic, ?_⟩
          have hread : r.readBit = .error .panic :=
            BitReader.readBits_panic hwf (by rw [hstream]; exact Nat.one_pos)
          rw [hread]
          rfl
      | cons b bits =>
          obtain ⟨r', hread, hwf', hstream'⟩ := BitReader.readBit_ok hwf hstream
          rw [hread, bind_ok, lookup]
          dsimp only
          by_cases hmatch : t.Matches l (2 * code + b.toNat)
          · have hrange : 2 * code + b.toNat ≤ t.maxCode[l] ∧ 2 * code + b.toNat ≥ t.minCode[l] :=
              hmatch
            rw [if_pos hmatch, if_pos hrange]
            cases hvalue : t.values[t.valPtr[l].toNat + (2 * code + b.toNat - t.minCode[l]).toNat]? with
            | none => exact ⟨.panic, rfl⟩
            | some value => exact ⟨r', rfl, hwf', hstream'⟩
          · have hrange : ¬(2 * code + b.toNat ≤ t.maxCode[l] ∧ 2 * code + b.toNat ≥ t.minCode[l]) :=
              hmatch
            rw [if_neg hmatch, if_neg hrange, ← hstream']
            exact ih _ hwf'

/-- What a result of `lookup` comes from: a word in the range of its length, or the end of the
lengths. -/
theorem lookup_cases {t : HuffTable} {ls : List (Fin 16)} {code : Nat} {bits post : List Bool}
    {value : UInt8} (h : t.lookup ls code bits = some (value, post)) :
    ∃ pre, bits = pre ++ post ∧
      ((∃ l, ls[pre.length - 1]? = some l ∧ pre ≠ [] ∧ t.Matches l (bitsOnto code pre) ∧
        t.values[t.valPtr[l].toNat + ((bitsOnto code pre : Int) - t.minCode[l]).toNat]? =
          some value) ∨
        pre.length = ls.length ∧ value = 0) := by
  induction ls generalizing code bits with
  | nil =>
      cases h
      exact ⟨[], rfl, Or.inr ⟨rfl, rfl⟩⟩
  | cons l ls ih =>
      cases bits with
      | nil => cases h
      | cons b bits =>
          have hcast : (2 * (code : Int) + b.toNat) = ((2 * code + b.toNat : Nat) : Int) := by
            push_cast
            rfl
          rw [lookup, hcast] at h
          split at h
          · rename_i hmatch
            obtain ⟨value', hvalue, heq⟩ := Option.map_eq_some_iff.mp h
            cases heq
            exact ⟨[b], rfl, Or.inl ⟨l, rfl, List.cons_ne_nil _ _, hmatch, hvalue⟩⟩
          · obtain ⟨pre, hbits, hcases⟩ := ih h
            refine ⟨b :: pre, by rw [hbits]; rfl, ?_⟩
            rcases hcases with ⟨l', hl', hne, hmatch, hvalue⟩ | ⟨hlen, hzero⟩
            · refine Or.inl ⟨l', ?_, List.cons_ne_nil _ _, hmatch, hvalue⟩
              obtain ⟨c, pre, rfl⟩ := List.exists_cons_of_ne_nil hne
              exact hl'
            · exact Or.inr ⟨congrArg Nat.succ hlen, hzero⟩

end HuffTable

end

end PureOS.Jpeg
