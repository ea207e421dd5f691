import PureOS.Foundation.Fuel
import PureOS.Foundation.LowBits
import PureOS.Foundation.Packing

set_option autoImplicit false

/-!
# Gif: the bits of sub-blocks (`gif.rs`)

The reader takes codes of any width out of a chain of sub-blocks.  Behind the last block it
hands out zeros.
-/

namespace PureOS.Gif

open PureOS.Foundation

/-- `GifReader`.  The bytes of `data` from `pos` on are `rest`. -/
structure GifReader where
  rest : List UInt8
  buf : Nat
  bits : Nat
  left : Nat
  deriving DecidableEq

namespace GifReader

/-- `next_block`. -/
def nextBlock (r : GifReader) : GifReader :=
  match r.rest with
  | [] => { r with left := 0 }
  | b :: rest => { r with rest := rest, left := b.toNat }

/-- `GifReader::new`. -/
def new (data : List UInt8) (pos : Nat) : GifReader :=
  nextBlock { rest := data.drop pos, buf := 0, bits := 0, left := 0 }

/-- A turn of the loop of `fill`, for the byte in front of `rest`. -/
def takeByte (b : UInt8) (rest : List UInt8) (r : GifReader) : GifReader :=
  let r :=
    { rest := rest
      buf := r.buf ||| (b.toNat <<< r.bits)
      bits := r.bits + 8
      left := r.left - 1 }
  if r.left = 0 then r.nextBlock else r

/-- The loop of `fill`, which takes a byte at least in each turn. -/
def fillLoop : Nat → GifReader → GifReader
  | 0, r => r
  | n + 1, r =>
      if r.bits ≤ 24 ∧ r.left > 0 then
        match r.rest with
        | [] => r
        | b :: rest => fillLoop n (r.takeByte b rest)
      else r

/-- `fill`. -/
def fill (r : GifReader) : GifReader := fillLoop r.rest.length r

/-- `read`, which shifts a word of 32 bits by `n`. -/
def read (n : Nat) (r : GifReader) : Except Fault (Nat × GifReader) :=
  let r := r.fill
  if n ≥ 32 then .error .panic
  else .ok (r.buf &&& (2 ^ n - 1), { r with buf := r.buf >>> n, bits := r.bits - n })

/-! ## The bits that are left -/

/-- The bytes of the sub-blocks, when so many of the first block are left. -/
def payload : List UInt8 → Nat → List UInt8
  | [], _ => []
  | _ :: _, 0 => []
  | b :: rest, 1 =>
      b :: match rest with
        | [] => []
        | size :: rest => payload rest size.toNat
  | b :: rest, left + 2 => b :: payload rest (left + 1)

/-- The bytes of a chain of sub-blocks. -/
def blocks : List UInt8 → List UInt8
  | [] => []
  | size :: rest => payload rest size.toNat

/-- The bits of bytes, one byte after the other. -/
def bitsOf (bytes : List UInt8) : List Bool := bytes.flatMap fun b => lsbBits 8 b.toNat

/-- The bits that a reader still has, those in the buffer first. -/
def stream (r : GifReader) : List Bool := lsbBits r.bits r.buf ++ bitsOf (payload r.rest r.left)

/-- The buffer holds as many bits as it says. -/
structure WellFormed (r : GifReader) : Prop where
  bits_le : r.bits ≤ 32
  buf_lt : r.buf < 2 ^ r.bits

section

variable {r : GifReader} {n left : Nat} {b : UInt8} {rest : List UInt8}

theorem payload_zero (rest : List UInt8) : payload rest 0 = [] := by
  cases rest <;> rfl

/-- The bytes behind the end of a block. -/
theorem nextBlock_spec (r : GifReader) (b : UInt8) :
    r.nextBlock.rest.length ≤ r.rest.length ∧ r.nextBlock.buf = r.buf ∧ r.nextBlock.bits = r.bits ∧
      payload (b :: r.rest) 1 = b :: payload r.nextBlock.rest r.nextBlock.left := by
  obtain ⟨rest, buf, bits, left⟩ := r
  cases rest with
  | nil => exact ⟨Nat.le_refl _, rfl, rfl, rfl⟩
  | cons size rest => exact ⟨Nat.le_succ _, rfl, rfl, rfl⟩

/-- A byte goes above the bits of the buffer. -/
theorem push_eq (hwf : r.WellFormed) (b : UInt8) :
    r.buf ||| (b.toNat <<< r.bits) = r.buf + 2 ^ r.bits * b.toNat := by
  have hpack := @pack_eq r.bits b.toNat r.buf hwf.buf_lt
  rw [pack] at hpack
  rw [Nat.lor_comm, hpack, Nat.add_comm, Nat.mul_comm]

/-- A turn of the loop of `fill` moves a byte into the buffer. -/
theorem takeByte_spec (hwf : r.WellFormed) (hbits : r.bits ≤ 24) (hleft : 0 < r.left)
    (hrest : r.rest = b :: rest) :
    (r.takeByte b rest).rest.length ≤ rest.length ∧ (r.takeByte b rest).WellFormed ∧
      (r.takeByte b rest).stream = r.stream := by
  have hlt : r.buf + 2 ^ r.bits * b.toNat < 2 ^ (r.bits + 8) := by
    have hb : b.toNat ≤ 255 := Nat.le_of_lt_succ b.toNat_lt
    have hmul : 2 ^ r.bits * b.toNat ≤ 2 ^ r.bits * 255 := Nat.mul_le_mul_left _ hb
    have hbuf := hwf.buf_lt
    rw [pow_add]
    omega
  have hsplit := @lsbBits_pack _ r.buf b.toNat 8 hwf.buf_lt
  have hbits' : r.bits + 8 ≤ 32 := Nat.add_le_add_right hbits 8
  obtain ⟨hlen, hbuf, hnext, hpayload⟩ := nextBlock_spec
    { rest := rest, buf := r.buf + 2 ^ r.bits * b.toNat, bits := r.bits + 8, left := r.left - 1 } b
  rw [takeByte, push_eq hwf]
  dsimp only at hlen hbuf hnext hpayload ⊢
  split
  · have hone : r.left = 1 := by omega
    refine ⟨hlen, ⟨hnext.le.trans hbits', ?_⟩, ?_⟩
    · rw [hbuf, hnext]
      exact hlt
    · rw [stream, stream, hbuf, hnext, hrest, hone] at *
      rw [hpayload, hsplit, List.append_assoc]
      rfl
  · obtain ⟨left, hsucc⟩ := Nat.exists_eq_add_of_le (Nat.le_of_not_lt
      (fun hlt : r.left < 2 => by omega))
    have hrest' : payload (b :: rest) r.left = b :: payload rest (r.left - 1) := by
      have hpred : r.left - 1 = left + 1 := by omega
      rw [hpred, hsucc, Nat.add_comm 2 left, payload]
    refine ⟨Nat.le_refl _, ⟨hbits', hlt⟩, ?_⟩
    rw [stream, stream, hrest, hrest', hsplit, List.append_assoc]
    rfl

theorem stream_new (data : List UInt8) (pos : Nat) :
    (new data pos).WellFormed ∧
      (new data pos).stream = bitsOf (blocks (data.drop pos)) := by
  rw [new, nextBlock]
  cases data.drop pos with
  | nil => exact ⟨⟨Nat.zero_le 32, Nat.one_pos⟩, rfl⟩
  | cons size rest => exact ⟨⟨Nat.zero_le 32, Nat.one_pos⟩, rfl⟩

/-- `fill` moves bits into the buffer, until it has 25 or there are no more. -/
theorem fillLoop_spec (hn : r.rest.length ≤ n) (hwf : r.WellFormed) :
    (fillLoop n r).WellFormed ∧ (fillLoop n r).stream = r.stream ∧
      (25 ≤ (fillLoop n r).bits ∨ payload (fillLoop n r).rest (fillLoop n r).left = []) := by
  induction n generalizing r with
  | zero =>
      have hrest := List.length_eq_zero_iff.mp (Nat.le_zero.mp hn)
      refine ⟨hwf, rfl, Or.inr ?_⟩
      rw [fillLoop, hrest, payload]
  | succ n ih =>
      rw [fillLoop]
      split
      · rename_i hgo
        obtain ⟨hbits, hleft⟩ := hgo
        split
        · rename_i hrest
          refine ⟨hwf, rfl, Or.inr ?_⟩
          rw [hrest, payload]
        · rename_i b rest hrest
          obtain ⟨hlen, hwf', hsame⟩ := takeByte_spec hwf hbits hleft hrest
          rw [hrest, List.length_cons] at hn
          obtain ⟨hwf'', hstream, hend⟩ := ih (hlen.trans (Nat.le_of_succ_le_succ hn)) hwf'
          exact ⟨hwf'', hstream.trans hsame, hend⟩
      · rename_i hstop
        refine ⟨hwf, rfl, ?_⟩
        rcases Nat.lt_or_ge 24 r.bits with hbits | hbits
        · exact Or.inl hbits
        · have hleft : r.left = 0 := Nat.eq_zero_of_not_pos fun hpos => hstop ⟨hbits, hpos⟩
          rw [hleft]
          exact Or.inr (payload_zero _)

theorem fill_spec (hwf : r.WellFormed) : r.fill.WellFormed ∧ r.fill.stream = r.stream ∧
    (25 ≤ r.fill.bits ∨ payload r.fill.rest r.fill.left = []) :=
  fillLoop_spec (Nat.le_refl _) hwf

/-- Reading takes the bits that come first, and zeros when there are not enough. -/
theorem read_spec (hwf : r.WellFormed) (hn : n ≤ 25) :
    ∃ r', r.read n = .ok (lsbVal (r.stream.take n), r') ∧ r'.WellFormed ∧
      r'.stream = r.stream.drop n := by
  obtain ⟨hfill, hsame, hend⟩ := fill_spec hwf
  have hval : lsbVal (lsbBits r.fill.bits r.fill.buf) = r.fill.buf := lsbVal_lsbBits hfill.buf_lt
  -- The bits come out of the buffer, or there are none behind it.
  have hbuffer : r.stream.take n = (lsbBits r.fill.bits r.fill.buf).take n ∧
      r.stream.drop n =
        (lsbBits r.fill.bits r.fill.buf).drop n ++ bitsOf (payload r.fill.rest r.fill.left) := by
    rw [← hsame, stream]
    rcases hend with hbits | hnone
    · have hlen : n ≤ (lsbBits r.fill.bits r.fill.buf).length := by
        rw [length_lsbBits]
        omega
      exact ⟨List.take_append_of_le_length hlen, List.drop_append_of_le_length hlen⟩
    · rw [hnone]
      exact ⟨by rw [bitsOf, List.flatMap_nil, List.append_nil],
        by rw [bitsOf, List.flatMap_nil, List.append_nil, List.append_nil]⟩
  refine ⟨{ r.fill with buf := r.fill.buf >>> n, bits := r.fill.bits - n }, ?_, ⟨?_, ?_⟩, ?_⟩
  · have htake : r.fill.buf &&& (2 ^ n - 1) = lsbVal (r.stream.take n) := by
      rw [hbuffer.1, lsbVal_take, hval, Nat.and_two_pow_sub_one_eq_mod]
    rw [read, if_neg (by omega), htake]
  · exact (Nat.sub_le _ _).trans hfill.bits_le
  · change r.fill.buf >>> n < 2 ^ (r.fill.bits - n)
    have hdrop := lsbVal_lt ((lsbBits r.fill.bits r.fill.buf).drop n)
    rwa [lsbVal_drop, hval, List.length_drop, length_lsbBits, ← Nat.shiftRight_eq_div_pow] at hdrop
  · rw [hbuffer.2, drop_lsbBits, stream, Nat.shiftRight_eq_div_pow]

/-- Reading a number that was written with as many bits. -/
theorem read_lsbBits (hwf : r.WellFormed) (hn : n ≤ 25) {v : Nat} (hv : v < 2 ^ n) {post : List Bool}
    (hstream : r.stream = lsbBits n v ++ post) :
    ∃ r', r.read n = .ok (v, r') ∧ r'.WellFormed ∧ r'.stream = post := by
  obtain ⟨r', hread, hwf', hstream'⟩ := read_spec hwf hn
  have hlen := length_lsbBits n v
  rw [hstream, List.take_left' hlen, lsbVal_lsbBits hv] at hread
  rw [hstream, List.drop_left' hlen] at hstream'
  exact ⟨r', hread, hwf', hstream'⟩

end

end GifReader

end PureOS.Gif
