import PureOS.Foundation.Bits
import PureOS.Foundation.Fuel
import PureOS.Foundation.Packing

set_option autoImplicit false

/-!
# Jpeg: the bits of a scan (`jpeg.rs`)

The reader keeps up to 32 bits and fills them up with the bytes that follow.  A zero byte
behind 0xFF is left out, and so is a restart marker.
-/

namespace PureOS.Jpeg

open PureOS.Foundation

/-- `BitReader`.  The bytes of `data` from `pos` on are `rest`. -/
structure BitReader where
  rest : List UInt8
  buf : Nat
  bits : Nat
  deriving DecidableEq

namespace BitReader

/-- `BitReader::new`. -/
def new (data : List UInt8) : BitReader where
  rest := data
  buf := 0
  bits := 0

/-- The data behind a byte, without the zero that is stuffed in behind 0xFF. -/
def behind (b : UInt8) (rest : List UInt8) : List UInt8 :=
  if b = 0xFF ∧ rest.head? = some 0x00 then rest.tail else rest

/-- What a turn of the loop of `fill` takes from the data: the byte for the buffer, if there is
one, and the data behind. -/
def turn : List UInt8 → Option (Option UInt8 × List UInt8)
  | [] => none
  | b :: rest =>
      -- The byte before a restart marker is dropped with it.
      if b = 0xFF ∧ ((behind b rest).head?.any fun c => c &&& 0xF8 == 0xD0) then
        some (none, (behind b rest).tail)
      else some (some b, behind b rest)

/-- The loop of `fill`, which takes a byte at least in each turn. -/
def fillLoop : Nat → BitReader → BitReader
  | 0, r => r
  | n + 1, r =>
      if r.bits ≤ 24 then
        match turn r.rest with
        | none => r
        | some (none, rest) => fillLoop n { r with rest := rest }
        | some (some b, rest) =>
            fillLoop n
              { rest := rest, buf := (r.buf <<< 8 % 2 ^ 32) ||| b.toNat, bits := r.bits + 8 }
      else r

/-- `fill`. -/
def fill (r : BitReader) : BitReader := fillLoop r.rest.length r

/-- `peek_bits`, which subtracts `n` from the number of bits. -/
def peekBits (n : Nat) (r : BitReader) : Except Fault (Nat × BitReader) :=
  let r := r.fill
  if r.bits < n then .error .panic
  else .ok ((r.buf >>> (r.bits - n)) &&& (2 ^ n - 1), r)

/-- `skip_bits`. -/
def skipBits (n : Nat) (r : BitReader) : BitReader :=
  if n ≥ r.bits then { r with bits := 0, buf := 0 }
  else { r with bits := r.bits - n, buf := r.buf &&& (2 ^ (r.bits - n) - 1) }

/-- `read_bits`. -/
def readBits (n : Nat) (r : BitReader) : Except Fault (Nat × BitReader) := do
  let (val, r) ← r.peekBits n
  return (val, r.skipBits n)

/-- `read_bit`. -/
def readBit (r : BitReader) : Except Fault (Nat × BitReader) := r.readBits 1

/-! ## The bits that are left -/

/-- The bytes that the turns of `fill` put into the buffer. -/
def payloadLoop : Nat → List UInt8 → List UInt8
  | 0, _ => []
  | n + 1, rest =>
      match turn rest with
      | none => []
      | some (none, rest) => payloadLoop n rest
      | some (some b, rest) => b :: payloadLoop n rest

/-- The bytes of some data without what `fill` leaves out. -/
def payload (rest : List UInt8) : List UInt8 := payloadLoop rest.length rest

/-- The bits of bytes, one byte after the other. -/
def bitsOf (bytes : List UInt8) : List Bool := bytes.flatMap fun b => msbBits 8 b.toNat

/-- The bits that a reader still has, those in the buffer first. -/
def stream (r : BitReader) : List Bool := msbBits r.bits r.buf ++ bitsOf (payload r.rest)

/-- The buffer holds as many bits as it says. -/
structure WellFormed (r : BitReader) : Prop where
  bits_le : r.bits ≤ 32
  buf_lt : r.buf < 2 ^ r.bits

section

variable {r r' : BitReader} {n m : Nat} {rest rest' : List UInt8} {b : Option UInt8}

theorem turn_length (h : turn rest = some (b, rest')) : rest'.length < rest.length := by
  cases rest with
  | nil => cases h
  | cons c rest =>
      have htail : (behind c rest).length ≤ rest.length := by
        rw [behind]
        split
        · rw [List.length_tail]
          exact Nat.sub_le _ _
        · exact Nat.le_refl _
      rw [turn] at h
      split at h
      · cases h
        rw [List.length_tail, List.length_cons]
        omega
      · cases h
        rw [List.length_cons]
        omega

theorem turn_eq_none : turn rest = none ↔ rest = [] := by
  cases rest with
  | nil => exact iff_of_true rfl rfl
  | cons c rest =>
      refine iff_of_false ?_ (List.cons_ne_nil _ _)
      rw [turn]
      split <;> exact Option.some_ne_none _

/-- More turns than bytes make no difference. -/
theorem payloadLoop_eq (h : rest.length ≤ n) : payloadLoop n rest = payload rest := by
  have hsame : ∀ n m rest, rest.length ≤ n → rest.length ≤ m →
      payloadLoop n rest = payloadLoop m rest := by
    intro n
    induction n with
    | zero =>
        intro m rest hn _
        have hnil := List.length_eq_zero_iff.mp (Nat.le_zero.mp hn)
        subst hnil
        cases m <;> rfl
    | succ n ih =>
        intro m rest hn hm
        cases m with
        | zero =>
            have hnil := List.length_eq_zero_iff.mp (Nat.le_zero.mp hm)
            subst hnil
            rfl
        | succ m =>
            rw [payloadLoop, payloadLoop]
            cases hturn : turn rest with
            | none => rfl
            | some p =>
                obtain ⟨b, rest'⟩ := p
                have hlt := turn_length hturn
                have hrest := ih m rest' (by omega) (by omega)
                cases b with
                | none => exact hrest
                | some b => exact congrArg _ hrest
  exact hsame n rest.length rest h (Nat.le_refl _)

/-- What a turn puts into the buffer comes first. -/
theorem payload_of_turn (h : turn rest = some (b, rest')) :
    payload rest = b.toList ++ payload rest' := by
  have hlt := turn_length h
  have hsucc : rest.length = (rest.length - 1) + 1 := by omega
  have hrest : payloadLoop (rest.length - 1) rest' = payload rest' := payloadLoop_eq (by omega)
  rw [payload, hsucc, payloadLoop, h]
  cases b with
  | none => exact hrest
  | some b => exact congrArg _ hrest

theorem bitsOf_append (l l' : List UInt8) : bitsOf (l ++ l') = bitsOf l ++ bitsOf l' :=
  List.flatMap_append

theorem new_wellFormed (data : List UInt8) : (new data).WellFormed :=
  ⟨Nat.zero_le 32, Nat.one_pos⟩

theorem stream_new (data : List UInt8) : (new data).stream = bitsOf (payload data) := rfl

/-- A byte goes behind the bits of the buffer. -/
theorem push_eq (hwf : r.WellFormed) (hbits : r.bits ≤ 24) (c : UInt8) :
    (r.buf <<< 8 % 2 ^ 32) ||| c.toNat = r.buf * 2 ^ 8 + c.toNat := by
  have hlt : r.buf < 2 ^ 24 :=
    hwf.buf_lt.trans_le (Nat.pow_le_pow_right (by decide) hbits)
  have hmod : r.buf <<< 8 % 2 ^ 32 = r.buf <<< 8 := by
    refine Nat.mod_eq_of_lt ?_
    rw [Nat.shiftLeft_eq]
    omega
  rw [hmod]
  exact pack_eq c.toNat_lt

/-- `fill` moves bits into the buffer, until it has 25 or there are no more. -/
theorem fillLoop_spec (hn : r.rest.length ≤ n) (hwf : r.WellFormed) :
    (fillLoop n r).WellFormed ∧ (fillLoop n r).stream = r.stream ∧
      (25 ≤ (fillLoop n r).bits ∨ (fillLoop n r).rest = []) := by
  induction n generalizing r with
  | zero => exact ⟨hwf, rfl, Or.inr (List.length_eq_zero_iff.mp (Nat.le_zero.mp hn))⟩
  | succ n ih =>
      rw [fillLoop]
      split
      · rename_i hbits
        cases hturn : turn r.rest with
        | none => exact ⟨hwf, rfl, Or.inr (turn_eq_none.mp hturn)⟩
        | some p =>
            obtain ⟨b, rest'⟩ := p
            have hlt := turn_length hturn
            have hpayload := payload_of_turn hturn
            cases b with
            | none =>
                obtain ⟨hwf', hstream, hend⟩ :=
                  @ih { r with rest := rest' } (by change rest'.length ≤ n; omega)
                    ⟨hwf.bits_le, hwf.buf_lt⟩
                refine ⟨hwf', hstream.trans ?_, hend⟩
                rw [stream, stream, hpayload]
                rfl
            | some c =>
                have hpush := push_eq hwf hbits c
                have hc : c.toNat < 2 ^ 8 := c.toNat_lt
                have hbuf := hwf.buf_lt
                have hwf' : WellFormed
                    ⟨rest', (r.buf <<< 8 % 2 ^ 32) ||| c.toNat, r.bits + 8⟩ := by
                  refine ⟨Nat.add_le_add_right hbits 8, ?_⟩
                  change (r.buf <<< 8 % 2 ^ 32) ||| c.toNat < 2 ^ (r.bits + 8)
                  rw [hpush, pow_add]
                  omega
                obtain ⟨hwf'', hstream, hend⟩ := ih (by change rest'.length ≤ n; omega) hwf'
                refine ⟨hwf'', hstream.trans ?_, hend⟩
                rw [stream, stream, hpayload, hpush, msbBits_pack _ hc, List.append_assoc]
                rfl
      · rename_i hbits
        exact ⟨hwf, rfl, Or.inl (by omega)⟩

theorem fill_spec (hwf : r.WellFormed) : r.fill.WellFormed ∧ r.fill.stream = r.stream ∧
    (25 ≤ r.fill.bits ∨ r.fill.rest = []) :=
  fillLoop_spec (Nat.le_refl _) hwf

/-- What is left when some of the bits in the buffer are skipped. -/
theorem skipBits_spec (hwf : r.WellFormed) (hn : n ≤ r.bits) :
    (r.skipBits n).WellFormed ∧ (r.skipBits n).stream =
      msbBits (r.bits - n) r.buf ++ bitsOf (payload r.rest) := by
  rw [skipBits]
  split
  · have hzero : r.bits - n = 0 := by omega
    rw [hzero]
    exact ⟨⟨Nat.zero_le 32, Nat.one_pos⟩, rfl⟩
  · have hmod : r.buf &&& (2 ^ (r.bits - n) - 1) = r.buf % 2 ^ (r.bits - n) :=
      Nat.and_two_pow_sub_one_eq_mod _ _
    refine ⟨⟨?_, ?_⟩, ?_⟩
    · exact (Nat.sub_le _ _).trans hwf.bits_le
    · change r.buf &&& (2 ^ (r.bits - n) - 1) < 2 ^ (r.bits - n)
      rw [hmod]
      exact Nat.mod_lt _ (Nat.two_pow_pos _)
    · rw [stream]
      change msbBits (r.bits - n) (r.buf &&& (2 ^ (r.bits - n) - 1)) ++ _ = _
      rw [hmod, msbBits_mod]

/-- Reading takes the bits that come first. -/
theorem readBits_ok (hwf : r.WellFormed) {pre post : List Bool} (hn : pre.length ≤ 25)
    (hstream : r.stream = pre ++ post) :
    ∃ r', r.readBits pre.length = .ok (bitsVal pre, r') ∧ r'.WellFormed ∧ r'.stream = post := by
  obtain ⟨hfill, hsame, hend⟩ := fill_spec hwf
  have hlen : pre.length ≤ r.fill.bits := by
    rcases hend with hbits | hrest
    · omega
    · have hall : r.fill.stream.length = r.fill.bits := by
        rw [stream, hrest, List.length_append, length_msbBits]
        rfl
      rw [hsame, hstream, List.length_append] at hall
      omega
  obtain ⟨hwf', hstream'⟩ := skipBits_spec hfill hlen
  -- The bits in the buffer are those that are read and those that stay.
  have hsplit : msbBits r.fill.bits r.fill.buf =
      msbBits pre.length (r.fill.buf / 2 ^ (r.fill.bits - pre.length)) ++
        msbBits (r.fill.bits - pre.length) r.fill.buf := by
    rw [← msbBits_add, Nat.add_sub_cancel' hlen]
  have hparts : pre ++ post = msbBits pre.length (r.fill.buf / 2 ^ (r.fill.bits - pre.length)) ++
      (msbBits (r.fill.bits - pre.length) r.fill.buf ++ bitsOf (payload r.fill.rest)) := by
    rw [← hstream, ← hsame, stream, hsplit, List.append_assoc]
  obtain ⟨hpre, hpost⟩ := List.append_inj hparts (by rw [length_msbBits])
  have hval : (r.fill.buf >>> (r.fill.bits - pre.length)) &&& (2 ^ pre.length - 1) =
      bitsVal pre := by
    have hpre' := congrArg bitsVal hpre
    rw [bitsVal_msbBits] at hpre'
    rw [Nat.and_two_pow_sub_one_eq_mod, Nat.shiftRight_eq_div_pow, hpre']
  refine ⟨r.fill.skipBits pre.length, ?_, hwf', hstream'.trans hpost.symm⟩
  rw [readBits, peekBits, if_neg (Nat.not_lt.mpr hlen), bind_ok, hval]
  rfl

/-- Reading more bits than there are goes wrong. -/
theorem readBits_panic (hwf : r.WellFormed) (hlen : r.stream.length < n) :
    r.readBits n = .error .panic := by
  obtain ⟨hfill, hsame, -⟩ := fill_spec hwf
  have hbits : r.fill.bits < n := by
    rw [← hsame, stream, List.length_append, length_msbBits] at hlen
    omega
  rw [readBits, peekBits, if_pos hbits]
  rfl

theorem readBit_ok (hwf : r.WellFormed) {b : Bool} {post : List Bool} (hstream : r.stream = b :: post) :
    ∃ r', r.readBit = .ok (b.toNat, r') ∧ r'.WellFormed ∧ r'.stream = post := by
  obtain ⟨r', hread, hwf', hstream'⟩ := readBits_ok hwf (Nat.le_of_ble_eq_true rfl : [b].length ≤ 25) hstream
  refine ⟨r', ?_, hwf', hstream'⟩
  have hval : bitsVal [b] = b.toNat := by
    rw [bitsVal, bitsOnto_cons]
    exact Nat.zero_add _
  rwa [hval] at hread

end

end BitReader

end PureOS.Jpeg
