import PureOS.Jpeg.Reader

set_option autoImplicit false

/-!
# Jpeg: coded bytes and their bits (`jpeg.rs`)

In the coded data of a scan a zero is stuffed in behind every data byte 0xFF, and there may be
restart markers.  The reader delivers the bits of the data bytes, in fields of any size, unless
the data byte behind a stuffed one looks like the second byte of a restart marker.
-/

namespace PureOS.Jpeg

open PureOS.Foundation BitReader

/-- What coded data consists of. -/
inductive CodedItem where
  | byte (b : UInt8)
  | restart (k : Fin 8)

/-- The bytes of an item. -/
def CodedItem.toBytes : CodedItem → List UInt8
  | .byte b => if b = 0xFF then [0xFF, 0x00] else [b]
  | .restart k => [0xFF, 0xD0 + UInt8.ofNat k.val]

/-- The bytes of coded data. -/
def codedBytes (items : List CodedItem) : List UInt8 := items.flatMap CodedItem.toBytes

/-- The data bytes, without stuffing and markers. -/
def dataBytes : List CodedItem → List UInt8
  | [] => []
  | .byte b :: rest => b :: dataBytes rest
  | .restart _ :: rest => dataBytes rest

/-- A byte that may stand behind 0xFF in a restart marker. -/
def MarkerLike (b : UInt8) : Prop := b &&& 0xF8 = 0xD0

instance (b : UInt8) : Decidable (MarkerLike b) := inferInstanceAs (Decidable (_ = _))

/-- Behind a data byte 0xFF, the next item is not a data byte like that of a marker. -/
def Plain (items : List CodedItem) : Prop :=
  ∀ front b back, items = front ++ .byte 0xFF :: .byte b :: back → ¬MarkerLike b

/-- Calls of `read_bits`, one after the other. -/
def readFields : List Nat → BitReader → Except Fault (List Nat × BitReader)
  | [], r => .ok ([], r)
  | n :: ns, r => do
      let (val, r) ← r.readBits n
      let (vals, r) ← readFields ns r
      return (val :: vals, r)

/-- The values of the fields of such sizes in some bits. -/
def fieldsOf : List Nat → List Bool → List Nat
  | [], _ => []
  | n :: ns, bits => bitsVal (bits.take n) :: fieldsOf ns (bits.drop n)

/-- The reader returns the fields of the data bytes, as long as there are enough bits. -/
def Delivers (items : List CodedItem) : Prop :=
  ∀ ns : List Nat, (∀ n ∈ ns, 1 ≤ n ∧ n ≤ 16) → ns.sum ≤ 8 * (dataBytes items).length →
    ∃ r, readFields ns (.new (codedBytes items)) =
      .ok (fieldsOf ns (bitsOf (dataBytes items)), r)

/-- What comes behind the coded data does not look like the end of a restart marker. -/
def Apart (tail : List UInt8) : Prop := ∀ c, tail.head? = some c → ¬MarkerLike c

variable {items rest : List CodedItem} {b : UInt8} {r : BitReader} {ns : List Nat}
  {tail : List UInt8}

/-! ## What `fill` takes -/

theorem apart_nil : Apart [] := fun c h => by cases h

theorem codedBytes_byte (hb : b ≠ 0xFF) : codedBytes (.byte b :: rest) = b :: codedBytes rest := by
  rw [codedBytes, List.flatMap_cons, CodedItem.toBytes, if_neg hb]
  rfl

/-- The first byte of coded data looks like that of a marker only if it is a data byte. -/
theorem head_codedBytes (items : List CodedItem) (htail : Apart tail) :
    ((codedBytes items ++ tail).head?.any fun c => c &&& 0xF8 == 0xD0) = true ↔
      ∃ b rest, items = .byte b :: rest ∧ MarkerLike b := by
  cases items with
  | nil =>
      refine iff_of_false ?_ (by rintro ⟨b, rest, h, -⟩; cases h)
      intro h
      rw [codedBytes, List.flatMap_nil, List.nil_append] at h
      cases hc : tail.head? with
      | none =>
          rw [hc] at h
          cases h
      | some c =>
          rw [hc, Option.any_some, beq_iff_eq] at h
          exact htail c hc h
  | cons item rest =>
      cases item with
      | byte b =>
          by_cases hb : b = 0xFF
          · subst hb
            have hhead : (codedBytes (.byte 0xFF :: rest) ++ tail).head? = some 0xFF := rfl
            rw [hhead]
            refine iff_of_false (by decide) ?_
            rintro ⟨b, rest', h, hlike⟩
            cases h
            revert hlike
            decide
          · rw [codedBytes_byte hb, List.cons_append, List.head?_cons, Option.any_some,
              beq_iff_eq]
            constructor
            · exact fun h => ⟨b, rest, rfl, h⟩
            · rintro ⟨b', rest', h, hlike⟩
              cases h
              exact hlike
      | restart k =>
          have hhead : (codedBytes (.restart k :: rest) ++ tail).head? = some 0xFF := rfl
          rw [hhead]
          exact iff_of_false (by decide) (by rintro ⟨b, rest', h, -⟩; cases h)

theorem turn_byte (hb : b ≠ 0xFF) :
    BitReader.turn (codedBytes (.byte b :: rest) ++ tail) =
      some (some b, codedBytes rest ++ tail) := by
  rw [codedBytes_byte hb, List.cons_append, BitReader.turn, if_neg fun h => hb h.1, behind,
    if_neg fun h => hb h.1]

theorem turn_restart (k : Fin 8) :
    BitReader.turn (codedBytes (.restart k :: rest) ++ tail) =
      some (none, codedBytes rest ++ tail) := by
  have hmarker : ∀ k : Fin 8, (0xD0 + UInt8.ofNat k.val) &&& 0xF8 = 0xD0 ∧
      0xD0 + UInt8.ofNat k.val ≠ (0x00 : UInt8) := by decide
  have hbytes : codedBytes (.restart k :: rest) ++ tail =
      0xFF :: (0xD0 + UInt8.ofNat k.val) :: (codedBytes rest ++ tail) := rfl
  have hbehind : behind 0xFF ((0xD0 + UInt8.ofNat k.val) :: (codedBytes rest ++ tail)) =
      (0xD0 + UInt8.ofNat k.val) :: (codedBytes rest ++ tail) :=
    if_neg fun h => (hmarker k).2 (Option.some.inj h.2)
  rw [hbytes, BitReader.turn, hbehind, if_pos ⟨rfl, by
    rw [List.head?_cons, Option.any_some, beq_iff_eq]
    exact (hmarker k).1⟩]
  rfl

theorem turn_stuffed :
    BitReader.turn (codedBytes (.byte 0xFF :: rest) ++ tail) =
      if (codedBytes rest ++ tail).head?.any fun c => c &&& 0xF8 == 0xD0 then
        some (none, (codedBytes rest ++ tail).tail)
      else some (some 0xFF, codedBytes rest ++ tail) := by
  have hbytes : codedBytes (.byte 0xFF :: rest) ++ tail =
      0xFF :: 0x00 :: (codedBytes rest ++ tail) := rfl
  have hbehind : behind 0xFF (0x00 :: (codedBytes rest ++ tail)) = codedBytes rest ++ tail :=
    if_pos ⟨rfl, rfl⟩
  rw [hbytes, BitReader.turn, hbehind]
  by_cases hlike : ((codedBytes rest ++ tail).head?.any fun c => c &&& 0xF8 == 0xD0) = true
  · rw [if_pos hlike, if_pos ⟨rfl, hlike⟩]
  · rw [if_neg hlike, if_neg fun h => hlike h.2]

theorem plain_restart (k : Fin 8) : Plain (.restart k :: items) ↔ Plain items := by
  constructor
  · exact fun h front b back heq => h (.restart k :: front) b back (by rw [heq]; rfl)
  · intro h front b back heq
    cases front with
    | nil => cases heq
    | cons item front => exact h front b back (List.cons.inj heq).2

theorem plain_byte : Plain (.byte b :: items) ↔
    (b = 0xFF → ∀ c back, items = .byte c :: back → ¬MarkerLike c) ∧ Plain items := by
  constructor
  · intro h
    refine ⟨?_, fun front c back heq => h (.byte b :: front) c back (by rw [heq]; rfl)⟩
    rintro rfl c back rfl
    exact h [] c back rfl
  · rintro ⟨hfirst, h⟩ front c back heq
    cases front with
    | nil =>
        cases heq
        exact hfirst rfl c back rfl
    | cons item front => exact h front c back (List.cons.inj heq).2

/-- Plain data is delivered, and then what comes behind it. -/
theorem payload_of_plain (h : Plain items) (htail : Apart tail) :
    payload (codedBytes items ++ tail) = dataBytes items ++ payload tail := by
  induction items with
  | nil => rfl
  | cons item rest ih =>
      cases item with
      | restart k => exact (payload_of_turn (turn_restart k)).trans (ih ((plain_restart k).mp h))
      | byte b =>
          obtain ⟨hfirst, hrest⟩ := plain_byte.mp h
          have hturn : BitReader.turn (codedBytes (.byte b :: rest) ++ tail) =
              some (some b, codedBytes rest ++ tail) := by
            by_cases hb : b = 0xFF
            · subst hb
              rw [turn_stuffed, if_neg]
              intro hlike
              obtain ⟨c, back, rfl, hc⟩ := (head_codedBytes rest htail).mp hlike
              exact hfirst rfl c back rfl hc
            · exact turn_byte hb
          rw [payload_of_turn hturn, ih hrest]
          rfl

/-- What is delivered is never longer than the data, and shorter if the data is not plain. -/
theorem payload_length (items : List CodedItem) :
    (payload (codedBytes items ++ [])).length ≤ (dataBytes items).length ∧
      (¬Plain items → (payload (codedBytes items ++ [])).length < (dataBytes items).length) := by
  induction hn : items.length using Nat.strongRecOn generalizing items with
  | _ n ih =>
      cases items with
      | nil =>
          refine ⟨Nat.le_refl 0, fun h => absurd ?_ h⟩
          intro front b back heq
          cases front <;> cases heq
      | cons item rest =>
          subst hn
          obtain ⟨hle, hlt⟩ := ih rest.length (Nat.lt_succ_self _) rest rfl
          cases item with
          | restart k =>
              rw [payload_of_turn (turn_restart k)]
              exact ⟨hle, fun hnot => hlt fun hplain => hnot ((plain_restart k).mpr hplain)⟩
          | byte b =>
              by_cases hdrop : b = 0xFF ∧ ∃ c back, rest = .byte c :: back ∧ MarkerLike c
              · obtain ⟨rfl, c, back, rfl, hc⟩ := hdrop
                have hne : c ≠ 0xFF := by
                  rintro rfl
                  exact absurd hc (by decide)
                have hturn := @turn_stuffed (.byte c :: back) []
                rw [if_pos ((head_codedBytes _ apart_nil).mpr ⟨c, back, rfl, hc⟩),
                  codedBytes_byte hne] at hturn
                have hback := (ih back.length (by simp only [List.length_cons]; omega) back rfl).1
                rw [payload_of_turn hturn, dataBytes, dataBytes, List.length_cons, List.length_cons]
                exact ⟨Nat.le_add_right_of_le (Nat.le_add_right_of_le hback),
                  fun _ => Nat.lt_succ_of_le (Nat.le_add_right_of_le hback)⟩
              · have hturn : BitReader.turn (codedBytes (.byte b :: rest) ++ []) =
                    some (some b, codedBytes rest ++ []) := by
                  by_cases hb : b = 0xFF
                  · subst hb
                    rw [turn_stuffed, if_neg]
                    exact fun hlike => hdrop ⟨rfl, (head_codedBytes rest apart_nil).mp hlike⟩
                  · exact turn_byte hb
                have hplain : Plain rest → Plain (.byte b :: rest) := fun hrest =>
                  plain_byte.mpr ⟨fun hb c back heq hc => hdrop ⟨hb, c, back, heq, hc⟩, hrest⟩
                rw [payload_of_turn hturn, dataBytes]
                exact ⟨Nat.succ_le_succ hle,
                  fun hnot => Nat.succ_lt_succ (hlt fun hrest => hnot (hplain hrest))⟩

/-! ## Fields -/

theorem length_bitsOf (bytes : List UInt8) : (bitsOf bytes).length = 8 * bytes.length := by
  induction bytes with
  | nil => rfl
  | cons b bytes ih =>
      rw [bitsOf, List.flatMap_cons, List.length_append, length_msbBits, List.length_cons]
      rw [bitsOf] at ih
      omega

/-- Fields are read in order, while there are bits. -/
theorem readFields_ok (hwf : r.WellFormed) (hns : ∀ n ∈ ns, 1 ≤ n ∧ n ≤ 16)
    (hsum : ns.sum ≤ r.stream.length) :
    ∃ r', readFields ns r = .ok (fieldsOf ns r.stream, r') := by
  induction ns generalizing r with
  | nil => exact ⟨r, rfl⟩
  | cons n ns ih =>
      obtain ⟨-, hle⟩ := hns n List.mem_cons_self
      rw [List.sum_cons] at hsum
      have hlen : (r.stream.take n).length = n := by
        rw [List.length_take]
        omega
      obtain ⟨r₁, hread, hwf₁, hstream⟩ := @readBits_ok r hwf (r.stream.take n)
        (r.stream.drop n) (by omega) (List.take_append_drop n _).symm
      rw [hlen] at hread
      obtain ⟨r', hrest⟩ := ih hwf₁ (fun m hm => hns m (List.mem_cons_of_mem n hm))
        (by rw [hstream, List.length_drop]; omega)
      refine ⟨r', ?_⟩
      rw [readFields, hread, bind_ok]
      dsimp only
      rw [hrest, hstream]
      rfl

/-- Fields that are read lie in the bits. -/
theorem length_of_readFields (hwf : r.WellFormed) (hns : ∀ n ∈ ns, 1 ≤ n ∧ n ≤ 16)
    {vals : List Nat} {r' : BitReader} (h : readFields ns r = .ok (vals, r')) :
    ns.sum ≤ r.stream.length := by
  induction ns generalizing r vals r' with
  | nil => exact Nat.zero_le _
  | cons n ns ih =>
      obtain ⟨⟨val, r₁⟩, hread, h⟩ := bind_eq_ok h
      obtain ⟨⟨vals', r₂⟩, hrest, -⟩ := bind_eq_ok h
      have hfirst : n ≤ r.stream.length := by
        by_contra hmore
        rw [readBits_panic hwf (by omega)] at hread
        cases hread
      obtain ⟨-, hle⟩ := hns n List.mem_cons_self
      have hlen : (r.stream.take n).length = n := by
        rw [List.length_take]
        omega
      obtain ⟨r₁', hread', hwf₁, hstream⟩ := @readBits_ok r hwf (r.stream.take n)
        (r.stream.drop n) (by omega) (List.take_append_drop n _).symm
      rw [hlen, hread] at hread'
      cases hread'
      have hsum := ih hwf₁ (fun m hm => hns m (List.mem_cons_of_mem n hm)) hrest
      rw [hstream, List.length_drop] at hsum
      rw [List.sum_cons]
      omega

/-- The reader returns the fields of the data bytes, exactly if no data byte behind a stuffed one
looks like the second byte of a restart marker. -/
theorem delivers_iff (items : List CodedItem) : Delivers items ↔ Plain items := by
  have hwf := new_wellFormed (codedBytes items)
  constructor
  · intro h
    by_contra hnot
    have hall : ∀ n ∈ List.replicate (dataBytes items).length 8, 1 ≤ n ∧ n ≤ 16 := by
      intro n hn
      rw [List.eq_of_mem_replicate hn]
      decide
    have hsum : (List.replicate (dataBytes items).length 8).sum = 8 * (dataBytes items).length := by
      rw [List.sum_replicate_nat, Nat.mul_comm]
    obtain ⟨r, hread⟩ := h _ hall (Nat.le_of_eq hsum)
    have hlen := length_of_readFields hwf hall hread
    have hshort := (payload_length items).2 hnot
    rw [List.append_nil] at hshort
    rw [hsum, stream_new, length_bitsOf] at hlen
    omega
  · intro hplain ns hns hsum
    have hstream : (BitReader.new (codedBytes items)).stream = bitsOf (dataBytes items) := by
      have hpayload := payload_of_plain hplain apart_nil
      rw [List.append_nil] at hpayload
      rw [stream_new, hpayload]
      exact congrArg bitsOf (List.append_nil _)
    obtain ⟨r, hread⟩ := readFields_ok hwf hns (by rw [hstream, length_bitsOf]; exact hsum)
    exact ⟨r, by rw [hread, hstream]⟩

/-- A data byte 0xFF, with its zero, and a data byte 0xD0 are both left out. -/
theorem not_delivers : ¬∀ items : List CodedItem, Delivers items := by
  intro h
  obtain ⟨r, hread⟩ := h [.byte 0xFF, .byte 0xD0] [8, 8] (by decide) (by decide)
  have hnone : readFields [8, 8] (.new (codedBytes [.byte 0xFF, .byte 0xD0])) = .error .panic := by
    decide +kernel
  rw [hnone] at hread
  cases hread

end PureOS.Jpeg
