import PureOS.Input.Ps2

set_option autoImplicit false

/-!
# Input: what the keyboard decoder types (`keyboard.rs`)

A stream of scancodes is a stream of keys that go down and up, each with a prefix or without.
The decoder has one flag for two shift keys, and some of its ways through a code leave the flag
of the prefix where it was.
-/

namespace PureOS.Input

open PureOS.Foundation

/-! ## Keys and their codes -/

/-- A key goes down or up.  The break code of `0x60` would be the prefix. -/
structure Key where
  extended : Bool
  release : Bool
  code : UInt8
  seven : code.toNat < 128
  apart : release = true → code ≠ 0x60

namespace Key

variable (e : Key)

/-- The code of a key, without its prefix. -/
def byte : UInt8 := if e.release then e.code + 0x80 else e.code

/-- The scancodes of a key. -/
def bytes : List UInt8 := if e.extended then [0xe0, e.byte] else [e.byte]

/-- A shift key. -/
def isShift : Bool := e.code = 0x2a || e.code = 0x36

/-- The Meta key goes down. -/
def isMetaMake : Bool := !e.release && (e.code = 0x5b || e.code = 0x5c)

/-- A key with a prefix behind which the flag stays. -/
def leaves : Bool := e.extended && (e.isShift || e.isMetaMake)

/-- A key without a prefix that does not see to the flag. -/
def keeps : Bool := !e.extended && (e.isShift || e.isMetaMake)

end Key

/-- Whether a shift key is held, by its own codes without a prefix. -/
def heldKey (code : UInt8) (before : List Key) : Bool :=
  match before.reverse.find? fun e => !e.extended && e.code = code with
  | none => false
  | some e => !e.release

/-- Whether a shift key is held. -/
def shiftHeld (before : List Key) : Bool := heldKey 0x2a before || heldKey 0x36 before

/-- What a key types, after others. -/
def charOf (before : List Key) (e : Key) : List UInt8 :=
  if e.release then []
  else if e.extended then (if e.isMetaMake then [keyMeta] else [])
  else
    let ch := entryAt (if shiftHeld before then shiftMap else normalMap) e.code.toNat
    if ch ≠ 0 then [ch] else []

/-- What a stream of keys types, after others. -/
def charsOf : List Key → List Key → List UInt8
  | _, [] => []
  | before, e :: rest => charOf before e ++ charsOf (before ++ [e]) rest

/-! ## What the decoder does -/

namespace Keyboard

variable (k : Keyboard)

/-- The characters that `handle_scancode` gives to `push_buf`. -/
def typedBy (code : UInt8) : List UInt8 :=
  if code = 0xe0 then []
  else if code = 0x5b ∨ code = 0x5c then [keyMeta]
  else if code = 0x2a ∨ code = 0x36 then []
  else if code = 0xaa ∨ code = 0xb6 then []
  else if code.toNat.testBit 7 then []
  else if k.extended then []
  else
    let ch := entryAt (if k.shift then shiftMap else normalMap) (code.toNat % 128)
    if ch ≠ 0 then [ch] else []

/-- The decoder after some scancodes. -/
def feed (codes : List UInt8) : Keyboard := codes.foldl handleScancode k

/-- The characters that go to `push_buf` for some scancodes. -/
def typed : Keyboard → List UInt8 → List UInt8
  | _, [] => []
  | k, code :: rest => k.typedBy code ++ typed (k.handleScancode code) rest

/-- The keys of the keyboard are up, and the decoder knows it. -/
structure Fresh : Prop where
  shift : k.shift = false
  extended : k.extended = false

end Keyboard

/-- The scancodes of a stream of keys. -/
def scancodes (keys : List Key) : List UInt8 := keys.flatMap Key.bytes

/-! ## When the decoder is right -/

/-- A prefix is pending: behind a key that left it, there are only keys that do not see to it. -/
def Pending (before : List Key) : Prop :=
  ∃ earlier e later, before = earlier ++ e :: later ∧ e.leaves = true ∧
    ∀ d ∈ later, d.keeps = true

/-- Whether the last code of a shift key, with or without a prefix, was a make code. -/
def lastShift (before : List Key) : Bool :=
  match before.reverse.find? Key.isShift with
  | none => false
  | some e => !e.release

/-- A key that the decoder does right.  One without a prefix that goes down is not Meta; if it
has a character, no prefix is pending, and if it has two, the last code of a shift key says
whether one is held.  A shift key with a prefix only says what the last one said. -/
structure Key.Clear (before : List Key) (e : Key) : Prop where
  plain : e.extended = false → e.release = false →
    e.isMetaMake = false ∧ (entryAt normalMap e.code.toNat ≠ 0 → ¬Pending before ∧
      (entryAt normalMap e.code.toNat ≠ entryAt shiftMap e.code.toNat →
        lastShift before = shiftHeld before))
  shift : e.extended = true → e.isShift = true → lastShift before = !e.release

/-- All keys of a stream are done right. -/
def Clear (keys : List Key) : Prop :=
  ∀ before e rest, keys = before ++ e :: rest → e.Clear before

/-- The decoder types what the keys say, and a key with a prefix does not change the shift. -/
structure Keyboard.Decodes (k : Keyboard) (keys : List Key) : Prop where
  chars : k.typed (scancodes keys) = charsOf [] keys
  ring : (k.feed (scancodes keys)).keybuf = ((charsOf [] keys).foldl Keyboard.pushBuf k).keybuf ∧
    (k.feed (scancodes keys)).head = ((charsOf [] keys).foldl Keyboard.pushBuf k).head ∧
    (k.feed (scancodes keys)).tail = k.tail
  shift : ∀ before e rest, keys = before ++ e :: rest → e.extended = true →
    (k.feed (scancodes (before ++ [e]))).shift = (k.feed (scancodes before)).shift

/-! ## One code -/

theorem eq_iff_toNat (a b : UInt8) : a = b ↔ a.toNat = b.toNat := UInt8.toNat_inj.symm

namespace Keyboard

variable (k : Keyboard)

theorem pushBuf_decoded_comm (ch : UInt8) (codes : List UInt8) :
    ({ k with decoded := codes } : Keyboard).pushBuf ch = { k.pushBuf ch with decoded := codes } := by
  unfold pushBuf
  dsimp only
  split <;> rfl

theorem pushBuf_flags (ch : UInt8) : (k.pushBuf ch).shift = k.shift ∧
    (k.pushBuf ch).extended = k.extended ∧ (k.pushBuf ch).tail = k.tail := by
  unfold pushBuf
  dsimp only
  split <;> exact ⟨rfl, rfl, rfl⟩

/-- What the decoder does with a code, apart from its flags, is `push_buf`. -/
theorem handleScancode_eq (code : UInt8) :
    k.handleScancode code =
      { (k.typedBy code).foldl pushBuf k with
        shift := (k.handleScancode code).shift
        extended := (k.handleScancode code).extended
        decoded := k.decoded ++ [code] } := by
  unfold handleScancode typedBy
  dsimp only
  generalize entryAt (if k.shift then shiftMap else normalMap) (code.toNat % 128) = ch
  split_ifs
  · rfl
  · rw [pushBuf_decoded_comm]
    rfl
  · rfl
  · rfl
  · rfl
  · rfl
  · rw [pushBuf_decoded_comm]
    rfl
  · rfl

end Keyboard

/-! ## One key -/

namespace Key

variable (e : Key)

theorem toNat_byte : e.byte.toNat = if e.release then e.code.toNat + 128 else e.code.toNat := by
  have hseven := e.seven
  have h128 : (0x80 : UInt8).toNat = 128 := rfl
  rw [byte]
  split
  · rw [UInt8.toNat_add, h128]
    omega
  · rfl

theorem testBit_byte : e.byte.toNat.testBit 7 = e.release := by
  rw [toNat_byte]
  cases e.release with
  | true =>
      rw [if_pos rfl, Nat.add_comm]
      change (2 ^ 7 + e.code.toNat).testBit 7 = true
      rw [Nat.testBit_two_pow_add_eq, Nat.testBit_lt_two_pow e.seven]
      rfl
  | false => exact Nat.testBit_lt_two_pow e.seven

/-- The number of the code of a key and its direction say what its byte is. -/
theorem byte_eq_iff (b : UInt8) :
    e.byte = b ↔ if e.release then e.code.toNat + 128 = b.toNat else e.code.toNat = b.toNat := by
  rw [eq_iff_toNat, toNat_byte]
  split <;> exact Iff.rfl

theorem byte_ne_prefix : e.byte ≠ 0xe0 := by
  intro heq
  rw [byte_eq_iff] at heq
  split at heq
  · rename_i hrelease
    refine e.apart hrelease ((eq_iff_toNat _ _).mpr ?_)
    change e.code.toNat = 96
    change e.code.toNat + 128 = 224 at heq
    omega
  · have hseven := e.seven
    rw [heq] at hseven
    exact absurd hseven (by decide)

theorem isShift_iff : e.isShift = true ↔ e.code.toNat = 0x2a ∨ e.code.toNat = 0x36 := by
  rw [isShift, Bool.or_eq_true, decide_eq_true_eq, decide_eq_true_eq, eq_iff_toNat, eq_iff_toNat]
  rfl

theorem isMetaMake_iff : e.isMetaMake = true ↔
    e.release = false ∧ (e.code.toNat = 0x5b ∨ e.code.toNat = 0x5c) := by
  rw [isMetaMake, Bool.and_eq_true, Bool.not_eq_true', Bool.or_eq_true, decide_eq_true_eq,
    decide_eq_true_eq, eq_iff_toNat, eq_iff_toNat]
  rfl

theorem byte_meta_iff : (e.byte = 0x5b ∨ e.byte = 0x5c) ↔ e.isMetaMake = true := by
  rw [byte_eq_iff, byte_eq_iff, isMetaMake_iff]
  cases e.release with
  | true =>
      refine iff_of_false ?_ fun h => absurd h.1 (by decide)
      rintro (h | h)
      · change e.code.toNat + 128 = 91 at h
        omega
      · change e.code.toNat + 128 = 92 at h
        omega
  | false => exact (and_iff_right rfl).symm

theorem byte_shiftMake_iff :
    (e.byte = 0x2a ∨ e.byte = 0x36) ↔ e.isShift = true ∧ e.release = false := by
  rw [byte_eq_iff, byte_eq_iff, isShift_iff]
  cases e.release with
  | true =>
      refine iff_of_false ?_ fun h => absurd h.2 (by decide)
      rintro (h | h)
      · change e.code.toNat + 128 = 42 at h
        omega
      · change e.code.toNat + 128 = 54 at h
        omega
  | false => exact (and_iff_left rfl).symm

theorem byte_shiftBreak_iff :
    (e.byte = 0xaa ∨ e.byte = 0xb6) ↔ e.isShift = true ∧ e.release = true := by
  rw [byte_eq_iff, byte_eq_iff, isShift_iff]
  cases e.release with
  | true =>
      refine Iff.trans ?_ (and_iff_left rfl).symm
      change e.code.toNat + 128 = 170 ∨ e.code.toNat + 128 = 182 ↔ _
      omega
  | false =>
      have hseven := e.seven
      refine iff_of_false ?_ fun h => absurd h.2 (by decide)
      rintro (h | h)
      · change e.code.toNat = 170 at h
        omega
      · change e.code.toNat = 182 at h
        omega

end Key

namespace Keyboard

variable (k : Keyboard) (e : Key)

/-- What the decoder does with the code of a key. -/
theorem handleScancode_byte :
    k.handleScancode e.byte =
      if e.isMetaMake then ({ k with decoded := k.decoded ++ [e.byte] } : Keyboard).pushBuf keyMeta
      else if e.isShift then { k with decoded := k.decoded ++ [e.byte], shift := !e.release }
      else if e.release || k.extended then
        { k with decoded := k.decoded ++ [e.byte], extended := false }
      else if entryAt (if k.shift then shiftMap else normalMap) e.code.toNat ≠ 0 then
        ({ k with decoded := k.decoded ++ [e.byte] } : Keyboard).pushBuf
          (entryAt (if k.shift then shiftMap else normalMap) e.code.toNat)
      else { k with decoded := k.decoded ++ [e.byte] } := by
  unfold handleScancode
  dsimp only
  rw [if_neg e.byte_ne_prefix, e.testBit_byte]
  by_cases hmeta : e.isMetaMake = true
  · rw [if_pos (e.byte_meta_iff.mpr hmeta), if_pos hmeta]
  rw [if_neg (mt e.byte_meta_iff.mp hmeta), if_neg hmeta]
  by_cases hshift : e.isShift = true
  · rw [if_pos hshift]
    cases hrelease : e.release with
    | false =>
        rw [if_pos (e.byte_shiftMake_iff.mpr ⟨hshift, hrelease⟩)]
        rfl
    | true =>
        have hmake : ¬(e.byte = 0x2a ∨ e.byte = 0x36) := fun h =>
          Bool.false_ne_true ((e.byte_shiftMake_iff.mp h).2.symm.trans hrelease)
        rw [if_neg hmake, if_pos (e.byte_shiftBreak_iff.mpr ⟨hshift, hrelease⟩)]
        rfl
  rw [if_neg fun h => hshift (e.byte_shiftMake_iff.mp h).1,
    if_neg fun h => hshift (e.byte_shiftBreak_iff.mp h).1, if_neg hshift]
  cases hrelease : e.release with
  | true => rfl
  | false =>
      have hbyte : e.byte = e.code := by
        rw [Key.byte, hrelease]
        rfl
      rw [hbyte, Nat.mod_eq_of_lt e.seven]
      cases k.extended <;> rfl

/-- What the code of a key types. -/
theorem typedBy_byte :
    k.typedBy e.byte =
      if e.isMetaMake then [keyMeta]
      else if e.isShift || e.release || k.extended then []
      else if entryAt (if k.shift then shiftMap else normalMap) e.code.toNat ≠ 0 then
        [entryAt (if k.shift then shiftMap else normalMap) e.code.toNat]
      else [] := by
  unfold typedBy
  dsimp only
  rw [if_neg e.byte_ne_prefix, e.testBit_byte]
  by_cases hmeta : e.isMetaMake = true
  · rw [if_pos (e.byte_meta_iff.mpr hmeta), if_pos hmeta]
  rw [if_neg (mt e.byte_meta_iff.mp hmeta), if_neg hmeta]
  cases hshift : e.isShift with
  | true =>
      rw [Bool.true_or, Bool.true_or, if_pos rfl]
      cases hrelease : e.release with
      | false => rw [if_pos (e.byte_shiftMake_iff.mpr ⟨hshift, hrelease⟩)]
      | true =>
          split
          · rfl
          · rw [if_pos (e.byte_shiftBreak_iff.mpr ⟨hshift, hrelease⟩)]
  | false =>
      have hmake : ¬(e.byte = 0x2a ∨ e.byte = 0x36) := fun h =>
        Bool.false_ne_true (hshift.symm.trans (e.byte_shiftMake_iff.mp h).1)
      have hbreak : ¬(e.byte = 0xaa ∨ e.byte = 0xb6) := fun h =>
        Bool.false_ne_true (hshift.symm.trans (e.byte_shiftBreak_iff.mp h).1)
      rw [if_neg hmake, if_neg hbreak, Bool.false_or]
      cases hrelease : e.release with
      | true => rfl
      | false =>
          have hbyte : e.byte = e.code := by
            rw [Key.byte, hrelease]
            rfl
          rw [hbyte, Nat.mod_eq_of_lt e.seven]
          cases k.extended <;> rfl

/-- A shift key, with a prefix or without, says what the shift is. -/
theorem shift_byte : (k.handleScancode e.byte).shift = if e.isShift then !e.release else k.shift := by
  rw [handleScancode_byte]
  by_cases hmeta : e.isMetaMake = true
  · have hshift : ¬e.isShift = true := by
      rw [e.isMetaMake_iff] at hmeta
      rw [e.isShift_iff]
      omega
    rw [if_pos hmeta, if_neg hshift]
    exact (pushBuf_flags _ _).1
  rw [if_neg hmeta]
  generalize entryAt (if k.shift then shiftMap else normalMap) e.code.toNat = ch
  split
  · rfl
  split
  · rfl
  split
  · exact (pushBuf_flags _ _).1
  · rfl

/-- The flag of the prefix stays with the shift keys and with Meta. -/
theorem extended_byte : (k.handleScancode e.byte).extended =
    ((e.isShift || e.isMetaMake) && k.extended) := by
  rw [handleScancode_byte]
  generalize entryAt (if k.shift then shiftMap else normalMap) e.code.toNat = ch
  cases hmeta : e.isMetaMake with
  | true =>
      rw [if_pos rfl, Bool.or_true, Bool.true_and]
      exact (pushBuf_flags _ _).2.1
  | false =>
      rw [if_neg Bool.false_ne_true, Bool.or_false]
      cases e.isShift with
      | true => rfl
      | false =>
          rw [if_neg Bool.false_ne_true, Bool.false_and]
          split
          · rfl
          · rename_i hplain
            have hnot : k.extended = false := by
              rw [Bool.not_eq_true, Bool.or_eq_false_iff] at hplain
              exact hplain.2
            split
            · exact (pushBuf_flags _ _).2.1.trans hnot
            · exact hnot

theorem typed_append (k : Keyboard) (codes codes' : List UInt8) :
    k.typed (codes ++ codes') = k.typed codes ++ (k.feed codes).typed codes' := by
  induction codes generalizing k with
  | nil => rfl
  | cons code codes ih =>
      rw [List.cons_append, typed, ih, typed, List.append_assoc]
      rfl

theorem feed_append (k : Keyboard) (codes codes' : List UInt8) :
    k.feed (codes ++ codes') = (k.feed codes).feed codes' := List.foldl_append

theorem typedBy_prefix : k.typedBy 0xe0 = [] := rfl

theorem handleScancode_prefix : k.handleScancode 0xe0 =
    { k with decoded := k.decoded ++ [0xe0], extended := true } := rfl

/-- The shift behind a key. -/
theorem shift_bytes : (k.feed e.bytes).shift = if e.isShift then !e.release else k.shift := by
  rw [Key.bytes]
  split
  · exact shift_byte _ e
  · exact shift_byte k e

/-- The flag of the prefix behind a key. -/
theorem extended_bytes : (k.feed e.bytes).extended =
    ((e.isShift || e.isMetaMake) && (e.extended || k.extended)) := by
  rw [Key.bytes]
  cases e.extended with
  | true => exact extended_byte _ e
  | false => exact extended_byte k e

/-- What a key types. -/
theorem typed_bytes :
    k.typed e.bytes =
      if e.isMetaMake then [keyMeta]
      else if e.isShift || e.release || (e.extended || k.extended) then []
      else if entryAt (if k.shift then shiftMap else normalMap) e.code.toNat ≠ 0 then
        [entryAt (if k.shift then shiftMap else normalMap) e.code.toNat]
      else [] := by
  rw [Key.bytes]
  cases e.extended with
  | true =>
      rw [if_pos rfl, typed, typed, typed, typedBy_prefix, handleScancode_prefix, typedBy_byte,
        List.nil_append, List.append_nil]
      rfl
  | false =>
      rw [if_neg Bool.false_ne_true, typed, typed, typedBy_byte, List.append_nil]
      rfl

end Keyboard

/-! ## The flags and the keys before -/

section

variable {k : Keyboard} {before : List Key} {e : Key}

theorem lastShift_snoc (before : List Key) (e : Key) :
    lastShift (before ++ [e]) = if e.isShift then !e.release else lastShift before := by
  rw [lastShift, List.reverse_append, List.reverse_singleton, List.singleton_append,
    List.find?_cons]
  cases e.isShift <;> rfl

theorem pending_snoc (before : List Key) (e : Key) :
    Pending (before ++ [e]) ↔ e.leaves = true ∨ (e.keeps = true ∧ Pending before) := by
  constructor
  · rintro ⟨earlier, d, later, heq, hleaves, hkeeps⟩
    rcases List.eq_nil_or_concat later with rfl | ⟨later, c, rfl⟩
    · obtain ⟨-, heq⟩ := List.append_inj' heq rfl
      cases heq
      exact Or.inl hleaves
    · rw [List.concat_eq_append] at hkeeps
      rw [List.concat_eq_append, ← List.cons_append, ← List.append_assoc] at heq
      obtain ⟨rfl, hlast⟩ := List.append_inj' heq rfl
      obtain rfl := List.singleton_inj.mp hlast
      exact Or.inr ⟨hkeeps e (List.mem_append_right _ List.mem_cons_self),
        earlier, d, later, rfl, hleaves, fun c hc => hkeeps c (List.mem_append_left _ hc)⟩
  · rintro (hleaves | ⟨hkeeps, earlier, d, later, rfl, hleaves, hall⟩)
    · exact ⟨before, e, [], rfl, hleaves, fun d hd => absurd hd List.not_mem_nil⟩
    · refine ⟨earlier, d, later ++ [e], by rw [List.append_assoc, List.cons_append], hleaves, ?_⟩
      intro c hc
      rcases List.mem_append.mp hc with hc | hc
      · exact hall c hc
      · rw [List.mem_singleton.mp hc]
        exact hkeeps

theorem not_pending_nil : ¬Pending [] := by
  rintro ⟨earlier, d, later, heq, -⟩
  exact List.append_ne_nil_of_right_ne_nil earlier (List.cons_ne_nil d later) heq.symm

theorem scancodes_append (keys keys' : List Key) :
    scancodes (keys ++ keys') = scancodes keys ++ scancodes keys' := List.flatMap_append

theorem scancodes_cons (e : Key) (keys : List Key) :
    scancodes (e :: keys) = e.bytes ++ scancodes keys := List.flatMap_cons

/-- The flags of the decoder are what the keys say. -/
structure Keyboard.Behind (k : Keyboard) (before : List Key) : Prop where
  shift : k.shift = lastShift before
  extended : k.extended = true ↔ Pending before

theorem Keyboard.Fresh.behind (h : k.Fresh) : k.Behind [] :=
  ⟨h.shift, iff_of_false (by rw [h.extended]; decide) not_pending_nil⟩

theorem Keyboard.Behind.step (h : k.Behind before) (e : Key) :
    (k.feed e.bytes).Behind (before ++ [e]) := by
  refine ⟨?_, ?_⟩
  · rw [Keyboard.shift_bytes, lastShift_snoc, h.shift]
  · rw [Keyboard.extended_bytes, pending_snoc, ← h.extended, Key.leaves, Key.keeps]
    cases e.extended <;> cases (e.isShift || e.isMetaMake) <;> cases k.extended <;> decide

/-! ## Right keys -/

/-- The two tables have characters for the same codes, none of them that of Meta. -/
theorem entries : ∀ n < 128, (entryAt shiftMap n = 0 ↔ entryAt normalMap n = 0) ∧
    entryAt shiftMap n ≠ keyMeta ∧ entryAt normalMap n ≠ keyMeta := by
  decide +kernel

theorem entry_ne_zero_iff (b : Bool) (e : Key) :
    entryAt (if b then shiftMap else normalMap) e.code.toNat ≠ 0 ↔
      entryAt normalMap e.code.toNat ≠ 0 := by
  cases b with
  | true => exact not_congr (entries _ e.seven).1
  | false => exact Iff.rfl

theorem entry_of_isShift (h : e.isShift = true) : entryAt normalMap e.code.toNat = 0 := by
  rcases e.isShift_iff.mp h with h | h
  · rw [h]
    decide
  · rw [h]
    decide

theorem entry_of_isMetaMake (h : e.isMetaMake = true) : entryAt normalMap e.code.toNat = 0 := by
  rcases (e.isMetaMake_iff.mp h).2 with h | h
  · rw [h]
    decide
  · rw [h]
    decide

/-- The two tables are told apart by the codes where they differ. -/
theorem entry_eq_iff (b b' : Bool) (n : Nat) :
    entryAt (if b then shiftMap else normalMap) n = entryAt (if b' then shiftMap else normalMap) n ↔
      (entryAt normalMap n ≠ entryAt shiftMap n → b = b') := by
  cases b <;> cases b' <;> simp [eq_comm]

/-- Where the decoder types what the key says. -/
theorem typed_eq_charOf_iff (h : k.Behind before) (e : Key) :
    k.typed e.bytes = charOf before e ↔ (e.extended = false → e.release = false →
      e.isMetaMake = false ∧ (entryAt normalMap e.code.toNat ≠ 0 → ¬Pending before ∧
        (entryAt normalMap e.code.toNat ≠ entryAt shiftMap e.code.toNat →
          lastShift before = shiftHeld before))) := by
  rw [Keyboard.typed_bytes, charOf, ← h.extended, ← h.shift]
  cases hrelease : e.release with
  | true =>
      have hmeta : e.isMetaMake = false := by rw [Key.isMetaMake, hrelease]; rfl
      rw [hmeta, Bool.or_true, Bool.true_or]
      exact iff_of_true rfl fun _ hup => Bool.noConfusion hup
  | false =>
      cases hext : e.extended with
      | true =>
          rw [Bool.true_or, Bool.or_true]
          exact iff_of_true rfl fun hplain => Bool.noConfusion hplain
      | false =>
          dsimp only
          rw [Bool.or_false, Bool.false_or, if_neg Bool.false_ne_true, if_neg Bool.false_ne_true]
          by_cases hmeta : e.isMetaMake = true
          · have hnone := entry_of_isMetaMake hmeta
            rw [if_pos hmeta, if_neg (not_not_intro hnone |> mt (entry_ne_zero_iff _ e).mp)]
            refine iff_of_false (List.cons_ne_nil _ _) fun hall => ?_
            exact Bool.false_ne_true ((hall rfl rfl).1.symm.trans hmeta)
          rw [if_neg hmeta]
          rw [Bool.not_eq_true] at hmeta
          by_cases hprints : entryAt normalMap e.code.toNat = 0
          · rw [if_neg (not_not_intro hprints |> mt (entry_ne_zero_iff _ e).mp),
              if_neg (not_not_intro hprints |> mt (entry_ne_zero_iff _ e).mp), ite_self]
            exact iff_of_true rfl fun _ _ => ⟨hmeta, fun hne => absurd hprints hne⟩
          have hshift : e.isShift = false := by
            rw [← Bool.not_eq_true]
            exact fun hpos => hprints (entry_of_isShift hpos)
          rw [hshift, Bool.false_or, if_pos ((entry_ne_zero_iff _ e).mpr hprints),
            if_pos ((entry_ne_zero_iff _ e).mpr hprints)]
          cases k.extended with
          | true =>
              refine iff_of_false (fun heq => List.cons_ne_nil _ _ heq.symm) fun hall => ?_
              exact ((hall rfl rfl).2 hprints).1 rfl
          | false =>
              rw [if_neg Bool.false_ne_true, List.singleton_inj, entry_eq_iff]
              exact ⟨fun heq _ _ => ⟨hmeta, fun _ => ⟨Bool.false_ne_true, heq⟩⟩,
                fun hall => ((hall rfl rfl).2 hprints).2⟩

/-- Where a key with a prefix does not change the shift. -/
theorem shift_bytes_iff (h : k.Behind before) (e : Key) :
    (k.feed e.bytes).shift = k.shift ↔ (e.isShift = true → lastShift before = !e.release) := by
  rw [Keyboard.shift_bytes, ← h.shift]
  cases e.isShift with
  | true => exact ⟨fun heq _ => heq.symm, fun hall => (hall rfl).symm⟩
  | false => exact iff_of_true rfl fun hpos => Bool.noConfusion hpos

/-! ## Right streams -/

/-- The places of a list are its head and the places of its tail. -/
theorem forall_split_cons {α : Type} {P : List α → α → Prop} {a : α} {l : List α} :
    (∀ b x rest, a :: l = b ++ x :: rest → P b x) ↔
      P [] a ∧ ∀ b x rest, l = b ++ x :: rest → P (a :: b) x := by
  constructor
  · intro h
    exact ⟨h [] a l rfl, fun b x rest heq => h (a :: b) x rest (congrArg (a :: ·) heq)⟩
  · rintro ⟨hhead, htail⟩ b x rest heq
    cases b with
    | nil =>
        cases heq
        exact hhead
    | cons c b =>
        cases heq
        exact htail b x rest rfl

theorem Keyboard.Behind.run (h : k.Behind before) (keys : List Key) :
    (k.feed (scancodes keys)).Behind (before ++ keys) := by
  induction keys generalizing k before with
  | nil =>
      rw [List.append_nil]
      exact h
  | cons e keys ih =>
      rw [scancodes_cons, Keyboard.feed_append, List.append_cons]
      exact ih (h.step e)

theorem typed_cons (k : Keyboard) (e : Key) (keys : List Key) :
    k.typed (scancodes (e :: keys)) = k.typed e.bytes ++ (k.feed e.bytes).typed (scancodes keys) := by
  rw [scancodes_cons, Keyboard.typed_append]

/-- No table has the character of Meta. -/
theorem count_entry (b : Bool) (e : Key) :
    (if entryAt (if b then shiftMap else normalMap) e.code.toNat ≠ 0 then
      [entryAt (if b then shiftMap else normalMap) e.code.toNat] else []).count keyMeta = 0 := by
  obtain ⟨-, hshift, hnormal⟩ := entries _ e.seven
  refine List.count_eq_zero.mpr fun hmem => ?_
  by_cases hprints : entryAt (if b then shiftMap else normalMap) e.code.toNat ≠ 0
  · rw [if_pos hprints] at hmem
    have heq := List.mem_singleton.mp hmem
    cases b with
    | true => exact hshift heq.symm
    | false => exact hnormal heq.symm
  · rw [if_neg hprints] at hmem
    exact List.not_mem_nil hmem

theorem count_typed (k : Keyboard) (e : Key) :
    (k.typed e.bytes).count keyMeta = if e.isMetaMake then 1 else 0 := by
  rw [Keyboard.typed_bytes]
  cases e.isMetaMake with
  | true => rfl
  | false =>
      rw [if_neg Bool.false_ne_true, if_neg Bool.false_ne_true]
      cases e.isShift || e.release || (e.extended || k.extended) with
      | true => rfl
      | false => exact count_entry k.shift e

theorem count_charOf (before : List Key) (e : Key) :
    (charOf before e).count keyMeta = if e.isMetaMake && e.extended then 1 else 0 := by
  rw [charOf]
  cases hrelease : e.release with
  | true =>
      have hmeta : e.isMetaMake = false := by rw [Key.isMetaMake, hrelease]; rfl
      rw [hmeta]
      rfl
  | false =>
      rw [if_neg Bool.false_ne_true]
      cases e.extended with
      | true => cases e.isMetaMake <;> rfl
      | false =>
          rw [if_neg Bool.false_ne_true, Bool.and_false]
          exact count_entry (shiftHeld before) e

/-- Meta is typed at least as often as it should be. -/
theorem count_charsOf_le (k : Keyboard) (before keys : List Key) :
    (charsOf before keys).count keyMeta ≤ (k.typed (scancodes keys)).count keyMeta := by
  induction keys generalizing k before with
  | nil => exact Nat.le_refl 0
  | cons e keys ih =>
      have hrest := ih (k.feed e.bytes) (before ++ [e])
      rw [typed_cons, charsOf, List.count_append, List.count_append, count_typed, count_charOf]
      cases e.isMetaMake <;> cases e.extended <;> simp <;> omega

/-- In a stream that is typed as it should be, all Meta keys have their prefix. -/
theorem extended_of_typed_eq {keys : List Key}
    (heq : k.typed (scancodes keys) = charsOf before keys) :
    ∀ e ∈ keys, e.isMetaMake = true → e.extended = true := by
  have hcount := congrArg (List.count keyMeta) heq
  clear heq
  induction keys generalizing k before with
  | nil => exact fun e he => absurd he List.not_mem_nil
  | cons e keys ih =>
      have hrest := count_charsOf_le (k.feed e.bytes) (before ++ [e]) keys
      rw [typed_cons, charsOf, List.count_append, List.count_append, count_typed,
        count_charOf] at hcount
      have hhead : e.isMetaMake = true → e.extended = true := by
        intro hmeta
        by_contra hnot
        rw [Bool.not_eq_true] at hnot
        rw [hmeta, hnot] at hcount
        simp at hcount
        omega
      intro d hd
      rcases List.mem_cons.mp hd with rfl | hd
      · exact hhead
      · refine @ih (k.feed e.bytes) (before ++ [e]) ?_ d hd
        cases hmeta : e.isMetaMake with
        | true =>
            rw [hmeta, hhead hmeta] at hcount
            exact Nat.add_left_cancel hcount
        | false =>
            rw [hmeta] at hcount
            exact Nat.add_left_cancel hcount

/-- What goes missing makes the text shorter. -/
theorem length_typed_le (k : Keyboard) (before : List Key) {e : Key}
    (h : e.isMetaMake = true → e.extended = true) :
    (k.typed e.bytes).length ≤ (charOf before e).length := by
  rw [Keyboard.typed_bytes, charOf]
  cases hmeta : e.isMetaMake with
  | true =>
      have hrelease := (e.isMetaMake_iff.mp hmeta).1
      rw [h hmeta, hrelease]
      exact Nat.le_refl 1
  | false =>
      rw [if_neg Bool.false_ne_true]
      split
      · exact Nat.zero_le _
      · rename_i hplain
        rw [Bool.not_eq_true, Bool.or_eq_false_iff, Bool.or_eq_false_iff,
          Bool.or_eq_false_iff] at hplain
        obtain ⟨⟨-, hrelease⟩, hext, -⟩ := hplain
        rw [hrelease, hext, if_neg Bool.false_ne_true, if_neg Bool.false_ne_true]
        dsimp only
        by_cases hprints : entryAt normalMap e.code.toNat = 0
        · rw [if_neg (not_not_intro hprints |> mt (entry_ne_zero_iff _ e).mp)]
          exact Nat.zero_le _
        · rw [if_pos ((entry_ne_zero_iff _ e).mpr hprints),
            if_pos ((entry_ne_zero_iff _ e).mpr hprints)]
          exact Nat.le_refl 1

theorem length_typed_scancodes_le (k : Keyboard) (before : List Key) {keys : List Key}
    (h : ∀ e ∈ keys, e.isMetaMake = true → e.extended = true) :
    (k.typed (scancodes keys)).length ≤ (charsOf before keys).length := by
  induction keys generalizing k before with
  | nil => exact Nat.le_refl 0
  | cons e keys ih =>
      rw [typed_cons, charsOf, List.length_append, List.length_append]
      exact Nat.add_le_add (length_typed_le k before (h e List.mem_cons_self))
        (ih _ _ fun d hd => h d (List.mem_cons_of_mem e hd))

/-- A stream is typed as it should be exactly if each of its keys is. -/
theorem typed_eq_charsOf_iff (k : Keyboard) (before keys : List Key) :
    k.typed (scancodes keys) = charsOf before keys ↔
      ∀ b e rest, keys = b ++ e :: rest →
        (k.feed (scancodes b)).typed e.bytes = charOf (before ++ b) e := by
  constructor
  · intro heq
    have hmetas := extended_of_typed_eq heq
    induction keys generalizing k before with
    | nil => exact fun b e rest hsplit =>
        absurd hsplit.symm (List.append_ne_nil_of_right_ne_nil b (List.cons_ne_nil e rest))
    | cons e keys ih =>
        rw [typed_cons, charsOf] at heq
        have hhead := length_typed_le k before (hmetas e List.mem_cons_self)
        have htail := length_typed_scancodes_le (k.feed e.bytes) (before ++ [e])
          fun d hd => hmetas d (List.mem_cons_of_mem e hd)
        have hlength := congrArg List.length heq
        rw [List.length_append, List.length_append] at hlength
        obtain ⟨hfirst, hrest⟩ := List.append_inj heq (by omega)
        refine forall_split_cons.mpr ⟨?_, fun b d rest hsplit => ?_⟩
        · rw [List.append_nil]
          exact hfirst
        · rw [scancodes_cons, Keyboard.feed_append, List.append_cons]
          exact ih _ _ hrest (fun d hd => hmetas d (List.mem_cons_of_mem e hd)) b d rest hsplit
  · intro hall
    induction keys generalizing k before with
    | nil => rfl
    | cons e keys ih =>
        obtain ⟨hfirst, hrest⟩ := forall_split_cons.mp hall
        rw [List.append_nil] at hfirst
        rw [typed_cons, charsOf]
        refine congrArg₂ (· ++ ·) hfirst (ih _ _ fun b d rest hsplit => ?_)
        have hstep := hrest b d rest hsplit
        rw [scancodes_cons, Keyboard.feed_append, List.append_cons] at hstep
        exact hstep

/-! ## The ring -/

/-- The same characters wait, at the same places. -/
structure Keyboard.SameRing (k k' : Keyboard) : Prop where
  keybuf : k'.keybuf = k.keybuf
  head : k'.head = k.head
  tail : k'.tail = k.tail

theorem Keyboard.SameRing.pushBuf {k' : Keyboard} (h : k.SameRing k') (ch : UInt8) :
    (k.pushBuf ch).SameRing (k'.pushBuf ch) := by
  rw [Keyboard.pushBuf, Keyboard.pushBuf, h.head, h.tail]
  split
  · exact ⟨by rw [h.keybuf], rfl, rfl⟩
  · exact h

theorem Keyboard.SameRing.pushAll {k' : Keyboard} (h : k.SameRing k') (chars : List UInt8) :
    (chars.foldl Keyboard.pushBuf k).SameRing (chars.foldl Keyboard.pushBuf k') := by
  induction chars generalizing k k' with
  | nil => exact h
  | cons ch chars ih => exact ih (h.pushBuf ch)

/-- What a code does to the ring is what its characters do. -/
theorem sameRing_handleScancode (k : Keyboard) (code : UInt8) :
    ((k.typedBy code).foldl Keyboard.pushBuf k).SameRing (k.handleScancode code) := by
  rw [k.handleScancode_eq code]
  exact ⟨rfl, rfl, rfl⟩

theorem sameRing_feed (k : Keyboard) (codes : List UInt8) :
    ((k.typed codes).foldl Keyboard.pushBuf k).SameRing (k.feed codes) := by
  induction codes generalizing k with
  | nil => exact ⟨rfl, rfl, rfl⟩
  | cons code codes ih =>
      have hfirst := (sameRing_handleScancode k code).pushAll ((k.handleScancode code).typed codes)
      have hrest := ih (k.handleScancode code)
      rw [Keyboard.typed, List.foldl_append]
      exact ⟨hrest.keybuf.trans hfirst.keybuf, hrest.head.trans hfirst.head,
        hrest.tail.trans hfirst.tail⟩

theorem tail_pushAll (k : Keyboard) (chars : List UInt8) :
    (chars.foldl Keyboard.pushBuf k).tail = k.tail := by
  induction chars generalizing k with
  | nil => rfl
  | cons ch chars ih => exact (ih _).trans (k.pushBuf_flags ch).2.2

/-! ## The decoder -/

/-- A decoder that starts fresh types a stream of keys as it should, and no key with a prefix
changes the shift, exactly if all keys of the stream are done right. -/
theorem decodes_iff (h : k.Fresh) (keys : List Key) : k.Decodes keys ↔ Clear keys := by
  have hbehind (b : List Key) : (k.feed (scancodes b)).Behind b := h.behind.run b
  constructor
  · intro hdecodes before e rest hsplit
    have hchars := (typed_eq_charsOf_iff k [] keys).mp hdecodes.chars before e rest hsplit
    refine ⟨(typed_eq_charOf_iff (hbehind before) e).mp hchars, fun hext => ?_⟩
    have hshift := hdecodes.shift before e rest hsplit hext
    rw [scancodes_append, Keyboard.feed_append, scancodes_cons] at hshift
    exact (shift_bytes_iff (hbehind before) e).mp (by simpa [scancodes] using hshift)
  · intro hclear
    have hchars : k.typed (scancodes keys) = charsOf [] keys :=
      (typed_eq_charsOf_iff k [] keys).mpr fun b e rest hsplit =>
        (typed_eq_charOf_iff (hbehind b) e).mpr (hclear b e rest hsplit).plain
    have hring := sameRing_feed k (scancodes keys)
    rw [hchars] at hring
    refine ⟨hchars, ⟨hring.keybuf, hring.head, hring.tail.trans (tail_pushAll k _)⟩, ?_⟩
    intro before e rest hsplit hext
    have hshift := (shift_bytes_iff (hbehind before) e).mpr ((hclear before e rest hsplit).shift hext)
    rw [scancodes_append, Keyboard.feed_append]
    simpa [scancodes] using hshift

end

/-- A key without a prefix. -/
def plainKey (release : Bool) (code : UInt8) (h : code.toNat < 0x60) : Key where
  extended := false
  release := release
  code := code
  seven := by omega
  apart _ := by
    rintro rfl
    exact absurd h (by decide)

/-- The left Meta key goes down. -/
def metaKey : Key where
  extended := true
  release := false
  code := 0x5b
  seven := by decide
  apart h := Bool.noConfusion h

/-- Nothing was typed. -/
def freshKeyboard : Keyboard where
  keybuf _ := 0
  head := 0
  tail := 0
  initDone := true
  shift := false
  extended := false
  decoded := []

theorem decodes_iff_shifted :
    freshKeyboard.Decodes [plainKey false 0x2a (by decide), plainKey false 0x1e (by decide)] ↔
      Clear [plainKey false 0x2a (by decide), plainKey false 0x1e (by decide)] :=
  decodes_iff ⟨rfl, rfl⟩ _

/-- Behind Meta, a letter is lost. -/
theorem not_decodes : ¬∀ (k : Keyboard) (keys : List Key), k.Fresh → k.Decodes keys := by
  intro hall
  have hchars := (hall freshKeyboard [metaKey, plainKey false 0x1e (by decide)] ⟨rfl, rfl⟩).chars
  exact absurd hchars (by decide +kernel)

end PureOS.Input
