import PureOS.Jpeg.Huffman

set_option autoImplicit false

/-!
# Jpeg: decoding what was encoded (`jpeg.rs`)

The standard counts code words up and shifts at every length.  `fill_from_bits` does not shift
at a length without words, so its table is right up to the first gap.
-/

namespace PureOS.Jpeg

open PureOS.Foundation PureOS.Foundation.Canonical

namespace Filled

variable {spec : Spec} {t : HuffTable} {l i : Nat} {symbol : UInt8}

/-- No word of a length that is not used is in range. -/
theorem not_matches_of_unused (h : Filled spec t) {j : Fin 16} (hzero : spec.count j = 0)
    (code : Nat) : ¬t.Matches j code := by
  rintro ⟨hmax, -⟩
  rw [h.unused j hzero] at hmax
  omega

/-- The range of a length that is used. -/
theorem matches_iff (h : Filled spec t) {j : Fin 16} (hused : spec.count j ≠ 0) (code : Nat) :
    t.Matches j code ↔ filledCode spec.count j ≤ code ∧
      code < filledCode spec.count j + spec.count j := by
  rw [HuffTable.Matches, h.maxCode j hused, h.minCode j hused]
  omega

/-- The beginning of a word is in no range, when the ranges of shorter words are right. -/
theorem not_matches_beginning (h : Filled spec t) {j : Fin 16} (hj : j.val < l)
    (hgap : spec.count j ≠ 0 → NoGap spec.count j) (i : Nat) :
    ¬t.Matches j ((firstCode spec.count l + i) / 2 ^ (l - j) : Nat) := by
  by_cases hused : spec.count j = 0
  · exact h.not_matches_of_unused hused _
  · rw [h.matches_iff hused, filledCode_eq (hgap hused)]
    have hle := @le_beginning spec.count j l hj i
    omega

/-- The symbol of a word that is in range. -/
theorem values_eq (hv : spec.Valid) (h : Filled spec t) {j : Fin 16} {code : Nat}
    (hused : spec.count j ≠ 0) (hmatch : t.Matches j code) :
    t.values[(getElem t.valPtr j (lt_sixteen j)).toNat +
        ((code : Int) - getElem t.minCode j (lt_sixteen j)).toNat]? =
      spec.symbols[shorter spec.count j + (code - filledCode spec.count j)]? := by
  obtain ⟨hmin, hmax⟩ := (h.matches_iff hused code).mp hmatch
  have hidx : ((code : Int) - t.minCode[j]).toNat = code - filledCode spec.count j := by
    rw [h.minCode j hused]
    omega
  rw [hidx, h.valPtr j hused]
  refine h.values _ ?_
  have htotal := @le_shorter spec.count j 16 j.isLt
  rw [hv.total] at htotal
  omega

end Filled

/-- Bits that are in no range as they come lead to the length behind them. -/
theorem lookup_skip {t : HuffTable} {l v : Nat} (hl : l < 16) {k : Nat} (hk : k ≤ l)
    (hnone : ∀ j : Fin 16, j.val < k → ¬t.Matches j (v / 2 ^ (l - j) : Nat)) (post : List Bool)
    (hv : v < 2 ^ (l + 1)) :
    t.lookup (List.finRange 16) 0 (msbBits (l + 1) v ++ post) =
      t.lookup ((List.finRange 16).drop k) (v / 2 ^ (l + 1 - k) : Nat)
        (msbBits (l + 1 - k) v ++ post) := by
  induction k with
  | zero => rw [Nat.sub_zero, Nat.div_eq_of_lt hv]; rfl
  | succ k ih =>
      rw [ih (by omega) fun j hj => hnone j (by omega)]
      have hlen : k < (List.finRange 16).length := by rw [List.length_finRange]; omega
      have hget : (List.finRange 16)[k] = ⟨k, by omega⟩ := List.getElem_finRange hlen
      have hcode : 2 * (v / 2 ^ (l - k + 1)) + (v.testBit (l - k)).toNat = v / 2 ^ (l - k) := by
        rw [Nat.toNat_testBit, pow_succ, ← Nat.div_div_eq_div_mul]
        omega
      have hcast : 2 * ((v / 2 ^ (l - k + 1) : Nat) : Int) + (v.testBit (l - k)).toNat =
          ((v / 2 ^ (l - k) : Nat) : Int) := by
        rw [← hcode]
        push_cast
        rfl
      have hsucc : l + 1 - k = l - k + 1 := by omega
      have hstep : l + 1 - (k + 1) = l - k := by omega
      rw [List.drop_eq_getElem_cons hlen, hget, hsucc, hstep, msbBits, List.cons_append,
        HuffTable.lookup, hcast, if_neg (hnone ⟨k, by omega⟩ (Nat.lt_succ_self k))]

/-- The last step of a word. -/
theorem lookup_last {t : HuffTable} {l : Fin 16} {v : Nat}
    (hnone : ∀ j : Fin 16, j.val < l.val → ¬t.Matches j (v / 2 ^ (l.val - j) : Nat))
    (post : List Bool) (hv : v < 2 ^ (l.val + 1)) :
    t.lookup (List.finRange 16) 0 (msbBits (l + 1) v ++ post) =
      if t.Matches l v then
        (t.values[t.valPtr[l].toNat + ((v : Int) - t.minCode[l]).toNat]?).map
          fun value => (value, post)
      else t.lookup ((List.finRange 16).drop (l + 1)) v post := by
  have hlen : l.val < (List.finRange 16).length := by rw [List.length_finRange]; omega
  have hget : (List.finRange 16)[l.val] = l := List.getElem_finRange hlen
  have hcode : 2 * ((v / 2 ^ 1 : Nat) : Int) + (v.testBit 0).toNat = v := by
    rw [Nat.toNat_testBit]
    omega
  rw [lookup_skip l.isLt (Nat.le_refl l.val) hnone post hv, Nat.add_sub_cancel_left,
    List.drop_eq_getElem_cons hlen, hget, msbBits, msbBits, List.cons_append, List.nil_append,
    HuffTable.lookup, hcode]

section

variable {spec : Spec} {t : HuffTable} {l : Fin 16} {i : Nat} {symbol : UInt8}

/-- A word with no gap before it is found. -/
theorem lookup_word (hv : spec.Valid) (h : Filled spec t) (hword : spec.IsWord l i symbol)
    (hgap : NoGap spec.count l) (post : List Bool) :
    t.lookup (List.finRange 16) 0 (word spec.count l i ++ post) = some (symbol, post) := by
  have hi := hword.number
  have hused : spec.count l ≠ 0 := by omega
  have hnone : ∀ j : Fin 16, j.val < l.val →
      ¬t.Matches j ((firstCode spec.count l + i) / 2 ^ (l.val - j) : Nat) :=
    fun j hj => h.not_matches_beginning hj (fun _ g hg => hgap g (by omega)) i
  have hmatch : t.Matches l (firstCode spec.count l + i : Nat) := by
    rw [h.matches_iff hused, filledCode_eq hgap]
    omega
  have hidx : firstCode spec.count l + i - filledCode spec.count l = i := by
    rw [filledCode_eq hgap]
    omega
  have hvalue := h.values_eq hv hused hmatch
  rw [hidx, hword.value] at hvalue
  rw [Canonical.word, lookup_last hnone post (code_lt hv.kraft hword.length hi), if_pos hmatch, hvalue]
  rfl

/-- The one word of 16 bits behind a gap is in no range, so it counts as 0. -/
theorem lookup_only_word (hv : spec.Valid) (h : Filled spec t)
    (hgaps : ∀ l < 15, spec.count l ≠ 0 → NoGap spec.count l) (hone : spec.count 15 = 1)
    (hgap : ¬NoGap spec.count 15) (post : List Bool) :
    t.lookup (List.finRange 16) 0 (word spec.count 15 0 ++ post) = some (0, post) := by
  have hnone : ∀ j : Fin 16, j.val < (15 : Fin 16).val →
      ¬t.Matches j ((firstCode spec.count 15 + 0) / 2 ^ ((15 : Fin 16).val - j) : Nat) :=
    fun j hj => h.not_matches_beginning hj (hgaps j hj) 0
  have hlast : ¬t.Matches 15 (firstCode spec.count 15 + 0 : Nat) := by
    have hused : spec.count (15 : Fin 16).val ≠ 0 := by
      change spec.count 15 ≠ 0
      omega
    have hlt := filledCode_lt hgap
    rw [h.matches_iff hused]
    change ¬(filledCode spec.count 15 ≤ _ ∧ _ < filledCode spec.count 15 + spec.count 15)
    omega
  have hcode : firstCode spec.count 15 + 0 < 2 ^ ((15 : Fin 16).val + 1) :=
    code_lt hv.kraft (by decide) (by omega)
  have hlookup := lookup_last hnone post hcode
  rw [if_neg hlast] at hlookup
  exact hlookup

/-- A word behind a gap is not found, unless it has 16 bits and stands for 0. -/
theorem lookup_behind_gap (hv : spec.Valid) (h : Filled spec t) (hword : spec.IsWord l i symbol)
    (hgap : ¬NoGap spec.count l) (hother : l.val = 15 → symbol ≠ 0) (post : List Bool) :
    t.lookup (List.finRange 16) 0 (word spec.count l i ++ post) ≠ some (symbol, post) := by
  intro hlookup
  have hlookup' : t.lookup (List.finRange 16) (0 : Nat) (word spec.count l i ++ post) =
      some (symbol, post) := hlookup
  obtain ⟨pre, hbits, hcases⟩ := HuffTable.lookup_cases hlookup'
  have hpre : pre = word spec.count l i := (List.append_cancel_right hbits).symm
  have hlen : pre.length = l.val + 1 := by rw [hpre, Canonical.word, length_msbBits]
  rcases hcases with ⟨j, hj, -, hmatch, hvalue⟩ | ⟨hend, hzero⟩
  · have hjl : j = l := by
      rw [hlen, Nat.add_sub_cancel, List.getElem?_eq_getElem (by rw [List.length_finRange]; omega),
        List.getElem_finRange] at hj
      exact (Option.some.inj hj).symm
    subst hjl
    have hi := hword.number
    have hused : spec.count j ≠ 0 := by omega
    have hval : bitsOnto 0 pre = firstCode spec.count j + i := by
      change bitsVal pre = _
      rw [hpre, Canonical.word, bitsVal_msbBits, Nat.mod_eq_of_lt (code_lt hv.kraft hword.length hi)]
    rw [hval] at hmatch hvalue
    rw [h.values_eq hv hused hmatch, ← hword.value] at hvalue
    have hlt := filledCode_lt hgap
    -- Two places of the same symbol are one, but the table counts from a smaller word.
    have hplace : shorter spec.count j + (firstCode spec.count j + i - filledCode spec.count j) =
        shorter spec.count j + i := by
      have hi' := (List.getElem?_eq_some_iff.mp hword.value).1
      exact ((List.getElem?_inj hi' hv.distinct).mp hvalue.symm).symm
    omega
  · rw [hlen, List.length_finRange] at hend
    exact hother (by omega) hzero

end

/-! ## Sequences -/

/-- What `decode` makes of the bits of a reader. -/
theorem decode_of_lookup {t : HuffTable} {r : BitReader} (hwf : r.WellFormed) {value : UInt8}
    {post : List Bool} (h : t.lookup (List.finRange 16) 0 r.stream = some (value, post)) :
    ∃ r', t.decode r = .ok (value, r') ∧ r'.WellFormed ∧ r'.stream = post := by
  have heq := t.decodeLoop_eq (List.finRange 16) 0 hwf
  rw [h] at heq
  exact heq

theorem lookup_of_decode {t : HuffTable} {r r' : BitReader} (hwf : r.WellFormed) {value : UInt8}
    (h : t.decode r = .ok (value, r')) :
    t.lookup (List.finRange 16) 0 r.stream = some (value, r'.stream) := by
  have heq := t.decodeLoop_eq (List.finRange 16) 0 hwf
  rw [HuffTable.decode] at h
  cases hlookup : t.lookup (List.finRange 16) 0 r.stream with
  | none =>
      rw [hlookup] at heq
      obtain ⟨fault, herr⟩ := heq
      rw [herr] at h
      cases h
  | some p =>
      obtain ⟨value', post⟩ := p
      rw [hlookup] at heq
      obtain ⟨r'', hok, -, hstream⟩ := heq
      rw [hok] at h
      cases h
      rw [hstream]

/-- A table that gives back each word gives back every sequence. -/
theorem decodedBy_of_words {spec : Spec} {t : HuffTable}
    (h : ∀ (l i : Nat) (symbol : UInt8) (post : List Bool), spec.IsWord l i symbol →
      t.lookup (List.finRange 16) 0 (word spec.count l i ++ post) = some (symbol, post)) :
    spec.DecodedBy t := by
  intro symbols bits hencodes
  induction hencodes with
  | nil => exact fun r post hwf hstream => ⟨r, rfl, hwf, hstream⟩
  | @cons l i symbol symbols bits hword rest ih =>
      intro r post hwf hstream
      rw [List.append_assoc] at hstream
      have hlookup := h l i symbol (bits ++ post) hword
      rw [← hstream] at hlookup
      obtain ⟨r₁, hdecode, hwf₁, hstream₁⟩ := decode_of_lookup hwf hlookup
      obtain ⟨r₂, hmany, hwf₂, hstream₂⟩ := ih r₁ post hwf₁ hstream₁
      refine ⟨r₂, ?_, hwf₂, hstream₂⟩
      rw [List.length_cons, HuffTable.decodeMany, hdecode, bind_ok]
      dsimp only
      rw [hmany]
      rfl

/-- A reader that has a word in its buffer, and sixteen zeros behind it. -/
theorem exists_reader (l v : Nat) (hl : l < 16) (hv : v < 2 ^ (l + 1)) :
    ∃ r : BitReader, r.WellFormed ∧ r.stream = msbBits (l + 1) v ++ msbBits 16 0 := by
  refine ⟨⟨[], v * 2 ^ 16 + 0, l + 1 + 16⟩, ⟨?_, ?_⟩, ?_⟩
  · change l + 1 + 16 ≤ 32
    omega
  · change v * 2 ^ 16 + 0 < 2 ^ (l + 1 + 16)
    rw [pow_add]
    omega
  · rw [BitReader.stream]
    change msbBits (l + 1 + 16) (v * 2 ^ 16 + 0) ++ [] = _
    rw [List.append_nil, msbBits_pack _ (by decide)]

/-- A table that gives back every sequence gives back each word. -/
theorem lookup_of_decodedBy {spec : Spec} {t : HuffTable} (hv : spec.Valid) (h : spec.DecodedBy t)
    {l i : Nat} {symbol : UInt8} (hword : spec.IsWord l i symbol) :
    t.lookup (List.finRange 16) 0 (word spec.count l i ++ msbBits 16 0) =
      some (symbol, msbBits 16 0) := by
  obtain ⟨r, hwf, hstream⟩ :=
    exists_reader l _ hword.length (code_lt hv.kraft hword.length hword.number)
  have hencodes : spec.Encodes [symbol] (word spec.count l i ++ []) := .cons hword .nil
  rw [List.append_nil] at hencodes
  obtain ⟨r', hmany, -, hpost⟩ := h _ _ hencodes r _ hwf hstream
  obtain ⟨p, hdecode, hrest⟩ := bind_eq_ok hmany
  obtain ⟨value, r₁⟩ := p
  cases hrest
  rw [Canonical.word, ← hstream, ← hpost]
  exact lookup_of_decode hwf hdecode

/-- A word of each length that is used. -/
theorem exists_isWord {spec : Spec} (hv : spec.Valid) {l i : Nat} (hl : l < 16) (hi : i < spec.count l) :
    ∃ symbol, spec.IsWord l i symbol := by
  have htotal := @le_shorter spec.count l 16 hl
  rw [hv.total] at htotal
  have hlt : shorter spec.count l + i < spec.symbols.length := by omega
  exact ⟨_, hl, hi, List.getElem?_eq_getElem hlt⟩

/-- The last symbol is that of the last word of 16 bits. -/
theorem symbol_last {spec : Spec} (hv : spec.Valid) {i : Nat} {symbol : UInt8}
    (hword : spec.IsWord 15 i symbol) (hi : i + 1 = spec.count 15) :
    spec.symbols.getLast? = some symbol := by
  have htotal : shorter spec.count 16 = shorter spec.count 15 + spec.count 15 := shorter_succ
  rw [hv.total] at htotal
  rw [List.getLast?_eq_getElem?, ← hword.value]
  congr 1
  omega

/-- When `fill_from_bits` needs the shift, some word comes out wrong. -/
theorem exists_bad_word {spec : Spec} (hv : spec.Valid) (h : ¬spec.Fillable) :
    ∃ (l : Fin 16) (i : Nat) (symbol : UInt8), spec.IsWord l i symbol ∧ ¬NoGap spec.count l ∧
      (l.val = 15 → symbol ≠ 0) := by
  rw [Spec.Fillable, not_or] at h
  obtain ⟨hsome, honly⟩ := h
  by_cases hshort : ∀ l < 15, spec.count l ≠ 0 → NoGap spec.count l
  · -- Only words of 16 bits lie behind a gap.
    push Not at hsome
    obtain ⟨l, hl, hused, hgap⟩ := hsome
    have hl15 : l = 15 := by
      by_contra hne
      exact hgap (hshort l (by omega) hused)
    subst hl15
    by_cases hone : spec.count 15 = 1
    · obtain ⟨symbol, hword⟩ := @exists_isWord spec hv 15 0 (by decide) (by omega)
      refine ⟨15, 0, symbol, hword, hgap, fun _ hzero => honly ⟨hone, ?_, hshort⟩⟩
      rw [← hzero]
      exact symbol_last hv hword (by omega)
    · obtain ⟨first, hfirst⟩ := @exists_isWord spec hv 15 0 (by decide) (by omega)
      obtain ⟨second, hsecond⟩ := @exists_isWord spec hv 15 1 (by decide) (by omega)
      by_cases hzero : first = 0
      · refine ⟨15, 1, second, hsecond, hgap, fun _ hzero' => ?_⟩
        have hlt := (List.getElem?_eq_some_iff.mp hfirst.value).1
        have heq : spec.symbols[shorter spec.count 15 + 0]? =
            spec.symbols[shorter spec.count 15 + 1]? := by
          rw [hfirst.value, hsecond.value, hzero, hzero']
        have hplace := (List.getElem?_inj hlt hv.distinct).mp heq
        omega
      · exact ⟨15, 0, first, hfirst, hgap, fun _ => hzero⟩
  · push Not at hshort
    obtain ⟨l, hl, hused, hgap⟩ := hshort
    obtain ⟨symbol, hword⟩ := @exists_isWord spec hv l 0 (by omega) (by omega)
    exact ⟨⟨l, by omega⟩, 0, symbol, hword, hgap, fun h15 => absurd h15 (by change l ≠ 15; omega)⟩

/-- Decoding with the table that `fill_from_bits` makes undoes encoding, for every sequence of
symbols, exactly when no length without words has to be shifted over. -/
theorem decodedBy_iff (spec : Spec) (hv : spec.Valid) (t : HuffTable) :
    spec.DecodedBy (t.fillFromBits spec.bits spec.symbols) ↔ spec.Fillable := by
  have hfilled := HuffTable.fillFromBits_filled hv t
  constructor
  · intro h
    by_contra hnot
    obtain ⟨l, i, symbol, hword, hgap, hother⟩ := exists_bad_word hv hnot
    exact lookup_behind_gap hv hfilled hword hgap hother _ (lookup_of_decodedBy hv h hword)
  · intro h
    refine decodedBy_of_words fun l i symbol post hword => ?_
    have hused : spec.count l ≠ 0 := by
      have hi := hword.number
      omega
    rcases h with hnone | ⟨hone, hlast, hshort⟩
    · exact lookup_word (l := ⟨l, hword.length⟩) hv hfilled hword (hnone l hword.length hused) post
    · by_cases hgap : NoGap spec.count l
      · exact lookup_word (l := ⟨l, hword.length⟩) hv hfilled hword hgap post
      · have hl15 : l = 15 := by
          by_contra hne
          have hlen := hword.length
          exact hgap (hshort l (by omega) hused)
        subst hl15
        have hi : i = 0 := by
          have hnumber := hword.number
          omega
        subst hi
        have hsymbol := symbol_last hv hword (by omega)
        rw [hlast] at hsymbol
        cases hsymbol
        exact lookup_only_word hv hfilled hshort hone hgap post

/-- Words of two and of three bits, none of one. -/
def smallSpec : Spec where
  bits := #v[0, 2, 3, 0, 0, 0, 0, 0, 0, 0, 0, 0, 0, 0, 0, 0]
  symbols := [4, 2, 7, 0, 9]

/-- Words of one and of three bits, none of two. -/
def gapSpec : Spec where
  bits := #v[1, 0, 2, 0, 0, 0, 0, 0, 0, 0, 0, 0, 0, 0, 0, 0]
  symbols := [4, 2, 7]

instance (count : Nat → Nat) (n : Nat) : Decidable (Kraft count n) :=
  inferInstanceAs (Decidable (_ ≤ _))

instance (spec : Spec) : Decidable spec.Valid :=
  decidable_of_iff (Kraft spec.count 16 ∧ shorter spec.count 16 = spec.symbols.length ∧
      spec.symbols.length ≤ 256 ∧ spec.symbols.Nodup)
    ⟨fun h => ⟨h.1, h.2.1, h.2.2.1, h.2.2.2⟩, fun h => ⟨h.1, h.2, h.3, h.4⟩⟩

/-- The table of some words without a gap gives back what was encoded. -/
theorem decodedBy_iff_small :
    smallSpec.DecodedBy (HuffTable.empty.fillFromBits smallSpec.bits smallSpec.symbols) ↔
      smallSpec.Fillable :=
  decodedBy_iff smallSpec (by decide +kernel) HuffTable.empty

/-- With a gap the first word of three bits is not found. -/
theorem not_decodedBy_gap :
    ¬∀ spec : Spec, spec.Valid →
      spec.DecodedBy (HuffTable.empty.fillFromBits spec.bits spec.symbols) := by
  intro h
  have hvalid : gapSpec.Valid := by decide +kernel
  have hword : gapSpec.IsWord 2 0 2 := by
    refine ⟨by decide, by decide +kernel, by decide +kernel⟩
  have hlookup := lookup_of_decodedBy hvalid (h gapSpec hvalid) hword
  revert hlookup
  decide +kernel

end PureOS.Jpeg
