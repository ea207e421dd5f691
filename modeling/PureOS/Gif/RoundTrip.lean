import PureOS.Gif.Coding

set_option autoImplicit false

/-!
# Gif: what `decompress` makes of a coded image (`gif.rs`)

The first code is read like a pixel, although it is the clear code.  With fewer than 256 colours
it is written to the image.  With 256 colours the dictionary gets an entry too many in front of
the others.  Behind a clear code that the loop finds the dictionary is as it should be, but the
codes get wider one code late.
-/

namespace PureOS.Gif

open PureOS.Foundation GifReader Lzw

/-! ## Strings in the dictionary -/

/-- The chain of a code spells a text. -/
inductive Spells (l : Lzw) : Nat → List UInt8 → Prop where
  | root {c : Nat} (h : c ≤ l.clear) : Spells l c [UInt8.ofNat c]
  | link {c p : Nat} {a : UInt8} {text : List UInt8} (hc : l.clear < c) (hnext : c < l.next)
      (hp : l.prefixes[c]? = some p) (ha : l.suffixes[c]? = some a) (h : Spells l p text) :
      Spells l c (text ++ [a])

section

variable {l : Lzw} {c n old : Nat} {text stack : List UInt8} {a b : UInt8}

theorem Spells.ne_nil (h : Spells l c text) : text ≠ [] := by
  cases h with
  | root h => exact List.cons_ne_nil _ _
  | link hc hnext hp ha h => exact List.append_ne_nil_of_right_ne_nil _ (List.cons_ne_nil _ _)

theorem Spells.walk_eq (h : Spells l c text) (hn : text.length ≤ n) :
    l.walk n c stack = .ok (text ++ stack) := by
  induction h generalizing n stack with
  | root hc =>
      rw [List.length_singleton] at hn
      obtain ⟨n, rfl⟩ := Nat.exists_eq_add_of_le' hn
      rw [walk, if_neg (Nat.not_lt.mpr hc)]
      rfl
  | link hc hnext hp ha h ih =>
      rw [List.length_append, List.length_singleton] at hn
      obtain ⟨n, rfl⟩ := Nat.exists_eq_add_of_le' (Nat.le_of_add_left_le hn)
      rw [walk, if_pos hc, hp, ha]
      dsimp only
      rw [ih (by omega), List.append_assoc]
      rfl

/-- The first byte of a text is found at the end of the chain. -/
theorem Spells.firstByteLoop_eq (h : Spells l c text) (hn : text.length ≤ n)
    (ha : text.head? = some a) : l.firstByteLoop n c = .ok a := by
  induction h generalizing n with
  | root hc =>
      rw [List.length_singleton] at hn
      obtain ⟨n, rfl⟩ := Nat.exists_eq_add_of_le' hn
      rw [firstByteLoop, if_neg (Nat.not_lt.mpr hc)]
      cases ha
      rfl
  | link hc hnext hp hb h ih =>
      rw [List.length_append, List.length_singleton] at hn
      obtain ⟨n, rfl⟩ := Nat.exists_eq_add_of_le' (Nat.le_of_add_left_le hn)
      rw [List.head?_append_of_ne_nil _ h.ne_nil] at ha
      rw [firstByteLoop, if_pos hc, hp]
      exact ih (by omega) ha

/-- A code that is in the dictionary stands for its text. -/
theorem Spells.expand_eq (h : Spells l c text) (hc : c < l.next) (hn : text.length ≤ dictN) :
    l.expand old c = .ok text := by
  rw [expand, if_neg (Nat.not_le.mpr hc), h.walk_eq hn, List.append_nil]

/-- A code that is not yet in the dictionary stands for the last text and its first byte. -/
theorem Spells.expand_next (h : Spells l old text) (hc : l.next ≤ c) (hn : text.length < dictN)
    (ha : text.head? = some a) : l.expand old c = .ok (text ++ [a]) := by
  rw [expand, if_pos hc, firstByte, h.firstByteLoop_eq (Nat.le_of_lt hn) ha]
  exact h.walk_eq (Nat.le_sub_one_of_lt hn)

theorem add_eq (h : l.next < 4096) :
    (l.add old a).next = l.next + 1 ∧ (l.add old a).clear = l.clear ∧
      (l.add old a).stop = l.stop ∧ (l.add old a).minC = l.minC ∧
      (l.add old a).codeSz =
        if l.next + 1 > 2 ^ l.codeSz ∧ l.codeSz < maxBits then l.codeSz + 1 else l.codeSz := by
  rw [add, dif_pos h]
  exact ⟨rfl, rfl, rfl, rfl, rfl⟩

/-- The new entry. -/
theorem add_entry (h : l.next < 4096) : (l.add old a).prefixes[l.next]? = some old ∧
    (l.add old a).suffixes[l.next]? = some a := by
  rw [add, dif_pos h]
  exact ⟨Vector.getElem?_set_self h, Vector.getElem?_set_self h⟩

/-- The other entries stay. -/
theorem add_other (h : l.next < 4096) (hc : c ≠ l.next) :
    (l.add old a).prefixes[c]? = l.prefixes[c]? ∧ (l.add old a).suffixes[c]? = l.suffixes[c]? := by
  rw [add, dif_pos h]
  exact ⟨Vector.getElem?_set_ne h (Ne.symm hc), Vector.getElem?_set_ne h (Ne.symm hc)⟩

theorem Spells.add (hs : Spells l c text) (h : l.next < 4096) : Spells (l.add old a) c text := by
  obtain ⟨hnext, hclear, -⟩ := @add_eq l old a h
  induction hs with
  | root hc => exact .root (hclear ▸ hc)
  | link hc hlt hp hb _ ih =>
      obtain ⟨hparent, hsuffix⟩ := @add_other l _ old a h (Nat.ne_of_lt hlt)
      refine .link ?_ ?_ ?_ ?_ ih
      · rwa [hclear]
      · omega
      · rwa [hparent]
      · rwa [hsuffix]

/-- The new entry spells the last text and a byte. -/
theorem Spells.add_next (hs : Spells l old text) (h : l.next < 4096) (hclear : l.clear < l.next) :
    Spells (l.add old a) l.next (text ++ [a]) := by
  obtain ⟨hnext, hclear', -⟩ := @add_eq l old a h
  obtain ⟨hparent, hsuffix⟩ := @add_entry l old a h
  refine .link ?_ ?_ hparent hsuffix (hs.add h)
  · rwa [hclear']
  · omega

end

/-! ## Turns of the loop -/

section

variable {s : Decoding} {room code : Nat} {post : List Bool} {out bytes : List UInt8}

theorem write_eq (h : out.length + bytes.length ≤ room) : write room out bytes = out ++ bytes := by
  rw [write, List.take_of_length_le (by omega)]

/-- The reader of a state hands out these bits. -/
structure Ready (s : Decoding) (bits : List Bool) : Prop where
  rd : s.rd.WellFormed
  stream : s.rd.stream = bits

/-- A code for pixels. -/
theorem turn_code (h : Ready s (lsbBits s.lzw.codeSz code ++ post)) (hsz : s.lzw.codeSz ≤ 25)
    (hlt : code < 2 ^ s.lzw.codeSz) (hstop : code ≠ s.lzw.stop) (hclear : code ≠ s.lzw.clear)
    (hexpand : s.lzw.expand s.old code = .ok bytes) (hroom : s.out.length + bytes.length ≤ room) :
    ∃ s', turn room s = .ok (true, s') ∧ s'.lzw = s.lzw.add s.old (bytes.headD 0) ∧
      s'.old = code ∧ s'.out = s.out ++ bytes ∧ Ready s' post := by
  obtain ⟨rd, hread, hwf, hstream⟩ := read_lsbBits h.rd hsz hlt h.stream
  refine ⟨⟨s.lzw.add s.old (bytes.headD 0), rd, code, write room s.out bytes⟩, ?_, rfl, rfl,
    write_eq hroom, hwf, hstream⟩
  rw [turn, hread, bind_ok]
  dsimp only
  rw [if_neg hstop, if_neg hclear, hexpand]
  rfl

/-- The end code. -/
theorem turn_end (h : Ready s (lsbBits s.lzw.codeSz s.lzw.stop ++ post)) (hsz : s.lzw.codeSz ≤ 25)
    (hlt : s.lzw.stop < 2 ^ s.lzw.codeSz) :
    ∃ s', turn room s = .ok (false, s') ∧ s'.out = s.out := by
  obtain ⟨rd, hread, -, -⟩ := read_lsbBits h.rd hsz hlt h.stream
  refine ⟨{ s with rd := rd }, ?_, rfl⟩
  rw [turn, hread, bind_ok]
  dsimp only
  rw [if_pos rfl]
  rfl

end

/-! ## With 256 colours -/

/-- The dictionary has 256 colours. -/
structure Full (l : Lzw) : Prop where
  minC : l.minC = 8
  clear : l.clear = 256
  stop : l.stop = 257

theorem Full.add {l : Lzw} (h : Full l) (old : Nat) (a : UInt8) : Full (l.add old a) := by
  rw [Lzw.add]
  split
  · exact ⟨h.minC, h.clear, h.stop⟩
  · exact h

/-- What `reset` sets. -/
theorem Full.reset {l : Lzw} (h : Full l) :
    Full l.reset ∧ l.reset.next = 258 ∧ l.reset.codeSz = 9 := by
  have hpow : 2 ^ l.minC = 256 := by
    rw [h.minC]
    norm_num
  refine ⟨⟨?_, ?_, ?_⟩, ?_, ?_⟩
  · rw [Lzw.reset, h.minC]
  · rw [Lzw.reset, hpow]
  · rw [Lzw.reset, hpow]
  · rw [Lzw.reset, hpow]
  · rw [Lzw.reset, h.minC]

section

variable {s : Decoding} {room code : Nat} {post : List Bool}

/-- A clear code and the end code. -/
theorem turn_clear_end (hfull : Full s.lzw) (hsz : 9 ≤ s.lzw.codeSz) (hsz' : s.lzw.codeSz ≤ 12)
    (h : Ready s (lsbBits s.lzw.codeSz 256 ++ (lsbBits 9 257 ++ post))) :
    ∃ s', turn room s = .ok (false, s') ∧ s'.out = s.out := by
  have hlt : 256 < 2 ^ s.lzw.codeSz :=
    Nat.lt_of_lt_of_le (by decide : 256 < 2 ^ 9) (Nat.pow_le_pow_right Nat.two_pos hsz)
  obtain ⟨rd, hread, hwf, hstream⟩ := read_lsbBits h.rd (by omega) hlt h.stream
  obtain ⟨rd', hread', -, -⟩ := read_lsbBits hwf (by decide) (by decide : 257 < 2 ^ 9) hstream
  refine ⟨{ s with lzw := s.lzw.reset, rd := rd' }, ?_, rfl⟩
  rw [turn, hread, bind_ok]
  dsimp only
  rw [hfull.stop, hfull.clear, if_neg (by decide), if_pos rfl, hfull.reset.2.2, hread', bind_ok]
  dsimp only
  rw [hfull.reset.1.stop, if_pos rfl]
  rfl

/-- A clear code and another code, which is not looked up. -/
theorem turn_clear (hfull : Full s.lzw) (hsz : 9 ≤ s.lzw.codeSz) (hsz' : s.lzw.codeSz ≤ 12)
    (h : Ready s (lsbBits s.lzw.codeSz 256 ++ (lsbBits 9 code ++ post))) (hcode : code ≤ 256) :
    ∃ s', turn room s = .ok (true, s') ∧ s'.lzw = s.lzw.reset ∧ s'.old = code ∧
      s'.out = begin room code s.out ∧ Ready s' post := by
  have hlt : 256 < 2 ^ s.lzw.codeSz :=
    Nat.lt_of_lt_of_le (by decide : 256 < 2 ^ 9) (Nat.pow_le_pow_right Nat.two_pos hsz)
  obtain ⟨rd, hread, hwf, hstream⟩ := read_lsbBits h.rd (by omega) hlt h.stream
  obtain ⟨rd', hread', hwf', hstream'⟩ := read_lsbBits hwf (by decide)
    (Nat.lt_of_le_of_lt hcode (by decide : 256 < 2 ^ 9)) hstream
  refine ⟨⟨s.lzw.reset, rd', code, begin room code s.out⟩, ?_, rfl, rfl, rfl, hwf', hstream'⟩
  rw [turn, hread, bind_ok]
  dsimp only
  rw [hfull.stop, hfull.clear, if_neg (by decide), if_pos rfl, hfull.reset.2.2, hread', bind_ok]
  dsimp only
  rw [hfull.reset.1.stop, if_neg (by omega)]
  rfl

end

/-! ## Behind a clear code that the loop finds -/

/-- The dictionary behind some texts: an entry for each text but the last, and the last one
spelled by `old`. -/
structure Tracks (texts : List (List UInt8)) (s : Decoding) : Prop where
  full : Full s.lzw
  next : s.lzw.next = 257 + texts.length
  codeSz : s.lzw.codeSz = 9
  pos : texts ≠ []
  entry : ∀ i old a, texts[i]? = some old → texts[i + 1]?.bind List.head? = some a →
    Spells s.lzw (258 + i) (old ++ [a])
  last : ∀ old, texts.getLast? = some old → Spells s.lzw s.old old
  short : ∀ text ∈ texts, text.length ≤ texts.length

section

variable {s s' : Decoding} {texts : List (List UInt8)} {code : Nat} {text : List UInt8}

theorem endCode_eight : endCode 8 = 257 := by
  rw [endCode]
  norm_num

theorem width_eq_nine {n : Nat} (h : n ≤ 254) : width 8 n = 9 := by
  have hle : (257 + n).size ≤ 9 := Nat.size_le.mpr (by norm_num; omega)
  have hge : 8 < (257 + n).size := Nat.lt_size.mpr (by norm_num; omega)
  rw [width, endCode_eight]
  omega

/-- What a code stands for behind some texts, and what the dictionary spells after it. -/
theorem Tracks.expand_eq (h : Tracks texts s) (hlen : texts.length ≤ 254)
    (hstands : Stands 8 texts code text) :
    s.lzw.expand s.old code = .ok text ∧ code ≠ 256 ∧ code ≠ 257 ∧ code < 512 ∧
      text.length ≤ texts.length + 1 ∧ ∃ a, text.head? = some a ∧
        Spells (s.lzw.add s.old a) code text := by
  have hnext := h.next
  have hroom : s.lzw.next < 4096 := by omega
  have hpos : 0 < texts.length := List.length_pos_iff.mpr h.pos
  cases hstands with
  | pixel p hp =>
      have hlt : p.toNat < 256 := p.toNat_lt
      have hroot : p.toNat ≤ s.lzw.clear := by
        rw [h.full.clear]
        exact Nat.le_of_lt hlt
      have hspells : Spells s.lzw p.toNat [p] := by
        have hroot := Spells.root hroot
        rwa [UInt8.ofNat_toNat] at hroot
      refine ⟨hspells.expand_eq (by omega) (Nat.le_of_ble_eq_true rfl), by omega, by omega, by omega, ?_, p, rfl,
        hspells.add hroom⟩
      exact Nat.le_add_left 1 _
  | @entry i old _ a hold hafter htext _ =>
      rw [endCode_eight] at *
      obtain ⟨hi, -⟩ := List.getElem?_eq_some_iff.mp hold
      have hshort := h.short old (List.mem_of_getElem? hold)
      have htlen : text.length ≤ texts.length + 1 := by
        rw [htext, List.length_append]
        exact Nat.succ_le_succ hshort
      have hdict : texts.length + 1 ≤ dictN := by
        rw [dictN]
        omega
      -- The entry is in the dictionary, or it is the one that this code adds.
      rcases Nat.lt_or_ge (i + 1) texts.length with hlt | hge
      · rw [List.getElem?_append_left hlt] at hafter
        have hspells := h.entry i old a hold hafter
        rw [← htext] at hspells
        obtain ⟨b, hb⟩ := Option.ne_none_iff_exists'.mp (mt List.head?_eq_none_iff.mp hspells.ne_nil)
        exact ⟨hspells.expand_eq (by omega) (htlen.trans hdict), by omega, by omega, by omega, htlen,
          b, hb, hspells.add hroom⟩
      · have hlast : i + 1 = texts.length := Nat.le_antisymm hi hge
        have hget : texts.getLast? = some old := by
          rw [List.getLast?_eq_getElem?, ← hlast, Nat.add_sub_cancel]
          exact hold
        have hspells := h.last old hget
        have hhead : text.head? = some a := by
          rw [hlast, List.getElem?_append_right (Nat.le_refl _), Nat.sub_self] at hafter
          exact hafter
        have hold' : old.head? = some a := by
          rwa [htext, List.head?_append_of_ne_nil _ hspells.ne_nil] at hhead
        have hcode : 257 + 1 + i = s.lzw.next := by omega
        have hclear : s.lzw.clear < s.lzw.next := by
          rw [h.full.clear]
          omega
        have hadded := @Spells.add_next s.lzw s.old old a hspells hroom hclear
        rw [← htext, ← hcode] at hadded
        refine ⟨?_, by omega, by omega, by omega, htlen, a, hhead, hadded⟩
        rw [htext]
        exact hspells.expand_next (Nat.le_of_eq hcode.symm) (hshort.trans_lt hdict) hold'

/-- A code adds its text to the others. -/
theorem Tracks.step (h : Tracks texts s) (hlen : texts.length ≤ 254) {a : UInt8}
    (hshort : text.length ≤ texts.length + 1) (ha : text.head? = some a)
    (hspells : Spells (s.lzw.add s.old a) code text) (hlzw : s'.lzw = s.lzw.add s.old a)
    (hold : s'.old = code) : Tracks (texts ++ [text]) s' := by
  have hroom : s.lzw.next < 4096 := by
    have hnext := h.next
    omega
  have hclear : s.lzw.clear < s.lzw.next := by
    rw [h.full.clear, h.next]
    omega
  obtain ⟨hnext, -, -, -, hsz⟩ := @add_eq s.lzw s.old a hroom
  refine ⟨?_, ?_, ?_, ?_, ?_, ?_, ?_⟩
  · rw [hlzw]
    exact h.full.add _ _
  · rw [hlzw, hnext, h.next, List.length_append]
    rfl
  · rw [hlzw, hsz, h.codeSz, h.next, if_neg]
    rintro ⟨hlt, -⟩
    have hpow : 2 ^ 9 = 512 := rfl
    omega
  · exact List.append_ne_nil_of_right_ne_nil _ (List.cons_ne_nil _ _)
  · intro i old b hi hb
    rw [hlzw]
    rcases Nat.lt_trichotomy (i + 1) texts.length with hlt | heq | hgt
    · rw [List.getElem?_append_left (by omega)] at hi
      rw [List.getElem?_append_left hlt] at hb
      exact (h.entry i old b hi hb).add hroom
    · rw [List.getElem?_append_left (by omega)] at hi
      rw [heq, List.getElem?_append_right (Nat.le_refl _), Nat.sub_self] at hb
      have hab : a = b := Option.some_inj.mp (ha.symm.trans hb)
      have hget : texts.getLast? = some old := by
        rw [List.getLast?_eq_getElem?, ← heq, Nat.add_sub_cancel]
        exact hi
      have hadded := @Spells.add_next s.lzw s.old old a (h.last old hget) hroom hclear
      have hcode : 258 + i = s.lzw.next := by
        rw [h.next]
        omega
      rw [hcode, ← hab]
      exact hadded
    · rw [List.getElem?_eq_none (by rw [List.length_append]; exact hgt)] at hb
      cases hb
  · intro old hget
    rw [List.getLast?_concat] at hget
    cases hget
    rw [hlzw, hold]
    exact hspells
  · intro text' hmem
    rw [List.length_append]
    rcases List.mem_append.mp hmem with hmem | hmem
    · exact (h.short text' hmem).trans (Nat.le_succ _)
    · rw [List.mem_singleton.mp hmem]
      exact hshort

/-- The codes up to the next clear code give their pixels. -/
theorem Tracks.run {codes : List Nat} {pixels : List UInt8} {post : List Bool}
    (hcodes : Codes 8 texts codes pixels) (h : Tracks texts s)
    (hlen : texts.length + codes.length ≤ 255)
    (hready : Ready s (codeBits 8 texts.length codes ++ post))
    (hroom : s.out.length + pixels.length ≤ 65536) :
    ∃ s', Leads (turn 65536) s s' ∧ Full s'.lzw ∧ s'.lzw.codeSz = 9 ∧
      s'.out = s.out ++ pixels ∧ Ready s' post := by
  induction hcodes generalizing s with
  | nil => exact ⟨s, .refl, h.full, h.codeSz, (List.append_nil _).symm, hready⟩
  | @cons texts code text codes pixels hstands _ ih =>
      rw [List.length_cons] at hlen
      rw [List.length_append] at hroom
      have hsz : width 8 texts.length = s.lzw.codeSz := by
        rw [h.codeSz]
        exact width_eq_nine (by omega)
      obtain ⟨hexpand, hclear, hstop, hlt, hshort, a, ha, hspells⟩ :=
        h.expand_eq (by omega) hstands
      rw [codeBits, hsz, List.append_assoc] at hready
      obtain ⟨s', hturn, hlzw, hold, hout, hready'⟩ := @turn_code s 65536 code _ text hready
        (by rw [h.codeSz]; decide) (by rw [h.codeSz]; exact hlt) (by rwa [h.full.stop])
        (by rwa [h.full.clear]) hexpand (by omega)
      have hhead : text.headD 0 = a := by rw [List.headD_eq_head?_getD, ha, Option.getD_some]
      rw [hhead] at hlzw
      have hstep := h.step (by omega) hshort ha hspells hlzw hold
      have hcount : (texts ++ [text]).length = texts.length + 1 := List.length_append
      obtain ⟨s'', hleads, hfull, hsz', hout', hready''⟩ := ih hstep (by omega)
        (by rwa [hcount]) (by rw [hout, List.length_append]; omega)
      refine ⟨s'', .head hturn hleads, hfull, hsz', ?_, hready''⟩
      rw [hout', hout, List.append_assoc]

end

/-! ## With an entry too many -/

/-- The text of a plain code. -/
def plainText (code : Nat) : List UInt8 := if code < 256 then [UInt8.ofNat code] else [0, 0]

section

variable {all before codes : List Nat} {pixels : List UInt8}

/-- The text of a plain code behind others. -/
theorem Stands.plainText_eq {code : Nat} {text : List UInt8} (hplain : Encoding.Plain all)
    (hall : all = before ++ code :: codes) (h : Stands 8 (before.map plainText) code text) :
    text = plainText code := by
  have hmem : code ∈ all := hall ▸ List.mem_append_right _ List.mem_cons_self
  cases h with
  | pixel p hp => rw [plainText, if_pos p.toNat_lt, UInt8.ofNat_toNat]
  | @entry i old _ a hold hafter htext _ =>
      rw [endCode_eight] at *
      rcases hplain _ hmem with hlt | ⟨hcode, hzero, hone⟩
      · omega
      · -- The entry is the first one, of a zero and the first pixel of the next text.
        have hi : i = 0 := by omega
        subst hi
        rw [List.getElem?_map] at hold
        obtain ⟨code₀, hcode₀, hold⟩ := Option.map_eq_some_iff.mp hold
        have hpos : 0 < before.length := (List.getElem?_eq_some_iff.mp hcode₀).1
        rw [hall, List.getElem?_append_left hpos, hcode₀] at hzero
        cases hzero
        have ha : a = 0 := by
          rcases Nat.lt_or_ge 1 before.length with hlt | hge
          · rw [List.getElem?_append_left (by rwa [List.length_map]), List.getElem?_map] at hafter
            rw [hall, List.getElem?_append_left hlt] at hone
            rcases hone with hone | hone
            · rw [hone] at hafter
              cases hafter
              rfl
            · rw [hone] at hafter
              cases hafter
              rfl
          · have hlen : (before.map plainText).length = 1 := by
              rw [List.length_map]
              omega
            rw [List.getElem?_append_right (by omega), hlen, htext, ← hold] at hafter
            cases hafter
            rfl
        rw [htext, ← hold, ha]
        rfl

/-- The pixels of plain codes. -/
theorem Codes.pixels_eq {done : List (List UInt8)} (hplain : Encoding.Plain all)
    (h : Codes 8 done codes pixels) (hall : all = before ++ codes)
    (hdone : done = before.map plainText) : pixels = codes.flatMap plainText := by
  induction h generalizing before with
  | nil => rfl
  | @cons done code text codes pixels hstands _ ih =>
      rw [hdone] at hstands
      have htext := hstands.plainText_eq hplain hall
      have hrest := @ih (before ++ [code]) (by rw [hall, List.append_assoc]; rfl)
        (by rw [List.map_append, hdone, htext]; rfl)
      rw [List.flatMap_cons, htext, hrest]

end

/-- The dictionary behind some codes, when it has an entry too many. -/
structure Ahead (before : List Nat) (s : Decoding) : Prop where
  full : Full s.lzw
  next : s.lzw.next = min 4096 (258 + before.length)
  codeSz : s.lzw.codeSz = width 8 before.length
  old : before = [] → s.old = 256
  first : before.head? = some 0 → s.lzw.prefixes[258]? = some 256 ∧ s.lzw.suffixes[258]? = some 0

theorem width_le (n : Nat) : 9 ≤ width 8 n ∧ width 8 n ≤ 12 := by
  have hge : 8 < (257 + n).size := Nat.lt_size.mpr (by norm_num; omega)
  rw [width, endCode_eight]
  omega

/-- The codes get wider when there is no room for the next one. -/
theorem width_succ (n : Nat) :
    width 8 (n + 1) = if 258 + n + 1 > 2 ^ width 8 n ∧ width 8 n < maxBits then width 8 n + 1
      else width 8 n := by
  rw [width, width, endCode_eight, maxBits]
  have hself : 257 + n < 2 ^ (257 + n).size := Nat.lt_size_self _
  have hmono : (257 + n).size ≤ (257 + n + 1).size := Nat.size_le_size (Nat.le_succ _)
  have hstep : (257 + n + 1).size ≤ (257 + n).size + 1 := Nat.size_le.mpr (by rw [pow_succ]; omega)
  have hsum : 257 + (n + 1) = 257 + n + 1 := rfl
  rw [hsum]
  rcases Nat.lt_or_ge (257 + n).size 12 with hlt | hge
  · rw [Nat.min_eq_right (Nat.le_of_lt hlt)]
    split
    · rename_i hgrow
      have hsize : (257 + n).size < (257 + n + 1).size := Nat.lt_size.mpr (by omega)
      omega
    · rename_i hstay
      have hsize : (257 + n + 1).size ≤ (257 + n).size := Nat.size_le.mpr (by omega)
      omega
  · rw [Nat.min_eq_left hge, Nat.min_eq_left (hge.trans hmono), if_neg]
    rintro ⟨-, hlt⟩
    exact Nat.lt_irrefl _ hlt

section

variable {s s' : Decoding} {all before codes : List Nat} {code : Nat}

/-- What a plain code stands for. -/
theorem Ahead.expand_eq (h : Ahead before s) (hplain : Encoding.Plain all)
    (hall : all = before ++ code :: codes) :
    s.lzw.expand s.old code = .ok (plainText code) ∧ code ≠ 256 ∧ code ≠ 257 ∧ code < 512 := by
  have hmem : code ∈ all := hall ▸ List.mem_append_right _ List.mem_cons_self
  have hnext := h.next
  rw [plainText]
  rcases hplain code hmem with hlt | ⟨hcode, hzero, -⟩
  · have hroot : code ≤ s.lzw.clear := by
      rw [h.full.clear]
      exact Nat.le_of_lt hlt
    rw [if_pos hlt]
    exact ⟨(Spells.root hroot).expand_eq (by omega) (Nat.le_of_ble_eq_true rfl), by omega, by omega,
      by omega⟩
  · have hpos : 0 < before.length := by
      refine List.length_pos_iff.mpr fun hnil => ?_
      rw [hall, hnil, hcode] at hzero
      cases hzero
    rw [hall, List.getElem?_append_left hpos, ← List.head?_eq_getElem?] at hzero
    obtain ⟨hparent, hsuffix⟩ := h.first hzero
    have hclear := h.full.clear
    have hspells : Spells s.lzw 258 ([UInt8.ofNat 256] ++ [0]) :=
      .link (by omega) (by omega) hparent hsuffix (.root (Nat.le_of_eq hclear.symm))
    rw [hcode, if_neg (by decide)]
    exact ⟨hspells.expand_eq (by omega) (Nat.le_of_ble_eq_true rfl), by omega, by omega, by omega⟩

theorem width_full {n : Nat} (h : 4096 ≤ 258 + n) : width 8 n = 12 := by
  have hlt : 11 < (257 + n).size := Nat.lt_size.mpr (by norm_num; omega)
  rw [width, endCode_eight]
  omega

/-- A code adds an entry, as long as there is room. -/
theorem Ahead.step (h : Ahead before s) (hlzw : s'.lzw = s.lzw.add s.old ((plainText code).headD 0)) :
    Ahead (before ++ [code]) s' := by
  have hnext := h.next
  have hcount : (before ++ [code]).length = before.length + 1 := List.length_append
  have hfull : Full s'.lzw := by
    rw [hlzw]
    exact h.full.add _ _
  have hold : before ++ [code] = [] → s'.old = 256 := fun hnil =>
    (List.append_ne_nil_of_right_ne_nil _ (List.cons_ne_nil _ _) hnil).elim
  rcases Nat.lt_or_ge s.lzw.next 4096 with hroom | hroom
  · obtain ⟨hnext', -, -, -, hsz⟩ := @add_eq s.lzw s.old ((plainText code).headD 0) hroom
    have hval : s.lzw.next = 258 + before.length := by omega
    refine ⟨hfull, ?_, ?_, hold, ?_⟩
    · rw [hlzw, hnext', hcount]
      omega
    · rw [hlzw, hsz, hcount, width_succ, h.codeSz, hval]
    · intro hhead
      rw [hlzw]
      cases hbefore : before with
      | nil =>
          rw [hbefore] at hhead hval
          cases hhead
          have hadded := @add_entry s.lzw s.old ((plainText 0).headD 0) hroom
          rw [hval, h.old hbefore] at hadded
          rw [h.old hbefore]
          exact hadded
      | cons code₀ rest =>
          rw [hbefore] at hhead hval
          have hfirst := h.first (by rw [hbefore]; exact hhead)
          have hne : 258 ≠ s.lzw.next := by
            rw [hval, List.length_cons]
            omega
          obtain ⟨hparent, hsuffix⟩ := @add_other s.lzw 258 s.old ((plainText code).headD 0) hroom hne
          exact ⟨hparent.trans hfirst.1, hsuffix.trans hfirst.2⟩
  · have hsame : s'.lzw = s.lzw := by rw [hlzw, Lzw.add, dif_neg (Nat.not_lt.mpr hroom)]
    refine ⟨hfull, ?_, ?_, hold, ?_⟩
    · rw [hsame, hcount]
      omega
    · rw [hsame, hcount, h.codeSz, width_full (by omega), width_full (by omega)]
    · intro hhead
      have hpos : before ≠ [] := by
        rintro rfl
        rw [List.length_nil] at hnext
        omega
      rw [List.head?_append_of_ne_nil _ hpos] at hhead
      rw [hsame]
      exact h.first hhead

/-- Plain codes up to the next clear code give their pixels. -/
theorem Ahead.run {post : List Bool} (hplain : Encoding.Plain all) (hall : all = before ++ codes)
    (h : Ahead before s) (hready : Ready s (codeBits 8 before.length codes ++ post))
    (hroom : s.out.length + (codes.flatMap plainText).length ≤ 65536) :
    ∃ s', Leads (turn 65536) s s' ∧ Ahead all s' ∧ s'.out = s.out ++ codes.flatMap plainText ∧
      Ready s' post := by
  induction codes generalizing s before with
  | nil =>
      rw [List.append_nil] at hall
      exact ⟨s, .refl, hall ▸ h, (List.append_nil _).symm, hready⟩
  | cons code codes ih =>
      obtain ⟨hexpand, hclear, hstop, hlt⟩ := h.expand_eq hplain hall
      have hsz := width_le before.length
      rw [List.flatMap_cons, List.length_append] at hroom
      rw [codeBits, ← h.codeSz, List.append_assoc] at hready
      obtain ⟨s', hturn, hlzw, -, hout, hready'⟩ := @turn_code s 65536 code _ (plainText code) hready
        (by rw [h.codeSz]; omega)
        (by
          rw [h.codeSz]
          exact hlt.trans_le (Nat.pow_le_pow_right Nat.two_pos hsz.1 : 2 ^ 9 ≤ _))
        (by rwa [h.full.stop]) (by rwa [h.full.clear]) hexpand (by omega)
      obtain ⟨s'', hleads, hahead, hout', hready''⟩ := @ih s' (before ++ [code])
        (by rw [hall, List.append_assoc]; rfl) (h.step hlzw) (by rwa [List.length_append])
        (by rw [hout, List.length_append]; omega)
      refine ⟨s'', .head hturn hleads, hahead, ?_, hready''⟩
      rw [hout', hout, List.flatMap_cons, List.append_assoc]

end

/-! ## From segment to segment -/

/-- The loop comes to its end and has written the pixels then. -/
def Finishes (s : Decoding) (pixels : List UInt8) : Prop :=
  ∃ s' s'', Leads (turn 65536) s s' ∧ turn 65536 s' = .ok (false, s'') ∧ s''.out = s.out ++ pixels

section

variable {s s' : Decoding} {post : List Bool} {pixels pixels' : List UInt8} {code : Nat}
  {codes : List Nat}

theorem Finishes.of_leads (hleads : Leads (turn 65536) s s') (hout : s'.out = s.out ++ pixels)
    (h : Finishes s' pixels') : Finishes s (pixels ++ pixels') := by
  obtain ⟨s₁, s₂, hleads', hlast, hout'⟩ := h
  refine ⟨s₁, s₂, hleads.trans hleads', hlast, ?_⟩
  rw [hout', hout, List.append_assoc]

theorem finishes_end (hfull : Full s.lzw) (hsz : 9 ≤ s.lzw.codeSz) (hsz' : s.lzw.codeSz ≤ 12)
    (h : Ready s (lsbBits s.lzw.codeSz 257 ++ post)) : Finishes s [] := by
  rw [← hfull.stop] at h
  obtain ⟨s', hturn, hout⟩ := @turn_end s 65536 post h (by omega) (by
    rw [hfull.stop]
    exact Nat.lt_of_lt_of_le (by decide : 257 < 2 ^ 9) (Nat.pow_le_pow_right Nat.two_pos hsz))
  exact ⟨s, s', .refl, hturn, by rw [hout, List.append_nil]⟩

/-- A clear code and the codes up to the next one. -/
theorem clear_run (hfull : Full s.lzw) (hsz : 9 ≤ s.lzw.codeSz) (hsz' : s.lzw.codeSz ≤ 12)
    (hcodes : Codes 8 [] (code :: codes) pixels) (hlen : codes.length ≤ 254)
    (hready : Ready s (lsbBits s.lzw.codeSz 256 ++ (codeBits 8 0 (code :: codes) ++ post)))
    (hroom : s.out.length + pixels.length ≤ 65536) :
    ∃ s', Leads (turn 65536) s s' ∧ Full s'.lzw ∧ s'.lzw.codeSz = 9 ∧
      s'.out = s.out ++ pixels ∧ Ready s' post := by
  obtain ⟨hfull', hnext', hsz''⟩ := hfull.reset
  rw [codeBits, width_eq_nine (Nat.zero_le _), List.append_assoc] at hready
  cases hcodes with
  | @cons _ _ text _ pixels hstands hrest =>
      rw [List.length_append] at hroom
      cases hstands with
      | entry hold => cases hold
      | pixel p hp =>
          have hlt : p.toNat < 256 := p.toNat_lt
          obtain ⟨s₁, hturn, hlzw, hold, hout, hready₁⟩ :=
            @turn_clear s 65536 p.toNat _ hfull hsz hsz' hready (Nat.le_of_lt hlt)
          have hwrite : s₁.out = s.out ++ [p] := by
            rw [hout, begin, if_pos hlt, UInt8.ofNat_toNat, write_eq]
            rw [List.length_singleton] at hroom ⊢
            omega
          have htracks : Tracks [[p]] s₁ := by
            refine ⟨?_, ?_, ?_, List.cons_ne_nil _ _, ?_, ?_, ?_⟩
            · rwa [hlzw]
            · rw [hlzw, hnext']
              rfl
            · rwa [hlzw]
            · intro i old a _ ha
              cases ha
            · intro old hget
              cases hget
              have hroot : p.toNat ≤ s₁.lzw.clear := by
                rw [hlzw, hfull'.clear]
                exact Nat.le_of_lt hlt
              have hspells := Spells.root hroot
              rw [UInt8.ofNat_toNat] at hspells
              rwa [hold]
            · intro text hmem
              rw [List.mem_singleton.mp hmem]
              exact Nat.le_refl 1
          have hlen' : [[p]].length + codes.length ≤ 255 := by
            rw [List.length_singleton]
            omega
          obtain ⟨s₂, hleads, hfull₂, hsz₂, hout₂, hready₂⟩ := htracks.run hrest hlen' hready₁ (by
            rw [hwrite, List.length_append]
            omega)
          refine ⟨s₂, .head hturn hleads, hfull₂, hsz₂, ?_, hready₂⟩
          rw [hout₂, hwrite, List.append_assoc]

end

/-- What `segmentBits` is behind the codes of its first segment. -/
def afterBits (n : Nat) : List (List Nat) → List Bool
  | [] => lsbBits (width 8 n) 257
  | codes :: rest => lsbBits (width 8 n) 256 ++ segmentBits 8 (codes :: rest)

theorem segmentBits_cons (codes : List Nat) (rest : List (List Nat)) :
    segmentBits 8 (codes :: rest) = codeBits 8 0 codes ++ afterBits codes.length rest := by
  have hclear : clearCode 8 = 256 := by
    rw [clearCode]
    norm_num
  cases rest with
  | nil => rw [segmentBits, endCode_eight, afterBits]
  | cons codes' rest =>
      rw [segmentBits, hclear, afterBits, List.append_assoc]
      exact fun hnil => List.cons_ne_nil _ _ hnil

/-- The loop takes what the segments behind a clear code stand for: a clear code that is read in
front of the loop or as a first code, or one that the loop finds. -/
theorem finishes {segments : List (List Nat)} {pixels : List UInt8} {post : List Bool}
    (h : Segments 8 segments pixels) :
    (∀ s, Encoding.Understood true segments → Ahead [] s → Ready s (segmentBits 8 segments ++ post) →
      s.out.length + pixels.length ≤ 65536 → Finishes s pixels) ∧
    (∀ s, Encoding.Understood false segments → Full s.lzw → 9 ≤ s.lzw.codeSz → s.lzw.codeSz ≤ 12 →
      Ready s (lsbBits s.lzw.codeSz 256 ++ (segmentBits 8 segments ++ post)) →
      s.out.length + pixels.length ≤ 65536 → Finishes s pixels) := by
  induction h with
  | nil =>
      rw [segmentBits, endCode_eight, width_eq_nine (Nat.zero_le _)]
      refine ⟨?_, ?_⟩
      · intro s _ hahead hready _
        have hsz : s.lzw.codeSz = 9 := hahead.codeSz.trans (width_eq_nine (Nat.zero_le _))
        rw [← hsz] at hready
        exact finishes_end hahead.full hsz.ge (by omega) hready
      · intro s _ hfull hsz hsz' hready _
        obtain ⟨s', hturn, hout⟩ := @turn_clear_end s 65536 post hfull hsz hsz' hready
        exact ⟨s, s', .refl, hturn, by rw [hout, List.append_nil]⟩
  | @cons codes pixels pixels' rest hcodes hsegments ih =>
      obtain ⟨ihAhead, ihClear⟩ := ih
      rw [segmentBits_cons]
      refine ⟨?_, ?_⟩
      · intro s hunderstood hahead hready hroom
        obtain ⟨hplain, hrest⟩ := hunderstood
        have hpixels := @Codes.pixels_eq codes [] codes pixels [] hplain hcodes rfl rfl
        rw [List.length_append] at hroom
        rw [List.append_assoc] at hready
        obtain ⟨s', hleads, hahead', hout, hready'⟩ :=
          hahead.run hplain rfl hready (by rw [← hpixels]; omega)
        rw [← hpixels] at hout
        refine Finishes.of_leads hleads hout ?_
        have hsz := width_le codes.length
        rw [← hahead'.codeSz] at hsz
        cases hsegments with
        | nil =>
            rw [afterBits, ← hahead'.codeSz] at hready'
            exact finishes_end hahead'.full hsz.1 hsz.2 hready'
        | cons _ _ =>
            rw [afterBits, ← hahead'.codeSz, List.append_assoc] at hready'
            exact ihClear s' hrest hahead'.full hsz.1 hsz.2 hready' (by rw [hout, List.length_append]; omega)
      · intro s hunderstood hfull hsz hsz' hready hroom
        obtain ⟨hshort, hrest⟩ := hunderstood
        rw [List.length_append] at hroom
        rw [List.append_assoc] at hready
        cases codes with
        | nil =>
            cases hcodes
            rw [codeBits, List.nil_append, List.length_nil] at hready
            cases hsegments with
            | nil =>
                rw [afterBits, width_eq_nine (Nat.zero_le _)] at hready
                obtain ⟨s', hturn, hout⟩ := @turn_clear_end s 65536 post hfull hsz hsz' hready
                exact ⟨s, s', .refl, hturn, by rw [hout, List.append_nil, List.append_nil]⟩
            | cons _ _ =>
                -- The second clear code is read like a first code.
                rw [afterBits, width_eq_nine (Nat.zero_le _), List.append_assoc] at hready
                obtain ⟨s', hturn, hlzw, hold, hout, hready'⟩ :=
                  @turn_clear s 65536 256 _ hfull hsz hsz' hready (Nat.le_refl _)
                obtain ⟨hfull', hnext', hsz''⟩ := hfull.reset
                have hahead : Ahead [] s' := by
                  refine ⟨?_, ?_, ?_, fun _ => hold, fun hhead => by cases hhead⟩
                  · rwa [hlzw]
                  · rw [hlzw, hnext']
                    rfl
                  · rw [hlzw, hsz'']
                    exact (width_eq_nine (Nat.zero_le _)).symm
                have hout' : s'.out = s.out ++ [] := by
                  rw [hout, begin, if_neg (by decide), List.append_nil]
                refine Finishes.of_leads (.single hturn) hout' ?_
                exact ihAhead s' hrest hahead hready' (by rw [hout', List.append_nil]; omega)
        | cons code codes =>
            rw [List.length_cons] at hshort
            obtain ⟨s', hleads, hfull', hsz'', hout, hready'⟩ :=
              clear_run hfull hsz hsz' hcodes (by omega) hready (by omega)
            refine Finishes.of_leads hleads hout ?_
            rw [List.length_cons] at hready'
            cases hsegments with
            | nil =>
                -- A tenth bit of the end code makes no difference.
                have hbits : ∃ post', lsbBits (width 8 (codes.length + 1)) 257 ++ post =
                    lsbBits 9 257 ++ post' := by
                  rcases hshort with hshort | ⟨hshort, -⟩
                  · rw [width_eq_nine hshort]
                    exact ⟨post, rfl⟩
                  · rw [hshort]
                    exact ⟨false :: post, rfl⟩
                obtain ⟨post', hbits⟩ := hbits
                rw [afterBits, hbits, ← hsz''] at hready'
                exact finishes_end hfull' hsz''.ge (by omega) hready'
            | cons _ _ =>
                have hshort' : codes.length + 1 ≤ 254 := by
                  rcases hshort with hshort | ⟨-, hnil⟩
                  · exact hshort
                  · cases hnil
                rw [afterBits, width_eq_nine hshort', ← hsz'', List.append_assoc] at hready'
                exact ihClear s' hrest hfull' hsz''.ge (by omega) hready'
                  (by rw [hout, List.length_append]; omega)

/-! ## Images -/

theorem payload_append {block : List UInt8} (h : block ≠ []) (rest : List UInt8) :
    payload (block ++ rest) block.length = block ++ blocks rest := by
  induction block with
  | nil => exact (h rfl).elim
  | cons b block ih =>
      cases block with
      | nil => cases rest <;> rfl
      | cons c block =>
          have hrest := ih (List.cons_ne_nil _ _)
          rw [List.length_cons] at hrest
          rw [List.cons_append, List.length_cons, List.length_cons, payload, hrest]
          rfl

theorem Blocked.blocks_eq {bytes raw : List UInt8} (h : Blocked bytes raw) : blocks raw = bytes := by
  induction h with
  | stop behind => exact payload_zero behind
  | block block hne hlen _ ih =>
      have hsize : (UInt8.ofNat block.length).toNat = block.length := UInt8.toNat_ofNat_of_lt' hlen
      rw [List.cons_append, blocks, hsize, payload_append hne, ih]

namespace Encoding

variable (e : Encoding)

/-- The reader hands out the bits of the image. -/
theorem stream_eq : (GifReader.new e.raw 0).stream =
    lsbBits (e.m + 1) (clearCode e.m) ++ (segmentBits e.m e.segments ++ e.unused) := by
  rw [(stream_new e.raw 0).2, List.drop_zero, e.blocked.blocks_eq, e.packed, List.append_assoc]

/-- The state behind the first code, which is the clear code. -/
theorem decode_eq : ∃ lzw rd, Lzw.new e.m = .ok lzw ∧ lzw.minC = e.m ∧ lzw.clear = clearCode e.m ∧
    lzw.stop = endCode e.m ∧ lzw.next = endCode e.m + 1 ∧ lzw.codeSz = e.m + 1 ∧
    rd.WellFormed ∧ rd.stream = segmentBits e.m e.segments ++ e.unused ∧
    ∀ fuel, e.decode fuel = (turns (turn 65536) fuel
      { lzw := lzw, rd := rd, old := clearCode e.m, out := begin 65536 (clearCode e.m) [] }).map
        Decoding.out := by
  have hm : ¬e.m ≥ 16 := by
    have hle := e.le_eight
    omega
  have hpow : 2 ^ e.m ≤ 2 ^ 8 := Nat.pow_le_pow_right Nat.two_pos e.le_eight
  have hsmall : ¬2 ^ e.m > dictN := by
    rw [dictN]
    omega
  have hlt : clearCode e.m < 2 ^ (e.m + 1) := Nat.pow_lt_pow_right (by decide) (Nat.lt_succ_self _)
  obtain ⟨rd, hread, hwf, hstream⟩ :=
    read_lsbBits (stream_new e.raw 0).1 (by have := e.le_eight; omega) hlt e.stream_eq
  have hnew := Lzw.new.eq_def e.m
  rw [if_neg hm, if_neg hsmall] at hnew
  refine ⟨_, rd, hnew, rfl, rfl, rfl, rfl, rfl, hwf, hstream, fun fuel => ?_⟩
  rw [decode, hnew, bind_ok, decompress, hread, bind_ok]
  dsimp only
  rw [if_neg (by rw [clearCode]; omega)]
  rfl

theorem decoded_of_careful (h : e.Careful) : e.Decoded := by
  obtain ⟨lzw, rd, -, hminC, hclear, hstop, hnext, hsz, hwf, hstream, hdecode⟩ := e.decode_eq
  have hcoded := e.coded
  have hcode : clearCode 8 = 256 := by
    rw [clearCode]
    norm_num
  rw [h.colours] at hcoded hminC hclear hstop hnext hsz hstream hdecode
  rw [hcode] at hclear hdecode
  rw [endCode_eight] at hstop hnext
  have hahead : Ahead [] { lzw := lzw, rd := rd, old := 256, out := begin 65536 256 [] } := by
    refine ⟨⟨hminC, hclear, hstop⟩, ?_, ?_, fun _ => rfl, fun hhead => by cases hhead⟩
    · exact hnext
    · exact hsz.trans (width_eq_nine (Nat.zero_le _)).symm
  obtain ⟨s', s'', hleads, hlast, hout⟩ := (finishes hcoded).1 _ h.understood hahead
    ⟨hwf, hstream⟩ (by
      rw [begin, if_neg (by decide), List.length_nil, Nat.zero_add]
      exact e.few)
  obtain ⟨fuel, hfuel⟩ := turns_of_leads hleads hlast
  refine ⟨fuel, ?_⟩
  rw [hdecode, hfuel]
  exact congrArg Except.ok hout

end Encoding

/-! ## With fewer colours -/

/-- A text of pixels. -/
def Pixels (m : Nat) (text : List UInt8) : Prop := text ≠ [] ∧ ∀ p ∈ text, p.toNat < 2 ^ m

section

variable {m code : Nat} {done : List (List UInt8)} {text pixels : List UInt8} {codes : List Nat}

theorem Stands.small (h : Stands m done code text) (hdone : ∀ old ∈ done, Pixels m old) :
    Pixels m text := by
  cases h with
  | pixel p hp => exact ⟨List.cons_ne_nil _ _, fun q hq => by rwa [List.mem_singleton.mp hq]⟩
  | @entry i old _ a hold hafter htext _ =>
      obtain ⟨hne, hsmall⟩ := hdone old (List.mem_of_getElem? hold)
      have hmem : ∀ text', text'.head? = some a → Pixels m text' → a.toNat < 2 ^ m :=
        fun text' hhead hpixels => hpixels.2 a (List.mem_of_head? hhead)
      have ha : a.toNat < 2 ^ m := by
        obtain ⟨text', hget, hhead⟩ := Option.bind_eq_some_iff.mp hafter
        rcases List.mem_append.mp (List.mem_of_getElem? hget) with hin | hin
        · exact hmem text' hhead (hdone text' hin)
        · -- The text itself begins with an old one.
          rw [List.mem_singleton.mp hin, htext, List.head?_append_of_ne_nil _ hne] at hhead
          exact hmem old hhead ⟨hne, hsmall⟩
      rw [htext]
      refine ⟨List.append_ne_nil_of_right_ne_nil _ (List.cons_ne_nil _ _), fun p hp => ?_⟩
      rcases List.mem_append.mp hp with hp | hp
      · exact hsmall p hp
      · rwa [List.mem_singleton.mp hp]

theorem Codes.small (h : Codes m done codes pixels) (hdone : ∀ old ∈ done, Pixels m old) :
    ∀ p ∈ pixels, p.toNat < 2 ^ m := by
  induction h with
  | nil => exact fun p hp => (List.not_mem_nil hp).elim
  | cons hstands _ ih =>
      have htext := hstands.small hdone
      intro p hp
      rcases List.mem_append.mp hp with hp | hp
      · exact htext.2 p hp
      · refine ih (fun old hold => ?_) p hp
        rcases List.mem_append.mp hold with hold | hold
        · exact hdone old hold
        · rwa [List.mem_singleton.mp hold]

/-- The pixels of an image are colours that it has. -/
theorem Segments.small {segments : List (List Nat)} (h : Segments m segments pixels) :
    ∀ p ∈ pixels, p.toNat < 2 ^ m := by
  induction h with
  | nil => exact fun p hp => (List.not_mem_nil hp).elim
  | cons hcodes _ ih =>
      intro p hp
      rcases List.mem_append.mp hp with hp | hp
      · exact hcodes.small (fun old hold => (List.not_mem_nil hold).elim) p hp
      · exact ih p hp

end

namespace Encoding

variable (e : Encoding)

/-- With fewer than 256 colours the image begins with a pixel that is the clear code. -/
theorem not_decoded_of_lt (hm : e.m < 8) : ¬e.Decoded := by
  rintro ⟨fuel, hfuel⟩
  obtain ⟨lzw, rd, -, -, -, -, -, -, -, -, hdecode⟩ := e.decode_eq
  have hlt : clearCode e.m < 256 := Nat.pow_lt_pow_right (by decide) hm
  rw [hdecode] at hfuel
  cases hr : turns (turn 65536) fuel
      { lzw := lzw, rd := rd, old := clearCode e.m, out := begin 65536 (clearCode e.m) [] } with
  | error fault =>
      rw [hr] at hfuel
      cases hfuel
  | ok s =>
      rw [hr] at hfuel
      obtain ⟨s', hleads, hlast⟩ := leads_of_turns hr
      have hkeeps : ∃ rest, s'.out = UInt8.ofNat (clearCode e.m) :: rest := by
        refine hleads.keeps (P := fun s => ∃ rest, s.out = UInt8.ofNat (clearCode e.m) :: rest) ?_ ?_
        · refine ⟨[], ?_⟩
          rw [begin, if_pos hlt]
          rfl
        · rintro s₁ s₂ ⟨rest, hrest⟩ hturn
          obtain ⟨bytes, hbytes⟩ := turn_out hturn
          exact ⟨rest ++ bytes, by rw [hbytes, hrest]; rfl⟩
      obtain ⟨rest, hrest⟩ := hkeeps
      obtain ⟨bytes, hbytes⟩ := turn_out hlast
      have hpixels : e.pixels = UInt8.ofNat (clearCode e.m) :: (rest ++ bytes) := by
        rw [← Except.ok.inj hfuel, hbytes, hrest]
        rfl
      have hsmall := e.coded.small _ (hpixels ▸ List.mem_cons_self)
      rw [UInt8.toNat_ofNat_of_lt' hlt] at hsmall
      exact Nat.lt_irrefl _ hsmall

/-- With 256 colours the pixels come back if `decompress` understands the codes, and with fewer
they never do. -/
theorem decoded_of_careful_and_not_decoded :
    (e.Careful → e.Decoded) ∧ (e.m < 8 → ¬e.Decoded) :=
  ⟨e.decoded_of_careful, e.not_decoded_of_lt⟩

end Encoding

/-- An image of one pixel, with four colours. -/
def fourColours : Encoding where
  m := 2
  two_le := Nat.le_refl 2
  le_eight := by decide
  pixels := [1]
  few := by decide
  segments := [[1]]
  coded := .cons (.cons (.pixel 1 (by decide)) .nil) .nil
  bytes := [0x4C, 0x01]
  unused := .replicate 7 false
  packed := by decide +kernel
  raw := [2, 0x4C, 0x01, 0]
  blocked := .block [0x4C, 0x01] (List.cons_ne_nil _ _) (by decide) (.stop [])

/-- A pixel, and behind a further clear code two pixels, the entry that they make and the entry
that the text itself completes, in two sub-blocks. -/
def fullColours : Encoding where
  m := 8
  two_le := by decide
  le_eight := Nat.le_refl 8
  pixels := [7, 5, 6, 5, 6, 5, 6, 5]
  few := by decide
  segments := [[7], [5, 6, 258, 260]]
  coded := by
    have hpair : Stands 8 [[5], [6]] 258 [5, 6] :=
      .entry (i := 0) (a := 6) rfl rfl rfl (by decide)
    have hself : Stands 8 [[5], [6], [5, 6]] 260 [5, 6, 5] :=
      .entry (i := 2) (a := 5) rfl rfl rfl (by decide)
    exact .cons (.cons (.pixel 7 (by decide)) .nil)
      (.cons (.cons (.pixel 5 (by decide)) (.cons (.pixel 6 (by decide))
        (.cons hpair (.cons hself .nil)))) .nil)
  bytes := [0x00, 0x0F, 0x00, 0x2C, 0x60, 0x40, 0x20, 0xC1, 0x80]
  unused := []
  packed := by decide +kernel
  raw := [4, 0x00, 0x0F, 0x00, 0x2C, 5, 0x60, 0x40, 0x20, 0xC1, 0x80, 0]
  blocked := .block [0x00, 0x0F, 0x00, 0x2C] (List.cons_ne_nil _ _) (by decide)
    (.block [0x60, 0x40, 0x20, 0xC1, 0x80] (List.cons_ne_nil _ _) (by decide) (.stop []))

theorem decoded_of_careful_fullColours : fullColours.Decoded := by
  refine fullColours.decoded_of_careful_and_not_decoded.1 ⟨rfl, ?_, Or.inl (by decide), trivial⟩
  exact fun code hcode => Or.inl (by
    rw [List.mem_singleton.mp hcode]
    decide)

theorem not_decoded_fourColours : ¬∀ e : Encoding, e.Decoded := fun h =>
  fourColours.not_decoded_of_lt (by decide) (h fourColours)

end PureOS.Gif
