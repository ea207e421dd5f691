import PureOS.Gif.Lzw

set_option autoImplicit false

/-!
# Gif: when the decompressor ends (`gif.rs`)

`decompress` trusts its codes.  A code that is not in the dictionary may enter itself into it, so
that its chain runs in a circle, and codes of 13 bits lead out of the dictionary.  Without an end
code the reader hands out zeros for ever.
-/

namespace PureOS.Gif

open PureOS.Foundation GifReader Lzw

/-- The chain of a code comes to a root by so many links at most. -/
def Rooted (l : Lzw) : Nat → Nat → Prop
  | 0, c => c ≤ l.clear
  | n + 1, c => c ≤ l.clear ∨ ∃ p, l.prefixes[c]? = some p ∧ Rooted l n p

/-- The code that a turn of the loop reads. -/
def codeOf (s : Decoding) : Nat := lsbVal (s.rd.stream.take s.lzw.codeSz)

/-- The chain of links that a code is expanded by: its own one, or that of the code before if it
is not in the dictionary. -/
def Expandable (s : Decoding) (code : Nat) : Prop :=
  if code ≥ s.lzw.next then Rooted s.lzw (dictN - 2) s.old else Rooted s.lzw (dictN - 1) code

/-- A turn of the loop that goes wrong or goes on for ever: there are no more bits, or there is a
code that cannot be expanded. -/
def BadTurn (s : Decoding) : Prop :=
  s.rd.stream = [] ∨
    codeOf s ≠ s.lzw.stop ∧ codeOf s ≠ s.lzw.clear ∧ ¬Expandable s (codeOf s)

/-- The numbers of a dictionary fit together. -/
structure Sane (l : Lzw) : Prop where
  minC : l.minC ≤ 12
  clear : l.clear = 2 ^ l.minC
  stop : l.stop = l.clear + 1
  next : l.clear + 2 ≤ l.next
  codeSz_pos : 0 < l.codeSz
  codeSz_le : l.codeSz ≤ 13

section

variable {l : Lzw} {n m c old : Nat} {stack : List UInt8} {a : UInt8}

theorem Rooted.mono (h : Rooted l n c) (hnm : n ≤ m) : Rooted l m c := by
  induction n generalizing m c with
  | zero =>
      cases m with
      | zero => exact h
      | succ m => exact Or.inl h
  | succ n ih =>
      obtain ⟨m, rfl⟩ := Nat.exists_eq_add_of_le' (Nat.le_of_add_left_le hnm)
      rcases h with hroot | ⟨p, hp, hrest⟩
      · exact Or.inl hroot
      · exact Or.inr ⟨p, hp, ih hrest (Nat.le_of_succ_le_succ hnm)⟩

theorem suffixes_of_prefixes {p : Nat} (h : l.prefixes[c]? = some p) :
    ∃ b, l.suffixes[c]? = some b := by
  obtain ⟨hc, -⟩ := Vector.getElem?_eq_some_iff.mp h
  exact ⟨l.suffixes[c], Vector.getElem?_eq_getElem hc⟩

/-- The loop that pushes a string ends if the chain comes to a root in time, and only then. -/
theorem walk_ok_iff : (∃ bytes, l.walk (n + 1) c stack = .ok bytes) ↔ Rooted l n c := by
  induction n generalizing c stack with
  | zero =>
      rw [walk, Rooted]
      split
      · rename_i hc
        refine iff_of_false ?_ (Nat.not_le.mpr hc)
        rintro ⟨bytes, hbytes⟩
        split at hbytes <;> cases hbytes
      · rename_i hc
        exact iff_of_true ⟨_, rfl⟩ (Nat.not_lt.mp hc)
  | succ n ih =>
      rw [walk, Rooted]
      split
      · rename_i hc
        cases hp : l.prefixes[c]? with
        | none =>
            refine iff_of_false ?_ ?_
            · rintro ⟨bytes, hbytes⟩
              split at hbytes
              · rename_i hsome
                cases hsome
              · cases hbytes
            · rintro (hroot | ⟨p, hsome, -⟩)
              · exact Nat.not_le.mpr hc hroot
              · cases hsome
        | some p =>
            obtain ⟨b, hb⟩ := suffixes_of_prefixes hp
            rw [hb]
            dsimp only
            rw [ih]
            refine ⟨fun hrest => Or.inr ⟨p, rfl, hrest⟩, ?_⟩
            rintro (hroot | ⟨p', hsome, hrest⟩)
            · exact (Nat.not_le.mpr hc hroot).elim
            · cases hsome
              exact hrest
      · rename_i hc
        exact iff_of_true ⟨_, rfl⟩ (Or.inl (Nat.not_lt.mp hc))

theorem firstByteLoop_ok (h : Rooted l n c) : ∃ b, l.firstByteLoop (n + 1) c = .ok b := by
  induction n generalizing c with
  | zero =>
      rw [firstByteLoop, if_neg (Nat.not_lt.mpr h)]
      exact ⟨_, rfl⟩
  | succ n ih =>
      rw [firstByteLoop]
      split
      · rename_i hc
        rcases h with hroot | ⟨p, hp, hrest⟩
        · exact (Nat.not_le.mpr hc hroot).elim
        · rw [hp]
          exact ih hrest
      · exact ⟨_, rfl⟩

end

section

variable {s s' : Decoding} {code room : Nat}

theorem expand_ok_iff : (∃ bytes, s.lzw.expand s.old code = .ok bytes) ↔ Expandable s code := by
  rw [expand, Expandable]
  split
  · refine ⟨?_, ?_⟩
    · rintro ⟨bytes, hbytes⟩
      obtain ⟨fb, _, hwalk⟩ := bind_eq_ok hbytes
      exact walk_ok_iff.mp ⟨bytes, hwalk⟩
    · intro hrooted
      obtain ⟨fb, hfb⟩ := firstByteLoop_ok (hrooted.mono (m := dictN - 1) (by decide))
      obtain ⟨bytes, hwalk⟩ := (@walk_ok_iff s.lzw (dictN - 2) s.old [fb]).mpr hrooted
      refine ⟨bytes, ?_⟩
      have hfirst : s.lzw.firstByte s.old = .ok fb := hfb
      rw [hfirst]
      exact hwalk
  · exact walk_ok_iff

theorem Sane.add {l : Lzw} (h : Sane l) (old : Nat) (a : UInt8) : Sane (l.add old a) := by
  rw [Lzw.add]
  split
  · refine ⟨h.minC, h.clear, h.stop, h.next.trans (Nat.le_succ _), ?_, ?_⟩
    · dsimp only
      split
      · exact Nat.succ_pos _
      · exact h.codeSz_pos
    · dsimp only
      split
      · rename_i hgrow
        have hlt : l.codeSz < 12 := hgrow.2
        omega
      · exact h.codeSz_le
  · exact h

theorem Sane.reset {l : Lzw} (h : Sane l) : Sane l.reset := by
  rw [Lzw.reset]
  exact ⟨h.minC, rfl, rfl, Nat.le_refl _, Nat.succ_pos _, Nat.succ_le_succ h.minC⟩

/-- A dictionary fits into the tables with 12 bits at most. -/
theorem new_ok {minC : Nat} (h : minC ≤ 12) :
    ∃ l, Lzw.new minC = .ok l ∧ Sane l := by
  have hsmall : ¬2 ^ minC > dictN := Nat.not_lt.mpr (Nat.pow_le_pow_right Nat.two_pos h)
  rw [Lzw.new, if_neg (by omega), if_neg hsmall]
  exact ⟨_, rfl, h, rfl, rfl, Nat.le_refl _, Nat.succ_pos _, Nat.succ_le_succ h⟩

theorem new_panic {minC : Nat} (h : 12 < minC) : Lzw.new minC = .error .panic := by
  rw [Lzw.new]
  split
  · rfl
  · have hbig : 2 ^ minC > dictN := (Nat.pow_lt_pow_right (by decide) h : 2 ^ 12 < 2 ^ minC)
    rw [if_pos hbig]

/-- What holds in front of each turn. -/
structure Turning (s : Decoding) : Prop where
  lzw : Sane s.lzw
  rd : s.rd.WellFormed

theorem Turning.read (h : Turning s) : ∃ rd, s.rd.read s.lzw.codeSz = .ok (codeOf s, rd) ∧
    rd.WellFormed ∧ rd.stream = s.rd.stream.drop s.lzw.codeSz := by
  have hle := h.lzw.codeSz_le
  exact read_spec h.rd (by omega)

/-- A turn that is not bad ends the loop or takes bits. -/
theorem Turning.good (h : Turning s) (hbad : ¬BadTurn s) :
    ∃ again s', turn room s = .ok (again, s') ∧
      (again = true → Turning s' ∧ s'.rd.stream.length < s.rd.stream.length) := by
  obtain ⟨hmore, hcode⟩ := not_or.mp hbad
  obtain ⟨rd, hread, hwf, hstream⟩ := h.read
  have hshort : rd.stream.length < s.rd.stream.length := by
    have hpos := h.lzw.codeSz_pos
    have hlen := List.length_pos_iff.mpr hmore
    rw [hstream, List.length_drop]
    omega
  rw [turn, hread, bind_ok]
  dsimp only
  split
  · exact ⟨false, _, rfl, fun hagain => by cases hagain⟩
  · rename_i hstop
    split
    · have hsane := h.lzw.reset
      have hle := hsane.codeSz_le
      obtain ⟨rd', hread', hwf', hstream'⟩ := read_spec hwf (by omega : s.lzw.reset.codeSz ≤ 25)
      rw [hread', bind_ok]
      dsimp only
      split
      · exact ⟨false, _, rfl, fun hagain => by cases hagain⟩
      · refine ⟨true, _, rfl, fun _ => ⟨⟨hsane, hwf'⟩, ?_⟩⟩
        dsimp only
        rw [hstream', List.length_drop]
        omega
    · rename_i hclear
      have hexpandable : Expandable s (codeOf s) := by
        by_contra hnot
        exact hcode ⟨hstop, hclear, hnot⟩
      obtain ⟨bytes, hbytes⟩ := expand_ok_iff.mpr hexpandable
      rw [hbytes]
      exact ⟨true, _, rfl, fun _ => ⟨⟨h.lzw.add _ _, hwf⟩, hshort⟩⟩

/-- A turn that is bad fails, or it is a zero from nothing and the next one is bad too. -/
theorem Turning.bad (h : Turning s) (hbad : BadTurn s) :
    (∃ fault, turn room s = .error fault) ∨
      ∃ s', turn room s = .ok (true, s') ∧ Turning s' ∧ BadTurn s' := by
  obtain ⟨rd, hread, hwf, hstream⟩ := h.read
  rw [turn, hread, bind_ok]
  dsimp only
  rcases hbad with hnone | ⟨hstop, hclear, hexpandable⟩
  · have hzero : codeOf s = 0 := by rw [codeOf, hnone, List.take_nil, lsbVal]
    have hclear := h.lzw.clear
    have hstop := h.lzw.stop
    have hnext := h.lzw.next
    have hpos : 0 < 2 ^ s.lzw.minC := Nat.two_pow_pos _
    have hbytes : s.lzw.expand s.old 0 = .ok [UInt8.ofNat 0] := by
      rw [expand, if_neg (by omega), dictN, walk, if_neg (Nat.not_lt_zero _)]
    rw [hzero, if_neg (by omega), if_neg (by omega), hbytes]
    refine Or.inr ⟨_, rfl, ⟨h.lzw.add _ _, hwf⟩, Or.inl ?_⟩
    dsimp only
    rw [hstream, hnone, List.drop_nil]
  · refine Or.inl ?_
    rw [if_neg hstop, if_neg hclear]
    cases hr : s.lzw.expand s.old (codeOf s) with
    | error fault => exact ⟨fault, rfl⟩
    | ok bytes => exact (hexpandable (expand_ok_iff.mp ⟨bytes, hr⟩)).elim

theorem returning (room : Nat) :
    Returning (turn room) Turning BadTurn fun s => s.rd.stream.length where
  good _ hs hbad := hs.good hbad
  bad _ hs hbad := hs.bad hbad

end

/-- The loop of `decompress` comes to this state. -/
def Comes (room : Nat) (l : Lzw) (rd : GifReader) (s : Decoding) : Prop :=
  ∃ code rd', rd.read l.codeSz = .ok (code, rd') ∧ code ≠ l.stop ∧
    Leads (turn room) { lzw := l, rd := rd', old := code, out := begin room code [] } s

section

variable {l : Lzw} {rd : GifReader} {room fuel : Nat} {out : List UInt8} {s : Decoding}

/-- `decompress` returns with some fuel exactly if its loop never comes to a bad turn. -/
theorem decompress_ok_iff (hl : Sane l) (hrd : rd.WellFormed) :
    (∃ fuel out, decompress fuel room l rd = .ok out) ↔ ∀ s, Comes room l rd s → ¬BadTurn s := by
  have hle := hl.codeSz_le
  obtain ⟨rd', hread, hwf, -⟩ := read_spec hrd (by omega : l.codeSz ≤ 25)
  by_cases hstop : lsbVal (rd.stream.take l.codeSz) = l.stop
  · refine iff_of_true ⟨0, [], ?_⟩ ?_
    · rw [decompress, hread, bind_ok]
      exact if_pos hstop
    · rintro s ⟨code, rd'', hread', hne, -⟩
      rw [hread] at hread'
      cases hread'
      exact (hne hstop).elim
  · have hturning : Turning
        { lzw := l, rd := rd', old := lsbVal (rd.stream.take l.codeSz),
          out := begin room (lsbVal (rd.stream.take l.codeSz)) [] } := ⟨hl, hwf⟩
    refine Iff.trans ?_ (Iff.trans ((returning room).returns_iff hturning) ?_)
    · refine exists_congr fun fuel => ?_
      rw [decompress, hread, bind_ok]
      dsimp only
      rw [if_neg hstop]
      refine ⟨?_, ?_⟩
      · rintro ⟨out, hout⟩
        obtain ⟨s, hs, -⟩ := bind_eq_ok hout
        exact ⟨s, hs⟩
      · rintro ⟨s, hs⟩
        refine ⟨s.out, ?_⟩
        rw [hs]
        rfl
    · refine forall_congr' fun s => ?_
      refine imp_congr ?_ Iff.rfl
      refine ⟨fun hleads => ⟨_, rd', hread, hstop, hleads⟩, ?_⟩
      rintro ⟨code, rd'', hread', -, hleads⟩
      rw [hread] at hread'
      cases hread'
      exact hleads

/-- More fuel makes no difference to a result. -/
theorem decompress_mono {m : Nat} (hm : fuel ≤ m) (h : decompress fuel room l rd = .ok out) :
    decompress m room l rd = .ok out := by
  rw [decompress] at h ⊢
  obtain ⟨⟨code, rd'⟩, hread, h⟩ := bind_eq_ok h
  rw [hread, bind_ok]
  dsimp only at h ⊢
  split at h
  · rename_i hstop
    rw [if_pos hstop]
    exact h
  · rename_i hstop
    rw [if_neg hstop]
    obtain ⟨s, hs, h⟩ := bind_eq_ok h
    rw [turns_mono hm hs]
    exact h

/-- What is written at the end: as much as the loop comes to, and no more than there is room
for. -/
theorem decompress_out (h : decompress fuel room l rd = .ok out) :
    out.length ≤ room ∧ (∀ s, Comes room l rd s → s.out.length ≤ out.length) ∧
      (out = [] ∨ ∃ s, Comes room l rd s ∧ s.out = out) := by
  rw [decompress] at h
  obtain ⟨⟨code, rd'⟩, hread, h⟩ := bind_eq_ok h
  dsimp only at h
  split at h
  · rename_i hstop
    cases h
    refine ⟨Nat.zero_le _, ?_, Or.inl rfl⟩
    rintro s ⟨code', rd'', hread', hne, -⟩
    rw [hread] at hread'
    cases hread'
    exact (hne hstop).elim
  · rename_i hstop
    obtain ⟨s, hs, h⟩ := bind_eq_ok h
    cases h
    obtain ⟨s', hleads, hlast⟩ := leads_of_turns hs
    have hsame := turn_last hlast
    refine ⟨?_, ?_, Or.inr ⟨s', ⟨code, rd', hread, hstop, hleads⟩, hsame.symm⟩⟩
    · rw [hsame]
      exact hleads.keeps (P := fun s => s.out.length ≤ room) (length_begin (Nat.zero_le _))
        fun s₁ s₂ hs₁ hturn => turn_length hturn hs₁
    · rintro s₁ ⟨code', rd'', hread', -, hleads'⟩
      rw [hread] at hread'
      cases hread'
      rw [hsame]
      have hrest := hleads'.to_last hleads hlast
      exact hrest.keeps (P := fun s => s₁.out.length ≤ s.out.length) (Nat.le_refl _)
        fun s₂ s₃ hs₂ hturn => by
          obtain ⟨bytes, hbytes⟩ := turn_out hturn
          rw [hbytes, List.length_append]
          omega

end

end PureOS.Gif
