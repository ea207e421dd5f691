import PureOS.Foundation.Packing

set_option autoImplicit false

/-!
# Graphics: the framebuffer (`framebuffer.rs`)

A word of memory holds a point: three bytes of colour in one of two orders, and a fourth that is
written as zero and never read.  Whatever is drawn is a list of calls of `put`.
-/

namespace PureOS.Graphics

open PureOS.Foundation

/-! ## The code -/

/-- `Rgb`. -/
structure Rgb where
  r : UInt8
  g : UInt8
  b : UInt8
  deriving DecidableEq, Repr

/-- `FB_BASE` and the sizes that `init` sets. -/
structure Screen where
  base : UInt64
  width : UInt32
  height : UInt32
  stride : UInt32
  fmt : UInt32

/-- The words of the framebuffer, counted from its base. -/
abbrev Words := Nat → UInt32

/-- `FMT_RGB`. -/
def fmtRgb : UInt32 := 1

/-- A call of `put`. -/
structure Plot where
  x : UInt32
  y : UInt32
  c : Rgb

/-- Three bytes of a word, from the lowest on. -/
def packBytes (low mid high : UInt8) : UInt32 :=
  low.toUInt32 ||| (mid.toUInt32 <<< 8) ||| (high.toUInt32 <<< 16)

def lowByte (px : UInt32) : UInt8 := (px &&& 0xFF).toUInt8

def midByte (px : UInt32) : UInt8 := ((px >>> 8) &&& 0xFF).toUInt8

def highByte (px : UInt32) : UInt8 := ((px >>> 16) &&& 0xFF).toUInt8

namespace Screen

variable (s : Screen)

/-- `enabled`. -/
def enabled : Bool := s.base != 0 && s.width != 0 && s.height != 0

/-- `pack`. -/
def pack (c : Rgb) : UInt32 :=
  if s.fmt = fmtRgb then packBytes c.r c.g c.b else packBytes c.b c.g c.r

/-- How `get` reads a word. -/
def unpack (px : UInt32) : Rgb :=
  if s.fmt = fmtRgb then ⟨lowByte px, midByte px, highByte px⟩
  else ⟨highByte px, midByte px, lowByte px⟩

/-- The word of a point. -/
def place (x y : Nat) : Nat := y * s.stride.toNat + x

/-- `get`. -/
def get (m : Words) (x y : UInt32) : Option Rgb :=
  if !s.enabled then none
  else if x ≥ s.width ∨ y ≥ s.height then none
  else some (s.unpack (m (s.place x.toNat y.toNat)))

/-- `put`. -/
def put (m : Words) (q : Plot) : Words :=
  if !s.enabled then m
  else if q.x ≥ s.width ∨ q.y ≥ s.height then m
  else fun i => if i = s.place q.x.toNat q.y.toNat then s.pack q.c else m i

/-- One call of `put` after the other. -/
def paint (m : Words) (plots : List Plot) : Words := plots.foldl s.put m

end Screen

/-- `fill_rect`. -/
def fillRect (x y w h : UInt32) (c : Rgb) : List Plot :=
  (List.range h.toNat).flatMap fun dy =>
    (List.range w.toNat).map fun dx => ⟨x + UInt32.ofNat dx, y + UInt32.ofNat dy, c⟩

/-! ## Words -/

section

variable (low mid high : UInt8)

theorem toNat_packBytes :
    (packBytes low mid high).toNat = high.toNat * 2 ^ 16 + (mid.toNat * 2 ^ 8 + low.toNat) := by
  have hlow := low.toNat_lt
  have hmid := mid.toNat_lt
  have hhigh := high.toNat_lt
  have hfit8 : mid.toNat <<< 8 < 2 ^ 32 := by
    rw [Nat.shiftLeft_eq]
    omega
  have hfit16 : high.toNat <<< 16 < 2 ^ 32 := by
    rw [Nat.shiftLeft_eq]
    omega
  have hshift8 : (mid.toUInt32 <<< 8).toNat = mid.toNat <<< 8 := by
    rw [UInt32.toNat_shiftLeft, UInt8.toNat_toUInt32]
    exact Nat.mod_eq_of_lt hfit8
  have hshift16 : (high.toUInt32 <<< 16).toNat = high.toNat <<< 16 := by
    rw [UInt32.toNat_shiftLeft, UInt8.toNat_toUInt32]
    exact Nat.mod_eq_of_lt hfit16
  have hpack : (packBytes low mid high).toNat =
      Foundation.pack 16 high.toNat (Foundation.pack 8 mid.toNat low.toNat) := by
    rw [packBytes, UInt32.toNat_or, UInt32.toNat_or, hshift8, hshift16, UInt8.toNat_toUInt32,
      Nat.or_comm, Nat.or_comm low.toNat]
    rfl
  rw [hpack, pack_eq (pack_lt hmid hlow), pack_eq hlow]

theorem toNat_lowByte (px : UInt32) : (lowByte px).toNat = px.toNat % 2 ^ 8 := by
  rw [lowByte, UInt32.toNat_toUInt8, UInt32.toNat_and,
    show (0xFF : UInt32).toNat = 2 ^ 8 - 1 from rfl, Nat.and_two_pow_sub_one_eq_mod]
  exact Nat.mod_mod _ _

theorem lowByte_packBytes : lowByte (packBytes low mid high) = low := by
  have hlow := low.toNat_lt
  refine UInt8.toNat_inj.mp ?_
  rw [toNat_lowByte, toNat_packBytes]
  omega

theorem midByte_packBytes : midByte (packBytes low mid high) = mid := by
  have hlow := low.toNat_lt
  have hmid := mid.toNat_lt
  have hbyte := toNat_lowByte (packBytes low mid high >>> 8)
  refine UInt8.toNat_inj.mp (hbyte.trans ?_)
  rw [UInt32.toNat_shiftRight, toNat_packBytes, show (8 : UInt32).toNat % 32 = 8 from rfl,
    Nat.shiftRight_eq_div_pow]
  omega

theorem highByte_packBytes : highByte (packBytes low mid high) = high := by
  have hlow := low.toNat_lt
  have hmid := mid.toNat_lt
  have hhigh := high.toNat_lt
  have hbyte := toNat_lowByte (packBytes low mid high >>> 16)
  refine UInt8.toNat_inj.mp (hbyte.trans ?_)
  rw [UInt32.toNat_shiftRight, toNat_packBytes, show (16 : UInt32).toNat % 32 = 16 from rfl,
    Nat.shiftRight_eq_div_pow]
  omega

end

/-- Points are counted without an overflow while they are inside 32 bits. -/
theorem toNat_add_ofNat {v : UInt32} {n : Nat} (h : v.toNat + n < 2 ^ 32) :
    (v + UInt32.ofNat n).toNat = v.toNat + n := by
  have hmod : n % 2 ^ 32 = n := Nat.mod_eq_of_lt (by omega)
  rw [UInt32.toNat_add, UInt32.toNat_ofNat', hmod]
  exact Nat.mod_eq_of_lt h

/-! ## What is painted -/

namespace Screen

/-- A point is written to the memory. -/
structure Shows (s : Screen) (q : Plot) : Prop where
  enabled : s.enabled = true
  left : q.x < s.width
  above : q.y < s.height

variable {s : Screen} {m : Words} {q : Plot} {plots plots' : List Plot} {i : Nat}

/-- What is packed is what is unpacked. -/
theorem unpack_pack (s : Screen) (c : Rgb) : s.unpack (s.pack c) = c := by
  unfold pack unpack
  split
  · rw [lowByte_packBytes, midByte_packBytes, highByte_packBytes]
  · rw [lowByte_packBytes, midByte_packBytes, highByte_packBytes]

theorem put_of_shows (h : s.Shows q) :
    s.put m q = fun i => if i = s.place q.x.toNat q.y.toNat then s.pack q.c else m i := by
  rw [put, h.enabled, Bool.not_true, if_neg Bool.false_ne_true, if_neg]
  rintro (hx | hy)
  · exact absurd h.left (UInt32.not_lt.mpr hx)
  · exact absurd h.above (UInt32.not_lt.mpr hy)

theorem put_of_not_shows (h : ¬s.Shows q) : s.put m q = m := by
  unfold put
  split
  · rfl
  · rename_i henabled
    rw [Bool.not_eq_true, Bool.not_eq_false'] at henabled
    refine if_pos (Classical.byContradiction fun hin => h ?_)
    refine ⟨henabled, ?_, ?_⟩
    · exact UInt32.not_le.mp fun hx => hin (Or.inl hx)
    · exact UInt32.not_le.mp fun hy => hin (Or.inr hy)

theorem get_of_lt {x y : UInt32} (henabled : s.enabled = true) (hx : x < s.width)
    (hy : y < s.height) : s.get m x y = some (s.unpack (m (s.place x.toNat y.toNat))) := by
  rw [get, henabled, Bool.not_true, if_neg Bool.false_ne_true, if_neg]
  rintro (h | h)
  · exact absurd hx (UInt32.not_lt.mpr h)
  · exact absurd hy (UInt32.not_lt.mpr h)

/-- A point is read from its word. -/
theorem get_congr {m' : Words} (h : ∀ i, s.unpack (m' i) = s.unpack (m i)) (x y : UInt32) :
    s.get m' x y = s.get m x y := by
  unfold get
  rw [h]

/-- A word that no point is written to stays as it is. -/
theorem paint_of_ne (h : ∀ q ∈ plots, s.Shows q → s.place q.x.toNat q.y.toNat ≠ i) :
    s.paint m plots i = m i := by
  induction plots generalizing m with
  | nil => rfl
  | cons q plots ih =>
      refine (ih fun q' hq' => h q' (List.mem_cons_of_mem q hq')).trans ?_
      by_cases hshows : s.Shows q
      · rw [put_of_shows hshows]
        exact if_neg (h q List.mem_cons_self hshows).symm
      · rw [put_of_not_shows hshows]

/-- A word that is written to has a property that all that is written to it has. -/
theorem paint_of_mem {P : UInt32 → Prop}
    (h : ∀ q ∈ plots, s.Shows q → s.place q.x.toNat q.y.toNat = i → P (s.pack q.c))
    (hmem : P (m i) ∨ ∃ q ∈ plots, s.Shows q ∧ s.place q.x.toNat q.y.toNat = i) :
    P (s.paint m plots i) := by
  induction plots generalizing m with
  | nil =>
      rcases hmem with hold | ⟨q, hq, -⟩
      · exact hold
      · cases hq
  | cons q plots ih =>
      refine ih (fun q' hq' => h q' (List.mem_cons_of_mem q hq')) ?_
      by_cases hshows : s.Shows q
      · rw [put_of_shows hshows]
        dsimp only
        by_cases hplace : i = s.place q.x.toNat q.y.toNat
        · rw [if_pos hplace]
          exact Or.inl (h q List.mem_cons_self hshows hplace.symm)
        · rw [if_neg hplace]
          refine hmem.imp id ?_
          rintro ⟨q', hq', hat⟩
          rcases List.mem_cons.mp hq' with rfl | hq'
          · exact absurd hat.2.symm hplace
          · exact ⟨q', hq', hat⟩
      · rw [put_of_not_shows hshows]
        refine hmem.imp id ?_
        rintro ⟨q', hq', hat⟩
        rcases List.mem_cons.mp hq' with rfl | hq'
        · exact absurd hat.1 hshows
        · exact ⟨q', hq', hat⟩

/-- Points have words of their own if the memory of a line holds the points of the line. -/
theorem place_injective {x y a b : Nat} (hstride : s.width ≤ s.stride) (hx : x < s.width.toNat)
    (ha : a < s.width.toNat) (h : s.place a b = s.place x y) : a = x ∧ b = y := by
  have hle := UInt32.le_iff_toNat_le.mp hstride
  have hpos : 0 < s.stride.toNat := by omega
  unfold place at h
  have hb : (b * s.stride.toNat + a) / s.stride.toNat = b := by
    rw [Nat.mul_comm, Nat.mul_add_div hpos, Nat.div_eq_of_lt (by omega), Nat.add_zero]
  have hy : (y * s.stride.toNat + x) / s.stride.toNat = y := by
    rw [Nat.mul_comm, Nat.mul_add_div hpos, Nat.div_eq_of_lt (by omega), Nat.add_zero]
  rw [h, hy] at hb
  subst hb
  exact ⟨by omega, rfl⟩

end Screen

/-! ## Words behind the framebuffer -/

/-- No word behind the framebuffer is written. -/
def SameOutside (s : Screen) (m m' : Words) : Prop :=
  ∀ i, s.height.toNat * s.stride.toNat ≤ i → m' i = m i

section

variable {s : Screen}

theorem SameOutside.refl (m : Words) : SameOutside s m m := fun _ _ => rfl

theorem SameOutside.trans {m m' m'' : Words} (h : SameOutside s m m')
    (h' : SameOutside s m' m'') : SameOutside s m m'' := fun i hi => (h' i hi).trans (h i hi)

/-- What no turn of a loop does, the loop does not. -/
theorem sameOutside_foldl {α β : Type} {f : β → α → β} {w : β → Words}
    (hf : ∀ b a, SameOutside s (w b) (w (f b a))) (l : List α) (b : β) :
    SameOutside s (w b) (w (l.foldl f b)) := by
  induction l generalizing b with
  | nil => exact .refl _
  | cons a l ih => exact (hf b a).trans (ih _)

variable (hstride : s.width ≤ s.stride)
include hstride

theorem sameOutside_put (m : Words) (q : Plot) : SameOutside s m (s.put m q) := by
  intro i hi
  by_cases hshows : s.Shows q
  · rw [Screen.put_of_shows hshows]
    refine if_neg fun heq => ?_
    have hx := UInt32.lt_iff_toNat_lt.mp hshows.left
    have hle := UInt32.le_iff_toNat_le.mp hstride
    have hrow := Nat.mul_le_mul_right s.stride.toNat
      (Nat.succ_le_of_lt (UInt32.lt_iff_toNat_lt.mp hshows.above))
    rw [Nat.succ_mul] at hrow
    unfold Screen.place at heq
    omega
  · rw [Screen.put_of_not_shows hshows]

theorem sameOutside_paint (m : Words) (plots : List Plot) : SameOutside s m (s.paint m plots) :=
  sameOutside_foldl (w := id) (sameOutside_put hstride) plots m

end

end PureOS.Graphics
