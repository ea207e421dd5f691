import Mathlib.Data.List.Chain
import Mathlib.Data.List.Range
import PureOS.Foundation.Digital
import PureOS.Foundation.Profile

set_option autoImplicit false

/-!
# Graphics: lines (`graphics.rs`)

`draw_line` walks from one end point to the other and ends when it hits it.  Its error term is
that of a rounded line, so it does, as long as nothing wraps: coordinates are taken without a
sign and walked with one.
-/

namespace PureOS.Graphics

open PureOS.Foundation

/-! ## The code -/

/-- The coordinates of a call of `framebuffer::put`. -/
abbrev Point := UInt32 × UInt32

/-- What `draw_line` has worked out before its loop. -/
structure Line where
  dx : UInt32
  dy : UInt32
  sx : Int
  sy : Int
  x2 : Int
  y2 : Int

/-- `err`, `x` and `y`. -/
structure Pen where
  err : Int
  x : Int
  y : Int

section

variable (p : Profile)

namespace Line

variable (line : Line)

/-- The body of the loop after the test. -/
def step (pen : Pen) : Except Fault Pen := do
  let left ← p.subI 0 (asI32 line.dx)
  let across ← (if pen.err > left then do
      let err ← p.subI pen.err (asI32 line.dy)
      let x ← p.addI pen.x line.sx
      return ⟨err, x, pen.y⟩
    else pure pen : Except Fault Pen)
  if pen.err < asI32 line.dy then do
    let err ← p.addI across.err (asI32 line.dx)
    let y ← p.addI across.y line.sy
    return ⟨err, across.x, y⟩
  else pure across

/-- The loop: the points that are plotted. -/
def loop : Nat → Pen → Except Fault (List Point)
  | 0, _ => .error .fuel
  | fuel + 1, pen =>
      if pen.x = line.x2 ∧ pen.y = line.y2 then .ok [(asU32 pen.x, asU32 pen.y)]
      else do
        let next ← line.step p pen
        let rest ← loop fuel next
        return (asU32 pen.x, asU32 pen.y) :: rest

end Line

/-- `draw_line`, with a bound on the turns of its loop. -/
def drawLine (fuel : Nat) (x1 y1 x2 y2 : UInt32) : Except Fault (List Point) := do
  let dx := if x2 > x1 then x2 - x1 else x1 - x2
  let dy := if y2 > y1 then y2 - y1 else y1 - y2
  let sx : Int := if x1 < x2 then 1 else -1
  let sy : Int := if y1 < y2 then 1 else -1
  let double ← (if dx > dy then pure (asI32 dx) else p.subI 0 (asI32 dy) : Except Fault Int)
  Line.loop p ⟨dx, dy, sx, sy, asI32 x2, asI32 y2⟩ fuel ⟨double.tdiv 2, asI32 x1, asI32 y1⟩

end

/-! ## The walk -/

section

variable {p : Profile} {line : Line} {pens : Nat → Pen} {x1 y1 : Int} {n : Nat}

/-- A loop whose turns are known. -/
theorem Line.loop_eq {turns : Nat} (hstep : ∀ n < turns, line.step p (pens n) = .ok (pens (n + 1)))
    (hgoes : ∀ n < turns, ¬((pens n).x = line.x2 ∧ (pens n).y = line.y2))
    (hends : (pens turns).x = line.x2 ∧ (pens turns).y = line.y2) (m n : Nat) (h : n + m = turns) :
    line.loop p (m + 1) (pens n) =
      .ok ((List.range (m + 1)).map fun i => (asU32 (pens (n + i)).x, asU32 (pens (n + i)).y)) := by
  induction m generalizing n with
  | zero =>
      obtain rfl : n = turns := h
      rw [Line.loop, if_pos hends]
      rfl
  | succ m ih =>
      have hrest := ih (n + 1) (by omega)
      rw [Line.loop, if_neg (hgoes n (by omega)), hstep n (by omega), bind_ok, hrest, bind_ok,
        List.range_succ_eq_map (n := m + 1), List.map_cons, List.map_map]
      refine congrArg Except.ok (congrArg₂ List.cons rfl (List.map_congr_left fun i _ => ?_))
      dsimp only [Function.comp]
      rw [Nat.succ_add_eq_add_succ]

/-- What lies between two numbers of 32 bits is one. -/
theorem inI32_between {x s : Int} {k d : Nat} (hs : Direction s) (hx : InI32 x)
    (hend : InI32 (x + s * d)) (hk : k ≤ d) : InI32 (x + s * k) := by
  unfold InI32 at *
  rcases hs with rfl | rfl
  · rw [Int.one_mul] at *
    omega
  · rw [Int.neg_one_mul] at *
    omega

/-- The walk of a line, from a place on. -/
structure Line.Walks (line : Line) (x1 y1 : Int) : Prop where
  left : Direction line.sx
  up : Direction line.sy
  startX : InI32 x1
  startY : InI32 y1
  endX : line.x2 = x1 + line.sx * line.dx.toNat
  endY : line.y2 = y1 + line.sy * line.dy.toNat
  fitX : InI32 line.x2
  fitY : InI32 line.y2
  wide : line.dx.toNat < 2 ^ 31
  tall : line.dy.toNat < 2 ^ 31
  room : line.dx.toNat ≤ line.dy.toNat → line.dx.toNat + line.dy.toNat ≤ 2 ^ 31

/-- The pen after some turns. -/
def Line.penAt (line : Line) (x1 y1 : Int) (n : Nat) : Pen where
  err :=
    if line.dx.toNat > line.dy.toNat then lineError line.dx.toNat line.dy.toNat n
    else -lineError line.dy.toNat line.dx.toNat n
  x := x1 + line.sx * (lineTrack line.dx.toNat line.dy.toNat n).1
  y := y1 + line.sy * (lineTrack line.dx.toNat line.dy.toNat n).2

/-- One step further. -/
theorem direction_succ (x s : Int) (k : Nat) : x + s * (k + 1 : Nat) = x + s * k + s := by
  rw [Nat.cast_succ, Int.mul_add, Int.mul_one, Int.add_assoc]

/-- A turn of the loop. -/
theorem Line.Walks.step (h : line.Walks x1 y1) (hn : n < max line.dx.toNat line.dy.toNat) :
    line.step p (line.penAt x1 y1 n) = .ok (line.penAt x1 y1 (n + 1)) := by
  obtain ⟨hleft, hup, hx1, hy1, hendX, hendY, hfitX, hfitY, hwide, htall, hroom⟩ := h
  rw [hendX] at hfitX
  rw [hendY] at hfitY
  have hnext := @lineTrack_le line.dx.toNat line.dy.toNat (n + 1) (by omega)
  have hinX := inI32_between hleft hx1 hfitX hnext.1
  have hinY := inI32_between hup hy1 hfitY hnext.2
  have hnegate : p.subI 0 line.dx.toNat = .ok (-line.dx.toNat) := by
    rw [← Int.zero_sub]
    exact Profile.subI_ok (by unfold InI32; omega)
  rw [Line.step, asI32_eq hwide, asI32_eq htall, hnegate, bind_ok]
  unfold Line.penAt
  by_cases hflat : line.dx.toNat > line.dy.toNat
  · -- The error is not negative, so there is a step across in each turn.
    have hbounds := @lineError_bounds line.dx.toNat line.dy.toNat n (by omega)
    have herr := @lineError_succ line.dx.toNat line.dy.toNat n (by omega) (by omega)
    have hheight := @lineHeight_succ line.dx.toNat line.dy.toNat n (by omega) (by omega)
    simp only [lineTrack, if_pos hflat] at hinX hinY ⊢
    rw [direction_succ] at hinX
    rw [herr, hheight, direction_succ]
    generalize lineError line.dx.toNat line.dy.toNat n = err at *
    have hsub : p.subI err line.dy.toNat = .ok (err - line.dy.toNat) :=
      Profile.subI_ok (by unfold InI32; omega)
    rw [if_pos (by omega), hsub, bind_ok, Profile.addI_ok hinX, bind_ok]
    dsimp only [pure, Except.pure]
    rw [bind_ok]
    by_cases hrise : err < line.dy.toNat
    · have hadd : p.addI (err - line.dy.toNat) line.dx.toNat =
          .ok (err - line.dy.toNat + line.dx.toNat) := Profile.addI_ok (by unfold InI32; omega)
      rw [hheight, if_pos hrise, direction_succ] at hinY
      rw [if_pos hrise, if_pos hrise, if_pos hrise, hadd, bind_ok, Profile.addI_ok hinY, bind_ok,
        direction_succ]
    · rw [if_neg hrise, if_neg hrise, if_neg hrise]
  · -- The error is not positive, so there is a step along the other side.
    have hbounds := @lineError_bounds line.dy.toNat line.dx.toNat n (by omega)
    have herr := @lineError_succ line.dy.toNat line.dx.toNat n (by omega) (by omega)
    have hheight := @lineHeight_succ line.dy.toNat line.dx.toNat n (by omega) (by omega)
    simp only [lineTrack, if_neg hflat] at hinX hinY ⊢
    rw [direction_succ] at hinY
    rw [herr, hheight, direction_succ]
    generalize lineError line.dy.toNat line.dx.toNat n = err at *
    have hrises : -err < line.dy.toNat := by omega
    by_cases hrise : err < line.dx.toNat
    · have hsub : p.subI (-err) line.dy.toNat = .ok (-err - line.dy.toNat) :=
        Profile.subI_ok (by unfold InI32; omega)
      have hadd : p.addI (-err - line.dy.toNat) line.dx.toNat =
          .ok (-err - line.dy.toNat + line.dx.toNat) := Profile.addI_ok (by unfold InI32; omega)
      rw [hheight, if_pos hrise, direction_succ] at hinX
      rw [if_pos (by omega), if_pos hrise, if_pos hrise, hsub, bind_ok, Profile.addI_ok hinX,
        bind_ok]
      dsimp only [pure, Except.pure]
      rw [bind_ok, if_pos hrises, hadd, bind_ok, Profile.addI_ok hinY, bind_ok, direction_succ]
      refine congrArg (fun err => Except.ok (Pen.mk err _ _)) ?_
      omega
    · have hadd : p.addI (-err) line.dx.toNat = .ok (-err + line.dx.toNat) :=
        Profile.addI_ok (by unfold InI32; omega)
      rw [if_neg (by omega), if_neg hrise, if_neg hrise]
      dsimp only [pure, Except.pure]
      rw [bind_ok, if_pos hrises, hadd, bind_ok, Profile.addI_ok hinY, bind_ok]
      refine congrArg (fun err => Except.ok (Pen.mk err _ _)) ?_
      omega

/-! ## From one coordinate to another -/

/-- The length of the way between two coordinates. -/
def distance (a b : UInt32) : UInt32 := if b > a then b - a else a - b

/-- Its direction. -/
def direction (a b : UInt32) : Int := if a < b then 1 else -1

/-- Both numbers, or none of them, are negative when they are taken with a sign. -/
def SameSide (a b : UInt32) : Prop := a.toNat < 2 ^ 31 ↔ b.toNat < 2 ^ 31

theorem direction_isDirection (a b : UInt32) : Direction (direction a b) := by
  unfold direction
  split
  · exact Or.inl rfl
  · exact Or.inr rfl

theorem toNat_distance (a b : UInt32) :
    (distance a b).toNat = ((b.toNat : Int) - a.toNat).natAbs := by
  unfold distance
  split
  · rename_i hlt
    have hlt := UInt32.lt_iff_toNat_lt.mp hlt
    rw [Profile.toNat_sub (by omega)]
    omega
  · rename_i hle
    have hle := mt UInt32.lt_iff_toNat_lt.mpr hle
    rw [Profile.toNat_sub (by omega)]
    omega

theorem way_eq (a b : UInt32) :
    (b.toNat : Int) = a.toNat + direction a b * (distance a b).toNat := by
  rw [toNat_distance, direction]
  split
  · rename_i hlt
    have hlt := UInt32.lt_iff_toNat_lt.mp hlt
    rw [Int.one_mul]
    omega
  · rename_i hle
    have hle := mt UInt32.lt_iff_toNat_lt.mpr hle
    rw [Int.neg_one_mul]
    omega

theorem asI32_of_ge {a : UInt32} (h : ¬a.toNat < 2 ^ 31) : asI32 a = a.toNat - 2 ^ 32 := if_neg h

theorem inI32_asI32 (a : UInt32) : InI32 (asI32 a) := by
  have hlt := a.toNat_lt
  unfold InI32 asI32
  split <;> omega

variable {a b : UInt32}

theorem SameSide.distance_lt (h : SameSide a b) : (distance a b).toNat < 2 ^ 31 := by
  have ha := a.toNat_lt
  have hb := b.toNat_lt
  unfold SameSide at h
  rw [toNat_distance]
  omega

/-- The way is the same for numbers with a sign. -/
theorem SameSide.asI32_eq (h : SameSide a b) :
    asI32 b = asI32 a + direction a b * (distance a b).toNat := by
  have hway := way_eq a b
  unfold SameSide at h
  unfold asI32
  split
  · rename_i hb
    rw [if_pos (h.mpr hb)]
    exact hway
  · rename_i hb
    rw [if_neg (mt h.mp hb)]
    omega

/-- A coordinate on the way, without its sign. -/
theorem toNat_way {k : Nat} (hk : k ≤ (distance a b).toNat) :
    ((asU32 (asI32 a + direction a b * k)).toNat : Int) = a.toNat + direction a b * k := by
  have ha := a.toNat_lt
  have hb := b.toNat_lt
  have hreach : 0 ≤ (a.toNat : Int) + direction a b * k ∧
      (a.toNat : Int) + direction a b * k < 2 ^ 32 := by
    have hway := way_eq a b
    rcases direction_isDirection a b with hs | hs
    · rw [hs] at hway ⊢
      omega
    · rw [hs] at hway ⊢
      omega
  have hsigned := asI32_cases a
  rw [toNat_asU32_eq]
  generalize direction a b * k = way at hreach
  omega

/-! ## The line -/

variable {a1 b1 a2 b2 : UInt32}

/-- The points of a rounded line. -/
def roundedLine (x1 y1 x2 y2 : UInt32) : List Point :=
  (List.range (max (distance x1 x2).toNat (distance y1 y2).toNat + 1)).map fun n =>
    (asU32 (asI32 x1 +
        direction x1 x2 * (lineTrack (distance x1 x2).toNat (distance y1 y2).toNat n).1),
      asU32 (asI32 y1 +
        direction y1 y2 * (lineTrack (distance x1 x2).toNat (distance y1 y2).toNat n).2))

/-- What `draw_line` works out before its loop. -/
def lineFrom (x1 y1 x2 y2 : UInt32) : Line :=
  ⟨distance x1 x2, distance y1 y2, direction x1 x2, direction y1 y2, asI32 x2, asI32 y2⟩

theorem drawLine_eq (p : Profile) (fuel : Nat) (x1 y1 x2 y2 : UInt32) :
    drawLine p fuel x1 y1 x2 y2 =
      ((if distance x1 x2 > distance y1 y2 then pure (asI32 (distance x1 x2))
        else p.subI 0 (asI32 (distance y1 y2))) >>= fun double =>
      (lineFrom x1 y1 x2 y2).loop p fuel ⟨double.tdiv 2, asI32 x1, asI32 y1⟩) := rfl

/-- The way of `draw_line`, if no coordinate changes its sign. -/
theorem lineFrom_walks (hx : SameSide a1 a2) (hy : SameSide b1 b2)
    (hroom : (distance a1 a2).toNat ≤ (distance b1 b2).toNat →
      (distance a1 a2).toNat + (distance b1 b2).toNat ≤ 2 ^ 31) :
    (lineFrom a1 b1 a2 b2).Walks (asI32 a1) (asI32 b1) where
  left := direction_isDirection a1 a2
  up := direction_isDirection b1 b2
  startX := inI32_asI32 a1
  startY := inI32_asI32 b1
  endX := hx.asI32_eq
  endY := hy.asI32_eq
  fitX := inI32_asI32 a2
  fitY := inI32_asI32 b2
  wide := hx.distance_lt
  tall := hy.distance_lt
  room := hroom

/-- A direction is not lost. -/
theorem way_injective {x s : Int} (hs : Direction s) {k d : Nat} (h : x + s * k = x + s * d) :
    k = d := by
  rcases hs with rfl | rfl <;> omega

/-- The pen before the first turn. -/
theorem penAt_zero (line : Line) (x1 y1 : Int) :
    line.penAt x1 y1 0 =
      ⟨(if line.dx.toNat > line.dy.toNat then (line.dx.toNat : Int)
        else -line.dy.toNat).tdiv 2, x1, y1⟩ := by
  have herr (a b : Nat) : lineError a b 0 = (a / 2 : Nat) := by
    rw [lineError, Nat.zero_mul]
    rcases Nat.eq_zero_or_pos a with rfl | hpos
    · rw [Nat.zero_mul]
      rfl
    · rw [lineHeight_zero hpos, Nat.mul_zero]
      omega
  rw [Line.penAt, lineTrack_zero, herr, herr]
  refine congr (congrArg₂ Pen.mk ?_ ?_) ?_
  · split
    · exact Int.ofNat_tdiv _ 2
    · rw [Int.neg_tdiv]
      exact congrArg Neg.neg (Int.ofNat_tdiv _ 2)
  · rw [Nat.cast_zero, Int.mul_zero, Int.add_zero]
  · rw [Nat.cast_zero, Int.mul_zero, Int.add_zero]

/-- `draw_line` plots the rounded line. -/
theorem drawLine_ok (hx : SameSide a1 a2) (hy : SameSide b1 b2)
    (hroom : (distance a1 a2).toNat ≤ (distance b1 b2).toNat →
      (distance a1 a2).toNat + (distance b1 b2).toNat ≤ 2 ^ 31) :
    drawLine p (max (distance a1 a2).toNat (distance b1 b2).toNat + 1) a1 b1 a2 b2 =
      .ok (roundedLine a1 b1 a2 b2) := by
  have hwalks := lineFrom_walks hx hy hroom
  have hwide := hx.distance_lt
  have htall := hy.distance_lt
  have hdouble : (if distance a1 a2 > distance b1 b2 then pure (asI32 (distance a1 a2))
      else p.subI 0 (asI32 (distance b1 b2))) = Except.ok
      (if (distance a1 a2).toNat > (distance b1 b2).toNat then ((distance a1 a2).toNat : Int)
        else -(distance b1 b2).toNat) := by
    rw [asI32_eq hwide, asI32_eq htall]
    by_cases hflat : (distance a1 a2).toNat > (distance b1 b2).toNat
    · rw [if_pos (UInt32.lt_iff_toNat_lt.mpr hflat), if_pos hflat]
      rfl
    · rw [if_neg (mt UInt32.lt_iff_toNat_lt.mp hflat), if_neg hflat, ← Int.zero_sub]
      exact Profile.subI_ok (by unfold InI32; omega)
  have hstart := penAt_zero (lineFrom a1 b1 a2 b2) (asI32 a1) (asI32 b1)
  have hfinish := lineTrack_max (distance a1 a2).toNat (distance b1 b2).toNat
  have hgoes (n : Nat) (hn : n < max (distance a1 a2).toNat (distance b1 b2).toNat) :
      ¬(((lineFrom a1 b1 a2 b2).penAt (asI32 a1) (asI32 b1) n).x = asI32 a2 ∧
        ((lineFrom a1 b1 a2 b2).penAt (asI32 a1) (asI32 b1) n).y = asI32 b2) := by
    intro hend
    refine lineTrack_ne hn (Prod.ext ?_ ?_)
    · exact way_injective hwalks.left (hend.1.trans hwalks.endX)
    · exact way_injective hwalks.up (hend.2.trans hwalks.endY)
  have hends : ((lineFrom a1 b1 a2 b2).penAt (asI32 a1) (asI32 b1)
        (max (distance a1 a2).toNat (distance b1 b2).toNat)).x = asI32 a2 ∧
      ((lineFrom a1 b1 a2 b2).penAt (asI32 a1) (asI32 b1)
        (max (distance a1 a2).toNat (distance b1 b2).toNat)).y = asI32 b2 := by
    dsimp only [Line.penAt, lineFrom]
    rw [hfinish]
    exact ⟨hx.asI32_eq.symm, hy.asI32_eq.symm⟩
  have hstep (n : Nat) (hn : n < max (distance a1 a2).toNat (distance b1 b2).toNat) :
      (lineFrom a1 b1 a2 b2).step p ((lineFrom a1 b1 a2 b2).penAt (asI32 a1) (asI32 b1) n) =
        .ok ((lineFrom a1 b1 a2 b2).penAt (asI32 a1) (asI32 b1) (n + 1)) := hwalks.step hn
  have hrun := Line.loop_eq hstep hgoes hends _ 0 (Nat.zero_add _)
  rw [drawLine_eq, hdouble, bind_ok]
  refine (congrArg ((lineFrom a1 b1 a2 b2).loop p _) hstart.symm).trans (hrun.trans ?_)
  refine congrArg Except.ok (List.map_congr_left fun n _ => ?_)
  rw [Nat.zero_add]
  rfl

/-! ## What is plotted -/

/-- A point that is next to another one, and not farther from the end point. -/
structure Advances (target a b : Point) : Prop where
  columns : ((b.1.toNat : Int) - a.1.toNat).natAbs ≤ 1
  rows : ((b.2.toNat : Int) - a.2.toNat).natAbs ≤ 1
  acrossTo : ((target.1.toNat : Int) - b.1.toNat).natAbs ≤
    ((target.1.toNat : Int) - a.1.toNat).natAbs
  alongTo : ((target.2.toNat : Int) - b.2.toNat).natAbs ≤
    ((target.2.toNat : Int) - a.2.toNat).natAbs

/-- The points of a line from one point to another, in their order. -/
structure WalksTo (start target : Point) (points : List Point) : Prop where
  length : points.length = max ((target.1.toNat : Int) - start.1.toNat).natAbs
    ((target.2.toNat : Int) - start.2.toNat).natAbs + 1
  head : points.head? = some start
  last : points.getLast? = some target
  advances : points.IsChain (Advances target)

/-- A turn of the walk is at most one step on the way, and none back. -/
theorem way_advances {k k' : Nat} (h : k' = k ∨ k' = k + 1) (hk : k' ≤ (distance a b).toNat) :
    ((a.toNat + direction a b * k' : Int) - (a.toNat + direction a b * k)).natAbs ≤ 1 ∧
      ((b.toNat : Int) - (a.toNat + direction a b * k')).natAbs ≤
        ((b.toNat : Int) - (a.toNat + direction a b * k)).natAbs := by
  have hway := way_eq a b
  rcases direction_isDirection a b with hs | hs
  · rw [hs] at hway ⊢
    omega
  · rw [hs] at hway ⊢
    omega

theorem asU32_start (a : UInt32) (s : Int) : asU32 (asI32 a + s * (0 : Nat)) = a := by
  have ha := a.toNat_lt
  have hsigned := asI32_cases a
  have hvalue : asI32 a % 2 ^ 32 = a.toNat := by omega
  rw [Nat.cast_zero, Int.mul_zero, Int.add_zero, asU32, hvalue, Int.toNat_natCast,
    UInt32.ofNat_toNat]

theorem roundedLine_walksTo (a1 b1 a2 b2 : UInt32) :
    WalksTo (a1, b1) (a2, b2) (roundedLine a1 b1 a2 b2) where
  length := by
    rw [roundedLine, List.length_map, List.length_range, toNat_distance, toNat_distance]
  head := by
    rw [roundedLine, List.head?_map, List.head?_range, if_neg (Nat.succ_ne_zero _),
      Option.map_some, lineTrack_zero]
    exact congrArg some (Prod.ext (asU32_start a1 _) (asU32_start b1 _))
  last := by
    have hx := toNat_way (Nat.le_refl (distance a1 a2).toNat)
    have hy := toNat_way (Nat.le_refl (distance b1 b2).toNat)
    rw [← way_eq] at hx hy
    rw [roundedLine, List.getLast?_map, List.getLast?_range, if_neg (Nat.succ_ne_zero _),
      Option.map_some, Nat.add_sub_cancel, lineTrack_max]
    refine congrArg some (Prod.ext ?_ ?_)
    · exact UInt32.toNat_inj.mp (Int.ofNat_inj.mp hx)
    · exact UInt32.toNat_inj.mp (Int.ofNat_inj.mp hy)
  advances := by
    rw [roundedLine, List.isChain_map, List.isChain_range_succ]
    intro n hn
    have hsucc := lineTrack_succ hn
    have hnext := lineTrack_le (Nat.succ_le_of_lt hn)
    have hnow := lineTrack_le (Nat.le_of_lt hn)
    have hx := way_advances hsucc.1 hnext.1
    have hy := way_advances hsucc.2 hnext.2
    constructor
    · rw [toNat_way hnext.1, toNat_way hnow.1]
      exact hx.1
    · rw [toNat_way hnext.2, toNat_way hnow.2]
      exact hy.1
    · rw [toNat_way hnext.1, toNat_way hnow.1]
      exact hx.2
    · rw [toNat_way hnext.2, toNat_way hnow.2]
      exact hy.2

/-- Between coordinates below `2 ^ 30` a line is plotted from its first point to its last one, and
nothing leaves its range: the same points are plotted whether the arithmetic is checked or not. -/
theorem drawLine_walksTo (hx1 : a1.toNat < 2 ^ 30) (hy1 : b1.toNat < 2 ^ 30)
    (hx2 : a2.toNat < 2 ^ 30) (hy2 : b2.toNat < 2 ^ 30) :
    ∃ fuel points, (∀ p, drawLine p fuel a1 b1 a2 b2 = .ok points) ∧
      WalksTo (a1, b1) (a2, b2) points := by
  refine ⟨_, _, fun p => drawLine_ok ?_ ?_ ?_, roundedLine_walksTo a1 b1 a2 b2⟩
  · exact iff_of_true (by omega) (by omega)
  · exact iff_of_true (by omega) (by omega)
  · rw [toNat_distance, toNat_distance]
    omega

/-- A line that goes up to the left. -/
theorem drawLine_walksTo_upLeft :
    ∃ fuel points, (∀ p, drawLine p fuel 7 5 2 3 = .ok points) ∧ WalksTo (7, 5) (2, 3) points :=
  drawLine_walksTo (by decide) (by decide) (by decide) (by decide)

example : drawLine .checked 6 7 5 2 3 = .ok [(7, 5), (6, 5), (5, 4), (4, 4), (3, 3), (2, 3)] := by
  decide +kernel

end

end PureOS.Graphics
