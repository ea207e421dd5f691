import PureOS.Graphics.Circle

set_option autoImplicit false

/-!
# Graphics: the drawing calls (`syscall.rs`)

`sys_draw_line` and `sys_draw_circle` unpack their arguments and draw.  An abscissa is all that is
left of 32 bits, and it is drawn with a sign: a line between an abscissa that becomes negative and
one that does not never gets to its end, and a circle around an abscissa close to the change of the
sign leaves the range of its arithmetic.
-/

namespace PureOS.Graphics

open PureOS.Foundation

/-! ## The code -/

/-- `(arg >> 16) as u32`. -/
def highPart (arg : UInt64) : UInt32 := (arg >>> 16).toUInt32

/-- `(arg & 0xFFFF) as u32`. -/
def lowPart (arg : UInt64) : UInt32 := (arg &&& 0xFFFF).toUInt32

/-- `((arg >> 24) & 0xFFFF) as u32`. -/
def radiusPart (arg : UInt64) : UInt32 := ((arg >>> 24) &&& 0xFFFF).toUInt32

/-- `(arg >> 40) != 0`. -/
def fillPart (arg : UInt64) : Bool := arg >>> 40 != 0

section

variable (p : Profile) (fuel : Nat)

/-- `sys_draw_line`: what it plots. -/
def sysDrawLine (arg1 arg2 _color : UInt64) : Except Fault (List Point) :=
  drawLine p fuel (highPart arg1) (lowPart arg1) (highPart arg2) (lowPart arg2)

/-- `sys_draw_circle`: what it plots. -/
def sysDrawCircle (arg1 arg2 _arg3 : UInt64) : Except Fault (List Point) := do
  let turns ← drawCircle p fuel (highPart arg1) (lowPart arg1) (radiusPart arg2) (fillPart arg2)
  return turns.flatMap Turn.points

end

/-! ## What the calls promise -/

/-- A point of a segment: within its bounds, and at most half a point away from the line. -/
structure OnSegment (start target q : Point) : Prop where
  left : min start.1.toNat target.1.toNat ≤ q.1.toNat
  right : q.1.toNat ≤ max start.1.toNat target.1.toNat
  top : min start.2.toNat target.2.toNat ≤ q.2.toNat
  bottom : q.2.toNat ≤ max start.2.toNat target.2.toNat
  near : 2 * (((q.1.toNat : Int) - start.1.toNat) * (target.2.toNat - start.2.toNat) -
      ((q.2.toNat : Int) - start.2.toNat) * (target.1.toNat - start.1.toNat)).natAbs ≤
    max ((target.1.toNat : Int) - start.1.toNat).natAbs
      ((target.2.toNat : Int) - start.2.toNat).natAbs

/-- A point of the square around a circle; coordinates are 32 bits and go around at their end. -/
def InSquare (x y radius : UInt32) (q : Point) : Prop :=
  (offset x y q).1.natAbs ≤ radius.toNat ∧ (offset x y q).2.natAbs ≤ radius.toNat

/-- `sys_draw_line` returns, nothing overflows, and all that is plotted is on the segment. -/
def LineCallRight (arg1 arg2 color : UInt64) : Prop :=
  ∃ fuel points, sysDrawLine .checked fuel arg1 arg2 color = .ok points ∧
    ∀ q ∈ points,
      OnSegment (highPart arg1, lowPart arg1) (highPart arg2, lowPart arg2) q

/-- `sys_draw_circle` returns, nothing overflows, and all that is plotted is in the square. -/
def CircleCallRight (arg1 arg2 arg3 : UInt64) : Prop :=
  ∃ fuel points, sysDrawCircle .checked fuel arg1 arg2 arg3 = .ok points ∧
    ∀ q ∈ points, InSquare (highPart arg1) (lowPart arg1) (radiusPart arg2) q

/-- Both ends of the line keep their sign, or both lose it. -/
def LineFits (arg1 arg2 : UInt64) : Prop :=
  (highPart arg1).toNat < 2 ^ 31 ↔ (highPart arg2).toNat < 2 ^ 31

/-- The circle is on one side of the change of the sign. -/
def CircleFits (arg1 arg2 : UInt64) : Prop :=
  (highPart arg1).toNat + (radiusPart arg2).toNat < 2 ^ 31 ∨
    2 ^ 31 + (radiusPart arg2).toNat ≤ (highPart arg1).toNat

/-! ## The line -/

section

variable {a1 b1 a2 b2 x y radius : UInt32} {line : Line} {pen next : Pen}

theorem toNat_sixteenBits (v : UInt64) : (v &&& 0xFFFF).toUInt32.toNat < 2 ^ 16 := by
  have hle : v.toNat &&& 65535 ≤ 65535 := Nat.and_le_right
  rw [UInt64.toNat_toUInt32, UInt64.toNat_and, show (0xFFFF : UInt64).toNat = 65535 from rfl]
  omega

/-- What is on the way is within the bounds. -/
theorem way_bounds {a b : UInt32} {k : Nat} (hk : k ≤ (distance a b).toNat) :
    min a.toNat b.toNat ≤ (asU32 (asI32 a + direction a b * k)).toNat ∧
      (asU32 (asI32 a + direction a b * k)).toNat ≤ max a.toNat b.toNat := by
  have hplace := toNat_way hk
  have hway := way_eq a b
  rcases direction_isDirection a b with hs | hs
  · rw [hs] at hplace hway ⊢
    omega
  · rw [hs] at hplace hway ⊢
    omega

/-- The rounded line is on the segment. -/
theorem onSegment_roundedLine {q : Point} (hq : q ∈ roundedLine a1 b1 a2 b2) :
    OnSegment (a1, b1) (a2, b2) q := by
  obtain ⟨n, hn, rfl⟩ := List.mem_map.mp hq
  have hn := Nat.le_of_lt_succ (List.mem_range.mp hn)
  obtain ⟨hacross, halong⟩ := lineTrack_le hn
  have hnear := lineTrack_near _ _ n hn
  have hx := way_eq a1 a2
  have hy := way_eq b1 b2
  refine ⟨(way_bounds hacross).1, (way_bounds hacross).2, (way_bounds halong).1,
    (way_bounds halong).2, ?_⟩
  dsimp only
  rw [toNat_way hacross, toNat_way halong, ← toNat_distance, ← toNat_distance, hx, hy,
    add_sub_cancel_left, add_sub_cancel_left, add_sub_cancel_left, add_sub_cancel_left]
  have hsigns (s t k dy j dx : Int) :
      s * k * (t * dy) - t * j * (s * dx) = s * (t * (k * dy - j * dx)) := by ring
  rw [hsigns, (direction_isDirection a1 a2).natAbs_mul, (direction_isDirection b1 b2).natAbs_mul]
  rw [Nat.cast_mul, Nat.cast_mul] at hnear
  exact hnear

/-- A pen that has gone past the end. -/
def Line.Past (line : Line) (pen : Pen) : Prop :=
  (line.sx = 1 ∧ line.x2 < pen.x) ∨ (line.sx = -1 ∧ pen.x < line.x2)

/-- A turn is at most one step in the direction of the line. -/
theorem Line.step_x (h : line.step .checked pen = .ok next) :
    next.x = pen.x ∨ next.x = pen.x + line.sx := by
  obtain ⟨left, -, h⟩ := bind_eq_ok h
  obtain ⟨across, hacross, h⟩ := bind_eq_ok h
  have hx : next.x = across.x := by
    split at h
    · obtain ⟨err, -, h⟩ := bind_eq_ok h
      obtain ⟨y, -, h⟩ := bind_eq_ok h
      cases h
      rfl
    · cases h
      rfl
  rw [hx]
  split at hacross
  · obtain ⟨err, -, hacross⟩ := bind_eq_ok hacross
    obtain ⟨x, hadd, hacross⟩ := bind_eq_ok hacross
    cases hacross
    exact Or.inr (Profile.signed_checked_eq_ok hadd).2
  · cases hacross
    exact Or.inl rfl

/-- It does not come back. -/
theorem Line.Past.loop_ne (fuel : Nat) (h : line.Past pen) (points : List Point) :
    line.loop .checked fuel pen ≠ .ok points := by
  induction fuel generalizing pen points with
  | zero => exact fun hloop => by cases hloop
  | succ fuel ih =>
      intro hloop
      have hx : pen.x ≠ line.x2 := by
        rcases h with ⟨-, hlt⟩ | ⟨-, hlt⟩ <;> omega
      rw [Line.loop, if_neg fun hend => hx hend.1] at hloop
      obtain ⟨next, hstep, hloop⟩ := bind_eq_ok hloop
      obtain ⟨rest, hrest, -⟩ := bind_eq_ok hloop
      refine ih ?_ rest hrest
      rcases h with ⟨hs, hlt⟩ | ⟨hs, hlt⟩
      · exact Or.inl ⟨hs, by have hstep := Line.step_x hstep; omega⟩
      · exact Or.inr ⟨hs, by have hstep := Line.step_x hstep; omega⟩

/-- If one end is negative and the other is not, the pen starts past the end. -/
theorem lineFrom_past (h : ¬SameSide a1 a2) (err : Int) :
    (lineFrom a1 b1 a2 b2).Past ⟨err, asI32 a1, asI32 b1⟩ := by
  have ha1 := a1.toNat_lt
  have ha2 := a2.toNat_lt
  unfold SameSide at h
  by_cases hside : a1.toNat < 2 ^ 31
  · refine Or.inl ⟨if_pos (UInt32.lt_iff_toNat_lt.mpr (by omega)), ?_⟩
    dsimp only [lineFrom]
    rw [asI32_eq hside, asI32_of_ge (by tauto)]
    omega
  · refine Or.inr ⟨if_neg (mt UInt32.lt_iff_toNat_lt.mp (by omega)), ?_⟩
    dsimp only [lineFrom]
    rw [asI32_of_ge hside, asI32_eq (by tauto)]
    omega

/-- A line is drawn on its segment if and only if its ends have the same sign. -/
theorem lineCallRight_iff (arg1 arg2 color : UInt64) :
    LineCallRight arg1 arg2 color ↔ LineFits arg1 arg2 := by
  constructor
  · rintro ⟨fuel, points, hrun, -⟩
    by_contra hside
    rw [sysDrawLine, drawLine_eq] at hrun
    obtain ⟨double, -, hloop⟩ := bind_eq_ok hrun
    exact (lineFrom_past hside _).loop_ne fuel points hloop
  · intro hside
    have hy1 := toNat_sixteenBits arg1
    have hy2 := toNat_sixteenBits arg2
    have hdx := SameSide.distance_lt hside
    have hdy := toNat_distance (lowPart arg1) (lowPart arg2)
    refine ⟨_, _, drawLine_ok hside ?_ ?_, fun q hq => onSegment_roundedLine hq⟩
    · exact iff_of_true (Nat.lt_trans hy1 (by omega)) (Nat.lt_trans hy2 (by omega))
    · unfold lowPart at hdy ⊢
      omega

/-! ## The circle -/

theorem mapM_id_eq_ok {α : Type} {calls : List (Except Fault α)} {results : List α}
    (h : calls.mapM id = .ok results) {call : Except Fault α} (hmem : call ∈ calls) :
    ∃ result, call = .ok result := by
  induction calls generalizing results with
  | nil => cases hmem
  | cons first calls ih =>
      rw [List.mapM_cons] at h
      obtain ⟨result, hfirst, h⟩ := bind_eq_ok h
      obtain ⟨rest, hrest, -⟩ := bind_eq_ok h
      rcases List.mem_cons.mp hmem with rfl | hmem
      · exact ⟨result, hfirst⟩
      · exact ih hrest hmem

/-- The first turn goes from one side of the circle to the other. -/
theorem farFrom_of_plotTurn {fill : Bool} {v : Nat} {points : List Point}
    (h : plotTurn .checked fill x y 0 v = .ok points) : FarFrom v x := by
  cases fill with
  | false =>
      have hput (i : Nat) {across along : Except Fault Int}
          (hi : (cornerCalls .checked x y 0 v)[i]? = some (put across along)) :
          ∃ result, across = .ok result := by
        obtain ⟨point, hpoint⟩ := mapM_id_eq_ok h (List.mem_of_getElem? hi)
        obtain ⟨result, hresult, -⟩ := bind_eq_ok hpoint
        exact ⟨result, hresult⟩
      obtain ⟨last, hlast⟩ := hput 4 rfl
      obtain ⟨first, hfirst⟩ := hput 5 rfl
      exact ⟨(Profile.signed_checked_eq_ok hfirst).1, (Profile.signed_checked_eq_ok hlast).1⟩
  | true =>
      rw [plotTurn, if_pos rfl] at h
      obtain ⟨wide, -, h⟩ := bind_eq_ok h
      obtain ⟨narrow, hnarrow, -⟩ := bind_eq_ok h
      obtain ⟨first, hfirst, hnarrow⟩ := bind_eq_ok hnarrow
      obtain ⟨last, hlast, -⟩ := bind_eq_ok hnarrow
      exact ⟨(Profile.signed_checked_eq_ok hfirst).1, (Profile.signed_checked_eq_ok hlast).1⟩

theorem farFrom_iff {r : Nat} (hr : r < 2 ^ 16) :
    FarFrom r x ↔ x.toNat + r < 2 ^ 31 ∨ 2 ^ 31 + r ≤ x.toNat := by
  have hx := x.toNat_lt
  constructor
  · rintro ⟨hlow, hhigh⟩
    unfold InI32 asI32 at *
    split at hlow <;> omega
  · intro h
    by_cases hside : x.toNat < 2 ^ 31
    · constructor
      · rw [asI32_eq hside]
        unfold InI32
        omega
      · rw [asI32_eq hside]
        unfold InI32
        omega
    · constructor
      · rw [asI32_of_ge hside]
        unfold InI32
        omega
      · rw [asI32_of_ge hside]
        unfold InI32
        omega

/-- A circle is drawn in its square if and only if it is on one side of the change of the sign. -/
theorem circleCallRight_iff (arg1 arg2 arg3 : UInt64) :
    CircleCallRight arg1 arg2 arg3 ↔ CircleFits arg1 arg2 := by
  have hr : (radiusPart arg2).toNat < 2 ^ 16 := toNat_sixteenBits _
  refine Iff.trans ?_ (farFrom_iff hr)
  constructor
  · rintro ⟨fuel, points, hrun, -⟩
    obtain ⟨turns, hrun, -⟩ := bind_eq_ok hrun
    obtain ⟨double, -, hrun⟩ := bind_eq_ok hrun
    obtain ⟨d, -, hrun⟩ := bind_eq_ok hrun
    rw [asI32_eq (by omega)] at hrun
    cases fuel with
    | zero => cases hrun
    | succ fuel =>
        replace hrun := (if_pos (Int.natCast_nonneg _)).symm.trans hrun
        obtain ⟨first, hfirst, -⟩ := bind_eq_ok hrun
        exact farFrom_of_plotTurn hfirst
  · intro hx
    have hy : FarFrom (radiusPart arg2).toNat (lowPart arg1) := by
      have hlow : (lowPart arg1).toNat < 2 ^ 16 := toNat_sixteenBits arg1
      exact (farFrom_iff hr).mpr (Or.inl (by omega))
    obtain ⟨n, habove, hend⟩ := exists_octant (radiusPart arg2).toNat
    have hrun := @drawCircle_ok .checked _ _ _ (fillPart arg2) hr hx hy (n + 1)
      (fun m hm => habove m (by omega)) hend
    refine ⟨n + 1 + 1, _, by rw [sysDrawCircle, hrun, bind_ok]; rfl, fun q hq => ?_⟩
    obtain ⟨m, hm, hoffset⟩ := (mem_outline hr habove).mp ⟨q, hq, rfl⟩
    have hheight := habove m hm
    have hle := circleHeight_le (radiusPart arg2).toNat m
    exact natAbs_turnOffsets (by omega) (by omega) hoffset

/-- The calls draw what their arguments describe, and return, for exactly these arguments. -/
theorem callsRight_iff (arg1 arg2 arg3 : UInt64) :
    (LineCallRight arg1 arg2 arg3 ↔ LineFits arg1 arg2) ∧
      (CircleCallRight arg1 arg2 arg3 ↔ CircleFits arg1 arg2) :=
  ⟨lineCallRight_iff arg1 arg2 arg3, circleCallRight_iff arg1 arg2 arg3⟩

/-- The line from the origin to the first abscissa that becomes negative does not end. -/
theorem not_callsRight : ¬∀ arg1 arg2 arg3 : UInt64,
    LineCallRight arg1 arg2 arg3 ∧ CircleCallRight arg1 arg2 arg3 := by
  intro h
  have hside := (lineCallRight_iff 0 0x800000000000 0).mp (h 0 0x800000000000 0).1
  have hstart : (highPart 0).toNat < 2 ^ 31 := by decide
  have hend : ¬(highPart 0x800000000000).toNat < 2 ^ 31 := by decide
  exact hend (hside.mp hstart)

end

end PureOS.Graphics
