import PureOS.Graphics.Line

set_option autoImplicit false

/-!
# Graphics: circles (`graphics.rs`)

`draw_circle` walks along an octant from the top to the diagonal and reflects it.  The decision
term it carries along is the sum of the distances of the next point and of the one below it, so
it stays on the points that are nearest to the circle.
-/

namespace PureOS.Graphics

open PureOS.Foundation

/-! ## The code -/

/-- `x0`, `y0` and `d`. -/
structure Arc where
  x0 : Int
  y0 : Int
  d : Int

/-- A turn of the loop of `draw_circle`: the variables it starts with, and what it plots. -/
structure Turn where
  x0 : Int
  y0 : Int
  points : List Point
  deriving DecidableEq

/-- `first..=last`. -/
def span (first last : Int) : List Int :=
  (List.range (last + 1 - first).toNat).map fun i : Nat => first + i

section

variable (p : Profile)

/-- A call of `framebuffer::put` with two coordinates that are worked out for it. -/
def put (across along : Except Fault Int) : Except Fault Point := do
  let x ← across
  let y ← along
  return (asU32 x, asU32 y)

/-- The eight calls of a turn that only draws the outline. -/
def cornerCalls (x y : UInt32) (x0 y0 : Int) : List (Except Fault Point) :=
  [put (p.addI (asI32 x) x0) (p.subI (asI32 y) y0),
    put (p.subI (asI32 x) x0) (p.subI (asI32 y) y0),
    put (p.addI (asI32 x) x0) (p.addI (asI32 y) y0),
    put (p.subI (asI32 x) x0) (p.addI (asI32 y) y0),
    put (p.addI (asI32 x) y0) (p.subI (asI32 y) x0),
    put (p.subI (asI32 x) y0) (p.subI (asI32 y) x0),
    put (p.addI (asI32 x) y0) (p.addI (asI32 y) x0),
    put (p.subI (asI32 x) y0) (p.addI (asI32 y) x0)]

/-- They are made one after the other. -/
def plotCorners (x y : UInt32) (x0 y0 : Int) : Except Fault (List Point) :=
  (cornerCalls p x y x0 y0).mapM id

/-- One of the two loops of a turn that fills the circle: two rows. -/
def plotRows (x y : UInt32) (half up : Int) : Except Fault (List Point) := do
  let first ← p.subI (asI32 x) half
  let last ← p.addI (asI32 x) half
  let rows ← (span first last).mapM fun fx => do
    let above ← put (pure fx) (p.subI (asI32 y) up)
    let below ← put (pure fx) (p.addI (asI32 y) up)
    return [above, below]
  return rows.flatten

/-- What a turn plots. -/
def plotTurn (fill : Bool) (x y : UInt32) (x0 y0 : Int) : Except Fault (List Point) :=
  if fill then do
    let wide ← plotRows p x y x0 y0
    let narrow ← plotRows p x y y0 x0
    return wide ++ narrow
  else plotCorners p x y x0 y0

/-- The end of the body of the loop. -/
def Arc.next (arc : Arc) : Except Fault Arc := do
  let x0 ← p.addI arc.x0 1
  let bent ← (if arc.d > 0 then do
      let y0 ← p.subI arc.y0 1
      let change ← p.mulI 4 y0
      let d ← p.subI arc.d change
      return ⟨x0, y0, d⟩
    else pure ⟨x0, arc.y0, arc.d⟩ : Except Fault Arc)
  let four ← p.mulI 4 x0
  let change ← p.addI four 2
  let d ← p.addI bent.d change
  return { bent with d := d }

/-- The loop of `draw_circle`. -/
def circleLoop (fill : Bool) (x y : UInt32) : Nat → Arc → Except Fault (List Turn)
  | 0, _ => .error .fuel
  | fuel + 1, arc =>
      if arc.y0 ≥ arc.x0 then do
        let points ← plotTurn p fill x y arc.x0 arc.y0
        let next ← arc.next p
        let rest ← circleLoop fill x y fuel next
        return ⟨arc.x0, arc.y0, points⟩ :: rest
      else .ok []

/-- `draw_circle`, with a bound on the turns of its loop. -/
def drawCircle (fuel : Nat) (x y radius : UInt32) (fill : Bool) : Except Fault (List Turn) := do
  let double ← p.mulI 2 (asI32 radius)
  let d ← p.subI 3 double
  circleLoop p fill x y fuel ⟨0, asI32 radius, d⟩

end

/-! ## The points of a turn -/

/-- The eight points that a point and its reflections are, counted from the centre. -/
def corners (x0 y0 : Int) : List (Int × Int) :=
  [(x0, -y0), (-x0, -y0), (x0, y0), (-x0, y0), (y0, -x0), (-y0, -x0), (y0, x0), (-y0, x0)]

/-- The two rows of a filled turn, counted from the centre. -/
def rowsOf (half up : Int) : List (Int × Int) :=
  (span (-half) half).flatMap fun across => [(across, -up), (across, up)]

/-- The points of a turn, counted from the centre. -/
def turnOffsets (fill : Bool) (x0 y0 : Int) : List (Int × Int) :=
  if fill then rowsOf x0 y0 ++ rowsOf y0 x0 else corners x0 y0

/-- A point at some distance of the centre. -/
def place (x y : UInt32) (q : Int × Int) : Point := (asU32 (asI32 x + q.1), asU32 (asI32 y + q.2))

/-- The distance of a point from the centre. -/
def offset (x y : UInt32) (q : Point) : Int × Int := (asI32 (q.1 - x), asI32 (q.2 - y))

/-- A coordinate that is so far from the limits that the radius fits on both sides. -/
structure FarFrom (r : Nat) (v : UInt32) : Prop where
  low : InI32 (asI32 v - r)
  high : InI32 (asI32 v + r)

section

variable {p : Profile} {r : Nat} {x y v : UInt32} {x0 y0 a : Int}

theorem FarFrom.add (h : FarFrom r v) (ha : a.natAbs ≤ r) : p.addI (asI32 v) a = .ok (asI32 v + a) := by
  obtain ⟨hlow, hhigh⟩ := h
  refine Profile.addI_ok ?_
  unfold InI32 at *
  omega

theorem FarFrom.sub (h : FarFrom r v) (ha : a.natAbs ≤ r) :
    p.subI (asI32 v) a = .ok (asI32 v + -a) := by
  obtain ⟨hlow, hhigh⟩ := h
  refine Profile.subI_ok ?_
  unfold InI32 at *
  omega

theorem asI32_asU32_sub (v : UInt32) (ha : InI32 a) : asI32 (asU32 (asI32 v + a) - v) = a := by
  have hv := v.toNat_lt
  have hsigned := asI32_cases v
  have hplace := toNat_asU32_eq (asI32 v + a)
  have hsub := UInt32.toNat_sub (asU32 (asI32 v + a)) v
  unfold InI32 at ha
  generalize asU32 (asI32 v + a) - v = back at hsub ⊢
  generalize (asU32 (asI32 v + a)).toNat = n at *
  unfold asI32
  split <;> omega

/-- The distance of a place from the centre is the one it was made with. -/
theorem offset_place {q : Int × Int} (h1 : InI32 q.1) (h2 : InI32 q.2) :
    offset x y (place x y q) = q := Prod.ext (asI32_asU32_sub x h1) (asI32_asU32_sub y h2)

theorem plotCorners_ok (hx : FarFrom r x) (hy : FarFrom r y) (hx0 : x0.natAbs ≤ r)
    (hy0 : y0.natAbs ≤ r) : plotCorners p x y x0 y0 = .ok ((corners x0 y0).map (place x y)) := by
  rw [plotCorners, cornerCalls, hx.add hx0, hx.sub hx0, hx.add hy0, hx.sub hy0, hy.add hx0, hy.sub hx0,
    hy.add hy0, hy.sub hy0]
  rfl

theorem span_shift (c first last : Int) :
    span (c + first) (c + last) = (span first last).map fun i => c + i := by
  rw [span, span, List.map_map, show c + last + 1 - (c + first) = last + 1 - first by omega]
  exact List.map_congr_left fun i _ => Int.add_assoc c first i

theorem plotRows_ok (hx : FarFrom r x) (hy : FarFrom r y) (hx0 : x0.natAbs ≤ r)
    (hy0 : y0.natAbs ≤ r) : plotRows p x y x0 y0 = .ok ((rowsOf x0 y0).map (place x y)) := by
  rw [plotRows, hx.add hx0, hx.sub hx0, hy.add hy0, hy.sub hy0, bind_ok, bind_ok,
    span_shift]
  have hrow : (fun fx => do
        let above ← put (pure fx) (Except.ok (asI32 y + -y0))
        let below ← put (pure fx) (Except.ok (asI32 y + y0))
        return [above, below] : Int → Except Fault (List Point)) =
      fun fx => pure [(asU32 fx, asU32 (asI32 y + -y0)), (asU32 fx, asU32 (asI32 y + y0))] := rfl
  rw [hrow, List.mapM_pure]
  refine congrArg Except.ok ?_
  rw [rowsOf, List.map_flatMap, List.flatMap_def, List.map_map]
  rfl

theorem plotTurn_ok (fill : Bool) (hx : FarFrom r x) (hy : FarFrom r y) (hx0 : x0.natAbs ≤ r)
    (hy0 : y0.natAbs ≤ r) :
    plotTurn p fill x y x0 y0 = .ok ((turnOffsets fill x0 y0).map (place x y)) := by
  cases fill with
  | false => exact plotCorners_ok hx hy hx0 hy0
  | true =>
      rw [plotTurn, if_pos rfl, plotRows_ok hx hy hx0 hy0, bind_ok, plotRows_ok hx hy hy0 hx0,
        bind_ok, turnOffsets, if_pos rfl, List.map_append]
      rfl

/-! ## The walk -/

/-- The variables before a turn. -/
def arcAt (r n : Nat) : Arc := ⟨n, circleHeight r n, bend r (n + 1 : Nat) (circleHeight r n)⟩

/-- The turn. -/
def turnAt (fill : Bool) (x y : UInt32) (r n : Nat) : Turn :=
  ⟨n, circleHeight r n, (turnOffsets fill n (circleHeight r n)).map (place x y)⟩

/-- The end of a turn. -/
theorem arcAt_next {n : Nat} (hr : r < 2 ^ 16) (h : (n : Int) ≤ circleHeight r n) :
    (arcAt r n).next p = .ok (arcAt r (n + 1)) := by
  have hle := circleHeight_le r n
  obtain ⟨hbelow, habove⟩ := circleHeight_bend h
  have hacross := bend_succ_left r n (circleHeight r n)
  have hup := bend_succ_right r n (circleHeight r n)
  have hx0 : p.addI (n : Int) 1 = .ok (n + 1 : Nat) := Profile.addI_ok (by unfold InI32; omega)
  have hfour : p.mulI 4 (n + 1 : Nat) = .ok (4 * (n + 1 : Nat)) :=
    Profile.mulI_ok (by unfold InI32; omega)
  have hchange : p.addI (4 * (n + 1 : Nat)) 2 = .ok (4 * (n + 1 : Nat) + 2) :=
    Profile.addI_ok (by unfold InI32; omega)
  have hzero : circleHeight r n = 0 → bend r n (circleHeight r n) = 1 := by
    intro hheight
    obtain rfl : n = 0 := by omega
    obtain rfl : r = 0 := by
      rw [circleHeight] at hheight
      omega
    rfl
  have hover := bend_succ_left r (n + 1)
  rw [Arc.next, arcAt]
  dsimp only
  rw [hx0, bind_ok]
  by_cases hbend : 0 < bend r (n + 1 : Nat) (circleHeight r n)
  · have hdown := bend_pred_right r (n + 1 : Nat) (circleHeight r n)
    have hy0 : p.subI (circleHeight r n) 1 = .ok (circleHeight r n - 1) :=
      Profile.subI_ok (by unfold InI32; omega)
    have hless : p.mulI 4 (circleHeight r n - 1) = .ok (4 * (circleHeight r n - 1)) :=
      Profile.mulI_ok (by unfold InI32; omega)
    have hsub : p.subI (bend r (n + 1 : Nat) (circleHeight r n)) (4 * (circleHeight r n - 1)) =
        .ok (bend r (n + 1 : Nat) (circleHeight r n - 1)) := by
      rw [hdown]
      exact Profile.subI_ok (by unfold InI32; omega)
    have hadd : p.addI (bend r (n + 1 : Nat) (circleHeight r n - 1)) (4 * (n + 1 : Nat) + 2) =
        .ok (bend r (n + 1 : Nat) (circleHeight r n - 1) + (4 * (n + 1 : Nat) + 2)) :=
      Profile.addI_ok (by unfold InI32; omega)
    rw [if_pos hbend, hy0, bind_ok, hless, bind_ok, hsub, bind_ok]
    dsimp only [pure, Except.pure]
    rw [bind_ok, hfour, bind_ok, hchange, bind_ok, hadd, ← hover, arcAt, circleHeight,
      if_pos hbend]
    rfl
  · have hadd : p.addI (bend r (n + 1 : Nat) (circleHeight r n)) (4 * (n + 1 : Nat) + 2) =
        .ok (bend r (n + 1 : Nat) (circleHeight r n) + (4 * (n + 1 : Nat) + 2)) :=
      Profile.addI_ok (by unfold InI32; omega)
    rw [if_neg hbend]
    dsimp only [pure, Except.pure]
    rw [bind_ok, hfour, bind_ok, hchange, bind_ok, hadd, ← hover, arcAt, circleHeight,
      if_neg hbend]
    rfl

/-- The loop, from a turn on. -/
theorem circleLoop_eq (fill : Bool) (hr : r < 2 ^ 16) (hx : FarFrom r x) (hy : FarFrom r y)
    {turns : Nat} (habove : ∀ m : Nat, m < turns → (m : Int) ≤ circleHeight r m)
    (hend : circleHeight r turns < turns) (m n : Nat) (h : n + m = turns) :
    circleLoop p fill x y (m + 1) (arcAt r n) =
      .ok ((List.range m).map fun i => turnAt fill x y r (n + i)) := by
  induction m generalizing n with
  | zero =>
      obtain rfl : n = turns := h
      exact if_neg (Int.not_le.mpr hend)
  | succ m ih =>
      have hn := habove n (by omega)
      have hle := circleHeight_le r n
      have hplot := @plotTurn_ok p r x y n (circleHeight r n) fill hx hy (by omega) (by omega)
      refine (if_pos hn).trans ?_
      rw [show (arcAt r n).x0 = n from rfl, show (arcAt r n).y0 = circleHeight r n from rfl, hplot,
        bind_ok, arcAt_next hr hn, bind_ok, ih (n + 1) (by omega), bind_ok,
        List.range_succ_eq_map (n := m), List.map_cons, List.map_map]
      refine congrArg Except.ok (congrArg₂ List.cons rfl (List.map_congr_left fun i _ => ?_))
      rw [Function.comp_apply, Nat.succ_add_eq_add_succ]

/-- `draw_circle` walks along the octant. -/
theorem drawCircle_ok {radius : UInt32} (fill : Bool) (hr : radius.toNat < 2 ^ 16)
    (hx : FarFrom radius.toNat x) (hy : FarFrom radius.toNat y) {turns : Nat}
    (habove : ∀ m : Nat, m < turns → (m : Int) ≤ circleHeight radius.toNat m)
    (hend : circleHeight radius.toNat turns < turns) :
    drawCircle p (turns + 1) x y radius fill =
      .ok ((List.range turns).map fun i => turnAt fill x y radius.toNat i) := by
  have hdouble : p.mulI 2 radius.toNat = .ok (2 * radius.toNat) :=
    Profile.mulI_ok (by unfold InI32; omega)
  have hd : p.subI 3 (2 * radius.toNat) = .ok (3 - 2 * radius.toNat) :=
    Profile.subI_ok (by unfold InI32; omega)
  have hstart : arcAt radius.toNat 0 = ⟨0, radius.toNat, 3 - 2 * radius.toNat⟩ := by
    rw [arcAt, circleHeight]
    refine congrArg (Arc.mk 0 _) ?_
    unfold bend residue
    ring
  have hloop := @circleLoop_eq p _ x y fill hr hx hy turns habove hend turns 0 (Nat.zero_add _)
  rw [drawCircle, asI32_eq (by omega), hdouble, bind_ok, hd, bind_ok, ← hstart, hloop]
  refine congrArg Except.ok (List.map_congr_left fun i _ => ?_)
  rw [Nat.zero_add]

/-! ## What is plotted -/

/-- All points of the turns, counted from the centre. -/
def outline (x y : UInt32) (turns : List Turn) : Set (Int × Int) :=
  {q | ∃ point ∈ turns.flatMap Turn.points, offset x y point = q}

/-- The turns follow the nearest points of the columns, down to the diagonal. -/
structure TracesOctant (x y : UInt32) (r : Nat) (turns : List Turn) : Prop where
  /-- The columns are visited in their order, each of them once. -/
  columns : turns.map Turn.x0 = (List.range turns.length).map fun n : Nat => (n : Int)
  nearest : ∀ turn ∈ turns, ∃ n m : Nat, turn.x0 = n ∧ turn.y0 = m ∧ Nearest r n m
  /-- The columns whose nearest point is not below the diagonal are visited, and no others. -/
  boundary : ∀ n m : Nat, Nearest r n m → (n < turns.length ↔ n ≤ m)
  /-- Every column of the octant is visited. -/
  octant : ∀ n : Nat, 2 * (n * n) ≤ r * r → n < turns.length
  /-- The point and its reflections are plotted. -/
  plotted : ∀ turn ∈ turns, ∀ q ∈ corners turn.x0 turn.y0,
    ∃ point ∈ turn.points, offset x y point = q

theorem mem_span {first last v : Int} : v ∈ span first last ↔ first ≤ v ∧ v ≤ last := by
  rw [span, List.mem_map]
  constructor
  · rintro ⟨i, hi, rfl⟩
    have hi := List.mem_range.mp hi
    omega
  · rintro ⟨hfirst, hlast⟩
    exact ⟨(v - first).toNat, List.mem_range.mpr (by omega), by omega⟩

theorem mem_corners {q : Int × Int} :
    q ∈ corners x0 y0 ↔ (q.1.natAbs = x0.natAbs ∧ q.2.natAbs = y0.natAbs) ∨
      (q.1.natAbs = y0.natAbs ∧ q.2.natAbs = x0.natAbs) := by
  obtain ⟨a, b⟩ := q
  simp only [corners, List.mem_cons, Prod.mk.injEq, List.not_mem_nil, or_false,
    Int.natAbs_eq_natAbs_iff, or_and_right, and_or_left]
  constructor
  · rintro (h | h | h | h | h | h | h | h) <;> simp [h]
  · rintro (((h | h) | h | h) | (h | h) | h | h) <;> simp [h]

/-- A turn that fills the circle plots the eight points as well. -/
theorem corners_subset (fill : Bool) (hx0 : 0 ≤ x0) (hy0 : 0 ≤ y0) {q : Int × Int}
    (hq : q ∈ corners x0 y0) : q ∈ turnOffsets fill x0 y0 := by
  cases fill with
  | false => exact hq
  | true =>
      obtain ⟨a, b⟩ := q
      have hrow {half up : Int} (hhalf : -half ≤ a ∧ a ≤ half) (hup : b = -up ∨ b = up) :
          (a, b) ∈ rowsOf half up := by
        refine List.mem_flatMap.mpr ⟨a, mem_span.mpr hhalf, ?_⟩
        rcases hup with rfl | rfl
        · exact List.mem_cons_self
        · exact List.mem_cons_of_mem _ List.mem_cons_self
      rcases mem_corners.mp hq with ⟨ha, hb⟩ | ⟨ha, hb⟩
      · exact List.mem_append_left _ (hrow (by omega) (by omega))
      · exact List.mem_append_right _ (hrow (by omega) (by omega))

/-- No point of a turn is farther from the centre than its variables are, in either direction. -/
theorem natAbs_turnOffsets {fill : Bool} {q : Int × Int} (hx0 : x0.natAbs ≤ r)
    (hy0 : y0.natAbs ≤ r) (hq : q ∈ turnOffsets fill x0 y0) :
    q.1.natAbs ≤ r ∧ q.2.natAbs ≤ r := by
  have hrow {half up : Int} (hhalf : half.natAbs ≤ r) (hup : up.natAbs ≤ r)
      (hq : q ∈ rowsOf half up) : q.1.natAbs ≤ r ∧ q.2.natAbs ≤ r := by
    obtain ⟨across, hacross, hq⟩ := List.mem_flatMap.mp hq
    have hacross := mem_span.mp hacross
    rcases List.mem_cons.mp hq with rfl | hq
    · exact ⟨by dsimp only; omega, by dsimp only; omega⟩
    · obtain rfl := List.mem_singleton.mp hq
      exact ⟨by dsimp only; omega, by dsimp only; omega⟩
  cases fill with
  | false =>
      rcases mem_corners.mp hq with ⟨h1, h2⟩ | ⟨h1, h2⟩
      · exact ⟨h1 ▸ hx0, h2 ▸ hy0⟩
      · exact ⟨h1 ▸ hy0, h2 ▸ hx0⟩
  | true =>
      rcases List.mem_append.mp hq with hq | hq
      · exact hrow hx0 hy0 hq
      · exact hrow hy0 hx0 hq

/-- The points of a turn are where they are counted from the centre. -/
theorem offset_turnAt {fill : Bool} {n : Nat} (hr : r < 2 ^ 16)
    (h : (n : Int) ≤ circleHeight r n) {q : Int × Int} :
    (∃ point ∈ (turnAt fill x y r n).points, offset x y point = q) ↔
      q ∈ turnOffsets fill n (circleHeight r n) := by
  have hle := circleHeight_le r n
  have hback {q : Int × Int} (hq : q ∈ turnOffsets fill n (circleHeight r n)) :
      offset x y (place x y q) = q := by
    obtain ⟨h1, h2⟩ := @natAbs_turnOffsets r _ _ fill q (by omega) (by omega) hq
    exact offset_place (by unfold InI32; omega) (by unfold InI32; omega)
  constructor
  · rintro ⟨point, hpoint, rfl⟩
    obtain ⟨q, hq, rfl⟩ := List.mem_map.mp hpoint
    exact (hback hq).symm ▸ hq
  · intro hq
    exact ⟨place x y q, List.mem_map_of_mem hq, hback hq⟩

/-- The points of all turns down to a column. -/
theorem mem_outline {fill : Bool} {n : Nat} (hr : r < 2 ^ 16)
    (habove : ∀ m : Nat, m ≤ n → (m : Int) ≤ circleHeight r m) {q : Int × Int} :
    q ∈ outline x y ((List.range (n + 1)).map (turnAt fill x y r)) ↔
      ∃ m ≤ n, q ∈ turnOffsets fill m (circleHeight r m) := by
  constructor
  · rintro ⟨point, hpoint, hq⟩
    obtain ⟨turn, hturn, hpoint⟩ := List.mem_flatMap.mp hpoint
    obtain ⟨m, hm, rfl⟩ := List.mem_map.mp hturn
    have hm := Nat.le_of_lt_succ (List.mem_range.mp hm)
    exact ⟨m, hm, (offset_turnAt hr (habove m hm)).mp ⟨point, hpoint, hq⟩⟩
  · rintro ⟨m, hm, hq⟩
    obtain ⟨point, hpoint, hq⟩ := (offset_turnAt hr (habove m hm)).mpr hq
    refine ⟨point, List.mem_flatMap.mpr ⟨_, List.mem_map_of_mem ?_, hpoint⟩, hq⟩
    exact List.mem_range.mpr (Nat.lt_succ_of_le hm)

variable {radius : UInt32}

/-- A circle with a radius below `2 ^ 16` is drawn through the points of its columns that are the
nearest to it, and its outline is connected and symmetric. -/
theorem drawCircle_traces (fill : Bool) (hr : radius.toNat < 2 ^ 16)
    (hx : FarFrom radius.toNat x) (hy : FarFrom radius.toNat y) :
    ∃ fuel turns, (∀ p, drawCircle p fuel x y radius fill = .ok turns) ∧
      TracesOctant x y radius.toNat turns ∧
      (fill = false → Mirrored (outline x y turns) ∧ Connected (outline x y turns)) := by
  obtain ⟨n, habove, hend⟩ := exists_octant radius.toNat
  have hturn {turn : Turn}
      (h : turn ∈ (List.range (n + 1)).map (turnAt fill x y radius.toNat)) :
      ∃ m ≤ n, turn = turnAt fill x y radius.toNat m := by
    obtain ⟨m, hm, rfl⟩ := List.mem_map.mp h
    exact ⟨m, Nat.le_of_lt_succ (List.mem_range.mp hm), rfl⟩
  refine ⟨_, _, fun p => drawCircle_ok fill hr hx hy (fun m hm => habove m (by omega)) hend, ?_, ?_⟩
  · constructor
    · rw [List.map_map, List.length_map, List.length_range]
      rfl
    · intro turn hmem
      obtain ⟨m, hm, rfl⟩ := hturn hmem
      have hheight := habove m hm
      obtain ⟨k, hk⟩ := Int.eq_ofNat_of_zero_le (show 0 ≤ circleHeight radius.toNat m by omega)
      exact ⟨m, k, rfl, hk, circleHeight_nearest hk (by omega)⟩
    · intro m k hnearest
      rw [List.length_map, List.length_range]
      exact nearest_iff_of_end habove hend hnearest
    · intro m hm
      rw [List.length_map, List.length_range]
      exact inside_of_end (habove n (Nat.le_refl n)) hend hm
    · intro turn hmem q hq
      obtain ⟨m, hm, rfl⟩ := hturn hmem
      have hheight := habove m hm
      exact (offset_turnAt hr hheight).mpr
        (corners_subset fill (Int.natCast_nonneg m) (by omega) hq)
  · rintro rfl
    have hpoints : outline x y ((List.range (n + 1)).map (turnAt false x y radius.toNat)) =
        octants (circleHeight radius.toNat) n := by
      ext q
      rw [mem_outline hr habove]
      exact exists_congr fun m => and_congr_right fun _ => mem_corners
    rw [hpoints]
    refine ⟨octants_mirrored _ n, octants_connected (fun m => ?_) (habove n (Nat.le_refl n)) ?_⟩
    · exact ⟨circleHeight_succ_le _ m, circleHeight_succ_ge _ m⟩
    · have hnext := circleHeight_succ_ge radius.toNat n
      omega

/-- A small circle. -/
theorem drawCircle_traces_small :
    ∃ fuel turns, (∀ p, drawCircle p fuel 100 80 7 false = .ok turns) ∧
      TracesOctant 100 80 7 turns ∧ Mirrored (outline 100 80 turns) ∧
      Connected (outline 100 80 turns) := by
  obtain ⟨fuel, turns, hrun, htraces, hshape⟩ := @drawCircle_traces 100 80 7 false
    (by decide) ⟨by decide, by decide⟩ ⟨by decide, by decide⟩
  exact ⟨fuel, turns, hrun, htraces, hshape rfl⟩

example : (drawCircle .checked 9 100 80 7 false).toOption.map (List.map fun turn =>
    (turn.x0, turn.y0)) = some [(0, 7), (1, 7), (2, 7), (3, 6), (4, 6), (5, 5)] := by
  decide +kernel

end

end PureOS.Graphics
