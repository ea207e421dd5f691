import Mathlib.Algebra.Group.Int.Defs
import Mathlib.Algebra.Group.Nat.Defs
import Mathlib.Algebra.Order.Ring.Int
import Mathlib.Logic.Relation
import Mathlib.Tactic.Ring

set_option autoImplicit false

/-!
# Foundation: lines and circles on a grid

The points of a grid that are next to a line through the origin, column by column, and those
that are next to a circle.  An algorithm that carries an error term along is right if the term
is the one given here.
-/

namespace PureOS.Foundation

/-! ## Lines -/

/-- The height of a line that rises by `b` on the length `a`, in the column `n`, rounded. -/
def lineHeight (a b n : Nat) : Nat := (n * b + (a - 1 - a / 2)) / a

/-- How far the rounded line is above the line, in parts of `a`, counted from below. -/
def lineError (a b n : Nat) : Int := (a / 2 : Nat) - (n * b : Nat) + (a * lineHeight a b n : Nat)

section

variable {a b n q : Nat}

theorem lineError_bounds (ha : 0 < a) : 0 ≤ lineError a b n ∧ lineError a b n < a := by
  have hle := Nat.div_mul_le_self (n * b + (a - 1 - a / 2)) a
  have hlt := Nat.lt_div_mul_add (a := n * b + (a - 1 - a / 2)) ha
  rw [lineError, lineHeight, Nat.mul_comm a]
  omega

/-- The bounds say what the height is. -/
theorem lineHeight_unique (hlow : (0 : Int) ≤ (a / 2 : Nat) - (n * b : Nat) + (a * q : Nat))
    (hhigh : ((a / 2 : Nat) : Int) - (n * b : Nat) + (a * q : Nat) < a) : lineHeight a b n = q := by
  refine Nat.div_eq_of_lt_le ?_ ?_
  · rw [Nat.mul_comm]
    omega
  · rw [Nat.succ_mul, Nat.mul_comm q]
    omega

/-- The line rises where the error is below the slope. -/
theorem lineHeight_succ (ha : 0 < a) (hba : b ≤ a) :
    lineHeight a b (n + 1) =
      if lineError a b n < b then lineHeight a b n + 1 else lineHeight a b n := by
  obtain ⟨hlow, hhigh⟩ := @lineError_bounds a b n ha
  split
  · rename_i hrise
    refine lineHeight_unique ?_ ?_
    · rw [lineError] at hlow hrise
      rw [Nat.succ_mul, Nat.mul_succ]
      omega
    · rw [lineError] at hrise
      rw [Nat.succ_mul, Nat.mul_succ]
      omega
  · rename_i hflat
    refine lineHeight_unique ?_ ?_
    · rw [lineError] at hflat
      rw [Nat.succ_mul]
      omega
    · rw [lineError] at hhigh
      rw [Nat.succ_mul]
      omega

theorem lineError_succ (ha : 0 < a) (hba : b ≤ a) :
    lineError a b (n + 1) =
      if lineError a b n < b then lineError a b n - b + a else lineError a b n - b := by
  have hheight := @lineHeight_succ a b n ha hba
  by_cases hrise : lineError a b n < b
  · rw [if_pos hrise] at hheight ⊢
    rw [lineError, hheight, Nat.succ_mul, Nat.mul_succ, lineError]
    omega
  · rw [if_neg hrise] at hheight ⊢
    rw [lineError, hheight, Nat.succ_mul, lineError]
    omega

theorem lineHeight_zero (ha : 0 < a) : lineHeight a b 0 = 0 := by
  refine lineHeight_unique ?_ ?_ <;> rw [Nat.zero_mul, Nat.mul_zero] <;> omega

theorem lineHeight_self (ha : 0 < a) : lineHeight a b a = b := by
  refine lineHeight_unique ?_ ?_ <;> omega

theorem lineHeight_mono (ha : 0 < a) (hba : b ≤ a) {n' : Nat} (h : n ≤ n') :
    lineHeight a b n ≤ lineHeight a b n' := by
  refine monotone_nat_of_le_succ (fun n => ?_) h
  rw [lineHeight_succ ha hba]
  split
  · exact Nat.le_succ _
  · exact Nat.le_refl _

/-- The rounded line is at most half a point away. -/
theorem lineHeight_near (ha : 0 < a) (n b : Nat) :
    2 * (((a * lineHeight a b n : Nat) : Int) - (n * b : Nat)) ≤ a ∧
      -(a : Int) ≤ 2 * (((a * lineHeight a b n : Nat) : Int) - (n * b : Nat)) := by
  obtain ⟨hlow, hhigh⟩ := @lineError_bounds a b n ha
  rw [lineError] at hlow hhigh
  omega

end

/-- The steps that a walk from one end of a line to the other has made in both directions after
`n` turns: one along the longer side, and as many along the other as the rounded line has. -/
def lineTrack (dx dy n : Nat) : Nat × Nat :=
  if dx > dy then (n, lineHeight dx dy n) else (lineHeight dy dx n, n)

section

variable {dx dy n : Nat}

theorem lineTrack_zero (dx dy : Nat) : lineTrack dx dy 0 = (0, 0) := by
  unfold lineTrack
  split
  · rw [lineHeight_zero (by omega)]
  · rcases Nat.eq_zero_or_pos dy with rfl | hpos
    · rw [lineHeight, Nat.div_zero]
    · rw [lineHeight_zero hpos]

theorem lineTrack_max (dx dy : Nat) : lineTrack dx dy (max dx dy) = (dx, dy) := by
  unfold lineTrack
  split
  · rename_i hflat
    rw [Nat.max_eq_left (by omega), lineHeight_self (by omega)]
  · rename_i hsteep
    rw [Nat.max_eq_right (by omega)]
    rcases Nat.eq_zero_or_pos dy with rfl | hpos
    · rw [Nat.le_zero.mp (Nat.not_lt.mp hsteep)]
      rfl
    · rw [lineHeight_self hpos]

/-- A turn is at most one step in each direction, and at least one in one of them. -/
theorem lineTrack_succ (hn : n < max dx dy) :
    ((lineTrack dx dy (n + 1)).1 = (lineTrack dx dy n).1 ∨
        (lineTrack dx dy (n + 1)).1 = (lineTrack dx dy n).1 + 1) ∧
      ((lineTrack dx dy (n + 1)).2 = (lineTrack dx dy n).2 ∨
        (lineTrack dx dy (n + 1)).2 = (lineTrack dx dy n).2 + 1) := by
  unfold lineTrack
  split
  · rename_i hflat
    refine ⟨Or.inr rfl, ?_⟩
    dsimp only
    rw [lineHeight_succ (by omega) (by omega)]
    split
    · exact Or.inr rfl
    · exact Or.inl rfl
  · rename_i hsteep
    refine ⟨?_, Or.inr rfl⟩
    dsimp only
    rw [lineHeight_succ (by omega) (by omega)]
    split
    · exact Or.inr rfl
    · exact Or.inl rfl

/-- The walk does not go beyond the end. -/
theorem lineTrack_le (hn : n ≤ max dx dy) :
    (lineTrack dx dy n).1 ≤ dx ∧ (lineTrack dx dy n).2 ≤ dy := by
  unfold lineTrack
  split
  · rename_i hflat
    rw [Nat.max_eq_left (by omega)] at hn
    refine ⟨hn, ?_⟩
    have hmono := @lineHeight_mono dx dy n (by omega) (by omega) dx hn
    rwa [lineHeight_self (by omega)] at hmono
  · rename_i hsteep
    rw [Nat.max_eq_right (by omega)] at hn
    refine ⟨?_, hn⟩
    rcases Nat.eq_zero_or_pos dy with rfl | hpos
    · rw [lineHeight, Nat.div_zero]
      exact Nat.zero_le _
    · have hmono := @lineHeight_mono dy dx n hpos (by omega) dy hn
      rwa [lineHeight_self hpos] at hmono

/-- The walk is at the end only when it has made all its turns. -/
theorem lineTrack_ne (hn : n < max dx dy) : lineTrack dx dy n ≠ (dx, dy) := by
  unfold lineTrack
  split
  · rename_i hflat
    intro heq
    have hfirst := congrArg Prod.fst heq
    dsimp only at hfirst
    omega
  · rename_i hsteep
    intro heq
    have hsecond := congrArg Prod.snd heq
    dsimp only at hsecond
    omega

/-- The walk is at most half a point away from the line. -/
theorem lineTrack_near (dx dy n : Nat) (hn : n ≤ max dx dy) :
    2 * ((((lineTrack dx dy n).1 * dy : Nat) : Int) - ((lineTrack dx dy n).2 * dx : Nat)).natAbs ≤
      max dx dy := by
  unfold lineTrack
  split
  · rename_i hflat
    have hnear := @lineHeight_near dx (by omega) n dy
    dsimp only
    rw [Nat.mul_comm (lineHeight dx dy n)]
    omega
  · rename_i hsteep
    dsimp only
    rcases Nat.eq_zero_or_pos dy with rfl | hpos
    · obtain rfl := Nat.le_zero.mp (Nat.not_lt.mp hsteep)
      rw [Nat.mul_zero, Nat.mul_zero]
      exact Nat.zero_le _
    · have hnear := @lineHeight_near dy hpos n dx
      rw [Nat.mul_comm (lineHeight dy dx n)]
      omega

end

/-! ## Circles -/

/-- How far a point is outside of a circle around the origin, in squares. -/
def residue (r x y : Int) : Int := x * x + y * y - r * r

/-- No other point of the column is nearer to the circle. -/
def Nearest (r x y : Nat) : Prop :=
  ∀ y' : Nat, (residue r x y).natAbs ≤ (residue r x y').natAbs

section

variable {r x y y' : Int}

theorem residue_lt (hy : 0 ≤ y) (h : y < y') : residue r x y < residue r x y' := by
  have hsquare : y * y < y' * y' := Int.mul_self_lt_mul_self hy h
  rw [residue, residue]
  omega

theorem residue_le (hy : 0 ≤ y) (h : y ≤ y') : residue r x y ≤ residue r x y' := by
  have hsquare : y * y ≤ y' * y' := Int.mul_self_le_mul_self hy h
  rw [residue, residue]
  omega

/-- A point is the nearest one of its column if it is at least as near as those above and below
it, which the sums of their distances say. -/
theorem nearest_of_sums {r x y : Nat}
    (hbelow : 1 ≤ y → residue r x y + residue r x (y - 1) ≤ 0)
    (habove : 0 ≤ residue r x y + residue r x (y + 1)) : Nearest r x y := by
  intro y'
  rcases Nat.lt_trichotomy y' y with hlt | rfl | hgt
  · have hle : residue r x y' ≤ residue r x (y - 1) := residue_le (by omega) (by omega)
    have hless : residue r x y' < residue r x y := residue_lt (by omega) (by omega)
    have hsum := hbelow (by omega)
    omega
  · exact Nat.le_refl _
  · have hle : residue r x (y + 1) ≤ residue r x y' := residue_le (by omega) (by omega)
    have hless : residue r x y < residue r x y' := residue_lt (by omega) (by omega)
    omega

end

/-- The sum of the distances of a point and the one below it. -/
def bend (r x y : Int) : Int := residue r x y + residue r x (y - 1)

/-- The height of the octant of a circle in a column: it goes down where the point and the one
below it lie farther out than in. -/
def circleHeight (r : Nat) : Nat → Int
  | 0 => r
  | n + 1 =>
      if 0 < bend r (n + 1 : Nat) (circleHeight r n) then circleHeight r n - 1
      else circleHeight r n

section

theorem bend_succ_left (r : Int) (x : Nat) (y : Int) :
    bend r (x + 1 : Nat) y = bend r x y + (4 * x + 2) := by
  rw [Nat.cast_add_one]
  unfold bend residue
  ring

theorem bend_pred_right (r x y : Int) : bend r x (y - 1) = bend r x y - 4 * (y - 1) := by
  unfold bend residue
  ring

theorem bend_succ_right (r x y : Int) : bend r x (y + 1) = bend r x y + 4 * y := by
  unfold bend residue
  ring

theorem bend_mono {r x y x' y' : Int} (hx : 0 ≤ x) (hy : 0 ≤ y) (hxx : x ≤ x') (hyy : y ≤ y') :
    bend r x y ≤ bend r x' y' := by
  have hacross : x * x ≤ x' * x' := Int.mul_self_le_mul_self hx hxx
  rcases Int.lt_or_eq_of_le hy with hpos | rfl
  · have halong : y * y ≤ y' * y' := Int.mul_self_le_mul_self hy hyy
    have hbelow : (y - 1) * (y - 1) ≤ (y' - 1) * (y' - 1) :=
      Int.mul_self_le_mul_self (by omega) (by omega)
    unfold bend residue
    omega
  · have halong : 0 ≤ y' * (y' - 1) := by
      rcases Int.lt_or_eq_of_le hyy with hpos | rfl
      · exact Int.mul_nonneg hyy (by omega)
      · exact Int.le_refl _
    have hsquare : (y' - 1) * (y' - 1) = y' * (y' - 1) - (y' - 1) := by ring
    have hsquare' : y' * y' = y' * (y' - 1) + y' := by ring
    unfold bend residue
    omega

variable {r n : Nat}

theorem bend_odd (r x y : Int) : bend r x y ≠ 0 := by
  have hvalue : bend r x y = 2 * (x * x - r * r + y * y - y) + 1 := by
    unfold bend residue
    ring
  omega

/-- A point that is the nearest one is not farther out than the one below it is in. -/
theorem Nearest.bend_le {x y : Nat} (h : Nearest r x y) (hy : 1 ≤ y) : bend r x y ≤ 0 := by
  have hless : residue r x (y - 1) < residue r x y := residue_lt (by omega) (by omega)
  have hnear := h (y - 1)
  rw [Nat.cast_pred hy] at hnear
  rw [bend]
  omega

theorem circleHeight_succ_le (r n : Nat) : circleHeight r (n + 1) ≤ circleHeight r n := by
  rw [circleHeight]
  split <;> omega

theorem circleHeight_succ_ge (r n : Nat) : circleHeight r n - 1 ≤ circleHeight r (n + 1) := by
  rw [circleHeight]
  split <;> omega

theorem circleHeight_le (r n : Nat) : circleHeight r n ≤ r := by
  induction n with
  | zero => exact Int.le_refl _
  | succ n ih => exact Int.le_trans (circleHeight_succ_le r n) ih

/-- Above the diagonal the height lies between the circle and the point above it. -/
theorem circleHeight_bend (h : (n : Int) ≤ circleHeight r n) :
    (1 ≤ circleHeight r n → bend r n (circleHeight r n) ≤ 0) ∧
      0 ≤ bend r n (circleHeight r n + 1) := by
  induction n with
  | zero =>
      have hbelow : bend r 0 (r : Int) = 1 - 2 * r := by
        unfold bend residue
        ring
      have habove : bend r 0 ((r : Int) + 1) = 2 * r + 1 := by
        unfold bend residue
        ring
      rw [circleHeight, Nat.cast_zero, hbelow, habove]
      omega
  | succ n ih =>
      have hless := circleHeight_succ_le r n
      obtain ⟨hbelow, habove⟩ := ih (by omega)
      rw [circleHeight] at h ⊢
      have hacross := bend_succ_left r n (circleHeight r n)
      by_cases hbend : 0 < bend r (n + 1 : Nat) (circleHeight r n)
      · -- The height goes down, and stays above the diagonal.
        have halong := bend_pred_right r (n + 1 : Nat) (circleHeight r n)
        rw [if_pos hbend] at h ⊢
        rw [halong, hacross, Int.sub_add_cancel]
        omega
      · have hover := bend_succ_left r n (circleHeight r n + 1)
        rw [if_neg hbend] at h ⊢
        rw [hover]
        omega

/-- Above the diagonal the height is the nearest one. -/
theorem circleHeight_nearest {m : Nat} (hm : circleHeight r n = m) (h : n ≤ m) :
    Nearest r n m := by
  obtain ⟨hbelow, habove⟩ := @circleHeight_bend r n (by omega)
  rw [hm] at hbelow habove
  refine nearest_of_sums (fun hpos => hbelow (by omega)) ?_
  rw [bend, Int.add_sub_cancel] at habove
  omega

/-- Where the height gets below the diagonal, the diagonal is outside of the circle. -/
theorem bend_diagonal (h : (n : Int) ≤ circleHeight r n)
    (hend : circleHeight r (n + 1) < (n + 1 : Nat)) : 0 < bend r (n + 1 : Nat) (n + 1 : Nat) := by
  obtain ⟨-, habove⟩ := circleHeight_bend h
  rw [circleHeight] at hend
  by_cases hbend : 0 < bend r (n + 1 : Nat) (circleHeight r n)
  · rw [if_pos hbend] at hend
    exact Int.lt_of_lt_of_le hbend (bend_mono (by omega) (by omega) (Int.le_refl _) (by omega))
  · rw [if_neg hbend] at hend
    have hheight : circleHeight r n = n := by omega
    have hstep := bend_succ_left r n (circleHeight r n + 1)
    rw [hheight] at hstep habove
    rw [show ((n + 1 : Nat) : Int) = n + 1 from rfl] at hstep ⊢
    omega

/-- The columns above the diagonal are those whose nearest point is. -/
theorem nearest_iff_of_end (hpast : ∀ m ≤ n, (m : Int) ≤ circleHeight r m)
    (hend : circleHeight r (n + 1) < (n + 1 : Nat)) {x y : Nat} (hnearest : Nearest r x y) :
    x < n + 1 ↔ x ≤ y := by
  constructor
  · intro hx
    have hheight := hpast x (by omega)
    obtain ⟨m, hm⟩ := Int.eq_ofNat_of_zero_le (show 0 ≤ circleHeight r x by omega)
    by_contra hlow
    have hbend := (circleHeight_bend hheight).1 (by omega)
    have hodd := bend_odd r x (circleHeight r x)
    have hless : residue r x (m - 1) < residue r x m := residue_lt (by omega) (by omega)
    have hle : residue r x y ≤ residue r x (m - 1) := residue_le (by omega) (by omega)
    have hnear := hnearest m
    rw [hm] at hbend hodd
    rw [bend] at hbend hodd
    omega
  · intro hxy
    by_contra hx
    have hbend := hnearest.bend_le (by omega)
    have hmono : bend r (n + 1 : Nat) (n + 1 : Nat) ≤ bend r x y :=
      bend_mono (by omega) (by omega) (by omega) (by omega)
    have hdiagonal := bend_diagonal (hpast n (Nat.le_refl n)) hend
    omega

/-- In particular those where the diagonal is not outside of the circle. -/
theorem inside_of_end (h : (n : Int) ≤ circleHeight r n)
    (hend : circleHeight r (n + 1) < (n + 1 : Nat)) {x : Nat} (hx : 2 * (x * x) ≤ r * r) :
    x < n + 1 := by
  by_contra hx
  have hmono : bend r (n + 1 : Nat) (n + 1 : Nat) ≤ bend r x x :=
    bend_mono (by omega) (by omega) (by omega) (by omega)
  have hdiagonal := bend_diagonal h hend
  have hvalue : bend r x x = 2 * (2 * (x * x : Nat) - (r * r : Nat)) - 2 * x + 1 := by
    rw [Nat.cast_mul, Nat.cast_mul]
    unfold bend residue
    ring
  omega

/-- The octant ends. -/
theorem exists_octant (r : Nat) :
    ∃ n : Nat, (∀ m : Nat, m ≤ n → (m : Int) ≤ circleHeight r m) ∧
      circleHeight r (n + 1) < (n + 1 : Nat) := by
  have hlow : ∃ n : Nat, circleHeight r n < (n : Nat) := by
    have hle := circleHeight_le r (r + 1)
    exact ⟨r + 1, by omega⟩
  have hstart : ¬circleHeight r 0 < (0 : Nat) := by
    rw [circleHeight]
    omega
  obtain ⟨n, hn⟩ := Nat.exists_eq_succ_of_ne_zero fun hzero => hstart (hzero ▸ Nat.find_spec hlow)
  have hspec := Nat.find_spec hlow
  rw [hn] at hspec
  refine ⟨n, fun m hm => ?_, hspec⟩
  have hmin := Nat.find_min hlow (m := m) (by omega)
  omega

end

/-! ## Points that touch -/

/-- Two points that are the same or next to each other, also across a corner. -/
def Touches (a b : Int × Int) : Prop := (b.1 - a.1).natAbs ≤ 1 ∧ (b.2 - a.2).natAbs ≤ 1

/-- Two points with a way from one to the other. -/
def Joined (points : Set (Int × Int)) : Int × Int → Int × Int → Prop :=
  Relation.ReflTransGen fun a b => a ∈ points ∧ b ∈ points ∧ Touches a b

/-- Between any two of the points there is a way. -/
def Connected (points : Set (Int × Int)) : Prop := ∀ a ∈ points, ∀ b ∈ points, Joined points a b

/-- What is on one side of an axis or of a diagonal is also on the other. -/
structure Mirrored (points : Set (Int × Int)) : Prop where
  across : ∀ a b, (a, b) ∈ points → (-a, b) ∈ points
  along : ∀ a b, (a, b) ∈ points → (a, -b) ∈ points
  diagonal : ∀ a b, (a, b) ∈ points → (b, a) ∈ points
  antidiagonal : ∀ a b, (a, b) ∈ points → (-b, -a) ∈ points

section

variable {points : Set (Int × Int)} {a b : Int × Int}

theorem Touches.symm (h : Touches a b) : Touches b a := by
  obtain ⟨hacross, halong⟩ := h
  exact ⟨by omega, by omega⟩

theorem Joined.symm (h : Joined points a b) : Joined points b a := by
  induction h with
  | refl => exact Relation.ReflTransGen.refl
  | tail _ hstep ih => exact Relation.ReflTransGen.head ⟨hstep.2.1, hstep.1, hstep.2.2.symm⟩ ih

/-- The points that an octant becomes when it is reflected in both axes and in the diagonals. -/
def octants (height : Nat → Int) (n : Nat) : Set (Int × Int) :=
  {q | ∃ m ≤ n, (q.1.natAbs = m ∧ q.2.natAbs = (height m).natAbs) ∨
    (q.1.natAbs = (height m).natAbs ∧ q.2.natAbs = m)}

theorem octants_mirrored (height : Nat → Int) (n : Nat) : Mirrored (octants height n) where
  across := fun a b ⟨m, hm, h⟩ => ⟨m, hm, by rwa [Int.natAbs_neg]⟩
  along := fun a b ⟨m, hm, h⟩ => ⟨m, hm, by rwa [Int.natAbs_neg]⟩
  diagonal := fun a b ⟨m, hm, h⟩ => ⟨m, hm, h.symm.imp And.symm And.symm⟩
  antidiagonal := fun a b ⟨m, hm, h⟩ =>
    ⟨m, hm, by rw [Int.natAbs_neg, Int.natAbs_neg]; exact h.symm.imp And.symm And.symm⟩

end

section

variable {height : Nat → Int} {n : Nat}

/-- A sign. -/
def Direction (s : Int) : Prop := s = 1 ∨ s = -1

theorem Direction.natAbs_mul {s : Int} (hs : Direction s) (v : Int) : (s * v).natAbs = v.natAbs := by
  rcases hs with rfl | rfl
  · rw [Int.one_mul]
  · rw [Int.neg_one_mul, Int.natAbs_neg]

theorem exists_direction {x v : Int} (h : x.natAbs = v.natAbs) :
    ∃ s, Direction s ∧ x = s * v := by
  rcases Int.natAbs_eq_natAbs_iff.mp h with rfl | rfl
  · exact ⟨1, Or.inl rfl, (Int.one_mul x).symm⟩
  · exact ⟨-1, Or.inr rfl, (Int.neg_one_mul v).symm⟩

/-- Along one octant there is a way to its first point. -/
theorem joined_octant (hdown : ∀ m, height (m + 1) ≤ height m ∧ height m - 1 ≤ height (m + 1))
    {s t : Int} (hs : Direction s) (ht : Direction t) {m : Nat} (hm : m ≤ n) :
    Joined (octants height n) (s * m, t * height m) (0, t * height 0) ∧
      Joined (octants height n) (t * height m, s * m) (t * height 0, 0) := by
  have hmem (m : Nat) (hm : m ≤ n) : (s * m, t * height m) ∈ octants height n :=
    ⟨m, hm, Or.inl ⟨hs.natAbs_mul m, ht.natAbs_mul _⟩⟩
  have hmem' (m : Nat) (hm : m ≤ n) : (t * height m, s * m) ∈ octants height n :=
    (octants_mirrored height n).diagonal _ _ (hmem m hm)
  induction m with
  | zero =>
      rw [Nat.cast_zero, Int.mul_zero]
      exact ⟨Relation.ReflTransGen.refl, Relation.ReflTransGen.refl⟩
  | succ m ih =>
      obtain ⟨hway, hway'⟩ := ih (by omega)
      have hnext := hdown m
      have htouch : Touches (s * (m + 1 : Nat), t * height (m + 1)) (s * m, t * height m) := by
        constructor
        · rcases hs with rfl | rfl <;> dsimp only <;> omega
        · rcases ht with rfl | rfl <;> dsimp only <;> omega
      exact ⟨Relation.ReflTransGen.head ⟨hmem _ hm, hmem m (by omega), htouch⟩ hway,
        Relation.ReflTransGen.head ⟨hmem' _ hm, hmem' m (by omega), htouch.symm.symm.2, htouch.1⟩
          hway'⟩

/-- Octants that meet at the diagonals are connected. -/
theorem octants_connected
    (hdown : ∀ m, height (m + 1) ≤ height m ∧ height m - 1 ≤ height (m + 1))
    (habove : (n : Int) ≤ height n) (hend : height n ≤ n + 1) : Connected (octants height n) := by
  have hcorner {s t : Int} (hs : Direction s) (ht : Direction t) :
      Joined (octants height n) (0, t * height 0) (s * height 0, 0) := by
    have htouch : Touches (s * n, t * height n) (s * height n, t * n) := by
      constructor
      · rcases hs with rfl | rfl <;> dsimp only <;> omega
      · rcases ht with rfl | rfl <;> dsimp only <;> omega
    have hmem : (s * n, t * height n) ∈ octants height n :=
      ⟨n, Nat.le_refl n, Or.inl ⟨hs.natAbs_mul n, ht.natAbs_mul _⟩⟩
    have hmem' : (s * height n, t * n) ∈ octants height n :=
      ⟨n, Nat.le_refl n, Or.inr ⟨hs.natAbs_mul _, ht.natAbs_mul n⟩⟩
    exact (joined_octant hdown hs ht (Nat.le_refl n)).1.symm.trans
      (Relation.ReflTransGen.head ⟨hmem, hmem', htouch⟩
        (joined_octant hdown ht hs (Nat.le_refl n)).2)
  have hone : Direction 1 := Or.inl rfl
  have htop {q : Int × Int} (hq : q ∈ octants height n) :
      Joined (octants height n) q (0, 1 * height 0) := by
    obtain ⟨x, y⟩ := q
    obtain ⟨m, hm, ⟨hx, hy⟩ | ⟨hx, hy⟩⟩ := hq
    · obtain ⟨s, hs, rfl⟩ := exists_direction (v := m) hx
      obtain ⟨t, ht, rfl⟩ := exists_direction hy
      exact (joined_octant hdown hs ht hm).1.trans
        ((hcorner hone ht).trans (hcorner hone hone).symm)
    · obtain ⟨t, ht, rfl⟩ := exists_direction hx
      obtain ⟨s, hs, rfl⟩ := exists_direction (v := m) hy
      exact (joined_octant hdown hs ht hm).2.trans (hcorner ht hone).symm
  exact fun a ha b hb => (htop ha).trans (htop hb).symm

end

end PureOS.Foundation
