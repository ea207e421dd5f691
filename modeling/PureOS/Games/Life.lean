import PureOS.Foundation.Conway
import PureOS.Foundation.Profile

set_option autoImplicit false

/-!
# Games: the Game of Life (`gfx3d.rs`)

Two arrays of 100 by 75 bytes take turns.  A byte that is not 0 is a live cell and says how long it
has been alive, and the neighbourhood of a cell goes round the edges.
-/

namespace PureOS.Games

open PureOS.Foundation

namespace Life

/-! ## The code -/

/-- `GOL_A` and `GOL_B`. -/
structure Grids where
  a : Nat → UInt8
  b : Nat → UInt8

/-- `for ny in -1..=1 { for nx in -1..=1 {`, as pairs of `nx` and `ny`. -/
def offsets : List (Int × Int) :=
  [-1, 0, 1].flatMap fun ny => [-1, 0, 1].map fun nx => (nx, ny)

/-- `sx` and `sy`. -/
def wrap (size : Nat) (place : Nat) (offset : Int) : Nat := (place + offset + size).toNat % size

/-- `n`: at most eight. -/
def countLoop (a : Nat → UInt8) (x y : Nat) : Nat :=
  offsets.foldl (fun n o =>
    if o.1 = 0 ∧ o.2 = 0 then n
    else if a (wrap 75 y o.2 * 100 + wrap 100 x o.1) ≠ 0 then n + 1
    else n) 0

section

variable (p : Profile)

/-- `(GOL_A[idx]+1).min(255)`. -/
def older (v : UInt8) : Except Fault UInt8 :=
  if p = .checked ∧ v = 255 then .error .panic else .ok (if v + 1 ≤ 255 then v + 1 else 255)

/-- What is stored at `GOL_B[idx]`. -/
def newCell (a : Nat → UInt8) (x y : Nat) : Except Fault UInt8 :=
  let n := countLoop a x y
  if a (y * 100 + x) ≠ 0 then if n < 2 ∨ n > 3 then .ok 0 else older p (a (y * 100 + x))
  else .ok (if n = 3 then 1 else 0)

/-- The cells in the order of the loops over `y` and `x`. -/
def order : List (Nat × Nat) :=
  (List.range 75).flatMap fun y => (List.range 100).map fun x => (x, y)

/-- The loops, for the cells that are left. -/
def updateLoop (a : Nat → UInt8) : List (Nat × Nat) → (Nat → UInt8) → Except Fault (Nat → UInt8)
  | [], b => .ok b
  | (x, y) :: rest, b => do
      let v ← newCell p a x y
      updateLoop a rest (Function.update b (y * 100 + x) v)

/-- An iteration: the other array is filled, and then the arrays are swapped. -/
def generation (g : Grids) : Except Fault Grids := do
  let b ← updateLoop p g.a order g.b
  .ok ⟨b, g.a⟩

/-- A number of iterations. -/
def generations : Nat → Grids → Except Fault Grids
  | 0, g => .ok g
  | n + 1, g => do
      let g ← generations n g
      generation p g

end

/-! ## The torus -/

/-- A cell: its column and its row. -/
abbrev Place := Fin 100 × Fin 75

/-- Where a cell is in the arrays. -/
def index (c : Place) : Nat := c.2.val * 100 + c.1.val

/-- The same or next to each other, on a circle. -/
def Beside (size i j : Nat) : Prop := i = j ∨ (i + 1) % size = j ∨ (j + 1) % size = i

instance (size i j : Nat) : Decidable (Beside size i j) := inferInstanceAs (Decidable (_ ∨ _))

/-- The eight cells around a cell. -/
def around (c : Place) : Set Place := {d | d ≠ c ∧ Beside 100 c.1 d.1 ∧ Beside 75 c.2 d.2}

/-- The ages that an array says. -/
def ages (a : Nat → UInt8) (c : Place) : Nat := (a (index c)).toNat

/-- The cells of an array that are not zero. -/
def live (a : Nat → UInt8) : Set Place := {c | a (index c) ≠ 0}

/-- For this many iterations no age overflows and the cells that are not zero are the live cells of
Conway's rule, so that no age of a live cell has wrapped to zero. -/
def Simulates (p : Profile) (g : Grids) (n : Nat) : Prop :=
  ∀ j ≤ n, ∃ g', generations p j g = .ok g' ∧ live g'.a = (conway around)^[j] (live g.a)

/-! ## The neighbours that are counted -/

/-- A place as the code finds it. -/
def shift (c : Place) (o : Int × Int) : Place :=
  (⟨wrap 100 c.1 o.1, Nat.mod_lt _ (by decide)⟩, ⟨wrap 75 c.2 o.2, Nat.mod_lt _ (by decide)⟩)

/-- The places that are looked at. -/
def looked (c : Place) : List Place := (offsets.filter fun o => ¬(o.1 = 0 ∧ o.2 = 0)).map (shift c)

theorem mem_offsets {o : Int × Int} :
    o ∈ offsets ↔ (-1 ≤ o.1 ∧ o.1 ≤ 1) ∧ -1 ≤ o.2 ∧ o.2 ≤ 1 := by
  obtain ⟨nx, ny⟩ := o
  simp only [offsets, List.mem_flatMap, List.mem_map, List.mem_cons, List.not_mem_nil, or_false,
    Prod.mk.injEq]
  constructor
  · rintro ⟨y, hy, x, hx, rfl, rfl⟩
    omega
  · intro h
    exact ⟨ny, by omega, nx, by omega, rfl, rfl⟩

/-- On a circle the three steps are: back, nowhere, on. -/
theorem wrap_cases {size i : Nat} (hi : i < size) {d : Int} (hd : -1 ≤ d ∧ d ≤ 1) :
    d = -1 ∧ (i = 0 ∧ wrap size i d + 1 = size ∨ wrap size i d + 1 = i) ∨
      d = 0 ∧ wrap size i d = i ∨
      d = 1 ∧ (i + 1 = size ∧ wrap size i d = 0 ∨ i + 1 < size ∧ wrap size i d = i + 1) := by
  have hstep : d = -1 ∨ d = 0 ∨ d = 1 := by omega
  rcases hstep with rfl | rfl | rfl
  · refine Or.inl ⟨rfl, ?_⟩
    rw [wrap]
    by_cases hfirst : i = 0
    · rw [show ((i : Int) + -1 + size).toNat = size - 1 by omega, Nat.mod_eq_of_lt (by omega)]
      omega
    · rw [show ((i : Int) + -1 + size).toNat = i - 1 + size by omega, Nat.add_mod_right,
        Nat.mod_eq_of_lt (by omega)]
      omega
  · refine Or.inr (Or.inl ⟨rfl, ?_⟩)
    rw [wrap, show ((i : Int) + 0 + size).toNat = i + size by omega, Nat.add_mod_right]
    exact Nat.mod_eq_of_lt hi
  · refine Or.inr (Or.inr ⟨rfl, ?_⟩)
    rw [wrap, show ((i : Int) + 1 + size).toNat = i + 1 + size by omega, Nat.add_mod_right]
    by_cases hend : i + 1 = size
    · rw [hend, Nat.mod_self]
      exact Or.inl ⟨rfl, rfl⟩
    · exact Or.inr ⟨by omega, Nat.mod_eq_of_lt (by omega)⟩

/-- On a circle of more than two places they lead to different places. -/
theorem wrap_injective {size i : Nat} (hsize : 3 ≤ size) (hi : i < size) {d e : Int}
    (hd : -1 ≤ d ∧ d ≤ 1) (he : -1 ≤ e ∧ e ≤ 1) (h : wrap size i d = wrap size i e) : d = e := by
  have hfirst := wrap_cases hi hd
  have hsecond := wrap_cases hi he
  omega

/-- They lead to the places beside. -/
theorem beside_iff {size i j : Nat} (hi : i < size) (hj : j < size) :
    Beside size i j ↔ ∃ d : Int, (-1 ≤ d ∧ d ≤ 1) ∧ wrap size i d = j := by
  have hon : ∀ {k : Nat}, k < size → k + 1 = size ∧ (k + 1) % size = 0 ∨
      k + 1 < size ∧ (k + 1) % size = k + 1 := by
    intro k hk
    by_cases hend : k + 1 = size
    · rw [hend, Nat.mod_self]
      exact Or.inl ⟨rfl, rfl⟩
    · exact Or.inr ⟨by omega, Nat.mod_eq_of_lt (by omega)⟩
  have hi' := hon hi
  have hj' := hon hj
  unfold Beside
  constructor
  · rintro (hsame | hnext | hback)
    · have hzero := @wrap_cases _ _ hi 0 (by omega)
      exact ⟨0, by omega, by omega⟩
    · have hone := @wrap_cases _ _ hi 1 (by omega)
      exact ⟨1, by omega, by omega⟩
    · have hminus := @wrap_cases _ _ hi (-1) (by omega)
      exact ⟨-1, by omega, by omega⟩
  · rintro ⟨d, hd, rfl⟩
    have hcases := wrap_cases hi hd
    omega

theorem shift_injective (c : Place) {o o' : Int × Int} (ho : o ∈ offsets) (ho' : o' ∈ offsets)
    (h : shift c o = shift c o') : o = o' := by
  obtain ⟨hx, hy⟩ := mem_offsets.mp ho
  obtain ⟨hx', hy'⟩ := mem_offsets.mp ho'
  have hcol := congrArg (fun d : Place => d.1.val) h
  have hrow := congrArg (fun d : Place => d.2.val) h
  exact Prod.ext (wrap_injective (by decide) c.1.isLt hx hx' hcol)
    (wrap_injective (by decide) c.2.isLt hy hy' hrow)

theorem shift_zero (c : Place) : shift c (0, 0) = c := by
  have hx := @wrap_cases _ _ c.1.isLt 0 (by omega)
  have hy := @wrap_cases _ _ c.2.isLt 0 (by omega)
  apply Prod.ext
  · apply Fin.ext
    change wrap 100 c.1 0 = c.1
    omega
  · apply Fin.ext
    change wrap 75 c.2 0 = c.2
    omega

theorem nodup_looked (c : Place) : (looked c).Nodup := by
  have hoffsets : offsets.Nodup := by decide
  refine List.Nodup.map_on (fun o ho o' ho' h => ?_) (hoffsets.filter _)
  exact shift_injective c (List.mem_of_mem_filter ho) (List.mem_of_mem_filter ho') h

/-- The places that are looked at are those around the cell. -/
theorem mem_looked {c d : Place} : d ∈ looked c ↔ d ∈ around c := by
  rw [looked, List.mem_map, around, Set.mem_ofPred_eq, beside_iff c.1.isLt d.1.isLt,
    beside_iff c.2.isLt d.2.isLt]
  constructor
  · rintro ⟨o, ho, rfl⟩
    obtain ⟨hmem, hne⟩ := List.mem_filter.mp ho
    obtain ⟨hx, hy⟩ := mem_offsets.mp hmem
    refine ⟨fun hsame => ?_, ⟨o.1, hx, rfl⟩, o.2, hy, rfl⟩
    have hzero : o = (0, 0) :=
      shift_injective c hmem (mem_offsets.mpr (by decide)) (hsame.trans (shift_zero c).symm)
    rw [hzero] at hne
    exact absurd hne (by decide)
  · rintro ⟨hne, ⟨nx, hx, hcol⟩, ny, hy, hrow⟩
    have hd : shift c (nx, ny) = d := Prod.ext (Fin.ext hcol) (Fin.ext hrow)
    refine ⟨(nx, ny), List.mem_filter.mpr ⟨mem_offsets.mpr ⟨hx, hy⟩, ?_⟩, hd⟩
    refine decide_eq_true fun hzero => hne ?_
    obtain ⟨rfl, rfl⟩ : nx = 0 ∧ ny = 0 := hzero
    exact hd.symm.trans (shift_zero c)

theorem mem_live {a : Nat → UInt8} {c : Place} : c ∈ live a ↔ a (index c) ≠ 0 := Iff.rfl

/-- The number that is counted is the number of live cells around. -/
theorem countLoop_eq (a : Nat → UInt8) (c : Place) :
    countLoop a c.1 c.2 = (around c ∩ live a).ncard := by
  have hfold : ∀ (l : List (Int × Int)) (n : Nat),
      l.foldl (fun n o =>
        if o.1 = 0 ∧ o.2 = 0 then n
        else if a (wrap 75 c.2 o.2 * 100 + wrap 100 c.1 o.1) ≠ 0 then n + 1
        else n) n =
      n + (((l.filter fun o => ¬(o.1 = 0 ∧ o.2 = 0)).map (shift c)).filter
        fun d => a (index d) ≠ 0).length := by
    intro l
    induction l with
    | nil => exact fun n => rfl
    | cons o l ih =>
        intro n
        rw [List.foldl_cons, ih]
        by_cases hzero : o.1 = 0 ∧ o.2 = 0
        · rw [if_pos hzero, List.filter_cons_of_neg (by simp [hzero])]
        · have hkept : decide (¬(o.1 = 0 ∧ o.2 = 0)) = true := decide_eq_true hzero
          rw [if_neg hzero, List.filter_cons_of_pos (by exact hkept), List.map_cons]
          by_cases halive : a (index (shift c o)) ≠ 0
          · rw [List.filter_cons_of_pos (by simpa using halive), List.length_cons]
            refine (congrArg (· + _) (if_pos halive)).trans ?_
            omega
          · rw [List.filter_cons_of_neg (by simpa using halive)]
            exact congrArg (· + _) (if_neg halive)
  have hset : around c ∩ live a = ((looked c).filter fun d => a (index d) ≠ 0).toFinset := by
    ext d
    rw [Finset.mem_coe, List.mem_toFinset, List.mem_filter, Set.mem_inter_iff, mem_looked, mem_live,
      decide_eq_true_iff]
  rw [countLoop, hfold, Nat.zero_add, hset, Set.ncard_coe_finset,
    List.toFinset_card_of_nodup ((nodup_looked c).filter _)]
  rfl

/-! ## An iteration -/

section

variable {p : Profile} {a b : Nat → UInt8} {g : Grids} {j n : Nat} {c : Place}

/-- What is left of the loops stores a value in each of its cells, if none of them panics. -/
theorem updateLoop_eq {w : Nat → UInt8} {l : List (Nat × Nat)}
    (h : ∀ o ∈ l, newCell p a o.1 o.2 = .ok (w (o.2 * 100 + o.1))) (b : Nat → UInt8) :
    ∃ b', updateLoop p a l b = .ok b' ∧
      ∀ i, (b i = w i ∨ ∃ o ∈ l, o.2 * 100 + o.1 = i) → b' i = w i := by
  induction l generalizing b with
  | nil =>
      refine ⟨b, rfl, fun i hi => ?_⟩
      rcases hi with hi | ⟨o, ho, -⟩
      · exact hi
      · exact absurd ho List.not_mem_nil
  | cons o l ih =>
      obtain ⟨b', hloop, hat⟩ := ih (fun o' ho' => h o' (List.mem_cons_of_mem o ho'))
        (Function.update b (o.2 * 100 + o.1) (w (o.2 * 100 + o.1)))
      refine ⟨b', ?_, fun i hi => hat i ?_⟩
      · rw [updateLoop, h o List.mem_cons_self]
        exact hloop
      · by_cases hhere : i = o.2 * 100 + o.1
        · rw [hhere, Function.update_self]
          exact Or.inl rfl
        · rcases hi with hi | ⟨o', ho', hi⟩
          · rw [Function.update_of_ne hhere]
            exact Or.inl hi
          · rcases List.mem_cons.mp ho' with rfl | ho'
            · exact absurd hi.symm hhere
            · exact Or.inr ⟨o', ho', hi⟩

theorem mem_order {o : Nat × Nat} : o ∈ order ↔ o.1 < 100 ∧ o.2 < 75 := by
  obtain ⟨x, y⟩ := o
  simp only [order, List.mem_flatMap, List.mem_map, List.mem_range, Prod.mk.injEq]
  constructor
  · rintro ⟨y', hy, x', hx, rfl, rfl⟩
    exact ⟨hx, hy⟩
  · rintro ⟨hx, hy⟩
    exact ⟨y, hy, x, hx, rfl, rfl⟩

/-- The cell that is at an index. -/
def placeAt (i : Nat) : Place :=
  (⟨i % 100, Nat.mod_lt i (by decide)⟩, ⟨i / 100 % 75, Nat.mod_lt _ (by decide)⟩)

theorem placeAt_eq {x y : Nat} (hx : x < 100) (hy : y < 75) :
    placeAt (y * 100 + x) = (⟨x, hx⟩, ⟨y, hy⟩) := by
  apply Prod.ext
  · apply Fin.ext
    change (y * 100 + x) % 100 = x
    omega
  · apply Fin.ext
    change (y * 100 + x) / 100 % 75 = y
    omega

/-- An iteration whose cells do not panic stores the new value of every cell. -/
theorem generation_eq {w : Place → UInt8} (h : ∀ c : Place, newCell p g.a c.1 c.2 = .ok (w c)) :
    ∃ b, generation p g = .ok ⟨b, g.a⟩ ∧ ∀ c, b (index c) = w c := by
  have hcells : ∀ o ∈ order, newCell p g.a o.1 o.2 = .ok ((w ∘ placeAt) (o.2 * 100 + o.1)) := by
    intro o ho
    obtain ⟨hx, hy⟩ := mem_order.mp ho
    rw [Function.comp_apply, placeAt_eq hx hy]
    exact h (⟨o.1, hx⟩, ⟨o.2, hy⟩)
  obtain ⟨b, hloop, hb⟩ := updateLoop_eq hcells g.b
  refine ⟨b, ?_, fun c => ?_⟩
  · rw [generation, hloop]
    rfl
  · have hmem : (c.1.val, c.2.val) ∈ order := mem_order.mpr ⟨c.1.isLt, c.2.isLt⟩
    rw [hb (index c) (Or.inr ⟨_, hmem, rfl⟩), Function.comp_apply, index,
      placeAt_eq c.1.isLt c.2.isLt]

/-- Loops that end have found a new value for each of their cells. -/
theorem newCell_of_updateLoop {l : List (Nat × Nat)} {b b' : Nat → UInt8}
    (h : updateLoop p a l b = .ok b') : ∀ o ∈ l, ∃ v, newCell p a o.1 o.2 = .ok v := by
  induction l generalizing b with
  | nil => exact fun o ho => absurd ho List.not_mem_nil
  | cons o l ih =>
      obtain ⟨v, hv, hrest⟩ := bind_eq_ok h
      intro o' ho'
      rcases List.mem_cons.mp ho' with rfl | ho'
      · exact ⟨v, hv⟩
      · exact ih hrest o' ho'

/-- An iteration that ends has stored the new value of every cell. -/
theorem newCell_of_generation {g' : Grids} (h : generation p g = .ok g') (c : Place) :
    newCell p g.a c.1 c.2 = .ok (g'.a (index c)) := by
  obtain ⟨b, hloop, -⟩ := bind_eq_ok h
  have hcells : ∀ c : Place, ∃ v, newCell p g.a c.1 c.2 = .ok v := fun c =>
    newCell_of_updateLoop hloop (c.1.val, c.2.val) (mem_order.mpr ⟨c.1.isLt, c.2.isLt⟩)
  choose w hw using hcells
  obtain ⟨b', hgen, hat⟩ := generation_eq hw
  obtain rfl : ⟨b', g.a⟩ = g' := Except.ok.inj (hgen.symm.trans h)
  exact (hw c).trans (congrArg Except.ok (hat c).symm)

/-- An array whose cells have these ages. -/
def HasAges (a : Nat → UInt8) (age : Place → Nat) : Prop := ∀ c, (a (index c)).toNat = age c

/-- The cells that are not zero are the live ones. -/
theorem HasAges.live_eq {age : Place → Nat} (h : HasAges a (lifetime around age j)) :
    live a = (conway around)^[j] (aged age) := by
  ext c
  rw [mem_live, ← lifetime_ne_zero_iff, ← h c, ne_eq, ne_eq, ← UInt8.toNat_inj]
  rfl

theorem older_eq {v : UInt8} (h : v.toNat < 255) : older p v = .ok (v + 1) ∧
    (v + 1).toNat = v.toNat + 1 := by
  have hsum : (v + 1).toNat = v.toNat + 1 := by
    rw [UInt8.toNat_add]
    exact Nat.mod_eq_of_lt (by change v.toNat + 1 < 256; omega)
  have hne : v ≠ 255 := by
    rintro rfl
    exact absurd h (by decide)
  have hle : v + 1 ≤ 255 := by
    rw [UInt8.le_iff_toNat_le, hsum]
    change v.toNat + 1 ≤ 255
    omega
  refine ⟨?_, hsum⟩
  rw [older, if_neg (fun h => hne h.2), if_pos hle]

/-- Of an age that fills its byte nothing is left, in a build that does not panic. -/
theorem older_full {v : UInt8} (h : older p 255 = .ok v) : v = 0 := by
  cases p with
  | checked => exact nomatch h
  | wrapping => exact (Except.ok.inj h).symm

/-- A cell gets the age that it should have, as long as that fits a byte. -/
theorem newCell_eq {age : Place → Nat} (h : HasAges a (lifetime around age j))
    (hfits : lifetime around age (j + 1) c ≤ 255) :
    ∃ v, newCell p a c.1 c.2 = .ok v ∧ v.toNat = lifetime around age (j + 1) c := by
  have hn : countLoop a c.1 c.2 = (around c ∩ (conway around)^[j] (aged age)).ncard := by
    rw [countLoop_eq, h.live_eq]
  have hcell : a (c.2.val * 100 + c.1.val) ≠ 0 ↔ c ∈ (conway around)^[j] (aged age) := by
    rw [← h.live_eq]
    exact mem_live.symm
  have hold : (a (c.2.val * 100 + c.1.val)).toNat = lifetime around age j c := h c
  unfold newCell
  rw [hn]
  by_cases hc : c ∈ (conway around)^[j] (aged age)
  · rw [if_pos (hcell.mpr hc)]
    by_cases hstays : c ∈ conway around ((conway around)^[j] (aged age))
    · rw [lifetime_succ_of_mem hstays] at hfits ⊢
      have hcount := (mem_conway_of_mem hc).mp hstays
      obtain ⟨holder, hsum⟩ := @older_eq p (a (c.2.val * 100 + c.1.val)) (by omega)
      rw [if_neg (by omega), holder]
      exact ⟨_, rfl, hsum.trans (congrArg (· + 1) hold)⟩
    · rw [lifetime_succ_of_notMem hstays]
      have hcount := (not_congr (mem_conway_of_mem hc)).mp hstays
      rw [if_pos (by omega)]
      exact ⟨0, rfl, rfl⟩
  · have hzero : lifetime around age j c = 0 :=
      not_not.mp ((not_congr (lifetime_ne_zero_iff j)).mpr hc)
    rw [if_neg (fun h => hc (hcell.mp h))]
    by_cases hborn : c ∈ conway around ((conway around)^[j] (aged age))
    · rw [lifetime_succ_of_mem hborn, hzero, if_pos ((mem_conway_of_notMem hc).mp hborn)]
      exact ⟨1, rfl, rfl⟩
    · rw [lifetime_succ_of_notMem hborn,
        if_neg ((not_congr (mem_conway_of_notMem hc)).mp hborn)]
      exact ⟨0, rfl, rfl⟩

/-- An iteration makes every cell as old as it should be, as long as that fits a byte. -/
theorem generation_ages {age : Place → Nat} (h : HasAges g.a (lifetime around age j))
    (hfits : ∀ c, lifetime around age (j + 1) c ≤ 255) :
    ∃ g', generation p g = .ok g' ∧ HasAges g'.a (lifetime around age (j + 1)) := by
  choose w hcell hage using fun c => @newCell_eq p g.a j c age h (hfits c)
  obtain ⟨b, hgen, hb⟩ := generation_eq hcell
  exact ⟨⟨b, g.a⟩, hgen, fun c => (congrArg UInt8.toNat (hb c)).trans (hage c)⟩

/-! ## Runs -/

/-- As long as no cell gets older than a byte can say, every cell is as old as it should be. -/
theorem generations_ages (hfits : ∀ i ≤ j, ∀ c, lifetime around (ages g.a) i c ≤ 255) :
    ∃ g', generations p j g = .ok g' ∧ HasAges g'.a (lifetime around (ages g.a) j) := by
  induction j with
  | zero => exact ⟨g, rfl, fun c => rfl⟩
  | succ j ih =>
      obtain ⟨g', hrun, hages⟩ := ih fun i hi => hfits i (Nat.le_succ_of_le hi)
      obtain ⟨g'', hgen, hages'⟩ := @generation_ages p g' j _ hages (hfits (j + 1) (Nat.le_refl _))
      refine ⟨g'', ?_, hages'⟩
      rw [generations, hrun]
      exact hgen

theorem live_eq_aged (a : Nat → UInt8) : live a = aged (ages a) :=
  @HasAges.live_eq a 0 (ages a) fun _ => rfl

/-- An iteration that keeps to Conway's rule makes no cell older than a byte can say: the cell of
age 255 that stays alive would be one that is not zero. -/
theorem lifetime_succ_le {age : Place → Nat} {g' : Grids}
    (h : HasAges g.a (lifetime around age j)) (hgen : generation p g = .ok g')
    (hlive : live g'.a = (conway around)^[j + 1] (aged age)) (c : Place) :
    lifetime around age (j + 1) c ≤ 255 := by
  have hold : (g.a (index c)).toNat = lifetime around age j c := h c
  have hbyte := (g.a (index c)).toNat_lt
  by_cases hstays : c ∈ (conway around)^[j + 1] (aged age)
  · have hnext := hstays
    rw [Function.iterate_succ_apply'] at hnext
    rw [lifetime_succ_of_mem hnext]
    by_contra hmore
    have hfull : g.a (index c) = 255 := by
      rw [← UInt8.toNat_inj, hold]
      change lifetime around age j c = 255
      omega
    have hc : c ∈ (conway around)^[j] (aged age) := (lifetime_ne_zero_iff j).mp (by omega)
    have hcount := (mem_conway_of_mem hc).mp hnext
    rw [← h.live_eq, ← countLoop_eq] at hcount
    have hcell := newCell_of_generation hgen c
    rw [index] at hfull hcell
    rw [newCell, hfull, if_pos (by decide), if_neg (by omega)] at hcell
    rw [← hlive] at hstays
    exact hstays (older_full hcell)
  · have hdead := (not_congr (lifetime_ne_zero_iff (j + 1))).mpr hstays
    omega

theorem Simulates.lifetime_le (h : Simulates p g n) {i : Nat} (hi : i ≤ n) (c : Place) :
    lifetime around (ages g.a) i c ≤ 255 := by
  -- By induction on the generation: up to it the bytes hold the lifetimes.
  induction i using Nat.strong_induction_on generalizing c with
  | _ i ih =>
      cases i with
      | zero => exact Nat.le_of_lt_succ (g.a (index c)).toNat_lt
      | succ i =>
          obtain ⟨g', hrun, hages⟩ := @generations_ages p g i fun k hk c =>
            ih k (Nat.lt_succ_of_le hk) (by omega) c
          obtain ⟨g'', hgens, hlive⟩ := h (i + 1) hi
          have hgen : generation p g' = .ok g'' := by
            rw [generations, hrun] at hgens
            exact hgens
          rw [live_eq_aged g.a] at hlive
          exact lifetime_succ_le hages hgen hlive c

end

/-- For any number of iterations the arrays follow Conway's rule on the torus exactly if no cell gets
older than 255. -/
theorem simulates_iff (p : Profile) (g : Grids) (n : Nat) :
    Simulates p g n ↔ ∀ j ≤ n, ∀ c, lifetime around (ages g.a) j c ≤ 255 := by
  constructor
  · exact fun h j hj c => h.lifetime_le hj c
  · intro h j hj
    obtain ⟨g', hrun, hages⟩ := @generations_ages p g j fun i hi => h i (Nat.le_trans hi hj)
    refine ⟨g', hrun, ?_⟩
    rw [hages.live_eq, live_eq_aged]

/-! ## Stripes -/

/-- Every second column is alive. -/
def stripes : Grids where
  a i := if i % 2 = 0 then 1 else 0
  b _ := 0

/-- A live column has two live neighbours and a dead one has six. -/
theorem countLoop_stripes (c : Place) :
    countLoop stripes.a c.1 c.2 = if c.1.val % 2 = 0 then 2 else 6 := by
  have hcell : ∀ o ∈ offsets, (stripes.a (wrap 75 c.2 o.2 * 100 + wrap 100 c.1 o.1) ≠ 0 ↔
      (c.1.val % 2 = 0 ↔ o.1 = 0)) := by
    intro o ho
    have hcases := wrap_cases c.1.isLt (mem_offsets.mp ho).1
    change (if (wrap 75 c.2 o.2 * 100 + wrap 100 c.1 o.1) % 2 = 0 then 1 else 0 : UInt8) ≠ 0 ↔ _
    split
    · exact iff_of_true (by decide) (by omega)
    · exact iff_of_false (by decide) (by omega)
  have hloop : countLoop stripes.a c.1 c.2 = offsets.foldl (fun n o =>
      if o.1 = 0 ∧ o.2 = 0 then n else if c.1.val % 2 = 0 ↔ o.1 = 0 then n + 1 else n) 0 :=
    List.foldl_ext _ _ _ fun n o ho => by simp only [hcell o ho]
  rw [hloop]
  by_cases hx : c.1.val % 2 = 0
  · simp only [hx, true_iff, if_true]
    decide
  · simp only [hx, false_iff, if_false]
    decide

/-- The stripes do not change. -/
theorem conway_stripes : conway around (aged (ages stripes.a)) = aged (ages stripes.a) := by
  ext c
  have hlive : c ∈ aged (ages stripes.a) ↔ c.1.val % 2 = 0 := by
    rw [mem_aged, ages, index]
    change (if (c.2.val * 100 + c.1.val) % 2 = 0 then 1 else 0 : UInt8).toNat ≠ 0 ↔ _
    split
    · rename_i heven
      exact iff_of_true (by decide) (by omega)
    · rename_i hodd
      exact iff_of_false (by decide) (by omega)
  have hcount := countLoop_stripes c
  rw [countLoop_eq, live_eq_aged] at hcount
  by_cases hc : c ∈ aged (ages stripes.a)
  · rw [if_pos (hlive.mp hc)] at hcount
    exact iff_of_true ((mem_conway_of_mem hc).mpr (Or.inl hcount)) hc
  · rw [if_neg (fun h => hc (hlive.mpr h))] at hcount
    refine iff_of_false (fun h => ?_) hc
    have hthree := (mem_conway_of_notMem hc).mp h
    omega

/-- The stripes get too old. -/
theorem not_simulates : ¬∀ (p : Profile) (g : Grids) (n : Nat), n ≤ 500 → Simulates p g n := by
  intro hall
  have hzero : ages stripes.a (0, 0) = 1 := rfl
  have hc : (0, 0) ∈ aged (ages stripes.a) := mem_aged.mpr (by rw [hzero]; decide)
  have hage := (hall .wrapping stripes 500 (Nat.le_refl _)).lifetime_le
    (show 255 ≤ 500 by decide) (0, 0)
  rw [lifetime_of_still conway_stripes hc, hzero] at hage
  exact absurd hage (by decide)

end Life

end PureOS.Games
