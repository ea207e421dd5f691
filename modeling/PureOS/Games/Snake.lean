import Mathlib.Data.List.Chain
import Mathlib.Data.List.Nodup
import Mathlib.Logic.Function.Iterate
import PureOS.Foundation.Bytes
import PureOS.Foundation.Profile

set_option autoImplicit false

/-!
# Games: the snake (`snake_game.rs`)

The body is an array of 128 cells of which the first `len` are the snake.  In each frame the keys
turn it, it moves by one cell, and when it eats it is one cell longer and the food gets another
place.
-/

namespace PureOS.Games

open PureOS.Foundation

/-- A cell of the field: its column and its row. -/
abbrev Cell := UInt8 × UInt8

/-! ## The code -/

/-- `Dir`. -/
inductive Dir where
  | up | down | left | right
  deriving DecidableEq

/-- The variables of a game. -/
structure Snake where
  body : Nat → Cell
  len : Nat
  dir : Dir
  food : Cell
  score : UInt32

namespace Snake

/-- The snake: `body[..len]`. -/
def cells (g : Snake) : List Cell := slice g.body 0 g.len

/-- A game begins. -/
def start : Snake where
  body i := if i = 0 then (14, 9) else if i = 1 then (13, 9) else if i = 2 then (12, 9) else (0, 0)
  len := 3
  dir := .right
  food := (7, 7)
  score := 0

/-- The `match` on a key: the direction behind it, or the end of the game. -/
def turnKey (dir : Dir) (key : UInt8) : Option Dir :=
  if (key = ch 'w' ∨ key = ch 'W') ∧ dir ≠ .down then some .up
  else if (key = ch 's' ∨ key = ch 'S') ∧ dir ≠ .up then some .down
  else if (key = ch 'a' ∨ key = ch 'A') ∧ dir ≠ .right then some .left
  else if (key = ch 'd' ∨ key = ch 'D') ∧ dir ≠ .left then some .right
  else if key = ch 'q' ∨ key = ch 'Q' then none
  else some dir

/-- The cell in front of the head. -/
def nextCell : Dir → Cell → Cell
  | .up, (x, y) => (x, y - 1)
  | .down, (x, y) => (x, y + 1)
  | .left, (x, y) => (x - 1, y)
  | .right, (x, y) => (x + 1, y)

/-- `for i in (1..len).rev() { body[i] = body[i - 1]; }`, for `n = len - 1`. -/
def shiftLoop : Nat → (Nat → Cell) → Nat → Cell
  | 0, body => body
  | n + 1, body => shiftLoop n (Function.update body (n + 1) (body n))

/-- A place for the food is followed by this one. -/
def nextFood (food : Cell) : Cell := ((food.1 + 7) % (28 - 1) + 1, (food.2 + 11) % (18 - 1) + 1)

/-- The loop `'place`, with a bound on its turns. -/
def placeLoop (cells : List Cell) : Nat → Cell → Except Fault Cell
  | 0, _ => .error .fuel
  | n + 1, food => if nextFood food ∈ cells then placeLoop cells n (nextFood food)
      else .ok (nextFood food)

section

variable (p : Profile)

/-- A turn of the loop `'game`: the frame that it draws, or nothing when the game is over. -/
def step (g : Snake) (keys : List UInt8) : Except Fault (Option Snake) :=
  match keys.foldlM turnKey g.dir with
  | none => .ok none
  | some dir =>
      let new := nextCell dir (g.body 0)
      if new.1 ≥ 28 ∨ new.2 ≥ 18 then .ok none
      else if new ∈ g.cells then .ok none
      else
        let body := Function.update (shiftLoop (g.len - 1) g.body) 0 new
        if new = g.food then do
          let score ← p.add g.score 1
          let len := if g.len < 128 then g.len + 1 else g.len
          let food ← placeLoop (slice body 0 len) 129 g.food
          .ok (some ⟨body, len, dir, food, score⟩)
        else .ok (some ⟨body, g.len, dir, g.food, g.score⟩)

/-- The frames that are drawn, for the keys that arrive before each of them. -/
def play : Snake → List (List UInt8) → List Snake
  | _, [] => []
  | g, keys :: batches =>
      match step p g keys with
      | .ok (some g') => g' :: play g' batches
      | _ => []

end

/-! ## What should hold -/

/-- A cell of the field. -/
def InGrid (c : Cell) : Prop := c.1.toNat < 28 ∧ c.2.toNat < 18

instance (c : Cell) : Decidable (InGrid c) := inferInstanceAs (Decidable (_ ∧ _))

/-- Two cells with a side in common. -/
def NextTo (a b : Cell) : Prop :=
  a.1 = b.1 ∧ (a.2.toNat + 1 = b.2.toNat ∨ b.2.toNat + 1 = a.2.toNat) ∨
    a.2 = b.2 ∧ (a.1.toNat + 1 = b.1.toNat ∨ b.1.toNat + 1 = a.1.toNat)

instance (a b : Cell) : Decidable (NextTo a b) := inferInstanceAs (Decidable (_ ∨ _))

/-- Different cells of the field, each next to the following one. -/
structure IsPath (cells : List Cell) : Prop where
  inGrid : ∀ c ∈ cells, InGrid c
  distinct : cells.Nodup
  chain : cells.IsChain NextTo

/-- What should hold of a frame. -/
structure Good (g : Snake) : Prop where
  path : IsPath g.cells
  foodIn : InGrid g.food
  foodFree : g.food ∉ g.cells

/-- When the snake eats and grows, the cell behind its end is next to the corner of the field that
the array is filled with, and the corner is not on the snake. -/
def Careful (g : Snake) (keys : List UInt8) : Prop :=
  ∀ dir, keys.foldlM turnKey g.dir = some dir → nextCell dir (g.body 0) = g.food → g.len < 128 →
    NextTo (g.body (g.len - 2)) (0, 0) ∧
      (0, 0) ∉ nextCell dir (g.body 0) :: slice g.body 0 (g.len - 1)

/-- A run all frames of which are drawn from a state that meets the condition. -/
def CarefulRun (p : Profile) : Snake → List (List UInt8) → Prop
  | _, [] => True
  | g, keys :: batches =>
      match step p g keys with
      | .ok (some g') => Careful g keys ∧ CarefulRun p g' batches
      | _ => True

/-! ## Places for the food -/

/-- Where the food can be: no place in the first column or the first row. -/
def InField (food : Cell) : Prop :=
  (1 ≤ food.1.toNat ∧ food.1.toNat ≤ 27) ∧ 1 ≤ food.2.toNat ∧ food.2.toNat ≤ 17

instance (food : Cell) : Decidable (InField food) := inferInstanceAs (Decidable (_ ∧ _))

theorem toNat_nextFood {food : Cell} (h : InField food) :
    (nextFood food).1.toNat = (food.1.toNat + 7) % 27 + 1 ∧
      (nextFood food).2.toNat = (food.2.toNat + 11) % 17 + 1 := by
  obtain ⟨hx, hy⟩ := h
  constructor
  · have hsum : (food.1 + 7).toNat = food.1.toNat + 7 := by
      rw [UInt8.toNat_add]
      exact Nat.mod_eq_of_lt (by change food.1.toNat + 7 < 256; omega)
    rw [nextFood, UInt8.toNat_add, UInt8.toNat_mod, hsum]
    change ((food.1.toNat + 7) % 27 + 1) % 256 = _
    omega
  · have hsum : (food.2 + 11).toNat = food.2.toNat + 11 := by
      rw [UInt8.toNat_add]
      exact Nat.mod_eq_of_lt (by change food.2.toNat + 11 < 256; omega)
    rw [nextFood, UInt8.toNat_add, UInt8.toNat_mod, hsum]
    change ((food.2.toNat + 11) % 17 + 1) % 256 = _
    omega

/-- The places go round all columns and all rows. -/
theorem toNat_iterate {food : Cell} (h : InField food) (k : Nat) :
    (nextFood^[k] food).1.toNat = (food.1.toNat - 1 + 8 * k) % 27 + 1 ∧
      (nextFood^[k] food).2.toNat = (food.2.toNat - 1 + 12 * k) % 17 + 1 := by
  induction k with
  | zero =>
      obtain ⟨hx, hy⟩ := h
      rw [Function.iterate_zero_apply]
      omega
  | succ k ih =>
      have hfield : InField (nextFood^[k] food) := by
        unfold InField
        omega
      obtain ⟨hx, hy⟩ := toNat_nextFood hfield
      rw [Function.iterate_succ_apply', hx, hy]
      omega

theorem inField_iterate {food : Cell} (h : InField food) (k : Nat) :
    InField (nextFood^[k] food) := by
  obtain ⟨hx, hy⟩ := toNat_iterate h k
  unfold InField
  omega

/-- The numbers of columns and rows have no factor in common with the steps and with each other: no
place comes again before all of them have been there. -/
theorem iterate_injective {food : Cell} (h : InField food) {j k : Nat} (hj : j < 459) (hk : k < 459)
    (hsame : nextFood^[j] food = nextFood^[k] food) : j = k := by
  obtain ⟨hjx, hjy⟩ := toNat_iterate h j
  obtain ⟨hkx, hky⟩ := toNat_iterate h k
  rw [hsame] at hjx hjy
  omega

/-- Among more places than there are elements one is none of them. -/
theorem exists_notMem {α : Type} {places : Nat → α} {n : Nat} {xs : List α}
    (hinj : ∀ j < n, ∀ k < n, places j = places k → j = k) (hlen : xs.length < n) :
    ∃ k < n, places k ∉ xs := by
  by_contra hall
  have hsub : ((List.range n).map places) ⊆ xs := by
    intro c hc
    obtain ⟨k, hk, rfl⟩ := List.mem_map.mp hc
    by_contra hnot
    exact hall ⟨k, List.mem_range.mp hk, hnot⟩
  have hnodup : ((List.range n).map places).Nodup := by
    refine List.Nodup.map_on (fun j hj k hk hsame => ?_) List.nodup_range
    exact hinj j (List.mem_range.mp hj) k (List.mem_range.mp hk) hsame
  have hle := List.Nodup.length_le_of_subset hnodup hsub
  rw [List.length_map, List.length_range] at hle
  omega

/-- The loop ends at the first place that is free. -/
theorem placeLoop_eq {cells : List Cell} {k : Nat} {food : Cell}
    (htaken : ∀ j < k, nextFood^[j + 1] food ∈ cells) (hfree : nextFood^[k + 1] food ∉ cells)
    {n : Nat} (hn : k < n) : placeLoop cells n food = .ok (nextFood^[k + 1] food) := by
  induction k generalizing food n with
  | zero =>
      obtain ⟨n, rfl⟩ := Nat.exists_eq_add_of_lt hn
      exact if_neg hfree
  | succ k ih =>
      obtain ⟨n, rfl⟩ := Nat.exists_eq_add_of_lt hn
      have hfirst : nextFood food ∈ cells := htaken 0 (Nat.succ_pos k)
      rw [placeLoop, if_pos hfirst]
      exact ih (fun j hj => htaken (j + 1) (by omega)) hfree (by omega)

/-- For every snake that fits the array and every place of the food the loop ends, at a place that
is free, within 129 turns. -/
theorem exists_place {cells : List Cell} (hlen : cells.length ≤ 128) {food : Cell}
    (h : InField food) :
    ∃ place, InField place ∧ place ∉ cells ∧
      ∀ fuel, 129 ≤ fuel → placeLoop cells fuel food = .ok place := by
  have hinj : ∀ j < 129, ∀ k < 129,
      nextFood^[j + 1] food = nextFood^[k + 1] food → j = k := by
    intro j hj k hk hsame
    have hjk := iterate_injective h (by omega) (by omega) hsame
    omega
  have hsome := exists_notMem hinj (Nat.lt_succ_of_le hlen)
  have hfirst : ∃ k, nextFood^[k + 1] food ∉ cells := by
    obtain ⟨k, -, hfree⟩ := hsome
    exact ⟨k, hfree⟩
  have hlt : Nat.find hfirst < 129 := by
    obtain ⟨k, hk, hfree⟩ := hsome
    exact Nat.lt_of_le_of_lt (Nat.find_min' hfirst hfree) hk
  refine ⟨nextFood^[Nat.find hfirst + 1] food, inField_iterate h _, Nat.find_spec hfirst, ?_⟩
  intro fuel hfuel
  refine placeLoop_eq (fun j hj => ?_) (Nat.find_spec hfirst) (by omega)
  exact Decidable.byContradiction (Nat.find_min hfirst hj)

/-! ## A move -/

theorem shiftLoop_apply (n : Nat) (body : Nat → Cell) (i : Nat) :
    shiftLoop n body i = if 1 ≤ i ∧ i ≤ n then body (i - 1) else body i := by
  induction n generalizing body with
  | zero => rw [shiftLoop, if_neg (by omega)]
  | succ n ih =>
      rw [shiftLoop, ih]
      by_cases hlast : i = n + 1
      · subst hlast
        rw [if_neg (by omega), if_pos (by omega), Function.update_self, Nat.add_sub_cancel]
      · rw [Function.update_of_ne hlast]
        by_cases hin : 1 ≤ i ∧ i ≤ n
        · rw [if_pos hin, if_pos (by omega), Function.update_of_ne (by omega)]
        · rw [if_neg hin, if_neg (by omega)]

/-- The body after a move. -/
def moved (g : Snake) (new : Cell) : Nat → Cell :=
  Function.update (shiftLoop (g.len - 1) g.body) 0 new

section

variable {g g' : Snake} {new : Cell} {p : Profile} {keys : List UInt8}

theorem slice_moved (h : 1 ≤ g.len) (new : Cell) :
    slice (g.moved new) 0 g.len = new :: slice g.body 0 (g.len - 1) := by
  apply List.ext_getElem
  · rw [List.length_cons, length_slice, length_slice]
    omega
  · intro i hi hi'
    rw [length_slice] at hi
    rw [getElem_slice, Nat.zero_add, moved]
    cases i with
    | zero => rw [Function.update_self, List.getElem_cons_zero]
    | succ i =>
        rw [Function.update_of_ne (by omega), shiftLoop_apply, if_pos (by omega),
          List.getElem_cons_succ, getElem_slice, Nat.zero_add]
        rfl

theorem moved_behind (h : 1 ≤ g.len) {i : Nat} (hi : g.len ≤ i) : g.moved new i = g.body i := by
  rw [moved, Function.update_of_ne (by omega), shiftLoop_apply, if_neg (by omega)]

/-- The cell in front of the head is next to it, unless the field ends there. -/
theorem nextTo_nextCell {dir : Dir} {c : Cell} (hc : InGrid c) (hnew : InGrid (nextCell dir c)) :
    NextTo (nextCell dir c) c := by
  obtain ⟨x, y⟩ := c
  obtain ⟨hx, hy⟩ := hc
  obtain ⟨hx', hy'⟩ := hnew
  cases dir with
  | up =>
      simp only [nextCell, UInt8.toNat_sub] at hx hy hy' ⊢
      refine Or.inl ⟨rfl, Or.inl ?_⟩
      rw [UInt8.toNat_sub]
      change (2 ^ 8 - 1 + y.toNat) % 2 ^ 8 < 18 at hy'
      change (2 ^ 8 - 1 + y.toNat) % 2 ^ 8 + 1 = y.toNat
      omega
  | down =>
      simp only [nextCell, UInt8.toNat_add] at hx hy hy' ⊢
      refine Or.inl ⟨rfl, Or.inr ?_⟩
      rw [UInt8.toNat_add]
      change y.toNat + 1 = (y.toNat + 1) % 2 ^ 8
      omega
  | left =>
      simp only [nextCell, UInt8.toNat_sub] at hx hy hx' ⊢
      refine Or.inr ⟨rfl, Or.inl ?_⟩
      rw [UInt8.toNat_sub]
      change (2 ^ 8 - 1 + x.toNat) % 2 ^ 8 < 28 at hx'
      change (2 ^ 8 - 1 + x.toNat) % 2 ^ 8 + 1 = x.toNat
      omega
  | right =>
      simp only [nextCell, UInt8.toNat_add] at hx hy hx' ⊢
      refine Or.inr ⟨rfl, Or.inr ?_⟩
      rw [UInt8.toNat_add]
      change x.toNat + 1 = (x.toNat + 1) % 2 ^ 8
      omega

/-- What a frame is drawn after: the snake has moved to a cell that is free, and has eaten or not. -/
theorem step_cases (h : step p g keys = .ok (some g')) :
    ∃ dir, keys.foldlM turnKey g.dir = some dir ∧ InGrid (nextCell dir (g.body 0)) ∧
      nextCell dir (g.body 0) ∉ g.cells ∧
      (nextCell dir (g.body 0) ≠ g.food ∧ g'.food = g.food ∧ g'.len = g.len ∨
        nextCell dir (g.body 0) = g.food ∧ g'.len = (if g.len < 128 then g.len + 1 else g.len) ∧
          placeLoop (slice g'.body 0 g'.len) 129 g.food = .ok g'.food) ∧
      g'.body = g.moved (nextCell dir (g.body 0)) := by
  unfold step at h
  split at h
  · cases h
  · rename_i dir hdir
    dsimp only at h
    split at h
    · cases h
    · rename_i hgrid
      split at h
      · cases h
      · rename_i hfree
        have hin : InGrid (nextCell dir (g.body 0)) := by
          obtain ⟨hx, hy⟩ := not_or.mp hgrid
          exact ⟨Nat.lt_of_not_le hx, Nat.lt_of_not_le hy⟩
        refine ⟨dir, hdir, hin, hfree, ?_⟩
        split at h
        · rename_i heaten
          obtain ⟨score, -, h⟩ := bind_eq_ok h
          obtain ⟨food, hplace, h⟩ := bind_eq_ok h
          obtain rfl := Option.some.inj (Except.ok.inj h)
          exact ⟨Or.inr ⟨heaten, rfl, hplace⟩, rfl⟩
        · rename_i hhungry
          obtain rfl := Option.some.inj (Except.ok.inj h)
          exact ⟨Or.inl ⟨hhungry, rfl, rfl⟩, rfl⟩

/-! ## Paths -/

variable {c : Cell} {cells : List Cell}

theorem IsPath.cons (h : IsPath cells) (hc : InGrid c) (hfree : c ∉ cells)
    (hnext : ∀ d ∈ cells.head?, NextTo c d) : IsPath (c :: cells) where
  inGrid := List.forall_mem_cons.mpr ⟨hc, h.inGrid⟩
  distinct := List.nodup_cons.mpr ⟨hfree, h.distinct⟩
  chain := List.isChain_cons.mpr ⟨hnext, h.chain⟩

/-- A path goes on with a cell that is free and next to its last one. -/
theorem isPath_concat_iff (hc : InGrid c) :
    IsPath (cells ++ [c]) ↔
      IsPath cells ∧ c ∉ cells ∧ ∀ d ∈ cells.getLast?, NextTo d c := by
  constructor
  · intro h
    obtain ⟨hchain, -, hlast⟩ := List.isChain_append.mp h.chain
    have hdistinct := List.nodup_append.mp h.distinct
    refine ⟨⟨fun d hd => h.inGrid d (List.mem_append_left _ hd), hdistinct.1, hchain⟩, ?_, ?_⟩
    · intro hmem
      exact hdistinct.2.2 c hmem c List.mem_cons_self rfl
    · intro d hd
      exact hlast d hd c rfl
  · rintro ⟨h, hfree, hlast⟩
    refine ⟨?_, ?_, ?_⟩
    · intro d hd
      rcases List.mem_append.mp hd with hd | hd
      · exact h.inGrid d hd
      · rw [List.mem_singleton.mp hd]
        exact hc
    · refine List.nodup_append.mpr ⟨h.distinct, List.nodup_singleton c, ?_⟩
      rintro d hd e he rfl
      rw [List.mem_singleton.mp he] at hd
      exact hfree hd
    · refine List.isChain_append.mpr ⟨h.chain, List.isChain_singleton c, ?_⟩
      intro d hd e he
      obtain rfl := Option.some.inj he
      exact hlast d hd

theorem IsPath.take (h : IsPath cells) (n : Nat) : IsPath (cells.take n) where
  inGrid d hd := h.inGrid d (List.mem_of_mem_take hd)
  distinct := h.distinct.sublist (List.take_sublist n cells)
  chain := h.chain.take n

/-! ## The game -/

/-- In every frame all cells but the last one are a path, the array behind the snake is as it was
filled, and the food is in the field and not on the snake. -/
structure Inv (g : Snake) : Prop where
  lenLo : 3 ≤ g.len
  lenHi : g.len ≤ 128
  path : IsPath (slice g.body 0 (g.len - 1))
  blank : ∀ i, g.len ≤ i → g.body i = (0, 0)
  foodIn : InField g.food
  foodFree : g.food ∉ g.cells

theorem inv_start : start.Inv where
  lenLo := Nat.le_refl 3
  lenHi := by
    change 3 ≤ 128
    omega
  path := by
    have hcells : slice start.body 0 (start.len - 1) = [(14, 9), (13, 9)] := rfl
    rw [hcells]
    refine ⟨fun c hc => ?_, by decide, by decide⟩
    rcases List.mem_pair.mp hc with rfl | rfl
    · decide
    · decide
  blank i hi := by
    have hlen : 3 ≤ i := hi
    simp only [start]
    rw [if_neg (by omega), if_neg (by omega), if_neg (by omega)]
  foodIn := by decide
  foodFree := by decide

theorem InField.inGrid {food : Cell} (h : InField food) : InGrid food := by
  obtain ⟨hx, hy⟩ := h
  exact ⟨by omega, by omega⟩

/-- After a move the cells that moved are a path. -/
theorem Inv.moved_path (h : g.Inv) {dir : Dir} (hin : InGrid (nextCell dir (g.body 0)))
    (hfree : nextCell dir (g.body 0) ∉ g.cells) :
    IsPath (slice (g.moved (nextCell dir (g.body 0))) 0 g.len) := by
  have hlen := h.lenLo
  have hhead : (slice g.body 0 (g.len - 1)).head? = some (g.body 0) := by
    rw [List.head?_eq_getElem?, List.getElem?_eq_getElem (by rw [length_slice]; omega), getElem_slice]
  have hmem : g.body 0 ∈ slice g.body 0 (g.len - 1) := List.mem_of_mem_head? hhead
  rw [slice_moved (by omega)]
  refine h.path.cons hin (fun hmem => hfree ?_) ?_
  · have htake : slice g.body 0 (g.len - 1) = g.cells.take (g.len - 1) :=
      (take_slice g.body (by omega)).symm
    rw [htake] at hmem
    exact List.mem_of_mem_take hmem
  · intro d hd
    rw [hhead] at hd
    obtain rfl := Option.some.inj hd
    exact nextTo_nextCell (h.path.inGrid _ hmem) hin

/-- The last cell of a snake that has moved is where the one before the last was. -/
theorem getLast_moved (h : 3 ≤ g.len) (new : Cell) :
    (slice (g.moved new) 0 g.len).getLast? = some (g.body (g.len - 2)) := by
  rw [slice_moved (by omega), show g.len - 1 = g.len - 2 + 1 by omega, slice_succ, Nat.zero_add,
    ← List.cons_append, List.getLast?_concat]

/-- The condition of a step says that the snake is a path with the cell that it grows by. -/
theorem careful_iff (h : g.Inv) {dir : Dir} (hdir : keys.foldlM turnKey g.dir = some dir)
    (hin : InGrid (nextCell dir (g.body 0))) (hfree : nextCell dir (g.body 0) ∉ g.cells)
    (heaten : nextCell dir (g.body 0) = g.food) (hroom : g.len < 128) :
    IsPath (slice (g.moved (nextCell dir (g.body 0))) 0 (g.len + 1)) ↔ Careful g keys := by
  have hlen := h.lenLo
  have hlast : g.moved (nextCell dir (g.body 0)) (0 + g.len) = (0, 0) := by
    rw [Nat.zero_add, moved_behind (by omega) (Nat.le_refl _), h.blank _ (Nat.le_refl _)]
  rw [slice_succ, hlast, isPath_concat_iff (by decide), getLast_moved hlen]
  constructor
  · rintro ⟨-, hcorner, hnext⟩ dir' hdir' - -
    obtain rfl := Option.some.inj (hdir.symm.trans hdir')
    rw [slice_moved (by omega)] at hcorner
    exact ⟨hnext _ rfl, hcorner⟩
  · intro hcareful
    obtain ⟨hnext, hcorner⟩ := hcareful dir hdir heaten hroom
    refine ⟨h.moved_path hin hfree, ?_, fun d hd => ?_⟩
    · rw [slice_moved (by omega)]
      exact hcorner
    · obtain rfl := Option.some.inj hd
      exact hnext

/-- What a step does to a game in which the food is not reached. -/
theorem Inv.step_hungry (h : g.Inv) {dir : Dir} (hin : InGrid (nextCell dir (g.body 0)))
    (hfree : nextCell dir (g.body 0) ∉ g.cells) (hhungry : nextCell dir (g.body 0) ≠ g.food)
    (hbody : g'.body = g.moved (nextCell dir (g.body 0))) (hlen : g'.len = g.len)
    (hfood : g'.food = g.food) : g'.Inv ∧ g'.Good := by
  have hlo := h.lenLo
  have hpath := h.moved_path hin hfree
  have hcells : g'.cells = nextCell dir (g.body 0) :: slice g.body 0 (g.len - 1) := by
    rw [cells, hbody, hlen, slice_moved (by omega)]
  have hfoodFree : g'.food ∉ g'.cells := by
    rw [hcells, hfood]
    intro hmem
    rcases List.mem_cons.mp hmem with hnew | hold
    · exact hhungry hnew.symm
    · have htake : slice g.body 0 (g.len - 1) = g.cells.take (g.len - 1) :=
        (take_slice g.body (by omega)).symm
      rw [htake] at hold
      exact h.foodFree (List.mem_of_mem_take hold)
  have hfoodIn : InField g'.food := hfood ▸ h.foodIn
  constructor
  · refine ⟨hlen ▸ hlo, hlen ▸ h.lenHi, ?_, fun i hi => ?_, hfoodIn, hfoodFree⟩
    · rw [hbody, hlen, ← take_slice _ (show g.len - 1 ≤ g.len by omega)]
      exact hpath.take _
    · rw [hlen] at hi
      rw [hbody, moved_behind (by omega) hi, h.blank i hi]
  · refine ⟨?_, hfoodIn.inGrid, hfoodFree⟩
    rw [cells, hbody, hlen]
    exact hpath

/-- What a step does to a game in which the snake eats. -/
theorem Inv.step_eaten (h : g.Inv) {dir : Dir} (hin : InGrid (nextCell dir (g.body 0)))
    (hfree : nextCell dir (g.body 0) ∉ g.cells)
    (hbody : g'.body = g.moved (nextCell dir (g.body 0)))
    (hlen : g'.len = if g.len < 128 then g.len + 1 else g.len)
    (hplace : placeLoop (slice g'.body 0 g'.len) 129 g.food = .ok g'.food) :
    g'.Inv ∧ (g'.Good ↔ IsPath (slice (g.moved (nextCell dir (g.body 0))) 0 g'.len)) := by
  have hlo := h.lenLo
  have hhi := h.lenHi
  have hpath := h.moved_path hin hfree
  have hbounds : g.len ≤ g'.len ∧ g'.len ≤ 128 ∧ g'.len - 1 ≤ g.len := by
    rw [hlen]
    split <;> omega
  obtain ⟨place, hplaceIn, hplaceFree, hloop⟩ :=
    @exists_place (slice g'.body 0 g'.len) (by rw [length_slice]; omega) g.food h.foodIn
  obtain rfl := Except.ok.inj ((hloop 129 (Nat.le_refl _)).symm.trans hplace)
  constructor
  · refine ⟨by omega, hbounds.2.1, ?_, fun i hi => ?_, hplaceIn, hplaceFree⟩
    · rw [hbody, ← take_slice _ hbounds.2.2]
      exact hpath.take _
    · rw [hbody, moved_behind (by omega) (by omega), h.blank i (by omega)]
  · constructor
    · intro hgood
      have hcells := hgood.path
      rwa [cells, hbody] at hcells
    · intro hcells
      refine ⟨?_, hplaceIn.inGrid, hplaceFree⟩
      rw [cells, hbody]
      exact hcells

/-- A frame is as it should be exactly if its step meets the condition. -/
theorem Inv.step (h : g.Inv) (hstep : step p g keys = .ok (some g')) :
    g'.Inv ∧ (g'.Good ↔ Careful g keys) := by
  obtain ⟨dir, hdir, hin, hfree, ⟨hhungry, hfood, hlen⟩ | ⟨heaten, hlen, hplace⟩, hbody⟩ :=
    step_cases hstep
  · obtain ⟨hinv, hgood⟩ := h.step_hungry hin hfree hhungry hbody hlen hfood
    refine ⟨hinv, fun _ dir' hdir' heaten => ?_, fun _ => hgood⟩
    obtain rfl := Option.some.inj (hdir.symm.trans hdir')
    exact absurd heaten hhungry
  · obtain ⟨hinv, hgood⟩ := h.step_eaten hin hfree hbody hlen hplace
    refine ⟨hinv, hgood.trans ?_⟩
    by_cases hroom : g.len < 128
    · rw [hlen, if_pos hroom]
      exact careful_iff h hdir hin hfree heaten hroom
    · rw [hlen, if_neg hroom]
      exact ⟨fun _ _ _ _ hlt => absurd hlt hroom, fun _ => h.moved_path hin hfree⟩

end

/-! ## Runs -/

/-- All frames of a run are as they should be exactly if its steps meet the condition. -/
theorem Inv.play {g : Snake} (h : g.Inv) (p : Profile) (batches : List (List UInt8)) :
    (∀ f ∈ play p g batches, f.Inv) ∧
      ((∀ f ∈ play p g batches, f.Good) ↔ CarefulRun p g batches) := by
  induction batches generalizing g with
  | nil => exact ⟨fun f hf => absurd hf List.not_mem_nil,
      fun _ => trivial, fun _ f hf => absurd hf List.not_mem_nil⟩
  | cons keys batches ih =>
      rw [Snake.play, CarefulRun]
      split
      · rename_i g' hstep
        obtain ⟨hinv, hgood⟩ := h.step hstep
        obtain ⟨hrest, hiff⟩ := ih hinv
        refine ⟨List.forall_mem_cons.mpr ⟨hinv, hrest⟩, ?_⟩
        rw [List.forall_mem_cons, hgood, hiff]
      · exact ⟨fun f hf => absurd hf List.not_mem_nil,
          fun _ => trivial, fun _ f hf => absurd hf List.not_mem_nil⟩

/-- In a game all frames are as they should be exactly if the snake, whenever it grows, is next to
the corner that the array is filled with; and from every place that the food gets to the loop that
places it ends, for every snake that fits the array. -/
theorem play_good_iff (p : Profile) (batches : List (List UInt8)) :
    ((∀ f ∈ play p start batches, f.Good) ↔ CarefulRun p start batches) ∧
      ∀ f ∈ start :: play p start batches, ∀ cells : List Cell, cells.length ≤ 128 →
        ∃ place, place ∉ cells ∧ ∀ fuel, 129 ≤ fuel → placeLoop cells fuel f.food = .ok place := by
  obtain ⟨hinv, hiff⟩ := inv_start.play p batches
  refine ⟨hiff, fun f hf cells hlen => ?_⟩
  have hf : f.Inv := by
    rcases List.mem_cons.mp hf with rfl | hf
    · exact inv_start
    · exact hinv f hf
  obtain ⟨place, -, hfree, hloop⟩ := exists_place hlen hf.foodIn
  exact ⟨place, hfree, hloop⟩

/-- Up, then left to the food. -/
def firstMeal : List (List UInt8) := [[ch 'w'], [], [ch 'a'], [], [], [], [], [], []]

/-- When the snake eats for the first time it gets the corner of the field as its last cell. -/
theorem not_play_good : ¬∀ (p : Profile) (batches : List (List UInt8)),
    ∀ f ∈ play p start batches, f.Good := by
  intro hall
  have hcells : (play .checked start firstMeal).getLast?.map Snake.cells =
      some [(7, 7), (8, 7), (9, 7), (0, 0)] := by decide +kernel
  obtain ⟨f, hf, hcells⟩ := Option.map_eq_some_iff.mp hcells
  have hchain := (hall .checked firstMeal f (List.mem_of_getLast? hf)).path.chain
  rw [hcells] at hchain
  exact absurd hchain (by decide)

end Snake

end PureOS.Games
