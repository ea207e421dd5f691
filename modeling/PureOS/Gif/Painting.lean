import Mathlib.Data.List.Nodup
import PureOS.Gif.Safety

set_option autoImplicit false

/-!
# Gif: what a frame shows (`gif.rs`)

The rows of an interlaced frame come in four passes, and `render_frame` puts every row into its
place.  The colours come from a table, whose number of entries is kept in a byte: a table of 256
entries counts as an empty one, and then every index has the same colour.
-/

namespace PureOS.Gif

open PureOS.Foundation
open PureOS.Graphics (Rgb)

/-! ## The format -/

/-- The rows of an interlaced frame in the order in which they come: every eighth row from the
first one on, every eighth from row 4 on, every fourth from row 2 on, and the odd ones. -/
def passOrder (h : Nat) : List Nat :=
  List.range' 0 ((h + 7) / 8) 8 ++ (List.range' 4 ((h + 3) / 8) 8 ++
    (List.range' 2 ((h + 1) / 4) 4 ++ List.range' 1 (h / 2) 2))

/-- Which of the rows in the data is shown as row `y`. -/
def rowNumber (f : Frame) (y : Nat) : Nat :=
  if f.interlace then (passOrder f.h).idxOf y else y

/-- The index of a pixel of a frame. -/
def gifIndex (f : Frame) (out : List UInt8) (x y : Nat) : Option UInt8 :=
  out[rowNumber f y * f.w + x]?

/-- The colour of an index in a table of so many entries. -/
def tableColor (raw : List UInt8) (count : Nat) (idx : UInt8) : Option Rgb :=
  if idx.toNat < count then ColorTable.entryAt raw idx.toNat else none

/-- The colour that the calls leave at a place of the screen, if they draw there. -/
def colorAt (puts : List Put) (x y : Nat) : Option Rgb :=
  (puts.reverse.find? fun p => decide (p.x = x ∧ p.y = y)).map Put.color

/-- The calls show a frame: a transparent pixel is left alone, and another one gets the colour of
its index. -/
def Shows (f : Frame) (raw : List UInt8) (count : Nat) (out : List UInt8) (puts : List Put) :
    Prop :=
  ∀ x < f.w, ∀ y < f.h, ∀ idx, gifIndex f out x y = some idx →
    if f.transparent ∧ idx = f.tindex then colorAt puts (f.left + x) (f.top + y) = none
    else ∀ c, tableColor raw count idx = some c → colorAt puts (f.left + x) (f.top + y) = some c

/-- The bytes of the colour table of a frame, local or global, with 1 to 256 entries. -/
structure TableOf (data : List UInt8) (f : Frame) (gct : ColorTable) (raw : List UInt8)
    (count : Nat) : Prop where
  some : 1 ≤ count
  most : count ≤ 256
  whole : count * 3 ≤ raw.length
  isGlobal : f.hasLocal = false → gct = ColorTable.empty.parse raw count
  isLocal : f.hasLocal = true → raw = data.drop f.localOff ∧ f.localN = UInt8.ofNat count

/-- The colour that every index of a table of 256 entries gets. -/
def lostColor (f : Frame) (raw : List UInt8) : Rgb :=
  if f.hasLocal then ⟨0, 0, 0⟩ else (ColorTable.entryAt raw 0).getD ⟨0, 0, 0⟩

/-- The indices that are decompressed for a frame. -/
structure Decoded (fuel : Nat) (data : List UInt8) (f : Frame) (out : List UInt8) : Prop where
  start : f.dataOff + 1 ≤ data.length
  codes : ∃ lzw, Lzw.new f.lzwMin.toNat = .ok lzw ∧
    lzw.decompress fuel pixelsN (.new data (f.dataOff + 1)) = .ok out
  whole : f.w * f.h ≤ out.length

/-- A frame inside the screen, whose pixels fit into the buffer. -/
structure Inside (screen : Screen) (f : Frame) : Prop where
  right : f.left + f.w ≤ screen.width
  bottom : f.top + f.h ≤ screen.height
  small : f.w * f.h ≤ pixelsN

section

variable {h k r y : Nat}

/-! ## The order of the rows -/

theorem nodup_passOrder (h : Nat) : (passOrder h).Nodup := by
  have hpass : ∀ start step m : Nat, 0 < step → (List.range' start m step).Nodup :=
    fun start step m hstep => List.nodup_range' step hstep
  refine List.nodup_append.mpr ⟨hpass _ _ _ (by omega), ?_, ?_⟩
  · refine List.nodup_append.mpr ⟨hpass _ _ _ (by omega), ?_, ?_⟩
    · refine List.nodup_append.mpr ⟨hpass _ _ _ (by omega), hpass _ _ _ (by omega), ?_⟩
      intro a ha b hb
      rw [List.mem_range'] at ha hb
      omega
    · intro a ha b hb
      simp only [List.mem_append, List.mem_range'] at ha hb
      omega
  · intro a ha b hb
    simp only [List.mem_append, List.mem_range'] at ha hb
    omega

theorem mem_passOrder : y ∈ passOrder h ↔ y < h := by
  simp only [passOrder, List.mem_append, List.mem_range']
  constructor
  · omega
  · intro hy
    obtain hy8 | hy4 | hy2 | hy1 : y % 8 = 0 ∨ y % 8 = 4 ∨ y % 4 = 2 ∨ y % 2 = 1 := by omega
    · exact Or.inl ⟨y / 8, by omega, by omega⟩
    · exact Or.inr (Or.inl ⟨y / 8, by omega, by omega⟩)
    · exact Or.inr (Or.inr (Or.inl ⟨y / 4, by omega, by omega⟩))
    · exact Or.inr (Or.inr (Or.inr ⟨y / 2, by omega, by omega⟩))

/-- Every row of the frame comes exactly once. -/
theorem passOrder_perm (h : Nat) : (passOrder h).Perm (List.range h) :=
  (List.perm_ext_iff_of_nodup (nodup_passOrder h) List.nodup_range).mpr fun y => by
    rw [mem_passOrder, List.mem_range]

end

section

variable {f : Frame} {pixels reorder reorder' : List UInt8} {rows rows' : List Nat}
  {src dst n step r m fuel outY : Nat}

/-! ## Rows go into their places -/

theorem copyRow_get (is : List Nat)
    (h : ∀ i ∈ is, src + i < pixels.length ∧ dst + i < reorder.length) :
    ∃ reorder', copyRow pixels src dst is reorder = .ok reorder' ∧
      reorder'.length = reorder.length ∧
      ∀ j, reorder'[j]? =
        if dst ≤ j ∧ j - dst ∈ is then pixels[src + (j - dst)]? else reorder[j]? := by
  induction is generalizing reorder with
  | nil => exact ⟨reorder, rfl, rfl, fun j => (if_neg fun h => List.not_mem_nil h.2).symm⟩
  | cons i is ih =>
      obtain ⟨hsrc, hdst⟩ := h i List.mem_cons_self
      obtain ⟨reorder', hcopy, hlen, hget⟩ := @ih (reorder.set (dst + i) pixels[src + i])
        fun j hj => by
          rw [List.length_set]
          exact h j (List.mem_cons_of_mem _ hj)
      refine ⟨reorder', ?_, hlen.trans List.length_set, fun j => ?_⟩
      · rw [copyRow, List.getElem?_eq_getElem hsrc]
        dsimp only
        rw [if_pos hdst, hcopy]
      · rw [hget]
        by_cases hin : dst ≤ j ∧ j - dst ∈ is
        · rw [if_pos hin, if_pos ⟨hin.1, List.mem_cons_of_mem _ hin.2⟩]
        · rw [if_neg hin]
          by_cases hj : dst + i = j
          · subst hj
            rw [List.getElem?_set_self hdst, Nat.add_sub_cancel_left,
              if_pos ⟨Nat.le_add_right _ _, List.mem_cons_self⟩, List.getElem?_eq_getElem hsrc]
          · rw [List.getElem?_set_ne hj, if_neg]
            rintro ⟨hle, hmem⟩
            rcases List.mem_cons.mp hmem with heq | hmem
            · omega
            · exact hin ⟨hle, hmem⟩

/-- The rows of the data from number `outY` on are at these places, and all other rows are as
they were. -/
structure Placed (f : Frame) (pixels : List UInt8) (outY : Nat) (rows : List Nat)
    (reorder reorder' : List UInt8) : Prop where
  length : reorder'.length = reorder.length
  moved : ∀ k r, rows[k]? = some r → ∀ x < f.w,
    reorder'[r * f.w + x]? = pixels[(outY + k) * f.w + x]?
  kept : ∀ r, r ∉ rows → ∀ x < f.w, reorder'[r * f.w + x]? = reorder[r * f.w + x]?

theorem Placed.nil (f : Frame) (pixels : List UInt8) (outY : Nat) (reorder : List UInt8) :
    Placed f pixels outY [] reorder reorder where
  length := rfl
  moved _ _ h := by cases h
  kept _ _ _ _ := rfl

theorem Placed.append {mid : List UInt8} (h : Placed f pixels outY rows reorder mid)
    (h' : Placed f pixels (outY + rows.length) rows' mid reorder')
    (hdisjoint : ∀ r ∈ rows, r ∉ rows') :
    Placed f pixels outY (rows ++ rows') reorder reorder' where
  length := h'.length.trans h.length
  moved k r hget x hx := by
    by_cases hk : k < rows.length
    · rw [List.getElem?_append_left hk] at hget
      rw [h'.kept r (hdisjoint r (List.mem_of_getElem? hget)) x hx]
      exact h.moved k r hget x hx
    · rw [List.getElem?_append_right (Nat.le_of_not_lt hk)] at hget
      rw [h'.moved _ r hget x hx, Nat.add_assoc, Nat.add_sub_cancel' (Nat.le_of_not_lt hk)]
  kept r hr x hx := by
    rw [List.mem_append, not_or] at hr
    rw [h'.kept r hr.2 x hx, h.kept r hr.1 x hx]

theorem row_sub {r r' w x : Nat} (hx : x < w) :
    r * w ≤ r' * w + x ∧ r' * w + x - r * w ∈ List.range w ↔ r' = r := by
  rw [List.mem_range]
  constructor
  · rintro ⟨hle, hlt⟩
    have hr : r * w < (r' + 1) * w := by rw [Nat.succ_mul]; omega
    have hr' : r' * w < (r + 1) * w := by rw [Nat.succ_mul]; omega
    have := Nat.lt_of_mul_lt_mul_right hr
    have := Nat.lt_of_mul_lt_mul_right hr'
    omega
  · rintro rfl
    omega

/-- A row that lies in both buffers is copied as a whole. -/
theorem placed_row (hlen : reorder.length = pixels.length)
    (hsrc : (outY + 1) * f.w ≤ pixels.length) (hdst : (r + 1) * f.w ≤ pixels.length) :
    ∃ reorder', copyRow pixels (outY * f.w) (r * f.w) (List.range (min (min f.w
      (pixels.length - r * f.w)) (pixels.length - outY * f.w))) reorder = .ok reorder' ∧
      Placed f pixels outY [r] reorder reorder' := by
  rw [Nat.succ_mul] at hsrc hdst
  rw [show min (min f.w (pixels.length - r * f.w)) (pixels.length - outY * f.w) = f.w by omega]
  obtain ⟨reorder', hcopy, hlen', hget⟩ := @copyRow_get pixels reorder (outY * f.w) (r * f.w)
    (List.range f.w) fun i hi => by
      have := List.mem_range.mp hi
      omega
  refine ⟨reorder', hcopy, hlen', fun k r' hk x hx => ?_, fun r' hr' x hx => ?_⟩
  · obtain ⟨rfl, rfl⟩ : k = 0 ∧ r' = r := by
      cases k with
      | zero => exact ⟨rfl, (Option.some.inj hk).symm⟩
      | succ k => cases hk
    rw [hget, if_pos ((row_sub hx).mpr rfl), Nat.add_zero, Nat.add_sub_cancel_left]
  · rw [hget, if_neg]
    intro hin
    exact hr' (List.mem_singleton.mpr ((row_sub hx).mp hin))

/-- A pass over so many rows puts the next rows of the data into their places. -/
theorem passLoop_rows (hlen : reorder.length = pixels.length) (hfuel : m < fuel)
    (hn : outY + m ≤ n) (hsrc : (outY + m) * f.w ≤ pixels.length)
    (hin : ∀ j < m, r + j * step < f.h ∧ r + j * step + step < 2 ^ 16)
    (hdst : ∀ j < m, (r + j * step + 1) * f.w ≤ pixels.length) (hstep : 0 < step)
    (hend : f.h ≤ r + m * step) :
    ∃ reorder', passLoop f n step pixels fuel r (outY, reorder) = .ok (outY + m, reorder') ∧
      Placed f pixels outY (List.range' r m step) reorder reorder' := by
  induction m generalizing r outY reorder fuel with
  | zero =>
      obtain ⟨fuel, rfl⟩ : ∃ k, fuel = k + 1 := ⟨fuel - 1, by omega⟩
      exact ⟨reorder, passLoop_stop (by omega), .nil ..⟩
  | succ m ih =>
      obtain ⟨fuel, rfl⟩ : ∃ k, fuel = k + 1 := ⟨fuel - 1, by omega⟩
      have hfirst := hin 0 (by omega)
      have hsrc' : (outY + 1) * f.w ≤ pixels.length :=
        (Nat.mul_le_mul_right _ (by omega)).trans hsrc
      have hdst' := hdst 0 (by omega)
      rw [Nat.zero_mul, Nat.add_zero] at hfirst hdst'
      obtain ⟨mid, hcopy, hplaced⟩ := @placed_row _ _ _ _ outY hlen hsrc' hdst'
      have hnext : ∀ j, r + step + j * step = r + (j + 1) * step := fun j => by
        rw [Nat.succ_mul]
        omega
      obtain ⟨reorder', hloop, hrest⟩ := @ih mid (r + step) fuel (outY + 1)
        (hplaced.length.trans hlen) (by omega) (by omega)
        (by rw [Nat.add_assoc, Nat.add_comm 1 m]; exact hsrc)
        (fun j hj => by rw [hnext]; exact hin (j + 1) (by omega))
        (fun j hj => by rw [hnext]; exact hdst (j + 1) (by omega)) (by rw [hnext]; exact hend)
      refine ⟨reorder', ?_, ?_⟩
      · rw [passLoop, if_pos ⟨hfirst.1, by omega⟩]
        dsimp only
        rw [hcopy, bind_ok, if_neg (by omega), hloop, Nat.add_assoc, Nat.add_comm 1 m]
      · rw [List.range'_succ]
        refine @Placed.append _ _ _ _ [r] _ _ _ hplaced hrest fun r' hr' hmem => ?_
        rw [List.mem_singleton.mp hr', List.mem_range'] at hmem
        obtain ⟨i, -, heq⟩ := hmem
        omega

/-- An interlaced frame is put in order: row number `k` of the data is shown where it belongs. -/
theorem deinterlace_placed (hlen : pixels.length = pixelsN) (hsize : f.h * f.w ≤ pixelsN)
    (hrows : f.h ≤ 65528) (hn : f.h ≤ n) :
    ∃ reorder, deinterlace f n pixels = .ok reorder ∧
      Placed f pixels 0 (passOrder f.h) (.replicate pixelsN 0) reorder := by
  have hrow : ∀ y < f.h, (y + 1) * f.w ≤ pixels.length := fun y hy => by
    rw [hlen]
    exact (Nat.mul_le_mul_right _ hy).trans hsize
  have hsrc : ∀ m ≤ f.h, m * f.w ≤ pixels.length := fun m hm => by
    rw [hlen]
    exact (Nat.mul_le_mul_right _ hm).trans hsize
  have hblank : (List.replicate pixelsN (0 : UInt8)).length = pixels.length := by
    rw [List.length_replicate, hlen]
  obtain ⟨a, ha, hplaced⟩ := @passLoop_rows f pixels _ n 8 0 ((f.h + 7) / 8) (f.h + 1) 0 hblank
    (by omega) (by omega) (hsrc _ (by omega)) (fun j hj => by omega)
    (fun j hj => hrow _ (by omega)) (by decide) (by omega)
  obtain ⟨b, hb, hplaced'⟩ := @passLoop_rows f pixels a n 8 4 ((f.h + 3) / 8) (f.h + 1)
    (0 + (f.h + 7) / 8) (hplaced.length.trans hblank) (by omega) (by omega) (hsrc _ (by omega))
    (fun j hj => by omega) (fun j hj => hrow _ (by omega)) (by decide) (by omega)
  obtain ⟨c, hc, hplaced''⟩ := @passLoop_rows f pixels b n 4 2 ((f.h + 1) / 4) (f.h + 1)
    (0 + (f.h + 7) / 8 + (f.h + 3) / 8) ((hplaced'.length.trans hplaced.length).trans hblank)
    (by omega) (by omega) (hsrc _ (by omega)) (fun j hj => by omega)
    (fun j hj => hrow _ (by omega)) (by decide) (by omega)
  obtain ⟨d, hd, hplaced₃⟩ := @passLoop_rows f pixels c n 2 1 (f.h / 2) (f.h + 1)
    (0 + (f.h + 7) / 8 + (f.h + 3) / 8 + (f.h + 1) / 4)
    (((hplaced''.length.trans hplaced'.length).trans hplaced.length).trans hblank)
    (by omega) (by omega) (hsrc _ (by omega)) (fun j hj => by omega)
    (fun j hj => hrow _ (by omega)) (by decide) (by omega)
  refine ⟨d, ?_, ?_⟩
  · rw [deinterlace, passes, ha, bind_ok, passes, hb, bind_ok, passes, hc, bind_ok, passes, hd]
    rfl
  · refine hplaced.append ?_ ?_
    · rw [List.length_range']
      refine hplaced'.append ?_ ?_
      · rw [List.length_range']
        refine hplaced''.append ?_ ?_
        · rw [List.length_range']
          exact hplaced₃
        · intro y hy hy'
          rw [List.mem_range'] at hy hy'
          omega
      · intro y hy hy'
        simp only [List.mem_append, List.mem_range'] at hy hy'
        omega
    · intro y hy hy'
      simp only [List.mem_append, List.mem_range'] at hy hy'
      omega

/-- The pixels of a frame in order: at every pixel is its index. -/
theorem inOrder_index (hlen : pixels.length = pixelsN) (hsize : f.w * f.h ≤ pixelsN)
    (hrows : f.interlace = true → f.h ≤ 65528) (hn : f.w * f.h ≤ n) (hpos : 0 < f.w) :
    ∃ ordered, inOrder f n pixels = .ok ordered ∧
      ∀ x < f.w, ∀ y < f.h, ordered[y * f.w + x]? = gifIndex f pixels x y := by
  rw [inOrder]
  by_cases hinterlace : f.interlace = true
  · have hmany : f.h ≤ n := (Nat.le_mul_of_pos_left _ hpos).trans hn
    rw [Nat.mul_comm] at hsize
    obtain ⟨reorder, hdone, hplaced⟩ :=
      deinterlace_placed hlen hsize (hrows hinterlace) hmany
    refine ⟨reorder, ?_, fun x hx y hy => ?_⟩
    · rw [if_pos hinterlace, hdone]
    · have hmem : y ∈ passOrder f.h := mem_passOrder.mpr hy
      have hget : (passOrder f.h)[(passOrder f.h).idxOf y]? = some y := List.getElem?_idxOf hmem
      rw [gifIndex, rowNumber, if_pos hinterlace, hplaced.moved _ _ hget x hx, Nat.zero_add]
  · refine ⟨pixels, if_neg hinterlace, fun x hx y hy => ?_⟩
    rw [gifIndex, rowNumber, if_neg hinterlace]

theorem rowNumber_lt {y : Nat} (hy : y < f.h) : rowNumber f y < f.h := by
  rw [rowNumber]
  split
  · have hlt := List.idxOf_lt_length_of_mem (mem_passOrder.mpr hy)
    rwa [(passOrder_perm f.h).length_eq, List.length_range] at hlt
  · exact hy

end

section

variable {screen : Screen} {f : Frame} {ct : ColorTable} {pixels : List UInt8}
  {puts : List Put} {x y : Nat}

/-! ## Drawing -/

/-- The call that a pixel leads to, if any. -/
def pixelPut (f : Frame) (ct : ColorTable) (pixels : List UInt8) (y x : Nat) : Option Put :=
  pixels[y * f.w + x]?.bind fun idx =>
    if f.transparent ∧ idx = f.tindex then none else some ⟨f.left + x, f.top + y, ct.get idx⟩

/-- The calls for a frame, row by row. -/
def framePuts (f : Frame) (ct : ColorTable) (pixels : List UInt8) : List Put :=
  (List.range f.h).flatMap fun y => (List.range f.w).filterMap (pixelPut f ct pixels y)

theorem blitRow_inside (xs : List Nat)
    (h : ∀ x ∈ xs, f.left + x < screen.width ∧ y * f.w + x < pixels.length) :
    blitRow screen f ct pixels y xs puts = .ok (puts ++ xs.filterMap (pixelPut f ct pixels y)) := by
  induction xs generalizing puts with
  | nil => rw [blitRow, List.filterMap_nil, List.append_nil]
  | cons x xs ih =>
      obtain ⟨hx, hpixel⟩ := h x List.mem_cons_self
      have hrest := fun x' hx' => h x' (List.mem_cons_of_mem x hx')
      have hidx := List.getElem?_eq_getElem hpixel
      rw [blitRow, if_neg (Nat.not_le.mpr hx), List.filterMap_cons, pixelPut, hidx,
        Option.bind_some]
      dsimp only
      split
      · exact ih hrest
      · rw [ih hrest, List.append_assoc]
        rfl

theorem blit_inside (ys : List Nat) (hright : f.left + f.w ≤ screen.width)
    (h : ∀ y ∈ ys, f.top + y < screen.height ∧ (y + 1) * f.w ≤ pixels.length) :
    blit screen f ct pixels ys puts =
      .ok (puts ++ ys.flatMap fun y => (List.range f.w).filterMap (pixelPut f ct pixels y)) := by
  induction ys generalizing puts with
  | nil => rw [blit, List.flatMap_nil, List.append_nil]
  | cons y ys ih =>
      obtain ⟨hy, hrow⟩ := h y List.mem_cons_self
      rw [blit, if_neg (Nat.not_le.mpr hy), blitRow_inside, bind_ok,
        ih fun y' hy' => h y' (List.mem_cons_of_mem y hy'), List.flatMap_cons, List.append_assoc]
      intro x hx
      have hlt := List.mem_range.mp hx
      rw [Nat.succ_mul] at hrow
      omega

/-! ## What is seen -/

theorem colorAt_none (h : ∀ p ∈ puts, ¬(p.x = x ∧ p.y = y)) : colorAt puts x y = none := by
  rw [colorAt, List.find?_eq_none.mpr]
  · rfl
  · intro p hp
    rw [decide_eq_true_eq]
    exact h p (List.mem_reverse.mp hp)

theorem colorAt_some {c : Rgb} (hsome : ∃ p ∈ puts, p.x = x ∧ p.y = y)
    (hsame : ∀ p ∈ puts, p.x = x → p.y = y → p.color = c) : colorAt puts x y = some c := by
  obtain ⟨p, hp, hplace⟩ := hsome
  cases hfind : puts.reverse.find? fun p => decide (p.x = x ∧ p.y = y) with
  | none =>
      have := List.find?_eq_none.mp hfind p (List.mem_reverse.mpr hp)
      exact absurd (decide_eq_true hplace) this
  | some q =>
      have hq := List.find?_some hfind
      have hmem := List.mem_reverse.mp (List.mem_of_find?_eq_some hfind)
      rw [decide_eq_true_eq] at hq
      rw [colorAt, hfind, Option.map_some, hsame q hmem hq.1 hq.2]

theorem pixelPut_place {p : Put} (h : pixelPut f ct pixels y x = some p) :
    p.x = f.left + x ∧ p.y = f.top + y := by
  obtain ⟨idx, -, hidx⟩ := Option.bind_eq_some_iff.mp h
  split at hidx
  · cases hidx
  · cases hidx
    exact ⟨rfl, rfl⟩

theorem mem_framePuts {p : Put} : p ∈ framePuts f ct pixels ↔
    ∃ y < f.h, ∃ x < f.w, pixelPut f ct pixels y x = some p := by
  simp only [framePuts, List.mem_flatMap, List.mem_filterMap, List.mem_range]

/-- A pixel of the frame is seen as its call leaves it. -/
theorem colorAt_framePuts (hx : x < f.w) (hy : y < f.h) :
    colorAt (framePuts f ct pixels) (f.left + x) (f.top + y) =
      (pixelPut f ct pixels y x).map Put.color := by
  have hplace : ∀ p ∈ framePuts f ct pixels, p.x = f.left + x → p.y = f.top + y →
      pixelPut f ct pixels y x = some p := by
    intro p hp hpx hpy
    obtain ⟨y', _, x', _, hput⟩ := mem_framePuts.mp hp
    have hcoords := pixelPut_place hput
    obtain rfl : x' = x := by omega
    obtain rfl : y' = y := by omega
    exact hput
  cases hput : pixelPut f ct pixels y x with
  | none =>
      refine colorAt_none fun p hp hxy => ?_
      have := hplace p hp hxy.1 hxy.2
      rw [hput] at this
      cases this
  | some p =>
      have hmem : p ∈ framePuts f ct pixels := mem_framePuts.mpr ⟨y, hy, x, hx, hput⟩
      refine colorAt_some ⟨p, hmem, pixelPut_place hput⟩ fun q hq hqx hqy => ?_
      have := hplace q hq hqx hqy
      rw [hput] at this
      cases this
      rfl

end

section

variable {screen : Screen} {data raw out : List UInt8} {f : Frame} {gct : ColorTable}
  {count fuel : Nat} {puts : List Put}

/-! ## Colours -/

theorem entryAt_some {i : Nat} (h : (i + 1) * 3 ≤ raw.length) :
    ∃ c, ColorTable.entryAt raw i = some c := by
  rw [ColorTable.entryAt, List.getElem?_eq_getElem (show i * 3 < raw.length by omega),
    List.getElem?_eq_getElem (show i * 3 + 1 < raw.length by omega),
    List.getElem?_eq_getElem (show i * 3 + 2 < raw.length by omega)]
  exact ⟨_, rfl⟩

theorem get_parse (raw : List UInt8) (count : Nat) (idx : UInt8) {i : Nat}
    (hi : idx.toNat % max (UInt8.ofNat (min count 256)).toNat 1 = i) :
    (ColorTable.empty.parse raw count).get idx =
      if i < min count 256 then (ColorTable.entryAt raw i).getD ⟨0, 0, 0⟩ else ⟨0, 0, 0⟩ := by
  have hblack : ∀ (i : Nat) (h : i < 256), ColorTable.empty.entries[i] = ⟨0, 0, 0⟩ :=
    fun i h => Vector.getElem_replicate h
  simp only [ColorTable.get, ColorTable.parse, hi, Vector.getElem_ofFn, Fin.getElem_fin, hblack]

/-- A table of less than 256 entries gives an index its colour. -/
theorem frameTable_get (htable : TableOf data f gct raw count) {idx : UInt8}
    (hcount : count ≠ 256) (hidx : idx.toNat < count) :
    tableColor raw count idx = some ((frameTable data f gct).get idx) := by
  have hmost := htable.most
  have hwhole := htable.whole
  have hn : (UInt8.ofNat (min count 256)).toNat = count := by
    rw [UInt8.toNat_ofNat', Nat.min_eq_left hmost, Nat.mod_eq_of_lt (by omega)]
  have hi : idx.toNat % max (UInt8.ofNat (min count 256)).toNat 1 = idx.toNat := by
    rw [hn]
    exact Nat.mod_eq_of_lt (by omega)
  obtain ⟨c, hc⟩ := @entryAt_some raw idx.toNat (by omega)
  have hget : (ColorTable.empty.parse raw count).get idx = c := by
    rw [get_parse raw count idx hi, if_pos (by omega), hc]
    rfl
  have hsame : (frameTable data f gct).get idx = c := by
    rw [frameTable]
    cases hlocal : f.hasLocal with
    | false =>
        rw [if_neg (by decide), htable.isGlobal hlocal, hget]
    | true =>
        obtain ⟨hraw, hlocalN⟩ := htable.isLocal hlocal
        have hcountN : f.localN.toNat = count := by
          rw [hlocalN, UInt8.toNat_ofNat', Nat.mod_eq_of_lt (by omega)]
        have hlen := congrArg List.length hraw
        have hsome := htable.some
        rw [List.length_drop] at hlen
        rw [if_pos rfl, hcountN, if_pos (by omega), ← hraw, hget]
  rw [tableColor, if_pos hidx, hc, hsame]

/-- A table of 256 entries gives every index the same colour. -/
theorem frameTable_lost (htable : TableOf data f gct raw 256) (idx : UInt8) :
    (frameTable data f gct).get idx = lostColor f raw := by
  have hwhole := htable.whole
  rw [frameTable, lostColor]
  cases hlocal : f.hasLocal with
  | false =>
      have hi : idx.toNat % max (UInt8.ofNat (min 256 256)).toNat 1 = 0 := Nat.mod_one _
      rw [if_neg (by decide), if_neg (by decide), htable.isGlobal hlocal, get_parse raw 256 idx hi,
        if_pos (by decide)]
  | true =>
      obtain ⟨hraw, hlocalN⟩ := htable.isLocal hlocal
      have hcountN : f.localN.toNat = 0 := by
        rw [hlocalN]
        rfl
      have hlen := congrArg List.length hraw
      have hi : idx.toNat % max (UInt8.ofNat (min 0 256)).toNat 1 = 0 := Nat.mod_one _
      rw [List.length_drop] at hlen
      rw [if_pos rfl, if_pos rfl, hcountN, if_pos (by omega), get_parse _ 0 idx hi,
        if_neg (by decide)]

/-! ## The tables of a file -/

theorem tableCount_bounds (pk : UInt8) : 2 ≤ tableCount pk ∧ tableCount pk ≤ 256 := by
  have hk : pk.toNat % 8 < 8 := Nat.mod_lt _ (by decide)
  constructor
  · exact Nat.pow_le_pow_right (n := 2) (i := 1) (by decide) (by omega)
  · exact Nat.pow_le_pow_right (n := 2) (j := 8) (by decide) (by omega)

/-- A local colour table lies inside the data, and its number of entries is kept in a byte. -/
def LocalFits (data : List UInt8) (f : Frame) : Prop :=
  f.hasLocal = true → ∃ pk, f.localN = UInt8.ofNat (tableCount pk) ∧
    f.localOff + tableCount pk * 3 ≤ data.length

theorem image_localFits {b b' : Blocks} {again : Bool}
    (h : image data b = .ok (again, b')) (hb : ∀ f ∈ b.frames, LocalFits data f) :
    ∀ f ∈ b'.frames, LocalFits data f := by
  rw [image] at h
  dsimp only at h
  split at h
  · cases h
    exact hb
  obtain ⟨il, -, h⟩ := bind_eq_ok h
  obtain ⟨it, -, h⟩ := bind_eq_ok h
  obtain ⟨iw, -, h⟩ := bind_eq_ok h
  obtain ⟨ih, -, h⟩ := bind_eq_ok h
  obtain ⟨ipk, -, h⟩ := bind_eq_ok h
  split at h
  · cases h
    exact hb
  rename_i hfits
  split at h
  · cases h
    exact hb
  obtain ⟨lzwMin, -, h⟩ := bind_eq_ok h
  obtain ⟨behind, -, h⟩ := bind_eq_ok h
  split at h
  · cases h
    intro f hf
    rcases List.mem_append.mp hf with hold | hnew
    · exact hb f hold
    · rw [List.mem_singleton.mp hnew]
      intro hlocal
      refine ⟨ipk, ?_, ?_⟩
      · exact congrArg UInt8.ofNat (if_pos hlocal)
      · rw [localCount, if_pos hlocal] at hfits
        refine Nat.le_trans ?_ (Nat.le_of_not_lt hfits)
        refine Nat.add_le_add_right ((if_pos hlocal).trans_le (Nat.mod_le _ _)) _
  · cases h
    exact hb

theorem blockTurn_localFits {b b' : Blocks} {again : Bool}
    (h : blockTurn data b = .ok (again, b')) (hb : ∀ f ∈ b.frames, LocalFits data f) :
    ∀ f ∈ b'.frames, LocalFits data f := by
  rw [blockTurn] at h
  split at h
  · cases h
    exact hb
  obtain ⟨first, -, h⟩ := bind_eq_ok h
  split at h
  · dsimp only at h
    split at h
    · cases h
      exact hb
    obtain ⟨label, -, h⟩ := bind_eq_ok h
    obtain ⟨b₁, hext, h⟩ := bind_eq_ok h
    cases h
    obtain ⟨b₂, hext', -, hframes⟩ := @extension_ok data { b with pos := b.pos + 1 + 1 }
      (data.length + 1) label (Nat.succ_pos _) (by dsimp only; omega)
    rw [hext] at hext'
    cases hext'
    rw [hframes]
    exact hb
  split at h
  · exact image_localFits h hb
  split at h
  · cases h
    exact hb
  · cases h
    exact hb

/-- The colour tables of the frames of a file are such tables, if they or the file have one. -/
theorem tableOf_collected {pos : Nat} {frames : List Frame} {pk : UInt8}
    (h : collectFrames data pos = .ok frames) (hf : f ∈ frames)
    (hglobal : f.hasLocal = false → hasTable pk = true ∧ 13 + globalSize pk ≤ data.length) :
    ∃ raw count, 2 ≤ count ∧ TableOf data f (globalTable data pk) raw count := by
  obtain ⟨b, hturns, hframes⟩ := bind_eq_ok h
  cases hframes
  have hfits := turns_keeps (P := fun b => ∀ f ∈ b.frames, LocalFits data f) hturns
    (fun f hf => absurd hf List.not_mem_nil)
    (fun b again b' hb hturn => blockTurn_localFits hturn hb) f hf
  cases hlocal : f.hasLocal with
  | false =>
      obtain ⟨htable, hin⟩ := hglobal hlocal
      obtain ⟨hsome, hmost⟩ := tableCount_bounds pk
      rw [globalSize, if_pos htable] at hin
      refine ⟨data.drop 13, tableCount pk, hsome, by omega, hmost, ?_, fun _ => if_pos htable,
        fun hnot => ?_⟩
      · rw [List.length_drop]
        omega
      · rw [hlocal] at hnot
        cases hnot
  | true =>
      obtain ⟨ipk, hcount, hin⟩ := hfits hlocal
      obtain ⟨hsome, hmost⟩ := tableCount_bounds ipk
      refine ⟨data.drop f.localOff, tableCount ipk, hsome, by omega, hmost, ?_, fun hnot => ?_,
        fun _ => ⟨rfl, hcount⟩⟩
      · rw [List.length_drop]
        omega
      · rw [hlocal] at hnot
        cases hnot

/-- What `render_frame` draws, if it returns. -/
theorem renderFrame_puts (hin : Inside screen f) (hdec : Decoded fuel data f out)
    (hfits : f.interlace = true → f.h ≤ 65528 ∨ out.length ≤ 8191) :
    ∃ ordered, renderFrame fuel screen data f gct puts =
        .ok (puts ++ framePuts f (frameTable data f gct) ordered) ∧
      ∀ x < f.w, ∀ y < f.h, ordered[y * f.w + x]? = gifIndex f out x y := by
  obtain ⟨lzw, hnew, hout⟩ := hdec.codes
  obtain ⟨hroom, -, -⟩ := decompress_out hout
  have hsmall := hin.small
  have hwhole := hdec.whole
  let pixels := out ++ List.replicate (pixelsN - out.length) 0
  have hlen : pixels.length = pixelsN := by
    rw [List.length_append, List.length_replicate]
    omega
  have hordered : ∃ ordered, inOrder f out.length pixels = .ok ordered ∧
      ∀ x < f.w, ∀ y < f.h, ordered[y * f.w + x]? = gifIndex f pixels x y := by
    by_cases hw : 0 < f.w
    · refine inOrder_index hlen hsmall (fun hinterlace => ?_) hwhole hw
      have hmany : f.h ≤ f.w * f.h := Nat.le_mul_of_pos_left _ hw
      rcases hfits hinterlace with h | h <;> omega
    · obtain ⟨ordered, hdone, -⟩ := inOrder_ok hlen hfits
      exact ⟨ordered, hdone, fun x hx => absurd hx (by omega)⟩
  obtain ⟨ordered, hdone, hindex⟩ := hordered
  have hlen' : ordered.length = pixelsN := (fits_of_inOrder hlen hdone).2
  refine ⟨ordered, ?_, fun x hx y hy => ?_⟩
  · have hstart := hdec.start
    rw [renderFrame, if_neg (by omega), hnew, bind_ok, hout, bind_ok]
    dsimp only
    rw [hdone, bind_ok, blit_inside _ hin.right]
    · rfl
    · intro y hy
      have hbottom := hin.bottom
      have hlt := List.mem_range.mp hy
      have hrow : (y + 1) * f.w ≤ f.h * f.w := Nat.mul_le_mul_right _ hlt
      rw [Nat.mul_comm f.h] at hrow
      omega
  · have hlt : rowNumber f y * f.w + x < out.length := by
      have hrow : (rowNumber f y + 1) * f.w ≤ f.h * f.w :=
        Nat.mul_le_mul_right _ (rowNumber_lt hy)
      rw [Nat.succ_mul, Nat.mul_comm f.h] at hrow
      omega
    rw [hindex x hx y hy, gifIndex, gifIndex, List.getElem?_append_left hlt]

/-- Every index of the frame that is not transparent has the colour that is seen for all of
them. -/
def OneColor (f : Frame) (raw out : List UInt8) : Prop :=
  ∀ x < f.w, ∀ y < f.h, ∀ idx, gifIndex f out x y = some idx →
    ¬(f.transparent ∧ idx = f.tindex) → ColorTable.entryAt raw idx.toNat = some (lostColor f raw)

/-- The calls for a frame show it, exactly if the table has less than 256 entries or the frame
has one colour. -/
theorem framePuts_shows (htable : TableOf data f gct raw count) {ordered : List UInt8}
    (hindex : ∀ x < f.w, ∀ y < f.h, ordered[y * f.w + x]? = gifIndex f out x y) :
    Shows f raw count out (framePuts f (frameTable data f gct) ordered) ↔
      (count = 256 → OneColor f raw out) := by
  have hput : ∀ x < f.w, ∀ y < f.h, ∀ idx, gifIndex f out x y = some idx →
      colorAt (framePuts f (frameTable data f gct) ordered) (f.left + x) (f.top + y) =
        if f.transparent ∧ idx = f.tindex then none
        else some ((frameTable data f gct).get idx) := by
    intro x hx y hy idx hidx
    rw [colorAt_framePuts hx hy, pixelPut, hindex x hx y hy, hidx, Option.bind_some]
    split <;> rfl
  constructor
  · rintro hshows rfl x hx y hy idx hidx hvisible
    have hpixel := hshows x hx y hy idx hidx
    rw [if_neg hvisible, hput x hx y hy idx hidx, if_neg hvisible, frameTable_lost htable] at hpixel
    have hlt := idx.toNat_lt
    have hwhole := htable.whole
    obtain ⟨c, hc⟩ := @entryAt_some raw idx.toNat (by omega)
    rw [hc, hpixel c (by rw [tableColor, if_pos hlt, hc])]
  · intro hone x hx y hy idx hidx
    rw [hput x hx y hy idx hidx]
    by_cases hvisible : f.transparent ∧ idx = f.tindex
    · rw [if_pos hvisible, if_pos hvisible]
    rw [if_neg hvisible, if_neg hvisible]
    intro c hc
    by_cases hcount : count = 256
    · subst hcount
      have hcolor := hone rfl x hx y hy idx hidx hvisible
      rw [tableColor, if_pos idx.toNat_lt, hcolor] at hc
      rw [frameTable_lost htable, hc]
    · by_cases hlt : idx.toNat < count
      · rw [← frameTable_get htable hcount hlt, hc]
      · rw [tableColor, if_neg hlt] at hc
        cases hc

/-- `render_frame` shows a frame as the format says, exactly if an interlaced frame has not too
many rows and, with a table of 256 entries, all its pixels have one colour; and the order of the
rows of an interlaced frame takes each of them once. -/
theorem renderFrame_shows_iff (puts : List Put) (hin : Inside screen f)
    (hdec : Decoded fuel data f out) (htable : TableOf data f gct raw count) :
    ((∃ new, renderFrame fuel screen data f gct puts = .ok (puts ++ new) ∧
        Shows f raw count out new) ↔
      (f.interlace = true → f.h ≤ 65528 ∨ out.length ≤ 8191) ∧
        (count = 256 → OneColor f raw out)) ∧
    (passOrder f.h).Perm (List.range f.h) := by
  refine ⟨⟨?_, ?_⟩, passOrder_perm f.h⟩
  · rintro ⟨new, hrender, hshows⟩
    have hfits : f.interlace = true → f.h ≤ 65528 ∨ out.length ≤ 8191 := by
      obtain ⟨lzw, hnew, hout⟩ := hdec.codes
      obtain ⟨hroom, -, -⟩ := decompress_out hout
      have hstart := hdec.start
      have hlen : (out ++ List.replicate (pixelsN - out.length) 0).length = pixelsN := by
        rw [List.length_append, List.length_replicate]
        omega
      rw [renderFrame, if_neg (by omega), hnew, bind_ok, hout, bind_ok] at hrender
      dsimp only at hrender
      obtain ⟨ordered, hordered, -⟩ := bind_eq_ok hrender
      exact (fits_of_inOrder hlen hordered).1
    obtain ⟨ordered, hrender', hindex⟩ :=
      @renderFrame_puts _ _ _ _ gct _ puts hin hdec hfits
    rw [hrender'] at hrender
    cases List.append_cancel_left (Except.ok.inj hrender)
    exact ⟨hfits, (framePuts_shows htable hindex).mp hshows⟩
  · rintro ⟨hfits, hone⟩
    obtain ⟨ordered, hrender, hindex⟩ :=
      @renderFrame_puts _ _ _ _ gct _ puts hin hdec hfits
    exact ⟨_, hrender, (framePuts_shows htable hindex).mpr hone⟩

end

/-- A frame of one pixel, whose only index is 1. -/
def dotFrame : Frame where
  left := 0
  top := 0
  w := 1
  h := 1
  interlace := false
  transparent := false
  tindex := 0
  disposal := 0
  delayCs := 0
  lzwMin := 2
  dataOff := 0
  hasLocal := false
  localOff := 0
  localN := 0

/-- The data of this frame: the code 1 and the end. -/
def dotData : List UInt8 := [2, 1, 0x29, 0]

/-- A table of black and of another colour, with more entries behind them. -/
def dotTable (more : Nat) : List UInt8 := [0, 0, 0, 9, 8, 7] ++ List.replicate (more * 3) 0

theorem dot_decoded : Decoded 3 dotData dotFrame [1] where
  start := by decide
  codes := ⟨_, rfl, by decide +kernel⟩
  whole := by decide

theorem dot_inside : Inside ⟨1, 1⟩ dotFrame := ⟨by decide, by decide, by decide⟩

theorem dot_table (more : Nat) (h : more ≤ 254) {data : List UInt8} {f : Frame}
    (hglobal : f.hasLocal = false) : TableOf data f
    (ColorTable.empty.parse (dotTable more) (more + 2)) (dotTable more) (more + 2) where
  some := by omega
  most := by omega
  whole := by
    rw [dotTable, List.length_append, List.length_replicate]
    exact Nat.le_of_eq (by rw [Nat.add_mul, Nat.add_comm]; rfl)
  isGlobal _ := rfl
  isLocal hlocal := by
    rw [hglobal] at hlocal
    cases hlocal

/-- A frame of five rows that come in four passes, with a transparent index. -/
def lacedFrame : Frame :=
  { dotFrame with
    left := 1
    top := 2
    h := 5
    interlace := true
    transparent := true
    tindex := 2 }

/-- The data of this frame: an index for each row, with clear codes between them, and the end. -/
def lacedData : List UInt8 := [2, 4, 33, 24, 130, 42, 0]

theorem laced_decoded : Decoded 5 lacedData lacedFrame [1, 0, 1, 0, 2] where
  start := by decide
  codes := ⟨_, rfl, by decide +kernel⟩
  whole := by decide

/-- With a table of four entries the rows are shown in their places, and the transparent one is left
alone. -/
theorem renderFrame_shows_laced :
    ∃ new, renderFrame 5 ⟨4, 8⟩ lacedData lacedFrame (ColorTable.empty.parse (dotTable 2) 4) [] =
        .ok ([] ++ new) ∧
      Shows lacedFrame (dotTable 2) 4 [1, 0, 1, 0, 2] new :=
  (renderFrame_shows_iff [] ⟨by decide, by decide, by decide⟩ laced_decoded
    (dot_table 2 (by decide) rfl)).1.mpr
    ⟨fun _ => Or.inl (by decide), fun h => absurd h (by decide)⟩

/-- With a table of 256 entries the pixel of the dot is not. -/
theorem not_renderFrame_shows :
    ¬∀ (screen : Screen) (data raw out : List UInt8) (f : Frame) (gct : ColorTable)
      (count fuel : Nat) (puts : List Put), Inside screen f → Decoded fuel data f out →
      TableOf data f gct raw count →
      ∃ new, renderFrame fuel screen data f gct puts = .ok (puts ++ new) ∧
        Shows f raw count out new := by
  intro h
  have htable := @dot_table 254 (by decide) dotData dotFrame rfl
  obtain ⟨new, hrender, hshows⟩ := h _ _ _ _ _ _ 256 _ [] dot_inside dot_decoded htable
  obtain ⟨ordered, hrender', hindex⟩ := @renderFrame_puts _ _ _ _
    (ColorTable.empty.parse (dotTable 254) 256) _ [] dot_inside dot_decoded
    (fun h => absurd h (by decide))
  rw [hrender'] at hrender
  cases List.append_cancel_left (Except.ok.inj hrender)
  have hone := (framePuts_shows htable hindex).mp hshows rfl 0 (by decide) 0 (by decide) 1
    (by decide) (by decide)
  revert hone
  decide +kernel

end PureOS.Gif
