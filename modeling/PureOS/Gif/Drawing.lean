import PureOS.Gif.Endings
import PureOS.Gif.Render

set_option autoImplicit false

/-!
# Gif: when a frame is drawn (`gif.rs`)

The buffer holds 65536 pixels, but a frame may have more, and the number of a row may leave its
16 bits while the rows of an interlaced frame are put in order.
-/

namespace PureOS.Gif

open PureOS.Foundation GifReader Lzw

section

variable {screen : Screen} {f : Frame} {ct : ColorTable} {pixels reorder : List UInt8}
  {puts : List Put} {src dst n step r fuel outY y : Nat}

/-! ## Rows -/

theorem copyRow_ok (is : List Nat) (h : ∀ i ∈ is, src + i < pixels.length ∧ dst + i < reorder.length) :
    ∃ reorder', copyRow pixels src dst is reorder = .ok reorder' ∧
      reorder'.length = reorder.length := by
  induction is generalizing reorder with
  | nil => exact ⟨reorder, rfl, rfl⟩
  | cons i is ih =>
      obtain ⟨hsrc, hdst⟩ := h i List.mem_cons_self
      obtain ⟨reorder', hcopy, hlen⟩ := @ih (reorder.set (dst + i) pixels[src + i]) fun j hj => by
        rw [List.length_set]
        exact h j (List.mem_cons_of_mem _ hj)
      refine ⟨reorder', ?_, hlen.trans List.length_set⟩
      rw [copyRow, List.getElem?_eq_getElem hsrc]
      dsimp only
      rw [if_pos hdst, hcopy]

/-- The rows of a pass from row `r` on have numbers of 16 bits. -/
def PassFits (f : Frame) (n step r outY : Nat) : Prop :=
  ∀ k, r + k * step < f.h → outY + k < n → r + k * step + step < 2 ^ 16

theorem PassFits.next (h : PassFits f n step r outY) : PassFits f n step (r + step) (outY + 1) := by
  intro k hk hn
  have hmul : (k + 1) * step = k * step + step := Nat.succ_mul k step
  have hsum := h (k + 1) (by omega) (by omega)
  omega

theorem passLoop_step (hlen : reorder.length = pixels.length) (hgo : r < f.h ∧ outY < n) :
    ∃ reorder', reorder'.length = pixels.length ∧
      passLoop f n step pixels (fuel + 1) r (outY, reorder) =
        if r + step ≥ 2 ^ 16 then .error .panic
        else passLoop f n step pixels fuel (r + step) (outY + 1, reorder') := by
  obtain ⟨reorder', hcopy, hlen'⟩ := @copyRow_ok pixels reorder (outY * f.w) (r * f.w)
    (List.range (min (min f.w (pixels.length - r * f.w)) (pixels.length - outY * f.w))) fun i hi => by
      have hlt := List.mem_range.mp hi
      omega
  refine ⟨reorder', hlen'.trans hlen, ?_⟩
  rw [passLoop, if_pos hgo]
  dsimp only
  rw [hcopy]
  rfl

theorem passLoop_stop (hstop : ¬(r < f.h ∧ outY < n)) :
    passLoop f n step pixels (fuel + 1) r (outY, reorder) = .ok (outY, reorder) := by
  rw [passLoop, if_neg hstop]

/-- A pass whose numbers fit ends behind the last row or behind the last pixel. -/
theorem passLoop_ok (hstep : 0 < step) (hfuel : f.h < fuel + r) (hpos : 0 < fuel)
    (hlen : reorder.length = pixels.length) (hfits : PassFits f n step r outY) :
    ∃ k reorder', passLoop f n step pixels fuel r (outY, reorder) = .ok (outY + k, reorder') ∧
      reorder'.length = pixels.length ∧ (n ≤ outY + k ∨ f.h ≤ r + k * step) := by
  induction fuel generalizing r outY reorder with
  | zero => cases hpos
  | succ fuel ih =>
      by_cases hgo : r < f.h ∧ outY < n
      · obtain ⟨reorder', hlen', heq⟩ := @passLoop_step f pixels reorder n step r fuel outY hlen hgo
        have hzero : r + step < 2 ^ 16 := by
          have hfirst := hfits 0 (by omega) hgo.2
          omega
        obtain ⟨k, reorder'', hloop, hlen'', hend⟩ := ih (by omega) (by omega) hlen' hfits.next
        refine ⟨k + 1, reorder'', ?_, hlen'', ?_⟩
        · rw [heq, if_neg (Nat.not_le.mpr hzero), hloop, Nat.add_assoc, Nat.add_comm 1 k]
        · have hmul : (k + 1) * step = k * step + step := Nat.succ_mul k step
          omega
      · refine ⟨0, reorder, passLoop_stop hgo, hlen, ?_⟩
        omega

theorem fits_of_passLoop_ok (hlen : reorder.length = pixels.length)
    (h : ∃ s, passLoop f n step pixels fuel r (outY, reorder) = .ok s) : PassFits f n step r outY := by
  induction fuel generalizing r outY reorder with
  | zero =>
      obtain ⟨s, hs⟩ := h
      cases hs
  | succ fuel ih =>
      by_cases hgo : r < f.h ∧ outY < n
      · obtain ⟨reorder', hlen', heq⟩ := @passLoop_step f pixels reorder n step r fuel outY hlen hgo
        rw [heq] at h
        split at h
        · obtain ⟨s, hs⟩ := h
          cases hs
        · rename_i hsmall
          have hrest := ih hlen' h
          intro k hk hn
          cases k with
          | zero => omega
          | succ k =>
              have hmul : (k + 1) * step = k * step + step := Nat.succ_mul k step
              have hsum := hrest k (by omega) (by omega)
              omega
      · intro k hk hn
        omega

/-- The passes that fit, one after the other. -/
theorem passes_ok (ps : List (Nat × Nat)) (hsteps : ∀ p ∈ ps, 0 < p.2 ∧ p.2 ≤ 8)
    (hlen : reorder.length = pixels.length) (hfits : f.h ≤ 65528 ∨ n ≤ outY) :
    ∃ outY' reorder', passes f n pixels ps (outY, reorder) = .ok (outY', reorder') ∧
      reorder'.length = pixels.length := by
  induction ps generalizing outY reorder with
  | nil => exact ⟨outY, reorder, rfl, hlen⟩
  | cons p ps ih =>
      obtain ⟨start, step⟩ := p
      obtain ⟨hpos, hle⟩ := hsteps (start, step) List.mem_cons_self
      dsimp only at hpos hle
      have hpass : PassFits f n step start outY := by
        intro k hk hn
        omega
      obtain ⟨k, reorder', hloop, hlen', -⟩ := @passLoop_ok f pixels reorder n step start (f.h + 1)
        outY hpos (by omega) (Nat.succ_pos _) hlen hpass
      rw [passes, hloop]
      exact ih (fun p hp => hsteps p (List.mem_cons_of_mem _ hp)) hlen' (by omega)

/-- The rows of an interlaced frame are put in order if there are not too many of them, or not
enough pixels for so many. -/
theorem deinterlace_ok (hlen : pixels.length = pixelsN) (hfits : f.h ≤ 65528 ∨ n ≤ 8191) :
    ∃ reorder, deinterlace f n pixels = .ok reorder ∧ reorder.length = pixelsN := by
  have hfirst : PassFits f n 8 0 0 := by
    intro k hk hn
    omega
  have hblank : (List.replicate pixelsN (0 : UInt8)).length = pixels.length := by
    rw [List.length_replicate, hlen]
  obtain ⟨k, reorder, hloop, hlen', hend⟩ := @passLoop_ok f pixels (.replicate pixelsN 0) n 8 0
    (f.h + 1) 0 (by decide) (by omega) (Nat.succ_pos _) hblank hfirst
  obtain ⟨outY, reorder', hpasses, hlen''⟩ := @passes_ok f pixels reorder n (0 + k)
    [(4, 8), (2, 4), (1, 2)] (by decide) hlen' (by omega)
  refine ⟨reorder', ?_, hlen''.trans hlen⟩
  rw [deinterlace, passes, hloop, bind_ok, hpasses]
  rfl

theorem fits_of_deinterlace_ok (hlen : pixels.length = pixelsN)
    (h : deinterlace f n pixels = .ok reorder) : f.h ≤ 65528 ∨ n ≤ 8191 := by
  rw [deinterlace, passes] at h
  obtain ⟨s, hpasses, -⟩ := bind_eq_ok h
  obtain ⟨s', hloop, -⟩ := bind_eq_ok hpasses
  have hblank : (List.replicate pixelsN (0 : UInt8)).length = pixels.length := by
    rw [List.length_replicate, hlen]
  have hfits := fits_of_passLoop_ok hblank ⟨s', hloop⟩ 8191
  omega

theorem inOrder_ok (hlen : pixels.length = pixelsN)
    (hfits : f.interlace = true → f.h ≤ 65528 ∨ n ≤ 8191) :
    ∃ reorder, inOrder f n pixels = .ok reorder ∧ reorder.length = pixelsN := by
  rw [inOrder]
  split
  · rename_i hinterlace
    exact deinterlace_ok hlen (hfits hinterlace)
  · exact ⟨pixels, rfl, hlen⟩

theorem fits_of_inOrder (hlen : pixels.length = pixelsN) (h : inOrder f n pixels = .ok reorder) :
    (f.interlace = true → f.h ≤ 65528 ∨ n ≤ 8191) ∧ reorder.length = pixelsN := by
  have hfits : f.interlace = true → f.h ≤ 65528 ∨ n ≤ 8191 := by
    intro hinterlace
    rw [inOrder, if_pos hinterlace] at h
    exact fits_of_deinterlace_ok hlen h
  obtain ⟨reorder', horder, hlen'⟩ := inOrder_ok hlen hfits
  rw [h] at horder
  cases horder
  exact ⟨hfits, hlen'⟩

/-! ## Drawing -/

theorem blitRow_ok_iff (xs : List Nat) :
    (∃ puts', blitRow screen f ct pixels y xs puts = .ok puts') ↔
      ∀ x ∈ xs, f.left + x < screen.width → y * f.w + x < pixels.length := by
  induction xs generalizing puts with
  | nil => exact iff_of_true ⟨puts, rfl⟩ fun x hx => (List.not_mem_nil hx).elim
  | cons x xs ih =>
      rw [blitRow, List.forall_mem_cons]
      split
      · rename_i hout
        rw [ih]
        exact ⟨fun hrest => ⟨fun hin => (Nat.not_le.mpr hin hout).elim, hrest⟩, fun h => h.2⟩
      · rename_i hin
        cases hp : pixels[y * f.w + x]? with
        | none =>
            refine iff_of_false ?_ ?_
            · rintro ⟨puts', hputs⟩
              cases hputs
            · rintro ⟨hfirst, -⟩
              exact Nat.not_le.mpr (hfirst (Nat.not_le.mp hin)) (List.getElem?_eq_none_iff.mp hp)
        | some idx =>
            obtain ⟨hlt, -⟩ := List.getElem?_eq_some_iff.mp hp
            dsimp only
            split
            · rw [ih]
              exact ⟨fun hrest => ⟨fun _ => hlt, hrest⟩, fun h => h.2⟩
            · rw [ih]
              exact ⟨fun hrest => ⟨fun _ => hlt, hrest⟩, fun h => h.2⟩

theorem blit_ok_iff (ys : List Nat) :
    (∃ puts', blit screen f ct pixels ys puts = .ok puts') ↔
      ∀ y ∈ ys, f.top + y < screen.height →
        ∀ x ∈ List.range f.w, f.left + x < screen.width → y * f.w + x < pixels.length := by
  induction ys generalizing puts with
  | nil => exact iff_of_true ⟨puts, rfl⟩ fun y hy => (List.not_mem_nil hy).elim
  | cons y ys ih =>
      rw [blit, List.forall_mem_cons]
      split
      · rename_i hout
        rw [ih]
        exact ⟨fun hrest => ⟨fun hin => (Nat.not_le.mpr hin hout).elim, hrest⟩, fun h => h.2⟩
      · rename_i hin
        rw [← @blitRow_ok_iff screen f ct pixels puts y (List.range f.w)]
        cases hrow : blitRow screen f ct pixels y (List.range f.w) puts with
        | error fault =>
            refine iff_of_false ?_ ?_
            · rintro ⟨puts', hputs⟩
              cases hputs
            · rintro ⟨hfirst, -⟩
              obtain ⟨puts', hputs⟩ := hfirst (Nat.not_le.mp hin)
              cases hputs
        | ok puts' =>
            rw [bind_ok, ih]
            exact ⟨fun hrest => ⟨fun _ => ⟨puts', rfl⟩, hrest⟩, fun h => h.2⟩

end

/-- A frame that can be drawn: its codes are small enough, the loop of `decompress` comes to no
bad turn, an interlaced frame has not too many rows or not so many pixels, and the pixels that are
seen are in the buffer. -/
structure Drawable (screen : Screen) (data : List UInt8) (f : Frame) : Prop where
  lzwMin : f.lzwMin.toNat ≤ 12
  codes : ∀ l s, Lzw.new f.lzwMin.toNat = .ok l →
    Comes pixelsN l (.new data (f.dataOff + 1)) s → ¬BadTurn s
  rows : f.interlace = true → f.h ≤ 65528 ∨ ∀ l s, Lzw.new f.lzwMin.toNat = .ok l →
    Comes pixelsN l (.new data (f.dataOff + 1)) s → s.out.length ≤ 8191
  visible : ∀ y ∈ List.range f.h, f.top + y < screen.height →
    ∀ x ∈ List.range f.w, f.left + x < screen.width → y * f.w + x < pixelsN

section

variable {screen : Screen} {data : List UInt8} {f : Frame} {gct : ColorTable} {puts : List Put}
  {fuel m : Nat}

/-- `render_frame` returns with enough fuel if the frame can be drawn. -/
theorem renderFrame_ok (h : f.dataOff + 1 ≤ data.length → Drawable screen data f) :
    ∃ n, ∀ fuel ≥ n, ∀ puts, ∃ puts', renderFrame fuel screen data f gct puts = .ok puts' := by
  by_cases hstart : f.dataOff + 1 ≤ data.length
  · have hdrawable := h hstart
    obtain ⟨lzw, hnew, hsane⟩ := new_ok hdrawable.lzwMin
    obtain ⟨n, out, hout⟩ := (decompress_ok_iff hsane (stream_new data (f.dataOff + 1)).1).mpr
      fun s => hdrawable.codes lzw s hnew
    obtain ⟨hroom, -, hlast⟩ := decompress_out hout
    have hpixels : (out ++ .replicate (pixelsN - out.length) 0).length = pixelsN := by
      rw [List.length_append, List.length_replicate]
      omega
    have hfits : f.interlace = true → f.h ≤ 65528 ∨ out.length ≤ 8191 := by
      intro hinterlace
      rcases hdrawable.rows hinterlace with hrows | hfew
      · exact Or.inl hrows
      · refine Or.inr ?_
        rcases hlast with rfl | ⟨s, hcomes, rfl⟩
        · exact Nat.zero_le _
        · exact hfew lzw s hnew hcomes
    obtain ⟨pixels, horder, hlen⟩ := inOrder_ok hpixels hfits
    refine ⟨n, fun fuel hfuel puts => ?_⟩
    have hblit := (@blit_ok_iff screen f (frameTable data f gct) pixels puts (List.range f.h)).mpr
      (by rw [hlen]; exact hdrawable.visible)
    rw [renderFrame, if_neg (Nat.not_lt.mpr hstart), hnew, bind_ok, decompress_mono hfuel hout,
      bind_ok]
    dsimp only
    rw [horder]
    exact hblit
  · refine ⟨0, fun fuel _ puts => ⟨puts, ?_⟩⟩
    rw [renderFrame, if_pos (Nat.lt_of_not_le hstart)]

/-- A frame for which `render_frame` returns can be drawn. -/
theorem drawable_of_renderFrame (h : ∃ puts', renderFrame fuel screen data f gct puts = .ok puts')
    (hstart : f.dataOff + 1 ≤ data.length) : Drawable screen data f := by
  obtain ⟨puts', hrender⟩ := h
  rw [renderFrame, if_neg (Nat.not_lt.mpr hstart)] at hrender
  obtain ⟨lzw, hnew, hrender⟩ := bind_eq_ok hrender
  obtain ⟨out, hout, hrender⟩ := bind_eq_ok hrender
  dsimp only at hrender
  obtain ⟨pixels, horder, hblit⟩ := bind_eq_ok hrender
  have hmin : f.lzwMin.toNat ≤ 12 := by
    by_contra hbig
    rw [new_panic (Nat.lt_of_not_le hbig)] at hnew
    cases hnew
  obtain ⟨lzw', hnew', hsane⟩ := new_ok hmin
  have hsame : ∀ l, Lzw.new f.lzwMin.toNat = .ok l → l = lzw := fun l hl => by
    rw [hnew] at hl
    cases hl
    rfl
  have hlzw := hsame lzw' hnew'
  subst hlzw
  obtain ⟨hroom, hmore, -⟩ := decompress_out hout
  have hpixels : (out ++ .replicate (pixelsN - out.length) 0).length = pixelsN := by
    rw [List.length_append, List.length_replicate]
    omega
  obtain ⟨hfits, hlen⟩ := fits_of_inOrder hpixels horder
  refine ⟨hmin, ?_, ?_, ?_⟩
  · intro l s hl
    rw [hsame l hl]
    exact (decompress_ok_iff hsane (stream_new data (f.dataOff + 1)).1).mp ⟨fuel, out, hout⟩ s
  · intro hinterlace
    rcases hfits hinterlace with hrows | hfew
    · exact Or.inl hrows
    · refine Or.inr fun l s hl hcomes => ?_
      rw [hsame l hl] at hcomes
      exact (hmore s hcomes).trans hfew
  · have hvisible := (blit_ok_iff (List.range f.h)).mp ⟨puts', hblit⟩
    rwa [hlen] at hvisible

end

end PureOS.Gif
