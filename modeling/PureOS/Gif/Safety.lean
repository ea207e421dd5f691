import PureOS.Gif.Drawing

set_option autoImplicit false

/-!
# Gif: safety of `decode_gif` (`gif.rs`)

The loop over the blocks goes wrong at an image whose header lacks its last byte.  The frames that
it collects are drawn one after the other, and the place of a frame may be filled before the next
one is drawn.
-/

namespace PureOS.Gif

open PureOS.Foundation
open PureOS.Graphics (Rgb)

/-- The header of the image at a place lacks its last byte. -/
def BadBlock (data : List UInt8) (b : Blocks) : Prop :=
  data[b.pos]? = some 0x2C ∧ b.pos + 9 = data.length

/-- In front of the blocks. -/
def Blocks.start (pos : Nat) : Blocks where
  pos := pos
  tr := false
  ti := 0
  disp := 0
  delay := 0
  frames := []

/-- A frame whose place can be filled: its ends are words of 16 bits. -/
def Disposable (f : Frame) : Prop :=
  f.disposal = 2 ∨ f.disposal = 3 → f.top + f.h < 2 ^ 16 ∧ (f.h = 0 ∨ f.left + f.w < 2 ^ 16)

/-- Where the blocks of a file begin, if it begins as a GIF does. -/
def blocksAt (data : List UInt8) : Option Nat :=
  let pos := 13 + globalSize (data[10]?.getD 0)
  if pos ≤ data.length ∧ (data.take 6 = gif87a ∨ data.take 6 = gif89a) then some pos else none

/-- The files that `decode_gif` can show: the loop over the blocks comes to no bad block, the
first frame that it finds can be drawn, and if there are more, all can be drawn and their places
can be filled. -/
structure Showable (screen : Screen) (data : List UInt8) (pos : Nat) : Prop where
  blocks : ∀ b, Leads (blockTurn data) (.start pos) b → ¬BadBlock data b
  first : ∀ b, Leads (blockTurn data) (.start pos) b → ∀ f, b.frames.head? = some f →
    f.dataOff + 1 ≤ data.length → Drawable screen data f
  animated : ∀ b, Leads (blockTurn data) (.start pos) b → 1 < b.frames.length →
    ∀ f ∈ b.frames, (f.dataOff + 1 ≤ data.length → Drawable screen data f) ∧ Disposable f

section

variable {data : List UInt8} {b b' : Blocks} {i n pos : Nat} {label : UInt8}

/-! ## Blocks -/

theorem byteAt_ok (h : i < data.length) : byteAt data i = .ok data[i] := by
  rw [byteAt, List.getElem?_eq_getElem h]

theorem le16_ok (h : i + 1 < data.length) :
    le16 data i = .ok (data[i].toNat + data[i + 1].toNat * 256) := by
  rw [le16, byteAt_ok (by omega), bind_ok, byteAt_ok h]
  rfl

/-- The loop over the sub-blocks of an extension ends. -/
theorem extension_ok (hpos : 0 < n) (hn : data.length < n + b.pos) :
    ∃ b', extension data label n b = .ok b' ∧ b.pos ≤ b'.pos ∧ b'.frames = b.frames := by
  induction n generalizing b with
  | zero => cases hpos
  | succ n ih =>
      rw [extension]
      split
      · exact ⟨b, rfl, Nat.le_refl _, rfl⟩
      · rename_i hin
        rw [byteAt_ok (by omega), bind_ok]
        dsimp only
        split
        · exact ⟨_, rfl, Nat.le_succ _, rfl⟩
        · rename_i hsz
          have hsize : b.pos + 1 + data[b.pos].toNat ≤ data.length := by omega
          split
          · rename_i hlabel
            obtain ⟨-, hfour⟩ := hlabel
            rw [byteAt_ok (by omega), bind_ok, le16_ok (by omega), bind_ok, byteAt_ok (by omega),
              bind_ok]
            obtain ⟨b', hext, hle, hframes⟩ := @ih
              { b with
                pos := b.pos + 1 + data[b.pos].toNat
                tr := data[b.pos + 1].toNat % 2 ≠ 0
                ti := data[b.pos + 1 + 3]
                disp := data[b.pos + 1].toNat / 4 % 8
                delay := data[b.pos + 1 + 1].toNat + data[b.pos + 1 + 1 + 1].toNat * 256 }
              (by omega) (by dsimp only; omega)
            exact ⟨b', hext, by dsimp only at hle; omega, hframes⟩
          · obtain ⟨b', hext, hle, hframes⟩ := @ih { b with pos := b.pos + 1 + data[b.pos].toNat }
              (by omega) (by dsimp only; omega)
            exact ⟨b', hext, by dsimp only at hle; omega, hframes⟩

/-- The loop over the sub-blocks of an image ends. -/
theorem skipBlocks_ok (hpos : 0 < n) (hn : data.length < n + pos) :
    ∃ pos', skipBlocks data n pos = .ok pos' ∧ pos ≤ pos' := by
  induction n generalizing pos with
  | zero => cases hpos
  | succ n ih =>
      rw [skipBlocks]
      split
      · exact ⟨pos, rfl, Nat.le_refl _⟩
      · rw [byteAt_ok (by omega), bind_ok]
        dsimp only
        split
        · exact ⟨_, rfl, Nat.le_succ _⟩
        · obtain ⟨pos', hskip, hle⟩ := @ih (pos + 1 + data[pos].toNat) (by omega) (by omega)
          exact ⟨pos', hskip, by omega⟩

/-- What a turn does to the frames, and to the place if the loop goes on. -/
structure Passes (b : Blocks) (again : Bool) (b' : Blocks) : Prop where
  pos : again = true → b.pos < b'.pos
  frames : ∃ more, b'.frames = b.frames ++ more
  last : again = false → b'.frames = b.frames

theorem Passes.stop (hframes : b'.frames = b.frames) : Passes b false b' :=
  ⟨fun hagain => Bool.noConfusion hagain, ⟨[], hframes.trans (List.append_nil _).symm⟩, fun _ => hframes⟩

theorem Passes.again {more : List Frame} (hpos : b.pos < b'.pos) (hframes : b'.frames = b.frames ++ more) :
    Passes b true b' :=
  ⟨fun _ => hpos, ⟨more, hframes⟩, fun hlast => Bool.noConfusion hlast⟩

theorem image_panic (h : b.pos + 9 = data.length) : image data b = .error .panic := by
  rw [image]
  dsimp only
  rw [if_neg (by omega), le16_ok (by omega), bind_ok, le16_ok (by omega), bind_ok, le16_ok (by omega),
    bind_ok, le16_ok (by omega), bind_ok, byteAt, List.getElem?_eq_none (by omega)]
  rfl

theorem image_ok (h : b.pos + 9 ≠ data.length) :
    ∃ again b', image data b = .ok (again, b') ∧ Passes b again b' := by
  rw [image]
  dsimp only
  split
  · refine ⟨false, _, rfl, ?_⟩
    exact .stop rfl
  · rw [le16_ok (by omega), bind_ok, le16_ok (by omega), bind_ok, le16_ok (by omega), bind_ok,
      le16_ok (by omega), bind_ok, byteAt_ok (by omega), bind_ok]
    split
    · refine ⟨false, _, rfl, ?_⟩
      exact .stop rfl
    · split
      · refine ⟨false, _, rfl, ?_⟩
        exact .stop rfl
      · rename_i hin
        obtain ⟨pos', hskip, hle⟩ := @skipBlocks_ok data (data.length + 1) _ (Nat.succ_pos _)
          (Nat.lt_add_right _ (Nat.lt_succ_self _))
        rw [byteAt_ok (Nat.lt_of_not_le hin), bind_ok, hskip, bind_ok]
        split
        · refine ⟨true, _, rfl, ?_⟩
          refine @Passes.again _ _ [_] ?_ rfl
          dsimp only
          omega
        · refine ⟨true, _, rfl, ?_⟩
          refine @Passes.again _ _ [] ?_ (List.append_nil _).symm
          dsimp only
          omega

/-- A turn of the loop over the blocks goes on, unless it comes to a bad block. -/
theorem blockTurn_ok (h : ¬BadBlock data b) :
    ∃ again b', blockTurn data b = .ok (again, b') ∧ Passes b again b' := by
  rw [blockTurn]
  split
  · refine ⟨false, _, rfl, ?_⟩
    exact .stop rfl
  · rename_i hin
    rw [byteAt_ok (by omega), bind_ok]
    dsimp only
    split
    · split
      · refine ⟨false, _, rfl, ?_⟩
        exact .stop rfl
      · rw [byteAt_ok (by omega), bind_ok]
        obtain ⟨b', hext, hle, hframes⟩ := @extension_ok data
          { b with pos := b.pos + 1 + 1 } (data.length + 1) data[b.pos + 1] (Nat.succ_pos _)
          (by dsimp only; omega)
        rw [hext]
        refine ⟨true, b', rfl, ?_⟩
        refine @Passes.again _ _ [] ?_ (hframes.trans (List.append_nil _).symm)
        dsimp only at hle
        omega
    · split
      · rename_i hmarker
        refine image_ok fun hlen => h ⟨?_, hlen⟩
        rw [List.getElem?_eq_getElem (by omega), hmarker]
      · split
        · refine ⟨false, _, rfl, ?_⟩
          exact .stop rfl
        · refine ⟨true, _, rfl, ?_⟩
          refine @Passes.again _ _ [] ?_ (List.append_nil _).symm
          exact Nat.lt_succ_self _

theorem blockTurn_panic (h : BadBlock data b) : blockTurn data b = .error .panic := by
  obtain ⟨hmarker, hlen⟩ := h
  rw [blockTurn, if_neg (by omega), byteAt, hmarker]
  dsimp only
  rw [bind_ok, if_neg (by decide), if_pos rfl]
  exact image_panic hlen

theorem blocks_returning (data : List UInt8) :
    Returning (blockTurn data) (fun _ => True) (BadBlock data) fun b => data.length - b.pos where
  good b _ hbad := by
    obtain ⟨again, b', hturn, hpasses⟩ := blockTurn_ok hbad
    refine ⟨again, b', hturn, fun hagain => ⟨trivial, ?_⟩⟩
    have hlt := hpasses.pos hagain
    have hin : b.pos < data.length := by
      refine Nat.lt_of_not_le fun hge => ?_
      rw [blockTurn, if_pos hge] at hturn
      cases hturn
      cases hagain
    omega
  bad b _ hbad := Or.inl ⟨.panic, blockTurn_panic hbad⟩

/-- The frames are kept along the turns. -/
theorem frames_of_leads (h : Leads (blockTurn data) b b') : ∃ more, b'.frames = b.frames ++ more := by
  refine h.keeps (P := fun b' => ∃ more, b'.frames = b.frames ++ more) ⟨[], (List.append_nil _).symm⟩ ?_
  rintro b₁ b₂ ⟨more, hmore⟩ hturn
  have hgood : ¬BadBlock data b₁ := fun hbad => by
    rw [blockTurn_panic hbad] at hturn
    cases hturn
  obtain ⟨again, b₃, hturn', hpasses⟩ := blockTurn_ok hgood
  rw [hturn] at hturn'
  cases hturn'
  obtain ⟨more', hmore'⟩ := hpasses.frames
  exact ⟨more ++ more', by rw [hmore', hmore, List.append_assoc]⟩

/-- The frames that are collected are those of the last state, and begin with those of any
other one. -/
theorem collectFrames_spec {frames : List Frame} (h : collectFrames data pos = .ok frames) :
    (∀ b, Leads (blockTurn data) (.start pos) b → ¬BadBlock data b) ∧
      (∃ b, Leads (blockTurn data) (.start pos) b ∧ b.frames = frames) ∧
      ∀ b, Leads (blockTurn data) (.start pos) b → ∃ more, frames = b.frames ++ more := by
  obtain ⟨last, hturns, hframes⟩ := bind_eq_ok h
  cases hframes
  obtain ⟨b, hleads, hlast⟩ := leads_of_turns hturns
  have hgood := (blocks_returning data).sound trivial hturns
  have hsame : last.frames = b.frames := by
    obtain ⟨again, b', hturn, hpasses⟩ := blockTurn_ok (hgood b hleads)
    rw [hlast] at hturn
    cases hturn
    exact hpasses.last rfl
  refine ⟨hgood, ⟨b, hleads, hsame.symm⟩, fun b' hleads' => ?_⟩
  rw [hsame]
  exact frames_of_leads (hleads'.to_last hleads hlast)

theorem collectFrames_ok (h : ∀ b, Leads (blockTurn data) (.start pos) b → ¬BadBlock data b) :
    ∃ frames, collectFrames data pos = .ok frames := by
  obtain ⟨b, hb⟩ := (blocks_returning data).returns trivial (n := data.length + 1)
    (Nat.lt_succ_of_le (Nat.sub_le _ _)) h
  refine ⟨b.frames, ?_⟩
  rw [collectFrames]
  exact congrArg (· >>= fun b => pure b.frames) hb

end

/-! ## The animation -/

section

variable {screen : Screen} {data : List UInt8} {frames : List Frame} {gct : ColorTable} {bgc : Rgb}
  {f last : Frame} {fuel rounds fi : Nat} {puts : List Put}

theorem dispose_ok_iff : (∃ puts', dispose f bgc puts = .ok puts') ↔ Disposable f := by
  rw [dispose, Disposable]
  split
  · rename_i hdisposal
    split
    · rename_i hbig
      refine iff_of_false ?_ fun h => ?_
      · rintro ⟨puts', hputs⟩
        cases hputs
      · have hfits := h hdisposal
        omega
    · rename_i hsmall
      exact iff_of_true ⟨_, rfl⟩ fun _ => by omega
  · rename_i hnone
    exact iff_of_true ⟨_, rfl⟩ fun hdisposal => (hnone hdisposal).elim

/-- One amount of fuel is enough for all the frames. -/
theorem renderFrames_ok (h : ∀ f ∈ frames, f.dataOff + 1 ≤ data.length → Drawable screen data f) :
    ∃ n, ∀ f ∈ frames, ∀ fuel ≥ n, ∀ puts,
      ∃ puts', renderFrame fuel screen data f gct puts = .ok puts' := by
  induction frames with
  | nil => exact ⟨0, fun f hf => (List.not_mem_nil hf).elim⟩
  | cons f frames ih =>
      obtain ⟨n, hn⟩ := ih fun g hg => h g (List.mem_cons_of_mem _ hg)
      obtain ⟨m, hm⟩ := @renderFrame_ok screen data f gct (h f List.mem_cons_self)
      refine ⟨max n m, fun g hg fuel hfuel => ?_⟩
      rcases List.mem_cons.mp hg with rfl | hg
      · exact hm fuel ((Nat.le_max_right n m).trans hfuel)
      · exact hn g hg fuel ((Nat.le_max_left n m).trans hfuel)

/-- The number of the next frame. -/
theorem next_lt (h : fi < frames.length) :
    (if fi + 1 ≥ frames.length then 0 else fi + 1) < frames.length := by
  split
  · exact Nat.zero_lt_of_lt h
  · rename_i hlt
    exact Nat.lt_of_not_le hlt

theorem animate_ok (hrender : ∀ f ∈ frames, ∀ puts,
      ∃ puts', renderFrame fuel screen data f gct puts = .ok puts')
    (hdispose : ∀ f ∈ frames, Disposable f) (hlast : Disposable last) (hfi : fi < frames.length) :
    ∃ puts', animate fuel screen data frames gct bgc rounds fi last puts = .ok puts' := by
  induction rounds generalizing fi last puts with
  | zero => exact ⟨puts, rfl⟩
  | succ rounds ih =>
      have hmem : frames[fi] ∈ frames := List.getElem_mem hfi
      obtain ⟨puts₁, hfill⟩ := (@dispose_ok_iff bgc last puts).mpr hlast
      obtain ⟨puts₂, hdraw⟩ := hrender frames[fi] hmem puts₁
      obtain ⟨puts₃, hrest⟩ := @ih frames[fi] _ puts₂ (hdispose frames[fi] hmem) (next_lt hfi)
      refine ⟨puts₃, ?_⟩
      rw [animate, List.getElem?_eq_getElem hfi]
      dsimp only
      rw [hfill, bind_ok, hdraw]
      exact hrest

/-- What a turn of the animation has done. -/
theorem animate_turn {puts' : List Put}
    (h : animate fuel screen data frames gct bgc (rounds + 1) fi last puts = .ok puts') :
    Disposable last ∧ ∃ f, frames[fi]? = some f ∧
      (∃ puts₁ puts₂, renderFrame fuel screen data f gct puts₁ = .ok puts₂) ∧
      ∃ puts₂, animate fuel screen data frames gct bgc rounds
        (if fi + 1 ≥ frames.length then 0 else fi + 1) f puts₂ = .ok puts' := by
  rw [animate] at h
  cases hf : frames[fi]? with
  | none =>
      rw [hf] at h
      cases h
  | some f =>
      rw [hf] at h
      obtain ⟨puts₁, hfill, h⟩ := bind_eq_ok h
      obtain ⟨puts₂, hdraw, h⟩ := bind_eq_ok h
      exact ⟨dispose_ok_iff.mp ⟨puts₁, hfill⟩, f, rfl, ⟨puts₁, puts₂, hdraw⟩, puts₂, h⟩

/-- With enough turns the animation has drawn each frame from `fi` on, and has filled the places
of all but the last one that it has drawn. -/
theorem animate_all {puts' : List Put}
    (h : animate fuel screen data frames gct bgc rounds fi last puts = .ok puts') :
    (0 < rounds → Disposable last) ∧ ∀ k f, fi ≤ k → k < fi + rounds → frames[k]? = some f →
      (∃ puts₁ puts₂, renderFrame fuel screen data f gct puts₁ = .ok puts₂) ∧
        (k + 1 < fi + rounds → Disposable f) := by
  induction rounds generalizing fi last puts with
  | zero =>
      refine ⟨fun hpos => (Nat.lt_irrefl _ hpos).elim, fun k f hle hlt => ?_⟩
      omega
  | succ rounds ih =>
      obtain ⟨hlast, f₀, hf₀, hdraw, puts₂, hrest⟩ := animate_turn h
      obtain ⟨hfirst, hall⟩ := ih hrest
      refine ⟨fun _ => hlast, fun k f hle hlt hf => ?_⟩
      rcases Nat.eq_or_lt_of_le hle with rfl | hgt
      · rw [hf₀] at hf
        cases hf
        exact ⟨hdraw, fun hmore => hfirst (by omega)⟩
      · have hk : k < frames.length := (List.getElem?_eq_some_iff.mp hf).1
        rw [if_neg (by omega)] at hall
        obtain ⟨hdraw', hfill⟩ := hall k f hgt (by omega) hf
        exact ⟨hdraw', fun hmore => hfill (by omega)⟩

/-! ## Files -/

/-- `drawFrames` returns, however long the animation goes on. -/
theorem drawFrames_ok
    (hfirst : ∀ f, frames.head? = some f → f.dataOff + 1 ≤ data.length → Drawable screen data f)
    (hanimated : 1 < frames.length → ∀ f ∈ frames,
      (f.dataOff + 1 ≤ data.length → Drawable screen data f) ∧ Disposable f) (rounds : Nat) :
    ∃ fuel r, drawFrames fuel screen rounds data gct bgc frames = .ok r := by
  cases frames with
  | nil => exact ⟨0, _, rfl⟩
  | cons first rest =>
      cases rest with
      | nil =>
          obtain ⟨n, hn⟩ := @renderFrame_ok screen data first gct (hfirst first rfl)
          obtain ⟨puts, hputs⟩ := hn n (Nat.le_refl n) []
          refine ⟨n, (true, puts), ?_⟩
          rw [drawFrames, hputs]
          rfl
      | cons second rest =>
          have hall := hanimated (Nat.succ_lt_succ (Nat.succ_pos _))
          obtain ⟨n, hn⟩ := @renderFrames_ok screen data (first :: second :: rest) gct
            fun f hf => (hall f hf).1
          obtain ⟨puts, hputs⟩ := hn first List.mem_cons_self n (Nat.le_refl n) []
          obtain ⟨puts', hanimate⟩ := @animate_ok screen data (first :: second :: rest) gct bgc first n
            rounds 1 puts (fun f hf => hn f hf n (Nat.le_refl n)) (fun f hf => (hall f hf).2)
            (hall first List.mem_cons_self).2 (Nat.succ_lt_succ (Nat.succ_pos _))
          refine ⟨n, (true, puts'), ?_⟩
          rw [drawFrames, hputs, bind_ok, if_neg (List.cons_ne_nil _ _), hanimate]
          rfl

theorem frames_of_drawFrames
    (h : ∀ rounds, ∃ fuel r, drawFrames fuel screen rounds data gct bgc frames = .ok r) :
    (∀ f, frames.head? = some f → f.dataOff + 1 ≤ data.length → Drawable screen data f) ∧
      (1 < frames.length → ∀ f ∈ frames,
        (f.dataOff + 1 ≤ data.length → Drawable screen data f) ∧ Disposable f) := by
  -- Each frame is drawn once more in as many turns as there are frames.
  obtain ⟨fuel, r, hdraw⟩ := h frames.length
  cases frames with
  | nil => exact ⟨fun f hf => (by cases hf), fun hlen => (Nat.not_lt_zero _ hlen).elim⟩
  | cons first rest =>
      rw [drawFrames] at hdraw
      obtain ⟨puts, hputs, hdraw⟩ := bind_eq_ok hdraw
      have hfirst := @drawable_of_renderFrame screen data first gct [] fuel ⟨puts, hputs⟩
      refine ⟨?_, fun hlen f hf => ?_⟩
      · intro f hf
        cases hf
        exact hfirst
      · have hrest : rest ≠ [] := by
          rintro rfl
          exact Nat.lt_irrefl _ hlen
        rw [if_neg hrest] at hdraw
        obtain ⟨puts', hanimate, -⟩ := bind_eq_ok hdraw
        obtain ⟨hlast, hall⟩ := animate_all hanimate
        rcases List.mem_cons.mp hf with rfl | hf
        · exact ⟨hfirst, hlast (Nat.zero_lt_of_lt hlen)⟩
        · obtain ⟨k, hk, rfl⟩ := List.getElem_of_mem hf
          obtain ⟨⟨puts₁, puts₂, hrender⟩, hfill⟩ := hall (k + 1) rest[k] (Nat.le_add_left 1 k)
            (by rw [List.length_cons]; omega) (by
              rw [List.getElem?_cons_succ]
              exact List.getElem?_eq_getElem hk)
          exact ⟨drawable_of_renderFrame ⟨puts₂, hrender⟩, hfill (by rw [List.length_cons]; omega)⟩

/-- A file that does not begin as a GIF does is refused, and another one is drawn. -/
theorem decodeGif_eq (screen : Screen) (data : List UInt8) :
    ∃ gct bgc, ∀ fuel rounds, decodeGif fuel screen rounds data =
      match blocksAt data with
      | none => .ok (false, [])
      | some pos => collectFrames data pos >>= drawFrames fuel screen rounds data gct bgc := by
  refine ⟨globalTable data (data[10]?.getD 0), fillColor (globalTable data (data[10]?.getD 0))
    (data[10]?.getD 0) (data[11]?.getD 0), fun fuel rounds => ?_⟩
  rw [decodeGif, blocksAt]
  split
  · rw [if_neg]
    omega
  · split
    · rename_i hmagic
      rw [if_neg]
      rintro ⟨-, hmagic'⟩
      exact hmagic'.elim hmagic.1 hmagic.2
    · rename_i hmagic
      split
      · rw [if_neg]
        omega
      · rw [byteAt_ok (by omega), bind_ok, byteAt_ok (by omega), bind_ok,
          List.getElem?_eq_getElem (by omega), List.getElem?_eq_getElem (by omega)]
        dsimp only [Option.getD_some]
        split
        · rw [if_neg]
          · rfl
          · omega
        · rw [if_pos]
          refine ⟨by omega, ?_⟩
          by_contra hnone
          exact hmagic (not_or.mp hnone)

end

/-- `decode_gif` returns, however long the animation goes on, on exactly the files that do not
begin as a GIF does and those that it can show. -/
theorem decodeGif_returns_iff (screen : Screen) (data : List UInt8) :
    (∀ rounds, ∃ fuel r, decodeGif fuel screen rounds data = .ok r) ↔
      ∀ pos, blocksAt data = some pos → Showable screen data pos := by
  obtain ⟨gct, bgc, heq⟩ := decodeGif_eq screen data
  cases hblocks : blocksAt data with
  | none =>
      refine iff_of_true (fun rounds => ⟨0, (false, []), ?_⟩) fun pos hpos => by cases hpos
      rw [heq, hblocks]
  | some pos =>
      have hdecode : ∀ fuel rounds, decodeGif fuel screen rounds data =
          collectFrames data pos >>= drawFrames fuel screen rounds data gct bgc := by
        intro fuel rounds
        rw [heq, hblocks]
      refine ⟨fun hreturns pos' hpos => ?_, fun hshowable rounds => ?_⟩
      · cases hpos
        obtain ⟨fuel, r, hr⟩ := hreturns 0
        rw [hdecode] at hr
        obtain ⟨frames, hframes, -⟩ := bind_eq_ok hr
        obtain ⟨hgood, -, hmore⟩ := collectFrames_spec hframes
        obtain ⟨hfirst, hanimated⟩ := @frames_of_drawFrames screen data frames gct bgc fun rounds => by
          obtain ⟨fuel, r, hr⟩ := hreturns rounds
          rw [hdecode, hframes] at hr
          exact ⟨fuel, r, hr⟩
        refine ⟨hgood, ?_, ?_⟩
        · intro b hleads f hf
          obtain ⟨more, rfl⟩ := hmore b hleads
          refine hfirst f ?_
          rw [List.head?_append, hf]
          rfl
        · intro b hleads hlen f hf
          obtain ⟨more, rfl⟩ := hmore b hleads
          refine hanimated ?_ f (List.mem_append_left _ hf)
          rw [List.length_append]
          omega
      · have hshow := hshowable pos rfl
        obtain ⟨frames, hframes⟩ := collectFrames_ok hshow.blocks
        obtain ⟨-, ⟨b, hleads, hb⟩, -⟩ := collectFrames_spec hframes
        have hfirst := hshow.first b hleads
        have hanimated := hshow.animated b hleads
        rw [hb] at hfirst hanimated
        obtain ⟨fuel, r, hdraw⟩ := @drawFrames_ok screen data frames gct bgc hfirst hanimated rounds
        refine ⟨fuel, r, ?_⟩
        rw [hdecode, hframes]
        exact hdraw

/-- A file that ends in the header of an image, without its last byte. -/
def cutImage : List UInt8 :=
  gif89a ++ [1, 0, 1, 0, 0, 0, 0] ++ [0x2C, 0, 0, 0, 0, 1, 0, 1, 0]

theorem not_decodeGif_returns :
    ¬∀ (screen : Screen) (data : List UInt8) (rounds : Nat),
      ∃ fuel r, decodeGif fuel screen rounds data = .ok r := by
  intro h
  obtain ⟨fuel, r, hr⟩ := h ⟨640, 480⟩ cutImage 0
  obtain ⟨gct, bgc, heq⟩ := decodeGif_eq ⟨640, 480⟩ cutImage
  have hblocks : blocksAt cutImage = some 13 := by decide +kernel
  have hpanic : collectFrames cutImage 13 = .error .panic := by decide +kernel
  rw [heq, hblocks] at hr
  dsimp only at hr
  rw [hpanic] at hr
  cases hr

end PureOS.Gif
