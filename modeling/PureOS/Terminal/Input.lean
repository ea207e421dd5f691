import PureOS.Process.Table
import PureOS.Foundation.Slice
import PureOS.Terminal.Lined

set_option autoImplicit false

/-!
# Terminal: a line for a process (`sys_input` in `syscall.rs`)

The call reads keys into the buffer of the caller until Enter.  The other processes run between two
keys and may ask anything of the terminal.
-/

namespace PureOS.Terminal

open PureOS.Foundation PureOS.Process

/-! ## The code -/

/-- The memory, the local `pos` and the terminal. -/
structure Input where
  mem : Nat → UInt8
  pos : Nat
  term : Tty

/-- A turn of the loop: what the other processes ask of the terminal while they run, and what
`read_key` returns then. -/
structure Turn where
  others : List Event
  key : Option UInt8

variable (buf maxlen : Nat)

/-- A key that is not Enter. -/
def Input.edit (k : Input) (ch : UInt8) : Input :=
  if ch = 0x7F ∨ ch = 0x08 then
    if k.pos > 0 then { k with pos := k.pos - 1, term := k.term.putchar 0x7F } else k
  else if 0x20 ≤ ch ∧ ch < 0x7F then
    if k.pos < maxlen - 1 then
      { mem := Function.update k.mem (buf + k.pos) ch
        pos := k.pos + 1
        term := k.term.putchar ch }
    else k
  else k

/-- The loop of `sys_input`, and whether it ended. -/
def inputLoop : List Turn → Input → Input × Bool
  | [], k => (k, false)
  | turn :: turns, k =>
      let k := { k with term := k.term.run turn.others }
      match turn.key with
      | none => inputLoop turns k
      | some ch =>
          if ch = 0x0A ∨ ch = 0x0D then
            ({ k with
              mem := Function.update k.mem (buf + k.pos) 0
              term := k.term.putchar 0x0A }, true)
          else inputLoop turns (k.edit buf maxlen ch)

/-- `sys_input`: what is returned, unless the call still waits. -/
def sysInput (p : Pcb) (turns : List Turn) (mem : Nat → UInt8) (x : Tty) : Option Int × Input :=
  if buf = 0 ∨ maxlen = 0 then (some 0, ⟨mem, 0, x⟩)
  else if ¬p.containsRange buf maxlen then (some errInvalidPointer, ⟨mem, 0, x⟩)
  else
    match inputLoop buf maxlen turns ⟨mem, 0, x⟩ with
    | (k, true) => (some k.pos, k)
    | (k, false) => (none, k)

/-! ## The line that is read -/

/-- Enter. -/
def IsEnter (ch : UInt8) : Prop := ch = 0x0A ∨ ch = 0x0D

instance (ch : UInt8) : Decidable (IsEnter ch) := inferInstanceAs (Decidable (_ ∨ _))

/-- A key that is not Enter, and a line with room for so many bytes. -/
def editInput (limit : Nat) (line : List UInt8) (ch : UInt8) : List UInt8 :=
  if ch = 0x7F ∨ ch = 0x08 then line.dropLast
  else if Graphic ch ∧ line.length < limit then line ++ [ch]
  else line

/-- The keys before Enter. -/
def typedKeys (turns : List Turn) : List UInt8 :=
  (turns.filterMap Turn.key).takeWhile fun ch => ¬IsEnter ch

variable {buf maxlen}
variable {k : Input} {line : List UInt8} {ch : UInt8} {mem : Nat → UInt8}

theorem typedKeys_none {turn : Turn} (hkey : turn.key = none) (turns : List Turn) :
    typedKeys (turn :: turns) = typedKeys turns := by
  simp [typedKeys, hkey]

theorem typedKeys_some {turn : Turn} (hkey : turn.key = some ch) (turns : List Turn) :
    typedKeys (turn :: turns) = if IsEnter ch then [] else ch :: typedKeys turns := by
  rw [typedKeys, List.filterMap_cons_some hkey, List.takeWhile_cons]
  by_cases henter : IsEnter ch <;> simp [henter, typedKeys]

/-- The line stands in the buffer, and nothing outside it was written. -/
structure Holds (buf maxlen : Nat) (mem : Nat → UInt8) (k : Input) (line : List UInt8) : Prop where
  length : line.length = k.pos
  pos_lt : k.pos < maxlen
  graphic : ∀ ch ∈ line, Graphic ch
  slice : slice k.mem buf k.pos = line
  outside : ∀ a, a < buf ∨ buf + maxlen ≤ a → k.mem a = mem a

namespace Holds

theorem edit (h : Holds buf maxlen mem k line) (ch : UInt8) :
    Holds buf maxlen mem (k.edit buf maxlen ch) (editInput (maxlen - 1) line ch) := by
  obtain ⟨hlength, hlt, hgraphic, hslice, houtside⟩ := h
  rw [Input.edit, editInput]
  by_cases hdelete : ch = 0x7F ∨ ch = 0x08
  · rw [if_pos hdelete, if_pos hdelete]
    split
    · next hpos =>
        refine ⟨by simp [hlength], by dsimp only; omega,
          fun b hb => hgraphic b (List.dropLast_subset line hb), ?_, houtside⟩
        dsimp only
        rw [List.dropLast_eq_take, hlength, ← hslice, take_slice k.mem (Nat.sub_le _ _)]
    · next hpos =>
        have hnil : line = [] := List.eq_nil_of_length_eq_zero (by omega)
        subst hnil
        exact ⟨hlength, hlt, hgraphic, hslice, houtside⟩
  rw [if_neg hdelete, if_neg hdelete]
  by_cases hch : 0x20 ≤ ch ∧ ch < 0x7F
  · have hgr : Graphic ch := ⟨hch.1, hch.2⟩
    rw [if_pos hch]
    by_cases hroom : k.pos < maxlen - 1
    · rw [if_pos hroom, if_pos ⟨hgr, by omega⟩]
      refine ⟨by simp [hlength], by dsimp only; omega, ?_, ?_, ?_⟩
      · intro b hb
        rcases List.mem_append.mp hb with hb | hb
        · exact hgraphic b hb
        · rwa [List.mem_singleton.mp hb]
      · dsimp only
        have hsame : Foundation.slice (Function.update k.mem (buf + k.pos) ch) buf k.pos =
            Foundation.slice k.mem buf k.pos :=
          slice_congr fun a _ ha => Function.update_of_ne (by omega) _ _
        rw [slice_append, hsame, hslice]
        simp [Foundation.slice]
      · intro a ha
        dsimp only
        rw [Function.update_of_ne (by omega)]
        exact houtside a ha
    · rw [if_neg hroom, if_neg fun hand => hroom (by omega)]
      exact ⟨hlength, hlt, hgraphic, hslice, houtside⟩
  · rw [if_neg hch, if_neg fun hand => hch ⟨hand.1.space_le, hand.1.lt_delete⟩]
    exact ⟨hlength, hlt, hgraphic, hslice, houtside⟩

/-- The loop keeps the line in the buffer, and ends it with a zero at Enter. -/
theorem loop (turns : List Turn) (h : Holds buf maxlen mem k line) :
    let line' := (typedKeys turns).foldl (editInput (maxlen - 1)) line
    Holds buf maxlen mem (inputLoop buf maxlen turns k).1 line' ∧
      ((inputLoop buf maxlen turns k).2 = true →
        (inputLoop buf maxlen turns k).1.mem (buf + line'.length) = 0) ∧
      ((inputLoop buf maxlen turns k).2 = true ↔
        ∃ ch ∈ turns.filterMap Turn.key, IsEnter ch) := by
  induction turns generalizing k line with
  | nil => exact ⟨h, nofun, by simp [inputLoop]⟩
  | cons turn turns ih =>
      have hothers : Holds buf maxlen mem
          { k with term := k.term.run turn.others } line :=
        ⟨h.length, h.pos_lt, h.graphic, h.slice, h.outside⟩
      rw [inputLoop]
      cases hkey : turn.key with
      | none => simpa [typedKeys_none hkey, hkey] using ih hothers
      | some ch =>
          by_cases henter : ch = 0x0A ∨ ch = 0x0D
          · have hnone : typedKeys (turn :: turns) = [] := by
              rw [typedKeys_some hkey, if_pos (show IsEnter ch from henter)]
            rw [hnone]
            dsimp only
            rw [if_pos henter]
            refine ⟨⟨h.length, h.pos_lt, h.graphic, ?_, ?_⟩, fun _ => ?_, ?_⟩
            · dsimp only
              rw [← h.slice]
              exact slice_congr fun a _ ha => Function.update_of_ne (by omega) _ _
            · intro a ha
              have hlt := h.pos_lt
              dsimp only
              rw [Function.update_of_ne (by omega)]
              exact h.outside a ha
            · dsimp only [List.foldl_nil]
              rw [h.length, Function.update_self]
            · simp [hkey, IsEnter, henter]
          · have hmore : typedKeys (turn :: turns) = ch :: typedKeys turns := by
              rw [typedKeys_some hkey, if_neg (show ¬IsEnter ch from henter)]
            have hrest := ih (hothers.edit ch)
            have hnot : ¬IsEnter ch := henter
            rw [hmore]
            dsimp only
            rw [if_neg henter]
            simpa [hkey, hnot] using hrest

end Holds

/-! ## The line on the screen -/

/-- A key changes the line on the screen as it changes the line. -/
theorem Lined.edit {d : Display} (hd : Fits d) (hroom : maxlen ≤ (d.rows.toNat - 1) * d.cols.toNat)
    (hdisplay : k.term.display = d) (h : Lined d k.term.state line)
    (hlength : line.length = k.pos) (ch : UInt8) :
    (k.edit buf maxlen ch).term.display = d ∧
      Lined d (k.edit buf maxlen ch).term.state (editInput (maxlen - 1) line ch) := by
  subst hdisplay
  rw [Input.edit, editInput]
  by_cases hdelete : ch = 0x7F ∨ ch = 0x08
  · rw [if_pos hdelete, if_pos hdelete]
    rcases List.eq_nil_or_concat line with rfl | ⟨front, last, rfl⟩
    · rw [if_neg (by rw [← hlength]; simp)]
      exact ⟨rfl, h⟩
    · rw [if_pos (by rw [← hlength]; simp), List.concat_eq_append, List.dropLast_concat]
      rw [List.concat_eq_append] at h
      exact ⟨rfl, h.delete hd⟩
  rw [if_neg hdelete, if_neg hdelete]
  by_cases hch : 0x20 ≤ ch ∧ ch < 0x7F
  · have hgr : Graphic ch := ⟨hch.1, hch.2⟩
    rw [if_pos hch]
    by_cases hfit : k.pos < maxlen - 1
    · rw [if_pos hfit, if_pos ⟨hgr, by omega⟩]
      exact ⟨rfl, h.putchar hd hgr (by omega)⟩
    · rw [if_neg hfit, if_neg fun hand => hfit (by omega)]
      exact ⟨rfl, h⟩
  · rw [if_neg hch, if_neg fun hand => hch ⟨hand.1.space_le, hand.1.lt_delete⟩]
    exact ⟨rfl, h⟩

/-- While no other process writes and Enter does not come, the screen shows the line. -/
theorem Lined.loop {d : Display} (hd : Fits d) (hroom : maxlen ≤ (d.rows.toNat - 1) * d.cols.toNat)
    (turns : List Turn) (hsilent : ∀ turn ∈ turns, turn.others = [])
    (hkeys : ∀ ch ∈ turns.filterMap Turn.key, ¬IsEnter ch) (hdisplay : k.term.display = d)
    (h : Lined d k.term.state line) (hholds : Holds buf maxlen mem k line) :
    (inputLoop buf maxlen turns k).1.term.display = d ∧
      Lined d (inputLoop buf maxlen turns k).1.term.state
        ((typedKeys turns).foldl (editInput (maxlen - 1)) line) := by
  induction turns generalizing k line with
  | nil => exact ⟨hdisplay, h⟩
  | cons turn turns ih =>
      have hnone := hsilent turn List.mem_cons_self
      have hsilent' := fun turn' h' => hsilent turn' (List.mem_cons_of_mem _ h')
      rw [inputLoop, hnone, Tty.run_nil]
      cases hkey : turn.key with
      | none =>
          have hrest := ih hsilent' (by simpa [hkey] using hkeys) hdisplay h hholds
          simpa [typedKeys_none hkey, hkey] using hrest
      | some ch =>
          have hnot : ¬IsEnter ch := hkeys ch (by simp [hkey])
          have hmore : typedKeys (turn :: turns) = ch :: typedKeys turns := by
            rw [typedKeys_some hkey, if_neg hnot]
          obtain ⟨hsame, hedited⟩ := h.edit hd hroom hdisplay hholds.length ch
          have hrest := ih hsilent' (fun b hb => hkeys b (by simp [hkey, hb])) hsame hedited
            (hholds.edit ch)
          rw [hmore]
          dsimp only
          rw [if_neg (show ¬(ch = 0x0A ∨ ch = 0x0D) from hnot)]
          exact hrest

/-- A call with a buffer of the process: whatever keys come and whatever the other processes ask of
the terminal, it returns when Enter came, with the length of the line that the keys make.  The line
stands in the buffer with a zero behind it, and no byte outside the buffer is written.  While the
call waits and no other process asks anything of the terminal, the line is to be read on a screen
that showed a grid of text and has room for `maxlen` squares above its last row. -/
theorem sysInput_line {p : Pcb} (hbuf : buf ≠ 0) (hmaxlen : maxlen ≠ 0)
    (hcontains : p.containsRange buf maxlen = true) (turns : List Turn) (mem : Nat → UInt8)
    (x : Tty) :
    let line := (typedKeys turns).foldl (editInput (maxlen - 1)) []
    let result := sysInput buf maxlen p turns mem x
    (result.1 = if ∃ ch ∈ turns.filterMap Turn.key, IsEnter ch then some (line.length : Int)
      else none) ∧
    line.length < maxlen ∧ slice result.2.mem buf line.length = line ∧
    (result.1 ≠ none → result.2.mem (buf + line.length) = 0) ∧
    (∀ a, a < buf ∨ buf + maxlen ≤ a → result.2.mem a = mem a) ∧
    (Legible maxlen x → (∀ turn ∈ turns, turn.others = []) → result.1 = none →
      ∃ base, Reads result.2.term.display result.2.term.state line base) := by
  have hstart : Holds buf maxlen mem ⟨mem, 0, x⟩ [] :=
    ⟨rfl, Nat.pos_of_ne_zero hmaxlen, nofun, rfl, fun _ _ => rfl⟩
  obtain ⟨hholds, hzero, hend⟩ := hstart.loop turns
  have hshown := fun hd hroom hsilent hkeys h =>
    Lined.loop (d := x.display) (k := ⟨mem, 0, x⟩) hd hroom turns hsilent hkeys rfl h hstart
  have hargs : ¬(buf = 0 ∨ maxlen = 0) := not_or.mpr ⟨hbuf, hmaxlen⟩
  dsimp only
  rw [sysInput, if_neg hargs, if_neg (not_not.mpr hcontains)]
  obtain ⟨⟨k, ended⟩, hloop⟩ : ∃ r, r = inputLoop buf maxlen turns ⟨mem, 0, x⟩ := ⟨_, rfl⟩
  rw [← hloop] at hholds hzero hend hshown ⊢
  cases ended with
  | true =>
      refine ⟨?_, ?_, ?_, fun _ => hzero rfl, hholds.outside, fun _ _ h => by cases h⟩
      · rw [if_pos (hend.mp rfl), hholds.length]
      · rw [hholds.length]
        exact hholds.pos_lt
      · rw [hholds.length]
        exact hholds.slice
  | false =>
      have hkeys : ¬∃ ch ∈ turns.filterMap Turn.key, IsEnter ch := fun h =>
        Bool.false_ne_true (hend.mpr h)
      refine ⟨?_, ?_, ?_, fun h => absurd rfl h, hholds.outside, ?_⟩
      · rw [if_neg hkeys]
      · rw [hholds.length]
        exact hholds.pos_lt
      · rw [hholds.length]
        exact hholds.slice
      · intro hlegible hsilent _
        have hnone : ∀ ch ∈ turns.filterMap Turn.key, ¬IsEnter ch := fun ch hmem henter =>
          hkeys ⟨ch, hmem, henter⟩
        obtain ⟨g, hg⟩ := hlegible.shows
        obtain ⟨hdisplay, hlined⟩ := hshown hlegible.fits hlegible.room hsilent hnone hg.lined
        change k.term.display = x.display at hdisplay
        change ∃ base, Reads k.term.display k.term.state _ base
        rw [hdisplay]
        exact hlined.reads

/-- A process with one page and a buffer of four bytes in it.  One key is taken back, another process
clears the screen and sets the glass mode, and Enter comes; and a call that waits behind one key. -/
theorem sysInput_line_page :
    let p : Pcb := { layerBase := 0x1000, layerSize := 0x1000 }
    let x := smallTty.init .default
    let turns : List Turn := [⟨[], some 0x61⟩, ⟨[.clear], none⟩, ⟨[], some 0x62⟩, ⟨[], some 0x08⟩,
      ⟨[.setGlassMode 1], some 0x0D⟩]
    let result := sysInput 0x1010 4 p turns (fun _ => 9) x
    let waiting := sysInput 0x1010 4 p [⟨[], some 0x61⟩] (fun _ => 9) x
    (result.1 = some 1 ∧ slice result.2.mem 0x1010 1 = [0x61] ∧ result.2.mem (0x1010 + 1) = 0 ∧
      result.2.mem 0x1014 = 9) ∧
    waiting.1 = none ∧
      ∃ base, Reads waiting.2.term.display waiting.2.term.state [0x61] base := by
  intro p x turns result waiting
  have hlegible : Legible 4 x :=
    .init (by decide) (by decide)
  obtain ⟨hreturn, -, hslice, hzero, houtside, -⟩ :=
    @sysInput_line 0x1010 4 p (by decide) (by decide) (by decide) turns (fun _ => 9) x
  obtain ⟨hwaits, -, -, -, -, hreads⟩ :=
    @sysInput_line 0x1010 4 p (by decide) (by decide) (by decide) [⟨[], some 0x61⟩] (fun _ => 9) x
  have hwaits := hwaits.trans (if_neg (by decide))
  have hline : (typedKeys turns).foldl (editInput (4 - 1)) [] = [0x61] := by decide
  have hsome : result.1 = some 1 := hreturn.trans (by rw [hline]; decide)
  rw [hline, List.length_singleton] at hslice hzero
  have hlast := houtside 0x1014 (Or.inr (by decide))
  have hzero := hzero (by rw [hsome]; exact Option.some_ne_none _)
  have hreads := hreads hlegible (by simp) hwaits
  dsimp only [result, waiting]
  exact ⟨⟨hsome, hslice, hzero, hlast⟩, hwaits, hreads⟩

end PureOS.Terminal
