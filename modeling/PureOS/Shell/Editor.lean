import PureOS.Foundation.Bytes
import PureOS.Terminal.Input

set_option autoImplicit false

/-!
# Shell: the command line (`shell.rs`)

Keys edit a buffer of 512 bytes and are echoed on the terminal.  What a command does is a parameter:
it may ask anything of the terminal, also another font, other colours or the glass mode, and may
change the mode and whatever else there is.
-/

namespace PureOS.Shell

open PureOS.Foundation PureOS.Graphics PureOS.Config PureOS.Terminal

variable {σ : Type}

/-! ## The code -/

/-- The table of `execute_command` with the history before it, and `barrel::exec`: what they ask of
the terminal, the mode that is left, and what they change. -/
structure Commands (σ : Type) where
  command : List UInt8 → σ → List Event × Bool × σ
  barrel : List UInt8 → σ → List Event × σ

/-- `CMD_BUF`, `CMD_LEN` and `BARREL_MODE`, the terminal, and what the commands change. -/
structure Session (σ : Type) where
  buf : Nat → UInt8
  len : Nat
  barrelMode : Bool
  term : Tty
  world : σ

/-- The prompt of a mode. -/
def promptText (barrelMode : Bool) : List UInt8 :=
  if barrelMode then ascii "barrel> " else ascii "pureos$ "

/-- `show_banner`. -/
def bannerText : List UInt8 :=
  ascii "\n" ++
    ascii "  +----------------------------------------------------------+\n" ++
    ascii "  |  PUREOS  v0.4\t\t   (crystal)                    |\n" ++
    ascii "  |  Type 'help'    - all commands                            |\n" ++
    ascii "  |  Type 'man'     - documentation index                     |\n" ++
    ascii "  |  Type 'barrel'  - Barrel scripting REPL                   |\n" ++
    ascii "  |  Type 'top'     - system monitor                          |\n" ++
    ascii "  +----------------------------------------------------------+\n" ++
    ascii "\n"

namespace Session

variable (c : Commands σ)

/-- The command line: `CMD_LEN` bytes of `CMD_BUF`. -/
def line (s : Session σ) : List UInt8 := slice s.buf 0 s.len

/-- `show_prompt`. -/
def showPrompt (s : Session σ) : Session σ :=
  { s with term := s.term.write (promptText s.barrelMode) }

/-- `execute_barrel`. -/
def executeBarrel (s : Session σ) : Session σ :=
  if s.len = 0 then s
  else if s.line = ascii "exit" then
    { s with barrelMode := false, term := s.term.write (ascii "Leaving Barrel REPL\n") }
  else
    let (events, w) := c.barrel s.line s.world
    { s with term := s.term.run events, world := w }

/-- `execute_command`. -/
def executeCommand (s : Session σ) : Session σ :=
  if s.len = 0 then s
  else
    let (events, mode, w) := c.command s.line s.world
    { s with term := s.term.run events, barrelMode := mode, world := w }

/-- The loop of the escape key. -/
def killLoop : Nat → Session σ → Session σ
  | 0, s => s
  | n + 1, s =>
      if s.len > 0 then killLoop n { s with len := s.len - 1, term := s.term.putchar 0x7F } else s

/-- Enter: the line is run, and the prompt is written. -/
def enter (s : Session σ) : Session σ :=
  let s := { s with term := s.term.putchar 0x0A }
  let s := if s.barrelMode then s.executeBarrel c else s.executeCommand c
  showPrompt { s with len := 0 }

/-- `handle_key`. -/
def handleKey (s : Session σ) (ch : UInt8) : Session σ :=
  if ch = 0x7F ∨ ch = 0x08 then
    if s.len > 0 then { s with len := s.len - 1, term := s.term.putchar 0x7F } else s
  else if ch = 0x0A ∨ ch = 0x0D then s.enter c
  else if ch = 0x1B then s.killLoop s.len
  else if 0x20 ≤ ch ∧ ch < 0x7F then
    if s.len < 512 - 1 then
      { s with
        buf := Function.update s.buf s.len ch
        len := s.len + 1
        term := s.term.putchar ch }
    else s
  else s

/-- The terminal that `run` finds or makes. -/
def started (cfg : SystemConfig) (x : Tty) : Tty := if x.state.ready then x else x.init cfg

/-- `run`, up to the loop. -/
def run (cfg : SystemConfig) (x : Tty) (w : σ) : Session σ :=
  showPrompt ⟨fun _ => 0, 0, false, (started cfg x).clear.write bannerText, w⟩

end Session

/-! ## The line that is edited -/

/-- A key and a line that has room for 511 bytes. -/
def editKey (line : List UInt8) (ch : UInt8) : List UInt8 :=
  if ch = 0x7F ∨ ch = 0x08 then line.dropLast
  else if ch = 0x0A ∨ ch = 0x0D ∨ ch = 0x1B then []
  else if Graphic ch ∧ line.length < 511 then line ++ [ch]
  else line

/-- What Enter does with a line. -/
def Commands.enter (c : Commands σ) (barrelMode : Bool) (line : List UInt8) (w : σ) : σ :=
  if line = [] then w
  else if barrelMode then
    if line = ascii "exit" then w else (c.barrel line w).2
  else (c.command line w).2.2

variable {c : Commands σ} {s : Session σ} {x : Tty} {line : List UInt8} {room : Nat}
variable {screen : Screen}

/-! ## A screen that can be read -/

theorem write_lined (hd : Fits x.display) {bytes : List UInt8}
    (h : Lined x.display x.state line) (hbytes : ∀ ch ∈ bytes, Graphic ch)
    (hroom : line.length + bytes.length ≤ (x.display.rows.toNat - 1) * x.display.cols.toNat) :
    Lined x.display (x.write bytes).state (line ++ bytes) := by
  induction bytes generalizing x line with
  | nil => rwa [List.append_nil]
  | cons ch bytes ih =>
      rw [List.length_cons] at hroom
      have hstep := h.putchar hd (hbytes ch List.mem_cons_self) (by omega)
      have hrest := @ih (x.putchar ch) _ hd hstep (fun b hb => hbytes b (List.mem_cons_of_mem _ hb))
        (by rw [List.length_append, List.length_singleton, Nat.add_assoc, Nat.add_comm 1]
            exact hroom)
      rwa [List.append_assoc] at hrest

theorem promptText_graphic (mode : Bool) : ∀ ch ∈ promptText mode, Graphic ch := by
  cases mode
  · exact List.forall_iff_forall_mem.mp (by simp [promptText, ascii]; decide)
  · exact List.forall_iff_forall_mem.mp (by simp [promptText, ascii]; decide)

theorem length_promptText (mode : Bool) : (promptText mode).length = 8 := by
  cases mode <;> rfl

/-! ## What a key does to the line -/

namespace Session

@[simp] theorem length_line (s : Session σ) : s.line.length = s.len := length_slice ..

theorem line_eq_nil : s.line = [] ↔ s.len = 0 := by
  rw [← List.length_eq_zero_iff, length_line]

theorem line_eq_append (h : 0 < s.len) :
    s.line = slice s.buf 0 (s.len - 1) ++ [s.buf (s.len - 1)] := by
  have hsplit := slice_append s.buf 0 (s.len - 1) 1
  rw [Nat.sub_add_cancel h] at hsplit
  rw [line, hsplit]
  simp [slice]

theorem dropLast_line (h : 0 < s.len) : s.line.dropLast = slice s.buf 0 (s.len - 1) := by
  rw [line_eq_append h, List.dropLast_concat]

theorem slice_update (s : Session σ) (ch : UInt8) :
    slice (Function.update s.buf s.len ch) 0 (s.len + 1) = s.line ++ [ch] := by
  rw [slice_append, line]
  congr 1
  · exact slice_congr fun a _ ha => Function.update_of_ne (by omega) _ _
  · simp [slice]

theorem len_killLoop (n : Nat) (hn : s.len ≤ n) : (s.killLoop n).len = 0 := by
  induction n generalizing s with
  | zero => exact Nat.le_zero.mp hn
  | succ n ih =>
      rw [Session.killLoop]
      split
      · exact ih (by dsimp only; omega)
      · next hlen => exact Nat.eq_zero_of_not_pos hlen

/-- A key edits the line. -/
theorem line_handleKey (s : Session σ) (c : Commands σ) (ch : UInt8) :
    (s.handleKey c ch).line = editKey s.line ch := by
  rw [Session.handleKey, editKey]
  by_cases hdelete : ch = 0x7F ∨ ch = 0x08
  · rw [if_pos hdelete, if_pos hdelete]
    split
    · next hlen => exact (dropLast_line hlen).symm
    · next hlen => rw [line_eq_nil.mpr (Nat.eq_zero_of_not_pos hlen)]; rfl
  rw [if_neg hdelete, if_neg hdelete]
  by_cases henter : ch = 0x0A ∨ ch = 0x0D
  · have hend : ch = 0x0A ∨ ch = 0x0D ∨ ch = 0x1B := by simpa [← or_assoc] using Or.inl henter
    rw [if_pos henter, if_pos hend]
    rfl
  rw [if_neg henter]
  by_cases hescape : ch = 0x1B
  · rw [if_pos hescape, if_pos (Or.inr (Or.inr hescape))]
    exact line_eq_nil.mpr (len_killLoop s.len le_rfl)
  have hgoes : ¬(ch = 0x0A ∨ ch = 0x0D ∨ ch = 0x1B) := by
    rw [← or_assoc]
    exact not_or.mpr ⟨henter, hescape⟩
  rw [if_neg hescape, if_neg hgoes]
  by_cases hch : 0x20 ≤ ch ∧ ch < 0x7F
  · rw [if_pos hch]
    by_cases hlen : s.len < 511
    · rw [if_pos hlen, if_pos ⟨⟨hch.1, hch.2⟩, by rwa [length_line]⟩]
      exact slice_update s ch
    · rw [if_neg hlen, if_neg (by simp [hlen])]
  · rw [if_neg hch, if_neg fun hand => hch ⟨hand.1.space_le, hand.1.lt_delete⟩]

theorem line_handleKeys (keys : List UInt8) (s : Session σ) :
    (keys.foldl (handleKey c) s).line = keys.foldl editKey s.line := by
  induction keys generalizing s with
  | nil => rfl
  | cons ch keys ih => rw [List.foldl_cons, List.foldl_cons, ih, line_handleKey]

/-- The line is run. -/
theorem world_execute (s : Session σ) (c : Commands σ) :
    (if s.barrelMode then s.executeBarrel c else s.executeCommand c).world =
      c.enter s.barrelMode s.line s.world := by
  rw [Commands.enter]
  by_cases hlen : s.len = 0
  · rw [if_pos (line_eq_nil.mpr hlen)]
    split
    · rw [executeBarrel, if_pos hlen]
    · rw [executeCommand, if_pos hlen]
  · rw [if_neg fun hline => hlen (line_eq_nil.mp hline)]
    split
    · rw [executeBarrel, if_neg hlen]
      split
      · rfl
      · rfl
    · rw [executeCommand, if_neg hlen]

/-- Enter runs the line. -/
theorem world_enter (s : Session σ) (c : Commands σ) :
    (s.enter c).world = c.enter s.barrelMode s.line s.world :=
  world_execute { s with term := s.term.putchar 0x0A } c

end Session

/-! ## The line on the screen -/

/-- Squares for the prompt and a full line. -/
def fullLine : Nat := 519

/-- Commands that leave a screen that can be read: they may change font and colours and use the
glass mode, but in the end the screen shows a grid of text with room for the prompt and a line. -/
structure Commands.LeaveLegible (c : Commands σ) (screen : Screen) : Prop where
  command : ∀ line w x, x.display.screen = screen → Legible fullLine x →
    Legible fullLine (x.run (c.command line w).1)
  barrel : ∀ line w x, x.display.screen = screen → Legible fullLine x →
    Legible fullLine (x.run (c.barrel line w).1)

namespace Session

/-- The prompt and the line end at the cursor. -/
structure Shown (screen : Screen) (s : Session σ) : Prop where
  len_le : s.len ≤ 511
  same : s.term.display.screen = screen
  fits : Fits s.term.display
  room : fullLine ≤ (s.term.display.rows.toNat - 1) * s.term.display.cols.toNat
  lined : Lined s.term.display s.term.state (promptText s.barrelMode ++ s.line)

theorem Shown.legible (h : s.Shown screen) : Legible fullLine s.term := by
  obtain ⟨g, -, -, -, href, -⟩ := h.lined
  exact ⟨h.fits, h.room, g, href⟩

/-- On a screen that can be read the prompt is written. -/
theorem showPrompt_shown (hsame : s.term.display.screen = screen) (h : Legible fullLine s.term)
    (hlen : s.len = 0) : s.showPrompt.Shown screen := by
  obtain ⟨g, hg⟩ := h.shows
  have hfit : ([] : List UInt8).length + (promptText s.barrelMode).length ≤
      (s.term.display.rows.toNat - 1) * s.term.display.cols.toNat := by
    rw [length_promptText]
    exact Nat.le_trans (by decide) h.room
  have hprompt := write_lined h.fits hg.lined (promptText_graphic s.barrelMode) hfit
  have hdisplay := write_display s.term (promptText s.barrelMode)
  have hline : s.showPrompt.line = [] := line_eq_nil.mpr hlen
  refine ⟨Nat.le_trans (Nat.le_of_eq hlen) (Nat.zero_le _), ?_, ?_, ?_, ?_⟩
  · exact (congrArg Display.screen hdisplay).trans hsame
  · exact hdisplay ▸ h.fits
  · exact hdisplay ▸ h.room
  · rw [hline, List.append_nil]
    exact hdisplay ▸ hprompt

/-- The last byte is taken back. -/
theorem Shown.delete (h : s.Shown screen) (hlen : 0 < s.len) :
    Shown screen { s with len := s.len - 1, term := s.term.putchar 0x7F } := by
  have hlined := h.lined
  rw [line_eq_append hlen, ← List.append_assoc] at hlined
  exact ⟨Nat.le_trans (Nat.sub_le _ _) h.len_le, h.same, h.fits, h.room, hlined.delete h.fits⟩

theorem Shown.killLoop (n : Nat) (h : s.Shown screen) : (s.killLoop n).Shown screen := by
  induction n generalizing s with
  | zero => exact h
  | succ n ih =>
      rw [Session.killLoop]
      split
      · next hlen => exact ih (h.delete hlen)
      · exact h

/-- A byte is written behind the line. -/
theorem Shown.type (h : s.Shown screen) {ch : UInt8} (hch : Graphic ch) (hlen : s.len < 511) :
    Shown screen { s with
      buf := Function.update s.buf s.len ch
      len := s.len + 1
      term := s.term.putchar ch } := by
  have hfit : (promptText s.barrelMode ++ s.line).length <
      (s.term.display.rows.toNat - 1) * s.term.display.cols.toNat := by
    rw [List.length_append, length_promptText, length_line]
    exact Nat.lt_of_lt_of_le (by unfold fullLine; omega) h.room
  have hstep := h.lined.putchar h.fits hch hfit
  rw [List.append_assoc, ← slice_update] at hstep
  exact ⟨hlen, h.same, h.fits, h.room, hstep⟩

/-- The line is run on a screen that can be read, and leaves one. -/
theorem execute_legible (hc : c.LeaveLegible screen) (hsame : s.term.display.screen = screen)
    (h : Legible fullLine s.term) :
    let s' := if s.barrelMode then s.executeBarrel c else s.executeCommand c
    s'.term.display.screen = screen ∧ Legible fullLine s'.term := by
  have hrun (events : List Event) : (s.term.run events).display.screen = screen :=
    (s.term.run_screen events).trans hsame
  dsimp only
  split
  · unfold executeBarrel
    split
    · exact ⟨hsame, h⟩
    split
    · exact ⟨(congrArg Display.screen (write_display _ _)).trans hsame, h.write _⟩
    · exact ⟨hrun _, hc.barrel _ _ _ hsame h⟩
  · unfold executeCommand
    split
    · exact ⟨hsame, h⟩
    · exact ⟨hrun _, hc.command _ _ _ hsame h⟩

/-- Enter leaves the prompt. -/
theorem Shown.enter (hc : c.LeaveLegible screen) (h : s.Shown screen) :
    (s.enter c).Shown screen := by
  obtain ⟨hsame, hlegible⟩ := execute_legible
    (s := { s with term := s.term.putchar 0x0A }) hc h.same (h.legible.putchar 0x0A)
  exact showPrompt_shown hsame hlegible rfl

/-- A key changes the line on the screen. -/
theorem Shown.handleKey (hc : c.LeaveLegible screen) (h : s.Shown screen) (ch : UInt8) :
    (s.handleKey c ch).Shown screen := by
  unfold Session.handleKey
  split
  · split
    · next hlen => exact h.delete hlen
    · exact h
  split
  · exact h.enter hc
  split
  · exact h.killLoop s.len
  split
  · next hch =>
      split
      · next hlen => exact h.type ⟨hch.1, hch.2⟩ hlen
      · exact h
  · exact h

theorem Shown.handleKeys (hc : c.LeaveLegible screen) (keys : List UInt8) (h : s.Shown screen) :
    (keys.foldl (Session.handleKey c) s).Shown screen := by
  induction keys generalizing s with
  | nil => exact h
  | cons ch keys ih => exact ih (h.handleKey hc ch)

/-- After `run` the prompt stands on the screen. -/
theorem run_shown {cfg : SystemConfig} (w : σ) (hd : Fits (started cfg x).display)
    (hroom : fullLine ≤ ((started cfg x).display.rows.toNat - 1) *
      (started cfg x).display.cols.toNat) :
    (run cfg x w).Shown x.display.screen := by
  have hscreen : (started cfg x).display.screen = x.display.screen := by
    unfold started
    split <;> rfl
  have hready : (started cfg x).state.ready = true := by
    unfold started at hd ⊢
    split at hd
    · next h => rw [if_pos h, h]
    · next h =>
        rw [if_neg h]
        exact hd.ready
  have hclear := Legible.clear hd hroom hready
  unfold Session.run
  generalize bannerText = text
  exact showPrompt_shown ((congrArg Display.screen (write_display _ _)).trans hscreen)
    (hclear.write text) rfl

end Session

/-- Whichever keys come and whatever the commands do, the line is what the keys make of it, and
Enter runs that line.  If the display has room for the prompt and a full line and the commands leave
a screen that can be read, prompt and line stand on the screen with the cursor behind them. -/
theorem session_reads (c : Commands σ) (cfg : SystemConfig) (x : Tty) (w : σ)
    (keys : List UInt8) :
    let s := keys.foldl (Session.handleKey c) (.run cfg x w)
    s.line = keys.foldl editKey [] ∧
      (s.enter c).world = c.enter s.barrelMode s.line s.world ∧
      (Fits (Session.started cfg x).display →
        fullLine ≤ ((Session.started cfg x).display.rows.toNat - 1) *
          (Session.started cfg x).display.cols.toNat →
        c.LeaveLegible x.display.screen →
        ∃ base, Reads s.term.display s.term.state (promptText s.barrelMode ++ s.line) base) := by
  refine ⟨Session.line_handleKeys keys _, Session.world_enter _ c, fun hd hroom hc => ?_⟩
  exact ((Session.run_shown w hd hroom).handleKeys hc keys).lined.reads

/-- A screen of two rows of 519 squares. -/
def wideScreen : Screen := ⟨0x1000, 4152, 16, 4152, fmtRgb⟩

/-- A command that repeats the line in the glass mode, and starts the terminal anew without it. -/
def repeatLine : Commands (List (List UInt8)) where
  command line lines :=
    ((.setGlassMode 2 :: line.map .putchar) ++ [.setGlassMode 0, .init .default], false,
      lines ++ [line])
  barrel _ lines := ([.putchar 0x0A], lines)

theorem wideScreen_fits {d : Display} (hscreen : d.screen = wideScreen) (hglass : d.glass = 0) :
    Fits (d.applyFontConfig .default) ∧
      fullLine ≤ ((d.applyFontConfig .default).rows.toNat - 1) *
        (d.applyFontConfig .default).cols.toNat := by
  have hcell : (d.applyFontConfig .default).cell = 8 := rfl
  have hsame : (d.applyFontConfig .default).screen = wideScreen := hscreen
  have hscale : (d.applyFontConfig .default).scale = 1 := rfl
  refine ⟨⟨hglass, ?_, ?_, UInt32.le_refl 8, ?_, ?_, ?_, ?_⟩, ?_⟩
  · rw [hsame]
    decide
  · rw [hsame]
    decide
  · rw [hscale]
    decide
  · rw [hscale]
    decide
  · rw [hsame, hcell]
    decide
  · rw [hsame, hcell]
    decide
  · rw [Display.cols, Display.rows, hsame, hcell]
    decide

theorem repeatLine_legible : repeatLine.LeaveLegible wideScreen where
  command line lines x hscreen _ := by
    have hlast : (x.run (repeatLine.command line lines).1) =
        ((x.run (.setGlassMode 2 :: line.map .putchar)).run [.setGlassMode 0]).init .default := by
      dsimp only [repeatLine, Tty.run]
      rw [List.foldl_append]
      rfl
    rw [hlast]
    have hsame := Tty.run_screen (x.run (.setGlassMode 2 :: line.map .putchar)) [.setGlassMode 0]
    rw [x.run_screen, hscreen] at hsame
    obtain ⟨hd, hroom⟩ := wideScreen_fits hsame rfl
    exact .init hd hroom
  barrel _ _ _ _ h := h.putchar 0x0A

/-- A command that uses the glass mode, and a key that is taken back behind it. -/
theorem session_reads_echo :
    let x : Tty := ⟨⟨wideScreen, fun _ _ => [0xFF], .compact, 2, 0⟩,
      ⟨fun _ => 7, 0, 0, white, black, false⟩⟩
    let s := [0x6C, 0x73, 0x0D, 0x61, 0x62, 0x08].foldl (Session.handleKey repeatLine)
      (.run .default x [])
    s.line = [0x61] ∧
      (s.enter repeatLine).world = repeatLine.enter s.barrelMode s.line s.world ∧
      ∃ base, Reads s.term.display s.term.state (promptText s.barrelMode ++ s.line) base := by
  intro x s
  have hstarted : Session.started .default x = x.init .default := rfl
  obtain ⟨hd, hroom⟩ := @wideScreen_fits x.display rfl rfl
  obtain ⟨hline, hworld, hreads⟩ := session_reads repeatLine .default x []
    [0x6C, 0x73, 0x0D, 0x61, 0x62, 0x08]
  rw [hstarted] at hreads
  exact ⟨hline, hworld, hreads hd hroom repeatLine_legible⟩

end PureOS.Shell
