import PureOS.Terminal.Refinement

set_option autoImplicit false

/-!
# Terminal: the page

Everything the kernel may ask of the terminal, in any order and from any state.  A page is what is
known of the screen by what was asked: once the screen is cleared it is a grid of text, until the
glass mode is on, the background gets another colour or the cursor is set off the grid.
-/

namespace PureOS.Terminal

open PureOS.Foundation PureOS.Graphics PureOS.Config

/-! ## The code -/

/-- The terminal: what it is set to, and what is on it. -/
structure Tty where
  display : Display
  state : State

namespace Tty

/-- `putchar`. -/
def putchar (x : Tty) (ch : UInt8) : Tty := { x with state := x.state.putchar x.display ch }

/-- `write`. -/
def write (x : Tty) (s : List UInt8) : Tty := s.foldl putchar x

/-- `clear`. -/
def clear (x : Tty) : Tty := { x with state := x.state.clear x.display }

/-- `init`. -/
def init (x : Tty) (cfg : SystemConfig) : Tty where
  display := x.display.applyFontConfig cfg
  state := .init (x.display.applyFontConfig cfg) cfg x.state.frame

end Tty

/-- What the kernel asks of the terminal. -/
inductive Event where
  | putchar (ch : UInt8)
  | clear
  | setCursor (row col : UInt32)
  | setColors (fg bg : Rgb)
  | setGlassMode (level : UInt32)
  | init (cfg : SystemConfig)

def Event.run (x : Tty) : Event → Tty
  | .putchar ch => x.putchar ch
  | .clear => x.clear
  | .setCursor row col => { x with state := x.state.setCursor row col }
  | .setColors fg bg => { x with state := x.state.setColors fg bg }
  | .setGlassMode level => { x with display := x.display.setGlassMode level }
  | .init cfg => x.init cfg

/-- What is asked of the terminal, one after the other. -/
def Tty.run (x : Tty) (events : List Event) : Tty := events.foldl Event.run x

@[simp] theorem Tty.run_nil (x : Tty) : x.run [] = x := rfl

theorem Event.run_screen (x : Tty) (e : Event) : (e.run x).display.screen = x.display.screen := by
  cases e <;> rfl

theorem Tty.run_screen (x : Tty) (events : List Event) :
    (x.run events).display.screen = x.display.screen := by
  induction events generalizing x with
  | nil => rfl
  | cons e events ih => exact (ih (e.run x)).trans (e.run_screen x)

theorem write_display (x : Tty) (bytes : List UInt8) : (x.write bytes).display = x.display := by
  induction bytes generalizing x with
  | nil => rfl
  | cons ch bytes ih => exact ih (x.putchar ch)

/-! ## What is known of the screen -/

/-- A page: the grid of text on the screen, if the screen is known to show one. -/
structure Page where
  display : Display
  fg : Rgb
  bg : Rgb
  ready : Bool
  text : Option (TextGrid Cell)

namespace Page

/-- Nothing is known of what is on the screen. -/
def unknown (x : Tty) : Page := ⟨x.display, x.state.fg, x.state.bg, x.state.ready, none⟩

/-- A clear page is a grid of blank squares if the display has room and is not in the glass mode. -/
def clear (p : Page) : Page :=
  { p with text := if p.ready = true ∧ Fits p.display then some blankGrid else none }

/-- The cursor of a grid is set. -/
def moveTo (d : Display) (row col : UInt32) (g : TextGrid Cell) : Option (TextGrid Cell) :=
  if row < d.rows ∧ col ≤ d.cols then some { g with row := row.toNat, col := col.toNat } else none

/-- What is known after an event. -/
def after (p : Page) : Event → Page
  | .putchar ch => { p with text := p.text.map (gridChar p.display p.fg ch) }
  | .clear => p.clear
  | .setCursor row col => { p with text := p.text.bind (moveTo p.display row col) }
  | .setColors fg bg => { p with fg := fg, bg := bg, text := if bg = p.bg then p.text else none }
  | .setGlassMode level =>
      { p with
        display := p.display.setGlassMode level
        text := if level = 0 then p.text else none }
  | .init cfg =>
      let d := p.display.applyFontConfig cfg
      clear ⟨d, foreground cfg, background cfg, d.screen.width != 0 && d.screen.height != 0, none⟩

def run (p : Page) (events : List Event) : Page := events.foldl after p

end Page

/-- The terminal is as the page says. -/
structure Follows (x : Tty) (p : Page) : Prop where
  display : x.display = p.display
  fg : x.state.fg = p.fg
  bg : x.state.bg = p.bg
  ready : x.state.ready = p.ready
  shows : ∀ g, p.text = some g → Fits p.display ∧ Refines p.display x.state g

/-! ## Events -/

variable {x : Tty} {p : Page} {g : TextGrid Cell}

/-- Switching the glass mode off changes nothing when it is off. -/
theorem setGlassMode_zero {d : Display} (hd : Fits d) : d.setGlassMode 0 = d := by
  unfold Display.setGlassMode
  rw [← hd.glass]
  split
  · rfl
  · next hbig => exact absurd (hd.glass ▸ (by decide : (0 : UInt32) < 3)) hbig

theorem Refines.moveTo {d : Display} {t : State} {g' : TextGrid Cell} {row col : UInt32}
    (h : Refines d t g) (hmove : Page.moveTo d row col g = some g') :
    Refines d (t.setCursor row col) g' := by
  unfold Page.moveTo at hmove
  split at hmove
  · next hin =>
      cases hmove
      exact ⟨h.ready, rfl, rfl, UInt32.lt_iff_toNat_lt.mp hin.1, UInt32.le_iff_toNat_le.mp hin.2,
        h.renders⟩
  · cases hmove

/-- A page that is cleared. -/
theorem Follows.clear (h : Follows x p) : Follows x.clear p.clear := by
  refine ⟨h.display, h.fg, h.bg, h.ready, fun g hg => ?_⟩
  dsimp only [Page.clear] at hg
  split at hg
  · next hknown =>
      cases hg
      refine ⟨hknown.2, ?_⟩
      dsimp only [Tty.clear]
      rw [h.display]
      exact Refines.clear hknown.2 (h.ready.trans hknown.1)
  · cases hg

theorem Follows.init (x : Tty) (p : Page) (h : Follows x p) (cfg : SystemConfig) :
    Follows (x.init cfg) (p.after (.init cfg)) := by
  have hstart : Follows
      ⟨x.display.applyFontConfig cfg,
        ⟨x.state.frame, 0, 0, foreground cfg, background cfg,
          (x.display.applyFontConfig cfg).screen.width != 0 &&
            (x.display.applyFontConfig cfg).screen.height != 0⟩⟩
      ⟨x.display.applyFontConfig cfg, foreground cfg, background cfg,
        (x.display.applyFontConfig cfg).screen.width != 0 &&
          (x.display.applyFontConfig cfg).screen.height != 0, none⟩ :=
    ⟨rfl, rfl, rfl, rfl, nofun⟩
  have hclear := hstart.clear
  rw [Page.after, ← h.display]
  exact hclear

/-- What an event does to the terminal it does to the page. -/
theorem Follows.after (h : Follows x p) (hstride : x.display.screen.width ≤ x.display.screen.stride)
    (e : Event) : Follows (e.run x) (p.after e) := by
  cases e with
  | putchar ch =>
      have hkeeps := Keeps.putchar hstride x.state ch
      refine ⟨h.display, hkeeps.fg.trans h.fg, hkeeps.bg.trans h.bg,
        hkeeps.ready.trans h.ready, fun g hg => ?_⟩
      obtain ⟨g, hold, rfl⟩ := Option.map_eq_some_iff.mp hg
      obtain ⟨hd, href⟩ := h.shows g hold
      refine ⟨hd, ?_⟩
      dsimp only [Event.run, Tty.putchar, Page.after]
      rw [h.display, ← h.fg]
      exact href.putchar hd ch
  | clear => exact h.clear
  | setCursor row col =>
      refine ⟨h.display, h.fg, h.bg, h.ready, fun g' hg => ?_⟩
      obtain ⟨g, hold, hmove⟩ := Option.bind_eq_some_iff.mp hg
      obtain ⟨hd, href⟩ := h.shows g hold
      exact ⟨hd, href.moveTo hmove⟩
  | setColors fg bg =>
      refine ⟨h.display, rfl, rfl, h.ready, fun g hg => ?_⟩
      dsimp only [Page.after] at hg
      split at hg
      · next hsame =>
          obtain ⟨hd, href⟩ := h.shows g hg
          refine ⟨hd, href.ready, href.col, href.row, href.row_lt, href.col_le, ?_⟩
          have hrenders := href.renders
          rw [h.bg, ← hsame] at hrenders
          exact hrenders
      · cases hg
  | setGlassMode level =>
      refine ⟨congrArg (Display.setGlassMode · level) h.display, h.fg, h.bg, h.ready,
        fun g hg => ?_⟩
      dsimp only [Page.after] at hg ⊢
      split at hg
      · next hzero =>
          obtain ⟨hd, href⟩ := h.shows g hg
          rw [hzero, setGlassMode_zero hd]
          exact ⟨hd, href⟩
      · cases hg
  | init cfg => exact Follows.init x p h cfg

/-- No event writes a word behind the framebuffer. -/
theorem Event.run_outside (hstride : x.display.screen.width ≤ x.display.screen.stride)
    (e : Event) : SameOutside x.display.screen x.state.frame (e.run x).state.frame := by
  cases e with
  | putchar ch => exact (Keeps.putchar hstride x.state ch).outside
  | clear => exact (Keeps.clear hstride x.state).outside
  | setCursor row col => exact .refl _
  | setColors fg bg => exact .refl _
  | setGlassMode level => exact .refl _
  | init cfg =>
      exact (Keeps.clear (d := x.display.applyFontConfig cfg) hstride
        ⟨x.state.frame, 0, 0, foreground cfg, background cfg,
          x.display.screen.width != 0 && x.display.screen.height != 0⟩).outside

/-! ## Runs -/

theorem Follows.run (events : List Event) (h : Follows x p)
    (hstride : x.display.screen.width ≤ x.display.screen.stride) :
    Follows (x.run events) (p.run events) ∧
      SameOutside x.display.screen x.state.frame (x.run events).state.frame := by
  induction events generalizing x p with
  | nil => exact ⟨h, .refl _⟩
  | cons e events ih =>
      have hscreen := e.run_screen x
      obtain ⟨hfollows, hout⟩ := ih (h.after hstride e) (by rw [hscreen]; exact hstride)
      rw [hscreen] at hout
      exact ⟨hfollows, (e.run_outside hstride).trans hout⟩

/-! ## A screen that can be read -/

/-- The screen shows a grid of text, with room for so many squares above its last row. -/
structure Legible (room : Nat) (x : Tty) : Prop where
  fits : Fits x.display
  room : room ≤ (x.display.rows.toNat - 1) * x.display.cols.toNat
  shows : ∃ g, Refines x.display x.state g

namespace Legible

variable {room : Nat}

theorem putchar (h : Legible room x) (ch : UInt8) : Legible room (x.putchar ch) := by
  obtain ⟨g, hg⟩ := h.shows
  exact ⟨h.fits, h.room, _, hg.putchar h.fits ch⟩

theorem write (h : Legible room x) (s : List UInt8) : Legible room (x.write s) := by
  induction s generalizing x with
  | nil => exact h
  | cons ch s ih => exact ih (h.putchar ch)

theorem clear (hd : Fits x.display)
    (hroom : room ≤ (x.display.rows.toNat - 1) * x.display.cols.toNat)
    (hready : x.state.ready = true) : Legible room x.clear :=
  ⟨hd, hroom, blankGrid, Refines.clear hd hready⟩

theorem init {cfg : SystemConfig} (hd : Fits (x.display.applyFontConfig cfg))
    (hroom : room ≤ ((x.display.applyFontConfig cfg).rows.toNat - 1) *
      (x.display.applyFontConfig cfg).cols.toNat) : Legible room (x.init cfg) :=
  ⟨hd, hroom, blankGrid, Refines.clear hd hd.ready⟩

end Legible

/-! ## The refinement -/

/-- A line of the memory holds a line of the screen: then whatever is asked of the terminal, in
whatever order and from whatever state, the terminal is as the page says, and no word behind the
framebuffer is written. -/
theorem run_refines_grid (x : Tty) (hstride : x.display.screen.width ≤ x.display.screen.stride)
    (events : List Event) :
    Follows (x.run events) ((Page.unknown x).run events) ∧
      SameOutside x.display.screen x.state.frame (x.run events).state.frame :=
  Follows.run events ⟨rfl, rfl, rfl, rfl, nofun⟩ hstride

/-- A screen of two rows of four squares. -/
def smallScreen : Screen := ⟨0x1000, 32, 16, 32, fmtRgb⟩

/-- A terminal before `init`, with squares of eight points. -/
def smallTty : Tty where
  display := ⟨smallScreen, fun _ _ => [0xFF], .compact, 1, 0⟩
  state := ⟨fun _ => 7, 0, 0, white, black, false⟩

/-- Glyphs, a tabulator, a new row and a glyph that is taken back, after the glass mode was on. -/
theorem run_refines_grid_small :
    let events := [.setGlassMode 2, .init .default, .putchar 0x41, .setGlassMode 0, .clear,
      .putchar 0x41, .putchar 0x09, .putchar 0x0A, .putchar 0x42, .putchar 0x7F]
    ∃ g, ((Page.unknown smallTty).run events).text = some g ∧
      Refines (smallTty.run events).display (smallTty.run events).state g ∧
      SameOutside smallScreen (fun _ => 7) (smallTty.run events).state.frame := by
  intro events
  obtain ⟨hfollows, hout⟩ := run_refines_grid smallTty (by decide) events
  obtain ⟨g, hg⟩ := Option.isSome_iff_exists.mp
    (show ((Page.unknown smallTty).run events).text.isSome = true by decide +kernel)
  refine ⟨g, hg, ?_, hout⟩
  rw [hfollows.display]
  exact (hfollows.shows g hg).2

end PureOS.Terminal
