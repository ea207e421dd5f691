import PureOS.Foundation.Run
import PureOS.Foundation.Slots

set_option autoImplicit false

/-!
# Desktop: the window manager (`window.rs`)

The windows live in eight slots.  Whether a slot is taken is written down twice: a window on
the screen is `Open`, and one that is hidden is `Closed`, with `minimized` set.  What runs in a
window is kept in an array of its own, by the number of the slot.  The pixels are left out.
-/

namespace PureOS.Desktop

open PureOS.Foundation

/-- `MAX_WINDOWS`. -/
abbrev maxWindows : Nat := 8
/-- `TITLE_H`. -/
abbrev titleH : UInt32 := 28
/-- `CONTENT_PAD`. -/
abbrev contentPad : UInt32 := 2
/-- `TERM_BUF_ROWS`. -/
abbrev termBufRows : Nat := 16
/-- `TERM_BUF_COLS`. -/
abbrev termBufCols : Nat := 32

/-- `WinState`. -/
inductive WinState where
  | closed | opened
  deriving DecidableEq

/-- `AppKind`. -/
inductive AppKind where
  | none | terminal | snake | paint | files | settings | desktop
  deriving DecidableEq

/-- `Window`. -/
structure Window where
  id : UInt32
  state : WinState
  title : List UInt8
  x : UInt32
  y : UInt32
  w : UInt32
  h : UInt32
  contentX : UInt32
  contentY : UInt32
  contentW : UInt32
  contentH : UInt32
  dragging : Bool
  dragOffX : Int
  dragOffY : Int
  closeHover : Bool
  minHover : Bool
  minimized : Bool
  savedX : UInt32
  savedY : UInt32
  resizing : Bool
  resizeDir : UInt8
  z : UInt32
  deriving DecidableEq

/-- A slot that has never been used. -/
def Window.blank : Window where
  id := 0
  state := .closed
  title := []
  x := 0
  y := 0
  w := 0
  h := 0
  contentX := 0
  contentY := 0
  contentW := 0
  contentH := 0
  dragging := false
  dragOffX := 0
  dragOffY := 0
  closeHover := false
  minHover := false
  minimized := false
  savedX := 0
  savedY := 0
  resizing := false
  resizeDir := 0
  z := 0

/-- `WINDOWS[i].state == WinState::Open || WINDOWS[i].minimized`. -/
def Window.known (win : Window) : Bool := win.state == .opened || win.minimized

/-- The text buffer of the terminal windows. -/
structure TermBuf where
  winId : UInt32
  row : Nat
  col : Nat
  cells : Vector (Vector UInt8 termBufCols) termBufRows
  deriving DecidableEq

/-- The buffer when a terminal starts: `' '` everywhere. -/
def TermBuf.cleared (id : UInt32) : TermBuf where
  winId := id
  row := 0
  col := 0
  cells := .replicate termBufRows (.replicate termBufCols 32)

/-- The window manager. -/
structure Manager where
  /-- `WINDOWS`. -/
  windows : Vector Window maxWindows
  /-- `NEXT_ID`. -/
  nextId : UInt32
  /-- `TOP_Z`. -/
  topZ : UInt32
  /-- `WINDOW_APPS`. -/
  apps : Vector AppKind maxWindows
  /-- `WINDOW_DIRTY`. -/
  dirty : Vector Bool maxWindows
  /-- `TERM_BUF`, `TERM_BUF_ROW`, `TERM_BUF_COL`, `TERM_BUF_WIN_ID`. -/
  termBuf : TermBuf
  deriving DecidableEq

namespace Manager

/-- The manager before the first window. -/
def boot : Manager where
  windows := .replicate maxWindows .blank
  nextId := 1
  topZ := 0
  apps := .replicate maxWindows .none
  dirty := .replicate maxWindows false
  termBuf := .cleared 0

variable (m : Manager)

/-- `find_slot`. -/
def findSlot : Option (Fin maxWindows) := firstSlot (fun win => win.state == .closed) m.windows

/-- `find_by_id`. -/
def findById (id : UInt32) : Option (Fin maxWindows) :=
  firstSlot (fun win => win.id == id && win.known) m.windows

/-- `find_open_by_id`. -/
def findOpenById (id : UInt32) : Option (Fin maxWindows) :=
  firstSlot (fun win => win.id == id && win.state == .opened) m.windows

/-- The window that `create` puts into a slot. -/
def newWindow (title : List UInt8) (x y w h : UInt32) : Window where
  id := m.nextId
  state := .opened
  title := title
  x := x
  y := y
  w := w
  h := h
  contentX := x + contentPad
  contentY := y + titleH + contentPad
  contentW := if w > contentPad * 2 then w - contentPad * 2 else 1
  contentH := if h > titleH + contentPad * 2 then h - titleH - contentPad * 2 else 1
  dragging := false
  dragOffX := 0
  dragOffY := 0
  closeHover := false
  minHover := false
  minimized := false
  savedX := x
  savedY := y
  resizing := false
  resizeDir := 0
  z := m.topZ + 1

/-- `create`: the id of the window, or -1. -/
def create (title : List UInt8) (x y w h : UInt32) : Int32 × Manager :=
  match m.findSlot with
  | none => (-1, m)
  | some slot =>
      (m.nextId.toInt32,
        { m with
          windows := m.windows.set slot (m.newWindow title x y w h)
          nextId := m.nextId + 1
          topZ := m.topZ + 1 })

/-- `close`. -/
def close (id : UInt32) : Manager :=
  match m.findById id with
  | none => m
  | some slot => { m with windows := m.windows.set slot { m.windows[slot] with state := .closed } }

/-- `bring_to_front`. -/
def bringToFront (id : UInt32) : Manager :=
  match m.findById id with
  | none => m
  | some slot =>
      { m with
        windows := m.windows.set slot { m.windows[slot] with z := m.topZ + 1 }
        topZ := m.topZ + 1 }

/-- `get`. -/
def get (id : UInt32) : Option Window := (m.findById id).map fun slot => m.windows[slot]

/-- `open_count`. -/
def openCount : Nat := m.windows.toList.countP Window.known

/-- `window_id_at`. -/
def windowIdAt (idx : Nat) : Option UInt32 :=
  ((m.windows.toList.filter Window.known)[idx]?).map Window.id

/-- `minimize`. -/
def minimize (id : UInt32) : Manager :=
  match m.findById id with
  | none => m
  | some slot =>
      let win := m.windows[slot]
      if win.state ≠ .opened then m
      else
        { m with
          windows := m.windows.set slot
            { win with savedX := win.x, savedY := win.y, minimized := true, state := .closed } }

/-- `restore`. -/
def restore (id : UInt32) : Manager :=
  match m.findById id with
  | none => m
  | some slot =>
      let win := m.windows[slot]
      if !win.minimized then m
      else
        { m with
          windows := m.windows.set slot
            { win with
              x := win.savedX, y := win.savedY, minimized := false, state := .opened,
              z := m.topZ + 1 }
          topZ := m.topZ + 1
          dirty := m.dirty.set slot true }

/-- `set_app_kind`. -/
def setAppKind (id : UInt32) (kind : AppKind) : Manager :=
  match m.findOpenById id with
  | none => m
  | some slot =>
      { m with
        apps := m.apps.set slot kind
        dirty := m.dirty.set slot true
        termBuf := if kind = .terminal then .cleared id else m.termBuf }

/-- `app_kind`. -/
def appKind (id : UInt32) : AppKind :=
  match m.findOpenById id with
  | none => .none
  | some slot => m.apps[slot]

/-- A turn of the loop of the Escape handler:
`if let Some(win) = window::get(i as u32) { window::close(win.id); }`. -/
def closeFound (id : UInt32) : Manager :=
  match m.get id with
  | none => m
  | some win => m.close win.id

/-- The loop of the Escape handler of the desktop: `for i in 0..8`. -/
def closeAll : Manager := ((List.range 8).map UInt32.ofNat).foldl closeFound m

end Manager

/-- A call of the manager. -/
inductive Call where
  | create (title : List UInt8) (x y w h : UInt32)
  | close (id : UInt32)
  | minimize (id : UInt32)
  | restore (id : UInt32)
  | bringToFront (id : UInt32)
  | setAppKind (id : UInt32) (kind : AppKind)
  deriving DecidableEq

/-- What a call does to the manager. -/
def Manager.after (m : Manager) : Call → Manager
  | .create title x y w h => (m.create title x y w h).2
  | .close id => m.close id
  | .minimize id => m.minimize id
  | .restore id => m.restore id
  | .bringToFront id => m.bringToFront id
  | .setAppKind id kind => m.setAppKind id kind

end PureOS.Desktop
