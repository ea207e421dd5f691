import PureOS.Desktop.Windows
import PureOS.Foundation.Profile

set_option autoImplicit false

/-!
# Desktop: the mouse in the windows (`window.rs`)

`handle_mouse` finds the window under the mouse and the part of it, and a window is moved and
resized while the button is down.  Coordinates of the mouse have a sign, those of the windows have
none.  The profile says what becomes of arithmetic that leaves its range.  The pixels are left
out.
-/

namespace PureOS.Desktop

open PureOS.Foundation

/-- The size of the framebuffer. -/
structure Screen where
  width : UInt32
  height : UInt32
  deriving DecidableEq

/-- The part of a window that the mouse is in. -/
inductive Part where
  | minimizeButton | closeButton | corner | title | content
  deriving DecidableEq

section

variable (p : Profile)

/-- A test of `handle_mouse`: `mx >= left && mx < right && my >= top && my < bottom`. -/
def hits (mx my : Int) (left right top bottom : Except Fault UInt32) : Except Fault Bool := do
  let l ← left
  if mx < asI32 l then return false
  else
    let r ← right
    if mx ≥ asI32 r then return false
    else
      let t ← top
      if my < asI32 t then return false
      else
        let b ← bottom
        return decide (my < asI32 b)

/-- The mouse is in the rectangle of a window. -/
def Window.contains (win : Window) (mx my : Int) : Except Fault Bool :=
  hits mx my (.ok win.x) (p.add win.x win.w) (.ok win.y) (p.add win.y win.h)

/-- A button, whose side is `TITLE_H - 8`. -/
def onButton (mx my : Int) (left top : UInt32) : Except Fault Bool :=
  hits mx my (.ok left) (do let r ← p.add left titleH; p.sub r 8)
    (.ok top) (do let b ← p.add top titleH; p.sub b 8)

/-- The tests of `handle_mouse` on the window that was found. -/
def partAt (win : Window) (mx my : Int) : Except Fault Part := do
  let right ← p.add win.x win.w
  let edge ← p.sub right (titleH * 2)
  let minX ← p.sub edge 4
  let minY ← p.add win.y 4
  let onMinimize ← onButton p mx my minX minY
  if onMinimize then return .minimizeButton
  else
    let edge ← p.sub right titleH
    let btnX ← p.sub edge 4
    let btnY ← p.add win.y 4
    let onClose ← onButton p mx my btnX btnY
    if onClose then return .closeButton
    else
      let onCorner ← hits mx my (p.sub right 12) (.ok right)
        (do let b ← p.add win.y win.h; p.sub b 12) (p.add win.y win.h)
      if onCorner then return .corner
      else if my < asI32 win.y then return .content
      else
        let below ← p.add win.y titleH
        if my < asI32 below then return .title else return .content

namespace Manager

variable (m : Manager)

/-- A window is written back. -/
def setWindow (slot : Fin maxWindows) (win : Window) : Manager :=
  { m with windows := m.windows.set slot.val win slot.isLt }

/-- The loop of `handle_mouse` over the slots: the window with the largest `z`. -/
def topSlot (mx my : Int) :
    List (Fin maxWindows) → UInt32 → Option (Fin maxWindows) →
      Except Fault (Option (Fin maxWindows))
  | [], _, top => .ok top
  | i :: rest, topZ, top =>
      let win := getElem m.windows i.val i.isLt
      if win.state ≠ .opened then topSlot mx my rest topZ top
      else do
        let inside ← win.contains p mx my
        if inside ∧ win.z ≥ topZ then topSlot mx my rest win.z (some i)
        else topSlot mx my rest topZ top

/-- `bring_to_front`, under a profile. -/
def raise (id : UInt32) : Except Fault Manager :=
  match m.findById id with
  | none => .ok m
  | some _ => do
      let _ ← p.add m.topZ 1
      return m.bringToFront id

/-- What `handle_mouse` does with the mouse in a part of a window. -/
def actOn (slot : Fin maxWindows) (part : Part) (mx my : Int) (leftClick : Bool) :
    Except Fault ((UInt32 × UInt32) × Manager) :=
  let win := getElem m.windows slot.val slot.isLt
  match part, leftClick with
  | .minimizeButton, true => .ok ((win.id, 4), m)
  | .minimizeButton, false => .ok ((win.id, 0), m.setWindow slot { win with minHover := true })
  | .closeButton, true => .ok ((win.id, 2), m)
  | .closeButton, false => .ok ((win.id, 0), m.setWindow slot { win with closeHover := true })
  | .corner, true => do
      let m ← m.raise p win.id
      let raised := getElem m.windows slot.val slot.isLt
      return ((win.id, 5), m.setWindow slot { raised with resizing := true, resizeDir := 3 })
  | .corner, false => .ok ((win.id, 0), m)
  | .title, true => do
      let m ← m.raise p win.id
      let raised := getElem m.windows slot.val slot.isLt
      let offX ← p.subI mx (asI32 raised.x)
      let offY ← p.subI my (asI32 raised.y)
      return ((win.id, 1),
        m.setWindow slot { raised with dragging := true, dragOffX := offX, dragOffY := offY })
  | .title, false => .ok ((win.id, 0), m)
  | .content, true => do
      let m ← m.raise p win.id
      return ((win.id, 3), m)
  | .content, false => .ok ((win.id, 3), m)

/-- `handle_mouse`: the id of the window and the number of the action. -/
def handleMouse (mx my : Int) (leftClick : Bool) :
    Except Fault ((UInt32 × UInt32) × Manager) := do
  let top ← m.topSlot p mx my (List.finRange maxWindows) 0 none
  match top with
  | none => return ((0, 0), m)
  | some slot =>
      let part ← partAt p (getElem m.windows slot.val slot.isLt) mx my
      m.actOn p slot part mx my leftClick

end Manager

/-- A coordinate of a window that is dragged:
`(mouse - off).max(0).min(extent as i32 - length as i32) as u32`. -/
def dragPlace (mouse off : Int) (extent length : UInt32) : Except Fault UInt32 := do
  let place ← p.subI mouse off
  let most ← p.subI (asI32 extent) (asI32 length)
  return asU32 (min (max place 0) most)

/-- A length of a window that is resized:
`(mouse - place as i32).max(least).min(extent as i32 - place as i32) as u32`. -/
def resizeLength (mouse least : Int) (extent place : UInt32) : Except Fault UInt32 := do
  let length ← p.subI mouse (asI32 place)
  let most ← p.subI (asI32 extent) (asI32 place)
  return asU32 (min (max length least) most)

/-- `content_w`. -/
def contentWidth (w : UInt32) : Except Fault UInt32 :=
  if w > contentPad * 2 then p.sub w (contentPad * 2) else .ok 1

/-- `content_h`. -/
def contentHeight (h : UInt32) : Except Fault UInt32 :=
  if h > titleH + contentPad * 2 then do
    let below ← p.sub h titleH
    p.sub below (contentPad * 2)
  else .ok 1

/-- `content_x`. -/
def contentLeft (x : UInt32) : Except Fault UInt32 := p.add x contentPad

/-- `content_y`. -/
def contentTop (y : UInt32) : Except Fault UInt32 := do
  let below ← p.add y titleH
  p.add below contentPad

namespace Manager

variable (s : Screen) (m : Manager)

/-- `create`, under a profile: the sums, and what they are for. -/
def createIn (title : List UInt8) (x y w h : UInt32) : Except Fault (Int32 × Manager) :=
  match m.findSlot with
  | none => .ok (m.create title x y w h)
  | some _ => do
      let _ ← p.add m.nextId 1
      let _ ← p.add m.topZ 1
      let _ ← contentWidth p w
      let _ ← contentHeight p h
      let _ ← contentLeft p x
      let _ ← contentTop p y
      return m.create title x y w h

/-- `drag_update`. -/
def dragUpdate (id : UInt32) (mx my : Int) : Except Fault Manager :=
  match m.findById id with
  | none => .ok m
  | some slot =>
      let win := getElem m.windows slot.val slot.isLt
      if !win.dragging then .ok m
      else do
        let newX ← dragPlace p mx win.dragOffX s.width win.w
        let newY ← dragPlace p my win.dragOffY s.height win.h
        if newX ≠ win.x ∨ newY ≠ win.y then
          let contentX ← contentLeft p newX
          let contentY ← contentTop p newY
          return m.setWindow slot
            { win with x := newX, y := newY, contentX := contentX, contentY := contentY }
        else return m

/-- `resize_update`. -/
def resizeUpdate (id : UInt32) (mx my : Int) : Except Fault Manager :=
  match m.findById id with
  | none => .ok m
  | some slot =>
      let win := getElem m.windows slot.val slot.isLt
      if !win.resizing then .ok m
      else do
        let newW ← resizeLength p mx 160 s.width win.x
        let newH ← resizeLength p my 100 s.height win.y
        let contentW ← contentWidth p newW
        let contentH ← contentHeight p newH
        let contentX ← contentLeft p win.x
        let contentY ← contentTop p win.y
        return { m with
          windows := m.windows.set slot.val
            { win with
              w := newW, h := newH, contentW := contentW, contentH := contentH,
              contentX := contentX, contentY := contentY } slot.isLt
          dirty := m.dirty.set slot.val true slot.isLt }

/-- `drag_end`. -/
def dragEnd : Manager :=
  { m with
    windows := m.windows.map fun win =>
      { win with
        dragging := false, closeHover := false, minHover := false, resizing := false,
        resizeDir := 0 } }

/-- `restore`, under a profile. -/
def restoreIn (id : UInt32) : Except Fault Manager :=
  match m.findById id with
  | none => .ok m
  | some slot =>
      if !(getElem m.windows slot.val slot.isLt).minimized then .ok m
      else do
        let _ ← p.add m.topZ 1
        return m.restore id

end Manager

end

end PureOS.Desktop
