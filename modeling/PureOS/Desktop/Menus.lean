import PureOS.Desktop.Mouse
import PureOS.Foundation.Bytes

set_option autoImplicit false

/-!
# Desktop: the menus (`desktop.rs`)

A menu is drawn by one function and clicked in another, and each works out for itself where the
rows are.  The start menu is drawn in the middle of the screen and clicked in its left corner; the
context menu takes a click on its upper padding for one on its first row.  What the actions do,
and the pixels, are left out.
-/

namespace PureOS.Desktop

open PureOS.Foundation

/-! ## The code -/

/-- `DOCK_H`. -/
abbrev dockH : UInt32 := 64
/-- `MENU_W`. -/
abbrev menuW : UInt32 := 160
/-- `MENU_ITEM_H`. -/
abbrev menuItemH : UInt32 := 26
/-- `MENU_PAD`. -/
abbrev menuPad : UInt32 := 6
/-- `START_MENU_W`. -/
abbrev startMenuW : UInt32 := 180
/-- `START_MENUITEM_H`. -/
abbrev startMenuItemH : UInt32 := 32

/-- `MenuAction`. -/
inductive MenuAction where
  | terminal | files | snake | paint | apps | settings | wallpaper | reboot | shutdown
  | properties | cancel
  deriving DecidableEq

/-- `MenuItem`, and `StartItem`. -/
structure MenuItem where
  label : List UInt8
  action : MenuAction
  deriving DecidableEq

/-- `CTX_MENU_ITEMS`. -/
def ctxMenuItems : List MenuItem := [
  ⟨ascii "Terminal", .terminal⟩,
  ⟨ascii "Files", .files⟩,
  ⟨ascii "Snake", .snake⟩,
  ⟨ascii "Paint", .paint⟩,
  ⟨ascii "Apps", .apps⟩,
  ⟨ascii "Settings", .settings⟩,
  ⟨ascii "Wallpaper", .wallpaper⟩,
  ⟨ascii "---------", .cancel⟩,
  ⟨ascii "Properties", .properties⟩,
  ⟨ascii "Reboot", .reboot⟩]

/-- `START_ITEMS`. -/
def startItems : List MenuItem := [
  ⟨ascii "Terminal", .terminal⟩,
  ⟨ascii "Files", .files⟩,
  ⟨ascii "Snake", .snake⟩,
  ⟨ascii "Paint", .paint⟩,
  ⟨ascii "Settings", .settings⟩,
  ⟨ascii "Wallpaper", .wallpaper⟩,
  ⟨ascii "---------", .cancel⟩,
  ⟨ascii "Reboot", .reboot⟩,
  ⟨ascii "Cancel", .cancel⟩]

/-- The statics of the menus. -/
structure Menus where
  /-- `START_MENU_ACTIVE`. -/
  startActive : Bool
  /-- `START_SEL`. -/
  startSel : Nat
  /-- `MENU_ACTIVE`. -/
  menuActive : Bool
  /-- `MENU_SAVED_X`. -/
  savedX : Int
  /-- `MENU_SAVED_Y`. -/
  savedY : Int

/-- A menu as it is drawn: its rectangle, and its rows, each with its upper edge. -/
structure DrawnMenu where
  x : UInt32
  y : UInt32
  w : UInt32
  h : UInt32
  rowHeight : UInt32
  rows : List (UInt32 × MenuItem)

/-- The action of the row that contains a point. -/
def DrawnMenu.actionAt (menu : DrawnMenu) (mx my : Int) : Option MenuAction :=
  if menu.x.toNat ≤ mx ∧ mx < menu.x.toNat + menu.w.toNat then
    (menu.rows.find? fun row =>
      decide (row.1.toNat ≤ my ∧ my < row.1.toNat + menu.rowHeight.toNat)).map fun row =>
        row.2.action
  else none

section

variable (p : Profile) (s : Screen)

/-- The rows of `draw_start_menu`: `sm_y + 32 + i as u32 * START_MENUITEM_H`. -/
def startRows (smY : UInt32) : Nat → List MenuItem → Except Fault (List (UInt32 × MenuItem))
  | _, [] => .ok []
  | i, item :: rest => do
      let first ← p.add smY 32
      let iy ← p.add first (UInt32.ofNat i * startMenuItemH)
      let rows ← startRows smY (i + 1) rest
      return (iy, item) :: rows

/-- `draw_start_menu`. -/
def drawStartMenu (menus : Menus) : Except Fault (DrawnMenu × Menus) := do
  let dock ← p.sub s.height dockH
  let sepY ← p.sub dock 8
  let smH := UInt32.ofNat startItems.length * startMenuItemH + 36
  let room ← p.sub s.width startMenuW
  let smX := room / 2
  let smY ← p.sub sepY smH
  let rows ← startRows p smY 0 startItems
  return (⟨smX, smY, startMenuW, smH, startMenuItemH, rows⟩, { menus with startActive := true })

/-- The place of the window that an action opens. -/
def windowPlace : Except Fault (UInt32 × UInt32 × UInt32 × UInt32) := do
  let across ← p.sub s.width 40
  let winW := min 320 across
  let down ← p.sub s.height 100
  let winH := min 240 down
  let roomX ← p.sub s.width winW
  let roomY ← p.sub s.height winH
  return (roomX / 2, roomY / 3, winW, winH)

/-- A click while the start menu is open: the action that is executed. -/
def clickStartMenu (menus : Menus) (mx my : Int) : Except Fault (Option MenuAction × Menus) := do
  let sepY ← p.sub s.height dockH
  let smY ← p.sub sepY (UInt32.ofNat startItems.length * startMenuItemH + 8)
  if mx ≥ 2 ∧ mx < 2 + asI32 startMenuW ∧ my ≥ asI32 smY ∧ my < asI32 sepY then
    let relY ← p.subI my (asI32 smY)
    let below ← p.sub (asU32 relY) 24
    let idx := (below / startMenuItemH).toNat
    match startItems[idx]? with
    | some item =>
        let _ ← windowPlace p s
        return (some item.action, { menus with startSel := idx, startActive := false })
    | none => return (none, { menus with startActive := false })
  else return (none, { menus with startActive := false })

/-- The height of the context menu. -/
def ctxMenuH : UInt32 := UInt32.ofNat ctxMenuItems.length * menuItemH + menuPad * 2

/-- A coordinate of the context menu: `m.max(0).min(extent as i32 - length as i32)`. -/
def menuPlace (place : Int) (extent length : UInt32) : Except Fault Int := do
  let most ← p.subI (asI32 extent) (asI32 length)
  return min (max place 0) most

/-- The rows of `draw_context_menu`: `iy += MENU_ITEM_H`. -/
def ctxRows : UInt32 → List MenuItem → Except Fault (List (UInt32 × MenuItem))
  | _, [] => .ok []
  | iy, item :: rest => do
      let next ← p.add iy menuItemH
      let rows ← ctxRows next rest
      return (iy, item) :: rows

/-- `draw_context_menu`, at the place of the mouse.  There is no menu when there is no room. -/
def drawContextMenu (menus : Menus) (mx my : Int) : Except Fault (Option DrawnMenu × Menus) := do
  let menuX ← menuPlace p mx s.width menuW
  let menuY ← menuPlace p my s.height ctxMenuH
  if menuX < 0 ∨ menuY < 0 then return (none, menus)
  else
    let first ← p.add (asU32 menuY) menuPad
    let rows ← ctxRows p first ctxMenuItems
    return (some ⟨asU32 menuX, asU32 menuY, menuW, ctxMenuH, menuItemH, rows⟩,
      { menus with menuActive := true, savedX := menuX, savedY := menuY })

/-- The test of `handle_menu_click` for a click outside the menu. -/
def outsideMenu (menus : Menus) (mx my : Int) : Except Fault Bool :=
  if mx < menus.savedX then .ok true
  else do
    let right ← p.addI menus.savedX (asI32 menuW)
    if mx ≥ right then return true
    else if my < menus.savedY then return true
    else
      let bottom ← p.addI menus.savedY (asI32 ctxMenuH)
      return decide (my ≥ bottom)

/-- `handle_menu_click`: the action that is executed. -/
def handleMenuClick (menus : Menus) (mx my : Int) : Except Fault (Option MenuAction × Menus) :=
  if !menus.menuActive then .ok (none, menus)
  else do
    let outside ← outsideMenu p menus mx my
    if outside then return (none, { menus with menuActive := false })
    else
      let relY ← p.subI my menus.savedY
      let idx := ((asU32 relY).toNat - menuPad.toNat) / menuItemH.toNat
      match ctxMenuItems[idx]? with
      | none => return (none, { menus with menuActive := false })
      | some item =>
          let _ ← windowPlace p s
          return (some item.action, { menus with menuActive := false })

end

/-! ## What is clicked -/

/-- Both menus fit on the screen, and there is a context menu. -/
structure Screen.MenusFit (s : Screen) : Prop where
  start : (startMenuW.toNat ≤ s.width.toNat) ∧ 396 ≤ s.height.toNat
  context : asI32 menuW ≤ asI32 s.width ∧ asI32 ctxMenuH ≤ asI32 s.height

/-- The start menu executes the action of the row that was drawn under the click. -/
def StartMenuRight (s : Screen) (menus : Menus) (mx my : Int) : Prop :=
  ∃ menu drawn after, drawStartMenu .checked s menus = .ok (menu, drawn) ∧
    clickStartMenu .checked s drawn mx my = .ok (menu.actionAt mx my, after)

/-- The context menu, opened at a place, executes the action of the row that was drawn under the
click. -/
def ContextMenuRight (s : Screen) (menus : Menus) (atX atY mx my : Int) : Prop :=
  ∃ menu drawn after, drawContextMenu .checked s menus atX atY = .ok (some menu, drawn) ∧
    handleMenuClick .checked s drawn mx my = .ok (menu.actionAt mx my, after)

/-- The rows of the start menu, as they are drawn. -/
structure InStartRows (s : Screen) (mx my : Int) : Prop where
  left : ((s.width.toNat - 180) / 2 : Nat) ≤ mx
  right : mx < ((s.width.toNat - 180) / 2 : Nat) + 180
  top : s.height.toNat - 364 ≤ my
  bottom : my < s.height.toNat - 76

/-- Where clicks are taken for clicks on the start menu. -/
structure InStartClicks (s : Screen) (mx my : Int) : Prop where
  left : 2 ≤ mx
  right : mx < 182
  top : s.height.toNat - 360 ≤ my
  bottom : my < s.height.toNat - 64

/-- The click is apart from both, or inside both and in the last four lines of a row. -/
def StartMenuClear (s : Screen) (mx my : Int) : Prop :=
  ¬InStartRows s mx my ∧ ¬InStartClicks s mx my ∨
    InStartRows s mx my ∧ InStartClicks s mx my ∧ 28 ≤ (my - (s.height.toNat - 364)) % 32

/-- The click is not on the upper padding of the context menu. -/
def ContextMenuClear (s : Screen) (atX atY mx my : Int) : Prop :=
  ¬(min (max atX 0) (s.width.toNat - 160) ≤ mx ∧
    mx < min (max atX 0) (s.width.toNat - 160) + 160 ∧
    min (max atY 0) (s.height.toNat - 272) ≤ my ∧
    my < min (max atY 0) (s.height.toNat - 272) + 6)

/-! ## Rows -/

section

variable {p : Profile} {s : Screen} {menus : Menus} {mx my atX atY : Int}

/-- Rows of one height, from an upper edge on. -/
def evenRows (height : Nat) : Nat → List MenuItem → List (Nat × MenuItem)
  | _, [] => []
  | top, item :: rest => (top, item) :: evenRows height (top + height) rest

/-- The row that contains a line. -/
theorem find?_evenRows {height : Nat} (hpos : 0 < height) (top : Nat) (items : List MenuItem) :
    ((evenRows height top items).find? fun row =>
        decide ((row.1 : Int) ≤ my ∧ my < row.1 + height)).map Prod.snd =
      if top ≤ my then items[(my - top).toNat / height]? else none := by
  induction items generalizing top with
  | nil =>
      rw [evenRows, List.find?_nil]
      split <;> rfl
  | cons item items ih =>
      rw [evenRows, List.find?_cons]
      dsimp only
      by_cases hin : (top : Int) ≤ my ∧ my < top + height
      · rw [decide_eq_true hin, if_pos hin.1, Nat.div_eq_of_lt (by omega)]
        rfl
      · rw [decide_eq_false hin]
        dsimp only
        rw [ih]
        by_cases htop : (top : Int) ≤ my
        · obtain ⟨n, hn⟩ : ∃ n : Nat, (my - top).toNat = n + height :=
            ⟨(my - top).toNat - height, by omega⟩
          have hrest : (my - (top + height : Nat)).toNat = n := by omega
          rw [if_pos (by omega), if_pos htop, hn, hrest, Nat.add_div_right _ hpos]
          rfl
        · rw [if_neg htop, if_neg (by omega)]

/-- The rows of the menu are even. -/
structure DrawnMenu.Even (menu : DrawnMenu) (top : Nat) (items : List MenuItem) : Prop where
  high : 0 < menu.rowHeight.toNat
  rows : menu.rows.map (fun row => (row.1.toNat, row.2)) =
    evenRows menu.rowHeight.toNat top items

theorem DrawnMenu.Even.actionAt_eq {menu : DrawnMenu} {top : Nat} {items : List MenuItem}
    (h : menu.Even top items) : menu.actionAt mx my =
      if menu.x.toNat ≤ mx ∧ mx < menu.x.toNat + menu.w.toNat then
        (if top ≤ my then items[(my - top).toNat / menu.rowHeight.toNat]? else none).map
          MenuItem.action
      else none := by
  rw [DrawnMenu.actionAt, ← find?_evenRows h.high, ← h.rows, List.find?_map, Option.map_map,
    Option.map_map]
  rfl

theorem startRows_ok {smY : UInt32} (items : List MenuItem) (i : Nat)
    (h : smY.toNat + 32 + 32 * (i + items.length) < 2 ^ 32) :
    ∃ rows, startRows p smY i items = .ok rows ∧
      rows.map (fun row => (row.1.toNat, row.2)) = evenRows 32 (smY.toNat + 32 + 32 * i) items := by
  induction items generalizing i with
  | nil => exact ⟨[], rfl, rfl⟩
  | cons item items ih =>
      rw [List.length_cons] at h
      obtain ⟨rows, hrows, heven⟩ := ih (i + 1) (by omega)
      have hfirst : (smY + 32).toNat = smY.toNat + 32 :=
        Profile.toNat_add (show smY.toNat + 32 < 2 ^ 32 by omega)
      have hstep : (UInt32.ofNat i * startMenuItemH).toNat = 32 * i := by
        have hsmall : (UInt32.ofNat i).toNat = i := by
          rw [UInt32.toNat_ofNat']
          exact Nat.mod_eq_of_lt (by omega)
        rw [UInt32.toNat_mul, hsmall]
        change i * 32 % 2 ^ 32 = 32 * i
        omega
      have hplace : (smY + 32 + UInt32.ofNat i * startMenuItemH).toNat = smY.toNat + 32 + 32 * i := by
        rw [Profile.toNat_add (by omega), hfirst, hstep]
      refine ⟨(smY + 32 + UInt32.ofNat i * startMenuItemH, item) :: rows, ?_, ?_⟩
      · rw [startRows, Profile.add_ok (show smY.toNat + 32 < 2 ^ 32 by omega), bind_ok,
          Profile.add_ok (by omega), bind_ok, hrows]
        rfl
      · rw [List.map_cons, heven, evenRows]
        dsimp only
        rw [hplace, Nat.mul_succ, ← Nat.add_assoc]

theorem ctxRows_ok {iy : UInt32} (items : List MenuItem)
    (h : iy.toNat + 26 * items.length < 2 ^ 32) :
    ∃ rows, ctxRows p iy items = .ok rows ∧
      rows.map (fun row => (row.1.toNat, row.2)) = evenRows 26 iy.toNat items := by
  induction items generalizing iy with
  | nil => exact ⟨[], rfl, rfl⟩
  | cons item items ih =>
      rw [List.length_cons] at h
      have hsmall : iy.toNat + menuItemH.toNat < 2 ^ 32 := show iy.toNat + 26 < 2 ^ 32 by omega
      have hnext : (iy + menuItemH).toNat = iy.toNat + 26 := Profile.toNat_add hsmall
      obtain ⟨rows, hrows, heven⟩ := @ih (iy + menuItemH) (by omega)
      refine ⟨(iy, item) :: rows, ?_, ?_⟩
      · rw [ctxRows, Profile.add_ok hsmall, bind_ok, hrows]
        rfl
      · rw [List.map_cons, heven, evenRows, hnext]

/-! ## The start menu -/

theorem Screen.MenusFit.small (h : s.MenusFit) :
    180 ≤ s.width.toNat ∧ s.width.toNat < 2 ^ 31 ∧ 396 ≤ s.height.toNat ∧
      s.height.toNat < 2 ^ 31 := by
  obtain ⟨⟨hwidth, hheight⟩, hacross, hdown⟩ := h
  have hmenuW : asI32 menuW = 160 := by decide
  have hmenuH : asI32 ctxMenuH = 272 := by decide
  have hw := s.width.toNat_lt
  have hh := s.height.toNat_lt
  rw [hmenuW, asI32] at hacross
  rw [hmenuH, asI32] at hdown
  have hstart : startMenuW.toNat = 180 := rfl
  refine ⟨by omega, ?_, hheight, ?_⟩
  · by_contra hlarge
    rw [if_neg hlarge] at hacross
    omega
  · by_contra hlarge
    rw [if_neg hlarge] at hdown
    omega

theorem toNat_min_le (a b : UInt32) : (min a b).toNat ≤ b.toNat := by
  change (if a ≤ b then a else b).toNat ≤ b.toNat
  split
  · rename_i hle
    exact UInt32.le_iff_toNat_le.mp hle
  · exact Nat.le_refl _

/-- There is room for the window of an action. -/
theorem windowPlace_ok (h : s.MenusFit) : ∃ place, windowPlace p s = .ok place := by
  obtain ⟨hwidth, -, hheight, -⟩ := h.small
  have hforty : (40 : UInt32).toNat = 40 := rfl
  have hhundred : (100 : UInt32).toNat = 100 := rfl
  have hacross : (s.width - 40).toNat = s.width.toNat - 40 := Profile.toNat_sub (by omega)
  have hdown : (s.height - 100).toNat = s.height.toNat - 100 := Profile.toNat_sub (by omega)
  have hwinW := toNat_min_le 320 (s.width - 40)
  have hwinH := toNat_min_le 240 (s.height - 100)
  rw [windowPlace, Profile.sub_ok (by omega), bind_ok, Profile.sub_ok (by omega), bind_ok,
    Profile.sub_ok (by omega), bind_ok, Profile.sub_ok (by omega)]
  exact ⟨_, rfl⟩

theorem drawStartMenu_ok (h : s.MenusFit) (menus : Menus) :
    ∃ menu, drawStartMenu p s menus = .ok (menu, { menus with startActive := true }) ∧
      menu.actionAt mx my =
        if ((s.width.toNat - 180) / 2 : Nat) ≤ mx ∧
            mx < ((s.width.toNat - 180) / 2 : Nat) + 180 then
          (if s.height.toNat - 364 ≤ my then
            startItems[(my - (s.height.toNat - 364)).toNat / 32]? else none).map MenuItem.action
        else none := by
  obtain ⟨hwidth, hwidth', hheight, hheight'⟩ := h.small
  have hdockH : dockH.toNat = 64 := rfl
  have height : (8 : UInt32).toNat = 8 := rfl
  have hstartW : startMenuW.toNat = 180 := rfl
  have hsmH : (UInt32.ofNat startItems.length * startMenuItemH + 36).toNat = 324 := by decide
  have hdock : (s.height - dockH).toNat = s.height.toNat - 64 := Profile.toNat_sub (by omega)
  have hsepY : (s.height - dockH - 8).toNat = s.height.toNat - 72 := by
    rw [Profile.toNat_sub (by omega), hdock]
    omega
  have hsmY : (s.height - dockH - 8 - (UInt32.ofNat startItems.length * startMenuItemH + 36)).toNat =
      s.height.toNat - 396 := by
    rw [Profile.toNat_sub (by omega), hsepY, hsmH]
    omega
  have hroom : (s.width - startMenuW).toNat = s.width.toNat - 180 := Profile.toNat_sub (by omega)
  have hsmX : ((s.width - startMenuW) / 2).toNat = (s.width.toNat - 180) / 2 := by
    rw [UInt32.toNat_div, hroom]
    rfl
  have hlength : startItems.length = 9 := rfl
  obtain ⟨rows, hrows, heven⟩ := @startRows_ok p
    (s.height - dockH - 8 - (UInt32.ofNat startItems.length * startMenuItemH + 36)) startItems 0
    (by omega)
  have hmenu : DrawnMenu.Even ⟨(s.width - startMenuW) / 2,
      s.height - dockH - 8 - (UInt32.ofNat startItems.length * startMenuItemH + 36), startMenuW,
      UInt32.ofNat startItems.length * startMenuItemH + 36, startMenuItemH, rows⟩
      (s.height.toNat - 364) startItems := by
    refine ⟨show 0 < startMenuItemH.toNat by decide, ?_⟩
    have htop : s.height.toNat - 364 = s.height.toNat - 396 + 32 + 32 * 0 := by omega
    rw [htop, ← hsmY]
    exact heven
  refine ⟨_, ?_, hmenu.actionAt_eq.trans ?_⟩
  · rw [drawStartMenu, Profile.sub_ok (by omega), bind_ok, Profile.sub_ok (by omega), bind_ok]
    dsimp only
    rw [Profile.sub_ok (by omega), bind_ok, Profile.sub_ok (by omega), bind_ok, hrows]
    rfl
  · dsimp only
    rw [hsmX, hstartW]
    have hcast : ((s.height.toNat - 364 : Nat) : Int) = s.height.toNat - 364 := by omega
    rw [hcast]
    rfl

/-- What becomes of a click while the start menu is open. -/
theorem clickStartMenu_eq (h : s.MenusFit) (menus : Menus) (mx my : Int) :
    (¬InStartClicks s mx my →
      clickStartMenu p s menus mx my = .ok (none, { menus with startActive := false })) ∧
    (InStartClicks s mx my → s.height.toNat - 336 ≤ my → ∃ after,
      clickStartMenu p s menus mx my =
        .ok (startItems[(my - (s.height.toNat - 336)).toNat / 32]?.map MenuItem.action, after)) ∧
    (InStartClicks s mx my → my < s.height.toNat - 336 →
      clickStartMenu .checked s menus mx my = .error .panic) := by
  obtain ⟨hwidth, hwidth', hheight, hheight'⟩ := h.small
  have hdockH : dockH.toNat = 64 := rfl
  have hsmH : (UInt32.ofNat startItems.length * startMenuItemH + 8).toNat = 296 := by decide
  have hsepY : (s.height - dockH).toNat = s.height.toNat - 64 := Profile.toNat_sub (by omega)
  have hsmY : (s.height - dockH - (UInt32.ofNat startItems.length * startMenuItemH + 8)).toNat =
      s.height.toNat - 360 := by
    rw [Profile.toNat_sub (by omega), hsepY, hsmH]
    omega
  have hstart : ∀ q : Profile, clickStartMenu q s menus mx my =
      (if mx ≥ 2 ∧ mx < 2 + asI32 startMenuW ∧
          my ≥ asI32 (s.height - dockH - (UInt32.ofNat startItems.length * startMenuItemH + 8)) ∧
          my < asI32 (s.height - dockH) then do
        let relY ← q.subI my
          (asI32 (s.height - dockH - (UInt32.ofNat startItems.length * startMenuItemH + 8)))
        let below ← q.sub (asU32 relY) 24
        let idx := (below / startMenuItemH).toNat
        match startItems[idx]? with
        | some item =>
            let _ ← windowPlace q s
            return (some item.action, { menus with startSel := idx, startActive := false })
        | none => return (none, { menus with startActive := false })
      else .ok (none, { menus with startActive := false })) := by
    intro q
    rw [clickStartMenu, Profile.sub_ok (by omega), bind_ok, Profile.sub_ok (by omega)]
    rfl
  have hsigned : asI32 startMenuW = 180 := by decide
  have hsepI : asI32 (s.height - dockH) = s.height.toNat - 64 := by
    rw [asI32_eq (by omega), hsepY]
    omega
  have hsmI : asI32 (s.height - dockH - (UInt32.ofNat startItems.length * startMenuItemH + 8)) =
      s.height.toNat - 360 := by
    rw [asI32_eq (by omega), hsmY]
    omega
  rw [hsigned, hsepI, hsmI] at hstart
  have hrel : InStartClicks s mx my →
      (∀ q : Profile, q.subI my (s.height.toNat - 360) = .ok (my - (s.height.toNat - 360))) ∧
        (asU32 (my - (s.height.toNat - 360))).toNat = (my - (s.height.toNat - 360)).toNat := by
    rintro ⟨-, -, htop, hbottom⟩
    refine ⟨fun q => Profile.subI_ok ?_, toNat_asU32 (by omega) (by omega)⟩
    unfold InI32
    omega
  have hlimit : (24 : UInt32).toNat = 24 := rfl
  refine ⟨fun hout => ?_, fun hin hlow => ?_, fun hin hhigh => ?_⟩
  · rw [hstart, if_neg fun hin => hout ⟨hin.1, by omega, hin.2.2.1, hin.2.2.2⟩]
  · obtain ⟨hsub, hnat⟩ := hrel hin
    have hbelow := @Profile.toNat_sub (asU32 (my - (s.height.toNat - 360))) 24 (by omega)
    have hidx : ((asU32 (my - (s.height.toNat - 360)) - 24) / startMenuItemH).toNat =
        (my - (s.height.toNat - 336)).toNat / 32 := by
      rw [UInt32.toNat_div, hbelow, hnat]
      change ((my - (s.height.toNat - 360)).toNat - 24) / 32 = _
      exact congrArg (· / 32) (by omega)
    rw [hstart, if_pos ⟨hin.left, by have := hin.right; omega, hin.top, hin.bottom⟩, hsub, bind_ok,
      Profile.sub_ok (by omega), bind_ok]
    dsimp only
    rw [hidx]
    cases startItems[(my - (s.height.toNat - 336)).toNat / 32]? with
    | none => exact ⟨_, rfl⟩
    | some item =>
        obtain ⟨place, hplace⟩ := @windowPlace_ok p s h
        dsimp only
        rw [hplace]
        exact ⟨_, rfl⟩
  · obtain ⟨hsub, hnat⟩ := hrel hin
    have htop := hin.top
    rw [hstart, if_pos ⟨hin.left, by have := hin.right; omega, hin.top, hin.bottom⟩, hsub, bind_ok,
      Profile.sub, if_pos ⟨rfl, by omega⟩]
    rfl

/-- Two clicks execute the same action. -/
theorem executed_iff {done drawn : Option MenuAction} {after : Menus} :
    (∃ after', (Except.ok (done, after) : Except Fault (Option MenuAction × Menus)) =
      .ok (drawn, after')) ↔ done = drawn := by
  constructor
  · rintro ⟨after', heq⟩
    exact congrArg Prod.fst (Except.ok.inj heq)
  · rintro rfl
    exact ⟨after, rfl⟩

/-- Rows one behind the other have actions of their own. -/
theorem startItems_apart : ∀ d < 9,
    startItems[d]?.map MenuItem.action ≠ startItems[d + 1]?.map MenuItem.action := by
  decide

/-- In the rows there is an action. -/
theorem startItems_some : ∀ d < 9, startItems[d]?.map MenuItem.action ≠ none := by
  decide

/-- What is drawn in the rows of the start menu. -/
theorem drawn_in_rows (h : InStartRows s mx my) :
    (if ((s.width.toNat - 180) / 2 : Nat) ≤ mx ∧ mx < ((s.width.toNat - 180) / 2 : Nat) + 180 then
      (if s.height.toNat - 364 ≤ my then
        startItems[(my - (s.height.toNat - 364)).toNat / 32]? else none).map MenuItem.action
    else none) = startItems[(my - (s.height.toNat - 364)).toNat / 32]?.map MenuItem.action := by
  rw [if_pos ⟨h.left, h.right⟩, if_pos h.top]

theorem drawn_outside_rows (h : ¬InStartRows s mx my) :
    (if ((s.width.toNat - 180) / 2 : Nat) ≤ mx ∧ mx < ((s.width.toNat - 180) / 2 : Nat) + 180 then
      (if s.height.toNat - 364 ≤ my then
        startItems[(my - (s.height.toNat - 364)).toNat / 32]? else none).map MenuItem.action
    else none) = none := by
  by_cases hx : ((s.width.toNat - 180) / 2 : Nat) ≤ mx ∧
      mx < ((s.width.toNat - 180) / 2 : Nat) + 180
  · rw [if_pos hx]
    by_cases htop : s.height.toNat - 364 ≤ my
    · have hbottom : ¬my < s.height.toNat - 76 := fun hlt => h ⟨hx.1, hx.2, htop, hlt⟩
      have hlength : startItems.length = 9 := rfl
      rw [if_pos htop, List.getElem?_eq_none (by rw [hlength]; omega)]
      rfl
    · rw [if_neg htop]
      rfl
  · rw [if_neg hx]

/-- The start menu is right exactly if the click is apart from the rows and from the place where
clicks are taken, or in the last four lines of a row in both. -/
theorem startMenuRight_iff (h : s.MenusFit) (menus : Menus) (mx my : Int) :
    StartMenuRight s menus mx my ↔ StartMenuClear s mx my := by
  obtain ⟨menu, hdraw, haction⟩ := @drawStartMenu_ok .checked s mx my h menus
  obtain ⟨hout, hlow, hhigh⟩ :=
    @clickStartMenu_eq .checked s h { menus with startActive := true } mx my
  have hright : StartMenuRight s menus mx my ↔ ∃ after,
      clickStartMenu .checked s { menus with startActive := true } mx my =
        .ok (menu.actionAt mx my, after) := by
    constructor
    · rintro ⟨menu', drawn, after, hdraw', hclick⟩
      rw [hdraw] at hdraw'
      cases hdraw'
      exact ⟨after, hclick⟩
    · rintro ⟨after, hclick⟩
      exact ⟨menu, _, after, hdraw, hclick⟩
  rw [hright, StartMenuClear]
  by_cases hrows : InStartRows s mx my
  · rw [haction, drawn_in_rows hrows]
    have htop := hrows.top
    have hbottom := hrows.bottom
    by_cases hclicks : InStartClicks s mx my
    · by_cases hlate : s.height.toNat - 336 ≤ my
      · obtain ⟨after, hdone⟩ := hlow hclicks hlate
        rw [hdone]
        rw [executed_iff]
        constructor
        · intro hsame
          refine .inr ⟨hrows, hclicks, ?_⟩
          by_contra hearly
          have hnext : (my - (s.height.toNat - 364)).toNat / 32 =
              (my - (s.height.toNat - 336)).toNat / 32 + 1 := by omega
          rw [hnext] at hsame
          exact startItems_apart _ (by omega) hsame
        · rintro (⟨hnot, -⟩ | ⟨-, -, hline⟩)
          · exact absurd hrows hnot
          · have hsame : (my - (s.height.toNat - 364)).toNat / 32 =
                (my - (s.height.toNat - 336)).toNat / 32 := by omega
            rw [hsame]
      · rw [hhigh hclicks (by omega)]
        refine iff_of_false (fun heq => ?_) ?_
        · obtain ⟨after, heq⟩ := heq
          cases heq
        · rintro (⟨hnot, -⟩ | ⟨-, -, hline⟩)
          · exact hnot hrows
          · omega
    · rw [hout hclicks, executed_iff]
      refine iff_of_false (fun hsame => ?_) ?_
      · exact startItems_some _ (by omega) hsame.symm
      · rintro (⟨hnot, -⟩ | ⟨-, hin, -⟩)
        · exact hnot hrows
        · exact hclicks hin
  · rw [haction, drawn_outside_rows hrows]
    by_cases hclicks : InStartClicks s mx my
    · refine iff_of_false (fun heq => ?_) ?_
      · obtain ⟨after, heq⟩ := heq
        by_cases hlate : s.height.toNat - 336 ≤ my
        · obtain ⟨after', hdone⟩ := hlow hclicks hlate
          have hbottom := hclicks.bottom
          have hsame := executed_iff.mp ⟨after, hdone.symm.trans heq⟩
          exact startItems_some _ (by omega) hsame
        · rw [hhigh hclicks (by omega)] at heq
          cases heq
      · rintro (⟨-, hnot⟩ | ⟨hin, -⟩)
        · exact hnot hclicks
        · exact hrows hin
    · rw [hout hclicks, executed_iff]
      exact iff_of_true rfl (.inl ⟨hrows, hclicks⟩)

/-! ## The context menu -/

/-- A coordinate of the context menu, where there is room. -/
theorem menuPlace_ok {place : Int} {extent length : UInt32} (hextent : extent.toNat < 2 ^ 31)
    (hlength : length.toNat ≤ extent.toNat) :
    menuPlace p place extent length = .ok (min (max place 0) (extent.toNat - length.toNat)) := by
  have hin : InI32 ((extent.toNat : Int) - length.toNat) := by
    unfold InI32
    omega
  rw [menuPlace, asI32_eq hextent, asI32_eq (by omega), Profile.subI_ok hin, bind_ok]
  rfl

/-- The place of the context menu is on the screen. -/
theorem menuPlace_bounds {place extent length : Int} (h : length ≤ extent) :
    0 ≤ min (max place 0) (extent - length) ∧
      min (max place 0) (extent - length) + length ≤ extent := by
  omega

theorem drawContextMenu_ok (h : s.MenusFit) (menus : Menus) (atX atY mx my : Int) :
    ∃ menu, drawContextMenu p s menus atX atY = .ok (some menu,
        { menus with
          menuActive := true
          savedX := min (max atX 0) (s.width.toNat - 160)
          savedY := min (max atY 0) (s.height.toNat - 272) }) ∧
      menu.actionAt mx my =
        if min (max atX 0) (s.width.toNat - 160) ≤ mx ∧
            mx < min (max atX 0) (s.width.toNat - 160) + 160 then
          (if min (max atY 0) (s.height.toNat - 272) + 6 ≤ my then
            ctxMenuItems[(my - (min (max atY 0) (s.height.toNat - 272) + 6)).toNat / 26]?
            else none).map MenuItem.action
        else none := by
  obtain ⟨hwidth, hwidth', hheight, hheight'⟩ := h.small
  have hmenuW : menuW.toNat = 160 := rfl
  have hmenuH : ctxMenuH.toNat = 272 := by decide
  have hpad : menuPad.toNat = 6 := rfl
  have hlength : ctxMenuItems.length = 10 := rfl
  have hx : menuPlace p atX s.width menuW = .ok (min (max atX 0) (s.width.toNat - 160)) :=
    menuPlace_ok hwidth' (by omega)
  have hy : menuPlace p atY s.height ctxMenuH = .ok (min (max atY 0) (s.height.toNat - 272)) :=
    menuPlace_ok hheight' (by omega)
  have hboundX := @menuPlace_bounds atX s.width.toNat 160 (by omega)
  have hboundY := @menuPlace_bounds atY s.height.toNat 272 (by omega)
  generalize min (max atX 0) ((s.width.toNat : Int) - 160) = menuX at hx hboundX ⊢
  generalize min (max atY 0) ((s.height.toNat : Int) - 272) = menuY at hy hboundY ⊢
  have hnatX := toNat_asU32 hboundX.1 (by omega)
  have hnatY := toNat_asU32 hboundY.1 (by omega)
  have hfirst : (asU32 menuY + menuPad).toNat = menuY.toNat + 6 := by
    rw [Profile.toNat_add (by omega), hnatY, hpad]
  obtain ⟨rows, hrows, heven⟩ := @ctxRows_ok p (asU32 menuY + menuPad) ctxMenuItems (by omega)
  have hmenu : DrawnMenu.Even ⟨asU32 menuX, asU32 menuY, menuW, ctxMenuH, menuItemH, rows⟩
      (menuY.toNat + 6) ctxMenuItems := by
    refine ⟨show 0 < menuItemH.toNat by decide, ?_⟩
    rw [← hfirst]
    exact heven
  refine ⟨_, ?_, hmenu.actionAt_eq.trans ?_⟩
  · rw [drawContextMenu, hx, bind_ok, hy, bind_ok, if_neg (by omega), Profile.add_ok (by omega),
      bind_ok, hrows]
    rfl
  · dsimp only
    have hleft : (menuX.toNat : Int) = menuX := by omega
    have htop : ((menuY.toNat + 6 : Nat) : Int) = menuY + 6 := by omega
    rw [hnatX, hmenuW, hleft, htop]
    rfl

/-- What becomes of a click while the context menu is open at a place. -/
theorem handleMenuClick_eq (h : s.MenusFit) {menus : Menus} (hactive : menus.menuActive = true)
    (hx : 0 ≤ menus.savedX ∧ menus.savedX + 160 ≤ s.width.toNat)
    (hy : 0 ≤ menus.savedY ∧ menus.savedY + 272 ≤ s.height.toNat) :
    ∃ after, handleMenuClick p s menus mx my = .ok
      (if menus.savedX ≤ mx ∧ mx < menus.savedX + 160 ∧ menus.savedY ≤ my ∧
          my < menus.savedY + 272 then
        ctxMenuItems[((my - menus.savedY).toNat - 6) / 26]?.map MenuItem.action
      else none, after) := by
  obtain ⟨hwidth, hwidth', hheight, hheight'⟩ := h.small
  have hmenuW : asI32 menuW = 160 := by decide
  have hmenuH : asI32 ctxMenuH = 272 := by decide
  have hright : p.addI menus.savedX 160 = .ok (menus.savedX + 160) := by
    refine Profile.addI_ok ?_
    unfold InI32
    omega
  have hbottom : p.addI menus.savedY 272 = .ok (menus.savedY + 272) := by
    refine Profile.addI_ok ?_
    unfold InI32
    omega
  have houtside : outsideMenu p menus mx my = .ok (decide ¬(menus.savedX ≤ mx ∧
      mx < menus.savedX + 160 ∧ menus.savedY ≤ my ∧ my < menus.savedY + 272)) := by
    rw [outsideMenu, hmenuW, hmenuH, hright, bind_ok, hbottom]
    by_cases hl : mx < menus.savedX
    · rw [if_pos hl, decide_eq_true (by omega)]
    · rw [if_neg hl]
      by_cases hr : mx ≥ menus.savedX + 160
      · rw [if_pos hr, decide_eq_true (by omega)]
        rfl
      · rw [if_neg hr]
        by_cases ht : my < menus.savedY
        · rw [if_pos ht, decide_eq_true (by omega)]
          rfl
        · rw [if_neg ht, bind_ok]
          refine congrArg Except.ok (decide_eq_decide.mpr ?_)
          omega
  rw [handleMenuClick, hactive, houtside, bind_ok]
  by_cases hin : menus.savedX ≤ mx ∧ mx < menus.savedX + 160 ∧ menus.savedY ≤ my ∧
      my < menus.savedY + 272
  · have hrel : p.subI my menus.savedY = .ok (my - menus.savedY) := by
      refine Profile.subI_ok ?_
      unfold InI32
      omega
    have hnat := @toNat_asU32 (my - menus.savedY) (by omega) (by omega)
    have hidx : ((asU32 (my - menus.savedY)).toNat - menuPad.toNat) / menuItemH.toNat =
        ((my - menus.savedY).toNat - 6) / 26 := by
      rw [hnat]
      rfl
    rw [if_pos hin, decide_eq_false (not_not_intro hin), hrel]
    dsimp only [Bool.not_true, Bool.false_eq_true]
    rw [bind_ok, hidx]
    cases ctxMenuItems[((my - menus.savedY).toNat - 6) / 26]? with
    | none => exact ⟨_, rfl⟩
    | some item =>
        obtain ⟨place, hplace⟩ := @windowPlace_ok p s h
        dsimp only
        rw [hplace]
        exact ⟨_, rfl⟩
  · rw [if_neg hin, decide_eq_true hin]
    exact ⟨_, rfl⟩

/-- The context menu is right exactly if the click is not on its upper padding. -/
theorem contextMenuRight_iff (h : s.MenusFit) (menus : Menus) (atX atY mx my : Int) :
    ContextMenuRight s menus atX atY mx my ↔ ContextMenuClear s atX atY mx my := by
  obtain ⟨menu, hdraw, haction⟩ := @drawContextMenu_ok .checked s h menus atX atY mx my
  obtain ⟨hwidth, hwidth', hheight, hheight'⟩ := h.small
  have hboundX := @menuPlace_bounds atX s.width.toNat 160 (by omega)
  have hboundY := @menuPlace_bounds atY s.height.toNat 272 (by omega)
  have hright : ContextMenuRight s menus atX atY mx my ↔ ∃ after,
      handleMenuClick .checked s { menus with
          menuActive := true
          savedX := min (max atX 0) (s.width.toNat - 160)
          savedY := min (max atY 0) (s.height.toNat - 272) } mx my =
        .ok (menu.actionAt mx my, after) := by
    constructor
    · rintro ⟨menu', drawn, after, hdraw', hclick⟩
      rw [hdraw] at hdraw'
      cases hdraw'
      exact ⟨after, hclick⟩
    · rintro ⟨after, hclick⟩
      exact ⟨menu, _, after, hdraw, hclick⟩
  obtain ⟨after, hclick⟩ := @handleMenuClick_eq .checked s mx my h { menus with
      menuActive := true
      savedX := min (max atX 0) (s.width.toNat - 160)
      savedY := min (max atY 0) (s.height.toNat - 272) } rfl hboundX hboundY
  dsimp only at hclick
  rw [hright, hclick, executed_iff, haction, ContextMenuClear]
  generalize min (max atX 0) ((s.width.toNat : Int) - 160) = menuX at hboundX ⊢
  generalize min (max atY 0) ((s.height.toNat : Int) - 272) = menuY at hboundY ⊢
  have hlength : ctxMenuItems.length = 10 := rfl
  by_cases hx : menuX ≤ mx ∧ mx < menuX + 160
  · rw [if_pos hx]
    by_cases hpad : menuY ≤ my ∧ my < menuY + 6
    · rw [if_pos ⟨hx.1, hx.2, hpad.1, by omega⟩, if_neg (by omega)]
      have hfirst : ((my - menuY).toNat - 6) / 26 = 0 := by omega
      rw [hfirst]
      exact iff_of_false (by decide) (not_not_intro ⟨hx.1, hx.2, hpad.1, hpad.2⟩)
    · refine iff_of_true ?_ fun hin => hpad ⟨hin.2.2.1, hin.2.2.2⟩
      by_cases habove : my < menuY
      · rw [if_neg (by omega), if_neg (by omega)]
        rfl
      · rw [if_pos (show menuY + 6 ≤ my by omega)]
        have hrow : ((my - menuY).toNat - 6) / 26 = (my - (menuY + 6)).toNat / 26 := by omega
        by_cases hbelow : my < menuY + 272
        · rw [if_pos ⟨hx.1, hx.2, by omega, hbelow⟩, hrow]
        · rw [if_neg (by omega), List.getElem?_eq_none (by rw [hlength]; omega)]
          rfl
  · rw [if_neg hx, if_neg fun hin => hx ⟨hin.1, hin.2.1⟩]
    exact iff_of_true rfl fun hin => hx ⟨hin.1, hin.2.1⟩

/-! ## Both menus -/

/-- Where both menus fit, a click on either executes what was drawn under it, and nothing
underflows, exactly if it is clear of the places where the code that draws and the code that
clicks differ. -/
theorem menusRight_iff (h : s.MenusFit) (menus menus' : Menus) (atX atY : Int) (mx my mx' my' : Int) :
    StartMenuRight s menus mx my ∧ ContextMenuRight s menus' atX atY mx' my' ↔
      StartMenuClear s mx my ∧ ContextMenuClear s atX atY mx' my' :=
  and_congr (startMenuRight_iff h menus mx my) (contextMenuRight_iff h menus' atX atY mx' my')

/-! ## A screen of 800 by 600 -/

/-- The screen. -/
def menuScreen : Screen := ⟨800, 600⟩

/-- No menu is open. -/
def noMenus : Menus := ⟨false, 0, false, 0, 0⟩

theorem menuScreen_menusFit : menuScreen.MenusFit := ⟨by decide, by decide⟩

theorem menusRight_iff_small :
    menuScreen.MenusFit ∧
      (StartMenuRight menuScreen noMenus 5 5 ∧ ContextMenuRight menuScreen noMenus 10 20 15 30 ↔
        StartMenuClear menuScreen 5 5 ∧ ContextMenuClear menuScreen 10 20 15 30) :=
  ⟨menuScreen_menusFit, menusRight_iff menuScreen_menusFit noMenus noMenus 10 20 5 5 15 30⟩

/-- The start menu does not do what was drawn under the click: in the middle of the screen no row
is clicked. -/
theorem not_menusRight : ¬∀ (s : Screen), s.MenusFit → ∀ (menus menus' : Menus)
    (atX atY mx my mx' my' : Int),
    StartMenuRight s menus mx my ∧ ContextMenuRight s menus' atX atY mx' my' := by
  intro hall
  have hright := (hall menuScreen menuScreen_menusFit noMenus noMenus 10 20 400 241 15 30).1
  obtain ⟨hapart, -⟩ | ⟨-, hclicks, -⟩ :=
    (startMenuRight_iff menuScreen_menusFit noMenus 400 241).mp hright
  · exact hapart ⟨by decide, by decide, by decide, by decide⟩
  · exact absurd hclicks.right (by decide)

end

end PureOS.Desktop
