import PureOS.Desktop.Mouse
import PureOS.Desktop.WindowSet

set_option autoImplicit false

/-!
# Desktop: where the windows are (`window.rs`)

Windows that are made inside the screen stay inside it while they are moved and resized, and so
do their contents.  But a window that is hidden can still be moved: it comes back to the place it
was hidden at, and its content does not.
-/

namespace PureOS.Desktop

open PureOS.Foundation

/-- The rectangles of a window. -/
structure Frame where
  x : UInt32
  y : UInt32
  w : UInt32
  h : UInt32
  contentX : UInt32
  contentY : UInt32
  contentW : UInt32
  contentH : UInt32

/-- The rectangles of a window. -/
def Window.frame (win : Window) : Frame :=
  ⟨win.x, win.y, win.w, win.h, win.contentX, win.contentY, win.contentW, win.contentH⟩

/-- The window is inside the screen and large enough, and its content is what the title bar and
the padding leave of it. -/
structure Frame.Placed (s : Screen) (f : Frame) : Prop where
  right : f.x.toNat + f.w.toNat ≤ s.width.toNat
  bottom : f.y.toNat + f.h.toNat ≤ s.height.toNat
  wide : 160 ≤ f.w.toNat
  tall : 100 ≤ f.h.toNat
  contentX : f.contentX.toNat = f.x.toNat + 2
  contentY : f.contentY.toNat = f.y.toNat + 28 + 2
  contentW : f.contentW.toNat + 2 * 2 = f.w.toNat
  contentH : f.contentH.toNat + 28 + 2 * 2 = f.h.toNat

/-- The content is inside the window. -/
structure Frame.ContentInside (f : Frame) : Prop where
  left : f.x.toNat ≤ f.contentX.toNat
  top : f.y.toNat ≤ f.contentY.toNat
  right : f.contentX.toNat + f.contentW.toNat ≤ f.x.toNat + f.w.toNat
  bottom : f.contentY.toNat + f.contentH.toNat ≤ f.y.toNat + f.h.toNat

/-- A point of the screen, as the mouse knows it. -/
structure Screen.Has (s : Screen) (mx my : Int) : Prop where
  left : 0 ≤ mx
  top : 0 ≤ my
  right : mx < s.width.toNat
  bottom : my < s.height.toNat
  signedX : mx < 2 ^ 31
  signedY : my < 2 ^ 31

/-- What is done to the windows. -/
inductive Op where
  | create (title : List UInt8) (x y w h : UInt32)
  | mouse (mx my : Int) (leftClick : Bool)
  | dragUpdate (id : UInt32) (mx my : Int)
  | resizeUpdate (id : UInt32) (mx my : Int)
  | dragEnd
  | minimize (id : UInt32)
  | restore (id : UInt32)

/-- A step, in a build that checks its arithmetic. -/
def Manager.step (s : Screen) (m : Manager) : Op → Except Fault Manager
  | .create title x y w h => do
      let (_, m) ← m.createIn .checked title x y w h
      return m
  | .mouse mx my leftClick => do
      let (_, m) ← m.handleMouse .checked mx my leftClick
      return m
  | .dragUpdate id mx my => m.dragUpdate .checked s id mx my
  | .resizeUpdate id mx my => m.resizeUpdate .checked s id mx my
  | .dragEnd => .ok m.dragEnd
  | .minimize id => .ok (m.minimize id)
  | .restore id => m.restoreIn .checked id

/-- New windows lie inside the screen and are large enough, and the mouse is on the screen. -/
def Op.Valid (s : Screen) : Op → Prop
  | .create _ x y w h =>
      x.toNat + w.toNat ≤ s.width.toNat ∧ y.toNat + h.toNat ≤ s.height.toNat ∧
        160 ≤ w.toNat ∧ 100 ≤ h.toNat
  | .mouse mx my _ => s.Has mx my
  | .dragUpdate _ mx my => s.Has mx my
  | .resizeUpdate _ mx my => s.Has mx my
  | _ => True

/-- The counters do not run over, sizes and places do not get too far apart for numbers with a
sign, and a window that comes back has not been moved while it was hidden. -/
def Op.Smooth (s : Screen) (m : Manager) : Op → Prop
  | .create .. =>
      m.findSlot ≠ none → m.nextId.toNat + 1 < 2 ^ 32 ∧ m.topZ.toNat + 1 < 2 ^ 32
  | .mouse _ _ leftClick => leftClick = true → m.topZ.toNat + 1 < 2 ^ 32
  | .dragUpdate id _ _ => ∀ slot, m.findById id = some slot →
      (getElem m.windows slot.val slot.isLt).dragging = true →
        InI32 (asI32 s.width - asI32 (getElem m.windows slot.val slot.isLt).w) ∧
          InI32 (asI32 s.height - asI32 (getElem m.windows slot.val slot.isLt).h)
  | .resizeUpdate id mx my => ∀ slot, m.findById id = some slot →
      (getElem m.windows slot.val slot.isLt).resizing = true →
        InI32 (mx - asI32 (getElem m.windows slot.val slot.isLt).x) ∧
          InI32 (asI32 s.width - asI32 (getElem m.windows slot.val slot.isLt).x) ∧
          InI32 (my - asI32 (getElem m.windows slot.val slot.isLt).y) ∧
          InI32 (asI32 s.height - asI32 (getElem m.windows slot.val slot.isLt).y)
  | .restore id => ∀ slot, m.findById id = some slot →
      (getElem m.windows slot.val slot.isLt).minimized = true →
        m.topZ.toNat + 1 < 2 ^ 32 ∧
          (getElem m.windows slot.val slot.isLt).savedX =
            (getElem m.windows slot.val slot.isLt).x ∧
          (getElem m.windows slot.val slot.isLt).savedY =
            (getElem m.windows slot.val slot.isLt).y
  | _ => True

/-- A step as the claim of the program allows it. -/
structure ValidStep (s : Screen) (m : Manager) (op : Op) (m' : Manager) : Prop where
  valid : op.Valid s
  done : m.step s op = .ok m'

/-- A step that is smooth, too. -/
structure SmoothStep (s : Screen) (m : Manager) (op : Op) (m' : Manager) : Prop
    extends ValidStep s m op m' where
  smooth : op.Smooth s m

/-- Every window on the screen is where it should be. -/
def Manager.Sound (s : Screen) (m : Manager) : Prop :=
  ∀ i : Fin maxWindows, (getElem m.windows i.val i.isLt).state = .opened →
    (getElem m.windows i.val i.isLt).frame.Placed s ∧
      (getElem m.windows i.val i.isLt).frame.ContentInside

/-! ## The invariant -/

/-- A window that is known is where it should be, on the screen or not, and the mouse holds it at
a place of its own. -/
structure Window.Kept (s : Screen) (win : Window) : Prop where
  placed : win.frame.Placed s
  held : win.dragging = true →
    0 ≤ win.dragOffX ∧ win.dragOffX < 2 ^ 31 ∧ 0 ≤ win.dragOffY ∧ win.dragOffY < 2 ^ 31

/-- All windows that are known are kept. -/
def Manager.Kept (s : Screen) (m : Manager) : Prop :=
  ∀ i : Fin maxWindows, (getElem m.windows i.val i.isLt).known = true →
    (getElem m.windows i.val i.isLt).Kept s

/-- The mouse is in the rectangle of a window. -/
def Window.Covers (win : Window) (mx my : Int) : Prop :=
  asI32 win.x ≤ mx ∧ mx < asI32 (win.x + win.w) ∧ asI32 win.y ≤ my ∧ my < asI32 (win.y + win.h)

instance (win : Window) (mx my : Int) : Decidable (win.Covers mx my) :=
  inferInstanceAs (Decidable (_ ∧ _ ∧ _ ∧ _))

section

variable {s : Screen} {m m' : Manager} {win : Window} {p : Profile} {mx my : Int} {id : UInt32}

theorem Frame.Placed.contentInside {f : Frame} (h : f.Placed s) : f.ContentInside := by
  obtain ⟨-, -, -, -, hx, hy, hw, hh⟩ := h
  constructor <;> omega

theorem Manager.Kept.sound (h : m.Kept s) : m.Sound s := by
  intro i hopened
  have hkept := h i (Window.known_iff.mpr (.inl hopened))
  exact ⟨hkept.placed, hkept.placed.contentInside⟩

theorem hits_eq (l r t b : UInt32) : hits mx my (.ok l) (.ok r) (.ok t) (.ok b) =
    .ok (decide (asI32 l ≤ mx ∧ mx < asI32 r ∧ asI32 t ≤ my ∧ my < asI32 b)) := by
  unfold hits
  rw [bind_ok]
  by_cases hl : mx < asI32 l
  · rw [if_pos hl, decide_eq_false fun h => absurd h.1 (by omega)]
    rfl
  · rw [if_neg hl, bind_ok]
    by_cases hr : mx ≥ asI32 r
    · rw [if_pos hr, decide_eq_false fun h => absurd h.2.1 (by omega)]
      rfl
    · rw [if_neg hr, bind_ok]
      by_cases ht : my < asI32 t
      · rw [if_pos ht, decide_eq_false fun h => absurd h.2.2.1 (by omega)]
        rfl
      · rw [if_neg ht, bind_ok]
        refine congrArg Except.ok (decide_eq_decide.mpr ?_)
        exact ⟨fun hb => ⟨by omega, by omega, by omega, hb⟩, fun h => h.2.2.2⟩

/-- The sums of the rectangle of a window stay in 32 bits. -/
structure Window.Fits (win : Window) : Prop where
  right : win.x.toNat + win.w.toNat < 2 ^ 32
  bottom : win.y.toNat + win.h.toNat < 2 ^ 32

theorem Window.Fits.contains (h : win.Fits) :
    win.contains p mx my = .ok (decide (win.Covers mx my)) := by
  rw [Window.contains, Profile.add_ok h.right, Profile.add_ok h.bottom, hits_eq]
  rfl

/-- The rectangle of a window that is kept. -/
theorem Window.Kept.bounds (h : win.Kept s) : win.x.toNat + win.w.toNat ≤ s.width.toNat ∧
    win.y.toNat + win.h.toNat ≤ s.height.toNat ∧ 160 ≤ win.w.toNat ∧ 100 ≤ win.h.toNat :=
  ⟨h.placed.right, h.placed.bottom, h.placed.wide, h.placed.tall⟩

theorem Window.Kept.fits (h : win.Kept s) : win.Fits := by
  obtain ⟨hright, hbottom, -, -⟩ := h.bounds
  have hw := s.width.toNat_lt
  have hh := s.height.toNat_lt
  exact ⟨by omega, by omega⟩

/-! ## The window under the mouse -/

/-- A slot with a window on the screen, under the mouse. -/
def Manager.Under (m : Manager) (mx my : Int) (i : Fin maxWindows) : Prop :=
  (getElem m.windows i.val i.isLt).state = .opened ∧
    (getElem m.windows i.val i.isLt).Covers mx my

/-- The loop finds the window with the largest `z`, or leaves what was found before. -/
theorem topSlot_spec (is : List (Fin maxWindows)) (topZ : UInt32) (top : Option (Fin maxWindows))
    (hfits : ∀ i ∈ is, (getElem m.windows i.val i.isLt).state = .opened →
      (getElem m.windows i.val i.isLt).Fits) :
    ∃ top', m.topSlot p mx my is topZ top = .ok top' ∧
      (top' = top ∧ (∀ i ∈ is, m.Under mx my i → (getElem m.windows i.val i.isLt).z < topZ) ∨
        ∃ i ∈ is, top' = some i ∧ m.Under mx my i ∧ topZ ≤ (getElem m.windows i.val i.isLt).z ∧
          ∀ j ∈ is, m.Under mx my j →
            (getElem m.windows j.val j.isLt).z ≤ (getElem m.windows i.val i.isLt).z) := by
  induction is generalizing topZ top with
  | nil => exact ⟨top, rfl, .inl ⟨rfl, fun i hi => by cases hi⟩⟩
  | cons i is ih =>
      have hrest := fun topZ top => ih topZ top fun j hj => hfits j (List.mem_cons_of_mem i hj)
      -- what is kept when the window in front is passed over
      have hpass : (m.Under mx my i → (getElem m.windows i.val i.isLt).z < topZ) →
          ∃ top', m.topSlot p mx my is topZ top = .ok top' ∧
            (top' = top ∧
                (∀ j ∈ i :: is, m.Under mx my j → (getElem m.windows j.val j.isLt).z < topZ) ∨
              ∃ k ∈ i :: is, top' = some k ∧ m.Under mx my k ∧
                topZ ≤ (getElem m.windows k.val k.isLt).z ∧
                ∀ j ∈ i :: is, m.Under mx my j →
                  (getElem m.windows j.val j.isLt).z ≤ (getElem m.windows k.val k.isLt).z) := by
        intro hlow
        obtain ⟨top', hdone, hcases⟩ := hrest topZ top
        refine ⟨top', hdone, ?_⟩
        rcases hcases with ⟨hsame, hall⟩ | ⟨k, hk, hsome, hunder, hle, hall⟩
        · refine .inl ⟨hsame, fun j hj hj' => ?_⟩
          rcases List.mem_cons.mp hj with rfl | hj
          · exact hlow hj'
          · exact hall j hj hj'
        · refine .inr ⟨k, List.mem_cons_of_mem i hk, hsome, hunder, hle, fun j hj hj' => ?_⟩
          rcases List.mem_cons.mp hj with rfl | hj
          · exact UInt32.le_trans (UInt32.le_of_lt (hlow hj')) hle
          · exact hall j hj hj'
      rw [Manager.topSlot]
      by_cases hopened : (getElem m.windows i.val i.isLt).state = .opened
      · rw [if_neg (not_not_intro hopened), (hfits i List.mem_cons_self hopened).contains, bind_ok]
        by_cases htop : (getElem m.windows i.val i.isLt).Covers mx my ∧
            (getElem m.windows i.val i.isLt).z ≥ topZ
        · rw [if_pos ⟨decide_eq_true htop.1, htop.2⟩]
          obtain ⟨top', hdone, hcases⟩ := hrest (getElem m.windows i.val i.isLt).z (some i)
          refine ⟨top', hdone, .inr ?_⟩
          rcases hcases with ⟨hsame, hall⟩ | ⟨k, hk, hsome, hunder, hle, hall⟩
          · refine ⟨i, List.mem_cons_self, hsame, ⟨hopened, htop.1⟩, htop.2, fun j hj hj' => ?_⟩
            rcases List.mem_cons.mp hj with rfl | hj
            · exact UInt32.le_refl _
            · exact UInt32.le_of_lt (hall j hj hj')
          · refine ⟨k, List.mem_cons_of_mem i hk, hsome, hunder, UInt32.le_trans htop.2 hle,
              fun j hj hj' => ?_⟩
            rcases List.mem_cons.mp hj with rfl | hj
            · exact hle
            · exact hall j hj hj'
        · rw [if_neg fun h => htop ⟨of_decide_eq_true h.1, h.2⟩]
          exact hpass fun hunder => UInt32.not_le.mp fun hle => htop ⟨hunder.2, hle⟩
      · rw [if_pos hopened]
        exact hpass fun hunder => absurd hunder.1 hopened

/-! ## The mouse -/

theorem onButton_ok {left top : UInt32} (hleft : left.toNat + 28 < 2 ^ 32)
    (htop : top.toNat + 28 < 2 ^ 32) : ∃ inside, onButton p mx my left top = .ok inside := by
  have hsum : ∀ v : UInt32, v.toNat + 28 < 2 ^ 32 →
      (do let r ← p.add v titleH; p.sub r 8) = Except.ok (v + titleH - 8) := by
    intro v hv
    have hadd : (v + titleH).toNat = v.toNat + 28 := Profile.toNat_add hv
    rw [Profile.add_ok hv, bind_ok, Profile.sub_ok]
    rw [hadd]
    exact Nat.le_add_left_of_le (by decide)
  rw [onButton, hsum left hleft, hsum top htop, hits_eq]
  exact ⟨_, rfl⟩

/-- In a window that is large enough the tests of the buttons and of the corner are no fault. -/
theorem partAt_ok (h : win.Kept s) : ∃ part, partAt p win mx my = .ok part := by
  have hfits := h.fits
  obtain ⟨-, -, hwide, htall⟩ := h.bounds
  have hright := Profile.toNat_add hfits.right
  have hbottom := Profile.toNat_add hfits.bottom
  have htwice : (titleH * 2).toNat = 56 := rfl
  have honce : titleH.toNat = 28 := rfl
  have hfour : (4 : UInt32).toNat = 4 := rfl
  have htwelve : (12 : UInt32).toNat = 12 := rfl
  obtain ⟨hr, hb⟩ := hfits
  have hedge : (win.x + win.w - titleH * 2).toNat = win.x.toNat + win.w.toNat - 56 := by
    rw [Profile.toNat_sub (by omega), hright, htwice]
  have hminX : (win.x + win.w - titleH * 2 - 4).toNat = win.x.toNat + win.w.toNat - 60 := by
    rw [Profile.toNat_sub (by omega), hedge, hfour]
    omega
  have hedge' : (win.x + win.w - titleH).toNat = win.x.toNat + win.w.toNat - 28 := by
    rw [Profile.toNat_sub (by omega), hright, honce]
  have hbtnX : (win.x + win.w - titleH - 4).toNat = win.x.toNat + win.w.toNat - 32 := by
    rw [Profile.toNat_sub (by omega), hedge', hfour]
    omega
  have hminY : (win.y + 4).toNat = win.y.toNat + 4 := Profile.toNat_add (by omega)
  obtain ⟨onMinimize, hminimize⟩ := @onButton_ok p mx my (win.x + win.w - titleH * 2 - 4) (win.y + 4)
    (by omega) (by omega)
  obtain ⟨onClose, hclose⟩ := @onButton_ok p mx my (win.x + win.w - titleH - 4) (win.y + 4)
    (by omega) (by omega)
  rw [partAt, Profile.add_ok hr, bind_ok, Profile.sub_ok (by omega), bind_ok,
    Profile.sub_ok (by omega), bind_ok, Profile.add_ok (by omega), bind_ok, hminimize, bind_ok]
  cases onMinimize with
  | true => exact ⟨.minimizeButton, rfl⟩
  | false =>
      rw [if_neg Bool.false_ne_true, Profile.sub_ok (by omega), bind_ok, Profile.sub_ok (by omega),
        bind_ok, bind_ok, hclose, bind_ok]
      cases onClose with
      | true => exact ⟨.closeButton, rfl⟩
      | false =>
          rw [if_neg Bool.false_ne_true, Profile.add_ok hb, bind_ok, Profile.sub_ok (by omega),
            Profile.sub_ok (by omega), hits_eq, bind_ok, Profile.add_ok (by omega), bind_ok]
          split
          · exact ⟨.corner, rfl⟩
          · split
            · exact ⟨.content, rfl⟩
            · split
              · exact ⟨.title, rfl⟩
              · exact ⟨.content, rfl⟩

/-! ## Windows that change -/

theorem Window.Kept.congr {win' : Window} (h : win.Kept s) (hframe : win'.frame = win.frame)
    (hheld : win'.dragging = true → 0 ≤ win'.dragOffX ∧ win'.dragOffX < 2 ^ 31 ∧
      0 ≤ win'.dragOffY ∧ win'.dragOffY < 2 ^ 31) : win'.Kept s where
  placed := by
    rw [hframe]
    exact h.placed
  held := hheld

theorem Manager.Kept.setWindow (h : m.Kept s) (slot : Fin maxWindows)
    (hwin : win.known = true → win.Kept s) : (m.setWindow slot win).Kept s :=
  windows_set_cases (fun win => win.known = true → win.Kept s) hwin h

/-- Raising a window writes a `z` and nothing else. -/
theorem bringToFront_window (m : Manager) (id : UInt32) (i : Fin maxWindows) :
    ∃ z, getElem (m.bringToFront id).windows i.val i.isLt =
      { getElem m.windows i.val i.isLt with z := z } := by
  rw [Manager.bringToFront]
  cases m.findById id with
  | none => exact ⟨(getElem m.windows i.val i.isLt).z, rfl⟩
  | some slot =>
      dsimp only
      by_cases hslot : i = slot
      · subst hslot
        exact ⟨m.topZ + 1, Vector.getElem_set_self _⟩
      · refine ⟨(getElem m.windows i.val i.isLt).z, Vector.getElem_set_ne _ _ fun heq => ?_⟩
        exact hslot (Fin.ext heq.symm)

theorem Manager.Kept.bringToFront (h : m.Kept s) (id : UInt32) : (m.bringToFront id).Kept s := by
  intro i hknown
  obtain ⟨z, hz⟩ := bringToFront_window m id i
  rw [hz] at hknown ⊢
  have hkept := h i hknown
  exact hkept.congr rfl hkept.held

theorem raise_ok (id : UInt32) (h : m.topZ.toNat + 1 < 2 ^ 32) :
    m.raise p id = .ok (m.bringToFront id) := by
  rw [Manager.raise]
  cases hfind : m.findById id with
  | none =>
      rw [Manager.bringToFront, hfind]
  | some slot =>
      dsimp only
      rw [Profile.add_ok h]
      rfl

/-- Under the mouse a window lies where numbers with a sign reach. -/
theorem held_of_covers {place length : UInt32} {mouse : Int}
    (hfits : place.toNat + length.toNat < 2 ^ 32) (hmouse : 0 ≤ mouse) (hlt : mouse < 2 ^ 31)
    (hleft : asI32 place ≤ mouse) (hright : mouse < asI32 (place + length)) :
    InI32 (mouse - asI32 place) ∧ 0 ≤ mouse - asI32 place ∧ mouse - asI32 place < 2 ^ 31 := by
  have hsum := Profile.toNat_add hfits
  unfold asI32 at hleft hright ⊢
  unfold InI32
  split at hright
  · rw [if_pos (by omega)] at hleft ⊢
    omega
  · have := (place + length).toNat_lt
    omega

/-- Whatever the mouse does in a window, the windows stay where they are. -/
theorem actOn_kept (h : m.Kept s) (hmouse : s.Has mx my) {slot : Fin maxWindows}
    (hunder : m.Under mx my slot) (part : Part) (leftClick : Bool)
    (htop : leftClick = true → m.topZ.toNat + 1 < 2 ^ 32) :
    ∃ answer m', m.actOn p slot part mx my leftClick = .ok (answer, m') ∧ m'.Kept s := by
  have hkept := h slot (Window.known_iff.mpr (.inl hunder.1))
  obtain ⟨z, hz⟩ := bringToFront_window m (getElem m.windows slot.val slot.isLt).id slot
  have hraised := h.bringToFront (getElem m.windows slot.val slot.isLt).id
  cases leftClick with
  | false =>
      cases part with
      | minimizeButton =>
          exact ⟨_, _, rfl, h.setWindow slot fun _ => hkept.congr rfl hkept.held⟩
      | closeButton => exact ⟨_, _, rfl, h.setWindow slot fun _ => hkept.congr rfl hkept.held⟩
      | corner => exact ⟨_, _, rfl, h⟩
      | title => exact ⟨_, _, rfl, h⟩
      | content => exact ⟨_, _, rfl, h⟩
  | true =>
      have hraise := @raise_ok m p (getElem m.windows slot.val slot.isLt).id (htop rfl)
      cases part with
      | minimizeButton => exact ⟨_, _, rfl, h⟩
      | closeButton => exact ⟨_, _, rfl, h⟩
      | corner =>
          refine ⟨_, _, by rw [Manager.actOn, hraise]; rfl, hraised.setWindow slot fun _ => ?_⟩
          rw [hz]
          exact hkept.congr rfl hkept.held
      | title =>
          obtain ⟨hleft, hright, habove, hbelow⟩ := hunder.2
          obtain ⟨hx, hx0, hx31⟩ :=
            held_of_covers hkept.fits.right hmouse.left hmouse.signedX hleft hright
          obtain ⟨hy, hy0, hy31⟩ :=
            held_of_covers hkept.fits.bottom hmouse.top hmouse.signedY habove hbelow
          have hheld : Window.Kept s { getElem m.windows slot.val slot.isLt with
              z := z, dragging := true,
              dragOffX := mx - asI32 (getElem m.windows slot.val slot.isLt).x,
              dragOffY := my - asI32 (getElem m.windows slot.val slot.isLt).y } :=
            hkept.congr rfl fun _ => ⟨hx0, hx31, hy0, hy31⟩
          refine ⟨((getElem m.windows slot.val slot.isLt).id, 1), _, ?_,
            hraised.setWindow slot fun _ => hheld⟩
          rw [Manager.actOn, hraise]
          dsimp only
          rw [bind_ok, hz]
          dsimp only
          rw [Profile.subI_ok hx, bind_ok, Profile.subI_ok hy]
          rfl
      | content => exact ⟨_, _, by rw [Manager.actOn, hraise]; rfl, hraised⟩

theorem Manager.Kept.opened_fits (h : m.Kept s) (i : Fin maxWindows)
    (hopened : (getElem m.windows i.val i.isLt).state = .opened) :
    (getElem m.windows i.val i.isLt).Fits :=
  (h i (Window.known_iff.mpr (.inl hopened))).fits

theorem handleMouse_kept (h : m.Kept s) (hmouse : s.Has mx my) (leftClick : Bool)
    (htop : leftClick = true → m.topZ.toNat + 1 < 2 ^ 32) :
    ∃ answer m', m.handleMouse p mx my leftClick = .ok (answer, m') ∧ m'.Kept s := by
  obtain ⟨top, hfound, hcases⟩ := @topSlot_spec m p mx my (List.finRange maxWindows) 0 none
    fun i _ => h.opened_fits i
  rw [Manager.handleMouse, hfound, bind_ok]
  rcases hcases with ⟨rfl, -⟩ | ⟨slot, -, rfl, hunder, -⟩
  · exact ⟨_, _, rfl, h⟩
  · obtain ⟨part, hpart⟩ :=
      @partAt_ok s _ p mx my (h slot (Window.known_iff.mpr (.inl hunder.1)))
    dsimp only
    rw [hpart, bind_ok]
    exact actOn_kept h hmouse hunder part leftClick htop

/-! ## Lengths and places -/

theorem toNat_asU32_mod (v : Int) : (asU32 v).toNat = (v % 2 ^ 32).toNat := by
  rw [asU32, UInt32.toNat_ofNat']
  exact Nat.mod_eq_of_lt (by omega)

/-- A window that is dragged stays inside the screen, whatever the signs of the sizes are. -/
theorem dragPlace_ok {mouse off : Int} {extent length : UInt32} (hmouse : 0 ≤ mouse)
    (hlt : mouse < 2 ^ 31) (hoff : 0 ≤ off) (hofflt : off < 2 ^ 31)
    (hle : length.toNat ≤ extent.toNat) (hfits : InI32 (asI32 extent - asI32 length)) :
    ∃ v, dragPlace p mouse off extent length = .ok v ∧ v.toNat + length.toNat ≤ extent.toNat := by
  have hdiff : InI32 (mouse - off) := by
    unfold InI32
    omega
  refine ⟨_, by rw [dragPlace, Profile.subI_ok hdiff, bind_ok, Profile.subI_ok hfits]; rfl, ?_⟩
  have hextent := extent.toNat_lt
  rw [toNat_asU32_mod]
  unfold asI32 at hfits ⊢
  unfold InI32 at hfits
  split <;> split <;> omega

/-- A window that is resized is large enough and stays inside the screen. -/
theorem resizeLength_ok {mouse least : Int} {extent place : UInt32}
    (hdiff : InI32 (mouse - asI32 place)) (hfits : InI32 (asI32 extent - asI32 place))
    (hpos : 0 ≤ least) (hleast : least < 2 ^ 31) (hroom : place.toNat + least ≤ extent.toNat) :
    ∃ v, resizeLength p mouse least extent place = .ok v ∧
      place.toNat + v.toNat ≤ extent.toNat ∧ least ≤ v.toNat := by
  refine ⟨_, by rw [resizeLength, Profile.subI_ok hdiff, bind_ok, Profile.subI_ok hfits]; rfl, ?_⟩
  have hextent := extent.toNat_lt
  rw [toNat_asU32_mod]
  unfold asI32 at hfits hdiff ⊢
  unfold InI32 at hfits hdiff
  split <;> split <;> omega

theorem contentWidth_ok {w : UInt32} (hw : 160 ≤ w.toNat) :
    contentWidth p w = .ok (w - contentPad * 2) ∧ (w - contentPad * 2).toNat + 2 * 2 = w.toNat := by
  have hpad : (contentPad * 2).toNat = 4 := rfl
  have hlt : w > contentPad * 2 := UInt32.lt_iff_toNat_lt.mpr (by omega)
  rw [contentWidth, if_pos hlt, Profile.sub_ok (by omega), Profile.toNat_sub (by omega)]
  exact ⟨rfl, by omega⟩

theorem contentHeight_ok {h : UInt32} (hh : 100 ≤ h.toNat) :
    contentHeight p h = .ok (h - titleH - contentPad * 2) ∧
      (h - titleH - contentPad * 2).toNat + 28 + 2 * 2 = h.toNat := by
  have hpad : (contentPad * 2).toNat = 4 := rfl
  have htitle : titleH.toNat = 28 := rfl
  have hboth : (titleH + contentPad * 2).toNat = 32 := rfl
  have hlt : h > titleH + contentPad * 2 := UInt32.lt_iff_toNat_lt.mpr (by omega)
  have hbelow : (h - titleH).toNat = h.toNat - 28 := Profile.toNat_sub (by omega)
  rw [contentHeight, if_pos hlt, Profile.sub_ok (by omega), bind_ok, Profile.sub_ok (by omega),
    Profile.toNat_sub (by omega)]
  exact ⟨rfl, by omega⟩

theorem contentLeft_ok {x : UInt32} (hx : x.toNat + 2 < 2 ^ 32) :
    contentLeft p x = .ok (x + contentPad) ∧ (x + contentPad).toNat = x.toNat + 2 :=
  ⟨Profile.add_ok hx, Profile.toNat_add hx⟩

theorem contentTop_ok {y : UInt32} (hy : y.toNat + 28 + 2 < 2 ^ 32) :
    contentTop p y = .ok (y + titleH + contentPad) ∧
      (y + titleH + contentPad).toNat = y.toNat + 28 + 2 := by
  have hbelow : (y + titleH).toNat = y.toNat + 28 :=
    Profile.toNat_add (show y.toNat + titleH.toNat < 2 ^ 32 by
      have htitle : titleH.toNat = 28 := rfl
      omega)
  have hpad : contentPad.toNat = 2 := rfl
  have htitle : titleH.toNat = 28 := rfl
  rw [contentTop, Profile.add_ok (by omega), bind_ok, Profile.add_ok (by omega),
    Profile.toNat_add (by omega)]
  exact ⟨rfl, by omega⟩

/-! ## The steps -/

theorem create_kept (h : m.Kept s) {title : List UInt8} {x y w hgt : UInt32}
    (hvalid : Op.Valid s (.create title x y w hgt))
    (hsmooth : Op.Smooth s m (.create title x y w hgt)) :
    ∃ answer m', m.createIn p title x y w hgt = .ok (answer, m') ∧ m'.Kept s := by
  obtain ⟨hright, hbottom, hwide, htall⟩ := hvalid
  have hwidth := s.width.toNat_lt
  have hheight := s.height.toNat_lt
  rw [Manager.createIn]
  cases hslot : m.findSlot with
  | none =>
      refine ⟨-1, m, ?_, h⟩
      rw [Manager.create, hslot]
  | some slot =>
      obtain ⟨hid, htop⟩ := hsmooth (by rw [hslot]; exact Option.some_ne_none slot)
      obtain ⟨hcw, hcw'⟩ := @contentWidth_ok p w hwide
      obtain ⟨hch, hch'⟩ := @contentHeight_ok p hgt htall
      obtain ⟨hcx, hcx'⟩ := @contentLeft_ok p x (by omega)
      obtain ⟨hcy, hcy'⟩ := @contentTop_ok p y (by omega)
      have hplaced : (m.newWindow title x y w hgt).frame.Placed s := by
        refine ⟨hright, hbottom, hwide, htall, hcx', hcy', ?_, ?_⟩
        · have hlt : w > contentPad * 2 := UInt32.lt_iff_toNat_lt.mpr (by
            have hpad : (contentPad * 2).toNat = 4 := rfl
            omega)
          have hnew : (m.newWindow title x y w hgt).frame.contentW = w - contentPad * 2 :=
            if_pos hlt
          rw [hnew]
          exact hcw'
        · have hlt : hgt > titleH + contentPad * 2 := UInt32.lt_iff_toNat_lt.mpr (by
            have hboth : (titleH + contentPad * 2).toNat = 32 := rfl
            omega)
          have hnew : (m.newWindow title x y w hgt).frame.contentH = hgt - titleH - contentPad * 2 :=
            if_pos hlt
          rw [hnew]
          exact hch'
      refine ⟨m.nextId.toInt32, { m with
        windows := m.windows.set slot (m.newWindow title x y w hgt)
        nextId := m.nextId + 1
        topZ := m.topZ + 1 }, ?_, ?_⟩
      · dsimp only
        rw [Profile.add_ok hid, bind_ok, Profile.add_ok htop, bind_ok, hcw, bind_ok, hch, bind_ok,
          hcx, bind_ok, hcy, bind_ok, Manager.create, hslot]
        rfl
      · exact h.setWindow slot fun _ => ⟨hplaced, fun hdragging => by cases hdragging⟩

theorem dragUpdate_kept (h : m.Kept s) (hmouse : s.Has mx my)
    (hsmooth : Op.Smooth s m (.dragUpdate id mx my)) :
    ∃ m', m.dragUpdate p s id mx my = .ok m' ∧ m'.Kept s := by
  rw [Manager.dragUpdate]
  cases hfind : m.findById id with
  | none => exact ⟨m, rfl, h⟩
  | some slot =>
      dsimp only
      have hkept := h slot (findById_some hfind).2
      by_cases hdragging : (getElem m.windows slot.val slot.isLt).dragging = true
      · obtain ⟨hfitsX, hfitsY⟩ := hsmooth slot hfind hdragging
        obtain ⟨hx0, hx31, hy0, hy31⟩ := hkept.held hdragging
        obtain ⟨hright, hbottom, hwide, htall⟩ := hkept.bounds
        obtain ⟨newX, hnewX, hinX⟩ := @dragPlace_ok p _ _ _ _ hmouse.left hmouse.signedX hx0 hx31
          ((Nat.le_add_left _ _).trans hright) hfitsX
        obtain ⟨newY, hnewY, hinY⟩ := @dragPlace_ok p _ _ _ _ hmouse.top hmouse.signedY hy0 hy31
          ((Nat.le_add_left _ _).trans hbottom) hfitsY
        have hwidth := s.width.toNat_lt
        have hheight := s.height.toNat_lt
        obtain ⟨hleft, hleft'⟩ := @contentLeft_ok p newX (by omega)
        obtain ⟨htop, htop'⟩ := @contentTop_ok p newY (by omega)
        rw [hdragging, if_neg (by decide), hnewX, bind_ok, hnewY, bind_ok]
        split
        · refine ⟨_, by rw [hleft, bind_ok, htop]; rfl, h.setWindow slot fun _ => ⟨?_, ?_⟩⟩
          · exact ⟨hinX, hinY, hwide, htall, hleft', htop', hkept.placed.contentW,
              hkept.placed.contentH⟩
          · exact fun _ => ⟨hx0, hx31, hy0, hy31⟩
        · exact ⟨m, rfl, h⟩
      · rw [Bool.eq_false_iff.mpr hdragging]
        exact ⟨m, rfl, h⟩

theorem resizeUpdate_kept (h : m.Kept s) (hsmooth : Op.Smooth s m (.resizeUpdate id mx my)) :
    ∃ m', m.resizeUpdate p s id mx my = .ok m' ∧ m'.Kept s := by
  rw [Manager.resizeUpdate]
  cases hfind : m.findById id with
  | none => exact ⟨m, rfl, h⟩
  | some slot =>
      dsimp only
      have hkept := h slot (findById_some hfind).2
      by_cases hresizing : (getElem m.windows slot.val slot.isLt).resizing = true
      · obtain ⟨hdiffX, hfitsX, hdiffY, hfitsY⟩ := hsmooth slot hfind hresizing
        obtain ⟨hright, hbottom, hwide, htall⟩ := hkept.bounds
        have hwidth := s.width.toNat_lt
        have hheight := s.height.toNat_lt
        obtain ⟨newW, hnewW, hinX, hlargeW⟩ := @resizeLength_ok p mx 160 _ _ hdiffX hfitsX
          (by decide) (by decide) (by omega)
        obtain ⟨newH, hnewH, hinY, hlargeH⟩ := @resizeLength_ok p my 100 _ _ hdiffY hfitsY
          (by decide) (by decide) (by omega)
        obtain ⟨hcw, hcw'⟩ := @contentWidth_ok p newW (by omega)
        obtain ⟨hch, hch'⟩ := @contentHeight_ok p newH (by omega)
        obtain ⟨hcx, hcx'⟩ := @contentLeft_ok p (getElem m.windows slot.val slot.isLt).x (by omega)
        obtain ⟨hcy, hcy'⟩ := @contentTop_ok p (getElem m.windows slot.val slot.isLt).y (by omega)
        have hwide' : 160 ≤ newW.toNat := by omega
        have htall' : 100 ≤ newH.toNat := by omega
        have hplaced : Frame.Placed s ⟨(getElem m.windows slot.val slot.isLt).x,
            (getElem m.windows slot.val slot.isLt).y, newW, newH,
            (getElem m.windows slot.val slot.isLt).x + contentPad,
            (getElem m.windows slot.val slot.isLt).y + titleH + contentPad,
            newW - contentPad * 2, newH - titleH - contentPad * 2⟩ :=
          ⟨hinX, hinY, hwide', htall', hcx', hcy', hcw', hch'⟩
        rw [hnewW, bind_ok, hnewH, bind_ok, hcw, bind_ok, hch, bind_ok, hcx, bind_ok, hcy, bind_ok,
          if_neg (by rw [hresizing]; decide)]
        exact ⟨_, rfl, windows_set_cases (fun win => win.known = true → win.Kept s)
          (fun _ => ⟨hplaced, hkept.held⟩) h⟩
      · rw [if_pos (by rw [Bool.eq_false_iff.mpr hresizing]; rfl)]
        exact ⟨m, rfl, h⟩

theorem dragEnd_kept (h : m.Kept s) : m.dragEnd.Kept s := by
  intro i hknown
  simp only [Manager.dragEnd, Vector.getElem_map] at hknown ⊢
  exact (h i hknown).congr rfl fun hdragging => by cases hdragging

theorem minimize_kept (h : m.Kept s) (id : UInt32) : (m.minimize id).Kept s := by
  rw [Manager.minimize]
  cases hfind : m.findById id with
  | none => exact h
  | some slot =>
      dsimp only
      split
      · exact h
      · have hkept := h slot (findById_some hfind).2
        exact h.setWindow slot fun _ => hkept.congr rfl hkept.held

/-- A window that has not been moved comes back as it was. -/
theorem restore_kept (h : m.Kept s) (hsmooth : Op.Smooth s m (.restore id)) :
    ∃ m', m.restoreIn p id = .ok m' ∧ m'.Kept s := by
  rw [Manager.restoreIn]
  cases hfind : m.findById id with
  | none => exact ⟨m, rfl, h⟩
  | some slot =>
      dsimp only
      cases hminimized : (getElem m.windows slot.val slot.isLt).minimized with
      | false => exact ⟨m, rfl, h⟩
      | true =>
          obtain ⟨htop, hsavedX, hsavedY⟩ := hsmooth slot hfind hminimized
          have hkept := h slot (findById_some hfind).2
          refine ⟨m.restore id, ?_, ?_⟩
          · rw [if_neg (by decide), Profile.add_ok htop]
            rfl
          · rw [Manager.restore, hfind]
            simp only [Fin.getElem_fin]
            rw [hminimized, if_neg (by decide), hsavedX, hsavedY]
            exact h.setWindow slot fun _ => hkept.congr rfl hkept.held

/-- A smooth step is no fault and keeps the windows. -/
theorem step_kept (h : m.Kept s) {op : Op} (hvalid : op.Valid s) (hsmooth : op.Smooth s m) :
    ∃ m', m.step s op = .ok m' ∧ m'.Kept s := by
  cases op with
  | create title x y w hgt =>
      obtain ⟨answer, m', hdone, hkept⟩ := @create_kept s m .checked h title x y w hgt hvalid hsmooth
      exact ⟨m', by rw [Manager.step, hdone]; rfl, hkept⟩
  | mouse mx my leftClick =>
      obtain ⟨answer, m', hdone, hkept⟩ :=
        @handleMouse_kept s m .checked mx my h hvalid leftClick hsmooth
      exact ⟨m', by rw [Manager.step, hdone]; rfl, hkept⟩
  | dragUpdate id mx my => exact dragUpdate_kept h hvalid hsmooth
  | resizeUpdate id mx my => exact resizeUpdate_kept h hsmooth
  | dragEnd => exact ⟨_, rfl, dragEnd_kept h⟩
  | minimize id => exact ⟨_, rfl, minimize_kept h id⟩
  | restore id => exact restore_kept h hsmooth

theorem boot_kept (s : Screen) : Manager.boot.Kept s := by
  intro i hknown
  have hblank : getElem Manager.boot.windows i.val i.isLt = .blank := Vector.getElem_replicate i.isLt
  rw [hblank] at hknown
  cases hknown

theorem kept_of_smooth_run {ops : List Op} (h : Run (SmoothStep s) .boot ops m) : m.Kept s := by
  refine h.invariant_state (Manager.Kept s) (boot_kept s) fun m op m' hkept hstep => ?_
  obtain ⟨m'', hdone, hkept'⟩ := step_kept hkept hstep.valid hstep.smooth
  rw [hstep.done] at hdone
  cases hdone
  exact hkept'

end

/-- In every run of smooth steps the windows on the screen are where they should be, and the next
smooth step is no fault. -/
theorem sound_of_smooth_run {s : Screen} {ops : List Op} {m : Manager}
    (h : Run (SmoothStep s) .boot ops m) :
    m.Sound s ∧ ∀ op : Op, op.Valid s → op.Smooth s m → ∃ m', m.step s op = .ok m' := by
  have hkept := kept_of_smooth_run h
  refine ⟨hkept.sound, fun op hvalid hsmooth => ?_⟩
  obtain ⟨m', hdone, -⟩ := step_kept hkept hvalid hsmooth
  exact ⟨m', hdone⟩

/-! ## A window that is moved while it is hidden -/

/-- The smallest screen. -/
def smallScreen : Screen := ⟨400, 300⟩

/-- The smallest window, in the middle of the screen. -/
def smallWindow : Op := .create [] 100 100 160 100

theorem smallWindow_valid : smallWindow.Valid smallScreen :=
  ⟨by decide, by decide, by decide, by decide⟩

/-- The manager with the smallest window. -/
def oneWindow : Manager := (Manager.boot.create [] 100 100 160 100).2

/-- What a step leaves. -/
def Manager.stepped (s : Screen) (m : Manager) (op : Op) : Manager :=
  match m.step s op with
  | .ok m' => m'
  | .error _ => m

theorem smoothStep_stepped {s : Screen} {m : Manager} (op : Op) (hvalid : op.Valid s)
    (hsmooth : op.Smooth s m) (hdone : (m.step s op).toBool = true) :
    SmoothStep s m op (m.stepped s op) := by
  refine ⟨⟨hvalid, ?_⟩, hsmooth⟩
  unfold Manager.stepped
  cases h : m.step s op with
  | ok m' => rfl
  | error fault =>
      rw [h] at hdone
      cases hdone

/-- The window is seized by its title bar, dragged, let go, seized by its corner and made larger. -/
def resizedWindow : Manager :=
  [Op.mouse 110 105 true, .dragUpdate 1 60 55, .dragEnd, .mouse 207 147 true,
    .resizeUpdate 1 299 249].foldl (Manager.stepped smallScreen) oneWindow

theorem sound_of_smooth_run_small :
    resizedWindow.Sound smallScreen ∧
      ∀ op : Op, op.Valid smallScreen → op.Smooth smallScreen resizedWindow →
        ∃ m', resizedWindow.step smallScreen op = .ok m' := by
  have hcreate : Run (SmoothStep smallScreen) .boot [smallWindow] oneWindow :=
    .snoc .nil ⟨⟨smallWindow_valid, by decide +kernel⟩, fun _ => ⟨by decide, by decide⟩⟩
  have htitle := hcreate.snoc (smoothStep_stepped (.mouse 110 105 true)
    ⟨by decide, by decide, by decide, by decide, by decide, by decide⟩
    (fun _ => by decide +kernel) (by decide +kernel))
  have hdrag := htitle.snoc (smoothStep_stepped (.dragUpdate 1 60 55)
    ⟨by decide, by decide, by decide, by decide, by decide, by decide⟩
    (by unfold Op.Smooth; decide +kernel) (by decide +kernel))
  have hend := hdrag.snoc (smoothStep_stepped .dragEnd trivial trivial rfl)
  have hcorner := hend.snoc (smoothStep_stepped (.mouse 207 147 true)
    ⟨by decide, by decide, by decide, by decide, by decide, by decide⟩
    (fun _ => by decide +kernel) (by decide +kernel))
  exact sound_of_smooth_run (hcorner.snoc (smoothStep_stepped (.resizeUpdate 1 299 249)
    ⟨by decide, by decide, by decide, by decide, by decide, by decide⟩
    (by unfold Op.Smooth; decide +kernel) (by decide +kernel)))

/-- Steps, one after the other. -/
def Manager.steps (s : Screen) : List Op → Manager → Except Fault Manager
  | [], m => .ok m
  | op :: ops, m => do
      let m ← m.step s op
      steps s ops m

theorem run_of_steps {s : Screen} {ops : List Op} {m m' : Manager}
    (hvalid : ∀ op ∈ ops, op.Valid s) (h : Manager.steps s ops m = .ok m') :
    Run (ValidStep s) m ops m' := by
  induction ops generalizing m with
  | nil =>
      cases h
      exact .nil
  | cons op ops ih =>
      obtain ⟨m₁, hfirst, hrest⟩ := bind_eq_ok h
      exact .cons ⟨hvalid op List.mem_cons_self, hfirst⟩
        (ih (fun op' hop' => hvalid op' (List.mem_cons_of_mem op hop')) hrest)

/-- The window is seized by its title bar, hidden, moved and brought back. -/
def movedWhileHidden : List Op :=
  [smallWindow, .mouse 110 105 true, .minimize 1, .dragUpdate 1 60 55, .restore 1]

/-- The content of the window is not where the window is. -/
theorem not_sound : ¬∀ (s : Screen) (ops : List Op) (m : Manager), 400 ≤ s.width.toNat →
    300 ≤ s.height.toNat → Run (ValidStep s) .boot ops m → m.Sound s := by
  intro hall
  have hvalid : ∀ op ∈ movedWhileHidden, op.Valid smallScreen := by
    intro op hop
    simp only [movedWhileHidden, List.mem_cons, List.not_mem_nil, or_false] at hop
    rcases hop with rfl | rfl | rfl | rfl | rfl
    · exact smallWindow_valid
    · exact ⟨by decide, by decide, by decide, by decide, by decide, by decide⟩
    · trivial
    · exact ⟨by decide, by decide, by decide, by decide, by decide, by decide⟩
    · trivial
  have hwindow : (Manager.steps smallScreen movedWhileHidden .boot).map
      (fun m => ((getElem m.windows 0 (by decide)).state, (getElem m.windows 0 (by decide)).x,
        (getElem m.windows 0 (by decide)).contentX)) = .ok (.opened, 100, 52) := by
    decide +kernel
  cases hdone : Manager.steps smallScreen movedWhileHidden .boot with
  | error fault =>
      rw [hdone] at hwindow
      cases hwindow
  | ok m =>
      rw [hdone] at hwindow
      have hplace := Except.ok.inj hwindow
      simp only [Prod.mk.injEq] at hplace
      obtain ⟨hopened, hx, hcontent⟩ := hplace
      have hrun := run_of_steps hvalid hdone
      have hmargin : (getElem m.windows 0 (by decide)).contentX.toNat =
          (getElem m.windows 0 (by decide)).x.toNat + 2 :=
        (hall smallScreen _ m (by decide) (by decide) hrun 0 hopened).1.contentX
      rw [hx, hcontent] at hmargin
      revert hmargin
      decide

end PureOS.Desktop
