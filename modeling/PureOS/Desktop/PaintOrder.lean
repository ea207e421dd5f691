import PureOS.Desktop.Geometry
import PureOS.Foundation.Exchange

set_option autoImplicit false

/-!
# Desktop: the window on top (`window.rs`)

`redraw_all` sorts the windows by `z` and draws them; `handle_mouse` looks for the largest `z`
under the mouse.  On a screen that numbers with a sign can measure, a click goes to the window
that was drawn last.
-/

namespace PureOS.Desktop

open PureOS.Foundation

namespace Manager

variable (m : Manager)

/-- The open windows, as `redraw_all` lists them. -/
def openSlots : List (Fin maxWindows) :=
  (List.finRange maxWindows).filter fun i => (getElem m.windows i.val i.isLt).state = .opened

/-- `order`, when it is sorted. -/
def drawOrder : List (Fin maxWindows) :=
  exchangeSort (fun i => (getElem m.windows i.val i.isLt).z.toNat) m.openSlots

/-- `redraw_all`: the windows that are drawn.  `draw_window` looks for the window by its id. -/
def redrawAll : List (Fin maxWindows) :=
  m.drawOrder.filterMap fun i => m.findById (getElem m.windows i.val i.isLt).id

/-- The window that was drawn last among those that have a point. -/
def paintedLast (mx my : Int) : Option (Fin maxWindows) :=
  m.redrawAll.reverse.find? fun i =>
    decide ((getElem m.windows i.val i.isLt).x.toNat ≤ mx ∧
      mx < (getElem m.windows i.val i.isLt).x.toNat + (getElem m.windows i.val i.isLt).w.toNat ∧
      (getElem m.windows i.val i.isLt).y.toNat ≤ my ∧
      my < (getElem m.windows i.val i.isLt).y.toNat + (getElem m.windows i.val i.isLt).h.toNat)

/-- Open windows have a `z` of their own, each is drawn once, in the order of `z`, and the mouse
gets to the one that was drawn last. -/
structure ClicksOnTop (s : Screen) : Prop where
  distinct : ∀ i j : Fin maxWindows, (getElem m.windows i.val i.isLt).state = .opened →
    (getElem m.windows j.val j.isLt).state = .opened →
    (getElem m.windows i.val i.isLt).z = (getElem m.windows j.val j.isLt).z → i = j
  once : m.redrawAll.Nodup
  drawn : ∀ i : Fin maxWindows,
    i ∈ m.redrawAll ↔ (getElem m.windows i.val i.isLt).state = .opened
  increasing : m.redrawAll.Pairwise fun i j =>
    (getElem m.windows i.val i.isLt).z < (getElem m.windows j.val j.isLt).z
  /-- The loop of `handle_mouse` finds the window. -/
  selected : ∀ (p : Profile) (mx my : Int), s.Has mx my →
    m.topSlot p mx my (List.finRange maxWindows) 0 none = .ok (m.paintedLast mx my)
  /-- What `handle_mouse` answers is the id of the window. -/
  answered : ∀ (p : Profile) (mx my : Int) (leftClick : Bool) (answer : UInt32 × UInt32)
    (m' : Manager), s.Has mx my → m.handleMouse p mx my leftClick = .ok (answer, m') →
    match m.paintedLast mx my with
    | none => answer = (0, 0)
    | some i => answer.1 = (getElem m.windows i.val i.isLt).id
  /-- It does answer, unless arithmetic is checked and a window is too small for its buttons. -/
  answers : ∀ (mx my : Int) (leftClick : Bool), s.Has mx my →
    ∃ answer m', m.handleMouse .wrapping mx my leftClick = .ok (answer, m')

end Manager

/-- New windows lie inside the screen and are not empty. -/
def Call.Valid (s : Screen) : Call → Prop
  | .create _ x y w h =>
      0 < w.toNat ∧ 0 < h.toNat ∧ x.toNat + w.toNat ≤ s.width.toNat ∧
        y.toNat + h.toNat ≤ s.height.toNat
  | _ => True

/-- The calls that raise a window. -/
def Call.raises : Call → Bool
  | .create .. => true
  | .restore _ => true
  | .bringToFront _ => true
  | _ => false

/-- A call, as the claim of the program allows it. -/
structure CallStep (s : Screen) (m : Manager) (c : Call) (m' : Manager) : Prop where
  valid : c.Valid s
  after : m' = m.after c

/-! ## The invariant -/

/-- A window inside the screen, whose place is the saved one. -/
structure Window.Inside (s : Screen) (win : Window) : Prop where
  right : win.x.toNat + win.w.toNat ≤ s.width.toNat
  bottom : win.y.toNat + win.h.toNat ≤ s.height.toNat
  savedX : win.savedX = win.x
  savedY : win.savedY = win.y

/-- After `n` calls that raise a window: the known windows have ids and `z` of their own. -/
structure Manager.Ordered (s : Screen) (m : Manager) (n : Nat) : Prop where
  topZ : m.topZ.toNat ≤ n
  below : ∀ i : Fin maxWindows, (getElem m.windows i.val i.isLt).known = true →
    (getElem m.windows i.val i.isLt).z.toNat ≤ m.topZ.toNat
  apart : ∀ i j : Fin maxWindows, (getElem m.windows i.val i.isLt).known = true →
    (getElem m.windows j.val j.isLt).known = true → i ≠ j →
    (getElem m.windows i.val i.isLt).z ≠ (getElem m.windows j.val j.isLt).z ∧
      (getElem m.windows i.val i.isLt).id ≠ (getElem m.windows j.val j.isLt).id
  /-- The next id is new, while there are ids. -/
  fresh : n + 1 < 2 ^ 32 → m.nextId.toNat ≤ n + 1 ∧
    ∀ i : Fin maxWindows, (getElem m.windows i.val i.isLt).known = true →
      (getElem m.windows i.val i.isLt).id.toNat < m.nextId.toNat
  inside : ∀ i : Fin maxWindows, (getElem m.windows i.val i.isLt).known = true →
    (getElem m.windows i.val i.isLt).Inside s

section

variable {s : Screen} {m : Manager} {n : Nat} {win : Window} {id : UInt32}

theorem getElem_set_cases {t : Vector Window maxWindows} {k : Fin maxWindows} (win : Window)
    (i : Fin maxWindows) :
    i = k ∧ getElem (t.set k.val win k.isLt) i.val i.isLt = win ∨
      i ≠ k ∧ getElem (t.set k.val win k.isLt) i.val i.isLt = getElem t i.val i.isLt := by
  by_cases hik : i = k
  · subst hik
    exact .inl ⟨rfl, Vector.getElem_set_self _⟩
  · exact .inr ⟨hik, Vector.getElem_set_ne _ _ fun heq => hik (Fin.ext heq.symm)⟩

namespace Manager.Ordered

/-- A window is written into a slot, with a `z` and an id that no other window has. -/
theorem set (h : m.Ordered s n) (k : Fin maxWindows) {m' : Manager} {n' : Nat}
    (hwindows : m'.windows = m.windows.set k.val win k.isLt)
    (htop : m.topZ.toNat ≤ m'.topZ.toNat) (hcount : m'.topZ.toNat ≤ n')
    (hbelow : win.known = true → win.z.toNat ≤ m'.topZ.toNat)
    (hapart : win.known = true → ∀ j : Fin maxWindows, j ≠ k →
      (getElem m.windows j.val j.isLt).known = true →
        win.z ≠ (getElem m.windows j.val j.isLt).z ∧ win.id ≠ (getElem m.windows j.val j.isLt).id)
    (hfresh : n' + 1 < 2 ^ 32 → m'.nextId.toNat ≤ n' + 1 ∧
      (win.known = true → win.id.toNat < m'.nextId.toNat) ∧
      ∀ j : Fin maxWindows, (getElem m.windows j.val j.isLt).known = true →
        (getElem m.windows j.val j.isLt).id.toNat < m'.nextId.toNat)
    (hinside : win.known = true → win.Inside s) : m'.Ordered s n' where
  topZ := hcount
  below := by
    intro i
    rw [hwindows]
    rcases @getElem_set_cases m.windows k win i with ⟨-, heq⟩ | ⟨-, heq⟩
    · rw [heq]
      exact hbelow
    · rw [heq]
      exact fun hknown => (h.below i hknown).trans htop
  apart := by
    intro i j
    rw [hwindows]
    rcases @getElem_set_cases m.windows k win i with ⟨hi, heqi⟩ | ⟨hi, heqi⟩
    · rcases @getElem_set_cases m.windows k win j with ⟨hj, heqj⟩ | ⟨hj, heqj⟩
      · exact fun _ _ hne => absurd (hi.trans hj.symm) hne
      · rw [heqi, heqj]
        exact fun hknown hknown' _ => hapart hknown j hj hknown'
    · rcases @getElem_set_cases m.windows k win j with ⟨hj, heqj⟩ | ⟨hj, heqj⟩
      · rw [heqi, heqj]
        intro hknown hknown' _
        obtain ⟨hz, hid⟩ := hapart hknown' i hi hknown
        exact ⟨hz.symm, hid.symm⟩
      · rw [heqi, heqj]
        exact h.apart i j
  fresh := by
    intro hn
    obtain ⟨hnext, hnew, hold⟩ := hfresh hn
    refine ⟨hnext, fun i => ?_⟩
    rw [hwindows]
    rcases @getElem_set_cases m.windows k win i with ⟨-, heq⟩ | ⟨-, heq⟩
    · rw [heq]
      exact hnew
    · rw [heq]
      exact hold i
  inside := by
    intro i
    rw [hwindows]
    rcases @getElem_set_cases m.windows k win i with ⟨-, heq⟩ | ⟨-, heq⟩
    · rw [heq]
      exact hinside
    · rw [heq]
      exact h.inside i

/-- More calls may have been made. -/
theorem mono (h : m.Ordered s n) {n' : Nat} (hle : n ≤ n') : m.Ordered s n' where
  topZ := h.topZ.trans hle
  below := h.below
  apart := h.apart
  fresh := fun hn => by
    obtain ⟨hnext, hids⟩ := h.fresh (by omega)
    exact ⟨by omega, hids⟩
  inside := h.inside

/-- A known window is written anew, with its id and its `z`. -/
theorem rewrite (h : m.Ordered s n) {k : Fin maxWindows} {m' : Manager}
    (hknown : (getElem m.windows k.val k.isLt).known = true)
    (hwindows : m'.windows = m.windows.set k.val win k.isLt) (htop : m'.topZ = m.topZ)
    (hnext : m'.nextId = m.nextId) (hz : win.z = (getElem m.windows k.val k.isLt).z)
    (hid : win.id = (getElem m.windows k.val k.isLt).id) (hinside : win.Inside s) :
    m'.Ordered s n := by
  refine h.set k hwindows (by rw [htop]) (by rw [htop]; exact h.topZ) (fun _ => ?_) ?_ ?_
    fun _ => hinside
  · rw [hz, htop]
    exact h.below k hknown
  · intro _ j hj hknown'
    rw [hz, hid]
    exact h.apart k j hknown hknown' hj.symm
  · intro hn
    obtain ⟨hle, hids⟩ := h.fresh hn
    rw [hnext, hid]
    exact ⟨hle, fun _ => hids k hknown, hids⟩

/-- A known window is raised. -/
theorem raised (h : m.Ordered s n) {k : Fin maxWindows} {m' : Manager} (hn : n + 1 < 2 ^ 32)
    (hknown : (getElem m.windows k.val k.isLt).known = true)
    (hwindows : m'.windows = m.windows.set k.val win k.isLt) (htop : m'.topZ = m.topZ + 1)
    (hnext : m'.nextId = m.nextId) (hz : win.z = m.topZ + 1)
    (hid : win.id = (getElem m.windows k.val k.isLt).id) (hinside : win.Inside s) :
    m'.Ordered s (n + 1) := by
  have hsum : (m.topZ + 1).toNat = m.topZ.toNat + 1 :=
    Profile.toNat_add (by have := h.topZ; exact (Nat.succ_le_succ this).trans_lt hn)
  refine h.set k hwindows (by rw [htop, hsum]; exact Nat.le_succ _)
    (by rw [htop, hsum]; exact Nat.succ_le_succ h.topZ) (fun _ => by rw [hz, htop]) ?_ ?_
    fun _ => hinside
  · intro _ j hj hknown'
    rw [hz, hid]
    refine ⟨fun heq => ?_, (h.apart k j hknown hknown' hj.symm).2⟩
    have hbelow := h.below j hknown'
    rw [← heq, hsum] at hbelow
    omega
  · intro hn'
    obtain ⟨hle, hids⟩ := h.fresh hn
    rw [hnext, hid]
    exact ⟨by omega, fun _ => hids k hknown, hids⟩

theorem create (h : m.Ordered s n) (hn : n + 1 < 2 ^ 32) {title : List UInt8} {x y w hgt : UInt32}
    (hvalid : Call.Valid s (.create title x y w hgt)) :
    (m.create title x y w hgt).2.Ordered s (n + 1) := by
  obtain ⟨-, -, hright, hbottom⟩ := hvalid
  obtain ⟨hnext, hids⟩ := h.fresh hn
  have hsum : (m.topZ + 1).toNat = m.topZ.toNat + 1 :=
    Profile.toNat_add (by have := h.topZ; exact (Nat.succ_le_succ this).trans_lt hn)
  rw [Manager.create]
  cases m.findSlot with
  | none => exact h.mono (Nat.le_succ n)
  | some slot =>
      refine @set s m n (m.newWindow title x y w hgt) h slot _ _ rfl ?_ ?_ ?_ ?_ ?_ ?_
      · exact (Nat.le_succ _).trans (Nat.le_of_eq hsum.symm)
      · exact (Nat.le_of_eq hsum).trans (Nat.succ_le_succ h.topZ)
      · exact fun _ => Nat.le_refl _
      · intro _ j _ hknown
        constructor
        · intro hz
          have hbelow := h.below j hknown
          have hnew : (getElem m.windows j.val j.isLt).z.toNat = m.topZ.toNat + 1 := by
            rw [← hz]
            exact hsum
          omega
        · intro hid
          have hlt := hids j hknown
          rw [← hid] at hlt
          exact absurd hlt (Nat.lt_irrefl _)
      · intro hn'
        have hnew : (m.nextId + 1).toNat = m.nextId.toNat + 1 :=
          Profile.toNat_add ((Nat.succ_le_succ hnext).trans_lt hn')
        refine ⟨(Nat.le_of_eq hnew).trans (Nat.succ_le_succ hnext), fun _ => ?_, fun j hknown => ?_⟩
        · exact (Nat.lt_succ_self _).trans_eq hnew.symm
        · exact ((hids j hknown).trans (Nat.lt_succ_self _)).trans_eq hnew.symm
      · exact fun _ => ⟨hright, hbottom, rfl, rfl⟩

theorem close (h : m.Ordered s n) (id : UInt32) : (m.close id).Ordered s n := by
  rw [Manager.close]
  cases hfind : m.findById id with
  | none => exact h
  | some slot =>
      have hknown := (findById_some hfind).2
      obtain ⟨hright, hbottom, hsavedX, hsavedY⟩ := h.inside slot hknown
      exact h.rewrite hknown rfl rfl rfl rfl rfl ⟨hright, hbottom, hsavedX, hsavedY⟩

theorem minimize (h : m.Ordered s n) (id : UInt32) : (m.minimize id).Ordered s n := by
  rw [Manager.minimize]
  cases hfind : m.findById id with
  | none => exact h
  | some slot =>
      dsimp only
      split
      · exact h
      · have hknown := (findById_some hfind).2
        obtain ⟨hright, hbottom, -, -⟩ := h.inside slot hknown
        exact h.rewrite hknown rfl rfl rfl rfl rfl ⟨hright, hbottom, rfl, rfl⟩

theorem restore (h : m.Ordered s n) (hn : n + 1 < 2 ^ 32) (id : UInt32) :
    (m.restore id).Ordered s (n + 1) := by
  rw [Manager.restore]
  cases hfind : m.findById id with
  | none => exact h.mono (Nat.le_succ n)
  | some slot =>
      dsimp only
      split
      · exact h.mono (Nat.le_succ n)
      · have hknown := (findById_some hfind).2
        obtain ⟨hright, hbottom, hsavedX, hsavedY⟩ := h.inside slot hknown
        refine h.raised hn hknown rfl rfl rfl rfl rfl ⟨?_, ?_, rfl, rfl⟩
        · change (getElem m.windows slot.val slot.isLt).savedX.toNat + _ ≤ _
          rw [hsavedX]
          exact hright
        · change (getElem m.windows slot.val slot.isLt).savedY.toNat + _ ≤ _
          rw [hsavedY]
          exact hbottom

theorem bringToFront (h : m.Ordered s n) (hn : n + 1 < 2 ^ 32) (id : UInt32) :
    (m.bringToFront id).Ordered s (n + 1) := by
  rw [Manager.bringToFront]
  cases hfind : m.findById id with
  | none => exact h.mono (Nat.le_succ n)
  | some slot =>
      have hknown := (findById_some hfind).2
      obtain ⟨hright, hbottom, hsavedX, hsavedY⟩ := h.inside slot hknown
      exact h.raised hn hknown rfl rfl rfl rfl rfl ⟨hright, hbottom, hsavedX, hsavedY⟩

theorem setAppKind (h : m.Ordered s n) (id : UInt32) (kind : AppKind) :
    (m.setAppKind id kind).Ordered s n := by
  rw [Manager.setAppKind]
  cases m.findOpenById id with
  | none => exact h
  | some slot => exact ⟨h.topZ, h.below, h.apart, h.fresh, h.inside⟩

/-- A call keeps the order. -/
theorem after (h : m.Ordered s n) {c : Call} (hvalid : c.Valid s)
    (hn : n + c.raises.toNat < 2 ^ 32) : (m.after c).Ordered s (n + c.raises.toNat) := by
  cases c with
  | create title x y w hgt => exact h.create hn hvalid
  | close id => exact h.close id
  | minimize id => exact h.minimize id
  | restore id => exact h.restore hn id
  | bringToFront id => exact h.bringToFront hn id
  | setAppKind id kind => exact h.setAppKind id kind

theorem boot (s : Screen) : Manager.boot.Ordered s 0 := by
  have hblank : ∀ i : Fin maxWindows, ¬(getElem Manager.boot.windows i.val i.isLt).known = true := by
    intro i
    rw [show getElem Manager.boot.windows i.val i.isLt = .blank from Vector.getElem_replicate i.isLt]
    decide
  exact ⟨Nat.le_refl 0, fun i hi => absurd hi (hblank i), fun i _ hi => absurd hi (hblank i),
    fun _ => ⟨Nat.le_refl 1, fun i hi => absurd hi (hblank i)⟩, fun i hi => absurd hi (hblank i)⟩

/-- After fewer than 2 ^ 32 calls that raise a window. -/
theorem of_run {history : List Call} (h : Run (CallStep s) .boot history m)
    (hcount : history.countP Call.raises < 2 ^ 32) :
    m.Ordered s (history.countP Call.raises) := by
  refine h.invariant (fun history m => history.countP Call.raises < 2 ^ 32 →
    m.Ordered s (history.countP Call.raises)) (fun _ => boot s) ?_ hcount
  intro history m c m' hordered hstep hcount
  have hlast : [c].countP Call.raises = c.raises.toNat := by
    rw [List.countP_singleton]
    cases c.raises <;> rfl
  rw [List.countP_append, hlast] at hcount ⊢
  rw [hstep.after]
  exact (hordered (by omega)).after hstep.valid hcount

end Manager.Ordered

/-! ## Drawing and clicking -/

theorem mem_openSlots {i : Fin maxWindows} :
    i ∈ m.openSlots ↔ (getElem m.windows i.val i.isLt).state = .opened := by
  rw [Manager.openSlots, List.mem_filter, decide_eq_true_iff]
  exact and_iff_right (List.mem_finRange i)

theorem Window.known_of_opened (h : win.state = .opened) : win.known = true :=
  Window.known_iff.mpr (.inl h)

/-- On a screen that numbers with a sign can measure, the test of `handle_mouse` is right. -/
theorem Window.Inside.covers_iff (h : win.Inside s) (hwidth : s.width.toNat < 2 ^ 31)
    (hheight : s.height.toNat < 2 ^ 31) (mx my : Int) : win.Covers mx my ↔
      win.x.toNat ≤ mx ∧ mx < win.x.toNat + win.w.toNat ∧
        win.y.toNat ≤ my ∧ my < win.y.toNat + win.h.toNat := by
  have hright := h.right
  have hbottom := h.bottom
  have hsumX := @Profile.toNat_add win.x win.w (by omega)
  have hsumY := @Profile.toNat_add win.y win.h (by omega)
  rw [Window.Covers, asI32_eq (by omega), asI32_eq (by omega), asI32_eq (by omega),
    asI32_eq (by omega), hsumX, hsumY, Int.natCast_add, Int.natCast_add]

namespace Manager.Ordered

theorem opened_fits (h : m.Ordered s n) (i : Fin maxWindows)
    (hopened : (getElem m.windows i.val i.isLt).state = .opened) :
    (getElem m.windows i.val i.isLt).Fits := by
  have hinside := h.inside i (Window.known_of_opened hopened)
  have hwidth := s.width.toNat_lt
  have hheight := s.height.toNat_lt
  exact ⟨hinside.right.trans_lt hwidth, hinside.bottom.trans_lt hheight⟩

/-- `draw_window` finds the window that it is called for. -/
theorem findById_eq (h : m.Ordered s n) {i : Fin maxWindows}
    (hknown : (getElem m.windows i.val i.isLt).known = true) :
    m.findById (getElem m.windows i.val i.isLt).id = some i := by
  refine firstSlot_of_unique ?_ fun j hj => ?_
  · rw [Fin.getElem_fin, hknown, beq_self_eq_true]
    rfl
  · rw [Fin.getElem_fin, Bool.and_eq_true, beq_iff_eq] at hj
    by_contra hne
    exact (h.apart j i hj.2 hknown hne).2 hj.1

theorem mem_drawOrder {i : Fin maxWindows} :
    i ∈ m.drawOrder ↔ (getElem m.windows i.val i.isLt).state = .opened :=
  (exchangeSort_perm _ _).mem_iff.trans mem_openSlots

theorem redrawAll_eq (h : m.Ordered s n) : m.redrawAll = m.drawOrder := by
  have hsome : ∀ i ∈ m.drawOrder,
      m.findById (getElem m.windows i.val i.isLt).id = some i := fun i hi =>
    h.findById_eq (Window.known_of_opened (mem_drawOrder.mp hi))
  rw [Manager.redrawAll, List.filterMap_congr hsome, List.filterMap_some]

theorem drawOrder_increasing (h : m.Ordered s n) : m.drawOrder.Pairwise fun i j =>
    (getElem m.windows i.val i.isLt).z.toNat < (getElem m.windows j.val j.isLt).z.toNat := by
  refine exchangeSort_strict ((List.nodup_finRange _).filter _) fun i hi j hj heq => ?_
  by_contra hne
  have hi' := Window.known_of_opened (mem_openSlots.mp hi)
  have hj' := Window.known_of_opened (mem_openSlots.mp hj)
  exact (h.apart i j hi' hj' hne).1 (UInt32.toNat_inj.mp heq)

/-- The loop of `handle_mouse` finds the window that was drawn last. -/
theorem topSlot_eq (h : m.Ordered s n) (hwidth : s.width.toNat < 2 ^ 31)
    (hheight : s.height.toNat < 2 ^ 31) (p : Profile) (mx my : Int) :
    m.topSlot p mx my (List.finRange maxWindows) 0 none = .ok (m.paintedLast mx my) := by
  have hunder : ∀ i : Fin maxWindows, i ∈ m.drawOrder →
      (decide ((getElem m.windows i.val i.isLt).x.toNat ≤ mx ∧
        mx < (getElem m.windows i.val i.isLt).x.toNat + (getElem m.windows i.val i.isLt).w.toNat ∧
        (getElem m.windows i.val i.isLt).y.toNat ≤ my ∧
        my < (getElem m.windows i.val i.isLt).y.toNat +
          (getElem m.windows i.val i.isLt).h.toNat) = true ↔ m.Under mx my i) := by
    intro i hi
    have hopened := mem_drawOrder.mp hi
    have hinside := h.inside i (Window.known_of_opened hopened)
    rw [decide_eq_true_iff, Manager.Under, hinside.covers_iff hwidth hheight]
    exact (and_iff_right hopened).symm
  obtain ⟨top, hfound, hcases⟩ := @topSlot_spec m p mx my (List.finRange maxWindows) 0 none
    fun i _ => h.opened_fits i
  rw [hfound, Manager.paintedLast, h.redrawAll_eq]
  rcases hcases with ⟨rfl, hnone⟩ | ⟨i, -, rfl, hi, -, hlargest⟩
  · refine congrArg Except.ok (List.find?_eq_none.mpr fun i hi hin => ?_).symm
    have hi := List.mem_reverse.mp hi
    have hlow := hnone i (List.mem_finRange i) ((hunder i hi).mp hin)
    exact absurd hlow (UInt32.not_lt.mpr (UInt32.zero_le))
  · have hmem := mem_drawOrder.mpr hi.1
    refine congrArg Except.ok (find?_reverse_of_sorted h.drawOrder_increasing hmem
      ((hunder i hmem).mpr hi) fun j hj hin => ?_).symm
    exact UInt32.le_iff_toNat_le.mp (hlargest j (List.mem_finRange j) ((hunder j hj).mp hin))

end Manager.Ordered

/-- Whatever is done with the mouse, the answer has the id of the window. -/
theorem actOn_answer {p : Profile} {slot : Fin maxWindows} {part : Part} {mx my : Int}
    {leftClick : Bool} {answer : UInt32 × UInt32} {m' : Manager}
    (h : m.actOn p slot part mx my leftClick = .ok (answer, m')) :
    answer.1 = (getElem m.windows slot.val slot.isLt).id := by
  cases leftClick with
  | false => cases part <;> cases h <;> rfl
  | true =>
      cases part with
      | minimizeButton =>
          cases h
          rfl
      | closeButton =>
          cases h
          rfl
      | corner =>
          obtain ⟨raised, -, h⟩ := bind_eq_ok h
          cases h
          rfl
      | title =>
          obtain ⟨raised, -, h⟩ := bind_eq_ok h
          obtain ⟨offX, -, h⟩ := bind_eq_ok h
          obtain ⟨offY, -, h⟩ := bind_eq_ok h
          cases h
          rfl
      | content =>
          obtain ⟨raised, -, h⟩ := bind_eq_ok h
          cases h
          rfl

/-- Without checks the tests on a window are no fault. -/
theorem partAt_wrapping (win : Window) (mx my : Int) :
    ∃ part, partAt .wrapping win mx my = .ok part := by
  simp only [partAt, onButton, Profile.add_wrapping, Profile.sub_wrapping, bind_ok, hits_eq]
  split
  · exact ⟨_, rfl⟩
  · split
    · exact ⟨_, rfl⟩
    · split
      · exact ⟨_, rfl⟩
      · split
        · exact ⟨_, rfl⟩
        · split <;> exact ⟨_, rfl⟩

theorem raise_wrapping (m : Manager) (id : UInt32) :
    m.raise .wrapping id = .ok (m.bringToFront id) := by
  rw [Manager.raise]
  cases hfind : m.findById id with
  | none => rw [Manager.bringToFront, hfind]
  | some slot =>
      dsimp only
      rw [Profile.add_wrapping]
      rfl

theorem actOn_wrapping (m : Manager) (slot : Fin maxWindows) (part : Part) (mx my : Int)
    (leftClick : Bool) : ∃ answer m', m.actOn .wrapping slot part mx my leftClick =
      .ok (answer, m') := by
  cases leftClick with
  | false => cases part <;> exact ⟨_, _, rfl⟩
  | true =>
      cases part with
      | minimizeButton => exact ⟨_, _, rfl⟩
      | closeButton => exact ⟨_, _, rfl⟩
      | corner => exact ⟨_, _, by rw [Manager.actOn, raise_wrapping]; rfl⟩
      | title =>
          obtain ⟨offX, hoffX⟩ := Profile.subI_wrapping mx (asI32 (getElem
            (m.bringToFront (getElem m.windows slot.val slot.isLt).id).windows
            slot.val slot.isLt).x)
          obtain ⟨offY, hoffY⟩ := Profile.subI_wrapping my (asI32 (getElem
            (m.bringToFront (getElem m.windows slot.val slot.isLt).id).windows
            slot.val slot.isLt).y)
          rw [Manager.actOn, raise_wrapping]
          dsimp only
          rw [bind_ok, hoffX, bind_ok, hoffY]
          exact ⟨_, _, rfl⟩
      | content => exact ⟨_, _, by rw [Manager.actOn, raise_wrapping]; rfl⟩

namespace Manager.Ordered

theorem clicksOnTop (h : m.Ordered s n) (hwidth : s.width.toNat < 2 ^ 31)
    (hheight : s.height.toNat < 2 ^ 31) : m.ClicksOnTop s where
  distinct := by
    intro i j hi hj heq
    by_contra hne
    exact (h.apart i j (Window.known_of_opened hi) (Window.known_of_opened hj) hne).1 heq
  once := by
    rw [h.redrawAll_eq]
    exact (exchangeSort_perm _ _).nodup_iff.mpr ((List.nodup_finRange _).filter _)
  drawn := by
    intro i
    rw [h.redrawAll_eq]
    exact mem_drawOrder
  increasing := by
    rw [h.redrawAll_eq]
    exact h.drawOrder_increasing.imp fun hlt => UInt32.lt_iff_toNat_lt.mpr hlt
  selected := fun p mx my _ => h.topSlot_eq hwidth hheight p mx my
  answered := by
    intro p mx my leftClick answer m' _ hanswer
    rw [Manager.handleMouse, h.topSlot_eq hwidth hheight, bind_ok] at hanswer
    cases hlast : m.paintedLast mx my with
    | none =>
        rw [hlast] at hanswer
        cases hanswer
        rfl
    | some i =>
        rw [hlast] at hanswer
        obtain ⟨part, -, hanswer⟩ := bind_eq_ok hanswer
        exact actOn_answer hanswer
  answers := by
    intro mx my leftClick _
    rw [Manager.handleMouse, h.topSlot_eq hwidth hheight, bind_ok]
    cases m.paintedLast mx my with
    | none => exact ⟨_, _, rfl⟩
    | some i =>
        obtain ⟨part, hpart⟩ := partAt_wrapping (getElem m.windows i.val i.isLt) mx my
        dsimp only
        rw [hpart, bind_ok]
        exact actOn_wrapping m i part mx my leftClick

end Manager.Ordered

end

/-- On a screen of fewer than 2 ^ 31 columns and rows, after any calls of which fewer than 2 ^ 32
raise a window, clicks go to the window on top. -/
theorem clicksOnTop_of_run {s : Screen} {history : List Call} {m : Manager}
    (h : Run (CallStep s) .boot history m) (hcount : history.countP Call.raises < 2 ^ 32)
    (hwidth : s.width.toNat < 2 ^ 31) (hheight : s.height.toNat < 2 ^ 31) : m.ClicksOnTop s :=
  (Manager.Ordered.of_run h hcount).clicksOnTop hwidth hheight

/-- Two windows that overlap: the second one covers a corner of the first, is hidden and comes back,
and then the first one is brought to the front. -/
def overlapping : List Call :=
  [.create [] 100 100 160 100, .create [] 150 120 160 100, .minimize 2, .restore 2,
    .bringToFront 1]

theorem run_of_calls {s : Screen} {m : Manager} {calls : List Call}
    (hvalid : ∀ c ∈ calls, c.Valid s) : Run (CallStep s) m calls (calls.foldl Manager.after m) := by
  induction calls generalizing m with
  | nil => exact .nil
  | cons c calls ih =>
      exact .cons ⟨hvalid c List.mem_cons_self, rfl⟩
        (ih fun c' hc' => hvalid c' (List.mem_cons_of_mem c hc'))

theorem clicksOnTop_of_run_overlapping :
    (overlapping.foldl Manager.after .boot).ClicksOnTop smallScreen := by
  refine clicksOnTop_of_run (run_of_calls fun c hc => ?_) (by decide) (by decide) (by decide)
  simp only [overlapping, List.mem_cons, List.not_mem_nil, or_false] at hc
  rcases hc with rfl | rfl | rfl | rfl | rfl
  · exact ⟨by decide, by decide, by decide, by decide⟩
  · exact ⟨by decide, by decide, by decide, by decide⟩
  · trivial
  · trivial
  · trivial

/-- A screen that numbers with a sign cannot measure. -/
def hugeScreen : Screen := ⟨0x80000000, 300⟩

/-- A window over the whole width of this screen. -/
def hugeWindow : Manager := (Manager.boot.create [] 0 0 0x80000000 100).2

/-- The right edge of the window has a negative number, and no click gets to the window. -/
theorem not_clicksOnTop : ¬∀ (s : Screen) (history : List Call) (m : Manager),
    Run (CallStep s) .boot history m → history.countP Call.raises < 2 ^ 32 → m.ClicksOnTop s := by
  intro hall
  have hrun : Run (CallStep hugeScreen) .boot [.create [] 0 0 0x80000000 100] hugeWindow :=
    .snoc .nil ⟨⟨by decide, by decide, by decide, by decide⟩, rfl⟩
  have hselected := (hall _ _ _ hrun (by decide)).selected .checked 5 5
    ⟨by decide, by decide, by decide, by decide, by decide, by decide⟩
  revert hselected
  decide +kernel

end PureOS.Desktop
