import PureOS.Desktop.Windows

set_option autoImplicit false

/-!
# Desktop: the windows as a set (`window.rs`)

What the eight slots are for: a set of windows that have been created and not yet closed, each
on the screen or hidden.  A history of calls says which windows these are.
-/

namespace PureOS.Desktop

open PureOS.Foundation

/-- What is to be remembered of a window. -/
structure Shown where
  title : List UInt8
  x : UInt32
  y : UInt32
  w : UInt32
  h : UInt32
  app : AppKind
  minimized : Bool
  deriving DecidableEq

/-- The windows that there are, by their ids. -/
abbrev Desk := UInt32 → Option Shown

/-- What happens to the windows. -/
inductive Event where
  | created (id : UInt32) (title : List UInt8) (x y w h : UInt32)
  /-- There was no room for a window. -/
  | refused
  | closed (id : UInt32)
  | minimized (id : UInt32)
  | restored (id : UInt32)
  | raised (id : UInt32)
  | appSet (id : UInt32) (kind : AppKind)
  deriving DecidableEq

/-- One window changes, when it is there. -/
def Desk.change (A : Desk) (id : UInt32) (f : Shown → Shown) : Desk :=
  Function.update A id ((A id).map f)

/-- What the windows are after an event. -/
def Desk.apply (A : Desk) : Event → Desk
  | .created id title x y w h =>
      Function.update A id (some
        { title := title, x := x, y := y, w := w, h := h, app := .none, minimized := false })
  | .refused => A
  | .closed id => Function.update A id none
  | .minimized id => A.change id fun s => { s with minimized := true }
  | .restored id => A.change id fun s => { s with minimized := false }
  | .raised _ => A
  -- What runs in a window can be set while it is on the screen.
  | .appSet id kind => A.change id fun s => if s.minimized then s else { s with app := kind }

/-- The windows that have been created and not yet closed. -/
def Desk.replay (history : List Event) : Desk := history.foldl Desk.apply fun _ => none

/-- What a call is in the history. -/
def Manager.event (m : Manager) : Call → Event
  | .create title x y w h =>
      match m.findSlot with
      | none => .refused
      | some _ => .created m.nextId title x y w h
  | .close id => .closed id
  | .minimize id => .minimized id
  | .restore id => .restored id
  | .bringToFront id => .raised id
  | .setAppKind id kind => .appSet id kind

/-- The slot that is free is that of no hidden window and not marked with an application, the
next id is not in use, and no hidden window is closed. -/
def Manager.Careful (m : Manager) : Call → Prop
  | .create .. =>
      (∀ slot, m.findSlot = some slot → (getElem m.windows slot slot.isLt).minimized = false ∧ (getElem m.apps slot slot.isLt) = .none) ∧
        m.get m.nextId = none
  | .close id => ∀ slot, m.findById id = some slot → (getElem m.windows slot slot.isLt).minimized = false
  | _ => True

instance (m : Manager) (c : Call) : Decidable (m.Careful c) := by
  cases c <;> unfold Manager.Careful <;> infer_instance

/-- A careful call. -/
inductive Manager.Step : Manager → Event → Manager → Prop where
  | call {m : Manager} (c : Call) (h : m.Careful c) : Step m (m.event c) (m.after c)

/-- What the functions of the manager tell about the windows is so. -/
structure Refines (m : Manager) (A : Desk) : Prop where
  /-- `get` finds the windows that there are, and no others. -/
  get : ∀ id, (m.get id).isSome = (A id).isSome
  /-- What it finds is the window as it should be. -/
  same : ∀ id win s, m.get id = some win → A id = some s →
    win.id = id ∧ win.title = s.title ∧ win.w = s.w ∧ win.h = s.h ∧
      (win.state = .opened ↔ s.minimized = false)
  /-- A window on the screen is where it should be, with its application. -/
  onScreen : ∀ id win s, m.get id = some win → A id = some s → s.minimized = false →
    win.x = s.x ∧ win.y = s.y ∧ m.appKind id = s.app
  /-- `restore` brings a window back on the screen, as it was. -/
  restored : ∀ id s, A id = some s → ∃ win, (m.restore id).get id = some win ∧
    win.state = .opened ∧ win.title = s.title ∧ win.x = s.x ∧ win.y = s.y ∧ win.w = s.w ∧
      win.h = s.h ∧ (m.restore id).appKind id = s.app
  /-- `open_count` counts them. -/
  count : m.openCount = {id | A id ≠ none}.ncard
  /-- `window_id_at` lists them. -/
  listed : ∀ id, (∃ idx, m.windowIdAt idx = some id) ↔ A id ≠ none

/-! ## The slots -/

/-- A slot with what runs in it. -/
abbrev Slot := Window × AppKind

/-- The slots of the manager. -/
def Manager.slot (m : Manager) (i : Fin maxWindows) : Slot := ((getElem m.windows i i.isLt), (getElem m.apps i i.isLt))

/-- What is to be remembered of a slot.  A hidden window is where it will come back. -/
def Slot.shown (s : Slot) : Shown where
  title := s.1.title
  x := if s.1.minimized then s.1.savedX else s.1.x
  y := if s.1.minimized then s.1.savedY else s.1.y
  w := s.1.w
  h := s.1.h
  app := s.2
  minimized := s.1.minimized

/-- The slots are those windows, and what is on the screen is not hidden. -/
structure Agrees (m : Manager) (A : Desk) : Prop where
  table : Represents (fun s : Slot => s.1.known = true) (fun s : Slot => s.1.id) Slot.shown m.slot A
  apart : ∀ i : Fin maxWindows, (getElem m.windows i i.isLt).minimized = true → (getElem m.windows i i.isLt).state = .closed

section

variable {m : Manager} {A : Desk} {id : UInt32} {i : Fin maxWindows} {win : Window}

theorem Window.known_iff : win.known = true ↔ win.state = .opened ∨ win.minimized = true := by
  rw [Window.known, Bool.or_eq_true, beq_iff_eq]

theorem Slot.shown_of_visible {s : Slot} (h : s.1.minimized = false) : s.shown =
    { title := s.1.title, x := s.1.x, y := s.1.y, w := s.1.w, h := s.1.h, app := s.2,
      minimized := false } := by
  rw [Slot.shown, h]
  rfl

theorem Slot.shown_of_hidden {s : Slot} (h : s.1.minimized = true) : s.shown =
    { title := s.1.title, x := s.1.savedX, y := s.1.savedY, w := s.1.w, h := s.1.h, app := s.2,
      minimized := true } := by
  rw [Slot.shown, h]
  rfl

theorem slot_set (m : Manager) (i : Fin maxWindows) (win : Window) (app : AppKind) :
    (fun j : Fin maxWindows => ((getElem (m.windows.set i win i.isLt) j j.isLt), (getElem (m.apps.set i app i.isLt) j j.isLt))) =
      Function.update m.slot i (win, app) := by
  funext j
  by_cases hji : j = i
  · subst hji
    rw [Function.update_self]
    simp
  · rw [Function.update_of_ne hji]
    have hne : i.val ≠ j.val := fun h => hji (Fin.ext h.symm)
    simp [Manager.slot, Vector.getElem_set_ne, hne]

/-- Only the window in a slot is written. -/
theorem slot_setWindow (m : Manager) (i : Fin maxWindows) (win : Window) :
    (fun j : Fin maxWindows => ((getElem (m.windows.set i win i.isLt) j j.isLt), (getElem m.apps j j.isLt))) =
      Function.update m.slot i (win, (getElem m.apps i i.isLt)) := by
  rw [← slot_set]
  simp

namespace Agrees

/-- `find_by_id` finds the slot of a window. -/
theorem findById_eq (h : Agrees m A) (hknown : (getElem m.windows i i.isLt).known = true) :
    m.findById (getElem m.windows i i.isLt).id = some i := by
  refine firstSlot_of_unique ?_ ?_
  · rw [hknown, beq_self_eq_true]
    rfl
  · intro j hj
    rw [Bool.and_eq_true, beq_iff_eq] at hj
    exact h.table.distinct j i hj.2 hknown hj.1

end Agrees

theorem findById_some (h : m.findById id = some i) :
    (getElem m.windows i i.isLt).id = id ∧ (getElem m.windows i i.isLt).known = true := by
  have hfound := firstSlot_eq_some h
  rwa [Bool.and_eq_true, beq_iff_eq] at hfound

theorem findById_none (h : m.findById id = none) (hknown : (getElem m.windows i i.isLt).known = true) :
    (getElem m.windows i i.isLt).id ≠ id := by
  intro heq
  have hnone := firstSlot_eq_none.mp h i
  rw [hknown, Bool.and_true, beq_eq_false_iff_ne] at hnone
  exact hnone heq

theorem findOpenById_some (h : m.findOpenById id = some i) :
    (getElem m.windows i i.isLt).id = id ∧ (getElem m.windows i i.isLt).state = .opened := by
  have hfound := firstSlot_eq_some h
  rwa [Bool.and_eq_true, beq_iff_eq, beq_iff_eq] at hfound

/-- Only what runs in a slot is written. -/
theorem slot_setApp (m : Manager) (i : Fin maxWindows) (app : AppKind) :
    (fun j : Fin maxWindows => ((getElem m.windows j j.isLt), (getElem (m.apps.set i app i.isLt) j j.isLt))) =
      Function.update m.slot i ((getElem m.windows i i.isLt), app) := by
  rw [← slot_set]
  simp

/-- Reads a changed slot back. -/
theorem windows_set_cases (P : Window → Prop) (hi : P win) (hother : ∀ j : Fin maxWindows, P (getElem m.windows j j.isLt))
    (j : Fin maxWindows) : P (getElem (m.windows.set i win i.isLt) j j.isLt) := by
  by_cases hji : j = i
  · subst hji
    simpa using hi
  · have hne : i.val ≠ j.val := fun h => hji (Fin.ext h.symm)
    have hget : (getElem (m.windows.set i win i.isLt) j j.isLt) = (getElem m.windows j j.isLt) := by
      simp [Vector.getElem_set_ne, hne]
    rw [hget]
    exact hother j

namespace Agrees

/-- A window that nobody knows does not change. -/
theorem change_none (h : Agrees m A) (hnone : m.findById id = none) (f : Shown → Shown) :
    A.change id f = A := by
  have hA : A id = none := h.table.eq_none_iff.mpr fun i hi => findById_none hnone hi
  rw [Desk.change, hA, Option.map_none, ← hA, Function.update_eq_self]

/-- The window of a slot changes, and stays known. -/
theorem setWindow (h : Agrees m A) (hknown : (getElem m.windows i i.isLt).known = true) (win : Window)
    {m' : Manager} (hwindows : m'.windows = m.windows.set i win i.isLt) (happs : m'.apps = m.apps)
    (hwin : win.known = true) (hid : win.id = (getElem m.windows i i.isLt).id)
    (hapart : win.minimized = true → win.state = .closed) {f : Shown → Shown}
    (hf : Slot.shown (win, (getElem m.apps i i.isLt)) = f (m.slot i).shown) :
    Agrees m' (A.change (getElem m.windows i i.isLt).id f) where
  table := by
    have hslot : m'.slot = Function.update m.slot i (win, (getElem m.apps i i.isLt)) := by
      rw [← slot_setWindow, ← hwindows, ← happs]
      rfl
    have hchange : A.change (getElem m.windows i i.isLt).id f =
        Function.update A win.id (some (Slot.shown (win, (getElem m.apps i i.isLt)))) := by
      have hstored : A (getElem m.windows i i.isLt).id = some (m.slot i).shown := h.table.stored i hknown
      rw [Desk.change, hstored, Option.map_some, hid, hf]
    rw [hslot, hchange]
    exact h.table.update hknown hwin hid
  apart := by
    rw [hwindows]
    exact windows_set_cases (fun w => w.minimized = true → w.state = .closed) hapart h.apart

/-- A slot that nobody knows takes a new window. -/
theorem newWindow (h : Agrees m A) (hunknown : ¬(getElem m.windows i i.isLt).known = true) (win : Window)
    {m' : Manager} (hwindows : m'.windows = m.windows.set i win i.isLt) (happs : m'.apps = m.apps)
    (hwin : win.known = true) (hnew : A win.id = none)
    (hapart : win.minimized = true → win.state = .closed) :
    Agrees m' (Function.update A win.id (some (Slot.shown (win, (getElem m.apps i i.isLt))))) where
  table := by
    have hslot : m'.slot = Function.update m.slot i (win, (getElem m.apps i i.isLt)) := by
      rw [← slot_setWindow, ← hwindows, ← happs]
      rfl
    rw [hslot]
    exact h.table.fill hunknown hwin hnew
  apart := by
    rw [hwindows]
    exact windows_set_cases (fun w => w.minimized = true → w.state = .closed) hapart h.apart

/-- The window of a slot is no longer known. -/
theorem dropWindow (h : Agrees m A) (hknown : (getElem m.windows i i.isLt).known = true) (win : Window)
    {m' : Manager} (hwindows : m'.windows = m.windows.set i win i.isLt) (happs : m'.apps = m.apps)
    (hwin : ¬win.known = true) (hapart : win.minimized = true → win.state = .closed) :
    Agrees m' (Function.update A (getElem m.windows i i.isLt).id none) where
  table := by
    have hslot : m'.slot = Function.update m.slot i (win, (getElem m.apps i i.isLt)) := by
      rw [← slot_setWindow, ← hwindows, ← happs]
      rfl
    rw [hslot]
    exact h.table.drop hknown hwin
  apart := by
    rw [hwindows]
    exact windows_set_cases (fun w => w.minimized = true → w.state = .closed) hapart h.apart

theorem boot : Agrees .boot fun _ => none where
  table := by
    have hblank : ∀ i, Manager.boot.slot i = (.blank, .none) := by decide
    refine ⟨?_, ?_, ?_⟩
    · intro i j hi
      rw [hblank] at hi
      cases hi
    · intro i hi
      rw [hblank] at hi
      cases hi
    · intro k hk
      exact absurd rfl hk
  apart := by decide

theorem create (h : Agrees m A) {title : List UInt8} {x y w hgt : UInt32}
    (hcareful : m.Careful (.create title x y w hgt)) :
    Agrees (m.create title x y w hgt).2 (A.apply (m.event (.create title x y w hgt))) := by
  obtain ⟨hslot, hfresh⟩ := hcareful
  rw [Manager.create, Manager.event]
  cases hfree : m.findSlot with
  | none => exact h
  | some slot =>
      obtain ⟨hminimized, happ⟩ := hslot slot hfree
      have hclosed : (getElem m.windows slot slot.isLt).state = .closed := beq_iff_eq.mp (firstSlot_eq_some hfree)
      have hunknown : ¬(getElem m.windows slot slot.isLt).known = true := by
        rw [Window.known_iff, hclosed, hminimized]
        simp
      have hnew : A m.nextId = none := by
        rw [h.table.eq_none_iff]
        intro i hi
        refine findById_none ?_ hi
        rw [Manager.get, Option.map_eq_none_iff] at hfresh
        exact hfresh
      rw [Desk.apply, ← happ]
      refine h.newWindow hunknown (m.newWindow title x y w hgt) ?_ ?_ rfl hnew ?_
      · rfl
      · rfl
      · exact fun hmin => nomatch hmin

theorem close (h : Agrees m A) (hcareful : m.Careful (.close id)) :
    Agrees (m.close id) (A.apply (.closed id)) := by
  rw [Manager.close, Desk.apply]
  cases hfind : m.findById id with
  | none =>
      have hA : A id = none := h.table.eq_none_iff.mpr fun i hi => findById_none hfind hi
      rw [← hA, Function.update_eq_self]
      exact h
  | some slot =>
      obtain ⟨hid, hknown⟩ := findById_some hfind
      have hminimized : (getElem m.windows slot slot.isLt).minimized = false :=
        hcareful slot hfind
      rw [← hid]
      refine h.dropWindow hknown { (getElem m.windows slot slot.isLt) with state := .closed } rfl rfl ?_ fun _ => rfl
      rw [Window.known_iff]
      rintro (hstate | hmin)
      · cases hstate
      · rw [hminimized] at hmin
        cases hmin

theorem minimize (h : Agrees m A) : Agrees (m.minimize id) (A.apply (.minimized id)) := by
  rw [Manager.minimize, Desk.apply]
  cases hfind : m.findById id with
  | none =>
      rw [h.change_none hfind]
      exact h
  | some slot =>
      obtain ⟨hid, hknown⟩ := findById_some hfind
      subst hid
      dsimp only
      split
      · rename_i hstate
        have hminimized : (getElem m.windows slot slot.isLt).minimized = true :=
          (Window.known_iff.mp hknown).resolve_left hstate
        have hsame : (m.slot slot).shown.minimized = true := hminimized
        have hA : A (getElem m.windows slot slot.isLt).id = some (m.slot slot).shown := h.table.stored slot hknown
        have hchange : (A.change (getElem m.windows slot slot.isLt).id fun s => { s with minimized := true }) = A := by
          rw [Desk.change, hA, Option.map_some, ← hsame, ← hA, Function.update_eq_self]
        rw [hchange]
        exact h
      · rename_i hstate
        have hopened := not_not.mp hstate
        have hminimized : (getElem m.windows slot slot.isLt).minimized = false := by
          by_contra hmin
          rw [h.apart slot (Bool.eq_true_of_not_eq_false hmin)] at hopened
          cases hopened
        refine h.setWindow hknown
          { (getElem m.windows slot slot.isLt) with
            savedX := (getElem m.windows slot slot.isLt).x, savedY := (getElem m.windows slot slot.isLt).y, minimized := true,
            state := .closed }
          ?_ ?_ ?_ rfl ?_ ?_
        · rfl
        · rfl
        · exact Window.known_iff.mpr (Or.inr rfl)
        · exact fun _ => rfl
        · rw [Slot.shown_of_visible (s := m.slot slot) hminimized]
          rfl

theorem restore (h : Agrees m A) : Agrees (m.restore id) (A.apply (.restored id)) := by
  rw [Manager.restore, Desk.apply]
  cases hfind : m.findById id with
  | none =>
      rw [h.change_none hfind]
      exact h
  | some slot =>
      obtain ⟨hid, hknown⟩ := findById_some hfind
      subst hid
      dsimp only
      split
      · rename_i hnot
        have hminimized : (getElem m.windows slot slot.isLt).minimized = false := by simpa using hnot
        have hsame : (m.slot slot).shown.minimized = false := hminimized
        have hA : A (getElem m.windows slot slot.isLt).id = some (m.slot slot).shown := h.table.stored slot hknown
        have hchange : (A.change (getElem m.windows slot slot.isLt).id fun s => { s with minimized := false }) = A := by
          rw [Desk.change, hA, Option.map_some, ← hsame, ← hA, Function.update_eq_self]
        rw [hchange]
        exact h
      · rename_i hnot
        have hminimized : (getElem m.windows slot slot.isLt).minimized = true := by simpa using hnot
        refine h.setWindow hknown
          { (getElem m.windows slot slot.isLt) with
            x := (getElem m.windows slot slot.isLt).savedX, y := (getElem m.windows slot slot.isLt).savedY, minimized := false,
            state := .opened, z := m.topZ + 1 }
          ?_ ?_ ?_ rfl ?_ ?_
        · rfl
        · rfl
        · exact Window.known_iff.mpr (Or.inl rfl)
        · exact fun hmin => nomatch hmin
        · rw [Slot.shown_of_hidden (s := m.slot slot) hminimized]
          rfl

theorem bringToFront (h : Agrees m A) : Agrees (m.bringToFront id) A := by
  rw [Manager.bringToFront]
  cases hfind : m.findById id with
  | none => exact h
  | some slot =>
      obtain ⟨hid, hknown⟩ := findById_some hfind
      have hA : A (getElem m.windows slot slot.isLt).id = some (m.slot slot).shown := h.table.stored slot hknown
      have hchange : A.change (getElem m.windows slot slot.isLt).id (fun s => s) = A := by
        rw [Desk.change, hA, Option.map_some, ← hA, Function.update_eq_self]
      rw [← hchange]
      refine h.setWindow hknown { (getElem m.windows slot slot.isLt) with z := m.topZ + 1 } ?_ ?_ hknown rfl
        (h.apart slot) ?_
      · rfl
      · rfl
      · rfl

theorem setAppKind (h : Agrees m A) {kind : AppKind} :
    Agrees (m.setAppKind id kind) (A.apply (.appSet id kind)) := by
  rw [Manager.setAppKind, Desk.apply]
  cases hfind : m.findOpenById id with
  | none =>
      have hchange : (A.change id fun s => if s.minimized then s else { s with app := kind }) = A := by
        rw [Desk.change]
        cases hA : A id with
        | none => rw [Option.map_none, ← hA, Function.update_eq_self]
        | some s =>
            obtain ⟨i, hknown, hid, hshown⟩ := h.table.eq_some_iff.mp hA
            have hminimized : s.minimized = true := by
              rw [← hshown]
              refine (Window.known_iff.mp hknown).resolve_left fun hstate => ?_
              have hnone := firstSlot_eq_none.mp hfind i
              rw [Bool.and_eq_false_iff, beq_eq_false_iff_ne, beq_eq_false_iff_ne] at hnone
              exact hnone.elim (fun hne => hne hid) fun hne => hne hstate
            rw [Option.map_some, if_pos hminimized, ← hA, Function.update_eq_self]
      rw [hchange]
      exact h
  | some slot =>
      obtain ⟨hid, hstate⟩ := findOpenById_some hfind
      subst hid
      have hknown : (getElem m.windows slot slot.isLt).known = true := Window.known_iff.mpr (Or.inl hstate)
      have hminimized : (getElem m.windows slot slot.isLt).minimized = false := by
        by_contra hmin
        rw [h.apart slot (Bool.eq_true_of_not_eq_false hmin)] at hstate
        cases hstate
      have hA : A (getElem m.windows slot slot.isLt).id = some (m.slot slot).shown := h.table.stored slot hknown
      have hshown : (m.slot slot).shown.minimized = false := hminimized
      have hset : (if (m.slot slot).shown.minimized then (m.slot slot).shown
          else { (m.slot slot).shown with app := kind }) = Slot.shown ((getElem m.windows slot slot.isLt), kind) := by
        rw [hshown]
        rfl
      have hupdate := h.table.update (a := ((getElem m.windows slot slot.isLt), kind)) hknown hknown rfl
      rw [← slot_setApp] at hupdate
      rw [Desk.change, hA, Option.map_some, hset]
      exact ⟨hupdate, h.apart⟩

/-! ## Runs -/

/-- A careful call does to the slots what it does to the windows. -/
theorem after (h : Agrees m A) {c : Call} (hcareful : m.Careful c) :
    Agrees (m.after c) (A.apply (m.event c)) := by
  cases c with
  | create title x y w hgt => exact h.create hcareful
  | close id => exact h.close hcareful
  | minimize id => exact h.minimize
  | restore id => exact h.restore
  | bringToFront id => exact h.bringToFront
  | setAppKind id kind => exact h.setAppKind

/-- After careful calls the slots are the windows of the history. -/
theorem of_run {history : List Event} (h : Run Manager.Step .boot history m) :
    Agrees m (Desk.replay history) := by
  refine h.invariant (fun history m => Agrees m (Desk.replay history)) Agrees.boot ?_
  intro history m e m' hagrees hstep
  cases hstep with
  | call c hcareful =>
      rw [Desk.replay, List.foldl_append]
      exact hagrees.after hcareful

/-! ## What can be seen -/

/-- A window that there is has a slot. -/
theorem findById_of_some (h : Agrees m A) {s : Shown} (hA : A id = some s) :
    ∃ i, m.findById id = some i ∧ (getElem m.windows i i.isLt).known = true ∧ (getElem m.windows i i.isLt).id = id ∧
      (m.slot i).shown = s := by
  obtain ⟨i, hknown, hid, hshown⟩ := h.table.eq_some_iff.mp hA
  refine ⟨i, ?_, hknown, hid, hshown⟩
  have hfind := h.findById_eq hknown
  have hkey : (getElem m.windows i i.isLt).id = id := hid
  rwa [hkey] at hfind

theorem findById_of_none (h : Agrees m A) (hA : A id = none) : m.findById id = none := by
  cases hfind : m.findById id with
  | none => rfl
  | some i =>
      obtain ⟨hid, hknown⟩ := findById_some hfind
      exact absurd hid (h.table.eq_none_iff.mp hA i hknown)

/-- What `get` finds. -/
theorem get_cases (h : Agrees m A) {s : Shown} (hget : m.get id = some win) (hA : A id = some s) :
    ∃ i, win = (getElem m.windows i i.isLt) ∧ (getElem m.windows i i.isLt).known = true ∧ (getElem m.windows i i.isLt).id = id ∧
      (m.slot i).shown = s := by
  obtain ⟨i, hfind, hknown, hid, hshown⟩ := h.findById_of_some hA
  rw [Manager.get, hfind, Option.map_some] at hget
  exact ⟨i, (Option.some.inj hget).symm, hknown, hid, hshown⟩

theorem opened_iff (h : Agrees m A) (hknown : (getElem m.windows i i.isLt).known = true) :
    (getElem m.windows i i.isLt).state = .opened ↔ (getElem m.windows i i.isLt).minimized = false := by
  constructor
  · intro hstate
    by_contra hmin
    rw [h.apart i (Bool.eq_true_of_not_eq_false hmin)] at hstate
    cases hstate
  · intro hmin
    refine (Window.known_iff.mp hknown).resolve_right fun hmin' => ?_
    rw [hmin] at hmin'
    cases hmin'

/-- What runs in a window on the screen. -/
theorem appKind_eq (h : Agrees m A) (hstate : (getElem m.windows i i.isLt).state = .opened) :
    m.appKind (getElem m.windows i i.isLt).id = (getElem m.apps i i.isLt) := by
  have hknown : (getElem m.windows i i.isLt).known = true := Window.known_iff.mpr (Or.inl hstate)
  have hfind : m.findOpenById (getElem m.windows i i.isLt).id = some i := by
    refine firstSlot_of_unique ?_ ?_
    · rw [hstate, beq_self_eq_true, beq_self_eq_true]
      rfl
    · intro j hj
      rw [Bool.and_eq_true, beq_iff_eq, beq_iff_eq] at hj
      exact h.table.distinct j i (Window.known_iff.mpr (Or.inl hj.2)) hknown hj.1
  rw [Manager.appKind, hfind]

/-- A window on the screen, as it is found. -/
theorem get_onScreen (h : Agrees m A) {s : Shown} (hA : A id = some s)
    (hmin : s.minimized = false) :
    ∃ win, m.get id = some win ∧ win.state = .opened ∧ win.title = s.title ∧ win.x = s.x ∧
      win.y = s.y ∧ win.w = s.w ∧ win.h = s.h ∧ m.appKind id = s.app := by
  obtain ⟨i, hfind, hknown, hid, hshown⟩ := h.findById_of_some hA
  subst hshown hid
  have hvisible : (m.slot i).1.minimized = false := hmin
  have hstate := (h.opened_iff hknown).mpr hvisible
  have hget : m.get (getElem m.windows i i.isLt).id = some (getElem m.windows i i.isLt) := by
    rw [Manager.get, hfind]
    rfl
  rw [Slot.shown_of_visible hvisible]
  exact ⟨(getElem m.windows i i.isLt), hget, hstate, rfl, rfl, rfl, rfl, rfl, h.appKind_eq hstate⟩

theorem mem_windows : win ∈ m.windows.toList ↔ ∃ i : Fin maxWindows, (getElem m.windows i i.isLt) = win := by
  rw [Vector.mem_toList_iff, Vector.mem_iff_getElem]
  constructor
  · rintro ⟨i, hi, heq⟩
    exact ⟨⟨i, hi⟩, heq⟩
  · rintro ⟨i, heq⟩
    exact ⟨i.val, i.isLt, heq⟩

theorem openCount_eq (m : Manager) :
    m.openCount = (Finset.univ.filter fun i => (m.slot i).1.known = true).card := by
  have hlist : m.windows.toList = (List.finRange maxWindows).map fun i => (getElem m.windows i i.isLt) := by
    rw [← List.ofFn_eq_map]
    exact (congrArg Vector.toList Vector.ofFn_getElem).symm.trans Vector.toList_ofFn
  rw [Manager.openCount, hlist, List.countP_map, List.countP_eq_length_filter]
  simp only [Finset.card, Finset.filter, Fin.univ_def, Multiset.filter_coe, Multiset.coe_card]
  refine congrArg List.length (List.filter_congr fun i _ => ?_)
  exact (Bool.decide_eq_true (b := (getElem m.windows i i.isLt).known)).symm

/-- What the functions of the manager tell is so. -/
theorem refines (h : Agrees m A) : Refines m A where
  get id := by
    rw [Manager.get, Option.isSome_map]
    cases hA : A id with
    | none =>
        rw [h.findById_of_none hA]
        rfl
    | some s =>
        obtain ⟨i, hfind, -⟩ := h.findById_of_some hA
        rw [hfind]
        rfl
  same id win s hget hA := by
    obtain ⟨i, rfl, hknown, hid, rfl⟩ := h.get_cases hget hA
    exact ⟨hid, rfl, rfl, rfl, h.opened_iff hknown⟩
  onScreen id win s hget hA hmin := by
    obtain ⟨win', hget', -, -, hx, hy, -, -, happ⟩ := h.get_onScreen hA hmin
    rw [hget] at hget'
    cases hget'
    exact ⟨hx, hy, happ⟩
  restored id s hA := by
    have hA' : (A.apply (.restored id)) id = some { s with minimized := false } := by
      rw [Desk.apply, Desk.change, Function.update_self, hA]
      rfl
    exact h.restore.get_onScreen (s := { s with minimized := false }) hA' rfl
  count := by
    rw [openCount_eq]
    exact h.table.card
  listed id := by
    have hlist : (∃ idx, m.windowIdAt idx = some id) ↔
        ∃ i : Fin maxWindows, (getElem m.windows i i.isLt).known = true ∧ (getElem m.windows i i.isLt).id = id := by
      simp only [Manager.windowIdAt, ← List.getElem?_map, ← List.mem_iff_getElem?, List.mem_map,
        List.mem_filter, mem_windows]
      constructor
      · rintro ⟨win, ⟨⟨i, rfl⟩, hknown⟩, hid⟩
        exact ⟨i, hknown, hid⟩
      · rintro ⟨i, hknown, hid⟩
        exact ⟨(getElem m.windows i i.isLt), ⟨⟨i, rfl⟩, hknown⟩, hid⟩
    rw [hlist, ne_eq, h.table.eq_none_iff]
    constructor
    · rintro ⟨i, hknown, hid⟩ hnone
      exact hnone i hknown hid
    · intro hne
      by_contra hall
      exact hne fun i hknown hid => hall ⟨i, hknown, hid⟩

end Agrees

end

/-- After every history of careful calls the manager knows the windows that have been created
and not yet closed, each as it was made. -/
theorem refines_of_careful_run {history : List Event} {m : Manager}
    (h : Run Manager.Step .boot history m) : Refines m (Desk.replay history) :=
  (Agrees.of_run h).refines

/-- The history of some calls, and the manager after them. -/
def Manager.perform (m : Manager) (calls : List Call) : List Event × Manager :=
  calls.foldl (fun r c => (r.1 ++ [r.2.event c], r.2.after c)) ([], m)

/-- A window that is made, marked, hidden and brought back, next to one that is closed. -/
theorem refines_of_careful_run_hidden :
    Refines (Manager.boot.perform
      [.create [65] 10 20 300 200, .setAppKind 1 .snake, .create [66] 30 40 300 200, .minimize 1,
        .close 2, .restore 1]).2
      (Desk.replay (Manager.boot.perform
        [.create [65] 10 20 300 200, .setAppKind 1 .snake, .create [66] 30 40 300 200, .minimize 1,
          .close 2, .restore 1]).1) := by
  refine refines_of_careful_run ?_
  have h₁ : Run Manager.Step .boot _ _ := .snoc .nil (.call (.create [65] 10 20 300 200) (by decide +kernel))
  have h₂ := h₁.snoc (.call (.setAppKind 1 .snake) trivial)
  have h₃ := h₂.snoc (.call (.create [66] 30 40 300 200) (by decide +kernel))
  have h₄ := h₃.snoc (.call (.minimize 1) trivial)
  have h₅ := h₄.snoc (.call (.close 2) (by decide +kernel))
  exact h₅.snoc (.call (.restore 1) trivial)

/-- The calls as they come, careful or not. -/
inductive Manager.AnyStep : Manager → Event → Manager → Prop where
  | call {m : Manager} (c : Call) : AnyStep m (m.event c) (m.after c)

/-- A hidden window whose slot is taken by the next one is gone. -/
theorem not_refines_of_run :
    ¬∀ (history : List Event) (m : Manager), Run Manager.AnyStep .boot history m →
      Refines m (Desk.replay history) := by
  intro h
  have h₁ : Run Manager.AnyStep .boot _ _ := .snoc .nil (.call (.create [65] 10 20 300 200))
  have h₂ := h₁.snoc (.call (.minimize 1))
  have h₃ := h₂.snoc (.call (.create [66] 30 40 300 200))
  have hget := (h _ _ h₃).get 1
  revert hget
  decide +kernel

end PureOS.Desktop
