import PureOS.Desktop.WindowSet

set_option autoImplicit false

/-!
# Desktop: Escape closes the windows (`desktop.rs`)

When Escape is pressed and there are windows, the desktop goes through the ids from 0 to 7 and
closes what it finds.  The ids of the windows grow with every window that is made.
-/

namespace PureOS.Desktop

open PureOS.Foundation

namespace Manager

/-- No window is hidden, each has an id that the loop comes to, and no two share one. -/
structure Closable (m : Manager) : Prop where
  onScreen : ∀ i : Fin maxWindows, (getElem m.windows i i.isLt).minimized = false
  small : ∀ i : Fin maxWindows, (getElem m.windows i i.isLt).state = .opened → (getElem m.windows i i.isLt).id < 8
  distinct : ∀ i j : Fin maxWindows, (getElem m.windows i i.isLt).state = .opened → (getElem m.windows j j.isLt).state = .opened →
    (getElem m.windows i i.isLt).id = (getElem m.windows j j.isLt).id → i = j

section

variable {m : Manager} {id : UInt32} {i j : Fin maxWindows}

theorem openCount_eq_zero : m.openCount = 0 ↔ ∀ i : Fin maxWindows, ¬(getElem m.windows i i.isLt).known = true := by
  rw [openCount, List.countP_eq_zero]
  constructor
  · intro h i
    exact h _ (Agrees.mem_windows.mpr ⟨i, rfl⟩)
  · rintro h win hwin
    obtain ⟨i, rfl⟩ := Agrees.mem_windows.mp hwin
    exact h i

/-- `close` does nothing, or writes into one slot that the window is closed. -/
theorem close_cases (m : Manager) (id : UInt32) :
    (m.findById id = none ∧ m.close id = m) ∨
      ∃ slot, m.findById id = some slot ∧
        (m.close id).windows = m.windows.set slot { (getElem m.windows slot slot.isLt) with state := .closed }
          slot.isLt := by
  rw [close]
  cases hfind : m.findById id with
  | none => exact Or.inl ⟨rfl, rfl⟩
  | some slot => exact Or.inr ⟨slot, rfl, rfl⟩

/-- The window that a turn closes is the one that it has looked for. -/
theorem closeFound_eq (m : Manager) (id : UInt32) : m.closeFound id = m.close id := by
  rw [closeFound, get]
  cases hfind : m.findById id with
  | none =>
      rw [close, hfind]
      rfl
  | some slot =>
      rw [Option.map_some]
      exact congrArg m.close (findById_some hfind).1

/-- A turn leaves the other windows alone. -/
theorem closeFound_of_ne (h : (getElem m.windows i i.isLt).id ≠ id) :
    (getElem (m.closeFound id).windows i i.isLt) = (getElem m.windows i i.isLt) := by
  rw [closeFound_eq]
  rcases m.close_cases id with ⟨-, heq⟩ | ⟨slot, hfind, heq⟩
  · rw [heq]
  · have hne : slot ≠ i := by
      rintro rfl
      exact h (findById_some hfind).1
    have hval : slot.val ≠ i.val := fun hv => hne (Fin.ext hv)
    rw [heq]
    exact Vector.getElem_set_ne _ _ hval

/-- What a turn can do to a window. -/
theorem closeFound_window (m : Manager) (id : UInt32) (i : Fin maxWindows) :
    (getElem (m.closeFound id).windows i i.isLt) = (getElem m.windows i i.isLt) ∨
      m.findById id = some i ∧
        (getElem (m.closeFound id).windows i i.isLt) = { (getElem m.windows i i.isLt) with state := .closed } := by
  rw [closeFound_eq]
  rcases m.close_cases id with ⟨-, heq⟩ | ⟨slot, hfind, heq⟩
  · exact Or.inl (by rw [heq])
  · by_cases hslot : slot = i
    · subst hslot
      refine Or.inr ⟨hfind, ?_⟩
      rw [heq]
      exact Vector.getElem_set_self _
    · refine Or.inl ?_
      have hval : slot.val ≠ i.val := fun hv => hslot (Fin.ext hv)
      rw [heq]
      exact Vector.getElem_set_ne _ _ hval

theorem closeFound_id (m : Manager) (id : UInt32) (i : Fin maxWindows) :
    (getElem (m.closeFound id).windows i i.isLt).id = (getElem m.windows i i.isLt).id := by
  rcases m.closeFound_window id i with heq | ⟨-, heq⟩
  · rw [heq]
  · rw [heq]

theorem closeFound_minimized (m : Manager) (id : UInt32) (i : Fin maxWindows) :
    (getElem (m.closeFound id).windows i i.isLt).minimized = (getElem m.windows i i.isLt).minimized := by
  rcases m.closeFound_window id i with heq | ⟨-, heq⟩
  · rw [heq]
  · rw [heq]

/-! ## Why windows stay -/

/-- A hidden window stays hidden. -/
theorem foldl_minimized (ids : List UInt32) (m : Manager) (i : Fin maxWindows) :
    (getElem (ids.foldl closeFound m).windows i i.isLt).minimized = (getElem m.windows i i.isLt).minimized := by
  induction ids generalizing m with
  | nil => rfl
  | cons id ids ih => rw [List.foldl_cons, ih, closeFound_minimized]

/-- A window stays that the loop does not come to. -/
theorem foldl_of_not_mem (ids : List UInt32) {m : Manager} (h : (getElem m.windows i i.isLt).id ∉ ids) :
    (getElem (ids.foldl closeFound m).windows i i.isLt) = (getElem m.windows i i.isLt) := by
  induction ids generalizing m with
  | nil => rfl
  | cons id ids ih =>
      rw [List.mem_cons, not_or] at h
      have hsame : (getElem (m.closeFound id).windows i i.isLt) = (getElem m.windows i i.isLt) := closeFound_of_ne h.1
      rw [List.foldl_cons, ih, hsame]
      rw [hsame]
      exact h.2

/-- Of two windows with one id one stays. -/
theorem foldl_of_same {ids : List UInt32} (hids : ids.Nodup) {m : Manager} (hne : i ≠ j)
    (hi : (getElem m.windows i i.isLt).known = true) (hj : (getElem m.windows j j.isLt).known = true)
    (heq : (getElem m.windows i i.isLt).id = (getElem m.windows j j.isLt).id) :
    (getElem (ids.foldl closeFound m).windows i i.isLt).known = true ∨
      (getElem (ids.foldl closeFound m).windows j j.isLt).known = true := by
  induction ids generalizing m with
  | nil => exact Or.inl hi
  | cons id ids ih =>
      obtain ⟨hmem, hnodup⟩ := List.nodup_cons.mp hids
      rw [List.foldl_cons]
      by_cases hid : (getElem m.windows i i.isLt).id = id
      · -- This turn closes one of them at most, and the later ones look for other ids.
        subst hid
        rcases m.closeFound_window (getElem m.windows i i.isLt).id i with hsame | ⟨hfind, -⟩
        · left
          rw [foldl_of_not_mem, hsame]
          · exact hi
          · rwa [hsame]
        · rcases m.closeFound_window (getElem m.windows i i.isLt).id j with hsame | ⟨hfind', -⟩
          · right
            rw [foldl_of_not_mem, hsame]
            · exact hj
            · rwa [hsame, ← heq]
          · rw [hfind] at hfind'
            exact absurd (Option.some.inj hfind') hne
      · have hsame : (getElem (m.closeFound id).windows i i.isLt) = (getElem m.windows i i.isLt) := closeFound_of_ne hid
        have hsame' : (getElem (m.closeFound id).windows j j.isLt) = (getElem m.windows j j.isLt) :=
          closeFound_of_ne fun h => hid (heq.trans h)
        refine ih hnodup ?_ ?_ ?_
        · rwa [hsame]
        · rwa [hsame']
        · rwa [hsame, hsame']

/-! ## Why windows go -/

/-- A turn closes the window that it looks for, when its id is its own. -/
theorem closeFound_closes (hknown : (getElem m.windows i i.isLt).known = true)
    (hunique : ∀ j : Fin maxWindows, (getElem m.windows j j.isLt).known = true →
      (getElem m.windows j j.isLt).id = (getElem m.windows i i.isLt).id → j = i) :
    (getElem (m.closeFound (getElem m.windows i i.isLt).id).windows i i.isLt).state = .closed := by
  have hfind : m.findById (getElem m.windows i i.isLt).id = some i := by
    refine firstSlot_of_unique ?_ ?_
    · rw [hknown, beq_self_eq_true]
      rfl
    · intro j hj
      rw [Bool.and_eq_true, beq_iff_eq] at hj
      exact hunique j hj.2 hj.1
  rw [closeFound_eq]
  rcases m.close_cases (getElem m.windows i i.isLt).id with ⟨hnone, -⟩ | ⟨slot, hfind', heq⟩
  · rw [hfind] at hnone
    cases hnone
  · rw [hfind] at hfind'
    cases hfind'
    rw [heq]
    exact congrArg Window.state (Vector.getElem_set_self _)

/-- Windows with ids of their own, none of them hidden, go when the loop comes to all of them. -/
theorem foldl_closes (ids : List UInt32) {m : Manager}
    (honScreen : ∀ i : Fin maxWindows, (getElem m.windows i i.isLt).minimized = false)
    (hmem : ∀ i : Fin maxWindows, (getElem m.windows i i.isLt).known = true → (getElem m.windows i i.isLt).id ∈ ids)
    (hdistinct : ∀ i j : Fin maxWindows, (getElem m.windows i i.isLt).known = true → (getElem m.windows j j.isLt).known = true →
      (getElem m.windows i i.isLt).id = (getElem m.windows j j.isLt).id → i = j) (i : Fin maxWindows) :
    ¬(getElem (ids.foldl closeFound m).windows i i.isLt).known = true := by
  induction ids generalizing m with
  | nil => exact fun hknown => List.not_mem_nil (hmem i hknown)
  | cons id ids ih =>
      have hbefore : ∀ j : Fin maxWindows, (getElem (m.closeFound id).windows j j.isLt).known = true →
          (getElem m.windows j j.isLt).known = true ∧ (getElem m.windows j j.isLt).id ≠ id := by
        intro j hknown
        rcases m.closeFound_window id j with hsame | ⟨-, hclosed⟩
        · rw [hsame] at hknown
          refine ⟨hknown, ?_⟩
          rintro rfl
          have hclosed := closeFound_closes hknown fun k hk => hdistinct k j hk hknown
          rw [hsame] at hclosed
          rw [Window.known_iff, hclosed, honScreen j] at hknown
          rcases hknown with hstate | hmin
          · cases hstate
          · cases hmin
        · rw [hclosed, Window.known_iff, honScreen j] at hknown
          rcases hknown with hstate | hmin
          · cases hstate
          · cases hmin
      refine ih ?_ ?_ ?_
      · intro j
        rw [closeFound_minimized, honScreen]
      · intro j hknown
        obtain ⟨hknown', hne⟩ := hbefore j hknown
        rw [closeFound_id]
        exact (List.mem_cons.mp (hmem j hknown')).resolve_left hne
      · intro j k hj hk heq
        rw [closeFound_id, closeFound_id] at heq
        exact hdistinct j k (hbefore j hj).1 (hbefore k hk).1 heq

end

/-- The ids that the loop comes to. -/
theorem mem_loopIds {id : UInt32} : id ∈ (List.range 8).map UInt32.ofNat ↔ id < 8 := by
  rw [List.mem_map, UInt32.lt_iff_toNat_lt]
  constructor
  · rintro ⟨n, hn, rfl⟩
    have hn := List.mem_range.mp hn
    rw [UInt32.toNat_ofNat']
    change n % 2 ^ 32 < 8
    omega
  · intro hid
    exact ⟨id.toNat, List.mem_range.mpr hid, UInt32.ofNat_toNat⟩

/-- After the loop of the Escape handler no window is left, exactly when before it no window is
hidden, and the windows have ids of their own, all of them below 8. -/
theorem closeAll_openCount_iff (m : Manager) : m.closeAll.openCount = 0 ↔ m.Closable := by
  rw [openCount_eq_zero, closeAll]
  constructor
  · intro h
    have honScreen : ∀ i : Fin maxWindows, (getElem m.windows i i.isLt).minimized = false := by
      intro i
      by_contra hmin
      refine h i (Window.known_iff.mpr (Or.inr ?_))
      rw [foldl_minimized]
      exact Bool.eq_true_of_not_eq_false hmin
    refine ⟨honScreen, ?_, ?_⟩
    · intro i hstate
      by_contra hid
      refine h i ?_
      rw [foldl_of_not_mem _ fun hmem => hid (mem_loopIds.mp hmem)]
      exact Window.known_iff.mpr (Or.inl hstate)
    · intro i j hi hj heq
      by_contra hne
      have hnodup : ((List.range 8).map UInt32.ofNat).Nodup := by decide
      have hknown := foldl_of_same hnodup hne (Window.known_iff.mpr (Or.inl hi))
        (Window.known_iff.mpr (Or.inl hj)) heq
      exact hknown.elim (h i) (h j)
  · intro h
    have hopened : ∀ i : Fin maxWindows, (getElem m.windows i i.isLt).known = true →
        (getElem m.windows i i.isLt).state = .opened := by
      intro i hknown
      refine (Window.known_iff.mp hknown).resolve_right fun hmin => ?_
      rw [h.onScreen i] at hmin
      cases hmin
    refine foldl_closes _ h.onScreen ?_ ?_
    · exact fun i hknown => mem_loopIds.mpr (h.small i (hopened i hknown))
    · exact fun i j hi hj => h.distinct i j (hopened i hi) (hopened j hj)

/-- Seven windows that were made and closed are enough: the eighth stays when Escape is pressed. -/
theorem not_closeAll_openCount :
    ¬∀ (history : List Event) (m : Manager), Run AnyStep .boot history m →
      m.closeAll.openCount = 0 := by
  intro h
  have hmake : ∀ {history : List Event} {m : Manager} (id : UInt32), Run AnyStep .boot history m →
      Run AnyStep .boot _ ((m.after (.create [65] 10 20 300 200)).after (.close id)) :=
    fun id hrun => (hrun.snoc (.call (.create [65] 10 20 300 200))).snoc (.call (.close id))
  have h₇ := hmake 7 (hmake 6 (hmake 5 (hmake 4 (hmake 3 (hmake 2 (hmake 1 .nil))))))
  have hleft := h _ _ (h₇.snoc (.call (.create [65] 10 20 300 200)))
  revert hleft
  decide +kernel

end Manager

end PureOS.Desktop
