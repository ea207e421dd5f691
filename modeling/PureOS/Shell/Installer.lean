import Mathlib.Data.List.Basic
import PureOS.Foundation.Bytes

set_option autoImplicit false

/-!
# Shell: the installer (`installer.rs`)

The wizard draws the screen of its state and waits for a key that means something there.  The
screen of an installation step moves on by itself when it is drawn, so that the last step leaves
the wizard waiting for the keys of a screen that it never draws.
-/

namespace PureOS.Installer

open PureOS.Foundation

/-! ## The wizard -/

/-- `InstState`. -/
inductive InstState where
  | welcome
  | diskSelection
  | partitionView
  | summary
  | install
  | complete
  deriving DecidableEq

/-- `DiskDesc`. -/
structure DiskDesc where
  label : List UInt8
  isNvme : Bool
  isSsd : Bool
  sizeMb : Nat

/-- `DISKS` behind `detect_hardware`. -/
def disks : List DiskDesc :=
  [⟨ascii "NVMe PCIe SSD  512 GB", true, true, 512000⟩,
    ⟨ascii "SATA SSD       256 GB", false, true, 256000⟩,
    ⟨ascii "SATA HDD      2.0 TB", false, false, 2000000⟩]

/-- `STATE`, `SEL_DISK` and `STEP`. -/
structure Wizard where
  state : InstState
  selDisk : Nat
  step : Nat

/-- The sizes in MB that `screen_partitions` hands to `show_part` for a disk.  On the screen they
stand divided by 1024 and rounded down. -/
def partitionSizes (sizeMb : Nat) : List Nat :=
  let esp := 512
  let sys := 8192
  let swap := 2048
  [esp, sys, swap, sizeMb - (esp + sys + swap)]

/-- A screen, with what depends on the state. -/
inductive Screen where
  | welcome
  | disks (sel : Nat)
  /-- The sizes are those handed to `show_part`, in MB. -/
  | partitions (sizes : List Nat)
  | summary (sel : Nat)
  | install (step : Nat)
  | complete

/-- How the wizard ends. -/
inductive Ending where
  | returned
  | reboot
  deriving DecidableEq

/-- What a key does. -/
inductive Answer where
  | ignored
  | redraw (w : Wizard)
  | ended (e : Ending)

namespace Wizard

/-- The arms of the loop of `run_installer`: the screen of the state is drawn, and the one of an
installation step goes on to the next. -/
def screen (w : Wizard) : Screen × Wizard :=
  match w.state with
  | .welcome => (.welcome, w)
  | .diskSelection => (.disks w.selDisk, w)
  | .partitionView =>
      (.partitions (partitionSizes ((disks.map DiskDesc.sizeMb).getD w.selDisk 0)), w)
  | .summary => (.summary w.selDisk, w)
  | .install =>
      (.install w.step,
        { w with step := w.step + 1, state := if 6 ≤ w.step + 1 then .complete else w.state })
  | .complete => (.complete, w)

/-- A key in `wait_key`. -/
def key (w : Wizard) (ch : UInt8) : Answer :=
  let enter := ch = 10 ∨ ch = 13
  let escape := ch = 0x1b
  match w.state with
  | .welcome =>
      if enter then .redraw { w with state := .diskSelection }
      else if escape then .ended .returned
      else .ignored
  | .diskSelection =>
      if enter then .redraw { w with state := .partitionView }
      else if escape then .redraw { w with state := .welcome }
      else if ch = 119 ∨ ch = 87 then
        if 0 < w.selDisk then .redraw { w with selDisk := w.selDisk - 1 } else .ignored
      else if ch = 115 ∨ ch = 83 then
        if w.selDisk < disks.length - 1 then .redraw { w with selDisk := w.selDisk + 1 }
        else .ignored
      else .ignored
  | .partitionView =>
      if enter then .redraw { w with state := .summary }
      else if escape then .redraw { w with state := .diskSelection }
      else .ignored
  | .summary =>
      if enter then .redraw { w with step := 0, state := .install }
      else if escape then .redraw { w with state := .diskSelection }
      else .ignored
  | .complete =>
      if enter then .ended .reboot
      else if escape then .ended .returned
      else .ignored
  | .install => .redraw w

end Wizard

/-- The wizard, the screens that were drawn, and how it has ended. -/
structure Session where
  wizard : Wizard
  drawn : List Screen
  ending : Option Ending

namespace Session

/-- A screen is drawn. -/
def draw (w : Wizard) (drawn : List Screen) : Session where
  wizard := w.screen.2
  drawn := drawn ++ [w.screen.1]
  ending := none

/-- `run_installer` up to the first key. -/
def start (w : Wizard) : Session := draw { w with state := .welcome } []

/-- A key is pressed. -/
def press (s : Session) (ch : UInt8) : Session :=
  match s.ending with
  | some _ => s
  | none =>
      match s.wizard.key ch with
      | .ignored => s
      | .redraw w => draw w s.drawn
      | .ended e => { s with ending := some e }

/-- `run_installer` with the keys that are pressed. -/
def run (w : Wizard) (keys : List UInt8) : Session := keys.foldl press (start w)

end Session

/-! ## What has been drawn -/

/-- The screens end with a summary that was confirmed and `n` installation steps. -/
def Installed (n : Nat) (drawn : List Screen) : Prop :=
  ∃ before sel, sel < disks.length ∧
    drawn = before ++ .summary sel :: (List.range n).map .install

/-- Before an installation step stand a confirmed summary and the steps before it; what is drawn
is never the screen of the end, and partitions fill the disk that they are for. -/
structure Sound (drawn : List Screen) : Prop where
  installed : ∀ before n behind, drawn = before ++ .install n :: behind → Installed n before
  not_complete : Screen.complete ∉ drawn
  partitions : ∀ sizes, Screen.partitions sizes ∈ drawn → ∃ d ∈ disks, sizes.sum = d.sizeMb

section Drawn

variable {drawn : List Screen} {n : Nat} {w : Wizard}

theorem Installed.succ (h : Installed n drawn) : Installed (n + 1) (drawn ++ [.install n]) := by
  obtain ⟨before, sel, hsel, rfl⟩ := h
  refine ⟨before, sel, hsel, ?_⟩
  rw [List.range_succ, List.map_append, List.append_assoc, List.cons_append]
  rfl

/-- One more screen. -/
theorem Sound.snoc (h : Sound drawn) {x : Screen}
    (hinstall : ∀ n, x = .install n → Installed n drawn)
    (hcomplete : x ≠ .complete)
    (hpartitions : ∀ sizes, x = .partitions sizes → ∃ d ∈ disks, sizes.sum = d.sizeMb) :
    Sound (drawn ++ [x]) where
  installed before n behind heq := by
    rcases List.eq_nil_or_concat behind with rfl | ⟨behind, y, rfl⟩
    · obtain ⟨rfl, hx⟩ := List.append_inj' heq rfl
      exact hinstall n (List.singleton_inj.mp hx)
    · rw [List.concat_eq_append, ← List.cons_append, ← List.append_assoc] at heq
      exact h.installed before n behind (List.append_inj' heq rfl).1
  not_complete hmem := by
    rcases List.mem_append.mp hmem with hmem | hmem
    · exact h.not_complete hmem
    · exact hcomplete (List.mem_singleton.mp hmem).symm
  partitions sizes hmem := by
    rcases List.mem_append.mp hmem with hmem | hmem
    · exact h.partitions sizes hmem
    · exact hpartitions sizes (List.mem_singleton.mp hmem).symm

/-- What is last on the screen in a state, and how far the installation is. -/
def Shown (w : Wizard) (drawn : List Screen) : Prop :=
  match w.state with
  | .summary => Installed 0 drawn
  | .install => w.step < 6 ∧ Installed w.step drawn
  | .complete => Installed 6 drawn
  | _ => True

/-- A wizard whose next screen may be drawn. -/
structure Ready (w : Wizard) (drawn : List Screen) : Prop where
  sel_lt : w.selDisk < disks.length
  step_lt : w.state = .install → w.step < 6
  installed : w.state = .install → Installed w.step drawn
  not_complete : w.state ≠ .complete

/-- The states between two keys. -/
structure Session.Holds (s : Session) : Prop where
  sel_lt : s.wizard.selDisk < disks.length
  shown : Shown s.wizard s.drawn
  sound : Sound s.drawn
  reboot : s.ending = some .reboot → Installed 6 s.drawn

/-- No disk is larger or smaller than its partitions. -/
theorem sum_partitionSizes : ∀ d ∈ disks, (partitionSizes d.sizeMb).sum = d.sizeMb := by decide

theorem exists_disk {sel : Nat} (h : sel < disks.length) :
    ∃ d ∈ disks, (partitionSizes ((disks.map DiskDesc.sizeMb).getD sel 0)).sum = d.sizeMb := by
  refine ⟨disks[sel], List.getElem_mem h, ?_⟩
  rw [List.getD_eq_getElem?_getD, List.getElem?_map, List.getElem?_eq_getElem h]
  exact sum_partitionSizes _ (List.getElem_mem h)

/-- A screen may be drawn, and then the wizard waits for keys again. -/
theorem Ready.draw (h : Ready w drawn) (hsound : Sound drawn) : (Session.draw w drawn).Holds := by
  obtain ⟨state, sel, step⟩ := w
  obtain ⟨hsel, hstep, hinstalled, hcomplete⟩ := h
  cases state with
  | welcome => exact ⟨hsel, trivial, hsound.snoc nofun nofun nofun, nofun⟩
  | diskSelection => exact ⟨hsel, trivial, hsound.snoc nofun nofun nofun, nofun⟩
  | partitionView =>
      refine ⟨hsel, trivial, hsound.snoc nofun nofun ?_, nofun⟩
      rintro sizes ⟨⟩
      exact exists_disk hsel
  | summary => exact ⟨hsel, ⟨drawn, sel, hsel, rfl⟩, hsound.snoc nofun nofun nofun, nofun⟩
  | install =>
      have hnext := (hinstalled rfl).succ
      have hall : Sound (drawn ++ [.install step]) := by
        refine hsound.snoc ?_ nofun nofun
        rintro n ⟨⟩
        exact hinstalled rfl
      have hlt : step < 6 := hstep rfl
      by_cases hlast : 6 ≤ step + 1
      · obtain rfl : step = 5 := by omega
        exact ⟨hsel, hnext, hall, nofun⟩
      · refine ⟨hsel, ?_, hall, nofun⟩
        have hstate : (if 6 ≤ step + 1 then InstState.complete else .install) = .install :=
          if_neg hlast
        simp only [Session.draw, Wizard.screen, Shown, hstate]
        exact ⟨Nat.lt_of_not_le hlast, hnext⟩
  | complete => exact absurd rfl hcomplete

/-- What a key leads to. -/
theorem key_redraw {w w' : Wizard} {ch : UInt8} (hsel : w.selDisk < disks.length)
    (hshown : Shown w drawn) (h : w.key ch = .redraw w') : Ready w' drawn := by
  obtain ⟨state, sel, step⟩ := w
  cases state with
  | welcome =>
      simp only [Wizard.key] at h
      split at h
      · cases h; exact ⟨hsel, nofun, nofun, nofun⟩
      split at h <;> cases h
  | diskSelection =>
      simp only [Wizard.key] at h
      split at h
      · cases h; exact ⟨hsel, nofun, nofun, nofun⟩
      split at h
      · cases h; exact ⟨hsel, nofun, nofun, nofun⟩
      split at h
      · split at h
        · cases h; exact ⟨Nat.lt_of_le_of_lt (Nat.sub_le sel 1) hsel, nofun, nofun, nofun⟩
        · cases h
      split at h
      · split at h
        · rename_i hlt
          cases h
          exact ⟨Nat.add_lt_of_lt_sub hlt, nofun, nofun, nofun⟩
        · cases h
      · cases h
  | partitionView =>
      simp only [Wizard.key] at h
      split at h
      · cases h; exact ⟨hsel, nofun, nofun, nofun⟩
      split at h
      · cases h; exact ⟨hsel, nofun, nofun, nofun⟩
      · cases h
  | summary =>
      simp only [Wizard.key] at h
      split at h
      · cases h; exact ⟨hsel, fun _ => Nat.zero_lt_succ 5, fun _ => hshown, nofun⟩
      split at h
      · cases h; exact ⟨hsel, nofun, nofun, nofun⟩
      · cases h
  | install =>
      cases h
      exact ⟨hsel, fun _ => hshown.1, fun _ => hshown.2, nofun⟩
  | complete =>
      simp only [Wizard.key] at h
      split at h
      · cases h
      split at h <;> cases h

/-- Only the wizard that has installed reboots. -/
theorem key_reboot {ch : UInt8} (h : w.key ch = .ended .reboot) : w.state = .complete := by
  obtain ⟨state, sel, step⟩ := w
  cases state with
  | complete => rfl
  | install => cases h
  | welcome => simp only [Wizard.key] at h; grind
  | diskSelection => simp only [Wizard.key] at h; grind
  | partitionView => simp only [Wizard.key] at h; grind
  | summary => simp only [Wizard.key] at h; grind

theorem Session.Holds.press {s : Session} (h : s.Holds) (ch : UInt8) : (s.press ch).Holds := by
  obtain ⟨wizard, drawn, ending⟩ := s
  cases ending with
  | some e => exact h
  | none =>
      simp only [Session.press]
      cases hkey : wizard.key ch with
      | ignored => exact h
      | redraw w' => exact (key_redraw h.sel_lt h.shown hkey).draw h.sound
      | ended e =>
          refine ⟨h.sel_lt, h.shown, h.sound, ?_⟩
          rintro ⟨⟩
          have hshown := h.shown
          rw [Shown, key_reboot hkey] at hshown
          exact hshown

end Drawn

/-- Whatever keys are pressed: the selection is one of the disks, an installation step is drawn
only behind a confirmed summary and the steps before it, the machine is reset only behind all six
steps, and the screen that says that the installation is complete is never drawn. -/
theorem run_installs {w : Wizard} (hsel : w.selDisk < disks.length) (keys : List UInt8) :
    (Session.run w keys).wizard.selDisk < disks.length ∧
      Screen.complete ∉ (Session.run w keys).drawn ∧
      (∀ before n behind, (Session.run w keys).drawn = before ++ .install n :: behind →
        Installed n before) ∧
      (∀ sizes, Screen.partitions sizes ∈ (Session.run w keys).drawn →
        ∃ d ∈ disks, sizes.sum = d.sizeMb) ∧
      ((Session.run w keys).ending = some .reboot → Installed 6 (Session.run w keys).drawn) := by
  have hstart : (Session.start w).Holds := by
    refine Ready.draw ⟨hsel, nofun, nofun, nofun⟩ ⟨?_, List.not_mem_nil, nofun⟩
    intro before n behind heq
    exact absurd heq.symm (List.append_ne_nil_of_right_ne_nil _ (List.cons_ne_nil _ _))
  have hrun : (Session.run w keys).Holds :=
    List.foldlRecOn (motive := Session.Holds) keys Session.press hstart fun _ hs ch _ => hs.press ch
  exact ⟨hrun.sel_lt, hrun.sound.not_complete, hrun.sound.installed, hrun.sound.partitions,
    hrun.reboot⟩

/-- The second disk is chosen and confirmed, the six steps are gone through, and Enter resets the
machine. -/
theorem run_installs_second :
    let s := Session.run ⟨.welcome, 0, 0⟩ [10, 115, 10, 10, 10, 32, 32, 32, 32, 32, 10]
    s.ending = some .reboot ∧ s.wizard.selDisk = 1 ∧ Installed 6 s.drawn ∧
      Screen.complete ∉ s.drawn ∧
      (∀ before n behind, s.drawn = before ++ .install n :: behind → Installed n before) ∧
      ∀ sizes, Screen.partitions sizes ∈ s.drawn → ∃ d ∈ disks, sizes.sum = d.sizeMb := by
  intro s
  have hreset : s.ending = some .reboot := by decide
  obtain ⟨-, hcomplete, hinstalled, hpartitions, hreboot⟩ :=
    run_installs (w := ⟨.welcome, 0, 0⟩) (by decide) [10, 115, 10, 10, 10, 32, 32, 32, 32, 32, 10]
  exact ⟨hreset, by decide, hreboot hreset, hcomplete, hinstalled, hpartitions⟩

end PureOS.Installer
