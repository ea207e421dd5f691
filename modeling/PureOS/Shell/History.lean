import Mathlib.Data.List.Induction
import PureOS.Barrel.Language
import PureOS.Foundation.Fuel
import PureOS.Foundation.Slice

set_option autoImplicit false

/-!
# Shell: the history of commands (`commands.rs`)

Sixteen slots of 512 bytes are filled in turn.  A command ends at the first zero of its slot, and
one index says which slot is next and how many are listed.
-/

namespace PureOS.Shell

open PureOS.Foundation
open PureOS.Barrel (writeNum)

/-! ## The code -/

/-- `HISTORY` and `HISTORY_INDEX`. -/
structure History where
  slots : Nat → Nat → UInt8
  index : Nat

namespace History

/-- The statics when the kernel starts. -/
def start : History := ⟨fun _ _ => 0, 0⟩

/-- The loop of `add_to_history`, with the turns that are left. -/
def storeLoop (cmd : List UInt8) : Nat → Nat → (Nat → UInt8) → Except Fault (Nat → UInt8)
  | 0, _, slot => .ok slot
  | n + 1, i, slot =>
      match cmd[i]? with
      | none => .error .panic
      | some b => storeLoop cmd n (i + 1) (Function.update slot i b)

/-- `add_to_history`: no more than 511 bytes are kept, and a zero behind them. -/
def addToHistory (h : History) (cmd : List UInt8) (len : Nat) : Except Fault History :=
  if len = 0 then .ok h
  else do
    let idx := h.index % 16
    let slot ← storeLoop cmd (min len 511) 0 (h.slots idx)
    .ok { slots := Function.update h.slots idx (Function.update slot (min len 511) 0)
          index := (h.index + 1) % 16 }

/-- The loop that looks for the terminator. -/
def lengthLoop (slot : Nat → UInt8) : Nat → Nat → Nat
  | 0, len => len
  | n + 1, len => if slot len ≠ 0 then lengthLoop slot n (len + 1) else len

/-- The command in a slot. -/
def command (slot : Nat → UInt8) : List UInt8 := slice slot 0 (lengthLoop slot 512 0)

/-- A turn of `cmd_history`: the number and the command that are listed. -/
def listed (h : History) (i : Nat) : Except Fault (Nat × List UInt8) :=
  if i < 16 then .ok (i, command (h.slots i)) else .error .panic

/-- The entries that `cmd_history` lists. -/
def entries (h : History) : Except Fault (List (Nat × List UInt8)) :=
  (List.range h.index).mapM h.listed

/-- A line of the list. -/
def line (e : Nat × List UInt8) : List UInt8 :=
  ascii "  " ++ writeNum (BitVec.ofNat 64 e.1) ++ ascii "  " ++ e.2 ++ ascii "\n"

/-- `cmd_history`: what it prints. -/
def cmdHistory (h : History) : Except Fault (List UInt8) := do
  let es ← h.entries
  .ok (ascii "Command history:\n" ++ es.flatMap line)

end History

/-! ## Commands -/

/-- A command line that is added: it has at least one byte and at most 511, none of them zero. -/
structure CommandLine where
  bytes : List UInt8
  nonempty : bytes ≠ []
  fits : bytes.length ≤ 511
  noNul : 0 ∉ bytes

namespace History

/-- Commands are added one after the other. -/
def addAll (h : History) (cmds : List CommandLine) : Except Fault History :=
  cmds.foldlM (fun h c => h.addToHistory c.bytes c.bytes.length) h

/-- The commands of the current round of the slots. -/
def round (cmds : List CommandLine) : List CommandLine := cmds.drop (cmds.length - cmds.length % 16)

/-- Once the commands have been added, those that are printed are these, in this order. -/
def Lists (cmds shown : List CommandLine) : Prop :=
  ∃ h es, start.addAll cmds = .ok h ∧ h.entries = .ok es ∧
    h.cmdHistory = .ok (ascii "Command history:\n" ++ es.flatMap line) ∧
    es.map Prod.snd = shown.map CommandLine.bytes

/-! ## A slot -/

/-- The slot holds the command, whatever is behind its terminator. -/
def SlotHolds (slot : Nat → UInt8) (c : CommandLine) : Prop :=
  (∀ i b, c.bytes[i]? = some b → slot i = b) ∧ slot c.bytes.length = 0

theorem storeLoop_eq {cmd : List UInt8} (n i : Nat) (slot : Nat → UInt8) (h : i + n ≤ cmd.length) :
    ∃ slot', storeLoop cmd n i slot = .ok slot' ∧
      (∀ j, j < i → slot' j = slot j) ∧
      ∀ j b, i ≤ j → j < i + n → cmd[j]? = some b → slot' j = b := by
  induction n generalizing i slot with
  | zero => exact ⟨slot, rfl, fun _ _ => rfl, fun j b hlo hhi => by omega⟩
  | succ n ih =>
      have hget : cmd[i]? = some cmd[i] := List.getElem?_eq_getElem (by omega)
      obtain ⟨slot', hloop, hbefore, hat⟩ := ih (i + 1) (Function.update slot i cmd[i]) (by omega)
      refine ⟨slot', ?_, ?_, ?_⟩
      · rw [storeLoop, hget]
        exact hloop
      · intro j hj
        rw [hbefore j (by omega), Function.update_of_ne (by omega)]
      · intro j b hlo hhi hb
        by_cases hj : j = i
        · subst hj
          rw [hget] at hb
          rw [hbefore j (by omega), Function.update_self]
          exact Option.some.inj hb
        · exact hat j b (by omega) (by omega) hb

/-- The scan stops at the terminator of the command. -/
theorem lengthLoop_eq {slot : Nat → UInt8} {c : CommandLine} (h : SlotHolds slot c) (n len : Nat)
    (hlen : len ≤ c.bytes.length) (hn : c.bytes.length < len + n) :
    lengthLoop slot n len = c.bytes.length := by
  induction n generalizing len with
  | zero => omega
  | succ n ih =>
      rw [lengthLoop]
      by_cases hend : len = c.bytes.length
      · rw [hend, if_neg (not_not_intro h.2)]
      · have hget : c.bytes[len]? = some c.bytes[len] := List.getElem?_eq_getElem (by omega)
        have hne : slot len ≠ 0 := by
          rw [h.1 len _ hget]
          intro hzero
          exact c.noNul (hzero ▸ List.getElem_mem _)
        rw [if_pos hne]
        exact ih (len + 1) (by omega) (by omega)

theorem command_eq {slot : Nat → UInt8} {c : CommandLine} (h : SlotHolds slot c) :
    command slot = c.bytes := by
  have hfits := c.fits
  rw [command, lengthLoop_eq h 512 0 (Nat.zero_le _) (by omega)]
  apply List.ext_getElem
  · rw [length_slice]
  · intro i hi hi'
    rw [getElem_slice, Nat.zero_add]
    exact h.1 i _ (List.getElem?_eq_getElem hi')

/-! ## The slots of a round -/

/-- The index counts the commands of the round, and their slots hold them. -/
structure Keeps (h : History) (cmds : List CommandLine) : Prop where
  index : h.index = cmds.length % 16
  slots : ∀ i c, (round cmds)[i]? = some c → SlotHolds (h.slots i) c

theorem length_round (cmds : List CommandLine) : (round cmds).length = cmds.length % 16 := by
  rw [round, List.length_drop]
  have hle := Nat.mod_le cmds.length 16
  omega

theorem round_concat (cmds : List CommandLine) (c : CommandLine) :
    round (cmds ++ [c]) = if cmds.length % 16 = 15 then [] else round cmds ++ [c] := by
  have hlen : (cmds ++ [c]).length = cmds.length + 1 := by
    rw [List.length_append]
    rfl
  have hle := Nat.mod_le cmds.length 16
  unfold round
  rw [hlen]
  split
  · rw [List.drop_eq_nil_of_le]
    rw [hlen]
    omega
  · rw [show cmds.length + 1 - (cmds.length + 1) % 16 = cmds.length - cmds.length % 16 by omega,
      List.drop_append_of_le_length (by omega)]

/-- A command is stored in the next slot, and those of its round stay. -/
theorem Keeps.add {h : History} {cmds : List CommandLine} (hk : h.Keeps cmds) (c : CommandLine) :
    ∃ h', h.addToHistory c.bytes c.bytes.length = .ok h' ∧ h'.Keeps (cmds ++ [c]) := by
  have hpos := List.length_pos_iff.mpr c.nonempty
  have hmin : min c.bytes.length 511 = c.bytes.length := Nat.min_eq_left c.fits
  obtain ⟨slot, hstore, -, hat⟩ := storeLoop_eq c.bytes.length 0 (h.slots (h.index % 16))
    (Nat.le_of_eq (Nat.zero_add c.bytes.length))
  refine ⟨⟨Function.update h.slots (h.index % 16) (Function.update slot c.bytes.length 0),
    (h.index + 1) % 16⟩, ?_, ?_, ?_⟩
  · simp only [addToHistory, if_neg (Nat.ne_of_gt hpos), hmin, hstore]
    rfl
  · rw [hk.index, List.length_append, Nat.mod_add_mod]
    rfl
  · intro i d hget
    rw [round_concat] at hget
    split at hget
    · exact absurd hget (by simp)
    · have hidx : h.index % 16 = (round cmds).length := by
        rw [hk.index, length_round, Nat.mod_mod]
      by_cases hi : i = (round cmds).length
      · rw [hi, List.getElem?_concat_length] at hget
        simp only [hidx, hi, Function.update_self]
        obtain rfl := Option.some.inj hget
        refine ⟨fun j b hb => ?_, Function.update_self ..⟩
        obtain ⟨hj, -⟩ := List.getElem?_eq_some_iff.mp hb
        rw [Function.update_of_ne (by omega)]
        exact hat j b (Nat.zero_le j) (by omega) hb
      · have hlt : i < (round cmds).length := by
          obtain ⟨hlt, -⟩ := List.getElem?_eq_some_iff.mp hget
          rw [List.length_append, List.length_singleton] at hlt
          omega
        rw [List.getElem?_append_left hlt] at hget
        simp only [hidx, Function.update_of_ne hi]
        exact hk.slots i d hget

theorem keeps_start : start.Keeps [] := ⟨rfl, fun i c hget => by simp [round] at hget⟩

/-- However many commands are added, the slots of the round hold its commands. -/
theorem exists_addAll (cmds : List CommandLine) :
    ∃ h, start.addAll cmds = .ok h ∧ h.Keeps cmds := by
  induction cmds using List.reverseRecOn with
  | nil => exact ⟨start, rfl, keeps_start⟩
  | append_singleton cmds c ih =>
      obtain ⟨h, hrun, hk⟩ := ih
      obtain ⟨h', hadd, hk'⟩ := hk.add c
      refine ⟨h', ?_, hk'⟩
      rw [addAll] at hrun ⊢
      rw [List.foldlM_append, hrun]
      exact (bind_pure _).trans hadd

/-! ## What is listed -/

theorem entries_eq {h : History} (hindex : h.index ≤ 16) :
    h.entries = .ok ((List.range h.index).map fun i => (i, command (h.slots i))) := by
  have hall : ∀ l : List Nat, (∀ i ∈ l, i < 16) →
      l.mapM h.listed = .ok (l.map fun i => (i, command (h.slots i))) := by
    intro l hl
    induction l with
    | nil => rfl
    | cons i l ih =>
        have hlisted : h.listed i = .ok (i, command (h.slots i)) :=
          if_pos (hl i List.mem_cons_self)
        rw [List.mapM_cons, hlisted, ih fun j hj => hl j (List.mem_cons_of_mem i hj)]
        rfl
  exact hall _ fun i hi => Nat.lt_of_lt_of_le (List.mem_range.mp hi) hindex

/-- The commands of the current round are printed, and no others. -/
theorem lists_round (cmds : List CommandLine) : Lists cmds (round cmds) := by
  obtain ⟨h, hrun, hk⟩ := exists_addAll cmds
  have hlen : h.index = (round cmds).length := hk.index.trans (length_round cmds).symm
  have hindex : h.index ≤ 16 := by
    rw [hk.index]
    omega
  refine ⟨h, _, hrun, entries_eq hindex, ?_, ?_⟩
  · rw [cmdHistory, entries_eq hindex]
    rfl
  apply List.ext_getElem
  · simp only [List.length_map, List.length_range, hlen]
  · intro i hi hi'
    rw [List.length_map] at hi'
    simp only [List.getElem_map, List.getElem_range]
    exact command_eq (hk.slots i _ (List.getElem?_eq_getElem hi'))

theorem Lists.length_eq {cmds shown other : List CommandLine} (h : Lists cmds shown)
    (h' : Lists cmds other) : shown.length = other.length := by
  obtain ⟨s, es, hrun, hentries, -, hes⟩ := h
  obtain ⟨s', es', hrun', hentries', -, hes'⟩ := h'
  obtain rfl := Except.ok.inj (hrun.symm.trans hrun')
  obtain rfl := Except.ok.inj (hentries.symm.trans hentries')
  simpa using congrArg List.length (hes.symm.trans hes')

/-- The last sixteen commands are printed as long as fewer than that have been added. -/
theorem lists_last_iff (cmds : List CommandLine) :
    Lists cmds (cmds.drop (cmds.length - 16)) ↔ cmds.length < 16 := by
  constructor
  · intro h
    have hlen := h.length_eq (lists_round cmds)
    rw [length_round, List.length_drop] at hlen
    omega
  · intro hlt
    have h := lists_round cmds
    rw [round, show cmds.length - cmds.length % 16 = cmds.length - 16 by omega] at h
    exact h

/-- The command of one letter. -/
def letter : CommandLine := ⟨[97], by decide, by decide, by decide⟩

/-- After sixteen commands none is printed. -/
theorem not_lists_last : ¬∀ cmds : List CommandLine, Lists cmds (cmds.drop (cmds.length - 16)) := by
  intro hall
  have hlen := (hall (List.replicate 16 letter)).length_eq (lists_round (List.replicate 16 letter))
  exact absurd hlen (by decide)

end History

end PureOS.Shell
