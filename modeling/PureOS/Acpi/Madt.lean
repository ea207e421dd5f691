import PureOS.Foundation.Bytes

set_option autoImplicit false

/-!
# ACPI: the table of the local APICs (`acpi.rs`)

`parse_madt` walks the entries of a table that the firmware has built: each has a type and a
length, and those of enabled APICs have an identifier, at a place that depends on the type.
-/

namespace PureOS.Acpi

open PureOS.Foundation

/-! ## The code -/

/-- The memory that `apic_ids` is a part of, `count`, and the bytes of the table that were read. -/
structure Walk where
  mem : Nat → UInt32
  count : Nat
  reads : List Nat

namespace Walk

/-- `rd8` and `rd32`: bytes of the table are read. -/
def read (w : Walk) (offset n : Nat) : Walk := { w with reads := w.reads ++ List.range' offset n }

/-- `if count < apic_ids.len() { apic_ids[count] = apic_id; count += 1; }`. -/
def store (start len : Nat) (w : Walk) (apicId : UInt32) : Walk :=
  if w.count < len then
    { w with mem := Function.update w.mem (start + w.count) apicId, count := w.count + 1 }
  else w

end Walk

section

variable (table : Nat → UInt8) (start len length : Nat)

/-- The arm of `MADT_TYPE_LOCAL_APIC`. -/
def localApic (offset : Nat) (w : Walk) : Walk :=
  let w := w.read (offset + 4) 4
  if (readLE table (offset + 4) 4).testBit 0 then
    (w.read (offset + 3) 1).store start len (table (offset + 3)).toUInt32
  else w

/-- The arm of `MADT_TYPE_LOCAL_X2APIC`. -/
def localX2apic (offset : Nat) (w : Walk) : Walk :=
  let w := w.read (offset + 8) 4
  if (readLE table (offset + 8) 4).testBit 0 then
    (w.read (offset + 4) 4).store start len (UInt32.ofNat (readLE table (offset + 4) 4))
  else w

/-- What a turn of the loop does with an entry. -/
def entry (offset : Nat) (w : Walk) : Walk :=
  if table offset = 0 ∧ (table (offset + 1)).toNat ≥ 8 ∧ offset + 8 ≤ length then
    localApic table start len offset w
  else if table offset = 5 ∧ (table (offset + 1)).toNat ≥ 16 ∧ offset + 16 ≤ length then
    localX2apic table start len offset w
  else w

/-- The loop of `parse_madt`. -/
def walk (offset : Nat) (w : Walk) : Walk :=
  if _h : offset + 1 < length then
    let w := (w.read offset 1).read (offset + 1) 1
    if (table (offset + 1)).toNat < 2 then w
    else walk (offset + (table (offset + 1)).toNat) (entry table start len length offset w)
  else w
  termination_by length - offset
  decreasing_by omega

/-- `parse_madt`, on a table and on the part of a memory that starts at `start`. -/
def parseMadt (madt : UInt64) (mem : Nat → UInt32) : Walk :=
  if madt = 0 ∨ len = 0 then ⟨mem, 0, []⟩
  else
    let w := Walk.read ⟨mem, 0, []⟩ 4 4
    let length := readLE table 4 4
    if length < 44 then w else walk table start len length 44 w

end

/-! ## The entries of a table -/

/-- The identifier of an enabled APIC, when what is left of the table begins with its entry: the
entry says that it is long enough, and is all there as far as it is looked at. -/
def enabledId (s : List UInt8) : Option UInt32 :=
  if s.getD 0 0 = 0 ∧ 8 ≤ (s.getD 1 0).toNat ∧ 8 ≤ s.length then
    if (fromLE ((s.drop 4).take 4)).testBit 0 then some (s.getD 3 0).toUInt32 else none
  else if s.getD 0 0 = 5 ∧ 16 ≤ (s.getD 1 0).toNat ∧ 16 ≤ s.length then
    if (fromLE ((s.drop 8).take 4)).testBit 0 then
      some (UInt32.ofNat (fromLE ((s.drop 4).take 4)))
    else none
  else none

/-- The identifiers of the enabled APICs, in the order of their entries.  An entry that says that it
is shorter than its own header ends the table. -/
def enabledIds (s : List UInt8) : List UInt32 :=
  if _h : 2 ≤ s.length ∧ 2 ≤ (s.getD 1 0).toNat then
    (enabledId s).toList ++ enabledIds (s.drop (s.getD 1 0).toNat)
  else []
  termination_by s.length
  decreasing_by
    rw [List.length_drop]
    omega

/-- The bytes of a table that says how long it is. -/
def tableBytes (table : Nat → UInt8) : List UInt8 := slice table 0 (readLE table 4 4)

/-! ## The walk -/

section

variable {table : Nat → UInt8} {start len length : Nat} {mem : Nat → UInt32} {w : Walk}
  {ids : List UInt32}

/-- So far these identifiers have been found: as many as the output has room for are in it, nothing
else was written, and nothing behind the table was read. -/
structure Found (start len length : Nat) (mem : Nat → UInt32) (ids : List UInt32) (w : Walk) :
    Prop where
  count : w.count = min len ids.length
  cells : slice w.mem start w.count = ids.take len
  outside : ∀ a, a < start ∨ start + len ≤ a → w.mem a = mem a
  reads : ∀ k ∈ w.reads, k < length ∨ 4 ≤ k ∧ k < 8

namespace Found

theorem read (h : Found start len length mem ids w) {offset n : Nat} (hn : offset + n ≤ length) :
    Found start len length mem ids (w.read offset n) where
  count := h.count
  cells := h.cells
  outside := h.outside
  reads k hk := by
    rcases List.mem_append.mp hk with hk | hk
    · exact h.reads k hk
    · obtain ⟨-, hlt⟩ := List.mem_range'_1.mp hk
      exact Or.inl (by omega)

theorem store (h : Found start len length mem ids w) (apicId : UInt32) :
    Found start len length mem (ids ++ [apicId]) (w.store start len apicId) := by
  have hcount := h.count
  have hlen : (ids ++ [apicId]).length = ids.length + 1 := by
    rw [List.length_append]
    rfl
  by_cases hroom : w.count < len
  · have hstore : w.store start len apicId =
        { w with mem := Function.update w.mem (start + w.count) apicId, count := w.count + 1 } :=
      if_pos hroom
    rw [hstore]
    refine ⟨?_, ?_, fun a ha => ?_, h.reads⟩
    · rw [hlen]
      dsimp only
      omega
    · have hsame : slice (Function.update w.mem (start + w.count) apicId) start w.count =
          slice w.mem start w.count :=
        slice_congr fun a _ hlt => Function.update_of_ne (by omega) _ _
      dsimp only
      rw [slice_succ, hsame, h.cells, Function.update_self, List.take_of_length_le (by omega),
        List.take_of_length_le (by omega)]
    · dsimp only
      rw [Function.update_of_ne (by omega)]
      exact h.outside a ha
  · have hstore : w.store start len apicId = w := if_neg hroom
    rw [hstore]
    refine ⟨?_, ?_, h.outside, h.reads⟩
    · rw [hlen]
      omega
    · rw [h.cells, List.take_append_of_le_length (by omega)]

theorem localApic (h : Found start len length mem ids w) {offset : Nat}
    (hin : offset + 8 ≤ length) :
    Found start len length mem
      (ids ++ (if (readLE table (offset + 4) 4).testBit 0 then
        some (table (offset + 3)).toUInt32 else none).toList)
      (localApic table start len offset w) := by
  have hflags := @Found.read _ _ _ _ _ _ h (offset + 4) 4 (by omega)
  unfold Acpi.localApic
  dsimp only
  split
  · exact (hflags.read (by omega)).store _
  · rw [Option.toList_none, List.append_nil]
    exact hflags

theorem localX2apic (h : Found start len length mem ids w) {offset : Nat}
    (hin : offset + 16 ≤ length) :
    Found start len length mem
      (ids ++ (if (readLE table (offset + 8) 4).testBit 0 then
        some (UInt32.ofNat (readLE table (offset + 4) 4)) else none).toList)
      (localX2apic table start len offset w) := by
  have hflags := @Found.read _ _ _ _ _ _ h (offset + 8) 4 (by omega)
  unfold Acpi.localX2apic
  dsimp only
  split
  · exact (hflags.read (by omega)).store _
  · rw [Option.toList_none, List.append_nil]
    exact hflags

end Found

/-- The byte at a place of what is left of the table. -/
theorem getD_slice {offset k : Nat} (h : offset + k < length) :
    (slice table offset (length - offset)).getD k 0 = table (offset + k) := by
  have hk : k < (slice table offset (length - offset)).length := by
    rw [length_slice]
    omega
  rw [List.getD_eq_getElem?_getD, List.getElem?_eq_getElem hk, getElem_slice]
  rfl

/-- Four bytes of what is left of the table, as a number. -/
theorem fromLE_slice {offset k : Nat} (h : offset + k + 4 ≤ length) :
    fromLE (((slice table offset (length - offset)).drop k).take 4) =
      readLE table (offset + k) 4 := by
  rw [drop_slice, take_slice _ (by omega)]
  rfl

/-- A turn finds the identifier of its entry. -/
theorem Found.entry (h : Found start len length mem ids w) {offset : Nat}
    (hin : offset + 1 < length) :
    Found start len length mem
      (ids ++ (enabledId (slice table offset (length - offset))).toList)
      (entry table start len length offset w) := by
  have hlocal : 8 ≤ length - offset ↔ offset + 8 ≤ length := by omega
  have hx2 : 16 ≤ length - offset ↔ offset + 16 ≤ length := by omega
  unfold Acpi.entry enabledId
  rw [getD_slice hin, getD_slice (show offset + 0 < length by omega), length_slice, Nat.add_zero]
  simp only [hlocal, hx2, ge_iff_le]
  by_cases hapic : table offset = 0 ∧ 8 ≤ (table (offset + 1)).toNat ∧ offset + 8 ≤ length
  · rw [if_pos hapic, if_pos hapic, fromLE_slice (by omega), getD_slice (by omega)]
    exact h.localApic hapic.2.2
  · rw [if_neg hapic, if_neg hapic]
    split
    · rename_i hx2apic
      rw [fromLE_slice (by omega), fromLE_slice (by omega)]
      exact h.localX2apic hx2apic.2.2
    · rw [Option.toList_none, List.append_nil]
      exact h

/-- The walk finds the identifiers of all entries that are left. -/
theorem Found.walk (h : Found start len length mem ids w) (offset : Nat) :
    Found start len length mem (ids ++ enabledIds (slice table offset (length - offset)))
      (walk table start len length offset w) := by
  induction hleft : length - offset using Nat.strong_induction_on generalizing offset w ids with
  | _ left ih =>
      subst hleft
      rw [Acpi.walk, enabledIds, length_slice]
      by_cases hin : offset + 1 < length
      · rw [dif_pos hin, getD_slice hin]
        have hread := @Found.read _ _ _ _ _ _
          (@Found.read _ _ _ _ _ _ h offset 1 (by omega)) (offset + 1) 1 hin
        dsimp only
        by_cases hend : (table (offset + 1)).toNat < 2
        · rw [if_pos hend, dif_neg (by omega), List.append_nil]
          exact hread
        · rw [if_neg hend, dif_pos (by omega), drop_slice, ← List.append_assoc,
            show length - offset - (table (offset + 1)).toNat =
              length - (offset + (table (offset + 1)).toNat) by omega]
          exact ih _ (by omega) (hread.entry hin) _ rfl
      · rw [dif_neg hin, dif_neg (by omega), List.append_nil]
        exact h

end

/-- The walk ends, reads no byte behind the table but those of its length, writes no more
identifiers than the output has room for, and those are the first ones of the table, in order. -/
theorem parseMadt_found (table : Nat → UInt8) (start len : Nat) {madt : UInt64} (h : madt ≠ 0)
    (mem : Nat → UInt32) :
    Found start len (readLE table 4 4) mem (enabledIds ((tableBytes table).drop 44))
      (parseMadt table start len madt mem) := by
  unfold parseMadt
  by_cases hlen : len = 0
  · rw [if_pos (Or.inr hlen)]
    subst hlen
    exact ⟨(Nat.zero_min _).symm, List.take_zero.symm, fun _ _ => rfl, fun k hk => by simp at hk⟩
  · have hstart : Found start len (readLE table 4 4) mem [] (Walk.read ⟨mem, 0, []⟩ 4 4) := by
      refine ⟨(Nat.min_zero _).symm, List.take_nil.symm, fun _ _ => rfl, fun k hk => Or.inr ?_⟩
      rw [Walk.read, List.nil_append] at hk
      exact List.mem_range'_1.mp hk
    rw [if_neg (not_or.mpr ⟨h, hlen⟩), tableBytes, drop_slice, Nat.zero_add]
    dsimp only
    split
    · rename_i hshort
      rw [show readLE table 4 4 - 44 = 0 by omega, slice_zero, enabledIds, dif_neg (by simp)]
      exact hstart
    · exact hstart.walk 44

/-- A table with an entry of a local APIC, one that is not enabled and one of an x2APIC. -/
def threeEntries (k : Nat) : UInt8 :=
  (ascii "APIC" ++ toLE 4 76 ++ List.replicate 36 0 ++ [0, 8, 0, 7, 1, 0, 0, 0] ++
    [0, 8, 1, 9, 0, 0, 0, 0] ++ [5, 16, 0, 0, 44, 1, 0, 0, 1, 0, 0, 0, 2, 0, 0, 0]).getD k 0

theorem parseMadt_found_threeEntries :
    Found 0 16 76 (fun _ => 0) [7, 300] (parseMadt threeEntries 0 16 4096 fun _ => 0) := by
  have hlen : readLE threeEntries 4 4 = 76 := by decide
  have hids : enabledIds ((tableBytes threeEntries).drop 44) = [7, 300] := by
    decide +kernel
  have h := @parseMadt_found threeEntries 0 16 4096 (by decide) fun _ => 0
  rw [hlen, hids] at h
  exact h

/-- The length of a table that says that it has no bytes is read too. -/
theorem not_reads_inside :
    ¬∀ (table : Nat → UInt8) (start len : Nat) (madt : UInt64) (mem : Nat → UInt32), madt ≠ 0 →
      ∀ k ∈ (parseMadt table start len madt mem).reads, k < readLE table 4 4 := by
  intro hall
  have h := hall (fun _ => 0) 0 1 4096 (fun _ => 0) (by decide) 4 (by decide +kernel)
  exact absurd h (by decide)

end PureOS.Acpi
