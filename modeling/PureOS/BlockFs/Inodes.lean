import PureOS.Foundation.Fields
import PureOS.Foundation.Fuel

set_option autoImplicit false

/-!
# Block file system: the table of inodes (`blockfs.rs`)

An inode is a structure that is copied into a sector and out of it at the place of its number.  How
long it is the compiler decides, and the table was laid out by hand.
-/

namespace PureOS.BlockFs

open PureOS.Foundation

/-! ## The layout of a structure -/

/-- The next multiple of the alignment. -/
def alignUp (n align : Nat) : Nat := (n + align - 1) / align * align

/-- Under `repr(C)` the fields come in their order, each at the next place that its alignment allows:
where they begin and where the last one ends.  A field is its size and its alignment. -/
def layout : Nat → List (Nat × Nat) → List Nat × Nat
  | place, [] => ([], place)
  | place, (size, align) :: fields =>
      let off := alignUp place align
      let (offs, last) := layout (off + size) fields
      (off :: offs, last)

/-- `size_of`: a multiple of the largest alignment. -/
def structSize (fields : List (Nat × Nat)) : Nat :=
  alignUp (layout 0 fields).2 ((fields.map Prod.snd).foldl max 1)

/-! ## The code -/

/-- `Inode`. -/
structure Inode where
  kind : UInt8
  nameLen : UInt8
  name : Vector UInt8 28
  dataBlock : UInt32
  dataSize : UInt32
  pad : Vector UInt8 2

/-- The fields of `Inode`. -/
def inodeFields : List (Nat × Nat) := [(1, 1), (1, 1), (28, 1), (4, 4), (4, 4), (2, 1)]

/-- `size_of::<Inode>()`. -/
def inodeSize : Nat := structSize inodeFields

theorem inodeSize_eq : inodeSize = 44 := by decide

/-- The bytes of the structure that belong to no field: what they are when it is copied is left
open. -/
structure Gaps where
  inner : Vector UInt8 2
  outer : Vector UInt8 2

/-- The parts of an inode, with the gaps between them. -/
def Inode.parts (inode : Inode) (gaps : Gaps) : List (List UInt8) :=
  [[inode.kind], [inode.nameLen], inode.name.toList, gaps.inner.toList, toLE 4 inode.dataBlock.toNat,
    toLE 4 inode.dataSize.toNat, inode.pad.toList, gaps.outer.toList]

/-- The structure as it is in memory. -/
def Inode.encode (inode : Inode) (gaps : Gaps) : List UInt8 := (inode.parts gaps).flatten

/-- A field of the structure in memory. -/
def field (bytes : List UInt8) (off n : Nat) : List UInt8 := (bytes.drop off).take n

/-- The structure that these bytes are. -/
def Inode.decode (bytes : List UInt8) : Inode where
  kind := bytes.getD 0 0
  nameLen := bytes.getD 1 0
  name := .ofFn fun i => (field bytes 2 28).getD i 0
  dataBlock := UInt32.ofNat (fromLE (field bytes 32 4))
  dataSize := UInt32.ofNat (fromLE (field bytes 36 4))
  pad := .ofFn fun i => (field bytes 40 2).getD i 0

/-- The bytes of a sector, and the sectors of a disk that reads what was written. -/
abbrev Sector := Nat → UInt8
abbrev Disk := Nat → Sector

/-- `inode_sector`. -/
def inodeSector (num : Nat) : Nat := 3 + num * inodeSize / 512

/-- `inode_off`. -/
def inodeOff (num : Nat) : Nat := num * inodeSize % 512

/-- `read_inode`.  The pointer is into a buffer of 512 bytes, and reading behind it is a fault. -/
def readInode (d : Disk) (num : Nat) : Except Fault (Option Inode) :=
  if num ≥ 64 then .ok none
  else if inodeOff num + inodeSize ≤ 512 then
    let inode := Inode.decode (slice (d (inodeSector num)) (inodeOff num) inodeSize)
    .ok (if inode.kind = 0 then none else some inode)
  else .error .panic

/-- `write_inode`: a sector is read, changed in a buffer of 512 bytes and written back, and writing
behind the buffer is a fault. -/
def writeInode (gaps : Gaps) (d : Disk) (num : Nat) (inode : Inode) : Except Fault (Bool × Disk) :=
  if num ≥ 64 then .ok (false, d)
  else if inodeOff num + inodeSize ≤ 512 then
    let buf := blit (d (inodeSector num)) (inodeOff num) (inode.encode gaps)
    .ok (true, Function.update d (inodeSector num) buf)
  else .error .panic

/-! ## What a write should do -/

/-- The inode is read back, every other number gives what it gave before, no sector but those of the
table changes, and no access leaves its buffer. -/
def Stores (gaps : Gaps) (d : Disk) (num : Nat) (inode : Inode) : Prop :=
  ∃ d', writeInode gaps d num inode = .ok (true, d') ∧
    readInode d' num = .ok (some inode) ∧
    (∀ other, other ≠ num → readInode d' other = readInode d other) ∧
    ∀ s, s < 3 ∨ 7 ≤ s → d' s = d s

/-- The inode of a number lies in one sector. -/
def Fits (num : Nat) : Prop := inodeOff num + inodeSize ≤ 512

/-! ## An inode comes back from its bytes -/

section

variable (inode : Inode) (gaps : Gaps)

@[simp] theorem length_encode : (inode.encode gaps).length = inodeSize := by
  simp [Inode.encode, Inode.parts, inodeSize_eq]

/-- A part is read at its place. -/
theorem field_encode {i off n : Nat} {part : List UInt8} (hpart : (inode.parts gaps)[i]? = some part)
    (hoff : ((inode.parts gaps).take i).flatten.length = off) (hn : part.length = n) :
    field (inode.encode gaps) off n = part := by
  rw [field, Inode.encode, ← hn]
  exact drop_take_flatten hpart hoff

/-- A vector is its elements. -/
theorem ofFn_getD {n : Nat} (v : Vector UInt8 n) :
    (Vector.ofFn fun i : Fin n => v.toList.getD i 0) = v := by
  apply Vector.ext
  intro i hi
  simp

theorem ofNat_fromLE (v : UInt32) : UInt32.ofNat (fromLE (toLE 4 v.toNat)) = v := by
  have hlt : v.toNat < 256 ^ 4 := v.toNat_lt
  rw [fromLE_toLE, Nat.mod_eq_of_lt hlt, UInt32.ofNat_toNat]

theorem decode_encode : Inode.decode (inode.encode gaps) = inode := by
  have hname : field (inode.encode gaps) 2 28 = inode.name.toList :=
    @field_encode inode gaps 2 2 28 _ rfl rfl (by simp)
  have hblock : field (inode.encode gaps) 32 4 = toLE 4 inode.dataBlock.toNat :=
    @field_encode inode gaps 4 32 4 _ rfl (by simp [Inode.parts]) (by simp)
  have hsize : field (inode.encode gaps) 36 4 = toLE 4 inode.dataSize.toNat :=
    @field_encode inode gaps 5 36 4 _ rfl (by simp [Inode.parts]) (by simp)
  have hpad : field (inode.encode gaps) 40 2 = inode.pad.toList :=
    @field_encode inode gaps 6 40 2 _ rfl (by simp [Inode.parts]) (by simp)
  rw [Inode.decode, hname, hblock, hsize, hpad, ofFn_getD, ofFn_getD, ofNat_fromLE, ofNat_fromLE]
  rfl

end

/-! ## Which inodes are stored -/

section

variable {gaps : Gaps} {d : Disk} {num : Nat} {inode : Inode}

/-- The place of an inode, over all sectors. -/
theorem place_eq (num : Nat) : (inodeSector num - 3) * 512 + inodeOff num = num * 44 := by
  rw [inodeSector, inodeOff, inodeSize_eq]
  omega

theorem readInode_eq (hnum : num < 64) (hfits : Fits num) :
    readInode d num =
      .ok (if (Inode.decode (slice (d (inodeSector num)) (inodeOff num) inodeSize)).kind = 0 then none
        else some (Inode.decode (slice (d (inodeSector num)) (inodeOff num) inodeSize))) := by
  rw [readInode, if_neg (by omega)]
  exact if_pos hfits

theorem writeInode_eq (hnum : num < 64) (hfits : Fits num) :
    writeInode gaps d num inode =
      .ok (true, Function.update d (inodeSector num)
        (blit (d (inodeSector num)) (inodeOff num) (inode.encode gaps))) := by
  rw [writeInode, if_neg (by omega)]
  exact if_pos hfits

theorem writeInode_of_not_fits (hnum : num < 64) (hfits : ¬Fits num) :
    writeInode gaps d num inode = .error .panic := by
  rw [writeInode, if_neg (by omega)]
  exact if_neg hfits

/-- An inode that was written is read back. -/
theorem readInode_same (hnum : num < 64) (hfits : Fits num) (hkind : inode.kind ≠ 0) :
    readInode (Function.update d (inodeSector num)
      (blit (d (inodeSector num)) (inodeOff num) (inode.encode gaps))) num = .ok (some inode) := by
  have hslice := slice_blit_same (d (inodeSector num)) (inodeOff num) (inode.encode gaps)
  rw [length_encode] at hslice
  rw [readInode_eq hnum hfits, Function.update_self, hslice, decode_encode, if_neg hkind]

/-- Another inode is read as before: its place is another one. -/
theorem readInode_other {other : Nat} (hne : other ≠ num) (xs : List UInt8)
    (hlen : xs.length = inodeSize) :
    readInode (Function.update d (inodeSector num)
      (blit (d (inodeSector num)) (inodeOff num) xs)) other = readInode d other := by
  unfold readInode
  split
  · rfl
  · split
    · rename_i hin
      by_cases hsame : inodeSector other = inodeSector num
      · have hplace := place_eq num
        have hother := place_eq other
        have hapart : inodeOff other + inodeSize ≤ inodeOff num ∨
            inodeOff num + inodeSize ≤ inodeOff other := by
          rw [hsame] at hother
          rw [inodeSize_eq]
          omega
        rw [hsame, Function.update_self, slice_blit_disjoint _ _ _ _ _ (by rwa [hlen])]
      · rw [Function.update_of_ne hsame]
    · rfl

/-- A store of the bytes that are there changes nothing. -/
theorem blit_slice (m : Nat → UInt8) (off n : Nat) : blit m off (slice m off n) = m := by
  funext a
  by_cases hin : off ≤ a ∧ a < off + n
  · obtain ⟨i, rfl⟩ := Nat.exists_eq_add_of_le hin.1
    rw [blit_of_inside m off _ i (by rw [length_slice]; omega), getElem_slice]
  · exact blit_of_outside m off _ a (by rw [length_slice]; omega)

/-- Which sectors outside the table change. -/
theorem outside_iff :
    (∀ s, s < 3 ∨ 7 ≤ s → Function.update d (inodeSector num)
      (blit (d (inodeSector num)) (inodeOff num) (inode.encode gaps)) s = d s) ↔
      inodeSector num < 7 ∨
        slice (d (inodeSector num)) (inodeOff num) inodeSize = inode.encode gaps := by
  constructor
  · intro h
    by_cases hin : inodeSector num < 7
    · exact Or.inl hin
    · have hsame := h (inodeSector num) (Or.inr (by omega))
      rw [Function.update_self] at hsame
      have hslice := slice_blit_same (d (inodeSector num)) (inodeOff num) (inode.encode gaps)
      rw [hsame, length_encode] at hslice
      exact Or.inr hslice
  · intro h s hs
    by_cases hat : s = inodeSector num
    · rcases h with hin | hheld
      · have hlow : 3 ≤ inodeSector num := Nat.le_add_right 3 _
        omega
      · rw [hat, Function.update_self, ← hheld, blit_slice]
    · exact Function.update_of_ne hat _ _

/-- The inode of a number is stored exactly if its place does not go over the end of a sector, and is
in the table or holds the inode already. -/
theorem stores_iff (gaps : Gaps) (d : Disk) (hnum : num < 64) (hkind : inode.kind ≠ 0) :
    Stores gaps d num inode ↔ Fits num ∧ (inodeSector num < 7 ∨
      slice (d (inodeSector num)) (inodeOff num) inodeSize = inode.encode gaps) := by
  constructor
  · rintro ⟨d', hwrite, -, -, houtside⟩
    by_cases hfits : Fits num
    · rw [writeInode_eq hnum hfits] at hwrite
      obtain ⟨-, rfl⟩ := Prod.mk.inj (Except.ok.inj hwrite)
      exact ⟨hfits, outside_iff.mp houtside⟩
    · rw [writeInode_of_not_fits hnum hfits] at hwrite
      cases hwrite
  · rintro ⟨hfits, hin⟩
    exact ⟨_, writeInode_eq hnum hfits, readInode_same hnum hfits hkind,
      fun other hne => readInode_other hne _ (length_encode inode gaps),
      outside_iff.mpr hin⟩

end

instance (num : Nat) : Decidable (Fits num) := inferInstanceAs (Decidable (_ ≤ _))

/-- The numbers whose inodes go over the end of a sector, and those behind the table. -/
theorem fits_iff {num : Nat} (hnum : num < 64) :
    (Fits num ↔ num ≠ 11 ∧ num ≠ 23 ∧ num ≠ 34 ∧ num ≠ 46 ∧ num ≠ 58) ∧
      (inodeSector num < 7 ↔ num ≤ 46) := by
  revert num
  decide

/-- The root directory, as it is written when a disk is formatted. -/
def rootInode : Inode := ⟨2, 1, .ofFn fun i => if i = 0 then 47 else 0, 0, 0, .replicate 2 0⟩

/-- Gaps that are zero. -/
def noGaps : Gaps := ⟨.replicate 2 0, .replicate 2 0⟩

theorem stores_iff_root :
    Stores noGaps (fun _ _ => 0) 0 rootInode ↔ Fits 0 ∧ (inodeSector 0 < 7 ∨
      slice (fun _ => 0) 0 inodeSize = rootInode.encode noGaps) :=
  stores_iff noGaps (fun _ _ => 0) (by decide) (by decide)

/-- The inode with the number 11 goes over the end of its sector. -/
theorem not_stores : ¬∀ (gaps : Gaps) (d : Disk) (num : Nat) (inode : Inode), num < 64 →
    inode.kind ≠ 0 → Stores gaps d num inode := by
  intro hall
  obtain ⟨d', hwrite, -⟩ := hall noGaps (fun _ _ => 0) 11 rootInode (by decide) (by decide)
  rw [writeInode_of_not_fits (by decide) (by decide)] at hwrite
  cases hwrite

end PureOS.BlockFs
