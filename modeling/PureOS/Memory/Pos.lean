import Mathlib.Data.Nat.Log
import PureOS.Foundation.Fields
import PureOS.Memory.Atomic

set_option autoImplicit false

/-!
# Memory: the `.pos` loader (`pos.rs`)

A `.pos` file is wrapped into an ELF image on the stack of the kernel, which the ELF loader
loads.  The image tells the loader to take the segment from the start of the file, and gives
the segment no right to write.
-/

namespace PureOS.Memory

open PureOS.Foundation PureOS.Process

/-- `POS_MAGIC`. -/
def posMagic : List UInt8 := [0x50, 0x4f, 0x53, 0]

/-- `POS_HEADER_SIZE`. -/
def posHeaderSize : Nat := 16

/-- The entry of a file, from the start of the file. -/
def posEntry (data : List UInt8) : Nat := fromLE ((data.drop 8).take 8)

/-- `code_vaddr`. -/
def codeVaddr : Nat := 0x400000

/-- `next_power_of_two`. -/
def nextPowerOfTwo (n : Nat) : Nat := 2 ^ Nat.clog 2 n

/-- `code_size`, for code of a length. -/
def codeSize (len : Nat) : Nat := max (nextPowerOfTwo len) 4096

/-- What `build_minimal_elf` writes, field by field. -/
def minimalFields (code : List UInt8) (entryOffset : Nat) : List (List UInt8) :=
  -- The ELF header.
  [elfMagic, toLE 1 2, toLE 1 1, toLE 1 1, .replicate 9 0, toLE 2 2, toLE 2 0x3e, toLE 4 1,
    toLE 8 (codeVaddr + entryOffset), toLE 8 64, toLE 8 0, toLE 4 0, toLE 2 64, toLE 2 56,
    toLE 2 2, toLE 2 0, toLE 2 0, toLE 2 0,
  -- The code: `p_offset` is zero, and the flags are to read and to execute.
    toLE 4 1, toLE 4 5, toLE 8 0, toLE 8 codeVaddr, toLE 8 codeVaddr, toLE 8 code.length,
    toLE 8 (codeSize code.length), toLE 8 0x1000,
  -- The stack.
    toLE 4 0x6474e551, toLE 4 6, .replicate 32 0, toLE 8 0x10000, .replicate 8 0,
    code]

/-- The image for some code. -/
def minimalElf (code : List UInt8) (entryOffset : Nat) : List UInt8 :=
  (minimalFields code entryOffset).flatten

/-- `build_minimal_elf`: what is written into the buffer, as far as its result says. -/
def buildMinimalElf (code : List UInt8) (entryOffset : Nat) : Option (List UInt8) :=
  if 176 + code.length > 4096 then none else some (minimalElf code entryOffset)

/-- `exec` of `pos.rs`, with its buffer at `buf`. -/
def Kernel.posExec (L : Layout) (k : Kernel) (buf : Nat) (data : List UInt8) : Int × Kernel :=
  if data.length < posHeaderSize then (errInvalidPointer, k)
  else if data.take 4 ≠ posMagic then (errInvalidPointer, k)
  else if posEntry data < posHeaderSize ∨ posEntry data > data.length ∨
      posHeaderSize ≥ data.length then (errInvalidPointer, k)
  else
    match buildMinimalElf (data.drop posHeaderSize) (posEntry data - posHeaderSize) with
    | none => (errOutOfMemory, k)
    | some elf => k.exec L (imageAt buf elf) buf elf.length

/-- A process has code at addresses of its own, one behind the other, and begins with the byte
`entry` of it. -/
structure RunsCode (code : List UInt8) (entry : Nat) (pcb : Pcb) (k : Kernel) : Prop where
  entry_lt : entry < code.length
  placed : ∃ base, pcb.entry = base + entry ∧ ∀ i, ∀ hi : i < code.length, ∃ a,
    translate k.mem pcb.pageTableBase (base + i) = some a ∧ a.user = true ∧
      k.mem a.phys = code.get ⟨i, hi⟩

variable {L : Layout} {k k' k₀ : Kernel} {g g' : Ledger} {slot : Pid}
variable {buf len e i : Nat} {bytes code data : List UInt8}

/-! ## The image -/

theorem imageAt_from (reading : Reading) (hi : buf + i < 2 ^ 64) :
    bytesFrom ((imageAt buf bytes).found reading) buf i = bytes.getD i 0 := by
  have hadd : wrappingAdd buf i = buf + i := wrappingAdd_of_lt hi
  rw [bytesFrom, hadd]
  refine (if_pos (Nat.le_add_right buf i)).trans ?_
  rw [Nat.add_sub_cancel_left]

/-- Both passes find the same program headers. -/
theorem scanAt_imageAt (buf : Nat) (bytes : List UInt8) (dataPtr : Nat) (hdr : Elf64Header)
    (i : Nat) :
    Kernel.scanAt (imageAt buf bytes) dataPtr hdr i =
      Kernel.phdrAt (imageAt buf bytes) dataPtr hdr i := rfl

theorem field_of_slice {b : Nat → UInt8} {off n v : Nat} (h : slice b off n = toLE n v)
    (hv : v < 256 ^ n) : field b off n = v := by
  rw [field, readLE, h, fromLE_toLE, Nat.mod_eq_of_lt hv]

/-- The header of the image. -/
def minimalHeader (entryOffset : Nat) : Elf64Header where
  magic := elfMagic
  elfClass := 2
  machine := 0x3e
  entry := codeVaddr + entryOffset
  phoff := 64
  phentsize := 56
  phnum := 2

/-- The program header of the code. -/
def codePhdr (len : Nat) : Elf64Phdr where
  pType := 1
  pFlags := 5
  pOffset := 0
  pVaddr := codeVaddr
  pFilesz := len
  pMemsz := codeSize len

theorem codeSize_eq (hlen : len ≤ 4096) : codeSize len = 4096 := by
  have hclog : Nat.clog 2 len ≤ 12 := Nat.clog_le_of_le_pow hlen
  have hpow : nextPowerOfTwo len ≤ 2 ^ 12 := Nat.pow_le_pow_right (by decide) hclog
  exact Nat.max_eq_right hpow

theorem length_minimalElf (code : List UInt8) (e : Nat) :
    (minimalElf code e).length = 176 + code.length := by
  simp [minimalElf, minimalFields, elfMagic]
  omega

/-- A field of the image is read where it was put. -/
theorem field_minimal {k off n v : Nat} (hfield : (minimalFields code e)[k]? = some (toLE n v))
    (hoff : ((minimalFields code e).take k).flatten.length = off) (hle : off + n ≤ 176)
    (hv : v < 256 ^ n) : field (fun i => (minimalElf code e).getD i 0) off n = v := by
  refine field_of_slice ?_ hv
  have htake := drop_take_flatten hfield hoff
  rw [length_toLE] at htake
  have hlen : off + n ≤ (minimalElf code e).length := by
    rw [length_minimalElf]
    omega
  exact (slice_getD 0 hlen).trans htake

theorem header_minimal (he : codeVaddr + e < 2 ^ 64) :
    Elf64Header.ofBytes (fun i => (minimalElf code e).getD i 0) = minimalHeader e := by
  have hmagic : slice (fun i => (minimalElf code e).getD i 0) 0 4 = elfMagic := by
    rw [slice_getD]
    · rfl
    · rw [length_minimalElf]
      omega
  have hclass := @field_minimal e code 1 4 1 2 rfl rfl (by decide) (by decide)
  have hmachine := @field_minimal e code 6 18 2 0x3e rfl (by simp [minimalFields, elfMagic])
    (by decide) (by decide)
  have hentry := @field_minimal e code 8 24 8 (codeVaddr + e) rfl (by simp [minimalFields, elfMagic])
    (by decide) he
  have hphoff := @field_minimal e code 9 32 8 64 rfl (by simp [minimalFields, elfMagic]) (by decide)
    (by decide)
  have hphentsize := @field_minimal e code 13 54 2 56 rfl (by simp [minimalFields, elfMagic])
    (by decide) (by decide)
  have hphnum := @field_minimal e code 14 56 2 2 rfl (by simp [minimalFields, elfMagic]) (by decide)
    (by decide)
  rw [Elf64Header.ofBytes, hmagic, hclass, hmachine, hentry, hphoff, hphentsize, hphnum]
  rfl

theorem field_minimal_behind {k off n v : Nat} (a : Nat)
    (hfield : (minimalFields code e)[k]? = some (toLE n v))
    (hoff : ((minimalFields code e).take k).flatten.length = a + off) (hle : a + off + n ≤ 176)
    (hv : v < 256 ^ n) : field (fun i => (minimalElf code e).getD (a + i) 0) off n = v := by
  have hshift : field (fun i => (minimalElf code e).getD (a + i) 0) off n =
      field (fun i => (minimalElf code e).getD i 0) (a + off) n := by
    rw [field, field, readLE, readLE, slice, slice]
    simp only [Nat.add_assoc]
  rw [hshift]
  exact field_minimal hfield hoff hle hv

theorem phdr_minimal (hlen : code.length ≤ 4096) :
    Elf64Phdr.ofBytes (fun i => (minimalElf code e).getD (64 + i) 0) = codePhdr code.length := by
  have hsize := codeSize_eq hlen
  have htype := @field_minimal_behind e code 18 0 4 1 64 rfl (by simp [minimalFields, elfMagic])
    (by decide) (by decide)
  have hflags := @field_minimal_behind e code 19 4 4 5 64 rfl (by simp [minimalFields, elfMagic])
    (by decide) (by decide)
  have hoffset := @field_minimal_behind e code 20 8 8 0 64 rfl (by simp [minimalFields, elfMagic])
    (by decide) (by decide)
  have hvaddr := @field_minimal_behind e code 21 16 8 codeVaddr 64 rfl
    (by simp [minimalFields, elfMagic]) (by decide) (by decide)
  have hfilesz := @field_minimal_behind e code 23 32 8 code.length 64 rfl
    (by simp [minimalFields, elfMagic]) (by decide) (Nat.lt_of_le_of_lt hlen (by decide))
  have hmemsz := @field_minimal_behind e code 24 40 8 (codeSize code.length) 64 rfl
    (by simp [minimalFields, elfMagic]) (by decide) (by rw [hsize]; decide)
  rw [Elf64Phdr.ofBytes, htype, hflags, hoffset, hvaddr, hfilesz, hmemsz]
  rfl

theorem stackPhdr_minimal :
    (Elf64Phdr.ofBytes fun i => (minimalElf code e).getD (120 + i) 0).pType = 0x6474e551 :=
  @field_minimal_behind e code 26 0 4 0x6474e551 120 rfl (by simp [minimalFields, elfMagic])
    (by decide) (by decide)

/-! ## What the loader makes of it -/

/-- The buffer ends in memory, the image fits into it, and the entry is in or right behind the
code. -/
structure Fits (buf e : Nat) (code : List UInt8) : Prop where
  buf_le : buf + 4096 ≤ 2 ^ 64
  len_le : 176 + code.length ≤ 4096
  entry_le : e ≤ code.length

theorem headerOf_minimal (h : Fits buf e code) :
    headerOf (imageAt buf (minimalElf code e)) buf = minimalHeader e := by
  obtain ⟨hbuf, hlen, hentry⟩ := h
  have he : codeVaddr + e < 2 ^ 64 := by
    unfold codeVaddr
    omega
  rw [← header_minimal he]
  exact Elf64Header.ofBytes_congr fun i hi => imageAt_from .header (by omega)

/-- A program header is read where it is. -/
theorem phdrAt_minimal (h : Fits buf e code) (i : Nat) (hi : i < 2) :
    Kernel.phdrAt (imageAt buf (minimalElf code e)) buf (minimalHeader e) i =
      Elf64Phdr.ofBytes fun j => (minimalElf code e).getD (64 + i * 56 + j) 0 := by
  obtain ⟨hbuf, hlen, -⟩ := h
  have hphoff : wrappingAdd buf 64 = buf + 64 := wrappingAdd_of_lt (by unfold wordSize; omega)
  have hsum : wrappingAdd (buf + 64) (i * 56) = buf + 64 + i * 56 :=
    wrappingAdd_of_lt (by unfold wordSize; omega)
  have haddr : Kernel.phdrAddr buf (minimalHeader e) i = buf + (64 + i * 56) := by
    change wrappingAdd (wrappingAdd buf 64) (i * 56) = _
    rw [hphoff, hsum, Nat.add_assoc]
  rw [Kernel.phdrAt, Kernel.readPhdr, haddr]
  refine Elf64Phdr.ofBytes_congr fun j hj => ?_
  have hbyte : wrappingAdd (buf + (64 + i * 56)) j = wrappingAdd buf (64 + i * 56 + j) := by
    rw [wrappingAdd, wrappingAdd, Nat.add_assoc]
  rw [bytesFrom, hbyte]
  exact imageAt_from (.entry i) (by omega)

theorem codePhdr_minimal (h : Fits buf e code) :
    Kernel.phdrAt (imageAt buf (minimalElf code e)) buf (minimalHeader e) 0 =
      codePhdr code.length :=
  (phdrAt_minimal h 0 (by decide)).trans (phdr_minimal (by have hlen := h.len_le; omega))

theorem otherPhdr_minimal (h : Fits buf e code) :
    (Kernel.phdrAt (imageAt buf (minimalElf code e)) buf (minimalHeader e) 1).pType ≠ ptLoad := by
  rw [phdrAt_minimal h 1 (by decide), stackPhdr_minimal]
  decide

theorem checked_minimal (h : Fits buf e code) :
    checked (imageAt buf (minimalElf code e)) buf (minimalElf code e).length =
      some ⟨codeVaddr, codeVaddr + 4096⟩ := by
  have hlen := h.len_le
  have hsize : codeSize code.length = 4096 := codeSize_eq (by omega)
  have hextend : SegmentRange.extend ⟨2 ^ 64 - 1, 0⟩ codeVaddr 4096 =
      some ⟨codeVaddr, codeVaddr + 4096⟩ := rfl
  have hscan : segmentRange (imageAt buf (minimalElf code e)) buf (minimalHeader e)
      (List.range (minimalHeader e).phnum) ⟨2 ^ 64 - 1, 0⟩ =
        some ⟨codeVaddr, codeVaddr + 4096⟩ := by
    change segmentRange _ _ _ [0, 1] _ = _
    have htype : (codePhdr code.length).pType = ptLoad := rfl
    rw [segmentRange, scanAt_imageAt, codePhdr_minimal h, if_neg (not_not.mpr htype), if_neg ?_]
    · rw [codePhdr, hsize, hextend, Option.bind_some, segmentRange, scanAt_imageAt,
        if_pos (otherPhdr_minimal h), segmentRange]
    · change ¬code.length > codeSize code.length
      omega
  rw [checked, headerOf_minimal h, if_neg ?_, hscan]
  · rfl
  · rw [length_minimalElf, not_or, not_not]
    exact ⟨by unfold headerSize; omega, rfl⟩

theorem plan_minimal (h : Fits buf e code) :
    plan (imageAt buf (minimalElf code e)) buf (minimalHeader e) = [(0, codeVaddr)] := by
  have hlen := h.len_le
  have hsize : codeSize code.length = 4096 := codeSize_eq (by omega)
  have hcode : pagesOfEntry (imageAt buf (minimalElf code e)) buf (minimalHeader e) 0 =
      [codeVaddr] := by
    have htype : (codePhdr code.length).pType = ptLoad := rfl
    have hpages : pagesFrom (pageDown codeVaddr)
        (pageDown (wrappingAdd (wrappingAdd codeVaddr 4096) 0xFFF)) = [codeVaddr] := by decide
    rw [pagesOfEntry, pagesOfHeader, codePhdr_minimal h, if_pos htype, Kernel.segmentPages, codePhdr, hsize]
    exact hpages
  have hother : pagesOfEntry (imageAt buf (minimalElf code e)) buf (minimalHeader e) 1 = [] :=
    if_neg (otherPhdr_minimal h)
  change List.flatMap _ [0, 1] = _
  simp only [List.flatMap_cons, List.flatMap_nil, hcode, hother]
  rfl

/-! ## The process -/

/-- What `exec` of `pos.rs` hands over, if it does. -/
theorem posExec_cases (L : Layout) (k : Kernel) (buf : Nat) (data : List UInt8) :
    (∃ err < 0, k.posExec L buf data = (err, k)) ∨
    posHeaderSize < data.length ∧ 176 + (data.drop posHeaderSize).length ≤ 4096 ∧
      posEntry data - posHeaderSize ≤ (data.drop posHeaderSize).length ∧
      k.posExec L buf data =
        k.exec L (imageAt buf (minimalElf (data.drop posHeaderSize) (posEntry data - posHeaderSize)))
          buf (minimalElf (data.drop posHeaderSize) (posEntry data - posHeaderSize)).length := by
  unfold Kernel.posExec
  split
  · exact Or.inl ⟨_, by decide, rfl⟩
  split
  · exact Or.inl ⟨_, by decide, rfl⟩
  split
  · exact Or.inl ⟨_, by decide, rfl⟩
  next hentry =>
    rw [not_or, not_or] at hentry
    unfold buildMinimalElf
    split
    · next hnone =>
        exact Or.inl ⟨_, by decide, rfl⟩
    · next elf hsome =>
        split at hsome
        · cases hsome
        next hlen =>
          cases hsome
          refine Or.inr ⟨by omega, by omega, ?_, rfl⟩
          rw [List.length_drop]
          omega

/-- The code of a loaded file is in a page that user space has no access to. -/
theorem Holds.not_runsCode (h : Holds L k g) (hlive : k.Running) (hbuf : buf + 4096 ≤ 2 ^ 64)
    (hslot : (k.posExec L buf data).1 = (slot : Nat)) :
    ¬RunsCode (data.drop posHeaderSize) (posEntry data - posHeaderSize)
      ((k.posExec L buf data).2.table slot) (k.posExec L buf data).2 := by
  rcases posExec_cases L k buf data with ⟨err, hneg, hrun⟩ | ⟨hsize, hlen, hentry, hrun⟩
  · rw [hrun] at hslot
    exact absurd hneg (Int.not_lt.mpr (nonneg_of_slot hslot))
  have hfits : Fits buf (posEntry data - posHeaderSize) (data.drop posHeaderSize) :=
    ⟨hbuf, hlen, hentry⟩
  have hpos : 0 < (data.drop posHeaderSize).length := by
    rw [List.length_drop]
    omega
  generalize data.drop posHeaderSize = code at *
  generalize posEntry data - posHeaderSize = e at *
  obtain ⟨reads, hexec⟩ := exec_eq L (imageAt buf (minimalElf code e)) k buf (minimalElf code e).length
  rw [checked_minimal hfits, headerOf_minimal hfits] at hexec
  rw [hrun, hexec] at hslot ⊢
  dsimp only at hslot ⊢
  rcases execLoad_outcome (imageAt buf (minimalElf code e)) buf (minimalHeader e) (h.reads reads)
    hlive ⟨codeVaddr, codeVaddr + 4096⟩ with
    ⟨_, hload⟩ | ⟨slot', _, ⟨k', g', hload, _⟩ | ⟨log, stack, k', g', hload, hdone⟩⟩
  · rw [hload] at hslot
    have hnot : ¬0 ≤ errNoCapacity := by decide
    exact absurd (nonneg_of_slot hslot) hnot
  · rw [hload] at hslot
    have hnot : ¬0 ≤ errOutOfMemory := by decide
    exact absurd (nonneg_of_slot hslot) hnot
  rw [hload] at hslot ⊢
  obtain rfl : slot' = slot := Fin.ext (Int.ofNat_inj.mp hslot)
  have hloads := hdone.loads
  rw [plan_minimal hfits] at hloads
  obtain ⟨page, rest, hpage, hrest, rfl⟩ := List.forall₂_cons_left_iff.mp hloads
  obtain rfl := List.forall₂_nil_left_iff.mp hrest
  have hva : page.va = codeVaddr := hpage.va
  have huser : page.user = false := by
    have hflags : (codePhdr code.length).pFlags = 5 := rfl
    rw [hpage.user, codePhdr_minimal hfits, hflags]
    decide
  have hstack : ∀ va ∈ Kernel.stackPages (SegmentRange.loadEnd ⟨codeVaddr, codeVaddr + 4096⟩),
      pageNo va ≠ pageNo codeVaddr := by decide
  have hmaps := hdone.added.maps [] page stack rfl fun e' he' => by
    rw [hva]
    exact hstack e'.va (hdone.stacked.pages ▸ List.mem_map_of_mem he')
  have hfresh := (hdone.added.frames page List.mem_cons_self).1
  obtain ⟨-, haligned, hlt⟩ := h.pool.frame page.frame hfresh.ne_other
  have htranslate : translate k'.mem (L.processPml4 slot') codeVaddr =
      some ⟨page.frame + codeVaddr % 4096, page.writable, page.user⟩ := by
    rw [← target_processPml4 L slot', hva] at hmaps
    exact hmaps.translate (by decide) haligned hlt
  have hpcb : (Kernel.finishElf L slot' (minimalHeader e).entry (pageDown codeVaddr)
      (SegmentRange.loadEnd ⟨codeVaddr, codeVaddr + 4096⟩) k').table slot' = _ :=
    Kernel.setPcb_self _ _ _
  rintro ⟨-, base, hbase, hplaced⟩
  obtain ⟨a, haccess, huser', -⟩ := hplaced 0 hpos
  rw [hpcb] at hbase haccess
  have hsame : codeVaddr + e = base + e := hbase
  obtain rfl : codeVaddr = base := Nat.add_right_cancel hsame
  have heq := haccess.symm.trans htranslate
  cases heq
  rw [huser] at huser'
  cases huser'

/-- What makes `exec` of `pos.rs` accept a file. -/
structure Accepts (k : Kernel) (buf : Nat) (data : List UInt8) : Prop where
  magic : data.take 4 = posMagic
  size : posHeaderSize < data.length ∧ data.length ≤ posHeaderSize + (4096 - 176)
  entry : posHeaderSize ≤ posEntry data ∧ posEntry data ≤ data.length
  buf_le : buf + 4096 ≤ 2 ^ 64
  enough : Enough k (codeVaddr :: Kernel.stackPages (codeVaddr + 4096))

theorem Holds.exec_value {image : Image} {dataPtr size : Nat} {range : SegmentRange}
    (h : Holds L k g) (hlive : k.Running) (hcheck : checked image dataPtr size = some range)
    (hslot : k.table.findFreeSlot = some slot)
    (henough : Enough k (execPages image dataPtr (headerOf image dataPtr) range)) :
    (k.exec L image dataPtr size).1 = (slot : Nat) := by
  obtain ⟨reads, hexec⟩ := exec_eq L image k dataPtr size
  rw [hexec, hcheck]
  rcases (h.reads reads).execLoad_decides hlive hslot image dataPtr (headerOf image dataPtr) range
    with ⟨-, hvalue⟩ | ⟨hnot, -⟩
  · exact hvalue
  · exact absurd ((Enough.reads_iff h).mpr henough) hnot

theorem Holds.posExec_value (h : Holds L k g) (hlive : k.Running) (haccepts : Accepts k buf data)
    (hslot : k.table.findFreeSlot = some slot) : (k.posExec L buf data).1 = (slot : Nat) := by
  obtain ⟨hmagic, ⟨hpos, hlen⟩, ⟨hfirst, hlast⟩, hbuf, henough⟩ := haccepts
  have hfits : Fits buf (posEntry data - posHeaderSize) (data.drop posHeaderSize) := by
    refine ⟨hbuf, ?_, ?_⟩ <;> rw [List.length_drop] <;> omega
  have hbuild : buildMinimalElf (data.drop posHeaderSize) (posEntry data - posHeaderSize) =
      some (minimalElf (data.drop posHeaderSize) (posEntry data - posHeaderSize)) :=
    if_neg (Nat.not_lt.mpr hfits.len_le)
  rw [Kernel.posExec, if_neg (by omega), if_neg (not_not.mpr hmagic), if_neg (by omega), hbuild]
  refine h.exec_value hlive (checked_minimal hfits) hslot ?_
  rw [headerOf_minimal hfits, execPages, plan_minimal hfits]
  exact henough

/-- No file that is accepted, in any state that sparing steps lead to, gives a process that can run
its code. -/
theorem posExec_fails {h : List Action} (boot : Booted L k₀) (run : Run (SparingStep L) k₀ h k)
    (running : k.Running) (hbuf : buf + 4096 ≤ 2 ^ 64)
    (hslot : (k.posExec L buf data).1 = (slot : Nat)) :
    ¬RunsCode (data.drop posHeaderSize) (posEntry data - posHeaderSize)
      ((k.posExec L buf data).2.table slot) (k.posExec L buf data).2 := by
  obtain ⟨g, hg⟩ := holds_of_run boot run
  exact hg.not_runsCode running hbuf hslot

/-- A file with one byte of code and an entry. -/
def oneByte (entry : Nat) : List UInt8 := posMagic ++ [1, 0, 0, 0] ++ toLE 8 entry ++ [0x90]

theorem accepts_oneByte {entry : Nat} (hentry : entry = 16 ∨ entry = 17) :
    Accepts (started 64) 0x8000 (oneByte entry) where
  magic := rfl
  size := by rcases hentry with rfl | rfl <;> decide
  entry := by rcases hentry with rfl | rfl <;> decide
  buf_le := by decide
  enough := by
    have hholds := @started_holds 64 (by decide)
    exact hholds.enough_iff.mpr ⟨20, by decide +kernel, by decide⟩

theorem posExec_oneByte {entry : Nat} (hentry : entry = 16 ∨ entry = 17) :
    ((started 64).posExec Layout.packed 0x8000 (oneByte entry)).1 = ((1 : Pid) : Nat) :=
  (started_holds (by decide)).posExec_value rfl (accepts_oneByte hentry) (by decide +kernel)

theorem posExec_fails_oneByte :
    ¬RunsCode [0x90] 0
      (((started 64).posExec Layout.packed 0x8000 (oneByte 16)).2.table 1)
      ((started 64).posExec Layout.packed 0x8000 (oneByte 16)).2 :=
  posExec_fails (booted_started (by decide)) .nil rfl (by decide) (posExec_oneByte (Or.inl rfl))

/-- An entry behind the code is accepted. -/
theorem not_posExec_runs :
    ¬∀ (L : Layout) (k₀ k : Kernel) (h : List Action) (buf : Nat) (data : List UInt8) (slot : Pid),
      Booted L k₀ → Run (Step L) k₀ h k → k.Running → buf + 4096 ≤ 2 ^ 64 →
      (k.posExec L buf data).1 = (slot : Nat) →
      RunsCode (data.drop posHeaderSize) (posEntry data - posHeaderSize)
        ((k.posExec L buf data).2.table slot) (k.posExec L buf data).2 := by
  intro hall
  have hruns := hall Layout.packed (started 64) (started 64) [] 0x8000 (oneByte 17) 1
    (booted_started (by decide)) .nil rfl (by decide) (posExec_oneByte (Or.inr rfl))
  exact absurd hruns.entry_lt (by decide)

end PureOS.Memory
