import PureOS.Memory.Create

set_option autoImplicit false

/-!
# Memory: the ELF loader (`elf.rs`)

`exec` as it reads an image and makes a process of it.  The loader reads the image through the
tables of the running process, the lower ones of which are those that it enters its pages into,
so a byte may be another one when it is read again.  How a byte is read is therefore a parameter:
`throughTables` is what the processor does, and an `Image` says outright what is found in each of
the reads.  The addresses that are read are kept in the kernel's `reads`.
-/

namespace PureOS.Memory

open PureOS.Foundation PureOS.Process

/-- Subtraction on `u64` as a release build performs it. -/
def wrappingSub (a b : Nat) : Nat := (a + 2 ^ 64 - b) % 2 ^ 64

/-- The fields of `Elf64Header` that the loader looks at. -/
structure Elf64Header where
  magic : List UInt8
  elfClass : Nat
  machine : Nat
  entry : Nat
  phoff : Nat
  phentsize : Nat
  phnum : Nat

/-- The fields of `Elf64Phdr` that the loader looks at. -/
structure Elf64Phdr where
  pType : Nat
  pFlags : Nat
  pOffset : Nat
  pVaddr : Nat
  pFilesz : Nat
  pMemsz : Nat
  deriving DecidableEq

/-- `size_of::<Elf64Header>()`. -/
def headerSize : Nat := 64
/-- `size_of::<Elf64Phdr>()`. -/
def phdrSize : Nat := 56

/-- `ELF_MAGIC`. -/
def elfMagic : List UInt8 := [0x7f, 0x45, 0x4c, 0x46]

/-- `PT_LOAD`. -/
def ptLoad : Nat := 1

/-- The number of `n` bytes at an offset. -/
def field (bytes : Nat → UInt8) (off n : Nat) : Nat := readLE bytes off n

/-- The header whose bytes are given. -/
def Elf64Header.ofBytes (bytes : Nat → UInt8) : Elf64Header where
  magic := slice bytes 0 4
  elfClass := field bytes 4 1
  machine := field bytes 18 2
  entry := field bytes 24 8
  phoff := field bytes 32 8
  phentsize := field bytes 54 2
  phnum := field bytes 56 2

/-- The program header whose bytes are given. -/
def Elf64Phdr.ofBytes (bytes : Nat → UInt8) : Elf64Phdr where
  pType := field bytes 0 4
  pFlags := field bytes 4 4
  pOffset := field bytes 8 8
  pVaddr := field bytes 16 8
  pFilesz := field bytes 32 8
  pMemsz := field bytes 40 8

theorem field_congr {b b' : Nat → UInt8} {off n : Nat}
    (h : ∀ i, off ≤ i → i < off + n → b i = b' i) : field b off n = field b' off n :=
  readLE_congr h

theorem Elf64Header.ofBytes_congr {b b' : Nat → UInt8} (h : ∀ i < 64, b i = b' i) :
    Elf64Header.ofBytes b = Elf64Header.ofBytes b' := by
  have hmagic : slice b 0 4 = slice b' 0 4 := slice_congr fun i _ hi => h i (by omega)
  have hfield : ∀ off n, off + n ≤ 64 → field b off n = field b' off n := fun off n hle =>
    field_congr fun i _ hi => h i (by omega)
  rw [ofBytes, ofBytes, hmagic, hfield 4 1 (by decide), hfield 18 2 (by decide),
    hfield 24 8 (by decide), hfield 32 8 (by decide), hfield 54 2 (by decide),
    hfield 56 2 (by decide)]

theorem Elf64Phdr.ofBytes_congr {b b' : Nat → UInt8} (h : ∀ i < 56, b i = b' i) :
    Elf64Phdr.ofBytes b = Elf64Phdr.ofBytes b' := by
  have hfield : ∀ off n, off + n ≤ 56 → field b off n = field b' off n := fun off n hle =>
    field_congr fun i _ hi => h i (by omega)
  rw [ofBytes, ofBytes, hfield 0 4 (by decide), hfield 4 4 (by decide), hfield 8 8 (by decide),
    hfield 16 8 (by decide), hfield 32 8 (by decide), hfield 40 8 (by decide)]

/-- `SegmentRange`. -/
structure SegmentRange where
  base : Nat
  fin : Nat

/-- `SegmentRange::extend`. -/
def SegmentRange.extend (r : SegmentRange) (vaddr memsz : Nat) : Option SegmentRange :=
  (checkedAdd vaddr memsz).map fun e => ⟨min r.base vaddr, max r.fin e⟩

/-- The reads of the loader: of the header, of the program header `i` in the first and in the
second pass, and of the bytes for the page `va` of the segment `i`. -/
inductive Reading where
  | header
  | scan (i : Nat)
  | entry (i : Nat)
  | copy (i va : Nat)
  deriving DecidableEq

/-- How the loader reads: the byte at an address, in a state of the kernel. -/
abbrev Look := Reading → Kernel → Nat → UInt8

/-- An image: what the loader finds at an address in each of its reads. -/
structure Image where
  found : Reading → Nat → UInt8

/-- To read an image is to find what it says. -/
abbrev Image.look (image : Image) : Look := fun reading _ => image.found reading

instance : Coe Image Look := ⟨Image.look⟩

/-- An image that does not change while it is read. -/
def Image.still (bytes : Nat → UInt8) : Image := ⟨fun _ => bytes⟩

/-- The byte at an address for the running process.  At an address that its tables do not lead
anywhere there is none, and the processor does not come back from the read. -/
def Kernel.seen (k : Kernel) (a : Nat) : UInt8 :=
  (translate k.mem k.readCr3 a).elim 0 fun access => k.mem access.phys

/-- `read_volatile`: each byte is looked up in the tables when it is read. -/
def throughTables : Look := fun _ k => k.seen

/-- The bytes from an address on, as they are read one by one. -/
def bytesFrom (found : Nat → UInt8) (addr : Nat) : Nat → UInt8 := fun i => found (wrappingAdd addr i)

namespace Kernel

/-- The loader reads `n` bytes at an address: `read_val`. -/
def noteReads (k : Kernel) (addr n : Nat) : Kernel :=
  { k with reads := ((List.range n).map (wrappingAdd addr)).reverse ++ k.reads }

/-- `copy_from_user`: each byte is written before the next one is read. -/
def copyFromUser (look : Kernel → Nat → UInt8) (src dst : Nat) : Nat → Kernel → Kernel
  | 0, k => k
  | n + 1, k =>
      let k := copyFromUser look src dst n k
      { k with
        mem := Function.update k.mem (dst + n) (look k (wrappingAdd src n))
        reads := wrappingAdd src n :: k.reads }

/-- The address of the program header `i`. -/
def phdrAddr (dataPtr : Nat) (hdr : Elf64Header) (i : Nat) : Nat :=
  wrappingAdd (wrappingAdd dataPtr hdr.phoff) (i * hdr.phentsize)

/-- The program header `i`. -/
def readPhdr (found : Nat → UInt8) (dataPtr : Nat) (hdr : Elf64Header) (i : Nat) : Elf64Phdr :=
  .ofBytes (bytesFrom found (phdrAddr dataPtr hdr i))

/-- The first pass over the program headers: the range of all `PT_LOAD`. -/
def firstPass (look : Look) (dataPtr : Nat) (hdr : Elf64Header) :
    List Nat → SegmentRange → Kernel → Except Int SegmentRange × Kernel
  | [], range, k => (.ok range, k)
  | i :: rest, range, k =>
      let ph := readPhdr (look (.scan i) k) dataPtr hdr i
      let k := k.noteReads (phdrAddr dataPtr hdr i) phdrSize
      if ph.pType ≠ ptLoad then firstPass look dataPtr hdr rest range k
      else if ph.pFilesz > ph.pMemsz then (.error errInvalidPointer, k)
      else
        match range.extend ph.pVaddr ph.pMemsz with
        | none => (.error errInvalidPointer, k)
        | some range => firstPass look dataPtr hdr rest range k

/-- The copy into the page `va` of the segment `i`. -/
def loadPage (look : Look) (dataPtr i : Nat) (ph : Elf64Phdr) (va phys : Nat) (k : Kernel) :
    Kernel :=
  let inPage := wrappingSub va ph.pVaddr
  let copyNow := min 0x1000 (ph.pFilesz - inPage)
  if copyNow > 0 then
    copyFromUser (look (.copy i va)) (wrappingAdd (wrappingAdd dataPtr ph.pOffset) inPage) phys
      copyNow k
  else k

/-- The pages of a segment. -/
def segmentPages (ph : Elf64Phdr) : List Nat :=
  pagesFrom (pageDown ph.pVaddr) (pageDown (wrappingAdd (wrappingAdd ph.pVaddr ph.pMemsz) 0xFFF))

/-- The second pass, for the program header `i`: the pages of a segment are mapped and
filled.  The rights are passed to `map_page` as the source passes them. -/
def loadSegment (look : Look) (dataPtr : Nat) (hdr : Elf64Header) (pid : Pid) (pml4 : Nat)
    (i : Nat) (k : Kernel) : Except Int Unit × Kernel :=
  let ph := readPhdr (look (.entry i) k) dataPtr hdr i
  let k := k.noteReads (phdrAddr dataPtr hdr i) phdrSize
  if ph.pType ≠ ptLoad then (.ok (), k)
  else
    let writable := ph.pFlags.testBit 1
    forEach (trackAndMap pid pml4 true writable (loadPage look dataPtr i ph)) (segmentPages ph) k

/-- The pages of the user stack behind the image. -/
def stackPages (loadEnd : Nat) : List Nat :=
  (List.range 16).map fun p => wrappingAdd loadEnd (p * 0x1000)

/-- The check of the header. -/
def headerOk (hdr : Elf64Header) : Bool :=
  hdr.magic = elfMagic ∧ hdr.elfClass = 2 ∧ hdr.machine = 0x3e ∧ hdr.phnum ≠ 0 ∧
    phdrSize ≤ hdr.phentsize

/-- The slot gets the tables of the running process and an empty list of frames. -/
def prepareSlot (L : Layout) (slot : Pid) (k : Kernel) : Kernel :=
  let k := k.cloneCurrentPml4For L slot
  k.enterPcb slot { k.table slot with framesHead := 0 }

/-- The second pass. -/
def loadSegments (L : Layout) (look : Look) (dataPtr : Nat) (hdr : Elf64Header) (slot : Pid)
    (k : Kernel) : Except Int Unit × Kernel :=
  forEach (loadSegment look dataPtr hdr slot (L.processPml4 slot)) (List.range hdr.phnum) k

/-- The loop over the pages of the user stack. -/
def mapStack (L : Layout) (slot : Pid) (loadEnd : Nat) (k : Kernel) : Except Int Unit × Kernel :=
  forEach (trackAndMap slot (L.processPml4 slot) true true fun _ _ k => k) (stackPages loadEnd) k

/-- The call of `provision_pcb_elf`. -/
def finishElf (L : Layout) (slot : Pid) (entry loadBase loadEnd : Nat) (k : Kernel) : Kernel :=
  k.setPcb slot (provisionPcbElf slot entry (L.processPml4 slot) (wrappingAdd loadEnd 0x10000)
    loadBase (wrappingSub loadEnd loadBase) k.tick)

/-- The part of `exec` after the first pass. -/
def execLoad (L : Layout) (look : Look) (dataPtr : Nat) (hdr : Elf64Header)
    (range : SegmentRange) (k : Kernel) : Int × Kernel :=
  let loadBase := pageDown range.base
  let loadEnd := pageDown (wrappingAdd range.fin 0xFFF)
  match k.table.findFreeSlot with
  | none => (errNoCapacity, k)
  | some slot =>
      match loadSegments L look dataPtr hdr slot (prepareSlot L slot k) with
      | (.error e, k) => (e, k)
      | (.ok (), k) =>
          match mapStack L slot loadEnd k with
          | (.error e, k) => (e, k)
          | (.ok (), k) => ((slot : Int), finishElf L slot hdr.entry loadBase loadEnd k)

/-- `exec`. -/
def exec (L : Layout) (look : Look) (k : Kernel) (dataPtr size : Nat) : Int × Kernel :=
  if size < headerSize then (errInvalidPointer, k)
  else
    let hdr := Elf64Header.ofBytes (bytesFrom (look .header k) dataPtr)
    let k := k.noteReads dataPtr headerSize
    if ¬headerOk hdr then (errInvalidPointer, k)
    else
      match firstPass look dataPtr hdr (List.range hdr.phnum) ⟨2 ^ 64 - 1, 0⟩ k with
      | (.error e, k) => (e, k)
      | (.ok range, k) =>
          if range.base = 2 ^ 64 - 1 then (errInvalidPointer, k)
          else execLoad L look dataPtr hdr range k

/-- The ways in which the second part of `exec` may go. -/
theorem execLoad_cases (L : Layout) (look : Look) (dataPtr : Nat) (hdr : Elf64Header)
    (range : SegmentRange) (k : Kernel) :
    (k.table.findFreeSlot = none ∧
      execLoad L look dataPtr hdr range k = (errNoCapacity, k)) ∨
    ∃ slot, k.table.findFreeSlot = some slot ∧
      ((∃ e k₁, loadSegments L look dataPtr hdr slot (prepareSlot L slot k) = (.error e, k₁) ∧
          execLoad L look dataPtr hdr range k = (e, k₁)) ∨
        ∃ k₁, loadSegments L look dataPtr hdr slot (prepareSlot L slot k) = (.ok (), k₁) ∧
          ((∃ e k₂, mapStack L slot (pageDown (wrappingAdd range.fin 0xFFF)) k₁ = (.error e, k₂) ∧
              execLoad L look dataPtr hdr range k = (e, k₂)) ∨
            ∃ k₂, mapStack L slot (pageDown (wrappingAdd range.fin 0xFFF)) k₁ = (.ok (), k₂) ∧
              execLoad L look dataPtr hdr range k = ((slot : Int),
                finishElf L slot hdr.entry (pageDown range.base)
                  (pageDown (wrappingAdd range.fin 0xFFF)) k₂))) := by
  unfold execLoad
  cases k.table.findFreeSlot with
  | none => exact Or.inl ⟨rfl, rfl⟩
  | some slot =>
      refine Or.inr ⟨slot, rfl, ?_⟩
      rcases hseg : loadSegments L look dataPtr hdr slot (prepareSlot L slot k) with ⟨_ | _, k₁⟩
      · exact Or.inl ⟨_, k₁, rfl, by simp only [hseg]⟩
      · refine Or.inr ⟨k₁, rfl, ?_⟩
        rcases hstack : mapStack L slot (pageDown (wrappingAdd range.fin 0xFFF)) k₁ with ⟨_ | _, k₂⟩
        · exact Or.inl ⟨_, k₂, rfl, by simp only [hseg, hstack]⟩
        · exact Or.inr ⟨k₂, rfl, by simp only [hseg, hstack]⟩

/-! ## Images that say what is found -/

section Found

variable (image : Image) (dataPtr : Nat) (hdr : Elf64Header)

/-- The program header `i` as the first pass finds it. -/
def scanAt (i : Nat) : Elf64Phdr := readPhdr (image.found (.scan i)) dataPtr hdr i

/-- The program header `i` as the second pass finds it. -/
def phdrAt (i : Nat) : Elf64Phdr := readPhdr (image.found (.entry i)) dataPtr hdr i

theorem firstPass_cons (i : Nat) (rest : List Nat) (range : SegmentRange) (k : Kernel) :
    firstPass image dataPtr hdr (i :: rest) range k =
      if (scanAt image dataPtr hdr i).pType ≠ ptLoad then
        firstPass image dataPtr hdr rest range (k.noteReads (phdrAddr dataPtr hdr i) phdrSize)
      else if (scanAt image dataPtr hdr i).pFilesz > (scanAt image dataPtr hdr i).pMemsz then
        (.error errInvalidPointer, k.noteReads (phdrAddr dataPtr hdr i) phdrSize)
      else
        match range.extend (scanAt image dataPtr hdr i).pVaddr
          (scanAt image dataPtr hdr i).pMemsz with
        | none => (.error errInvalidPointer, k.noteReads (phdrAddr dataPtr hdr i) phdrSize)
        | some range =>
            firstPass image dataPtr hdr rest range
              (k.noteReads (phdrAddr dataPtr hdr i) phdrSize) := by
  rw [firstPass, scanAt]

theorem loadSegment_eq (pid : Pid) (pml4 i : Nat) (k : Kernel) :
    loadSegment image dataPtr hdr pid pml4 i k =
      if (phdrAt image dataPtr hdr i).pType ≠ ptLoad then
        (.ok (), k.noteReads (phdrAddr dataPtr hdr i) phdrSize)
      else
        forEach (trackAndMap pid pml4 true ((phdrAt image dataPtr hdr i).pFlags.testBit 1)
            (loadPage image dataPtr i (phdrAt image dataPtr hdr i)))
          (segmentPages (phdrAt image dataPtr hdr i))
          (k.noteReads (phdrAddr dataPtr hdr i) phdrSize) := rfl

end Found

theorem noteReads_succ (k : Kernel) (addr n : Nat) :
    k.noteReads addr (n + 1) =
      { k with reads := wrappingAdd addr n :: (k.noteReads addr n).reads } := by
  simp [noteReads, List.range_succ]

/-- Bytes that do not depend on the state are copied all at once. -/
theorem copyFromUser_found (found : Nat → UInt8) (src dst n : Nat) (k : Kernel) :
    copyFromUser (fun _ => found) src dst n k =
      { k with mem := overlay k.mem dst n (bytesFrom found src) }.noteReads src n := by
  induction n with
  | zero =>
      have hnone : overlay k.mem dst 0 (bytesFrom found src) = k.mem :=
        funext fun a => overlay_of_outside (by omega)
      rw [hnone]
      rfl
  | succ n ih =>
      rw [copyFromUser, ih, noteReads_succ, noteReads, overlay_succ]
      rfl

end Kernel

end PureOS.Memory
