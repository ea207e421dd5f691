import PureOS.Barrel.Correct
import PureOS.Memory.Loaded

set_option autoImplicit false

/-!
# Memory: compiled programs (`barrelc.rs`)

`compile_and_run` puts headers in front of the emitted code and hands the buffer to the ELF
loader.  The file is one segment, which is loaded with its headers, so that the code stands where
the compiler has it run, and the stack begins where the page of the file ends.
-/

namespace PureOS.Memory

open PureOS.Foundation PureOS.Process
open PureOS.Barrel (loadVaddr codeOff elfBufSize codeBase stackBase stackTop Comp)

/-! ## The file -/

/-- What `write_elf_headers` writes, field by field. -/
def elfFields (total : Nat) : List (List UInt8) :=
  -- The ELF header.
  [elfMagic, toLE 1 2, toLE 1 1, toLE 1 1, .replicate 9 0, toLE 2 2, toLE 2 0x3e, toLE 4 1,
    toLE 8 codeBase, toLE 8 64, toLE 8 0, toLE 4 0, toLE 2 64, toLE 2 56, toLE 2 1, toLE 2 0,
    toLE 2 0, toLE 2 0,
  -- The whole file, to read, to write and to execute.
    toLE 4 1, toLE 4 7, toLE 8 0, toLE 8 loadVaddr, toLE 8 loadVaddr, toLE 8 total, toLE 8 total,
    toLE 8 0x1000]

/-- `write_elf_headers`. -/
def writeElfHeaders (elf : Nat → UInt8) (total : Nat) : Nat → UInt8 :=
  blit elf 0 (elfFields total).flatten

/-- `ELF_BUF` with its headers. -/
def elfBuf (elf : Nat → UInt8) (total : Nat) : List UInt8 :=
  slice (writeElfHeaders elf total) 0 elfBufSize

/-- `compile_and_run` behind the compilation, with `ELF_BUF` at `buf`, up to the start of the
process. -/
def Kernel.runCompiled (L : Layout) (k : Kernel) (buf : Nat) (c : Comp) : Int × Kernel :=
  if c.err ≠ 0 then (c.err, k)
  else k.exec L (imageAt buf (elfBuf c.elf (codeOff + c.clen))) buf (codeOff + c.clen)

/-- A process is started as its entry in the table says: the machine sees the memory of the process
where user space has access to it. -/
structure StartsAs (k : Kernel) (pcb : Pcb) (m : Barrel.Machine) : Prop where
  rip : m.cpu.rip = BitVec.ofNat 64 pcb.entry
  rsp : m.cpu.rsp = BitVec.ofNat 64 pcb.userStack
  out : m.out = []
  mem : ∀ virt a, translate k.mem pcb.pageTableBase virt = some a → a.user = true →
    m.cpu.mem virt = k.mem a.phys

theorem codeOff_eq : codeOff = 120 := rfl

theorem loadVaddr_eq : loadVaddr = 0x200000000000 := rfl

variable {L : Layout} {k k₀ : Kernel} {g : Ledger} {slot : Pid} {image : Image}
variable {buf dataPtr size total virt : Nat} {elf : Nat → UInt8} {c : Comp} {l : List Source}

theorem length_elfFields (total : Nat) : (elfFields total).flatten.length = codeOff := by
  simp [elfFields, elfMagic]

/-- The bytes behind the headers, up to the end of the buffer. -/
def behindHeaders (elf : Nat → UInt8) (n : Nat) : List UInt8 := slice elf codeOff n

theorem elfBuf_eq (elf : Nat → UInt8) (total : Nat) :
    elfBuf elf total = (elfFields total).flatten ++ behindHeaders elf (elfBufSize - codeOff) := by
  have hheaders : slice (writeElfHeaders elf total) 0 codeOff = (elfFields total).flatten := by
    rw [← length_elfFields total]
    exact slice_blit_same elf 0 _
  have hrest : ∀ n, slice (writeElfHeaders elf total) codeOff n = behindHeaders elf n := by
    intro n
    refine slice_congr fun i hi _ => blit_of_outside _ _ _ _ (Or.inr ?_)
    rw [length_elfFields, Nat.zero_add]
    exact hi
  have happend := slice_append (writeElfHeaders elf total) 0 codeOff (elfBufSize - codeOff)
  rw [Nat.zero_add, hheaders, hrest] at happend
  exact happend

/-- In front of the end of the headers the file is what was written there. -/
theorem getD_elfBuf {i : Nat} (hi : i < codeOff) :
    (elfBuf elf total).getD i 0 = (elfFields total).flatten.getD i 0 := by
  rw [elfBuf_eq, List.getD_append]
  rw [length_elfFields]
  exact hi

/-- A field of the headers is read where it was put, from `a` on. -/
theorem field_elfBuf {k off n v : Nat} (a : Nat) (hfield : (elfFields total)[k]? = some (toLE n v))
    (hoff : ((elfFields total).take k).flatten.length = a + off) (hle : a + off + n ≤ codeOff)
    (hv : v < 256 ^ n) : field (fun i => (elfBuf elf total).getD (a + i) 0) off n = v := by
  have htake := drop_take_flatten hfield hoff
  rw [length_toLE] at htake
  have hslice : slice (fun i => (elfFields total).flatten.getD (a + i) 0) off n =
      slice (fun i => (elfFields total).flatten.getD i 0) (a + off) n := by
    rw [slice, slice]
    simp only [Nat.add_assoc]
  have hshift : slice (fun i => (elfBuf elf total).getD (a + i) 0) off n =
      slice (fun i => (elfFields total).flatten.getD (a + i) 0) off n :=
    slice_congr fun i _ hi => getD_elfBuf (by rw [codeOff_eq] at hle ⊢; omega)
  refine field_of_slice ?_ hv
  rw [hshift, hslice, slice_getD 0 (by rw [length_elfFields]; exact hle)]
  exact htake

/-- The header of the file. -/
def compiledHeader : Elf64Header where
  magic := elfMagic
  elfClass := 2
  machine := 0x3e
  entry := codeBase
  phoff := 64
  phentsize := 56
  phnum := 1

/-- Its program header. -/
def compiledPhdr (total : Nat) : Elf64Phdr where
  pType := 1
  pFlags := 7
  pOffset := 0
  pVaddr := loadVaddr
  pFilesz := total
  pMemsz := total

theorem header_elfBuf (elf : Nat → UInt8) (total : Nat) :
    Elf64Header.ofBytes (fun i => (elfBuf elf total).getD (0 + i) 0) = compiledHeader := by
  have hmagic : slice (fun i => (elfBuf elf total).getD (0 + i) 0) 0 4 = elfMagic := by
    have hsame : slice (fun i => (elfBuf elf total).getD (0 + i) 0) 0 4 =
        slice (fun i => (elfFields total).flatten.getD i 0) 0 4 :=
      slice_congr fun i _ hi => by
        rw [Nat.zero_add]
        exact getD_elfBuf (by rw [codeOff_eq]; omega)
    rw [hsame, slice_getD 0 (by rw [length_elfFields]; decide)]
    rfl
  have hclass := @field_elfBuf total elf 1 4 1 2 0 rfl rfl (by decide) (by decide)
  have hmachine := @field_elfBuf total elf 6 18 2 0x3e 0 rfl (by simp [elfFields, elfMagic])
    (by decide) (by decide)
  have hentry := @field_elfBuf total elf 8 24 8 codeBase 0 rfl (by simp [elfFields, elfMagic])
    (by decide) (by decide)
  have hphoff := @field_elfBuf total elf 9 32 8 64 0 rfl (by simp [elfFields, elfMagic])
    (by decide) (by decide)
  have hphentsize := @field_elfBuf total elf 13 54 2 56 0 rfl (by simp [elfFields, elfMagic])
    (by decide) (by decide)
  have hphnum := @field_elfBuf total elf 14 56 2 1 0 rfl (by simp [elfFields, elfMagic])
    (by decide) (by decide)
  rw [Elf64Header.ofBytes, hmagic, hclass, hmachine, hentry, hphoff, hphentsize, hphnum]
  rfl

theorem phdr_elfBuf (elf : Nat → UInt8) (htotal : total ≤ elfBufSize) :
    Elf64Phdr.ofBytes (fun i => (elfBuf elf total).getD (64 + i) 0) = compiledPhdr total := by
  have hword : total < 256 ^ 8 := Nat.lt_of_le_of_lt htotal (by decide)
  have htype := @field_elfBuf total elf 18 0 4 1 64 rfl (by simp [elfFields, elfMagic])
    (by decide) (by decide)
  have hflags := @field_elfBuf total elf 19 4 4 7 64 rfl (by simp [elfFields, elfMagic])
    (by decide) (by decide)
  have hoffset := @field_elfBuf total elf 20 8 8 0 64 rfl (by simp [elfFields, elfMagic])
    (by decide) (by decide)
  have hvaddr := @field_elfBuf total elf 21 16 8 loadVaddr 64 rfl (by simp [elfFields, elfMagic])
    (by decide) (by decide)
  have hfilesz := @field_elfBuf total elf 23 32 8 total 64 rfl (by simp [elfFields, elfMagic])
    (by decide) hword
  have hmemsz := @field_elfBuf total elf 24 40 8 total 64 rfl (by simp [elfFields, elfMagic])
    (by decide) hword
  rw [Elf64Phdr.ofBytes, htype, hflags, hoffset, hvaddr, hfilesz, hmemsz]
  rfl

/-! ## What the loader makes of it -/

/-- The buffer ends in memory, and the file is in it. -/
structure InBuffer (buf total : Nat) : Prop where
  buf_le : buf + 4096 ≤ 2 ^ 64
  headers_le : 120 ≤ total
  total_le : total ≤ 4096

theorem headerOf_elfBuf (h : InBuffer buf total) :
    headerOf (imageAt buf (elfBuf elf total)) buf = compiledHeader := by
  have hbuf := h.buf_le
  rw [← header_elfBuf elf total]
  refine Elf64Header.ofBytes_congr fun i hi => ?_
  rw [Nat.zero_add]
  exact imageAt_from .header (by omega)

theorem phdrAt_elfBuf (h : InBuffer buf total) :
    Kernel.phdrAt (imageAt buf (elfBuf elf total)) buf compiledHeader 0 = compiledPhdr total := by
  have hbuf := h.buf_le
  have hphoff : wrappingAdd buf 64 = buf + 64 := wrappingAdd_of_lt (by unfold wordSize; omega)
  have hsum : wrappingAdd (buf + 64) 0 = buf + 64 := wrappingAdd_of_lt (by unfold wordSize; omega)
  have haddr : Kernel.phdrAddr buf compiledHeader 0 = buf + 64 := by
    change wrappingAdd (wrappingAdd buf 64) (0 * 56) = _
    rw [hphoff, Nat.zero_mul, hsum]
  rw [Kernel.phdrAt, Kernel.readPhdr, haddr, ← phdr_elfBuf elf h.total_le]
  refine Elf64Phdr.ofBytes_congr fun j hj => ?_
  have hbyte : wrappingAdd (buf + 64) j = wrappingAdd buf (64 + j) := by
    rw [wrappingAdd, wrappingAdd, Nat.add_assoc]
  rw [bytesFrom, hbyte]
  exact imageAt_from (.entry 0) (by omega)

theorem fileEnd_lt (h : InBuffer buf total) : loadVaddr + total + 0xFFF < wordSize := by
  have htotal := h.total_le
  rw [loadVaddr_eq, wordSize]
  omega

/-- No address of the file is too large. -/
theorem fileEnd_lt' (h : InBuffer buf total) : loadVaddr + total < wordSize :=
  Nat.lt_of_le_of_lt (Nat.le_add_right _ _) (fileEnd_lt h)

/-- The addresses of the file. -/
def compiledRange (total : Nat) : SegmentRange := ⟨loadVaddr, loadVaddr + total⟩

theorem checked_elfBuf (h : InBuffer buf total) :
    checked (imageAt buf (elfBuf elf total)) buf total = some (compiledRange total) := by
  have hheaders := h.headers_le
  have htotal := h.total_le
  have hextend : SegmentRange.extend ⟨2 ^ 64 - 1, 0⟩ loadVaddr total =
      some (compiledRange total) := by
    have hadd : checkedAdd loadVaddr total = some (loadVaddr + total) := by
      rw [checkedAdd, if_pos (fileEnd_lt' h)]
    rw [SegmentRange.extend, hadd, Option.map_some, compiledRange]
    congr 2
  have hscan : segmentRange (imageAt buf (elfBuf elf total)) buf compiledHeader
      (List.range compiledHeader.phnum) ⟨2 ^ 64 - 1, 0⟩ = some (compiledRange total) := by
    change segmentRange _ _ _ [0] _ = _
    have htype : (compiledPhdr total).pType = ptLoad := rfl
    have hsize : ¬(compiledPhdr total).pFilesz > (compiledPhdr total).pMemsz :=
      Nat.lt_irrefl total
    rw [segmentRange, scanAt_imageAt, phdrAt_elfBuf h, if_neg (not_not.mpr htype), if_neg hsize]
    change (SegmentRange.extend ⟨2 ^ 64 - 1, 0⟩ loadVaddr total).bind _ = _
    rw [hextend, Option.bind_some, segmentRange]
  rw [checked, headerOf_elfBuf h, if_neg ?_, hscan]
  · rfl
  · rw [not_or, not_not]
    exact ⟨by unfold headerSize; omega, rfl⟩

/-- The file fills one page, behind which the stack begins. -/
theorem pageDown_total (h : InBuffer buf total) :
    pageDown (loadVaddr + total + 0xFFF) = stackBase := by
  have hheaders := h.headers_le
  have htotal := h.total_le
  have hbase : stackBase = 0x200000001000 := rfl
  rw [pageDown, loadVaddr_eq, hbase]
  omega

theorem loadEnd_compiled (h : InBuffer buf total) : (compiledRange total).loadEnd = stackBase := by
  have hadd : wrappingAdd (loadVaddr + total) 0xFFF = loadVaddr + total + 0xFFF :=
    wrappingAdd_of_lt (fileEnd_lt h)
  rw [SegmentRange.loadEnd, compiledRange, hadd, pageDown_total h]

theorem plan_elfBuf (h : InBuffer buf total) :
    plan (imageAt buf (elfBuf elf total)) buf compiledHeader = [(0, loadVaddr)] := by
  have hpages : pagesOfEntry (imageAt buf (elfBuf elf total)) buf compiledHeader 0 =
      [loadVaddr] := by
    have htype : (compiledPhdr total).pType = ptLoad := rfl
    have hadd : wrappingAdd loadVaddr total = loadVaddr + total := wrappingAdd_of_lt (fileEnd_lt' h)
    have hround : wrappingAdd (loadVaddr + total) 0xFFF = loadVaddr + total + 0xFFF :=
      wrappingAdd_of_lt (fileEnd_lt h)
    rw [pagesOfEntry, pagesOfHeader, phdrAt_elfBuf h, if_pos htype, Kernel.segmentPages]
    change pagesFrom (pageDown loadVaddr)
      (pageDown (wrappingAdd (wrappingAdd loadVaddr total) 0xFFF)) = _
    rw [hadd, hround, pageDown_total h]
    decide
  change List.flatMap _ [0] = _
  simp only [List.flatMap_cons, List.flatMap_nil, hpages]
  rfl

/-- The pages of the new process: the one of the file, and those of the stack. -/
def compiledSources (elf : Nat → UInt8) (buf total : Nat) : List Source :=
  segmentSource (imageAt buf (elfBuf elf total)) buf compiledHeader (0, loadVaddr) ::
    (Kernel.stackPages stackBase).map stackSource

theorem sources_elfBuf (h : InBuffer buf total) :
    sources (imageAt buf (elfBuf elf total)) buf compiledHeader (compiledRange total) =
      compiledSources elf buf total := by
  rw [sources, plan_elfBuf h, loadEnd_compiled h]
  rfl

theorem user_of_compiled {s : Source} (h : InBuffer buf total)
    (hs : s ∈ compiledSources elf buf total) : s.user = true := by
  rcases List.mem_cons.mp hs with rfl | hs
  · have hflags : (compiledPhdr total).pFlags = 7 := rfl
    rw [segmentSource, phdrAt_elfBuf h]
    dsimp only
    rw [hflags]
    decide
  · obtain ⟨va, -, rfl⟩ := List.mem_map.mp hs
    rfl

/-- Each byte of the file is one of the buffer. -/
theorem bytes_of_file (h : InBuffer buf total) {j : Nat} (hj : j < total) :
    (segmentSource (imageAt buf (elfBuf elf total)) buf compiledHeader (0, loadVaddr)).bytes j =
      some ((elfBuf elf total).getD j 0) := by
  have hbuf := h.buf_le
  have htotal := h.total_le
  have hinPage : wrappingSub loadVaddr loadVaddr = 0 := by decide
  have hcopied : j < min 0x1000 (total - 0) := by omega
  have haddr : wrappingAdd (wrappingAdd buf 0) 0 = buf := by
    have hadd : wrappingAdd buf 0 = buf := wrappingAdd_of_lt (by unfold wordSize; omega)
    rw [hadd, hadd]
  rw [segmentSource, phdrAt_elfBuf h]
  change (if j < min 0x1000 (total - wrappingSub loadVaddr loadVaddr) then
    some (bytesFrom ((imageAt buf (elfBuf elf total)).found (.copy 0 loadVaddr))
      (wrappingAdd (wrappingAdd buf 0) (wrappingSub loadVaddr loadVaddr)) j)
    else none) = _
  rw [hinPage, if_pos hcopied, haddr]
  exact congrArg some (imageAt_from (.copy 0 loadVaddr) (by omega))

/-- Behind the headers the buffer is as the compiler has left it. -/
theorem getD_behind {i : Nat} (hi : codeOff ≤ i) (hlt : i < elfBufSize) :
    (elfBuf elf total).getD i 0 = elf i := by
  have hslice : (elfBuf elf total).getD i 0 = writeElfHeaders elf total (0 + i) := by
    rw [elfBuf, slice]
    simp [hlt]
  rw [hslice, Nat.zero_add, writeElfHeaders]
  refine blit_of_outside _ _ _ _ (Or.inr ?_)
  rw [length_elfFields]
  exact hi

theorem mem_of_lastSource {s : Source} {n n' : Nat} (h : lastSource virt n l = some (s, n')) :
    s ∈ l := by
  induction l generalizing n with
  | nil => cases h
  | cons s₀ rest ih =>
      rw [lastSource] at h
      cases hrest : lastSource virt (n + 1) rest with
      | some found =>
          rw [hrest] at h
          cases h
          exact List.mem_cons_of_mem s₀ (ih hrest)
      | none =>
          rw [hrest] at h
          dsimp only at h
          split at h
          · cases h
            exact List.mem_cons_self
          · cases h

theorem exists_lastSource {s : Source} (hs : s ∈ l) (hpage : pageNo s.va = pageNo virt) (n : Nat) :
    ∃ s' n', lastSource virt n l = some (s', n') := by
  induction l generalizing n with
  | nil => exact absurd hs List.not_mem_nil
  | cons s₀ rest ih =>
      rw [lastSource]
      cases hrest : lastSource virt (n + 1) rest with
      | some found => exact ⟨found.1, found.2, rfl⟩
      | none =>
          rcases List.mem_cons.mp hs with rfl | hs
          · exact ⟨s, n, if_pos hpage⟩
          · obtain ⟨s', n', hfound⟩ := ih hs (n + 1)
            exact absurd (hfound.symm.trans hrest) (Option.some_ne_none _)

/-- One of the pages is there for each address of the program. -/
theorem exists_compiled (elf : Nat → UInt8) (buf total : Nat) (hlow : loadVaddr ≤ virt)
    (hhigh : virt < stackTop) :
    ∃ s n, lastSource virt 0 (compiledSources elf buf total) = some (s, n) := by
  have hbase : stackBase = 0x200000001000 := rfl
  have htop : stackTop = 0x200000011000 := rfl
  rw [loadVaddr_eq] at hlow
  rw [htop] at hhigh
  by_cases hfile : virt < stackBase
  · refine exists_lastSource List.mem_cons_self ?_ 0
    rw [segmentSource, pageNo, pageNo, loadVaddr_eq]
    rw [hbase] at hfile
    dsimp only
    omega
  · rw [hbase] at hfile
    have hadd : wrappingAdd stackBase ((virt - 0x200000001000) / 4096 * 0x1000) =
        0x200000001000 + (virt - 0x200000001000) / 4096 * 0x1000 :=
      wrappingAdd_of_lt (by rw [hbase, wordSize]; omega)
    have hmem : wrappingAdd stackBase ((virt - 0x200000001000) / 4096 * 0x1000) ∈
        Kernel.stackPages stackBase :=
      List.mem_map_of_mem (List.mem_range.mpr (by omega))
    refine exists_lastSource (List.mem_cons_of_mem _ (List.mem_map_of_mem hmem)) ?_ 0
    rw [stackSource, hadd, pageNo, pageNo]
    dsimp only
    omega

/-- The file's page is the one for its addresses. -/
theorem last_of_file (elf : Nat → UInt8) (buf total : Nat) {j : Nat} (hj : j < 4096) :
    lastSource (loadVaddr + j) 0 (compiledSources elf buf total) =
      some
        (segmentSource (imageAt buf (elfBuf elf total)) buf compiledHeader (0, loadVaddr), 0) := by
  have hno : pageNo (loadVaddr + j) = pageNo loadVaddr := by
    rw [pageNo, pageNo, loadVaddr_eq]
    omega
  have hstack : ∀ va ∈ Kernel.stackPages stackBase, pageNo va ≠ pageNo loadVaddr := by decide
  have hnone : lastSource (loadVaddr + j) 1 ((Kernel.stackPages stackBase).map stackSource) =
      none := by
    refine lastSource_eq_none fun s hs => ?_
    obtain ⟨va, hva, rfl⟩ := List.mem_map.mp hs
    rw [hno]
    exact hstack va hva
  rw [compiledSources, lastSource, hnone]
  exact if_pos hno.symm

/-! ## The process -/

/-- User space may read and write each address of a program, and no two of them are one place. -/
structure OwnsPages (m : Nat → UInt8) (root : Nat) : Prop where
  access : ∀ virt, loadVaddr ≤ virt → virt < stackTop →
    ∃ a, translate m root virt = some a ∧ a.user = true ∧ a.writable = true
  apart : ∀ virt virt' a a', loadVaddr ≤ virt → virt < stackTop → loadVaddr ≤ virt' →
    virt' < stackTop → translate m root virt = some a → translate m root virt' = some a' →
    a.phys = a'.phys → virt = virt'

theorem canonical_of_lt (hhigh : virt < stackTop) : Canonical virt := by
  have htop : stackTop = 0x200000011000 := rfl
  rw [htop] at hhigh
  exact Or.inl (by omega)

section Executed

variable {k' : Kernel} {g' : Ledger} {log stack : List Page}

theorem Executed.ownsPages (h : Executed L (imageAt buf (elfBuf elf total)) buf compiledHeader
      (compiledRange total) slot k k' g g' log stack)
    (hk : Holds L k g) (hbuf : InBuffer buf total) : OwnsPages k'.mem (L.processPml4 slot) := by
  -- The page behind an address, with the frame that it has.
  have hpage : ∀ virt, loadVaddr ≤ virt → virt < stackTop → ∃ e ∈ log ++ stack,
      pageNo e.va = pageNo virt ∧ Aligned e.frame ∧ e.writable = true ∧ e.user = true ∧
      translate k'.mem (L.processPml4 slot) virt =
        some ⟨e.frame + virt % 4096, e.writable, e.user⟩ := by
    intro virt hlow hhigh
    obtain ⟨s, n, hlast⟩ := exists_compiled elf buf total hlow hhigh
    have huser := user_of_compiled hbuf (mem_of_lastSource hlast)
    rw [← sources_elfBuf hbuf] at hlast
    obtain ⟨front, e, back, hlog, -, hmatch, hno, haligned, haccess⟩ :=
      h.page hk (canonical_of_lt hhigh) hlast
    exact ⟨e, hlog ▸ List.mem_append_right _ List.mem_cons_self, hno, haligned, hmatch.writable,
      hmatch.user.trans huser, haccess⟩
  refine ⟨fun virt hlow hhigh => ?_, ?_⟩
  · obtain ⟨e, -, -, -, hwrite, huser, haccess⟩ := hpage virt hlow hhigh
    exact ⟨_, haccess, huser, hwrite⟩
  · intro virt virt' a a' hlow hhigh hlow' hhigh' ha ha' hphys
    obtain ⟨e, he, hno, haligned, -, -, haccess⟩ := hpage virt hlow hhigh
    obtain ⟨e', he', hno', haligned', -, -, haccess'⟩ := hpage virt' hlow' hhigh'
    rw [← Option.some.inj (haccess.symm.trans ha),
      ← Option.some.inj (haccess'.symm.trans ha')] at hphys
    dsimp only at hphys
    unfold Aligned at haligned haligned'
    have hframe : e.frame = e'.frame := by omega
    have hsame : e = e' := List.inj_on_of_nodup_map h.added.distinct he he' hframe
    rw [hsame, hno'] at hno
    have htop : stackTop = 0x200000011000 := rfl
    rw [htop] at hhigh hhigh'
    unfold pageNo at hno
    omega

/-- The file is where the compiler has put its code. -/
theorem Executed.file (h : Executed L (imageAt buf (elfBuf elf total)) buf compiledHeader
      (compiledRange total) slot k k' g g' log stack)
    (hk : Holds L k g) (hhead : (k.table slot).framesHead = 0) (hbuf : InBuffer buf total) {j : Nat}
    (hj : j < total) :
    ∃ a, translate k'.mem (L.processPml4 slot) (loadVaddr + j) = some a ∧ a.user = true ∧
      k'.mem a.phys = (elfBuf elf total).getD j 0 := by
  have htotal := hbuf.total_le
  have hplace : (loadVaddr + j) % 4096 = j := by
    rw [loadVaddr_eq]
    omega
  have hhigh : loadVaddr + j < stackTop := by
    have htop : stackTop = 0x200000011000 := rfl
    rw [htop, loadVaddr_eq]
    omega
  have hpage : j < 4096 := Nat.lt_of_lt_of_le hj htotal
  have hlast := last_of_file elf buf total hpage
  have huser := user_of_compiled hbuf (mem_of_lastSource hlast)
  rw [← sources_elfBuf hbuf] at hlast
  have hcanonical : Canonical (loadVaddr + j) := canonical_of_lt hhigh
  obtain ⟨a, link, haccess, -, hright, hbyte, -⟩ := h.access hk hhead hcanonical hlast
  rw [hplace, bytes_of_file hbuf hj, Option.getD_some] at hbyte
  exact ⟨a, haccess, hright.trans huser, hbyte⟩

/-- A process that is started as its entry says has the code where the compiler has it run. -/
theorem Executed.boots (h : Executed L (imageAt buf (elfBuf c.elf (codeOff + c.clen))) buf
      compiledHeader (compiledRange (codeOff + c.clen)) slot k k' g g' log stack)
    (hk : Holds L k g) (hhead : (k.table slot).framesHead = 0)
    (hbuf : InBuffer buf (codeOff + c.clen)) {loadBase layerSize tick : Nat} {m : Barrel.Machine}
    (hstarts : StartsAs (Kernel.finishElf L slot codeBase loadBase stackBase k')
      (provisionPcbElf slot codeBase (L.processPml4 slot) (wrappingAdd stackBase 0x10000) loadBase
        layerSize tick) m) :
    m.Boots c where
  code := by
    rw [slice, slice]
    refine List.map_congr_left fun i hi => ?_
    have hbehind : codeOff + i < codeOff + c.clen :=
      Nat.add_lt_add_left (List.mem_range.mp hi) codeOff
    obtain ⟨a, haccess, huser, hbyte⟩ := h.file hk hhead hbuf hbehind
    rw [Nat.add_assoc, hstarts.mem _ a haccess huser]
    exact hbyte.trans (getD_behind (Nat.le_add_right _ _) (hbehind.trans_le hbuf.total_le))
  rip := hstarts.rip
  rsp := hstarts.rsp
  out := hstarts.out

end Executed

/-- A process that has the code of a tree prints what the tree prints. -/
theorem exits_of_boots {p : Barrel.Stmt} {m : Barrel.Machine} {kern : Barrel.Kernel}
    {out : List UInt8} (hcode : c.code = X86.bytes (Barrel.programCode c.names p))
    (htargets : p.targets ⊆ c.names) (hready : c.Ready) (hboots : m.Boots c)
    (hprints : p.Prints out) : m.Exits kern out := by
  have hlen : X86.len (Barrel.programCode c.names p) = c.clen := by
    rw [X86.len, ← hcode, c.length_code]
  have hfits : Barrel.Fits (Barrel.programCode c.names p) := by
    rw [Barrel.Fits, hlen]
    exact hready.room
  have hV : c.names.length ≤ Barrel.maxLocals := by
    rw [Comp.names, List.length_map]
    exact hready.good.vars_length
  have hat : m.At (Barrel.programCode c.names p) 0 := by
    refine ⟨?_, hboots.rip⟩
    rw [X86.Loaded, hlen, hboots.code]
    exact hcode
  exact Barrel.Machine.exits_of_prints hfits hV htargets hat hboots.rsp hboots.out hprints

/-- A program that the compiler accepts, in any state that sparing steps lead to, is the text of
one tree, and the process that is started with it has pages of its own for its code and its stack
and prints what the tree prints, and then exits. -/
theorem runCompiled_prints {h : List Action} {n : Nat} {src : List UInt8} (boot : Booted L k₀)
    (run : Run (SparingStep L) k₀ h k) (running : k.Running) (hbuf : buf + 4096 ≤ 2 ^ 64)
    (hcompile : Barrel.compile n src elf = .ok c) (herr : c.err = 0)
    (hslot : (k.runCompiled L buf c).1 = (slot : Nat)) :
    ∃ p, Barrel.Denotes src p ∧ (∀ p', Barrel.Denotes src p' → p' = p) ∧
      OwnsPages (k.runCompiled L buf c).2.mem
        ((k.runCompiled L buf c).2.table slot).pageTableBase ∧
      ∀ (kern : Barrel.Kernel) (m : Barrel.Machine),
        StartsAs (k.runCompiled L buf c).2 ((k.runCompiled L buf c).2.table slot) m →
        ∀ out, p.Prints out → m.Exits kern out := by
  obtain ⟨p, hparse, hcode, htargets, hready⟩ := Barrel.compile_sound hcompile herr
  have hin : InBuffer buf (codeOff + c.clen) := ⟨hbuf, Nat.le_add_right _ _, hready.room⟩
  have hrun : k.runCompiled L buf c =
      k.exec L (imageAt buf (elfBuf c.elf (codeOff + c.clen))) buf (codeOff + c.clen) :=
    if_neg (not_not.mpr herr)
  rw [hrun] at hslot ⊢
  obtain ⟨g, hg⟩ := holds_of_run boot run
  obtain ⟨range, k₁, k₂, g₂, log, stack, hcheck, hk, hhead, hdone, hexec⟩ :=
    hg.exec_executed running hslot
  rw [headerOf_elfBuf hin] at hdone hexec
  obtain rfl := Option.some.inj ((checked_elfBuf hin).symm.trans hcheck)
  rw [hexec, finishElf_table, loadEnd_compiled hin]
  refine ⟨p, ⟨n, hparse⟩, fun p' hp' => hp'.unique ⟨n, hparse⟩, hdone.ownsPages hk hin, ?_⟩
  intro kern m hstarts out hprints
  exact exits_of_boots hcode htargets hready (hdone.boots hk hhead hin hstarts) hprints

/-! ## A program of one statement -/

/-- It prints 7. -/
def sevenText : List UInt8 := "println 7;".toUTF8.toList

theorem pages_elfBuf (h : InBuffer buf total) :
    execPages (imageAt buf (elfBuf elf total)) buf compiledHeader (compiledRange total) =
      loadVaddr :: Kernel.stackPages stackBase := by
  rw [execPages, plan_elfBuf h, loadEnd_compiled h]
  rfl

/-- The first state has room for every program. -/
theorem exec_elfBuf (h : InBuffer buf total) :
    ((started 64).exec Layout.packed (imageAt buf (elfBuf elf total)) buf total).1 =
      ((1 : Pid) : Nat) := by
  have hholds := @started_holds 64 (by decide)
  refine hholds.exec_value rfl (checked_elfBuf h) (by decide +kernel) ?_
  rw [headerOf_elfBuf h, pages_elfBuf h]
  exact hholds.enough_iff.mpr ⟨20, by decide +kernel, by decide⟩

/-- Its tree. -/
def sevenTree : Barrel.Stmt := .seq (.print (.num 7) true) .skip

theorem prints_seven : sevenTree.Prints [ch '7', ch '\n'] := by
  have hexec : (match sevenTree.exec 20 false Barrel.noVars with
      | .ok (_, _, out) => out == [ch '7', ch '\n']
      | .error _ => false) = true := by decide +kernel
  cases hr : sevenTree.exec 20 false Barrel.noVars with
  | error stop =>
      rw [hr] at hexec
      cases hexec
  | ok r =>
      obtain ⟨sig, σ, out⟩ := r
      rw [hr] at hexec
      exact ⟨20, sig, σ, by rw [hr, beq_iff_eq.mp hexec]⟩

theorem runCompiled_prints_seven :
    ∃ c, Barrel.compile 60 sevenText (fun _ => 0) = .ok c ∧
      ∀ (kern : Barrel.Kernel) (m : Barrel.Machine),
        StartsAs ((started 64).runCompiled Layout.packed 0x8000 c).2
          (((started 64).runCompiled Layout.packed 0x8000 c).2.table 1) m →
        m.Exits kern [ch '7', ch '\n'] := by
  have haccepts : (match Barrel.compile 60 sevenText (fun _ => 0) with
      | .ok c => c.err == 0 && decide (codeOff + c.clen ≤ 4096)
      | .error _ => false) = true := by decide +kernel
  have hparse : Barrel.Parse.program 60 sevenText = some sevenTree := by decide +kernel
  cases hc : Barrel.compile 60 sevenText (fun _ => 0) with
  | error fault =>
      rw [hc] at haccepts
      cases haccepts
  | ok c =>
      rw [hc] at haccepts
      obtain ⟨herr, hroom⟩ := Bool.and_eq_true_iff.mp haccepts
      have herr := beq_iff_eq.mp herr
      have hin : InBuffer 0x8000 (codeOff + c.clen) :=
        ⟨by decide, Nat.le_add_right _ _, of_decide_eq_true hroom⟩
      have hslot : ((started 64).runCompiled Layout.packed 0x8000 c).1 = ((1 : Pid) : Nat) := by
        rw [Kernel.runCompiled, if_neg (not_not.mpr herr)]
        exact exec_elfBuf hin
      obtain ⟨p, -, hunique, -, hprints⟩ :=
        runCompiled_prints (booted_started (by decide)) .nil rfl (by decide) hc herr hslot
      obtain rfl := hunique _ ⟨60, hparse⟩
      exact ⟨c, rfl, fun kern m hstarts => hprints kern m hstarts _ prints_seven⟩

end PureOS.Memory
