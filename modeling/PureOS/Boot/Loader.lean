import Mathlib.Data.List.Basic
import PureOS.Foundation.Paged
import PureOS.Foundation.Word

set_option autoImplicit false

/-!
# Boot: the loader of the kernel image (`uefi_boot/src/main.rs`)

`load_elf_segments` over an image of any bytes.  The firmware that hands out pages is a
parameter; what the loader reads of the image and where it writes is kept next to the memory.
-/

namespace PureOS.Boot

open PureOS.Foundation

/-- `Status::LOAD_ERROR`. -/
def loadError : Nat := 2 ^ 63 + 1

/-- The firmware as the loader calls it, with a state of its own.  `taken` are the addresses that
are not free; pages are given out where they are free, below the end of memory. -/
structure Firmware (φ : Type) where
  allocatePages : φ → Nat → Nat → Except Nat φ
  taken : φ → Nat → Prop
  free : ∀ s s' base pages, allocatePages s base pages = .ok s' →
    ∀ a, base ≤ a → a < base + pages * 4096 → ¬taken s a
  takes : ∀ s s' base pages, allocatePages s base pages = .ok s' →
    ∀ a, taken s' a ↔ taken s a ∨ base ≤ a ∧ a < base + pages * 4096
  fits : ∀ s s' base pages, allocatePages s base pages = .ok s' → base + pages * 4096 < 2 ^ 64

/-- The bytes of the image, and what lies at the offsets behind them. -/
structure Image where
  bytes : List UInt8
  beyond : Nat → UInt8

namespace Image

/-- The byte at an offset. -/
def byteAt (image : Image) (off : Nat) : UInt8 := image.bytes.getD off (image.beyond off)

/-- The bytes from an offset on. -/
def «from» (image : Image) (off : Nat) : Nat → UInt8 := fun i => image.byteAt (wrappingAdd off i)

end Image

/-- `Elf64Header`, with the fields that the loader reads. -/
structure Elf64Header where
  ident : List UInt8
  machine : Nat
  entry : Nat
  phoff : Nat
  phentsize : Nat
  phnum : Nat

/-- `Elf64ProgramHeader`, with the fields that the loader reads. -/
structure Elf64ProgramHeader where
  pType : Nat
  offset : Nat
  vaddr : Nat
  paddr : Nat
  filesz : Nat
  memsz : Nat

/-- The header whose bytes are given. -/
def Elf64Header.ofBytes (bytes : Nat → UInt8) : Elf64Header where
  ident := slice bytes 0 16
  machine := readLE bytes 18 2
  entry := readLE bytes 24 8
  phoff := readLE bytes 32 8
  phentsize := readLE bytes 54 2
  phnum := readLE bytes 56 2

/-- The program header whose bytes are given. -/
def Elf64ProgramHeader.ofBytes (bytes : Nat → UInt8) : Elf64ProgramHeader where
  pType := readLE bytes 0 4
  offset := readLE bytes 8 8
  vaddr := readLE bytes 16 8
  paddr := readLE bytes 24 8
  filesz := readLE bytes 32 8
  memsz := readLE bytes 40 8

/-- The check of the header. -/
def Elf64Header.ok (header : Elf64Header) : Bool :=
  header.ident.take 4 = [0x7f, 0x45, 0x4c, 0x46] ∧ header.ident.getD 4 0 = 2 ∧
    header.ident.getD 5 0 = 1 ∧ header.machine = 0x3e

namespace Elf64ProgramHeader

/-- `PT_LOAD`. -/
def isLoad (ph : Elf64ProgramHeader) : Bool := ph.pType = 1

/-- `load_addr`. -/
def loadAddr (ph : Elf64ProgramHeader) : Nat := if ph.paddr ≠ 0 then ph.paddr else ph.vaddr

/-- `page_base`. -/
def pageBase (ph : Elf64ProgramHeader) : Nat := pageDown ph.loadAddr

/-- `page_offset`. -/
def pageOffset (ph : Elf64ProgramHeader) : Nat := ph.loadAddr - ph.pageBase

/-- `pages`: the sum wraps as it does in a release build. -/
def pages (ph : Elf64ProgramHeader) : Nat := (ph.pageOffset + ph.memsz + 4096 - 1) % 2 ^ 64 / 4096

end Elf64ProgramHeader

namespace Image

/-- The header of an image. -/
def header (image : Image) : Elf64Header := .ofBytes (image.from 0)

/-- `ph_offset`: the product of the two small fields does not wrap. -/
def phOffset (image : Image) (index : Nat) : Nat :=
  wrappingAdd image.header.phoff (index * image.header.phentsize)

/-- The program header with an index. -/
def programHeader (image : Image) (index : Nat) : Elf64ProgramHeader :=
  .ofBytes (image.from (image.phOffset index))

end Image

/-- The firmware and the memory, the offsets and lengths of what was read of the image, the
addresses and lengths of what was written, and the pages that were given out. -/
structure Loader (φ : Type) where
  firmware : φ
  mem : Nat → UInt8
  reads : List (Nat × Nat)
  writes : List (Nat × Nat)
  granted : List (Nat × Nat)

/-- Write `n` bytes from an address on, around the end of memory. -/
def store (mem : Nat → UInt8) (addr n : Nat) (src : Nat → UInt8) : Nat → UInt8 := fun a =>
  if a < 2 ^ 64 ∧ (a + 2 ^ 64 - addr) % 2 ^ 64 < n then src ((a + 2 ^ 64 - addr) % 2 ^ 64)
  else mem a

namespace Loader

variable {φ : Type}

/-- The loader reads a stretch of the image. -/
def noteRead (s : Loader φ) (off n : Nat) : Loader φ := { s with reads := (off, n) :: s.reads }

/-- The bytes of the file, and zeros behind them. -/
def fill (s : Loader φ) (image : Image) (ph : Elf64ProgramHeader) : Loader φ :=
  let s := { s.noteRead ph.offset ph.filesz with
    mem := store s.mem ph.loadAddr ph.filesz (image.from ph.offset)
    writes := (ph.loadAddr, ph.filesz) :: s.writes }
  if ph.memsz > ph.filesz then
    { s with
      mem := store s.mem (wrappingAdd ph.loadAddr ph.filesz) (ph.memsz - ph.filesz) fun _ => 0
      writes := (wrappingAdd ph.loadAddr ph.filesz, ph.memsz - ph.filesz) :: s.writes }
  else s

/-- The body of the loop of `load_elf_segments`: the program header that was loaded, if it is
a `PT_LOAD`. -/
def loadSegment (fw : Firmware φ) (image : Image) (index : Nat) (s : Loader φ) :
    Except Nat (Option Elf64ProgramHeader) × Loader φ :=
  if wrappingAdd (image.phOffset index) 56 > image.bytes.length then (.error loadError, s)
  else
    let s := s.noteRead (image.phOffset index) 56
    let ph := image.programHeader index
    if ¬ph.isLoad then (.ok none, s)
    else if ph.filesz > ph.memsz then (.error loadError, s)
    else if wrappingAdd ph.offset ph.filesz > image.bytes.length then (.error loadError, s)
    else
      match fw.allocatePages s.firmware ph.pageBase ph.pages with
      | .error status => (.error status, s)
      | .ok firmware =>
          (.ok (some ph), { s with
            firmware := firmware
            granted := (ph.pageBase, ph.pages * 4096) :: s.granted }.fill image ph)

/-- The loop, with `lowest_base` and `highest_end`. -/
def loadLoop (fw : Firmware φ) (image : Image) :
    List Nat → Nat → Nat → Loader φ → Except Nat (Nat × Nat) × Loader φ
  | [], lowest, highest, s => (.ok (lowest, highest), s)
  | index :: rest, lowest, highest, s =>
      match s.loadSegment fw image index with
      | (.error status, s) => (.error status, s)
      | (.ok none, s) => loadLoop fw image rest lowest highest s
      | (.ok (some ph), s) =>
          loadLoop fw image rest (min lowest ph.pageBase)
            (max highest (wrappingAdd ph.pageBase (ph.pages * 4096))) s

/-- `LoadedKernel`. -/
structure LoadedKernel where
  base : Nat
  entry : Nat
  size : Nat

/-- `load_elf_segments`. -/
def loadElfSegments (fw : Firmware φ) (image : Image) (s : Loader φ) :
    Except Nat LoadedKernel × Loader φ :=
  if image.bytes.length < 64 then (.error loadError, s)
  else
    let s := s.noteRead 0 64
    if ¬image.header.ok then (.error loadError, s)
    else if image.header.phentsize < 56 then (.error loadError, s)
    else
      match s.loadLoop fw image (List.range image.header.phnum) (2 ^ 64 - 1) 0 with
      | (.error status, s) => (.error status, s)
      | (.ok (lowest, highest), s) =>
          if lowest = 2 ^ 64 - 1 then (.error loadError, s)
          else
            (.ok ⟨lowest, image.header.entry, (highest + 2 ^ 64 - lowest) % 2 ^ 64⟩, s)

end Loader

end PureOS.Boot
