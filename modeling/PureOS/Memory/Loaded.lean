import PureOS.Memory.Pos
import PureOS.Memory.Stored

set_option autoImplicit false

/-!
# Memory: the bytes of a loaded image

Where the bytes of a new process come from.  Each page that the loader maps gets a frame of its
own, with the bytes that are copied into it and, in front of what is left, the link of the list
of frames; of several pages at one address the last one counts.
-/

namespace PureOS.Memory

open PureOS.Foundation PureOS.Process

/-! ## What should be there -/

section Segments

variable (image : Image) (dataPtr : Nat) (hdr : Elf64Header)

/-- An address of the segment with the number `i`. -/
def InSegment (i virt : Nat) : Prop :=
  i < hdr.phnum ∧ (Kernel.phdrAt image dataPtr hdr i).pType = ptLoad ∧
    (Kernel.phdrAt image dataPtr hdr i).pVaddr ≤ virt ∧
    virt < (Kernel.phdrAt image dataPtr hdr i).pVaddr + (Kernel.phdrAt image dataPtr hdr i).pMemsz

/-- A segment with an address in the page of `virt` may be written to. -/
def WritablePage (virt : Nat) : Prop :=
  ∃ i w, InSegment image dataPtr hdr i w ∧ w / 4096 = virt / 4096 ∧
    (Kernel.phdrAt image dataPtr hdr i).pFlags.testBit 1 = true

/-- The byte of the segment `i` at an address: from the file, and zero behind that. -/
def segmentByte (i virt : Nat) : UInt8 :=
  let ph := Kernel.phdrAt image dataPtr hdr i
  if virt - ph.pVaddr < ph.pFilesz then
    bytesFrom (image.found (.copy i (pageDown virt))) dataPtr (ph.pOffset + (virt - ph.pVaddr))
  else 0

/-- The byte of the segment is there, for user space, and may be written to if a segment in its
page may be. -/
def LoadedAt (m : Nat → UInt8) (root i virt : Nat) : Prop :=
  ∃ a, translate m root virt = some a ∧ m a.phys = segmentByte image dataPtr hdr i virt ∧
    a.user = true ∧ (a.writable = true ↔ WritablePage image dataPtr hdr virt)

end Segments

/-! ## What is mapped -/

/-- A page that the loader maps: its right for user space, and the bytes that are copied. -/
structure Source where
  va : Nat
  user : Bool
  bytes : Nat → Option UInt8

/-- The page of a segment. -/
def segmentSource (image : Image) (dataPtr : Nat) (hdr : Elf64Header) (item : Nat × Nat) : Source :=
  let ph := Kernel.phdrAt image dataPtr hdr item.1
  let inPage := wrappingSub item.2 ph.pVaddr
  { va := item.2
    user := ph.pFlags.testBit 1
    bytes := fun j =>
      if j < min 0x1000 (ph.pFilesz - inPage) then
        some (bytesFrom (image.found (.copy item.1 item.2))
          (wrappingAdd (wrappingAdd dataPtr ph.pOffset) inPage) j)
      else none }

/-- The page of a stack. -/
def stackSource (va : Nat) : Source := ⟨va, true, fun _ => none⟩

/-- The pages in the order in which they are mapped. -/
def sources (image : Image) (dataPtr : Nat) (hdr : Elf64Header) (range : SegmentRange) :
    List Source :=
  (plan image dataPtr hdr).map (segmentSource image dataPtr hdr) ++
    (Kernel.stackPages range.loadEnd).map stackSource

/-- The last of some pages for an address, and its number from `n` on. -/
def lastSource (virt : Nat) : Nat → List Source → Option (Source × Nat)
  | _, [] => none
  | n, s :: rest =>
      match lastSource virt (n + 1) rest with
      | some found => some found
      | none => if pageNo s.va = pageNo virt then some (s, n) else none

/-- The pages that an image asks for, if it is not refused. -/
def execSources (image : Image) (dataPtr size : Nat) : List Source :=
  match checked image dataPtr size with
  | none => []
  | some range => sources image dataPtr (headerOf image dataPtr) range

/-- No link is left at the place `j` of the page with the number `n`. -/
def Unlinked (n j : Nat) : Prop := n = 0 ∨ j = 0 ∨ 7 ≤ j

/-- Of some pages the last one for an address is for user space and has the right byte, as far as
no link is left there. -/
structure Placed (image : Image) (dataPtr : Nat) (hdr : Elf64Header) (l : List Source)
    (i virt : Nat) : Prop where
  canonical : Canonical virt
  last : ∀ s n, lastSource virt 0 l = some (s, n) →
    s.user = true ∧ WritablePage image dataPtr hdr virt ∧
    (∀ b, s.bytes (virt % 4096) = some b → b = segmentByte image dataPtr hdr i virt) ∧
    (s.bytes (virt % 4096) = none → Unlinked n (virt % 4096) →
      segmentByte image dataPtr hdr i virt = 0)

/-- One of the pages is for the address, and no link is left there. -/
def Clean (l : List Source) (virt : Nat) : Prop :=
  ∃ s n, lastSource virt 0 l = some (s, n) ∧
    (s.bytes (virt % 4096) = none → Unlinked n (virt % 4096))

variable {L : Layout} {k k' k₀ k₁ : Kernel} {g g' : Ledger} {slot : Pid} {m : Nat → UInt8}
variable {image : Image} {dataPtr size virt va root n n' : Nat} {hdr : Elf64Header}
variable {range : SegmentRange} {log stack : List Page} {l : List Source} {s : Source}

/-! ## Sources and records -/

/-- A record of the page that the loader mapped. -/
structure Matches (s : Source) (e : Page) : Prop where
  va : e.va = s.va
  writable : e.writable = true
  user : e.user = s.user
  content : ∀ j < 4096, e.content j = (s.bytes j).getD (linkByte e.link j)

theorem Loads.matches {item : Nat × Nat} {e : Page} (h : Loads image dataPtr hdr item e) :
    Matches (segmentSource image dataPtr hdr item) e := by
  refine ⟨h.va, h.writable, h.user, fun j hj => ?_⟩
  rw [h.content j hj, loadedByte, segmentSource]
  dsimp only
  split <;> rfl

theorem PagesOf.matches {pages : List Nat} (h : PagesOf (fun _ _ k => k) true true pages stack) :
    List.Forall₂ Matches (pages.map stackSource) stack := by
  rw [← h.pages, List.map_map, List.forall₂_map_left_iff, List.forall₂_same]
  intro e he
  exact ⟨rfl, (h.rights e he).1, (h.rights e he).2, h.filled _ fillsWith_nothing e he⟩

theorem Executed.matches (h : Executed L image dataPtr hdr range slot k k' g g' log stack) :
    List.Forall₂ Matches (sources image dataPtr hdr range) (log ++ stack) := by
  refine List.rel_append ?_ h.stacked.matches
  rw [List.forall₂_map_left_iff]
  exact h.loads.imp fun _ _ => Loads.matches

theorem lastSource_eq_none (h : ∀ s ∈ l, pageNo s.va ≠ pageNo virt) :
    lastSource virt n l = none := by
  induction l generalizing n with
  | nil => rfl
  | cons s rest ih =>
      rw [lastSource, ih fun s' hs' => h s' (List.mem_cons_of_mem s hs')]
      exact if_neg (h s List.mem_cons_self)

theorem not_mem_of_lastSource (h : List.Forall₂ Matches l log)
    (hnone : lastSource virt n l = none) : ∀ e ∈ log, pageNo e.va ≠ pageNo virt := by
  induction h generalizing n with
  | nil => exact fun e he => absurd he List.not_mem_nil
  | @cons s e l log hmatch _ ih =>
      rw [lastSource] at hnone
      cases hrest : lastSource virt (n + 1) l with
      | some found =>
          rw [hrest] at hnone
          cases hnone
      | none =>
          rw [hrest] at hnone
          intro e' he'
          rcases List.mem_cons.mp he' with rfl | he'
          · intro hsame
            rw [hmatch.va] at hsame
            exact absurd ((if_pos hsame).symm.trans hnone) (Option.some_ne_none _)
          · exact ih hrest e' he'

/-- The last page for an address in a record. -/
theorem exists_of_lastSource (h : List.Forall₂ Matches l log)
    (hlast : lastSource virt n l = some (s, n')) :
    ∃ front e back, log = front ++ e :: back ∧ Matches s e ∧ pageNo e.va = pageNo virt ∧
      (∀ e' ∈ back, pageNo e'.va ≠ pageNo virt) ∧ n' = n + front.length := by
  induction h generalizing n with
  | nil => cases hlast
  | @cons s' e l log hmatch hrest ih =>
      rw [lastSource] at hlast
      cases hfound : lastSource virt (n + 1) l with
      | some found =>
          rw [hfound] at hlast
          cases hlast
          obtain ⟨front, e', back, rfl, hmatch', hpage, hback, hn⟩ := ih hfound
          refine ⟨e :: front, e', back, rfl, hmatch', hpage, hback, ?_⟩
          rw [hn, List.length_cons]
          omega
      | none =>
          rw [hfound] at hlast
          dsimp only at hlast
          split at hlast
          · next hpage =>
              cases hlast
              exact ⟨[], e, log, rfl, hmatch, hmatch.va ▸ hpage,
                not_mem_of_lastSource hrest hfound, rfl⟩
          · cases hlast

/-! ## The bytes of a link -/

/-- The lowest byte of a frame is zero, and so are those that no frame reaches. -/
theorem linkByte_frame {f j : Nat} (haligned : Aligned f) (hlt : f < 2 ^ 52) (hj : j = 0 ∨ 7 ≤ j) :
    linkByte f j = 0 := by
  rw [linkByte, getD_toLE]
  split
  · next hlow =>
      have hbyte : f / 256 ^ j % 256 = 0 := by
        obtain rfl | rfl : j = 0 ∨ j = 7 := by omega
        · unfold Aligned at haligned
          omega
        · omega
      apply UInt8.toNat_inj.mp
      rw [UInt8.toNat_ofNat', hbyte]
      rfl
  · rfl

/-- Each record but the first one is linked to a frame of the record. -/
theorem Chained.link {front back : List Page} {e : Page} {head : Nat}
    (h : Chained head (front ++ e :: back)) :
    e.link = headAfter head front := by
  induction front generalizing head with
  | nil => exact h.1
  | cons e' front ih => exact ih h.2

theorem headAfter_mem {front : List Page} (head : Nat) (hne : front ≠ []) :
    ∃ e ∈ front, headAfter head front = e.frame := by
  rcases List.eq_nil_or_concat' front with rfl | ⟨init, e, rfl⟩
  · exact absurd rfl hne
  · refine ⟨e, List.mem_append_right _ List.mem_cons_self, ?_⟩
    rw [headAfter_append]
    rfl

/-! ## A new process -/

theorem prepareSlot_head (L : Layout) (slot : Pid) (k : Kernel) :
    ((Kernel.prepareSlot L slot k).table slot).framesHead = 0 :=
  congrArg Pcb.framesHead (Kernel.setPcb_self _ _ _)

/-- No link is where none is left. -/
theorem PagesAdded.unlinked (h : PagesAdded L slot root log k k' g g') (hk : Holds L k g)
    (hhead : (k.table slot).framesHead = 0) {front back : List Page} {e : Page}
    (hlog : log = front ++ e :: back) {j : Nat} (hj : Unlinked front.length j) :
    linkByte e.link j = 0 := by
  have hchained := h.chained
  rw [hlog] at hchained
  rw [hchained.link, hhead]
  cases front with
  | nil => exact linkByte_zero j
  | cons e₁ front =>
      obtain ⟨e', he', heq⟩ := headAfter_mem 0 (List.cons_ne_nil e₁ front)
      rw [heq]
      have hfresh := (h.frames e' (hlog ▸ List.mem_append_left _ he')).1
      obtain ⟨-, haligned, hlt⟩ := hk.pool.frame e'.frame hfresh.ne_other
      exact linkByte_frame haligned hlt (hj.resolve_left (Nat.succ_ne_zero _))

/-- The record behind the last page for an address. -/
theorem Executed.page (h : Executed L image dataPtr hdr range slot k k' g g' log stack)
    (hk : Holds L k g) (hcanonical : Canonical virt)
    (hlast : lastSource virt 0 (sources image dataPtr hdr range) = some (s, n)) :
    ∃ front e back, log ++ stack = front ++ e :: back ∧ n = front.length ∧ Matches s e ∧
      pageNo e.va = pageNo virt ∧ Aligned e.frame ∧
      translate k'.mem (L.processPml4 slot) virt =
        some ⟨e.frame + virt % 4096, e.writable, e.user⟩ := by
  obtain ⟨front, e, back, hlog, hmatch, hpage, hback, hn⟩ := exists_of_lastSource h.matches hlast
  rw [Nat.zero_add] at hn
  have he : e ∈ log ++ stack := hlog ▸ List.mem_append_right _ List.mem_cons_self
  obtain ⟨-, haligned, hlt⟩ := hk.pool.frame e.frame (h.added.frames e he).1.ne_other
  have hmaps := (h.added.maps front e back hlog fun e' he' => hpage ▸ hback e' he').page hpage
  rw [← target_processPml4 L slot] at hmaps
  exact ⟨front, e, back, hlog, hn, hmatch, hpage, haligned,
    hmaps.translate hcanonical haligned hlt⟩

/-- What the last page for an address makes of it. -/
theorem Executed.access (h : Executed L image dataPtr hdr range slot k k' g g' log stack)
    (hk : Holds L k g) (hhead : (k.table slot).framesHead = 0) (hcanonical : Canonical virt)
    (hlast : lastSource virt 0 (sources image dataPtr hdr range) = some (s, n)) :
    ∃ a link, translate k'.mem (L.processPml4 slot) virt = some a ∧ a.writable = true ∧
      a.user = s.user ∧
      k'.mem a.phys = (s.bytes (virt % 4096)).getD (linkByte link (virt % 4096)) ∧
      (Unlinked n (virt % 4096) → linkByte link (virt % 4096) = 0) := by
  obtain ⟨front, e, back, hlog, hn, hmatch, -, -, haccess⟩ := h.page hk hcanonical hlast
  have he : e ∈ log ++ stack := hlog ▸ List.mem_append_right _ List.mem_cons_self
  have hoffset : virt % 4096 < 4096 := Nat.mod_lt _ (by decide)
  refine ⟨_, e.link, haccess, hmatch.writable, hmatch.user, ?_, fun hunlinked => ?_⟩
  · exact (h.added.content e he _ hoffset).trans (hmatch.content _ hoffset)
  · exact h.added.unlinked hk hhead hlog (hn ▸ hunlinked)

/-- All segments of the image are there. -/
def Loaded (image : Image) (dataPtr : Nat) (hdr : Elf64Header) (m : Nat → UInt8) (root : Nat) :
    Prop :=
  ∀ i virt, InSegment image dataPtr hdr i virt → LoadedAt image dataPtr hdr m root i virt

variable {i : Nat}

theorem Executed.loadedAt (h : Executed L image dataPtr hdr range slot k k' g g' log stack)
    (hk : Holds L k g) (hhead : (k.table slot).framesHead = 0)
    (hplaced : Placed image dataPtr hdr (sources image dataPtr hdr range) i virt)
    (hclean : Clean (sources image dataPtr hdr range) virt) :
    LoadedAt image dataPtr hdr k'.mem (L.processPml4 slot) i virt := by
  obtain ⟨s, n, hlast, hunlinked⟩ := hclean
  obtain ⟨huser, hwritable, hcopied, hzero⟩ := hplaced.last s n hlast
  obtain ⟨a, link, haccess, hw, hu, hbyte, hlink⟩ := h.access hk hhead hplaced.canonical hlast
  refine ⟨a, haccess, ?_, hu.trans huser, iff_of_true hw hwritable⟩
  rw [hbyte]
  cases hbytes : s.bytes (virt % 4096) with
  | some b => exact hcopied b hbytes
  | none =>
      have hplace := hunlinked hbytes
      rw [hzero hbytes hplace]
      exact hlink hplace

theorem Executed.placed (h : Executed L image dataPtr hdr range slot k k' g g' log stack)
    (hk : Holds L k g) (hhead : (k.table slot).framesHead = 0)
    (hloaded : LoadedAt image dataPtr hdr k'.mem (L.processPml4 slot) i virt) :
    Placed image dataPtr hdr (sources image dataPtr hdr range) i virt := by
  obtain ⟨a, haccess, hbyte, huser, hwritable⟩ := hloaded
  have hcanonical : Canonical virt := by
    by_contra hnot
    rw [translate, if_neg hnot] at haccess
    cases haccess
  refine ⟨hcanonical, fun s n hlast => ?_⟩
  obtain ⟨a', link, haccess', hw, hu, hbyte', hlink⟩ := h.access hk hhead hcanonical hlast
  obtain rfl : a' = a := Option.some.inj (haccess'.symm.trans haccess)
  rw [hbyte'] at hbyte
  refine ⟨hu.symm.trans huser, hwritable.mp hw, fun b hb => ?_, fun hnone hplace => ?_⟩
  · rwa [hb] at hbyte
  · rw [hnone, Option.getD_none, hlink hplace] at hbyte
    exact hbyte.symm

/-- The way of `exec` to a new process. -/
theorem Holds.exec_executed (h : Holds L k g) (hlive : k.Running)
    (hslot : (k.exec L image dataPtr size).1 = (slot : Nat)) :
    ∃ range k₁ k₂ g₂ log stack, checked image dataPtr size = some range ∧ Holds L k₁ g ∧
      (k₁.table slot).framesHead = 0 ∧
      Executed L image dataPtr (headerOf image dataPtr) range slot k₁ k₂ g g₂ log stack ∧
      (k.exec L image dataPtr size).2 =
        Kernel.finishElf L slot (headerOf image dataPtr).entry (pageDown range.base)
          range.loadEnd k₂ := by
  obtain ⟨reads, hexec⟩ := exec_eq L image k dataPtr size
  cases hcheck : checked image dataPtr size with
  | none =>
      rw [hexec, hcheck] at hslot
      have hnot : ¬0 ≤ errInvalidPointer := by decide
      exact absurd (nonneg_of_slot hslot) hnot
  | some range =>
      rw [hcheck] at hexec
      rw [hexec] at hslot ⊢
      dsimp only at hslot ⊢
      have houtcome :=
        execLoad_outcome image dataPtr (headerOf image dataPtr) (h.reads reads) hlive range
      rcases houtcome with
        ⟨_, hload⟩ | ⟨slot', hfree, ⟨k', g', hload, _⟩ | ⟨log, stack, k', g', hload, hdone⟩⟩
      · rw [hload] at hslot
        have hnot : ¬0 ≤ errNoCapacity := by decide
        exact absurd (nonneg_of_slot hslot) hnot
      · rw [hload] at hslot
        have hnot : ¬0 ≤ errOutOfMemory := by decide
        exact absurd (nonneg_of_slot hslot) hnot
      rw [hload] at hslot ⊢
      obtain rfl : slot' = slot := Fin.ext (Int.ofNat_inj.mp hslot)
      exact ⟨range, _, k', g', log, stack, rfl, (h.reads reads).prepareSlot hlive hfree,
        prepareSlot_head L slot' _, hdone, rfl⟩

/-- The entry of a new process in the table. -/
theorem finishElf_table (L : Layout) (slot : Pid) (entry loadBase loadEnd : Nat) (k : Kernel) :
    (Kernel.finishElf L slot entry loadBase loadEnd k).table slot =
      provisionPcbElf slot entry (L.processPml4 slot) (wrappingAdd loadEnd 0x10000) loadBase
        (wrappingSub loadEnd loadBase) k.tick :=
  Kernel.setPcb_self k slot _

/-- The new process of `exec` has the byte of a segment if it is placed and no link is left there,
and only if it is placed. -/
theorem Holds.exec_loadedAt (h : Holds L k g) (hlive : k.Running)
    (hslot : (k.exec L image dataPtr size).1 = (slot : Nat)) (i virt : Nat) :
    (Placed image dataPtr (headerOf image dataPtr) (execSources image dataPtr size) i virt →
      Clean (execSources image dataPtr size) virt →
      LoadedAt image dataPtr (headerOf image dataPtr) (k.exec L image dataPtr size).2.mem
        ((k.exec L image dataPtr size).2.table slot).pageTableBase i virt) ∧
    (LoadedAt image dataPtr (headerOf image dataPtr) (k.exec L image dataPtr size).2.mem
        ((k.exec L image dataPtr size).2.table slot).pageTableBase i virt →
      Placed image dataPtr (headerOf image dataPtr) (execSources image dataPtr size) i virt) := by
  obtain ⟨range, k₁, k₂, g₂, log, stack, hcheck, hk, hhead, hdone, hexec⟩ :=
    h.exec_executed hlive hslot
  rw [execSources, hcheck, hexec, finishElf_table]
  exact ⟨hdone.loadedAt hk hhead, hdone.placed hk hhead⟩

/-- In every state that sparing steps lead to an image that stays as it is while it is read is
loaded rightly if each byte of its segments is placed and no link is left there, and only if each
byte is placed. -/
theorem exec_loads {h : List Action} (boot : Booted L k₀) (run : Run (SparingStep L) k₀ h k)
    (running : k.Running) (hstay : Settled L k dataPtr size)
    (hslot : (k.exec L throughTables dataPtr size).1 = (slot : Nat)) :
    ((∀ i virt, InSegment (.still k.seen) dataPtr (headerOf (.still k.seen) dataPtr) i virt →
        Placed (.still k.seen) dataPtr (headerOf (.still k.seen) dataPtr)
            (execSources (.still k.seen) dataPtr size) i virt ∧
          Clean (execSources (.still k.seen) dataPtr size) virt) →
      Loaded (.still k.seen) dataPtr (headerOf (.still k.seen) dataPtr)
        (k.exec L throughTables dataPtr size).2.mem
        ((k.exec L throughTables dataPtr size).2.table slot).pageTableBase) ∧
    (Loaded (.still k.seen) dataPtr (headerOf (.still k.seen) dataPtr)
        (k.exec L throughTables dataPtr size).2.mem
        ((k.exec L throughTables dataPtr size).2.table slot).pageTableBase →
      ∀ i virt, InSegment (.still k.seen) dataPtr (headerOf (.still k.seen) dataPtr) i virt →
        Placed (.still k.seen) dataPtr (headerOf (.still k.seen) dataPtr)
          (execSources (.still k.seen) dataPtr size) i virt) := by
  obtain ⟨g, hg⟩ := holds_of_run boot run
  rw [hstay.exec_eq] at hslot ⊢
  refine ⟨fun hall i virt hin => ?_, fun hloaded i virt hin => ?_⟩
  · obtain ⟨hplaced, hclean⟩ := hall i virt hin
    exact (hg.exec_loadedAt running hslot i virt).1 hplaced hclean
  · exact (hg.exec_loadedAt running hslot i virt).2 (hloaded i virt hin)

/-! ## An image of one byte -/

/-- An image with one segment, for the first byte of the image itself. -/
def oneSegment (flags : Nat) : List UInt8 :=
  smallHeader 64 1 ++ toLE 4 1 ++ toLE 4 flags ++ toLE 8 0 ++ toLE 8 0x400000 ++ toLE 8 0 ++
    toLE 8 1 ++ toLE 8 1 ++ toLE 8 0

section OneSegment

variable {flags : Nat}

/-- The first process with the image in its page. -/
def withImage (flags : Nat) : Kernel := stored (oneSegment flags)

/-- The image in the page. -/
def oneImage (flags : Nat) : Image := .still (withImage flags).seen

theorem length_oneSegment (flags : Nat) : (oneSegment flags).length ≤ 4096 := by
  simp [oneSegment, smallHeader, elfMagic]

theorem withImage_buffer (flags : Nat) :
    ∃ g, Buffer Layout.packed g ephemeralBase 0x400000 (withImage flags) :=
  stored_buffer (length_oneSegment flags)

theorem run_withImage (flags : Nat) :
    Run (SparingStep Layout.packed) (started 64)
      (.memoryAllocate 4096 :: Buffer.actions ephemeralBase (oneSegment flags)) (withImage flags) :=
  run_stored (length_oneSegment flags)

theorem headerOf_oneImage (flags : Nat) :
    headerOf (oneImage flags) ephemeralBase =
      headerOf (imageAt ephemeralBase (oneSegment flags)) ephemeralBase :=
  headerOf_stored (length_oneSegment flags)

theorem phnum_oneImage (hflags : flags = 5 ∨ flags = 7) :
    (headerOf (imageAt ephemeralBase (oneSegment flags)) ephemeralBase).phnum = 1 := by
  rcases hflags with rfl | rfl <;> decide +kernel

theorem header_oneImage_inside (hflags : flags = 5 ∨ flags = 7) :
    ∀ i < (headerOf (imageAt ephemeralBase (oneSegment flags)) ephemeralBase).phnum,
      (headerOf (imageAt ephemeralBase (oneSegment flags)) ephemeralBase).phoff +
        i * (headerOf (imageAt ephemeralBase (oneSegment flags)) ephemeralBase).phentsize +
          phdrSize ≤ 4096 := by
  rcases hflags with rfl | rfl <;> decide +kernel

theorem phdrAt_oneImage (hflags : flags = 5 ∨ flags = 7) :
    Kernel.phdrAt (oneImage flags) ephemeralBase (headerOf (oneImage flags) ephemeralBase) 0 =
      ⟨1, flags, 0, 0x400000, 1, 1⟩ := by
  have hzero : 0 < (headerOf (imageAt ephemeralBase (oneSegment flags)) ephemeralBase).phnum := by
    rw [phnum_oneImage hflags]
    decide
  rw [headerOf_oneImage]
  refine (readPhdr_stored (length_oneSegment flags) (header_oneImage_inside hflags 0 hzero)).trans ?_
  rcases hflags with rfl | rfl <;> decide +kernel

theorem checked_oneImage (hflags : flags = 5 ∨ flags = 7) :
    checked (oneImage flags) ephemeralBase 120 = some ⟨0x400000, 0x400001⟩ := by
  have hparts : (checked (imageAt ephemeralBase (oneSegment flags)) ephemeralBase 120).map
      (fun range => (range.base, range.fin)) = some (0x400000, 0x400001) := by
    rcases hflags with rfl | rfl <;> decide +kernel
  obtain ⟨⟨base, fin⟩, hcheck, heq⟩ := Option.map_eq_some_iff.mp hparts
  cases heq
  refine (checked_congr (headerOf_oneImage flags) fun i hi => ?_).trans hcheck
  exact readPhdr_stored (length_oneSegment flags) (header_oneImage_inside hflags i hi)

theorem plan_oneImage (hflags : flags = 5 ∨ flags = 7) :
    plan (oneImage flags) ephemeralBase (headerOf (oneImage flags) ephemeralBase) =
      [(0, 0x400000)] := by
  rw [headerOf_oneImage]
  refine (plan_congr fun i hi => ?_).trans (b := plan (imageAt ephemeralBase (oneSegment flags))
    ephemeralBase (headerOf (imageAt ephemeralBase (oneSegment flags)) ephemeralBase)) ?_
  · exact readPhdr_stored (length_oneSegment flags) (header_oneImage_inside hflags i hi)
  · rcases hflags with rfl | rfl <;> decide +kernel

theorem settled_oneImage (hflags : flags = 5 ∨ flags = 7) :
    Settled Layout.packed (withImage flags) ephemeralBase 120 := by
  refine settled_stored (length_oneSegment flags) rfl (header_oneImage_inside hflags) ?_ ?_ 120
  · rcases hflags with rfl | rfl <;> decide +kernel
  · rcases hflags with rfl | rfl <;> decide +kernel

theorem exec_oneImage (hflags : flags = 5 ∨ flags = 7) :
    ((withImage flags).exec Layout.packed throughTables ephemeralBase 120).1 =
      ((1 : Pid) : Nat) := by
  obtain ⟨g, hbuffer⟩ := withImage_buffer flags
  rw [(settled_oneImage hflags).exec_eq]
  have hslot : (withImage flags).table.findFreeSlot = some 1 :=
    show allocated.table.findFreeSlot = some 1 by decide +kernel
  have hframes : 20 ≤ (withImage flags).poolFrames :=
    show 20 ≤ allocated.poolFrames by decide +kernel
  have hcheck : checked (.still (withImage flags).seen) ephemeralBase 120 =
      some ⟨0x400000, 0x400001⟩ := checked_oneImage hflags
  have havailable : 20 ≤ available (withImage flags) g := by
    rw [available]
    omega
  refine hbuffer.holds.exec_value hbuffer.running hcheck hslot
    (hbuffer.holds.enough_iff.mpr ⟨20, ?_, havailable⟩)
  have hpages : execPages (.still (withImage flags).seen) ephemeralBase
      (headerOf (.still (withImage flags).seen) ephemeralBase) ⟨0x400000, 0x400001⟩ =
      0x400000 :: Kernel.stackPages (SegmentRange.loadEnd ⟨0x400000, 0x400001⟩) := by
    have hplan := plan_oneImage hflags
    rw [oneImage] at hplan
    rw [execPages, hplan]
    rfl
  rw [hpages]
  rcases hflags with rfl | rfl <;> decide +kernel

theorem inSegment_oneImage (hflags : flags = 5 ∨ flags = 7) {i virt : Nat} :
    InSegment (oneImage flags) ephemeralBase (headerOf (oneImage flags) ephemeralBase) i virt ↔
      i = 0 ∧ virt = 0x400000 := by
  have hphnum : (headerOf (oneImage flags) ephemeralBase).phnum = 1 := by
    rw [headerOf_oneImage]
    exact phnum_oneImage hflags
  rw [InSegment, hphnum, Nat.lt_one_iff]
  constructor
  · rintro ⟨rfl, -, hle, hlt⟩
    rw [phdrAt_oneImage hflags] at hle hlt
    dsimp only at hle hlt
    omega
  · rintro ⟨rfl, rfl⟩
    rw [phdrAt_oneImage hflags]
    exact ⟨rfl, rfl, Nat.le_refl _, Nat.lt_succ_self _⟩

theorem last_oneImage (hflags : flags = 5 ∨ flags = 7) :
    lastSource 0x400000 0 (execSources (oneImage flags) ephemeralBase 120) =
      some (segmentSource (oneImage flags) ephemeralBase
        (headerOf (oneImage flags) ephemeralBase) (0, 0x400000), 0) := by
  have hstack : ∀ va ∈ Kernel.stackPages (SegmentRange.loadEnd ⟨0x400000, 0x400001⟩),
      pageNo va ≠ pageNo 0x400000 := by decide
  have hnone : lastSource 0x400000 1
      ((Kernel.stackPages (SegmentRange.loadEnd ⟨0x400000, 0x400001⟩)).map stackSource) = none := by
    refine lastSource_eq_none fun s hs => ?_
    obtain ⟨va, hva, rfl⟩ := List.mem_map.mp hs
    exact hstack va hva
  rw [execSources, checked_oneImage hflags]
  dsimp only [sources]
  rw [plan_oneImage hflags, List.map_cons, List.map_nil, List.singleton_append, lastSource, hnone]
  exact if_pos rfl

/-- The byte that is copied is the byte of the segment. -/
theorem byte_oneImage (hflags : flags = 5 ∨ flags = 7) :
    (segmentSource (oneImage flags) ephemeralBase (headerOf (oneImage flags) ephemeralBase)
        (0, 0x400000)).bytes 0 =
      some (segmentByte (oneImage flags) ephemeralBase (headerOf (oneImage flags) ephemeralBase)
        0 0x400000) := by
  have hcopy : 0 < min 0x1000 (1 - wrappingSub 0x400000 0x400000) := by decide
  have hfile : 0x400000 - 0x400000 < 1 := by decide
  have haddr : wrappingAdd (wrappingAdd (wrappingAdd ephemeralBase 0)
      (wrappingSub 0x400000 0x400000)) 0 = wrappingAdd ephemeralBase (0 + (0x400000 - 0x400000)) := by
    decide
  rw [segmentSource, segmentByte, phdrAt_oneImage hflags]
  refine (if_pos hcopy).trans (congrArg some ((if_pos hfile).trans ?_).symm)
  exact congrArg (withImage flags).seen haddr.symm

/-- With the right to write the byte is loaded. -/
theorem exec_loads_oneImage :
    Loaded (oneImage 7) ephemeralBase (headerOf (oneImage 7) ephemeralBase)
      ((withImage 7).exec Layout.packed throughTables ephemeralBase 120).2.mem
      (((withImage 7).exec Layout.packed throughTables ephemeralBase 120).2.table
        1).pageTableBase := by
  have hflags : 7 = 5 ∨ 7 = 7 := Or.inr rfl
  refine (exec_loads (booted_started (by decide)) (run_withImage 7) rfl
    (settled_oneImage hflags) (exec_oneImage hflags)).1 ?_
  have himage : Image.still (withImage 7).seen = oneImage 7 := rfl
  rw [himage]
  intro i virt hin
  have hlast := last_oneImage hflags
  have hbyte := byte_oneImage hflags
  obtain ⟨rfl, rfl⟩ := (inSegment_oneImage hflags).mp hin
  refine ⟨⟨Or.inl (by decide), fun s n hs => ?_⟩, _, _, hlast, fun _ => Or.inl rfl⟩
  obtain ⟨rfl, rfl⟩ := Prod.mk.inj (Option.some.inj (hlast.symm.trans hs))
  have hright := congrArg Elf64Phdr.pFlags (phdrAt_oneImage hflags)
  refine ⟨?_, ⟨0, 0x400000, hin, rfl, ?_⟩, fun b hb => ?_, fun hnone => ?_⟩
  · rw [segmentSource]
    dsimp only
    rw [hright]
    decide
  · rw [hright]
    decide
  · exact Option.some.inj (hb.symm.trans hbyte)
  · exact absurd (hnone.symm.trans hbyte) (Option.some_ne_none _).symm

/-- Without it the page is not for user space. -/
theorem not_exec_loads :
    ¬∀ (L : Layout) (k₀ k : Kernel) (h : List Action) (dataPtr size : Nat) (slot : Pid),
      Booted L k₀ → Run (Step L) k₀ h k → k.Running → Settled L k dataPtr size →
      (k.exec L throughTables dataPtr size).1 = (slot : Nat) →
      Loaded (.still k.seen) dataPtr (headerOf (.still k.seen) dataPtr)
        (k.exec L throughTables dataPtr size).2.mem
        ((k.exec L throughTables dataPtr size).2.table slot).pageTableBase := by
  intro hall
  have hflags : 5 = 5 ∨ 5 = 7 := Or.inl rfl
  have hsettled := settled_oneImage hflags
  have hslot := exec_oneImage hflags
  have hloaded := hall Layout.packed (started 64) (withImage 5) _ ephemeralBase 120 1
    (booted_started (by decide)) ((run_withImage 5).mono fun _ _ _ hstep => hstep.1) rfl hsettled
    hslot 0 0x400000 ((inSegment_oneImage hflags).mpr ⟨rfl, rfl⟩)
  obtain ⟨g, hbuffer⟩ := withImage_buffer 5
  rw [hsettled.exec_eq] at hslot hloaded
  have hplaced := (hbuffer.holds.exec_loadedAt hbuffer.running hslot _ _).2 hloaded
  have huser := (hplaced.last _ _ (last_oneImage hflags)).1
  have hright := congrArg Elf64Phdr.pFlags (phdrAt_oneImage hflags)
  rw [segmentSource] at huser
  dsimp only at huser
  rw [hright] at huser
  revert huser
  decide

end OneSegment

end PureOS.Memory
