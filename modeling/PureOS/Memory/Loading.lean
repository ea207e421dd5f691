import PureOS.Foundation.Fields
import PureOS.Memory.Clone
import PureOS.Memory.Reads

set_option autoImplicit false

/-!
# Memory: what the loader makes of an image

The checks of `exec` without the reads, the pages that an image asks for in the order in
which they are mapped, and the ways in which `exec` ends: refused, without a slot, short of
frames, or with a record of each page that was loaded.
-/

namespace PureOS.Memory

open PureOS.Foundation PureOS.Process

variable {L : Layout} {k k' : Kernel} {g g' : Ledger} {pid : Pid} {root pml4 : Nat}
variable {image : Image} {dataPtr size : Nat} {hdr : Elf64Header}

/-! ## The checks -/

/-- The first pass without its reads: the range of all segments, if the image is not refused. -/
def segmentRange (image : Image) (dataPtr : Nat) (hdr : Elf64Header) :
    List Nat → SegmentRange → Option SegmentRange
  | [], range => some range
  | i :: rest, range =>
      let ph := Kernel.scanAt image dataPtr hdr i
      if ph.pType ≠ ptLoad then segmentRange image dataPtr hdr rest range
      else if ph.pFilesz > ph.pMemsz then none
      else (range.extend ph.pVaddr ph.pMemsz).bind (segmentRange image dataPtr hdr rest)

/-- The checks of `exec`: the range of the segments of an image that is not refused. -/
def checked (image : Image) (dataPtr size : Nat) : Option SegmentRange :=
  if size < headerSize ∨ ¬Kernel.headerOk (headerOf image dataPtr) then none
  else
    (segmentRange image dataPtr (headerOf image dataPtr)
      (List.range (headerOf image dataPtr).phnum) ⟨2 ^ 64 - 1, 0⟩).filter (·.base ≠ 2 ^ 64 - 1)

theorem segmentRange_congr {image' : Image} {l : List Nat}
    (h : ∀ i ∈ l, Kernel.scanAt image dataPtr hdr i = Kernel.scanAt image' dataPtr hdr i)
    (range : SegmentRange) :
    segmentRange image dataPtr hdr l range = segmentRange image' dataPtr hdr l range := by
  induction l generalizing range with
  | nil => rfl
  | cons i rest ih =>
      obtain ⟨hi, hrest⟩ := List.forall_mem_cons.mp h
      have hnext : segmentRange image dataPtr hdr rest = segmentRange image' dataPtr hdr rest :=
        funext (ih hrest)
      rw [segmentRange, segmentRange, hi, hnext]

/-- The checks depend on the header and on what the first pass finds. -/
theorem checked_congr {image' : Image} (hheader : headerOf image dataPtr = headerOf image' dataPtr)
    (hscan : ∀ i < (headerOf image' dataPtr).phnum,
      Kernel.scanAt image dataPtr (headerOf image' dataPtr) i =
        Kernel.scanAt image' dataPtr (headerOf image' dataPtr) i) :
    checked image dataPtr size = checked image' dataPtr size := by
  rw [checked, checked, hheader,
    segmentRange_congr fun i hi => hscan i (List.mem_range.mp hi)]

theorem firstPass_fst (image : Image) (dataPtr : Nat) (hdr : Elf64Header) (l : List Nat)
    (range : SegmentRange) (k : Kernel) :
    (Kernel.firstPass image dataPtr hdr l range k).1 =
      match segmentRange image dataPtr hdr l range with
      | none => .error errInvalidPointer
      | some range => .ok range := by
  induction l generalizing range k with
  | nil => rfl
  | cons i rest ih =>
      rw [Kernel.firstPass_cons, segmentRange]
      split
      · exact ih _ _
      split
      · rfl
      cases range.extend (Kernel.scanAt image dataPtr hdr i).pVaddr
        (Kernel.scanAt image dataPtr hdr i).pMemsz with
      | none => rfl
      | some range => exact ih _ _

theorem checked_of_pass {range : SegmentRange} (hsize : ¬size < headerSize)
    (hok : Kernel.headerOk (headerOf image dataPtr) = true) (hbase : range.base ≠ 2 ^ 64 - 1)
    (hpass : (Kernel.firstPass image dataPtr (headerOf image dataPtr)
      (List.range (headerOf image dataPtr).phnum) ⟨2 ^ 64 - 1, 0⟩ k).1 = .ok range) :
    checked image dataPtr size = some range := by
  rw [firstPass_fst] at hpass
  rw [checked, if_neg (not_or.mpr ⟨hsize, not_not.mpr hok⟩)]
  cases hrange : segmentRange image dataPtr (headerOf image dataPtr)
    (List.range (headerOf image dataPtr).phnum) ⟨2 ^ 64 - 1, 0⟩ with
  | none =>
      rw [hrange] at hpass
      cases hpass
  | some range' =>
      rw [hrange] at hpass
      cases hpass
      rw [Option.filter_some, if_pos (decide_eq_true hbase)]

/-- What comes after the check of the header. -/
theorem exec_of_header (L : Layout) (k : Kernel) (hsize : ¬size < headerSize)
    (hok : Kernel.headerOk (headerOf image dataPtr) = true) :
    Kernel.exec L image k dataPtr size =
      match Kernel.firstPass image dataPtr (headerOf image dataPtr)
        (List.range (headerOf image dataPtr).phnum) ⟨2 ^ 64 - 1, 0⟩
        (k.noteReads dataPtr headerSize) with
      | (.error e, k) => (e, k)
      | (.ok range, k) =>
          if range.base = 2 ^ 64 - 1 then (errInvalidPointer, k)
          else Kernel.execLoad L image dataPtr (headerOf image dataPtr) range k :=
  (if_neg hsize).trans (if_neg (not_not.mpr hok))

/-- `exec` refuses an image, or goes on with the range of its segments. -/
theorem exec_eq (L : Layout) (image : Image) (k : Kernel) (dataPtr size : Nat) :
    ∃ reads, Kernel.exec L image k dataPtr size =
      match checked image dataPtr size with
      | none => (errInvalidPointer, { k with reads := reads })
      | some range =>
          Kernel.execLoad L image dataPtr (headerOf image dataPtr) range
            { k with reads := reads } := by
  by_cases hsize : size < headerSize
  · refine ⟨k.reads, ?_⟩
    rw [checked, if_pos (Or.inl hsize)]
    exact if_pos hsize
  cases hok : Kernel.headerOk (headerOf image dataPtr) with
  | false =>
      have hnot : ¬Kernel.headerOk (headerOf image dataPtr) = true := by rw [hok]; decide
      refine ⟨(k.noteReads dataPtr headerSize).reads, ?_⟩
      rw [checked, if_pos (Or.inr hnot)]
      exact (if_neg hsize).trans (if_pos hnot)
  | true =>
      have hscan := Kernel.firstPass_eq image dataPtr (headerOf image dataPtr)
        (List.range (headerOf image dataPtr).phnum) ⟨2 ^ 64 - 1, 0⟩
        (k.noteReads dataPtr headerSize)
      have hvalue := firstPass_fst image dataPtr (headerOf image dataPtr)
        (List.range (headerOf image dataPtr).phnum) ⟨2 ^ 64 - 1, 0⟩
        (k.noteReads dataPtr headerSize)
      rw [exec_of_header L k hsize hok, checked,
        if_neg (not_or.mpr ⟨hsize, not_not.mpr hok⟩)]
      generalize Kernel.firstPass image dataPtr (headerOf image dataPtr)
        (List.range (headerOf image dataPtr).phnum) ⟨2 ^ 64 - 1, 0⟩
        (k.noteReads dataPtr headerSize) = pass at hscan hvalue
      obtain ⟨value, k₁⟩ := pass
      dsimp only at hscan hvalue
      refine ⟨k₁.reads, ?_⟩
      cases hrange : segmentRange image dataPtr (headerOf image dataPtr)
        (List.range (headerOf image dataPtr).phnum) ⟨2 ^ 64 - 1, 0⟩ with
      | none =>
          rw [hrange] at hvalue
          rw [hvalue, hscan]
          rfl
      | some range =>
          rw [hrange] at hvalue
          rw [hvalue]
          by_cases hbase : range.base = 2 ^ 64 - 1
          · rw [Option.filter_some, if_neg fun h => absurd hbase (of_decide_eq_true h)]
            dsimp only
            rw [if_pos hbase, hscan]
            rfl
          · rw [Option.filter_some, if_pos (decide_eq_true hbase)]
            dsimp only
            rw [if_neg hbase, hscan]
            rfl

/-! ## The pages of an image -/

/-- The pages that a program header asks for. -/
def pagesOfHeader (ph : Elf64Phdr) : List Nat :=
  if ph.pType = ptLoad then Kernel.segmentPages ph else []

/-- The pages that the program header `i` asks for. -/
def pagesOfEntry (image : Image) (dataPtr : Nat) (hdr : Elf64Header) (i : Nat) : List Nat :=
  pagesOfHeader (Kernel.phdrAt image dataPtr hdr i)

/-- The pages that an image asks for, each with its program header, as they are mapped. -/
def plan (image : Image) (dataPtr : Nat) (hdr : Elf64Header) : List (Nat × Nat) :=
  (List.range hdr.phnum).flatMap fun i => (pagesOfEntry image dataPtr hdr i).map (i, ·)

/-- The pages depend on what the second pass finds. -/
theorem plan_congr {image' : Image}
    (h : ∀ i < hdr.phnum, Kernel.phdrAt image dataPtr hdr i = Kernel.phdrAt image' dataPtr hdr i) :
    plan image dataPtr hdr = plan image' dataPtr hdr := by
  refine List.flatMap_congr fun i hi => ?_
  rw [pagesOfEntry, pagesOfEntry, h i (List.mem_range.mp hi)]

theorem map_snd_plan (image : Image) (dataPtr : Nat) (hdr : Elf64Header) :
    (plan image dataPtr hdr).map Prod.snd =
      (List.range hdr.phnum).flatMap (pagesOfEntry image dataPtr hdr) := by
  rw [plan, List.map_flatMap]
  simp only [List.map_map, Function.comp_def, List.map_id']

/-- The byte `j` of the word that links a frame to the list of its process. -/
def linkByte (link j : Nat) : UInt8 := (toLE 8 link).getD j 0

/-- The byte `j` of the page `va` of the segment `i`, as the loader leaves it. -/
def loadedByte (image : Image) (dataPtr i : Nat) (ph : Elf64Phdr) (va link j : Nat) : UInt8 :=
  if j < min 0x1000 (ph.pFilesz - wrappingSub va ph.pVaddr) then
    bytesFrom (image.found (.copy i va))
      (wrappingAdd (wrappingAdd dataPtr ph.pOffset) (wrappingSub va ph.pVaddr)) j
  else linkByte link j

/-- The page `e` is the one that was planned. -/
structure Loads (image : Image) (dataPtr : Nat) (hdr : Elf64Header) (item : Nat × Nat) (e : Page) :
    Prop where
  va : e.va = item.2
  writable : e.writable = true
  user : e.user = (Kernel.phdrAt image dataPtr hdr item.1).pFlags.testBit 1
  content : ∀ j < 4096, e.content j =
    loadedByte image dataPtr item.1 (Kernel.phdrAt image dataPtr hdr item.1) item.2 e.link j

theorem setWord_link (f link : Nat) {j : Nat} :
    setWord (fun _ => 0) f link (f + j) = linkByte link j := by
  rw [linkByte]
  by_cases hj : j < 8
  · have hlen : j < (toLE 8 link).length := by rwa [length_toLE]
    rw [setWord, writeLE, blit_of_inside _ f _ j hlen, List.getD_eq_getElem _ _ hlen]
  · rw [setWord_of_outside link (by omega), List.getD_eq_default]
    rw [length_toLE]
    omega

theorem linkByte_zero (j : Nat) : linkByte 0 j = 0 := by
  rw [linkByte, getD_toLE, Nat.zero_div]
  exact ite_self _

theorem fillsWith_nothing : FillsWith (fun _ _ k => k) fun _ link j => linkByte link j := by
  intro va f link k _ hlinked j hj
  exact (hlinked j hj).trans (setWord_link f link)

theorem onlyPage_copyFromUser (look : Kernel → Nat → UInt8) {f : Nat} (hf : Aligned f) (src : Nat)
    {n : Nat} (hn : n ≤ 4096) (k : Kernel) :
    OnlyPage f k.mem (Kernel.copyFromUser look src f n k).mem ∧
      ∃ reads, Kernel.copyFromUser look src f n k =
        { k with mem := (Kernel.copyFromUser look src f n k).mem, reads := reads } := by
  induction n with
  | zero => exact ⟨.refl f k.mem, k.reads, rfl⟩
  | succ n ih =>
      obtain ⟨honly, reads, heq⟩ := ih (by omega)
      refine ⟨honly.trans fun a ha => ?_, wrappingAdd src n :: reads, ?_⟩
      · refine Function.update_of_ne ?_ _ _
        rintro rfl
        unfold Aligned at hf
        omega
      · rw [Kernel.copyFromUser, heq]

theorem fills_loadPage (look : Look) (dataPtr i : Nat) (ph : Elf64Phdr) :
    Fills (Kernel.loadPage look dataPtr i ph) := by
  intro va f k hf
  rw [Kernel.loadPage]
  generalize wrappingSub va ph.pVaddr = inPage
  split
  · exact onlyPage_copyFromUser _ hf _ (Nat.min_le_left _ _) k
  · exact ⟨.refl f k.mem, k.reads, rfl⟩

/-- A copy of some bytes leaves the rest of the page as it was. -/
theorem mem_copied {look : Kernel → Nat → UInt8} {found : Nat → UInt8} {src n f link j : Nat}
    {k : Kernel} (hlook : look = fun _ => found)
    (hlinked : k.mem (f + j) = setWord (fun _ => 0) f link (f + j)) :
    (if n > 0 then Kernel.copyFromUser look src f n k else k).mem (f + j) =
      if j < n then bytesFrom found src j else linkByte link j := by
  rw [hlook, Kernel.copyFromUser_found]
  by_cases hcopy : j < n
  · rw [if_pos (Nat.zero_lt_of_lt hcopy), if_pos hcopy]
    exact overlay_of_inside hcopy
  · rw [if_neg hcopy, ← setWord_link f link, ← hlinked]
    split
    · exact overlay_of_outside (by omega)
    · rfl

/-- What the copying leaves in a page. -/
theorem fillsWith_loadPage (image : Image) (dataPtr i : Nat) (ph : Elf64Phdr) :
    FillsWith (Kernel.loadPage image dataPtr i ph) (loadedByte image dataPtr i ph) := by
  intro va f link k _ hlinked j hj
  rw [Kernel.loadPage, loadedByte]
  exact mem_copied rfl (hlinked j hj)

/-! ## The loops of the loader -/

/-- What was read does not matter to the ledger. -/
theorem Holds.reads (h : Holds L k g) (reads : List Nat) : Holds L { k with reads := reads } g :=
  ⟨h.pool.write (fun _ _ => rfl) rfl rfl rfl, h.tables, h.owners.congr rfl rfl⟩

theorem Grown.ofReads {S : Nat → Prop} {reads : List Nat}
    (h : Grown S { k with reads := reads } k' g g') : Grown S k k' g g' :=
  ⟨h.uses, h.keeps, h.last, h.above, h.made, h.less⟩

theorem PagesAdded.ofReads {log : List Page} {reads : List Nat}
    (h : PagesAdded L pid root log { k with reads := reads } k' g g') :
    PagesAdded L pid root log k k' g g' :=
  ⟨h.holds, h.grown.ofReads, h.frames, h.distinct, h.maps, h.content, h.less, h.heads, h.chained,
    h.tracked, h.current, h.tick⟩

theorem PagesLost.ofReads {l : List Nat} {reads : List Nat}
    (h : PagesLost L pid l { k with reads := reads } k' g g') : PagesLost L pid l k k' g g' :=
  ⟨h.holds, h.grown.ofReads, h.short, h.heads, h.tracked, h.current⟩

/-- The record of one segment, page by page. -/
theorem PagesOf.loads {i : Nat} {l : List Nat} {log : List Page}
    (h : PagesOf (Kernel.loadPage image dataPtr i (Kernel.phdrAt image dataPtr hdr i)) true
      ((Kernel.phdrAt image dataPtr hdr i).pFlags.testBit 1) l log) :
    List.Forall₂ (Loads image dataPtr hdr) (l.map (i, ·)) log := by
  obtain ⟨rfl, hrights, hfilled⟩ := h
  have hcontent := hfilled _ (fillsWith_loadPage image dataPtr i (Kernel.phdrAt image dataPtr hdr i))
  rw [List.map_map, List.forall₂_map_left_iff, List.forall₂_same]
  intro e he
  exact ⟨rfl, (hrights e he).1, (hrights e he).2, hcontent e he⟩

theorem map_va_of_loads {items : List (Nat × Nat)} {log : List Page}
    (h : List.Forall₂ (Loads image dataPtr hdr) items log) :
    log.map Page.va = items.map Prod.snd := by
  induction h with
  | nil => rfl
  | cons hload _ ih => rw [List.map_cons, List.map_cons, ih, hload.va]

/-- The pages of a segment are added, or frames run short, however the image is read. -/
theorem loadSegment_pages (look : Look) (h : Holds L k g) (hroot : g.use (target pml4) = .table 3 0)
    (i : Nat) {ph : Elf64Phdr} (hph : Kernel.readPhdr (look (.entry i) k) dataPtr hdr i = ph) :
    (∃ k' g', Kernel.loadSegment look dataPtr hdr pid pml4 i k = (.error errOutOfMemory, k') ∧
      PagesLost L pid (pagesOfHeader ph) k k' g g') ∨
    ∃ log k' g', Kernel.loadSegment look dataPtr hdr pid pml4 i k = (.ok (), k') ∧
      PagesAdded L pid (target pml4) log k k' g g' ∧
      PagesOf (Kernel.loadPage look dataPtr i ph) true (ph.pFlags.testBit 1) (pagesOfHeader ph)
        log := by
  have h₁ := h.reads (k.noteReads (Kernel.phdrAddr dataPtr hdr i) phdrSize).reads
  rw [Kernel.loadSegment, hph, pagesOfHeader]
  by_cases htype : ph.pType = ptLoad
  · rw [if_neg (not_not.mpr htype), if_pos htype]
    rcases pages_added (addsPage_trackAndMap L pid pml4 true (ph.pFlags.testBit 1)
        (Kernel.loadPage look dataPtr i ph))
      (fills_loadPage look dataPtr i ph) h₁ hroot (Kernel.segmentPages ph) with
      ⟨k', g', hrun, hlost⟩ | ⟨log, k', g', hrun, hadded, hof⟩
    · exact Or.inl ⟨k', g', hrun, hlost.ofReads⟩
    · exact Or.inr ⟨log, k', g', hrun, hadded.ofReads, hof⟩
  · rw [if_pos htype, if_neg htype]
    exact Or.inr ⟨[], _, g, rfl, (PagesAdded.nil h₁).ofReads, PagesOf.nil⟩

/-- A segment is loaded, or frames run short. -/
theorem loadSegment_cases (h : Holds L k g) (hroot : g.use (target pml4) = .table 3 0) (i : Nat) :
    (∃ k' g', Kernel.loadSegment image dataPtr hdr pid pml4 i k = (.error errOutOfMemory, k') ∧
      PagesLost L pid (pagesOfEntry image dataPtr hdr i) k k' g g') ∨
    ∃ log k' g', Kernel.loadSegment image dataPtr hdr pid pml4 i k = (.ok (), k') ∧
      PagesAdded L pid (target pml4) log k k' g g' ∧
      List.Forall₂ (Loads image dataPtr hdr) ((pagesOfEntry image dataPtr hdr i).map (i, ·)) log := by
  have hph : Kernel.readPhdr (image.look (.entry i) k) dataPtr hdr i =
    Kernel.phdrAt image dataPtr hdr i := rfl
  rcases loadSegment_pages image h hroot i hph with
    hlost | ⟨log, k', g', hrun, hadded, hof⟩
  · exact Or.inl hlost
  · exact Or.inr ⟨log, k', g', hrun, hadded, hof.loads⟩

/-- The segments are loaded, or frames run short. -/
theorem loadSegments_cases (image : Image) (dataPtr : Nat) (hdr : Elf64Header) (h : Holds L k g)
    (slot : Pid) :
    (∃ k' g', Kernel.loadSegments L image dataPtr hdr slot k = (.error errOutOfMemory, k') ∧
      PagesLost L slot ((plan image dataPtr hdr).map Prod.snd) k k' g g') ∨
    ∃ log k' g', Kernel.loadSegments L image dataPtr hdr slot k = (.ok (), k') ∧
      PagesAdded L slot (L.processPml4 slot) log k k' g g' ∧
      List.Forall₂ (Loads image dataPtr hdr) (plan image dataPtr hdr) log := by
  have hself := target_processPml4 L slot
  have hroot : g.use (target (L.processPml4 slot)) = .table 3 0 := by
    rw [hself]
    exact h.tables.root slot
  have hends : Ends (fun k' => ∃ log g', PagesAdded L slot (target (L.processPml4 slot)) log k k' g g' ∧
        List.Forall₂ (Loads image dataPtr hdr) (plan image dataPtr hdr) log)
      (fun e k' => e = errOutOfMemory ∧
        ∃ g', PagesLost L slot ((plan image dataPtr hdr).map Prod.snd) k k' g g')
      (Kernel.loadSegments L image dataPtr hdr slot k) := by
    refine forEach.rule (I := fun done k' => ∃ log g',
      PagesAdded L slot (target (L.processPml4 slot)) log k k' g g' ∧
      List.Forall₂ (Loads image dataPtr hdr)
        (done.flatMap fun i => (pagesOfEntry image dataPtr hdr i).map (i, ·)) log)
      (List.range hdr.phnum) ⟨[], g, .nil h, .nil⟩ ?_
    rintro done i rest k₁ hl ⟨log, g₁, hadded, hloads⟩
    rcases loadSegment_cases hadded.holds (hadded.grown.table hroot) i with
      ⟨k₂, g₂, hrun, hlost⟩ | ⟨log', k₂, g₂, hrun, hadded', hloads'⟩
    · rw [hrun]
      refine ⟨rfl, g₂, (hadded.lost hlost).mono fun va hva => ?_⟩
      rw [map_va_of_loads hloads] at hva
      rw [plan, hl, List.flatMap_append, List.map_append]
      rcases List.mem_append.mp hva with hva | hva
      · exact List.mem_append_left _ hva
      · refine List.mem_append_right _ ?_
        rw [List.flatMap_cons, List.map_append]
        refine List.mem_append_left _ ?_
        rwa [List.map_map, Function.comp_def, List.map_id']
    · rw [hrun]
      refine ⟨log ++ log', g₂, hadded.append hroot hadded', ?_⟩
      rw [List.flatMap_append, List.flatMap_singleton]
      exact List.rel_append hloads hloads'
  rw [← hself]
  rcases hr : Kernel.loadSegments L image dataPtr hdr slot k with ⟨e | _, k'⟩
  · rw [hr] at hends
    obtain ⟨rfl, g', hlost⟩ := hends
    exact Or.inl ⟨k', g', rfl, hlost⟩
  · rw [hr] at hends
    obtain ⟨log, g', hadded, hloads⟩ := hends
    exact Or.inr ⟨log, k', g', rfl, hadded, hloads⟩

/-! ## The end of `exec` -/

/-- Where the image ends, and the stack begins. -/
def SegmentRange.loadEnd (range : SegmentRange) : Nat := pageDown (wrappingAdd range.fin 0xFFF)

/-- All pages that `exec` maps. -/
def execPages (image : Image) (dataPtr : Nat) (hdr : Elf64Header) (range : SegmentRange) :
    List Nat :=
  (plan image dataPtr hdr).map Prod.snd ++ Kernel.stackPages range.loadEnd

/-- The process was made: the pages of the image were added, and then those of the stack. -/
structure Executed (L : Layout) (image : Image) (dataPtr : Nat) (hdr : Elf64Header)
    (range : SegmentRange) (slot : Pid) (k k' : Kernel) (g g' : Ledger) (log stack : List Page) :
    Prop where
  added : PagesAdded L slot (L.processPml4 slot) (log ++ stack) k k' g g'
  loads : List.Forall₂ (Loads image dataPtr hdr) (plan image dataPtr hdr) log
  stacked : PagesOf (fun _ _ k => k) true true (Kernel.stackPages range.loadEnd) stack

/-- The ways in which the second part of `exec` ends. -/
theorem execLoad_outcome (image : Image) (dataPtr : Nat) (hdr : Elf64Header) (h : Holds L k g)
    (hlive : (k.table k.current).isLive = true) (range : SegmentRange) :
    (k.table.findFreeSlot = none ∧
      Kernel.execLoad L image dataPtr hdr range k = (errNoCapacity, k)) ∨
    ∃ slot, k.table.findFreeSlot = some slot ∧
      ((∃ k' g', Kernel.execLoad L image dataPtr hdr range k = (errOutOfMemory, k') ∧
          PagesLost L slot (execPages image dataPtr hdr range) (Kernel.prepareSlot L slot k)
            k' g g') ∨
        ∃ log stack k' g', Kernel.execLoad L image dataPtr hdr range k = ((slot : Int),
            Kernel.finishElf L slot hdr.entry (pageDown range.base) range.loadEnd k') ∧
          Executed L image dataPtr hdr range slot (Kernel.prepareSlot L slot k) k' g g'
            log stack) := by
  rcases Kernel.execLoad_cases L image dataPtr hdr range k with hnone | ⟨slot, hslot, hrest⟩
  · exact Or.inl hnone
  refine Or.inr ⟨slot, hslot, ?_⟩
  have hprepared := h.prepareSlot hlive hslot
  have hself := target_processPml4 L slot
  rcases loadSegments_cases image dataPtr hdr hprepared slot with
    ⟨k₁, g₁, hseg, hlost⟩ | ⟨log, k₁, g₁, hseg, hadded, hloads⟩
  · rcases hrest with ⟨e, k₂, hseg', hrun⟩ | ⟨k₂, hseg', _⟩
    · rw [hseg] at hseg'
      cases hseg'
      exact Or.inl ⟨k₁, g₁, hrun, hlost.mono fun va hva => List.mem_append_left _ hva⟩
    · rw [hseg] at hseg'
      cases hseg'
  rcases hrest with ⟨e, k₂, hseg', _⟩ | ⟨k₂, hseg', hrest⟩
  · rw [hseg] at hseg'
    cases hseg'
  rw [hseg] at hseg'
  cases hseg'
  have hroot : g₁.use (target (L.processPml4 slot)) = .table 3 0 := by
    rw [hself]
    exact hadded.grown.table (hprepared.tables.root slot)
  rcases pages_added (addsPage_trackAndMap L slot (L.processPml4 slot) true true
      fun _ _ k => k) fills_nothing hadded.holds hroot (Kernel.stackPages range.loadEnd) with
    ⟨k₂, g₂, hstack, hlost⟩ | ⟨stack, k₂, g₂, hstack, hadded', hof⟩
  · rcases hrest with ⟨e, k₃, hstack', hrun⟩ | ⟨k₃, hstack', _⟩
    · have heq := hstack.symm.trans hstack'
      cases heq
      refine Or.inl ⟨k₂, g₂, hrun, ?_⟩
      have hall := hadded.lost hlost
      rw [map_va_of_loads hloads] at hall
      exact hall
    · have heq := hstack.symm.trans hstack'
      cases heq
  rcases hrest with ⟨e, k₃, hstack', _⟩ | ⟨k₃, hstack', hrun⟩
  · have heq := hstack.symm.trans hstack'
    cases heq
  have heq := hstack.symm.trans hstack'
  cases heq
  rw [hself] at hadded'
  exact Or.inr ⟨log, stack, k₂, g₂, hrun,
    hadded.append (hprepared.tables.root slot) hadded', hloads, hof⟩

end PureOS.Memory
