import PureOS.Memory.Isolation

set_option autoImplicit false

/-!
# Memory: images that are read through the tables

The loader maps pages into the tables that it reads the image through.  It finds a byte as it was
when the pages that were mapped before miss the byte, and the byte lies in no frame that the
allocator gives out.  Whatever it finds, it makes of the image what it makes of one that says so.
-/

namespace PureOS.Memory

open PureOS.Foundation PureOS.Process

/-- The byte at an address lies in no table, and in no frame that may be given out. -/
def Kept (g : Ledger) (k : Kernel) (a : Nat) : Prop :=
  ∃ access, translate k.mem k.readCr3 a = some access ∧
    (g.use (pageDown access.phys) = .held ∨ g.use (pageDown access.phys) = .other)

/-- The address is on none of the pages. -/
def Missed (pages : List Nat) (a : Nat) : Prop := ∀ va ∈ pages, pageNo va ≠ pageNo a

/-- Each program header stays as it is while the pages of those before it are mapped. -/
def HeadersStay (g : Ledger) (k : Kernel) (dataPtr : Nat) : Prop :=
  let image := Image.still k.seen
  let hdr := headerOf image dataPtr
  ∀ i < hdr.phnum, ∀ j < phdrSize,
    Kept g k (wrappingAdd (Kernel.phdrAddr dataPtr hdr i) j) ∧
      Missed ((List.range i).flatMap (pagesOfEntry image dataPtr hdr))
        (wrappingAdd (Kernel.phdrAddr dataPtr hdr i) j)

/-- The file bytes of the segments stay as they are while all pages of the image are mapped. -/
def BytesStay (g : Ledger) (k : Kernel) (dataPtr : Nat) : Prop :=
  let image := Image.still k.seen
  let hdr := headerOf image dataPtr
  ∀ i < hdr.phnum, (Kernel.phdrAt image dataPtr hdr i).pType = ptLoad →
    ∀ o < (Kernel.phdrAt image dataPtr hdr i).pFilesz,
      Kept g k (wrappingAdd dataPtr ((Kernel.phdrAt image dataPtr hdr i).pOffset + o)) ∧
        Missed ((plan image dataPtr hdr).map Prod.snd)
          (wrappingAdd dataPtr ((Kernel.phdrAt image dataPtr hdr i).pOffset + o))

/-- The headers are found as they are said to be, and the rest through the tables. -/
def headersFound (bytes : Nat → UInt8) : Look := fun reading k =>
  match reading with
  | .copy _ _ => k.seen
  | _ => bytes

variable {L : Layout} {k k' k₁ : Kernel} {g g' : Ledger} {slot : Pid} {look look' : Look}
variable {a va dataPtr size i : Nat} {pages : List Nat} {hdr : Elf64Header} {ph : Elf64Phdr}
variable {range : SegmentRange}

theorem Missed.mono {pages' : List Nat} (h : Missed pages' a) (hpages : pages ⊆ pages') :
    Missed pages a := fun va hva => h va (hpages hva)

/-! ## What the running process sees -/

theorem seen_of_keeps (hkeeps : Keeps k k' k.current a) (hcurrent : k'.current = k.current)
    (hmem : ∀ b, g.use (pageDown b) = .held ∨ g.use (pageDown b) = .other → k'.mem b = k.mem b)
    (hkept : Kept g k a) : k'.seen a = k.seen a := by
  obtain ⟨access, htranslate, huse⟩ := hkept
  have hwider := hkeeps.2
  have hroot : k'.readCr3 = (k'.table k.current).pageTableBase := by
    rw [Kernel.readCr3, hcurrent]
  have hroot₀ : (k.table k.current).pageTableBase = k.readCr3 := rfl
  rw [hroot₀, htranslate] at hwider
  obtain ⟨access', htranslate', hphys, -⟩ := hwider
  rw [Kernel.seen, Kernel.seen, hroot, htranslate', htranslate]
  exact (congrArg k'.mem hphys).trans (hmem access.phys huse)

theorem mem_prepareSlot (hk : Holds L k g)
    (ha : g.use (pageDown a) = .held ∨ g.use (pageDown a) = .other) :
    (Kernel.prepareSlot L slot k).mem a = k.mem a := by
  refine clone_onlyPage L k slot a (div_ne_of_pageDown (L.pml4_aligned slot) fun heq => ?_)
  rw [heq, hk.tables.root slot] at ha
  exact ha.elim Use.noConfusion Use.noConfusion

/-- The pages were added to the new process. -/
def Added (L : Layout) (slot : Pid) (g : Ledger) (k : Kernel) (pages : List Nat) (k' : Kernel) :
    Prop :=
  ∃ log g', PagesAdded L slot (L.processPml4 slot) log (Kernel.prepareSlot L slot k) k' g g' ∧
    log.map Page.va = pages

/-- A loader that has got its slot. -/
structure Loader (L : Layout) (slot : Pid) (g : Ledger) (k : Kernel) : Prop where
  holds : Holds L k g
  running : k.Running
  free : k.table.findFreeSlot = some slot

theorem Loader.added (h : Loader L slot g k) :
    Added L slot g k [] (Kernel.prepareSlot L slot k) :=
  ⟨[], g, .nil (h.holds.prepareSlot h.running h.free), rfl⟩

theorem Loader.root (h : Loader L slot g k) :
    g.use (target (L.processPml4 slot)) = .table 3 0 := by
  rw [target_processPml4]
  exact h.holds.tables.root slot

/-- What stays is seen as it was. -/
theorem Added.seen (h : Added L slot g k pages k') (hl : Loader L slot g k) (hkept : Kept g k a)
    (hmissed : Missed pages a) : k'.seen a = k.seen a := by
  obtain ⟨log, g', hadded, rfl⟩ := h
  have hne := ne_of_findFreeSlot hl.running hl.free
  have hpcb : (Kernel.prepareSlot L slot k).table k.current = k.table k.current :=
    Kernel.setPcb_of_ne _ _ hne
  have hclone : Keeps k (Kernel.prepareSlot L slot k) k.current a :=
    keeps_of_clone hl.holds hl.running hne rfl hpcb
  have hlive : ((Kernel.prepareSlot L slot k).table k.current).isLive = true := by
    rw [hpcb]
    exact hl.running
  have hprepared := hl.holds.prepareSlot hl.running hl.free
  refine seen_of_keeps (hclone.trans (hadded.keeps hprepared hlive hmissed)) hadded.current ?_ hkept
  exact fun b hb => (hadded.grown.keeps b hb).trans (mem_prepareSlot hl.holds hb)

theorem Added.append {log : List Page} {g₁ : Ledger} {pages' : List Nat}
    (hl : Loader L slot g k)
    (hfirst : PagesAdded L slot (L.processPml4 slot) log (Kernel.prepareSlot L slot k) k' g g')
    (hpages : log.map Page.va = pages) {log' : List Page}
    (hsecond : PagesAdded L slot (L.processPml4 slot) log' k' k₁ g' g₁)
    (hpages' : log'.map Page.va = pages') : Added L slot g k (pages ++ pages') k₁ := by
  refine ⟨log ++ log', g₁, hfirst.append (hl.holds.tables.root slot) hsecond, ?_⟩
  rw [List.map_append, hpages, hpages']

theorem Added.reads (h : Added L slot g k pages k') (hl : Loader L slot g k) (reads : List Nat) :
    Added L slot g k pages { k' with reads := reads } := by
  obtain ⟨log, g', hadded, hpages⟩ := h
  have hmore := Added.append hl hadded hpages (PagesAdded.nil (hadded.holds.reads reads)).ofReads rfl
  rwa [List.map_nil, List.append_nil] at hmore

/-- A page is added, or frames run short.  The filling comes last. -/
theorem Added.track (h : Added L slot g k pages k') (hl : Loader L slot g k) (va : Nat)
    (writable user : Bool) :
    (∃ k₁, ∀ fill, Kernel.trackAndMap slot (L.processPml4 slot) writable user fill va k' =
      (.error errOutOfMemory, k₁)) ∨
    ∃ f k₁, Aligned f ∧
      (∀ fill, Kernel.trackAndMap slot (L.processPml4 slot) writable user fill va k' =
        (.ok (), fill va f k₁)) ∧
      ∀ fill, Fills fill → Added L slot g k (pages ++ [va]) (fill va f k₁) := by
  obtain ⟨log, g', hadded, hpages⟩ := h
  have hroot := hadded.grown.table hl.root
  rcases trackAndMap_cases hadded.holds hroot slot va writable user with
    ⟨hrun, _⟩ | ⟨k₁, _, hrun, _⟩ | ⟨f, k₁, g₁, hrun, hpage, hlinked⟩
  · exact Or.inl ⟨k', hrun⟩
  · exact Or.inl ⟨k₁, hrun⟩
  · have haligned : Aligned f :=
      hpage.holds.aligned (by rw [hpage.held]; exact Use.noConfusion)
    refine Or.inr ⟨f, k₁, haligned, hrun, fun fill hfill => ?_⟩
    obtain ⟨e, hone, hof⟩ := hpage.record hfill hroot hlinked
    rw [target_processPml4] at hone
    exact Added.append hl hadded hpages hone hof.pages

/-- A segment is added, or frames run short. -/
theorem Added.segment (h : Added L slot g k pages k') (hl : Loader L slot g k) (look : Look)
    (hph : Kernel.readPhdr (look (.entry i) k') dataPtr hdr i = ph) :
    (∃ k₁, Kernel.loadSegment look dataPtr hdr slot (L.processPml4 slot) i k' =
      (.error errOutOfMemory, k₁)) ∨
    ∃ k₁, Kernel.loadSegment look dataPtr hdr slot (L.processPml4 slot) i k' = (.ok (), k₁) ∧
      Added L slot g k (pages ++ pagesOfHeader ph) k₁ := by
  obtain ⟨log, g', hadded, hpages⟩ := h
  rcases loadSegment_pages look hadded.holds (hadded.grown.table hl.root) i hph with
    ⟨k₁, _, hrun, _⟩ | ⟨log', k₁, g₁, hrun, hadded', hof⟩
  · exact Or.inl ⟨k₁, hrun⟩
  · rw [target_processPml4] at hadded'
    exact Or.inr ⟨k₁, hrun, Added.append hl hadded hpages hadded' hof.pages⟩

/-! ## Headers that stay -/

theorem readPhdr_congr {found found' : Nat → UInt8}
    (h : ∀ j < phdrSize, found (wrappingAdd (Kernel.phdrAddr dataPtr hdr i) j) =
      found' (wrappingAdd (Kernel.phdrAddr dataPtr hdr i) j)) :
    Kernel.readPhdr found dataPtr hdr i = Kernel.readPhdr found' dataPtr hdr i :=
  Elf64Phdr.ofBytes_congr h

/-- The second pass finds the headers that the first one found. -/
theorem loadSegments_headers (hl : Loader L slot g k) (hstay : HeadersStay g k dataPtr) :
    Kernel.loadSegments L throughTables dataPtr (headerOf (.still k.seen) dataPtr) slot
        (Kernel.prepareSlot L slot k) =
      Kernel.loadSegments L (headersFound k.seen) dataPtr (headerOf (.still k.seen) dataPtr) slot
        (Kernel.prepareSlot L slot k) := by
  unfold HeadersStay at hstay
  dsimp only at hstay
  generalize headerOf (.still k.seen) dataPtr = hdr at hstay ⊢
  refine forEach.congr (I := fun done => Added L slot g k
    (done.flatMap (pagesOfEntry (.still k.seen) dataPtr hdr))) (List.range hdr.phnum) hl.added ?_
  intro done i rest k' heq hadded
  obtain ⟨rfl, hi⟩ := range_eq_append_cons heq
  have hph : Kernel.readPhdr (throughTables (.entry i) k') dataPtr hdr i =
      Kernel.phdrAt (.still k.seen) dataPtr hdr i := by
    refine readPhdr_congr fun j hj => ?_
    obtain ⟨hkept, hmissed⟩ := hstay i hi j hj
    exact hadded.seen hl hkept hmissed
  refine ⟨?_, ?_⟩
  · rw [Kernel.loadSegment, Kernel.loadSegment, hph]
    rfl
  · rw [List.flatMap_append, List.flatMap_singleton, pagesOfEntry]
    have hsegment := hadded.segment hl throughTables hph
    generalize Kernel.loadSegment throughTables dataPtr hdr slot (L.processPml4 slot) i k' = r
      at hsegment ⊢
    rcases hsegment with ⟨k₁, rfl⟩ | ⟨k₁, rfl, hmore⟩
    · trivial
    · exact hmore

theorem execLoad_congr
    (h : ∀ slot, k.table.findFreeSlot = some slot →
      Kernel.loadSegments L look dataPtr hdr slot (Kernel.prepareSlot L slot k) =
        Kernel.loadSegments L look' dataPtr hdr slot (Kernel.prepareSlot L slot k)) :
    Kernel.execLoad L look dataPtr hdr range k = Kernel.execLoad L look' dataPtr hdr range k := by
  unfold Kernel.execLoad
  cases hslot : k.table.findFreeSlot with
  | none => rfl
  | some slot =>
      dsimp only
      rw [h slot hslot]

/-- Two ways to read that find the same at first, and load an image that is not refused alike. -/
theorem exec_congr_of_steady (hsteady : Steady look k) (hsteady' : Steady look' k)
    (hheader : look .header k = look' .header k)
    (hload : ∀ range slot reads, checked (atFirst look k) dataPtr size = some range →
      k.table.findFreeSlot = some slot →
      Kernel.loadSegments L look dataPtr (headerOf (atFirst look k) dataPtr) slot
          (Kernel.prepareSlot L slot { k with reads := reads }) =
        Kernel.loadSegments L look' dataPtr (headerOf (atFirst look k) dataPtr) slot
          (Kernel.prepareSlot L slot { k with reads := reads })) :
    k.exec L look dataPtr size = k.exec L look' dataPtr size := by
  refine Kernel.exec_congr hheader (fun i reads => ?_) ?_
  · rw [(hsteady reads).2 i, (hsteady' reads).2 i, hheader]
  intro hdr range reads hhdr hsize hok hbase hpass
  have hheader' : hdr = headerOf (atFirst look k) dataPtr := hhdr.symm
  rw [hheader'] at hok hpass ⊢
  have hvalue := congrArg Prod.fst (firstPass_of_steady hsteady dataPtr
    (headerOf (atFirst look k) dataPtr)
    (List.range (headerOf (atFirst look k) dataPtr).phnum) ⟨2 ^ 64 - 1, 0⟩
    (k.noteReads dataPtr headerSize).reads)
  have hchecked := checked_of_pass hsize hok hbase (hvalue.symm.trans (congrArg Prod.fst hpass))
  exact execLoad_congr fun slot hslot => hload range slot reads hchecked hslot

/-- The loader finds the program headers as they were, if it comes to read them again. -/
def Undisturbed (L : Layout) (k : Kernel) (dataPtr size : Nat) : Prop :=
  ∀ range slot, checked (.still k.seen) dataPtr size = some range →
    k.table.findFreeSlot = some slot → k.Running ∧ ∃ g, Holds L k g ∧ HeadersStay g k dataPtr

theorem HeadersStay.reads (h : HeadersStay g k dataPtr) (reads : List Nat) :
    HeadersStay g { k with reads := reads } dataPtr := h

theorem steady_headersFound (k : Kernel) : Steady (headersFound k.seen) k :=
  fun _ => ⟨rfl, fun _ => rfl⟩

/-- `exec` finds the headers as they were, and copies what it finds. -/
theorem Undisturbed.exec_eq (h : Undisturbed L k dataPtr size) :
    k.exec L throughTables dataPtr size = k.exec L (headersFound k.seen) dataPtr size := by
  refine exec_congr_of_steady (steady_throughTables k) (steady_headersFound k) rfl ?_
  intro range slot reads hchecked hslot
  obtain ⟨hrunning, g, hk, hstay⟩ := h range slot hchecked hslot
  have hseen : ({ k with reads := reads } : Kernel).seen = k.seen := rfl
  have hl : Loader L slot g { k with reads := reads } := ⟨hk.reads reads, hrunning, hslot⟩
  have hsegments := loadSegments_headers hl (hstay.reads reads)
  rw [hseen] at hsegments
  exact hsegments

/-! ## Bytes that stay -/

theorem copyFromUser_congr {look look' : Kernel → Nat → UInt8} {src dst n : Nat}
    (h : ∀ j < n, look (Kernel.copyFromUser look' src dst j k) (wrappingAdd src j) =
      look' (Kernel.copyFromUser look' src dst j k) (wrappingAdd src j)) :
    Kernel.copyFromUser look src dst n k = Kernel.copyFromUser look' src dst n k := by
  induction n with
  | zero => rfl
  | succ n ih =>
      rw [Kernel.copyFromUser, Kernel.copyFromUser, ih fun j hj => h j (by omega), h n (by omega)]

/-- The copy into a page goes through file bytes of the segment. -/
theorem copyFrom_eq (dataPtr : Nat) {inPage j : Nat} (hj : j < ph.pFilesz - inPage) :
    inPage + j < ph.pFilesz ∧
      wrappingAdd (wrappingAdd (wrappingAdd dataPtr ph.pOffset) inPage) j =
        wrappingAdd dataPtr (ph.pOffset + (inPage + j)) := by
  refine ⟨by omega, ?_⟩
  unfold wrappingAdd wordSize
  omega

theorem fills_copyFromUser (look : Kernel → Nat → UInt8) (src : Nat) {n : Nat} (hn : n ≤ 4096) :
    Fills fun _ f k => Kernel.copyFromUser look src f n k :=
  fun _ _ k hf => onlyPage_copyFromUser look hf src hn k

/-- A page is filled with the bytes that were there. -/
theorem loadPage_still {f : Nat} {bytes : Nat → UInt8}
    (h : ∀ src, ∀ j ≤ 4096, ∀ o < ph.pFilesz,
      (Kernel.copyFromUser (fun _ => bytes) src f j k').seen
          (wrappingAdd dataPtr (ph.pOffset + o)) =
        bytes (wrappingAdd dataPtr (ph.pOffset + o))) :
    Kernel.loadPage (headersFound bytes) dataPtr i ph va f k' =
      Kernel.loadPage (Image.still bytes) dataPtr i ph va f k' := by
  rw [Kernel.loadPage, Kernel.loadPage]
  generalize wrappingSub va ph.pVaddr = inPage
  have hcopy : Kernel.copyFromUser (headersFound bytes (.copy i va))
      (wrappingAdd (wrappingAdd dataPtr ph.pOffset) inPage) f (min 0x1000 (ph.pFilesz - inPage)) k' =
      Kernel.copyFromUser (fun _ => bytes)
        (wrappingAdd (wrappingAdd dataPtr ph.pOffset) inPage) f
        (min 0x1000 (ph.pFilesz - inPage)) k' := by
    refine copyFromUser_congr fun j hj => ?_
    obtain ⟨hlt, haddr⟩ := copyFrom_eq dataPtr (Nat.lt_of_lt_of_le hj (Nat.min_le_right _ _))
    have hle : j ≤ 4096 := Nat.le_of_lt (Nat.lt_of_lt_of_le hj (Nat.min_le_left _ _))
    rw [haddr]
    exact h _ j hle _ hlt
  rw [hcopy]
  rfl

/-- The pages of a segment are filled with the bytes that were there. -/
theorem segmentPages_still (hl : Loader L slot g k) (hadded : Added L slot g k pages k')
    (hstay : ∀ o < ph.pFilesz, Kept g k (wrappingAdd dataPtr (ph.pOffset + o)) ∧
      Missed (pages ++ Kernel.segmentPages ph) (wrappingAdd dataPtr (ph.pOffset + o)))
    (writable user : Bool) :
    forEach (Kernel.trackAndMap slot (L.processPml4 slot) writable user
        (Kernel.loadPage (headersFound k.seen) dataPtr i ph)) (Kernel.segmentPages ph) k' =
      forEach (Kernel.trackAndMap slot (L.processPml4 slot) writable user
        (Kernel.loadPage (Image.still k.seen) dataPtr i ph)) (Kernel.segmentPages ph) k' := by
  refine forEach.congr (I := fun done => Added L slot g k (pages ++ done)) _
    (by rwa [List.append_nil]) ?_
  intro done va rest k₁ heq hadded
  rcases hadded.track hl va writable user with ⟨k₂, hrun⟩ | ⟨f, k₂, haligned, hrun, hfilled⟩
  · rw [hrun, hrun]
    exact ⟨rfl, trivial⟩
  have hfill := hfilled _ (fills_loadPage (headersFound k.seen) dataPtr i ph)
  rw [List.append_assoc] at hfill
  rw [hrun, hrun]
  refine ⟨congrArg (Prod.mk _) (loadPage_still fun src j hj o ho => ?_), hfill⟩
  obtain ⟨hkept, hmissed⟩ := hstay o ho
  refine (hfilled _ (fills_copyFromUser (fun _ => k.seen) src hj)).seen hl hkept
    (hmissed.mono ?_)
  rw [heq, List.append_cons done va rest, ← List.append_assoc, ← List.append_assoc]
  exact List.subset_append_left _ _

/-- The second pass loads the segments that were there. -/
theorem loadSegments_still (hl : Loader L slot g k) (hstay : BytesStay g k dataPtr) :
    Kernel.loadSegments L (headersFound k.seen) dataPtr (headerOf (.still k.seen) dataPtr) slot
        (Kernel.prepareSlot L slot k) =
      Kernel.loadSegments L (Image.still k.seen) dataPtr (headerOf (.still k.seen) dataPtr) slot
        (Kernel.prepareSlot L slot k) := by
  unfold BytesStay at hstay
  dsimp only at hstay
  rw [map_snd_plan] at hstay
  generalize headerOf (.still k.seen) dataPtr = hdr at hstay ⊢
  refine forEach.congr (I := fun done => Added L slot g k
    (done.flatMap (pagesOfEntry (.still k.seen) dataPtr hdr))) (List.range hdr.phnum) hl.added ?_
  intro done i rest k' heq hadded
  obtain ⟨rfl, hi⟩ := range_eq_append_cons heq
  have hph : Kernel.readPhdr (headersFound k.seen (.entry i) k') dataPtr hdr i =
      Kernel.phdrAt (.still k.seen) dataPtr hdr i := rfl
  refine ⟨?_, ?_⟩
  · rw [Kernel.loadSegment_eq, Kernel.loadSegment, hph]
    by_cases htype : (Kernel.phdrAt (.still k.seen) dataPtr hdr i).pType = ptLoad
    · rw [if_neg (not_not.mpr htype), if_neg (not_not.mpr htype)]
      refine segmentPages_still hl (hadded.reads hl _) (fun o ho => ?_) _ _
      obtain ⟨hkept, hmissed⟩ := hstay i hi htype o ho
      refine ⟨hkept, hmissed.mono ?_⟩
      obtain ⟨rest', hrange⟩ := range_append_cons hi
      rw [hrange, List.flatMap_append, List.flatMap_cons, ← List.append_assoc, pagesOfEntry,
        pagesOfHeader, if_pos htype]
      exact List.subset_append_left _ _
    · rw [if_pos htype, if_pos htype]
  · rw [List.flatMap_append, List.flatMap_singleton, pagesOfEntry]
    have hsegment := hadded.segment hl (headersFound k.seen) hph
    generalize Kernel.loadSegment (headersFound k.seen) dataPtr hdr slot (L.processPml4 slot) i k' = r
      at hsegment ⊢
    rcases hsegment with ⟨k₁, rfl⟩ | ⟨k₁, rfl, hmore⟩
    · trivial
    · exact hmore

theorem BytesStay.reads (h : BytesStay g k dataPtr) (reads : List Nat) :
    BytesStay g { k with reads := reads } dataPtr := h

/-- The loader finds the program headers and the segments as they were. -/
def Settled (L : Layout) (k : Kernel) (dataPtr size : Nat) : Prop :=
  ∀ range slot, checked (.still k.seen) dataPtr size = some range →
    k.table.findFreeSlot = some slot →
    k.Running ∧ ∃ g, Holds L k g ∧ HeadersStay g k dataPtr ∧ BytesStay g k dataPtr

theorem Settled.undisturbed (h : Settled L k dataPtr size) : Undisturbed L k dataPtr size := by
  intro range slot hchecked hslot
  obtain ⟨hrunning, g, hk, hheaders, -⟩ := h range slot hchecked hslot
  exact ⟨hrunning, g, hk, hheaders⟩

/-- `exec` loads the image as it was. -/
theorem Settled.exec_eq (h : Settled L k dataPtr size) :
    k.exec L throughTables dataPtr size = k.exec L (Image.still k.seen) dataPtr size := by
  rw [h.undisturbed.exec_eq]
  refine exec_congr_of_steady (steady_headersFound k) (fun _ => ⟨rfl, fun _ => rfl⟩) rfl ?_
  intro range slot reads hchecked hslot
  obtain ⟨hrunning, g, hk, -, hbytes⟩ := h range slot hchecked hslot
  have hseen : ({ k with reads := reads } : Kernel).seen = k.seen := rfl
  have hl : Loader L slot g { k with reads := reads } := ⟨hk.reads reads, hrunning, hslot⟩
  have hsegments := loadSegments_still hl (hbytes.reads reads)
  rw [hseen] at hsegments
  exact hsegments

/-! ## Whatever is found -/

/-- What is found at each address of a copy. -/
theorem exists_found (look : Kernel → Nat → UInt8) (src dst : Nat) {n : Nat} (hn : n ≤ wordSize)
    (k : Kernel) :
    ∃ found, Kernel.copyFromUser (fun _ => found) src dst n k =
      Kernel.copyFromUser look src dst n k := by
  induction n with
  | zero => exact ⟨fun _ => 0, rfl⟩
  | succ n ih =>
      obtain ⟨found, hfound⟩ := ih (by omega)
      have hother : ∀ j < n, wrappingAdd src j ≠ wrappingAdd src n := by
        intro j hj
        unfold wrappingAdd
        unfold wordSize at hn ⊢
        omega
      refine ⟨Function.update found (wrappingAdd src n)
        (look (Kernel.copyFromUser look src dst n k) (wrappingAdd src n)), ?_⟩
      have hsame : Kernel.copyFromUser (fun _ => Function.update found (wrappingAdd src n)
          (look (Kernel.copyFromUser look src dst n k) (wrappingAdd src n))) src dst n k =
          Kernel.copyFromUser look src dst n k := by
        rw [← hfound]
        exact copyFromUser_congr fun j hj => Function.update_of_ne (hother j hj) _ found
      rw [Kernel.copyFromUser, Kernel.copyFromUser, hsame, Function.update_self]

/-- What is found for a page. -/
theorem exists_copied (look : Look) (slot : Pid) (pml4 : Nat) (writable user : Bool) (dataPtr i : Nat)
    (ph : Elf64Phdr) (va : Nat) (k : Kernel) :
    ∃ found, ∀ image : Image, image.found (.copy i va) = found →
      Kernel.trackAndMap slot pml4 writable user (Kernel.loadPage image dataPtr i ph) va k =
        Kernel.trackAndMap slot pml4 writable user (Kernel.loadPage look dataPtr i ph) va k := by
  unfold Kernel.trackAndMap
  rcases k.allocFrame with ⟨_ | f, k₁⟩
  · exact ⟨fun _ => 0, fun _ _ => rfl⟩
  dsimp only
  rcases (k₁.trackFrame slot f).mapPage pml4 va f writable user with ⟨_ | _, k₂⟩
  · exact ⟨fun _ => 0, fun _ _ => rfl⟩
  dsimp only
  have hn : min 0x1000 (ph.pFilesz - wrappingSub va ph.pVaddr) ≤ wordSize :=
    Nat.le_trans (Nat.min_le_left _ _) (by decide)
  obtain ⟨found, hfound⟩ := exists_found (look (.copy i va))
    (wrappingAdd (wrappingAdd dataPtr ph.pOffset) (wrappingSub va ph.pVaddr)) f hn k₂
  refine ⟨found, fun image himage => congrArg (Prod.mk _) ?_⟩
  have hlook : image.look (.copy i va) = fun _ => found := funext fun _ => himage
  rw [Kernel.loadPage, Kernel.loadPage, hlook, hfound]

/-- What is found for the pages of a segment. -/
theorem exists_pages (look : Look) (slot : Pid) (pml4 : Nat) (writable user : Bool) (dataPtr i : Nat)
    (ph : Elf64Phdr) (k : Kernel) :
    ∃ copied : Nat → Nat → UInt8, ∀ image : Image, (∀ va, image.found (.copy i va) = copied va) →
      forEach (Kernel.trackAndMap slot pml4 writable user (Kernel.loadPage image dataPtr i ph))
          (Kernel.segmentPages ph) k =
        forEach (Kernel.trackAndMap slot pml4 writable user (Kernel.loadPage look dataPtr i ph))
          (Kernel.segmentPages ph) k := by
  have hnodup : (Kernel.segmentPages ph).Nodup := nodup_pagesFrom _ _
  obtain ⟨copied, -, hcopied⟩ := forEach.foretold (P := fun _ _ => True)
    (fun va k => (exists_copied look slot pml4 writable user dataPtr i ph va k).imp
      fun _ h => ⟨trivial, h⟩) hnodup k
  exact ⟨copied, fun image himage => hcopied image fun va _ => himage va⟩

/-- What is found for a program header of the second pass: its bytes, and those of its pages. -/
def answer (image : Image) (i : Nat) : (Nat → UInt8) × (Nat → Nat → UInt8) :=
  (image.found (.entry i), fun va => image.found (.copy i va))

theorem exists_answer (look : Look) (dataPtr : Nat) (hdr : Elf64Header) (slot : Pid) (pml4 i : Nat)
    (k : Kernel) :
    ∃ c : (Nat → UInt8) × (Nat → Nat → UInt8), (∃ k', c.1 = look (.entry i) k') ∧
      ∀ image, answer image i = c →
        Kernel.loadSegment image dataPtr hdr slot pml4 i k =
          Kernel.loadSegment look dataPtr hdr slot pml4 i k := by
  obtain ⟨copied, hcopied⟩ := exists_pages look slot pml4 true
    ((Kernel.readPhdr (look (.entry i) k) dataPtr hdr i).pFlags.testBit 1) dataPtr i
    (Kernel.readPhdr (look (.entry i) k) dataPtr hdr i)
    (k.noteReads (Kernel.phdrAddr dataPtr hdr i) phdrSize)
  refine ⟨(look (.entry i) k, copied), ⟨k, rfl⟩, fun image himage => ?_⟩
  have hentry : image.look (.entry i) k = look (.entry i) k := congrArg Prod.fst himage
  have hpages := hcopied image fun va => congrFun (congrArg Prod.snd himage) va
  rw [Kernel.loadSegment, Kernel.loadSegment, hentry]
  dsimp only
  rw [hpages]

/-- The image in which the header is found at first, and then the answers of the second pass. -/
def Image.answering (bytes : Nat → UInt8) (c : Nat → (Nat → UInt8) × (Nat → Nat → UInt8)) : Image where
  found
    | .header => bytes
    | .scan _ => bytes
    | .entry i => (c i).1
    | .copy i va => (c i).2 va

/-- What is found when the process is loaded. -/
theorem exists_answers (L : Layout) (look : Look) (bytes : Nat → UInt8) (dataPtr : Nat)
    (hdr : Elf64Header) (k : Kernel) :
    ∃ c : Nat → (Nat → UInt8) × (Nat → Nat → UInt8),
      (∀ i < hdr.phnum, ∃ k', (c i).1 = look (.entry i) k') ∧
      ∀ range, Kernel.execLoad L look dataPtr hdr range k =
        Kernel.execLoad L (Image.answering bytes c) dataPtr hdr range k := by
  cases hslot : k.table.findFreeSlot with
  | none =>
      refine ⟨fun i => (look (.entry i) k, fun va => look (.copy i va) k),
        fun i _ => ⟨k, rfl⟩, fun range => execLoad_congr fun slot hslot' => ?_⟩
      rw [hslot] at hslot'
      cases hslot'
  | some slot =>
      obtain ⟨c, hc, hloop⟩ := forEach.foretold
        (fun i k => exists_answer look dataPtr hdr slot (L.processPml4 slot) i k)
        List.nodup_range (Kernel.prepareSlot L slot k)
      refine ⟨c, fun i hi => hc i (List.mem_range.mpr hi),
        fun range => execLoad_congr fun slot' hslot' => ?_⟩
      rw [hslot] at hslot'
      cases hslot'
      exact (hloop (Image.answering bytes c) fun _ _ => rfl).symm

/-- Whatever the loader finds, there is an image that says so. -/
theorem exists_image (L : Layout) (hsteady : Steady look k) (dataPtr size : Nat) :
    ∃ image : Image, image.found .header = look .header k ∧
      (∀ i, image.found (.scan i) = look .header k) ∧
      (∀ i < (headerOf (atFirst look k) dataPtr).phnum,
        ∃ k', image.found (.entry i) = look (.entry i) k') ∧
      k.exec L look dataPtr size = k.exec L image dataPtr size := by
  obtain ⟨c, hc, hload⟩ := exists_answers L look (look .header k) dataPtr
    (headerOf (atFirst look k) dataPtr) (Kernel.firstPass look dataPtr
      (headerOf (atFirst look k) dataPtr) (List.range (headerOf (atFirst look k) dataPtr).phnum)
      ⟨2 ^ 64 - 1, 0⟩ (k.noteReads dataPtr headerSize)).2
  refine ⟨.answering (look .header k) c, rfl, fun _ => rfl, hc, ?_⟩
  refine Kernel.exec_congr rfl (fun i reads => (hsteady reads).2 i) ?_
  intro hdr range reads hhdr _ _ _ hpass
  have hheader : hdr = headerOf (atFirst look k) dataPtr := hhdr.symm
  rw [hheader] at hpass ⊢
  rw [hpass] at hload
  exact hload range

/-- What the running process asks the loader for is a step with an image. -/
theorem exists_step_exec (hrunning : k.Running) (dataPtr size : Nat) :
    ∃ image, Step L k (.exec image dataPtr size) (k.exec L throughTables dataPtr size).2 := by
  obtain ⟨image, -, -, -, hexec⟩ := exists_image L (steady_throughTables k) dataPtr size
  refine ⟨image, ?_⟩
  rw [hexec]
  exact .exec hrunning

end PureOS.Memory
