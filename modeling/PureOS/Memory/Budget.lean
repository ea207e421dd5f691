import PureOS.Memory.Outcome
import PureOS.Memory.Supply

set_option autoImplicit false

/-!
# Memory: what a new process needs

The creators map pages into a copy of the tables of the running process.  What they need is
counted in the tables that are there before the call, and what they have is what the allocator
gives out.
-/

namespace PureOS.Memory

open PureOS.Foundation PureOS.Process

/-- The allocator gives out `n` frames, and then no more. -/
def Yields : Nat → Kernel → Prop
  | 0, k => k.allocFrame.1 = none
  | n + 1, k => k.allocFrame.1 ≠ none ∧ Yields n k.allocFrame.2

/-- The allocator has the frames for some pages, and for the tables that are missing. -/
def Enough (k : Kernel) (pages : List Nat) : Prop :=
  ∃ n d, Yields n k ∧ demand k.mem (target k.readCr3) pages = some d ∧ d ≤ n

variable {L : Layout} {k k' : Kernel} {g g' : Ledger} {m m' : Nat → UInt8}
variable {root root' : Nat} {pid slot : Pid} {l : List Nat}

/-! ## What there is -/

theorem Yields.unique {n n' : Nat} {k : Kernel} (h : Yields n k) (h' : Yields n' k) : n = n' := by
  induction n generalizing n' k with
  | zero =>
      cases n' with
      | zero => rfl
      | succ n' => exact absurd h h'.1
  | succ n ih =>
      cases n' with
      | zero => exact absurd h' h.1
      | succ n' => exact congrArg (· + 1) (ih h.2 h'.2)

/-- What the ledger counts is what the allocator gives out. -/
theorem Holds.yields (h : Holds L k g) : Yields (available k g) k := by
  generalize hn : available k g = n
  induction n generalizing k g with
  | zero =>
      rcases allocFrame_cases h with ⟨hnone, -⟩ | ⟨f, k', g', -, htaken⟩
      · rw [Yields, hnone]
      · have hless := htaken.less
        omega
  | succ n ih =>
      rcases allocFrame_cases h with ⟨-, hzero⟩ | ⟨f, k', g', hsome, htaken⟩
      · omega
      · have hless := htaken.less
        have hcount : available k' g' = n := by omega
        rw [Yields, hsome]
        exact ⟨Option.some_ne_none f, ih htaken.holds hcount⟩

theorem Holds.yields_iff (h : Holds L k g) {n : Nat} : Yields n k ↔ n = available k g :=
  ⟨fun hn => hn.unique h.yields, fun hn => hn ▸ h.yields⟩

/-- Two kernels that have the same number of frames. -/
theorem Holds.yields_congr (h : Holds L k g) (h' : Holds L k' g') :
    (∀ n, Yields n k' ↔ Yields n k) ↔ available k' g' = available k g := by
  constructor
  · intro hsame
    exact h.yields_iff.mp ((hsame _).mp h'.yields)
  · intro heq n
    rw [h.yields_iff, h'.yields_iff, heq]

/-! ## What is needed -/

theorem demandAfter_congr (h : ∀ virt, gaps m' virt 3 root' = gaps m virt 3 root)
    (done l : List Nat) : demandAfter m' root' done l = demandAfter m root done l := by
  induction l generalizing done with
  | nil => rfl
  | cons va rest ih => rw [demandAfter, demandAfter, ih, gapsAfter, gapsAfter, h va]

/-- In the copy of a root the same tables are missing. -/
theorem Holds.gaps_clone (h : Holds L k g) (hlive : (k.table k.current).isLive = true)
    (pid : Pid) (virt : Nat) :
    gaps (k.cloneCurrentPml4For L pid).mem virt 3 (L.processPml4 pid) =
      gaps k.mem virt 3 (target k.readCr3) := by
  have hi := index_lt 3 virt
  have hcell := cell_clone L k pid hi
  have hroot : g.use (pageDown k.readCr3) = .table 3 0 := h.root_of_live hlive
  have htarget : target k.readCr3 = pageDown k.readCr3 :=
    target_eq_pageDown (h.base_lt_of_live hlive)
  rw [htarget]
  cases hpresent : present (cell k.mem (pageDown k.readCr3) (index 3 virt)) with
  | false => rw [gaps_absent hpresent, gaps_absent (by rw [hcell, hpresent])]
  | true =>
      cases hhuge : isHuge (cell k.mem (pageDown k.readCr3) (index 3 virt)) with
      | true =>
          rw [gaps_huge hpresent hhuge, gaps_huge (by rw [hcell, hpresent]) (by rw [hcell, hhuge])]
      | false =>
          rw [gaps_present hpresent hhuge,
            gaps_present (by rw [hcell, hpresent]) (by rw [hcell, hhuge]), hcell]
          have hchild := (h.tables.child _ 2 0 hroot _ hi hpresent hhuge).1
          refine gaps_congr h.tables hchild fun t n pre ht hwithin i hi => ?_
          have hne : t ≠ L.processPml4 pid := by
            rintro rfl
            have htop := h.tables.root pid
            rw [ht] at htop
            have hle := hwithin.1
            cases htop
            exact absurd hle (by decide)
          exact cell_of_onlyPage (clone_onlyPage L k pid) (L.pml4_aligned pid) (h.aligned_table ht)
            hne hi

/-- A step that maps pages goes through if there is enough for them, and fails if not. -/
theorem Takes.decides {step : Kernel → Except Int Unit × Kernel}
    (htakes : Takes L k.mem root l step) (h : Holds L k g) (hroot : g.use root = .table 3 0) :
    (∃ d, demand k.mem root l = some d ∧ d ≤ available k g) ∧ (∃ k', step k = (.ok (), k')) ∨
    (¬∃ d, demand k.mem root l = some d ∧ d ≤ available k g) ∧
      ∃ k', step k = (.error errOutOfMemory, k') := by
  obtain ⟨henough, hshort⟩ := htakes [] k g (.start h hroot)
  by_cases hfits : ∃ d, demand k.mem root l = some d ∧ d ≤ available k g
  · obtain ⟨d, hd, hle⟩ := hfits
    obtain ⟨k', g', hrun, -, -⟩ := henough d hd hle
    exact Or.inl ⟨⟨d, hd, hle⟩, k', hrun⟩
  · refine Or.inr ⟨hfits, hshort fun d hd => ?_⟩
    by_contra hle
    exact hfits ⟨d, hd, Nat.not_lt.mp hle⟩

theorem Holds.enough_iff (h : Holds L k g) :
    Enough k l ↔ ∃ d, demand k.mem (target k.readCr3) l = some d ∧ d ≤ available k g := by
  constructor
  · rintro ⟨n, d, hn, hd, hle⟩
    exact ⟨d, hd, h.yields_iff.mp hn ▸ hle⟩
  · rintro ⟨d, hd, hle⟩
    exact ⟨_, d, h.yields, hd, hle⟩

/-- The same for a step in a new slot, whose root is a copy. -/
theorem Takes.decides_slot {step : Kernel → Except Int Unit × Kernel} {k₁ : Kernel}
    (htakes : Takes L k₁.mem (L.processPml4 slot) l step) (h : Holds L k g) (h₁ : Holds L k₁ g)
    (hlive : (k.table k.current).isLive = true)
    (hmem : k₁.mem = (k.cloneCurrentPml4For L slot).mem)
    (hcount : available k₁ g = available k g) :
    Enough k l ∧ (∃ k', step k₁ = (.ok (), k')) ∨
      ¬Enough k l ∧ ∃ k', step k₁ = (.error errOutOfMemory, k') := by
  have hdemand : demand k₁.mem (L.processPml4 slot) l = demand k.mem (target k.readCr3) l := by
    refine demandAfter_congr (fun virt => ?_) [] l
    rw [hmem]
    exact h.gaps_clone hlive slot virt
  have hdecides := htakes.decides h₁ (h₁.tables.root slot)
  rwa [hdemand, hcount, ← h.enough_iff] at hdecides

/-! ## The creators -/

/-- A loop over pages takes what the pages take. -/
theorem takes_pages {body : Nat → Kernel → Except Int Unit × Kernel} {pml4 : Nat}
    (hbody : AddsExactly L pml4 body) (m : Nat → UInt8) (l : List Nat) :
    Takes L m (target pml4) l (forEach body l) := by
  have hall : Takes L m (target pml4) (l.flatMap fun va => [va]) (forEach body l) :=
    Takes.forEach (fun va => Takes.page hbody m va) l
  rwa [List.flatMap_singleton'] at hall

/-- The loops of `spawn_initial_user`. -/
def Kernel.spawnLoops (L : Layout) (slot : Pid) (entry : Nat) (k : Kernel) :
    Except Int Unit × Kernel :=
  match forEach (mapAndTrack slot (L.processPml4 slot) false true copyCode)
    (pagesFrom (pageDown entry) (pageDown (wrappingAdd (pageDown entry) 0x2000))) k with
  | (.ok (), k) =>
      forEach (mapAndTrack slot (L.processPml4 slot) true true fun _ _ k => k)
        (pagesFrom (pageDown (L.userStacks slot))
          (pageDown (wrappingAdd (L.userStacks slot) (userStackBytes + 0xFFF)))) k
  | (.error e, k) => (.error e, k)

theorem takes_spawnLoops (L : Layout) (slot : Pid) (entry : Nat) (m : Nat → UInt8) :
    Takes L m (L.processPml4 slot) (Kernel.spawnPages L slot entry)
      (Kernel.spawnLoops L slot entry) := by
  have hself := target_processPml4 L slot
  have hcode := takes_pages (addsExactly_mapAndTrack (L := L) slot (L.processPml4 slot) false true
    fills_copyCode) m (pagesFrom (pageDown entry) (pageDown (wrappingAdd (pageDown entry) 0x2000)))
  have hstack := takes_pages (addsExactly_mapAndTrack (L := L) slot (L.processPml4 slot) true true
    fills_nothing) m (pagesFrom (pageDown (L.userStacks slot))
      (pageDown (wrappingAdd (L.userStacks slot) (userStackBytes + 0xFFF))))
  rw [hself] at hcode hstack
  exact hcode.seq hstack

/-- Two loops, one after the other. -/
def Kernel.inOrder (first : Except Int Unit × Kernel)
    (second : Kernel → Except Int Unit × Kernel) : Except Int Unit × Kernel :=
  match first with
  | (.ok (), k) => second k
  | (.error e, k) => (.error e, k)

theorem twoLoops_eq (slot : Pid) (first : Except Int Unit × Kernel)
    (second : Kernel → Except Int Unit × Kernel) :
    Kernel.twoLoops slot first second =
      match Kernel.inOrder first second with
      | (.error e, k) => (e, k)
      | (.ok (), k) => ((slot : Int), k) := by
  rcases first with ⟨_ | _, k₁⟩ <;> rfl

theorem spawnInitialUser_of_slot (hslot : k.table.findFreeSlot = some slot) (entry : Nat) :
    k.spawnInitialUser L entry =
      match Kernel.spawnLoops L slot entry (k.provisioned L slot entry) with
      | (.error e, k) => (e, k)
      | (.ok (), k) => ((slot : Int), k) := by
  rw [Kernel.spawnInitialUser_loops L hslot, twoLoops_eq]
  rfl

/-- `spawn_initial_user` gets its slot if there is enough for its pages, and fails if not. -/
theorem Holds.spawnInitialUser_decides (h : Holds L k g)
    (hlive : (k.table k.current).isLive = true) (hslot : k.table.findFreeSlot = some slot)
    (entry : Nat) :
    Enough k (Kernel.spawnPages L slot entry) ∧ (k.spawnInitialUser L entry).1 = slot ∨
      ¬Enough k (Kernel.spawnPages L slot entry) ∧
        (k.spawnInitialUser L entry).1 = errOutOfMemory := by
  rw [spawnInitialUser_of_slot hslot]
  rcases (takes_spawnLoops L slot entry _).decides_slot h (h.provisioned hlive hslot entry) hlive
    rfl rfl with ⟨henough, k', hrun⟩ | ⟨hnot, k', hrun⟩
  · exact Or.inl ⟨henough, by rw [hrun]⟩
  · exact Or.inr ⟨hnot, by rw [hrun]⟩

/-- What is read does not matter to what is taken. -/
theorem Takes.noteReads {step : Kernel → Except Int Unit × Kernel} (h : Takes L m root l step)
    (addr n : Nat) : Takes L m root l fun k => step (k.noteReads addr n) :=
  fun done k g hsince => h done (k.noteReads addr n) g
    ⟨hsince.holds.reads _, hsince.isRoot, hsince.gaps_eq⟩

theorem takes_nothing (L : Layout) (m : Nat → UInt8) (root : Nat) :
    Takes L m root [] fun k => (.ok (), k) :=
  Takes.skip fun k _ h => ⟨k, rfl, h, rfl, rfl⟩

variable {image : Image} {dataPtr : Nat} {hdr : Elf64Header} {range : SegmentRange}

/-- The loops of `exec`. -/
def Kernel.execLoops (L : Layout) (image : Image) (dataPtr : Nat) (hdr : Elf64Header)
    (range : SegmentRange) (slot : Pid) (k : Kernel) : Except Int Unit × Kernel :=
  match loadSegments L image dataPtr hdr slot k with
  | (.ok (), k) => mapStack L slot range.loadEnd k
  | (.error e, k) => (.error e, k)

theorem takes_loadSegment (L : Layout) (image : Image) (dataPtr : Nat) (hdr : Elf64Header)
    (slot : Pid) (m : Nat → UInt8) (i : Nat) :
    Takes L m (L.processPml4 slot) (pagesOfEntry image dataPtr hdr i)
      (Kernel.loadSegment image dataPtr hdr slot (L.processPml4 slot) i) := by
  have hpages := takes_pages (addsExactly_trackAndMap (L := L) slot (L.processPml4 slot) true
    ((Kernel.phdrAt image dataPtr hdr i).pFlags.testBit 1)
    (fills_loadPage image dataPtr i (Kernel.phdrAt image dataPtr hdr i))) m
    (Kernel.segmentPages (Kernel.phdrAt image dataPtr hdr i))
  rw [target_processPml4] at hpages
  have hall := hpages.noteReads (Kernel.phdrAddr dataPtr hdr i) phdrSize
  have hnone := (takes_nothing L m (L.processPml4 slot)).noteReads (Kernel.phdrAddr dataPtr hdr i)
    phdrSize
  rw [show Kernel.loadSegment image dataPtr hdr slot (L.processPml4 slot) i = _ from
    funext fun k => Kernel.loadSegment_eq image dataPtr hdr slot (L.processPml4 slot) i k,
    pagesOfEntry, pagesOfHeader]
  by_cases htype : (Kernel.phdrAt image dataPtr hdr i).pType = ptLoad
  · simpa only [htype, if_true, ne_eq, not_true_eq_false, if_false] using hall
  · simpa only [htype, if_false, ne_eq, not_false_eq_true, if_true] using hnone

theorem takes_execLoops (L : Layout) (image : Image) (dataPtr : Nat) (hdr : Elf64Header)
    (range : SegmentRange) (slot : Pid) (m : Nat → UInt8) :
    Takes L m (L.processPml4 slot) (execPages image dataPtr hdr range)
      (Kernel.execLoops L image dataPtr hdr range slot) := by
  have hsegments := Takes.forEach (fun i => takes_loadSegment L image dataPtr hdr slot m i)
    (List.range hdr.phnum)
  have hstack := takes_pages (addsExactly_trackAndMap (L := L) slot (L.processPml4 slot) true true
    fills_nothing) m (Kernel.stackPages range.loadEnd)
  rw [target_processPml4] at hstack
  rw [execPages, map_snd_plan]
  exact hsegments.seq hstack

theorem execLoad_of_slot (hslot : k.table.findFreeSlot = some slot) :
    Kernel.execLoad L image dataPtr hdr range k =
      match Kernel.execLoops L image dataPtr hdr range slot (Kernel.prepareSlot L slot k) with
      | (.error e, k) => (e, k)
      | (.ok (), k) => ((slot : Int),
          Kernel.finishElf L slot hdr.entry (pageDown range.base) range.loadEnd k) := by
  rw [Kernel.execLoad, hslot, Kernel.execLoops]
  dsimp only
  rcases Kernel.loadSegments L image dataPtr hdr slot (Kernel.prepareSlot L slot k) with
    ⟨_ | _, k₁⟩ <;> rfl

/-- The loader gets its slot if there is enough for the image and the stack, and fails if not. -/
theorem Holds.execLoad_decides (h : Holds L k g) (hlive : (k.table k.current).isLive = true)
    (hslot : k.table.findFreeSlot = some slot) (image : Image) (dataPtr : Nat) (hdr : Elf64Header)
    (range : SegmentRange) :
    Enough k (execPages image dataPtr hdr range) ∧
        (Kernel.execLoad L image dataPtr hdr range k).1 = slot ∨
      ¬Enough k (execPages image dataPtr hdr range) ∧
        (Kernel.execLoad L image dataPtr hdr range k).1 = errOutOfMemory := by
  rw [execLoad_of_slot hslot]
  rcases (takes_execLoops L image dataPtr hdr range slot _).decides_slot h
    (h.prepareSlot hlive hslot) hlive rfl rfl with ⟨henough, k', hrun⟩ | ⟨hnot, k', hrun⟩
  · exact Or.inl ⟨henough, by rw [hrun]⟩
  · exact Or.inr ⟨hnot, by rw [hrun]⟩

end PureOS.Memory
