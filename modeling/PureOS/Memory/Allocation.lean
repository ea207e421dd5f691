import PureOS.Memory.Budget
import PureOS.Memory.Run

set_option autoImplicit false

/-!
# Memory: memory for the running process

When `memory_allocate` gives the running process pages that it did not have, and when a failure
leaves everything as it was.
-/

namespace PureOS.Memory

open PureOS.Foundation PureOS.Process

/-- A frame that the allocator has: on the free list, or in the rest of the pool. -/
def FreeFrame (k : Kernel) (f : Nat) : Prop :=
  (∃ l, Threaded (word k.mem) k.freeListHead l ∧ f ∈ l) ∨
    k.poolNext ≠ 0 ∧ Aligned f ∧ k.poolNext ≤ f ∧ f + 4096 ≤ k.poolEnd

/-- A page between two addresses. -/
def PageIn (base size va : Nat) : Prop := Aligned va ∧ base ≤ va ∧ va < base + size

/-- The memory at `base` was allocated: it lies in the layer of the running process, and each of
its pages leads to a frame of its own, which was free, and led nowhere before. -/
structure Allocated (k k' : Kernel) (size base : Nat) : Prop where
  aligned : Aligned base
  above : (k.table k.current).layerBase ≤ base
  below : base + size ≤ (k.table k.current).layerBase + (k.table k.current).layerSize
  pages : ∃ frame : Nat → Nat, (∀ va, PageIn base size va → FreeFrame k (frame va) ∧
      translate k'.mem k.readCr3 va = some ⟨frame va, true, true⟩ ∧
      translate k.mem k.readCr3 va = none) ∧
    ∀ va va', PageIn base size va → PageIn base size va' → frame va = frame va' → va = va'

/-- The mappings of the running process, its next free address and the number of available
frames are as before. -/
structure Unchanged (k k' : Kernel) : Prop where
  mappings : ∀ va, translate k'.mem k.readCr3 va = translate k.mem k.readCr3 va
  nextFree : (k'.table k.current).nextFree = (k.table k.current).nextFree
  count : ∀ n, Yields n k' ↔ Yields n k

/-- There are frames for an allocation up to `fin`, and its pages can lead somewhere, but do not
yet. -/
def Clear (k : Kernel) (fin : Nat) : Prop :=
  Enough k (k.allocationPages fin) ∧
    ∀ va ∈ k.allocationPages fin, Canonical va ∧ translate k.mem k.readCr3 va = none

/-- The layer of a process: allocations begin in it, at a page. -/
structure LayerHolds (pcb : Pcb) : Prop where
  aligned : Aligned pcb.nextFree
  above : pcb.layerBase ≤ pcb.nextFree
  size_le : pcb.layerSize ≤ 2 ^ 64 - 4096

variable {L : Layout} {k k' k₀ : Kernel} {g g' : Ledger} {pid : Pid}
variable {size fin base va lo hi : Nat} {log : List Page}

theorem Unchanged.refl (k : Kernel) : Unchanged k k := ⟨fun _ => rfl, rfl, fun _ => Iff.rfl⟩

theorem PoolHolds.freeFrame_of_fresh (h : PoolHolds k g) {f : Nat} (hf : g.Fresh f) :
    FreeFrame k f := by
  rcases hf with hfree | hunused
  · exact Or.inl ⟨g.free, h.threaded, (h.mem_free f).mpr hfree⟩
  · exact Or.inr ((h.unused f).mp hunused)

/-! ## Sizes and pages -/

theorem alignUp_of_le (hsize : size ≤ 2 ^ 64 - 4096) :
    size ≤ alignUp size ∧ alignUp size < size + 4096 ∧ Aligned (alignUp size) := by
  have hadd : wrappingAdd size 4095 = size + 4095 := wrappingAdd_of_lt (by unfold wordSize; omega)
  rw [alignUp, hadd]
  unfold pageDown Aligned
  omega

theorem mem_pagesFrom (hlo : Aligned lo) :
    va ∈ pagesFrom lo hi ↔ Aligned va ∧ lo ≤ va ∧ va + 4096 ≤ hi := by
  unfold Aligned at *
  rw [pagesFrom, List.mem_map]
  constructor
  · rintro ⟨i, hi', rfl⟩
    have hlt := List.mem_range.mp hi'
    omega
  · rintro ⟨haligned, hle, hend⟩
    exact ⟨(va - lo) / 4096, List.mem_range.mpr (by omega), by omega⟩

theorem allocationEnd_eq_some (h : k.allocationEnd size = some fin) :
    size ≠ 0 ∧ fin = (k.table k.current).nextFree + alignUp size ∧ fin < wordSize ∧
      fin ≤ wrappingAdd (k.table k.current).layerBase (k.table k.current).layerSize := by
  unfold Kernel.allocationEnd at h
  split at h
  · cases h
  next hok =>
    obtain ⟨hadd, hle⟩ := Option.filter_eq_some_iff.mp h
    obtain ⟨heq, hlt⟩ := checkedAdd_eq_some hadd
    exact ⟨fun hzero => hok (Or.inl hzero), heq, heq ▸ hlt, of_decide_eq_true hle⟩

/-- The pages of an allocation are the pages between its ends. -/
theorem mem_allocationPages (hlayer : LayerHolds (k.table k.current))
    (hend : k.allocationEnd size = some fin) (hsize : size ≤ 2 ^ 64 - 4096) :
    va ∈ k.allocationPages fin ↔ PageIn (k.table k.current).nextFree size va := by
  have heq := (allocationEnd_eq_some hend).2.1
  obtain ⟨hle, hlt, haligned⟩ := alignUp_of_le hsize
  have hnext := hlayer.aligned
  rw [Kernel.allocationPages, mem_pagesFrom hnext]
  unfold PageIn Aligned at *
  omega

/-- Different pages that can lead somewhere have different numbers. -/
theorem pageNo_injective {va va' : Nat} (hva : Aligned va) (hva' : Aligned va') (h : Canonical va)
    (h' : Canonical va') (heq : pageNo va = pageNo va') : va = va' := by
  unfold Aligned at hva hva'
  unfold Canonical at h h'
  unfold pageNo at heq
  omega

/-! ## Failure -/

/-- The frame of a page in a record. -/
def frameOf (log : List Page) (va : Nat) : Nat :=
  ((log.find? fun e => e.va = va).map Page.frame).getD 0

theorem frameOf_eq (hva : va ∈ log.map Page.va) :
    ∃ e ∈ log, e.va = va ∧ frameOf log va = e.frame := by
  obtain ⟨e, he, heq⟩ := List.mem_map.mp hva
  have hsome : (log.find? fun e => e.va = va).isSome = true :=
    List.find?_isSome.mpr ⟨e, he, decide_eq_true heq⟩
  obtain ⟨e', hfind⟩ := Option.isSome_iff_exists.mp hsome
  have hfound := List.find?_some hfind
  refine ⟨e', List.mem_of_find?_eq_some hfind, of_decide_eq_true hfound, ?_⟩
  rw [frameOf, hfind]
  rfl

/-- Pages that led nowhere are allocated. -/
theorem PagesAdded.allocated (h : Holds L k g) (hlayer : LayerHolds (k.table k.current))
    (hend : k.allocationEnd size = some fin) (hsize : size ≤ 2 ^ 64 - 4096)
    (hadded : PagesAdded L k.current (target k.readCr3) log k k' g g')
    (hof : PagesOf (fun _ _ k => k) true true (k.allocationPages fin) log)
    (hclear : ∀ va ∈ k.allocationPages fin, Canonical va ∧ translate k.mem k.readCr3 va = none)
    (pcb : Pcb) :
    Allocated k (k'.setPcb k.current pcb) size (k.table k.current).nextFree := by
  obtain ⟨-, heq, -, hfin⟩ := allocationEnd_eq_some hend
  have hinside : wrappingAdd (k.table k.current).layerBase (k.table k.current).layerSize ≤
      (k.table k.current).layerBase + (k.table k.current).layerSize := Nat.mod_le _ _
  have hround := (alignUp_of_le hsize).1
  have hpages : ∀ {va}, PageIn (k.table k.current).nextFree size va → va ∈ k.allocationPages fin :=
    (mem_allocationPages hlayer hend hsize).mpr
  have hnumbers : (log.map fun e => pageNo e.va).Nodup := by
    have hmap : log.map (fun e => pageNo e.va) = (k.allocationPages fin).map pageNo := by
      rw [← hof.pages, List.map_map]
      rfl
    rw [hmap]
    refine List.Nodup.map_on (fun va hva va' hva' => ?_) (nodup_pagesFrom _ _)
    exact pageNo_injective ((mem_allocationPages hlayer hend hsize).mp hva).1
      ((mem_allocationPages hlayer hend hsize).mp hva').1 (hclear va hva).1 (hclear va' hva').1
  have hentry : ∀ {va}, PageIn (k.table k.current).nextFree size va →
      ∃ e ∈ log, e.va = va ∧ frameOf log va = e.frame := fun hva =>
    frameOf_eq (hof.pages ▸ hpages hva)
  refine ⟨hlayer.aligned, hlayer.above, by omega, frameOf log, fun va hva => ?_, ?_⟩
  · obtain ⟨e, he, rfl, hframe⟩ := hentry hva
    obtain ⟨hcanonical, hbefore⟩ := hclear _ (hpages hva)
    have hfresh := (hadded.frames e he).1
    obtain ⟨-, haligned, hlt⟩ := h.pool.frame e.frame hfresh.ne_other
    have hmaps := hadded.maps_of_nodup hnumbers he
    rw [(hof.rights e he).1, (hof.rights e he).2] at hmaps
    have htranslate := hmaps.translate hcanonical haligned hlt
    have hpage : e.va % 4096 = 0 := hva.1
    rw [hpage, Nat.add_zero] at htranslate
    rw [hframe]
    exact ⟨h.pool.freeFrame_of_fresh hfresh, htranslate, hbefore⟩
  · intro va va' hva hva' hsame
    obtain ⟨e, he, rfl, hframe⟩ := hentry hva
    obtain ⟨e', he', rfl, hframe'⟩ := hentry hva'
    rw [hframe, hframe'] at hsame
    rw [List.inj_on_of_nodup_map hadded.distinct he he' hsame]

/-- The layers of all live processes. -/
def LayersHold (t : Table) : Prop := ∀ p, (t p).isLive = true → LayerHolds (t p)

theorem LayersHold.update {t : Table} (h : LayersHold t) {pcb : Pcb}
    (hpcb : pcb.isLive = true → LayerHolds pcb) : LayersHold (Function.update t pid pcb) := by
  intro p hlive
  by_cases hp : p = pid
  · subst hp
    rw [Function.update_self] at hlive ⊢
    exact hpcb hlive
  · rw [Function.update_of_ne hp] at hlive ⊢
    exact h p hlive

theorem LayersHold.headSet {t t' : Table} {f : Nat} (h : LayersHold t) (hset : HeadSet pid f t t') :
    LayersHold t' := by
  rw [hset]
  refine h.update fun hlive => ?_
  obtain ⟨haligned, habove, hsize⟩ := h pid hlive
  exact ⟨haligned, habove, hsize⟩

theorem layerHolds_provisionPcb (slot : Pid) (entry base stack tick : Nat) :
    LayerHolds (provisionPcb slot entry base stack tick) where
  aligned := by
    change (ephemeralBase + slot.val * ephemeralBytesPerProcess) % 4096 = 0
    unfold ephemeralBase ephemeralBytesPerProcess
    omega
  above := Nat.le_refl _
  size_le := by
    change ephemeralBytesPerProcess ≤ 2 ^ 64 - 4096
    decide

theorem layerHolds_provisionPcbElf (slot : Pid) (entry base stack lo hi tick : Nat) :
    LayerHolds (provisionPcbElf slot entry base stack (pageDown lo)
      (wrappingSub (pageDown hi) (pageDown lo)) tick) where
  aligned := aligned_pageDown lo
  above := Nat.le_refl _
  size_le := by
    change wrappingSub (pageDown hi) (pageDown lo) ≤ 2 ^ 64 - 4096
    unfold wrappingSub pageDown
    omega

theorem LayersHold.provisioned (h : LayersHold k.table) (slot : Pid) (entry : Nat) :
    LayersHold (k.provisioned L slot entry).table :=
  h.update fun _ => layerHolds_provisionPcb _ _ _ _ _

theorem LayersHold.exec (hl : LayersHold k.table) (h : Holds L k g) (hlive : k.Running)
    (image : Image) (dataPtr size : Nat) : LayersHold (k.exec L image dataPtr size).2.table := by
  obtain ⟨reads, heq⟩ := exec_eq L image k dataPtr size
  rw [heq]
  cases checked image dataPtr size with
  | none => exact hl
  | some range =>
      dsimp only
      have hprepared (slot : Pid) :
          LayersHold (Kernel.prepareSlot L slot { k with reads := reads }).table :=
        hl.headSet (f := 0) rfl
      rcases execLoad_outcome image dataPtr (headerOf image dataPtr) (h.reads reads) hlive range with
        ⟨_, hrun⟩ | ⟨slot, _, ⟨k', g', hrun, hlost⟩ | ⟨log, stack, k', g', hrun, hdone⟩⟩
      · rw [hrun]
        exact hl
      · rw [hrun]
        obtain ⟨f, hheads⟩ := hlost.heads
        exact (hprepared slot).headSet hheads
      · rw [hrun]
        exact ((hprepared slot).headSet hdone.added.heads).update fun _ =>
          layerHolds_provisionPcbElf _ _ _ _ _ _ _

theorem LayersHold.spawnInitialUser (hl : LayersHold k.table) (h : Holds L k g)
    (hlive : k.Running) (entry : Nat) : LayersHold (k.spawnInitialUser L entry).2.table := by
  rcases spawnInitialUser_outcome h hlive entry with
    ⟨_, hrun⟩ | ⟨slot, hslot, ⟨k', g', hrun, hlost⟩ | ⟨log, k', g', hrun, hadded, _⟩⟩
  · rw [hrun]
    exact hl
  · rw [hrun]
    obtain ⟨f, hheads⟩ := hlost.heads
    exact (hl.provisioned slot entry).headSet hheads
  · rw [hrun]
    exact (hl.provisioned slot entry).headSet hadded.heads

theorem LayersHold.memoryAllocate (hl : LayersHold k.table) (h : Holds L k g) (hlive : k.Running)
    (size : Nat) : LayersHold (k.memoryAllocate size).2.table := by
  rcases memoryAllocate_outcome h hlive size with
    ⟨_, e, _, hrun⟩ | ⟨fin, hend, ⟨k', g', hrun, hlost⟩ | ⟨log, k', g', hrun, hadded, _⟩⟩
  · rw [hrun]
    exact hl
  · rw [hrun]
    obtain ⟨f, hheads⟩ := hlost.heads
    exact hl.headSet hheads
  · rw [hrun]
    refine (hl.headSet hadded.heads).update fun _ => ?_
    have heq := (allocationEnd_eq_some hend).2.1
    have hround : Aligned (alignUp size) := aligned_pageDown _
    obtain ⟨haligned, habove, hsize⟩ := hl k.current hlive
    have hkeep := hadded.heads
    have hbase : (k'.table k.current).layerBase = (k.table k.current).layerBase := by
      rw [hkeep, Function.update_self]
    have hlayer : (k'.table k.current).layerSize = (k.table k.current).layerSize := by
      rw [hkeep, Function.update_self]
    refine ⟨?_, ?_, hlayer ▸ hsize⟩
    · change Aligned fin
      unfold Aligned at *
      omega
    · change (k'.table k.current).layerBase ≤ fin
      omega

end PureOS.Memory
