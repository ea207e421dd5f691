import PureOS.Memory.Run
import PureOS.Memory.Tree

set_option autoImplicit false

/-!
# Memory: what a process keeps

While a process lives, no step of any process changes where its addresses lead, but for the pages
that a step maps.
-/

namespace PureOS.Memory

open PureOS.Foundation PureOS.Process

variable {L : Layout} {k k₀ k₁ k' : Kernel} {g g' : Ledger} {m m' : Nat → UInt8}
variable {S : Nat → Prop} {q slot : Pid} {virt : Nat} {l : List Nat} {h : List Action}

/-- The pages that a step maps. -/
def mappedBy (L : Layout) (k : Kernel) : Action → List Nat
  | .spawnInitialUser entry =>
      match k.table.findFreeSlot with
      | none => []
      | some slot => Kernel.spawnPages L slot entry
  | .exec image dataPtr size =>
      match checked image dataPtr size with
      | none => []
      | some range => execPages image dataPtr (headerOf image dataPtr) range
  | .memoryAllocate size =>
      match k.allocationEnd size with
      | none => []
      | some fin => k.allocationPages fin
  | _ => []

/-- A sparing step in which a process stays live and that does not map the page of an address. -/
structure Apart (L : Layout) (q : Pid) (virt : Nat) (k : Kernel) (a : Action) (k' : Kernel) :
    Prop where
  step : SparingStep L k a k'
  live : (k'.table q).isLive = true
  page : ∀ va ∈ mappedBy L k a, pageNo va ≠ pageNo virt

/-! ## Tables that stay the same -/

/-- The same entries lead to the same place.  The entries of other roots do not matter. -/
theorem walk_congr {E : Nat → Prop} (htables : TablesHold L m g)
    (hroots : ∀ t n pre, E t → g.use t = .table n pre → n = 3)
    (hcells : ∀ t n pre, g.use t = .table n pre → ¬E t → ∀ i < 512, cell m' t i = cell m t i)
    {n t pre : Nat} (hn : n ≤ 3) (ht : g.use t = .table n pre) (hne : ¬E t) :
    walk m' virt n t = walk m virt n t := by
  induction n generalizing t pre with
  | zero => rw [walk, walk, hcells t 0 pre ht hne _ (index_lt _ _)]
  | succ n ih =>
      rw [walk, walk, hcells t (n + 1) pre ht hne _ (index_lt _ _)]
      by_cases hpresent : present (cell m t (index (n + 1) virt)) = true
      · by_cases hhuge : isHuge (cell m t (index (n + 1) virt)) = true
        · simp only [hpresent, hhuge, if_true]
        · have hchild := (htables.child t n pre ht _ (index_lt _ _) hpresent
            (Bool.eq_false_of_not_eq_true hhuge)).1
          have hlower : ¬E (target (cell m t (index (n + 1) virt))) := fun hE => by
            have hlevel := hroots _ _ _ hE hchild
            omega
          simp only [hpresent, hhuge]
          rw [ih (by omega) hchild hlower]
      · simp [hpresent]

/-- What a process sees at an address after a step. -/
def Keeps (k k' : Kernel) (q : Pid) (virt : Nat) : Prop :=
  (k'.table q).pageTableBase = (k.table q).pageTableBase ∧
    Wider (translate k.mem (k.table q).pageTableBase virt)
      (translate k'.mem (k'.table q).pageTableBase virt)

theorem Keeps.trans (hfirst : Keeps k k₁ q virt) (hsecond : Keeps k₁ k' q virt) :
    Keeps k k' q virt :=
  ⟨hsecond.1.trans hfirst.1, hfirst.2.trans hsecond.2⟩

/-- Nothing is written to a table, but to the roots of other processes. -/
theorem keeps_of_cells {E : Nat → Prop} (hk : Holds L k g) (hlive : (k.table q).isLive = true)
    (hroots : ∀ t n pre, E t → g.use t = .table n pre → n = 3)
    (hne : ¬E (pageDown (k.table q).pageTableBase))
    (hcells : ∀ t n pre, g.use t = .table n pre → ¬E t →
      ∀ i < 512, cell k'.mem t i = cell k.mem t i)
    (hbase : (k'.table q).pageTableBase = (k.table q).pageTableBase) : Keeps k k' q virt := by
  refine ⟨hbase, ?_⟩
  rw [hbase, translate, translate]
  split
  · have htarget := target_eq_pageDown (hk.base_lt_of_live hlive)
    rw [walk_congr hk.tables hroots hcells (Nat.le_refl _) (hk.target_of_live hlive)
      (by rwa [htarget])]
    exact .refl _
  · exact .refl _

/-- No table is written. -/
theorem keeps_of_writes (hk : Holds L k g) (hlive : (k.table q).isLive = true)
    (hwrites : ∀ a n pre, g.use (pageDown a) = .table n pre → k'.mem a = k.mem a)
    (hbase : (k'.table q).pageTableBase = (k.table q).pageTableBase) : Keeps k k' q virt := by
  refine keeps_of_cells (E := fun _ => False) hk hlive nofun id ?_ hbase
  intro t n pre ht _ i hi
  refine readLE_congr fun a hle hlt => hwrites a n pre ?_
  have haligned : Aligned t := hk.aligned_table ht
  have hpage : pageDown a = t := by
    unfold Aligned at haligned
    unfold pageDown
    omega
  rwa [hpage]

/-- Two live processes have two roots, and no process has the root of a free slot. -/
theorem Holds.root_ne (hk : Holds L k g) (hlive : (k.table q).isLive = true) (hne : q ≠ slot) :
    pageDown (k.table q).pageTableBase ≠ L.processPml4 slot := by
  by_cases hzero : q = 0
  · subst hzero
    exact (hk.owners.base_zero hlive).2.2 slot
  · rw [hk.owners.base q hzero hlive, pageDown_processPml4]
    exact fun heq => hne (L.pml4_injective _ _ heq)

/-- Pages were mapped, but not the page of the address. -/
theorem keeps_of_grown (hk : Holds L k g) (hlive : (k.table q).isLive = true)
    (hk' : Holds L k' g') (hgrown : Grown S k k' g g') (hpage : ¬S (pageNo virt))
    (hbase : (k'.table q).pageTableBase = (k.table q).pageTableBase) : Keeps k k' q virt := by
  refine ⟨hbase, ?_⟩
  rw [hbase]
  exact translate_grown hk.tables hgrown hk'.tables (hk.target_of_live hlive) hpage

/-- The memory is the same, and so is the root. -/
theorem keeps_of_same (hmem : k'.mem = k.mem)
    (hbase : (k'.table q).pageTableBase = (k.table q).pageTableBase) : Keeps k k' q virt := by
  refine ⟨hbase, ?_⟩
  rw [hbase, hmem]
  exact .refl _

theorem Keeps.refl (k : Kernel) (q : Pid) (virt : Nat) : Keeps k k q virt :=
  keeps_of_same rfl rfl

theorem PagesLost.keeps (hlost : PagesLost L slot l k k' g g') (hk : Holds L k g)
    (hlive : (k.table q).isLive = true) (hpage : ∀ va ∈ l, pageNo va ≠ pageNo virt) :
    Keeps k k' q virt := by
  obtain ⟨f, hheads⟩ := hlost.heads
  refine keeps_of_grown hk hlive hlost.holds hlost.grown ?_ (hheads.pageTableBase q)
  rintro ⟨va, hva, heq⟩
  exact hpage va hva heq.symm

theorem PagesAdded.keeps {root : Nat} {log : List Page}
    (hadded : PagesAdded L slot root log k k' g g') (hk : Holds L k g)
    (hlive : (k.table q).isLive = true)
    (hpage : ∀ va ∈ log.map Page.va, pageNo va ≠ pageNo virt) : Keeps k k' q virt := by
  refine keeps_of_grown hk hlive hadded.holds hadded.grown ?_ (hadded.heads.pageTableBase q)
  rintro ⟨e, he, heq⟩
  exact hpage e.va (List.mem_map_of_mem he) heq.symm

/-! ## The steps -/

/-- A new slot: its root is a copy, and the process table has an entry for it. -/
theorem keeps_of_clone (hk : Holds L k g) (hlive : (k.table q).isLive = true) (hne : q ≠ slot)
    (hmem : k'.mem = (k.cloneCurrentPml4For L slot).mem) (htable : k'.table q = k.table q) :
    Keeps k k' q virt := by
  refine keeps_of_cells (E := (· = L.processPml4 slot)) hk hlive ?_ (hk.root_ne hlive hne) ?_
    (by rw [htable])
  · rintro t n pre rfl ht
    rw [hk.tables.root slot] at ht
    cases ht
    rfl
  · intro t n pre ht hother i hi
    rw [hmem]
    exact cell_of_onlyPage (clone_onlyPage L k slot) (L.pml4_aligned slot) (hk.aligned_table ht)
      hother hi

/-- The slot that is taken is not the one of a live process. -/
theorem ne_of_findFreeSlot (hlive : (k.table q).isLive = true)
    (hslot : k.table.findFreeSlot = some slot) : q ≠ slot := by
  rintro rfl
  rw [(Table.findFreeSlot_eq_some hslot).2] at hlive
  cases hlive

theorem provisioned_of_ne (L : Layout) (k : Kernel) (entry : Nat) (hne : q ≠ slot) :
    (k.provisioned L slot entry).table q = k.table q := Kernel.setPcb_of_ne _ _ hne

theorem keeps_createProcess (hk : Holds L k g) (hlive : (k.table q).isLive = true) (entry : Nat) :
    Keeps k (k.createProcess L entry).2 q virt := by
  rw [Kernel.createProcess_eq]
  cases hslot : k.table.findFreeSlot with
  | none => exact .refl k q virt
  | some slot =>
      have hne := ne_of_findFreeSlot hlive hslot
      exact keeps_of_clone hk hlive hne rfl (provisioned_of_ne L k entry hne)

theorem keeps_createThread (hk : Holds L k g) (hlive : (k.table q).isLive = true)
    (entry stack : Nat) : Keeps k (k.createThread L entry stack).2 q virt := by
  rcases createThread_eq L k entry stack with ⟨_, hrun⟩ | ⟨slot, state, user, hslot, hrun, _⟩
  · rw [hrun]
    exact .refl k q virt
  · have hne := ne_of_findFreeSlot hlive hslot
    rw [hrun]
    refine keeps_of_clone hk hlive hne rfl ?_
    exact (Kernel.setPcb_of_ne _ _ hne).trans (provisioned_of_ne L k entry hne)

theorem keeps_spawnInitialUser (hk : Holds L k g) (hrunning : k.Running)
    (hlive : (k.table q).isLive = true) (entry : Nat)
    (hpage : ∀ va ∈ mappedBy L k (.spawnInitialUser entry), pageNo va ≠ pageNo virt) :
    Keeps k (k.spawnInitialUser L entry).2 q virt := by
  rcases spawnInitialUser_outcome hk hrunning entry with ⟨_, hrun⟩ | ⟨slot, hslot, hends⟩
  · rw [hrun]
    exact .refl k q virt
  rw [mappedBy, hslot] at hpage
  dsimp only at hpage
  have hne := ne_of_findFreeSlot hlive hslot
  have hprepared := hk.provisioned hrunning hslot entry
  have hpcb := provisioned_of_ne L k entry hne
  have hclone : Keeps k (k.provisioned L slot entry) q virt := keeps_of_clone hk hlive hne rfl hpcb
  rw [← hpcb] at hlive
  rcases hends with ⟨k', g', hrun, hlost⟩ | ⟨log, k', g', hrun, hadded, hpages⟩
  · rw [hrun]
    exact hclone.trans (hlost.keeps hprepared hlive hpage)
  · rw [hrun]
    rw [← hpages] at hpage
    exact hclone.trans (hadded.keeps hprepared hlive hpage)

theorem keeps_execLoad (hk : Holds L k g) (hrunning : k.Running)
    (hlive : (k.table q).isLive = true) (image : Image) (dataPtr : Nat) (hdr : Elf64Header)
    (range : SegmentRange)
    (hpage : ∀ va ∈ execPages image dataPtr hdr range, pageNo va ≠ pageNo virt) :
    Keeps k (Kernel.execLoad L image dataPtr hdr range k).2 q virt := by
  rcases execLoad_outcome image dataPtr hdr hk hrunning range with ⟨_, hrun⟩ | ⟨slot, hslot, hends⟩
  · rw [hrun]
    exact .refl k q virt
  have hne := ne_of_findFreeSlot hlive hslot
  have hprepared := hk.prepareSlot hrunning hslot
  have hpcb : (Kernel.prepareSlot L slot k).table q = k.table q := Kernel.setPcb_of_ne _ _ hne
  have hclone : Keeps k (Kernel.prepareSlot L slot k) q virt := keeps_of_clone hk hlive hne rfl hpcb
  rw [← hpcb] at hlive
  rcases hends with ⟨k', g', hrun, hlost⟩ | ⟨log, stack, k', g', hrun, hdone⟩
  · rw [hrun]
    exact hclone.trans (hlost.keeps hprepared hlive hpage)
  · have hpages : (log ++ stack).map Page.va = execPages image dataPtr hdr range := by
      rw [List.map_append, map_va_of_loads hdone.loads, hdone.stacked.pages, execPages]
    rw [← hpages] at hpage
    have hfinish : (Kernel.finishElf L slot hdr.entry (pageDown range.base) range.loadEnd
        k').table q = k'.table q := Kernel.setPcb_of_ne _ _ hne
    rw [hrun]
    exact hclone.trans ((hdone.added.keeps hprepared hlive hpage).trans
      (keeps_of_same rfl (by rw [hfinish])))

theorem keeps_exec (hk : Holds L k g) (hrunning : k.Running) (hlive : (k.table q).isLive = true)
    (image : Image) (dataPtr size : Nat)
    (hpage : ∀ va ∈ mappedBy L k (.exec image dataPtr size), pageNo va ≠ pageNo virt) :
    Keeps k (k.exec L image dataPtr size).2 q virt := by
  obtain ⟨reads, heq⟩ := exec_eq L image k dataPtr size
  rw [mappedBy] at hpage
  rw [heq]
  cases hchecked : checked image dataPtr size with
  | none => exact keeps_of_same rfl rfl
  | some range =>
      rw [hchecked] at hpage
      have hload := keeps_execLoad (hk.reads reads) hrunning hlive image dataPtr
        (headerOf image dataPtr) range hpage
      exact (keeps_of_same rfl rfl).trans hload

theorem keeps_memoryAllocate (hk : Holds L k g) (hrunning : k.Running)
    (hlive : (k.table q).isLive = true) (size : Nat)
    (hpage : ∀ va ∈ mappedBy L k (.memoryAllocate size), pageNo va ≠ pageNo virt) :
    Keeps k (k.memoryAllocate size).2 q virt := by
  rcases memoryAllocate_outcome hk hrunning size with ⟨_, e, _, hrun⟩ | ⟨fin, hfin, hends⟩
  · rw [hrun]
    exact .refl k q virt
  rw [mappedBy, hfin] at hpage
  dsimp only at hpage
  rcases hends with ⟨k', g', hrun, hlost⟩ | ⟨log, k', g', hrun, hadded, hpages⟩
  · rw [hrun]
    exact hlost.keeps hk hlive hpage
  · rw [hrun]
    rw [← hpages.pages] at hpage
    refine (hadded.keeps hk hlive hpage).trans (keeps_of_same rfl ?_)
    by_cases hq : q = k.current
    · rw [hq, Kernel.setPcb_self]
    · rw [Kernel.setPcb_of_ne _ _ hq]

/-- The frames of another process go back. -/
theorem keeps_death {pid : Pid} (hk : Holds L k g) (hlive : (k.table q).isLive = true)
    (hlive' : (k'.table q).isLive = true) (hintact : Intact k pid) (pcb : Pcb)
    (hstate : pcb.isLive = false)
    (hhead : pcb.framesHead = (k.table pid).framesHead) {fuel : Nat}
    (hrun : (k.setPcb pid pcb).freeProcessFrames fuel pid = some k') : Keeps k k' q virt := by
  obtain ⟨l, hthread, hl⟩ := hintact
  obtain ⟨k₁, hfreed, rfl, -⟩ := death_freed hk hthread hl pcb hstate hhead hrun
  have hne : q ≠ pid := by
    rintro rfl
    have hdead : ((k₁.enterPcb q { k₁.table q with framesHead := 0 }).table q).isLive = false := by
      rw [Kernel.enterPcb, Kernel.setPcb_self, hfreed.table_eq, Kernel.setPcb_self]
      exact hstate
    rw [hdead] at hlive'
    cases hlive'
  refine keeps_of_writes hk hlive (fun a n pre htable => ?_) ?_
  · refine hfreed.writes a fun hmem => ?_
    have hheld := hk.owners.tracked_held pid _ (hl _ hmem)
    rw [htable] at hheld
    cases hheld
  · have hpcb : (k₁.enterPcb pid { k₁.table pid with framesHead := 0 }).table q = k.table q := by
      refine (Kernel.setPcb_of_ne _ _ hne).trans ?_
      rw [hfreed.table_eq]
      exact Kernel.setPcb_of_ne _ _ hne
    rw [hpcb]

/-- A step keeps what a process sees at an address, but for the pages that the step maps. -/
theorem Apart.keeps {a : Action} (hstep : Apart L q virt k a k') (hk : Holds L k g)
    (hlive : (k.table q).isLive = true) : Keeps k k' q virt := by
  obtain ⟨⟨hstep, hsparing⟩, hlive', hpage⟩ := hstep
  cases hstep with
  | spawnInitialUser running => exact keeps_spawnInitialUser hk running hlive _ hpage
  | exec running => exact keeps_exec hk running hlive _ _ _ hpage
  | createProcess running => exact keeps_createProcess hk hlive _
  | createThread running => exact keeps_createThread hk hlive _ _
  | memoryAllocate running => exact keeps_memoryAllocate hk running hlive _ hpage
  | store running access _ =>
      obtain ⟨p, hp⟩ := hsparing _ access
      refine keeps_of_writes hk hlive (fun b n pre htable => ?_) rfl
      refine Function.update_of_ne ?_ _ _
      rintro rfl
      have hheld := hk.owners.tracked_held p _ hp
      rw [htable] at hheld
      cases hheld
  | exitProcess _ run => exact keeps_death hk hlive hlive' hsparing _ (by rfl) (by rfl) run
  | killProcess _ run =>
      rw [Kernel.killProcess] at run
      split at run
      · cases run
        exact .refl k q virt
      · obtain ⟨k₁, hrun, heq⟩ := Option.map_eq_some_iff.mp run
        cases heq
        exact keeps_death hk hlive hlive' hsparing _ (by rfl) (by rfl) hrun
  | other same _ => exact keeps_of_same rfl (same.pageTableBase q)

end PureOS.Memory
