import PureOS.Memory.Loading

set_option autoImplicit false

/-!
# Memory: how the creators end

`spawn_initial_user`, `create_process`, `create_thread` and `memory_allocate` as their ways
of ending: refused, short of frames, or with a record of the pages that were added.
-/

namespace PureOS.Memory

open PureOS.Foundation PureOS.Process

variable {L : Layout} {k k' : Kernel} {g g' : Ledger} {pid : Pid}

/-! ## The process table -/

/-- A process that is live kept its tables, or got those of its slot. -/
def KeepsRoots (L : Layout) (t t' : Table) : Prop :=
  ∀ p, (t' p).isLive = true →
    ((t p).isLive = true ∧ (t' p).pageTableBase = (t p).pageTableBase) ∨
      (p ≠ 0 ∧ (t' p).pageTableBase = L.processPml4 p)

theorem OwnersHold.table (h : OwnersHold L k g) (hkeeps : KeepsRoots L k.table k'.table)
    (htracked : k'.tracked = k.tracked) : OwnersHold L k' g where
  base p hp hlive := by
    rcases hkeeps p hlive with ⟨hbefore, heq⟩ | ⟨-, heq⟩
    · exact heq.trans (h.base p hp hbefore)
    · exact heq
  base_zero hlive := by
    rcases hkeeps 0 hlive with ⟨hbefore, heq⟩ | ⟨hne, -⟩
    · rw [heq]
      exact h.base_zero hbefore
    · exact absurd rfl hne
  tracked_held := by rw [htracked]; exact h.tracked_held
  tracked_nodup := by rw [htracked]; exact h.tracked_nodup
  tracked_disjoint := by rw [htracked]; exact h.tracked_disjoint

/-- The process table, the running process and the clock do not matter to the allocator and
the tables. -/
theorem Holds.setTable (h : Holds L k g) {table : Table} (hkeeps : KeepsRoots L k.table table)
    (current : Pid) (tick : Nat) :
    Holds L { k with table := table, current := current, tick := tick } g :=
  ⟨h.pool.write (fun _ _ => rfl) rfl rfl rfl, h.tables, h.owners.table hkeeps rfl⟩

/-- One entry of the process table is changed. -/
theorem keepsRoots_update {t : Table} {pcb : Pcb}
    (h : pcb.isLive = true → ((t pid).isLive = true ∧ pcb.pageTableBase = (t pid).pageTableBase) ∨
      (pid ≠ 0 ∧ pcb.pageTableBase = L.processPml4 pid)) :
    KeepsRoots L t (Function.update t pid pcb) := by
  intro p hlive
  by_cases hp : p = pid
  · subst hp
    rw [Function.update_self] at hlive ⊢
    exact h hlive
  · rw [Function.update_of_ne hp] at hlive ⊢
    exact Or.inl ⟨hlive, rfl⟩

theorem Holds.setPcb (h : Holds L k g) {pcb : Pcb}
    (hkeeps : pcb.isLive = true →
      ((k.table pid).isLive = true ∧ pcb.pageTableBase = (k.table pid).pageTableBase) ∨
        (pid ≠ 0 ∧ pcb.pageTableBase = L.processPml4 pid)) : Holds L (k.setPcb pid pcb) g :=
  h.setTable (keepsRoots_update hkeeps) k.current k.tick

/-! ## A new process -/

namespace Kernel

/-- A slot with its own root and the entry that `provision_pcb` makes. -/
def provisioned (L : Layout) (slot : Pid) (entry : Nat) (k : Kernel) : Kernel :=
  (k.cloneCurrentPml4For L slot).enterPcb slot
    (provisionPcb slot entry (L.processPml4 slot) (userStackTop L slot)
      (k.cloneCurrentPml4For L slot).tick)

/-- The pages that `spawn_initial_user` maps: those of the code and those of the stack. -/
def spawnPages (L : Layout) (slot : Pid) (entry : Nat) : List Nat :=
  pagesFrom (pageDown entry) (pageDown (wrappingAdd (pageDown entry) 0x2000)) ++
    pagesFrom (pageDown (L.userStacks slot))
      (pageDown (wrappingAdd (L.userStacks slot) (userStackBytes + 0xFFF)))

theorem createProcess_eq (L : Layout) (k : Kernel) (entry : Nat) :
    k.createProcess L entry =
      match k.table.findFreeSlot with
      | none => (errNoCapacity, k)
      | some slot => ((slot : Int), k.provisioned L slot entry) := rfl

theorem spawnInitialUser_eq (L : Layout) (k : Kernel) (entry : Nat) :
    k.spawnInitialUser L entry =
      match k.table.findFreeSlot with
      | none => (errNoCapacity, k)
      | some slot =>
          match forEach (mapAndTrack slot (L.processPml4 slot) false true copyCode)
            (pagesFrom (pageDown entry) (pageDown (wrappingAdd (pageDown entry) 0x2000)))
            (k.provisioned L slot entry) with
          | (.error e, k) => (e, k)
          | (.ok (), k) =>
              match forEach (mapAndTrack slot (L.processPml4 slot) true true fun _ _ k => k)
                (pagesFrom (pageDown (L.userStacks slot))
                  (pageDown (wrappingAdd (L.userStacks slot) (userStackBytes + 0xFFF)))) k with
              | (.error e, k) => (e, k)
              | (.ok (), k) => ((slot : Int), k) := rfl

/-- Two loops, one after the other, and the slot if both succeed. -/
def twoLoops (slot : Pid) (first : Except Int Unit × Kernel)
    (second : Kernel → Except Int Unit × Kernel) : Int × Kernel :=
  match first with
  | (.error e, k) => (e, k)
  | (.ok (), k) =>
      match second k with
      | (.error e, k) => (e, k)
      | (.ok (), k) => ((slot : Int), k)

section TwoLoops

variable {slot : Pid} {first : Except Int Unit × Kernel}
variable {second : Kernel → Except Int Unit × Kernel} {k₁ k₂ : Kernel} {e : Int}

theorem twoLoops_of_first (h : first = (.error e, k₁)) : twoLoops slot first second = (e, k₁) := by
  rw [h]
  rfl

theorem twoLoops_of_second (h : first = (.ok (), k₁)) (h' : second k₁ = (.error e, k₂)) :
    twoLoops slot first second = (e, k₂) := by
  rw [h, twoLoops, h']

theorem twoLoops_of_both (h : first = (.ok (), k₁)) (h' : second k₁ = (.ok (), k₂)) :
    twoLoops slot first second = ((slot : Int), k₂) := by
  rw [h, twoLoops, h']

end TwoLoops

theorem spawnInitialUser_loops (L : Layout) {k : Kernel} {slot : Pid}
    (hslot : k.table.findFreeSlot = some slot) (entry : Nat) :
    k.spawnInitialUser L entry =
      twoLoops slot
        (forEach (mapAndTrack slot (L.processPml4 slot) false true copyCode)
          (pagesFrom (pageDown entry) (pageDown (wrappingAdd (pageDown entry) 0x2000)))
          (k.provisioned L slot entry))
        (forEach (mapAndTrack slot (L.processPml4 slot) true true fun _ _ k => k)
          (pagesFrom (pageDown (L.userStacks slot))
            (pageDown (wrappingAdd (L.userStacks slot) (userStackBytes + 0xFFF))))) := by
  rw [spawnInitialUser_eq, hslot]
  rfl

end Kernel

theorem Holds.provisioned (h : Holds L k g) (hlive : (k.table k.current).isLive = true)
    {slot : Pid} (hslot : k.table.findFreeSlot = some slot) (entry : Nat) :
    Holds L (k.provisioned L slot entry) g :=
  (h.clone hlive slot).enterPcb (Table.findFreeSlot_eq_some hslot).1 fun _ => rfl

theorem fills_copyCode : Fills Kernel.copyCode := by
  intro va f k hf
  refine ⟨?_, k.reads, rfl⟩
  change OnlyPage f k.mem (overlay k.mem f 4096 fun j => k.mem (va + j))
  exact onlyPage_overlay hf (Nat.le_refl _)

/-- The ways in which `spawn_initial_user` ends. -/
theorem spawnInitialUser_outcome (h : Holds L k g) (hlive : (k.table k.current).isLive = true)
    (entry : Nat) :
    (k.table.findFreeSlot = none ∧ k.spawnInitialUser L entry = (errNoCapacity, k)) ∨
    ∃ slot, k.table.findFreeSlot = some slot ∧
      ((∃ k' g', k.spawnInitialUser L entry = (errOutOfMemory, k') ∧
          PagesLost L slot (Kernel.spawnPages L slot entry) (k.provisioned L slot entry) k' g g') ∨
        ∃ log k' g', k.spawnInitialUser L entry = ((slot : Int), k') ∧
          PagesAdded L slot (L.processPml4 slot) log (k.provisioned L slot entry) k' g g' ∧
          log.map Page.va = Kernel.spawnPages L slot entry) := by
  cases hslot : k.table.findFreeSlot with
  | none =>
      rw [Kernel.spawnInitialUser_eq, hslot]
      exact Or.inl ⟨rfl, rfl⟩
  | some slot =>
      refine Or.inr ⟨slot, rfl, ?_⟩
      have hprepared := h.provisioned hlive hslot entry
      have hself := target_processPml4 L slot
      have hroot : g.use (target (L.processPml4 slot)) = .table 3 0 := by
        rw [hself]
        exact h.tables.root slot
      rw [Kernel.spawnInitialUser_loops L hslot, Kernel.spawnPages]
      generalize pagesFrom (pageDown entry) (pageDown (wrappingAdd (pageDown entry) 0x2000)) = code
      generalize pagesFrom (pageDown (L.userStacks slot))
        (pageDown (wrappingAdd (L.userStacks slot) (userStackBytes + 0xFFF))) = stack
      rcases pages_added (addsPage_mapAndTrack L slot (L.processPml4 slot) false true Kernel.copyCode)
          fills_copyCode hprepared hroot code with
        ⟨k₁, g₁, hcode, hlost⟩ | ⟨log, k₁, g₁, hcode, hadded, hof⟩
      · exact Or.inl ⟨k₁, g₁, Kernel.twoLoops_of_first hcode,
          hlost.mono fun va hva => List.mem_append_left _ hva⟩
      rcases pages_added (addsPage_mapAndTrack L slot (L.processPml4 slot) true true
            fun _ _ k => k) fills_nothing hadded.holds (hadded.grown.table hroot) stack with
        ⟨k₂, g₂, hstack, hlost⟩ | ⟨log', k₂, g₂, hstack, hadded', hof'⟩
      · refine Or.inl ⟨k₂, g₂, Kernel.twoLoops_of_second hcode hstack, ?_⟩
        have hall := hadded.lost hlost
        rwa [hof.pages] at hall
      · refine Or.inr ⟨log ++ log', k₂, g₂, Kernel.twoLoops_of_both hcode hstack, ?_, ?_⟩
        · have hall := hadded.append hroot hadded'
          rwa [hself] at hall
        · rw [List.map_append, hof.pages, hof'.pages]

/-! ## `memory_allocate` -/

namespace Kernel

/-- The checks of `memory_allocate`: where the allocation ends, if it is not refused. -/
def allocationEnd (k : Kernel) (size : Nat) : Option Nat :=
  if size = 0 ∨ ¬(k.table k.current).isLive then none
  else
    (checkedAdd (k.table k.current).nextFree (alignUp size)).filter
      (· ≤ wrappingAdd (k.table k.current).layerBase (k.table k.current).layerSize)

/-- The pages of an allocation up to `fin`. -/
def allocationPages (k : Kernel) (fin : Nat) : List Nat :=
  pagesFrom (k.table k.current).nextFree fin

/-- What is refused changes nothing, and what is not goes to the loop. -/
theorem memoryAllocate_eq (k : Kernel) (size : Nat) :
    (k.allocationEnd size = none ∧ ∃ e < 0, k.memoryAllocate size = (e, k)) ∨
    ∃ fin, k.allocationEnd size = some fin ∧ k.memoryAllocate size =
      match forEach (trackAndMap k.current (k.table k.current).pageTableBase true true
        fun _ _ k => k) (k.allocationPages fin) k with
      | (.error e, k) => (e, k)
      | (.ok (), k₁) => (((k.table k.current).nextFree : Int),
          k₁.setPcb k.current { k₁.table k.current with nextFree := fin }) := by
  unfold memoryAllocate allocationEnd
  by_cases hsize : size = 0
  · exact Or.inl ⟨if_pos (Or.inl hsize), _, by decide, if_pos hsize⟩
  rw [if_neg hsize]
  by_cases hlive : (k.table k.current).isLive = true
  · rw [if_neg (not_or.mpr ⟨hsize, not_not.mpr hlive⟩)]
    dsimp only
    rw [if_neg (not_not.mpr hlive)]
    cases checkedAdd (k.table k.current).nextFree (alignUp size) with
    | none => exact Or.inl ⟨rfl, _, by decide, rfl⟩
    | some fin =>
        dsimp only
        by_cases hfin : fin > wrappingAdd (k.table k.current).layerBase (k.table k.current).layerSize
        · refine Or.inl ⟨?_, _, by decide, if_pos hfin⟩
          rw [Option.filter_some, if_neg]
          exact fun hle => absurd (of_decide_eq_true hle) (Nat.not_le.mpr hfin)
        · refine Or.inr ⟨fin, ?_, if_neg hfin⟩
          rw [Option.filter_some, if_pos]
          exact decide_eq_true (Nat.not_lt.mp hfin)
  · exact Or.inl ⟨if_pos (Or.inr hlive), _, by decide, if_pos hlive⟩

end Kernel

/-- The ways in which `memory_allocate` ends. -/
theorem memoryAllocate_outcome (h : Holds L k g) (hlive : (k.table k.current).isLive = true)
    (size : Nat) :
    (k.allocationEnd size = none ∧ ∃ e < 0, k.memoryAllocate size = (e, k)) ∨
    ∃ fin, k.allocationEnd size = some fin ∧
      ((∃ k' g', k.memoryAllocate size = (errOutOfMemory, k') ∧
          PagesLost L k.current (k.allocationPages fin) k k' g g') ∨
        ∃ log k' g', k.memoryAllocate size = (((k.table k.current).nextFree : Int),
            k'.setPcb k.current { k'.table k.current with nextFree := fin }) ∧
          PagesAdded L k.current (target (k.table k.current).pageTableBase) log k k' g g' ∧
          PagesOf (fun _ _ k => k) true true (k.allocationPages fin) log) := by
  rcases k.memoryAllocate_eq size with hnone | ⟨fin, hfin, hrun⟩
  · exact Or.inl hnone
  refine Or.inr ⟨fin, hfin, ?_⟩
  rcases pages_added (addsPage_trackAndMap L k.current (k.table k.current).pageTableBase true true
      fun _ _ k => k) fills_nothing h (h.target_of_live hlive) (k.allocationPages fin) with
    ⟨k', g', hloop, hlost⟩ | ⟨log, k', g', hloop, hadded, hof⟩
  · exact Or.inl ⟨k', g', by rw [hrun, hloop], hlost⟩
  · exact Or.inr ⟨log, k', g', by rw [hrun, hloop], hadded, hof⟩

end PureOS.Memory
