import PureOS.Memory.Elf
import PureOS.Memory.Loops

set_option autoImplicit false

/-!
# Memory: a slot and its root

A new process gets a copy of the highest table of the running one.  The lower tables are
not copied: both roots lead to the same ones.
-/

namespace PureOS.Memory

open PureOS.Foundation PureOS.Process

variable {L : Layout} {k k' : Kernel} {g g' : Ledger} {m : Nat → UInt8} {pid : Pid}

/-! ## The root of the running process -/

/-- A root of the layout is its own target. -/
theorem target_processPml4 (L : Layout) (p : Pid) : target (L.processPml4 p) = L.processPml4 p :=
  target_of_aligned (L.pml4_aligned p) (L.pml4_lt p)

theorem pageDown_processPml4 (L : Layout) (p : Pid) :
    pageDown (L.processPml4 p) = L.processPml4 p := by
  have haligned := L.pml4_aligned p
  unfold Aligned at haligned
  unfold pageDown
  omega

/-- The tables of a live process begin with a table of the highest level. -/
theorem Holds.root_of_live (h : Holds L k g) {p : Pid} (hlive : (k.table p).isLive = true) :
    g.use (pageDown (k.table p).pageTableBase) = .table 3 0 := by
  by_cases hp : p = 0
  · subst hp
    exact (h.owners.base_zero hlive).1
  · rw [h.owners.base p hp hlive, pageDown_processPml4]
    exact h.tables.root p

theorem Holds.base_lt_of_live (h : Holds L k g) {p : Pid} (hlive : (k.table p).isLive = true) :
    (k.table p).pageTableBase < 2 ^ 52 := by
  by_cases hp : p = 0
  · subst hp
    exact (h.owners.base_zero hlive).2.1
  · rw [h.owners.base p hp hlive]
    exact L.pml4_lt p

/-- What the processor takes as the root. -/
theorem Holds.target_of_live (h : Holds L k g) {p : Pid} (hlive : (k.table p).isLive = true) :
    g.use (target (k.table p).pageTableBase) = .table 3 0 := by
  rw [target_eq_pageDown (h.base_lt_of_live hlive)]
  exact h.root_of_live hlive

/-! ## The copy -/

theorem word_shift (m : Nat → UInt8) (s i : Nat) : word (fun j => m (s + j)) i = word m (s + i) := by
  unfold word readLE
  congr 1

/-- The entries of a copied table. -/
theorem cell_copy {d s i : Nat} (hi : i < 512) :
    cell (overlay m d 4096 fun j => m (s + j)) d i = cell m s i := by
  unfold cell
  rw [word_overlay_of_inside (by omega), word_shift]

theorem clone_mem (L : Layout) (k : Kernel) (pid : Pid) :
    (k.cloneCurrentPml4For L pid).mem =
      overlay k.mem (L.processPml4 pid) 4096 fun j => k.mem (pageDown k.readCr3 + j) := rfl

theorem clone_onlyPage (L : Layout) (k : Kernel) (pid : Pid) :
    OnlyPage (L.processPml4 pid) k.mem (k.cloneCurrentPml4For L pid).mem := by
  rw [clone_mem]
  exact onlyPage_overlay (L.pml4_aligned pid) (Nat.le_refl _)

theorem cell_clone (L : Layout) (k : Kernel) (pid : Pid) {i : Nat} (hi : i < 512) :
    cell (k.cloneCurrentPml4For L pid).mem (L.processPml4 pid) i =
      cell k.mem (pageDown k.readCr3) i := cell_copy hi

/-- The copy of a root keeps what the ledger says. -/
theorem Holds.clone (h : Holds L k g) (hlive : (k.table k.current).isLive = true) (pid : Pid) :
    Holds L (k.cloneCurrentPml4For L pid) g := by
  have hroot := h.root_of_live hlive
  have hself := h.tables.root pid
  have honly := clone_onlyPage L k pid
  refine ⟨?_, ⟨h.tables.root, ?_⟩, h.owners.congr rfl rfl⟩
  · refine h.pool.write (fun f hf => ?_) rfl rfl rfl
    have hne : f ≠ L.processPml4 pid := by
      rintro rfl
      rw [hself] at hf
      cases hf
    exact honly.word (i := 0) (L.pml4_aligned pid) (h.aligned (by rw [hf]; exact Use.noConfusion))
      hne (by decide)
  · intro t n pre ht i hi
    by_cases htp : t = L.processPml4 pid
    · subst htp
      rw [hself] at ht
      cases ht
      rw [cell_clone L k pid hi]
      exact h.tables.child _ 2 0 hroot i hi
    · rw [cell_of_onlyPage honly (L.pml4_aligned pid) (h.aligned_table ht) htp hi]
      exact h.tables.child t n pre ht i hi

/-! ## The entry in the process table -/

/-- A slot that is not in use gets an entry without frames. -/
theorem OwnersHold.enterPcb (h : OwnersHold L k g) {pcb : Pcb} (hpid : pid ≠ 0)
    (hbase : pcb.isLive = true → pcb.pageTableBase = L.processPml4 pid) :
    OwnersHold L (k.enterPcb pid pcb) g := by
  have htable : ∀ p, p ≠ pid → (k.enterPcb pid pcb).table p = k.table p := fun p hp =>
    k.setPcb_of_ne pcb hp
  have htracked : ∀ p, p ≠ pid → (k.enterPcb pid pcb).tracked p = k.tracked p := fun p hp =>
    Function.update_of_ne hp _ _
  have hnone : (k.enterPcb pid pcb).tracked pid = [] := Function.update_self _ _ _
  have hmem : ∀ p, ∀ f ∈ (k.enterPcb pid pcb).tracked p, p ≠ pid ∧ f ∈ k.tracked p := by
    intro p f hf
    by_cases hp : p = pid
    · rw [hp, hnone] at hf
      exact absurd hf List.not_mem_nil
    · rw [htracked p hp] at hf
      exact ⟨hp, hf⟩
  refine ⟨?_, ?_, ?_, ?_, ?_⟩
  · intro p hp hlive
    by_cases hpp : p = pid
    · subst hpp
      have hself : (k.enterPcb p pcb).table p = pcb := k.setPcb_self p pcb
      rw [hself] at hlive ⊢
      exact hbase hlive
    · rw [htable p hpp] at hlive ⊢
      exact h.base p hp hlive
  · rw [htable 0 hpid.symm]
    exact h.base_zero
  · intro p f hf
    obtain ⟨-, hf⟩ := hmem p f hf
    exact h.tracked_held p f hf
  · intro p
    by_cases hp : p = pid
    · rw [hp, hnone]
      exact List.nodup_nil
    · rw [htracked p hp]
      exact h.tracked_nodup p
  · intro p q hpq f hf hf'
    obtain ⟨-, hf⟩ := hmem p f hf
    obtain ⟨-, hf'⟩ := hmem q f hf'
    exact h.tracked_disjoint p q hpq f hf hf'

theorem Holds.enterPcb (h : Holds L k g) {pcb : Pcb} (hpid : pid ≠ 0)
    (hbase : pcb.isLive = true → pcb.pageTableBase = L.processPml4 pid) :
    Holds L (k.enterPcb pid pcb) g :=
  ⟨h.pool.write (fun _ _ => rfl) rfl rfl rfl, h.tables, h.owners.enterPcb hpid hbase⟩

/-- The slot that the loader takes. -/
theorem Holds.prepareSlot (h : Holds L k g) (hlive : (k.table k.current).isLive = true)
    (hslot : k.table.findFreeSlot = some pid) : Holds L (Kernel.prepareSlot L pid k) g := by
  obtain ⟨hpid, hdead⟩ := Table.findFreeSlot_eq_some hslot
  refine (h.clone hlive pid).enterPcb hpid fun hlive' => ?_
  have hstate : (k.table pid).isLive = true := hlive'
  rw [hdead] at hstate
  cases hstate

end PureOS.Memory
