import PureOS.Memory.Budget
import PureOS.Memory.Through

set_option autoImplicit false

/-!
# Memory: creators that fail

What the creators leave behind when they return an error.  `create_thread` takes its slot
back.  `spawn_initial_user` and `exec` do not undo what they did: they leave everything as it
was exactly if they fail before they began, or do not fail.
-/

namespace PureOS.Memory

open PureOS.Foundation PureOS.Process

/-- The live processes are the same, in the same states. -/
def SameLive (t t' : Table) : Prop :=
  ∀ p, (t' p).isLive = (t p).isLive ∧ ((t p).isLive = true → (t' p).state = (t p).state)

/-- An error leaves the live processes and the number of available frames as they were. -/
def Atomic (k : Kernel) (r : Int × Kernel) : Prop :=
  r.1 < 0 → SameLive k.table r.2.table ∧ ∀ n, Yields n r.2 ↔ Yields n k

variable {L : Layout} {k k' k₀ : Kernel} {g g' : Ledger} {slot : Pid} {r : Int × Kernel}
variable {dataPtr size : Nat}

theorem SameLive.refl (t : Table) : SameLive t t := fun _ => ⟨rfl, fun _ => rfl⟩

theorem HeadSet.sameLive {f : Nat} {t t' : Table} (h : HeadSet slot f t t') : SameLive t t' := by
  intro p
  refine ⟨h.isLive p, fun _ => ?_⟩
  rw [h]
  by_cases hp : p = slot
  · rw [hp, Function.update_self]
  · rw [Function.update_of_ne hp]

theorem Atomic.of_nonneg (h : 0 ≤ r.1) : Atomic k r := fun hneg => absurd hneg (Int.not_lt.mpr h)

theorem Atomic.of_same {e : Int} (htable : k'.table = k.table)
    (hyields : ∀ n, Yields n k' ↔ Yields n k) : Atomic k (e, k') :=
  fun _ => ⟨htable ▸ SameLive.refl k.table, hyields⟩

theorem nonneg_of_slot {e : Int} (h : e = (slot : Nat)) : 0 ≤ e := h ▸ Int.natCast_nonneg _

/-! ## `create_thread` -/

theorem Holds.createThread_atomic (h : Holds L k g) (hlive : k.Running) (entry stack : Nat) :
    Atomic k (k.createThread L entry stack) := by
  rcases createThread_eq L k entry stack with
    ⟨_, hrun⟩ | ⟨slot, state, userStack, hslot, hrun, hexited⟩
  · rw [hrun]
    exact .of_same rfl fun _ => Iff.rfl
  obtain ⟨hpos, hdead⟩ := Table.findFreeSlot_eq_some hslot
  intro hneg
  obtain rfl := hexited hneg
  have hafter : Holds L ((k.provisioned L slot entry).setPcb slot
      { provisionPcb slot entry (L.processPml4 slot) (Kernel.userStackTop L slot) k.tick with
        state := .exited, userStack := userStack }) g :=
    (h.provisioned hlive hslot entry).setPcb fun _ => Or.inr ⟨hpos, rfl⟩
  rw [hrun]
  refine ⟨fun p => ?_, (h.yields_congr hafter).mpr rfl⟩
  by_cases hp : p = slot
  · subst hp
    rw [Kernel.setPcb_self, hdead]
    exact ⟨rfl, fun hlive => Bool.noConfusion hlive⟩
  · rw [Kernel.setPcb_of_ne _ _ hp]
    have hother : (k.provisioned L slot entry).table p = k.table p := Kernel.setPcb_of_ne _ _ hp
    rw [hother]
    exact ⟨rfl, fun _ => rfl⟩

/-! ## `spawn_initial_user` -/

/-- The slot of a new process is live at once. -/
theorem isLive_provisioned (L : Layout) (k : Kernel) (slot : Pid) (entry : Nat) :
    ((k.provisioned L slot entry).table slot).isLive = true := by
  have hself : (k.provisioned L slot entry).table slot = _ := Kernel.setPcb_self _ _ _
  rw [hself]
  rfl

theorem Holds.spawnInitialUser_atomic_iff (h : Holds L k g) (hlive : k.Running) (entry : Nat) :
    Atomic k (k.spawnInitialUser L entry) ↔
      ∀ slot, k.table.findFreeSlot = some slot → Enough k (Kernel.spawnPages L slot entry) := by
  rcases spawnInitialUser_outcome h hlive entry with
    ⟨hnone, hrun⟩ | ⟨slot, hslot, hrest⟩
  · rw [hrun, hnone]
    exact iff_of_true (.of_same rfl fun _ => Iff.rfl) fun _ heq => by cases heq
  rcases h.spawnInitialUser_decides hlive hslot entry with ⟨henough, hvalue⟩ | ⟨hnot, hvalue⟩
  · refine iff_of_true (.of_nonneg (nonneg_of_slot hvalue)) fun slot' hslot' => ?_
    rw [hslot] at hslot'
    cases hslot'
    exact henough
  · refine iff_of_false (fun hatomic => ?_) fun hall => hnot (hall slot hslot)
    rcases hrest with ⟨k', g', hrun, hlost⟩ | ⟨log, k', g', hrun, _⟩
    · rw [hrun] at hatomic
      obtain ⟨f, hheads⟩ := hlost.heads
      have hneg : errOutOfMemory < 0 := by decide
      have hsame := ((hatomic hneg).1 slot).1
      rw [hheads.isLive, isLive_provisioned, (Table.findFreeSlot_eq_some hslot).2] at hsame
      cases hsame
    · rw [hrun] at hvalue
      exact absurd (nonneg_of_slot hvalue.symm) (by decide)

/-! ## `exec` -/

theorem Holds.execLoad_atomic_iff (h : Holds L k g) (hlive : k.Running) (image : Image)
    (dataPtr : Nat) (hdr : Elf64Header) (range : SegmentRange) :
    Atomic k (k.execLoad L image dataPtr hdr range) ↔
      ∀ slot, k.table.findFreeSlot = some slot →
        available k g = 0 ∨ Enough k (execPages image dataPtr hdr range) := by
  rcases execLoad_outcome image dataPtr hdr h hlive range with ⟨hnone, hrun⟩ | ⟨slot, hslot, hrest⟩
  · rw [hrun, hnone]
    exact iff_of_true (.of_same rfl fun _ => Iff.rfl) fun _ heq => by cases heq
  rcases h.execLoad_decides hlive hslot image dataPtr hdr range with
    ⟨henough, hvalue⟩ | ⟨hnot, hvalue⟩
  · refine iff_of_true (.of_nonneg (nonneg_of_slot hvalue)) fun slot' hslot' => ?_
    rw [hslot] at hslot'
    cases hslot'
    exact Or.inr henough
  · rcases hrest with ⟨k', g', hrun, hlost⟩ | ⟨log, stack, k', g', hrun, _⟩
    · rw [hrun]
      obtain ⟨f, hheads⟩ := hlost.heads
      have hprepared : HeadSet slot 0 k.table (Kernel.prepareSlot L slot k).table := rfl
      have hsame : SameLive k.table k'.table := (hprepared.trans hheads).sameLive
      have hneg : errOutOfMemory < 0 := by decide
      have hless : available k' g' ≤ available k g := hlost.grown.less
      have hshort : available k' g' < available k g ∨ available k g = 0 := hlost.short
      constructor
      · intro hatomic slot' _
        have hcount := (h.yields_congr hlost.holds).mp (hatomic hneg).2
        exact Or.inl (hshort.resolve_left (by omega))
      · intro hall _
        have hzero := (hall slot hslot).resolve_right hnot
        exact ⟨hsame, (h.yields_congr hlost.holds).mpr (by omega)⟩
    · rw [hrun] at hvalue
      exact absurd (nonneg_of_slot hvalue.symm) (by decide)

theorem Atomic.reads_iff {reads : List Nat} (h : Holds L k g) :
    Atomic { k with reads := reads } r ↔ Atomic k r := by
  have hyields : ∀ n, Yields n { k with reads := reads } ↔ Yields n k :=
    (h.yields_congr (h.reads reads)).mpr rfl
  unfold Atomic
  simp only [hyields]

theorem Enough.reads_iff {reads l : List Nat} (h : Holds L k g) :
    Enough { k with reads := reads } l ↔ Enough k l :=
  (h.reads reads).enough_iff.trans h.enough_iff.symm

theorem Holds.exec_atomic_iff (h : Holds L k g) (hlive : k.Running) (image : Image)
    (dataPtr size : Nat) :
    Atomic k (k.exec L image dataPtr size) ↔
      ∀ range slot, checked image dataPtr size = some range → k.table.findFreeSlot = some slot →
        Yields 0 k ∨ Enough k (execPages image dataPtr (headerOf image dataPtr) range) := by
  obtain ⟨reads, heq⟩ := exec_eq L image k dataPtr size
  have hreads := h.reads reads
  have hyields := (h.yields_congr hreads).mpr rfl
  rw [heq]
  cases hchecked : checked image dataPtr size with
  | none => exact iff_of_true (.of_same rfl hyields) fun _ _ hcheck => by cases hcheck
  | some range =>
      have hload := hreads.execLoad_atomic_iff hlive image dataPtr (headerOf image dataPtr) range
      rw [Atomic.reads_iff h] at hload
      have hnone : Yields 0 k ↔ available k g = 0 := h.yields_iff.trans eq_comm
      dsimp only
      rw [hload, hnone]
      constructor
      · intro hall range' slot hcheck hslot
        cases hcheck
        exact (hall slot hslot).imp_right (Enough.reads_iff h).mp
      · intro hall slot hslot
        exact (hall range slot rfl hslot).imp_right (Enough.reads_iff h).mpr

/-- Whatever the loader finds, the checks are those of the image that it found first. -/
theorem checked_of_found {image : Image} {bytes : Nat → UInt8}
    (hheader : image.found .header = bytes) (hscan : ∀ i, image.found (.scan i) = bytes) :
    headerOf image dataPtr = headerOf (.still bytes) dataPtr ∧
      checked image dataPtr size = checked (.still bytes) dataPtr size := by
  have hhdr : headerOf image dataPtr = headerOf (.still bytes) dataPtr := by
    rw [headerOf, headerOf, hheader]
    rfl
  refine ⟨hhdr, checked_congr hhdr fun i _ => ?_⟩
  rw [Kernel.scanAt, Kernel.scanAt, hscan]
  rfl

/-- An image that is refused, or that there is no slot or no frame for, leaves no trace. -/
theorem Holds.exec_atomic_of_none (h : Holds L k g) (hlive : k.Running)
    (hnone : ∀ range slot, checked (.still k.seen) dataPtr size = some range →
      k.table.findFreeSlot = some slot → Yields 0 k) :
    Atomic k (k.exec L throughTables dataPtr size) := by
  obtain ⟨image, hheader, hscan, -, hexec⟩ :=
    exists_image L (steady_throughTables k) dataPtr size
  obtain ⟨-, hchecked⟩ := checked_of_found hheader hscan
  rw [hexec]
  refine (h.exec_atomic_iff hlive image dataPtr size).mpr fun range slot hcheck hslot => ?_
  exact Or.inl (hnone range slot (hchecked.symm.trans hcheck) hslot)

/-- An image whose headers stay takes the frames that its headers ask for. -/
theorem Holds.exec_atomic_of_undisturbed (h : Holds L k g) (hlive : k.Running)
    (hstay : Undisturbed L k dataPtr size) :
    Atomic k (k.exec L throughTables dataPtr size) ↔
      ∀ range slot, checked (.still k.seen) dataPtr size = some range →
        k.table.findFreeSlot = some slot → Yields 0 k ∨
          Enough k (execPages (.still k.seen) dataPtr (headerOf (.still k.seen) dataPtr) range) := by
  obtain ⟨image, hheader, hscan, hentry, hexec⟩ :=
    exists_image L (steady_headersFound k) dataPtr size
  have hfirst : headersFound k.seen .header k = k.seen := rfl
  rw [hfirst] at hheader hscan
  obtain ⟨hhdr, hchecked⟩ := checked_of_found hheader hscan
  have hpages : ∀ range, execPages image dataPtr (headerOf (.still k.seen) dataPtr) range =
      execPages (.still k.seen) dataPtr (headerOf (.still k.seen) dataPtr) range := by
    intro range
    rw [execPages, execPages, plan_congr fun i hi => ?_]
    obtain ⟨k', hfound⟩ := hentry i hi
    rw [Kernel.phdrAt, Kernel.phdrAt, hfound]
    rfl
  rw [hstay.exec_eq, hexec, h.exec_atomic_iff hlive, hchecked, hhdr]
  simp only [hpages]

/-! ## Runs -/

/-- In each state that sparing steps lead to, `exec` is atomic if it refuses the image, finds no
slot or no frame at all; where it finds the headers again as they were, exactly if so or if it has
enough frames; `spawn_initial_user`, if it finds no slot or has enough frames; and `create_thread`
always. -/
theorem creators_atomic_iff {h : List Action} (boot : Booted L k₀)
    (run : Run (SparingStep L) k₀ h k) (running : k.Running) :
    (∀ dataPtr size,
      ((∀ range slot, checked (.still k.seen) dataPtr size = some range →
          k.table.findFreeSlot = some slot → Yields 0 k) →
        Atomic k (k.exec L throughTables dataPtr size)) ∧
      (Undisturbed L k dataPtr size → (Atomic k (k.exec L throughTables dataPtr size) ↔
        ∀ range slot, checked (.still k.seen) dataPtr size = some range →
          k.table.findFreeSlot = some slot → Yields 0 k ∨
            Enough k
              (execPages (.still k.seen) dataPtr (headerOf (.still k.seen) dataPtr) range)))) ∧
    (∀ entry, Atomic k (k.spawnInitialUser L entry) ↔
      ∀ slot, k.table.findFreeSlot = some slot → Enough k (Kernel.spawnPages L slot entry)) ∧
    ∀ entry stack, Atomic k (k.createThread L entry stack) := by
  obtain ⟨g, hg⟩ := holds_of_run boot run
  exact ⟨fun _ _ => ⟨hg.exec_atomic_of_none running, hg.exec_atomic_of_undisturbed running⟩,
    hg.spawnInitialUser_atomic_iff running, hg.createThread_atomic running⟩

/-- A start with two frames, after a thread was made. -/
def twoThreads : Kernel := ((started 2).createThread Layout.packed 0x1000 0).2

theorem twoThreads_short : ¬Enough twoThreads (Kernel.spawnPages Layout.packed 2 0x1000) := by
  rintro ⟨n, d, hn, hd, hle⟩
  have htwo : Yields 2 twoThreads := ⟨by decide, by decide, rfl⟩
  obtain rfl : n = 2 := hn.unique htwo
  have hdemand : demand twoThreads.mem (target twoThreads.readCr3)
      (Kernel.spawnPages Layout.packed 2 0x1000) = some 22 := by decide +kernel
  rw [hdemand] at hd
  cases hd
  exact absurd hle (by decide)

/-- After a thread was made, another one fails without a trace, and the frames are not enough for
a new address space. -/
theorem creators_atomic_iff_twoFrames :
    Atomic twoThreads (twoThreads.createThread Layout.packed 0x1000 8) ∧
      ¬Atomic twoThreads (twoThreads.spawnInitialUser Layout.packed 0x1000) := by
  have hrun : Run (SparingStep Layout.packed) (started 2) [.createThread 0x1000 0] twoThreads :=
    Run.snoc .nil ⟨.createThread rfl, trivial⟩
  obtain ⟨-, hspawn, hthread⟩ := creators_atomic_iff (booted_started (by decide)) hrun rfl
  refine ⟨hthread 0x1000 8, fun hatomic => ?_⟩
  exact twoThreads_short ((hspawn 0x1000).mp hatomic 2 (by decide +kernel))

/-- An address space that was begun stays in the process table. -/
theorem not_creators_atomic :
    ¬∀ (L : Layout) (k₀ k : Kernel) (h : List Action), Booted L k₀ → Run (Step L) k₀ h k →
      k.Running → (∀ dataPtr size, Atomic k (k.exec L throughTables dataPtr size)) ∧
        (∀ entry, Atomic k (k.spawnInitialUser L entry)) ∧
        ∀ entry stack, Atomic k (k.createThread L entry stack) := by
  intro hall
  obtain ⟨-, hspawn, -⟩ :=
    hall Layout.packed (started 2) (started 2) [] (booted_started (by decide)) .nil rfl
  have hneg : ((started 2).spawnInitialUser Layout.packed 0x1000).1 < 0 := by decide +kernel
  have hlive := ((hspawn 0x1000 hneg).1 1).1
  revert hlive
  decide +kernel

end PureOS.Memory
