import PureOS.Memory.Buffer

set_option autoImplicit false

/-!
# Memory: apart

While a process lives, no step of any process changes where its addresses lead, but for the pages
that a step maps.  No frame is in two places: free, in the list of a process, or a table.
-/

namespace PureOS.Memory

open PureOS.Foundation PureOS.Process

variable {L : Layout} {k k₀ k' : Kernel} {g : Ledger} {m : Nat → UInt8} {q : Pid} {virt : Nat}
variable {h : List Action}

/-- While a process lives and no step maps the page of an address, the address leads to the same
place with the same right to write, whatever the processes do; a right of user space that there is
stays. -/
theorem isolated_of_run {h' : List Action} (boot : Booted L k₀)
    (before : Run (SparingStep L) k₀ h k) (hlive : (k.table q).isLive = true)
    (run : Run (Apart L q virt) k h' k') : Keeps k k' q virt := by
  obtain ⟨g, hk⟩ := holds_of_run boot before
  have hends := run.invariant_state
    (fun s => (∃ g, Holds L s g) ∧ (s.table q).isLive = true ∧ Keeps k s q virt)
    ⟨⟨g, hk⟩, hlive, .refl k q virt⟩ fun s a s' ⟨⟨gs, hs⟩, hlives, hkeeps⟩ hstep =>
      ⟨hstep.step.holds hs, hstep.live, hkeeps.trans (hstep.keeps hs hlives)⟩
  exact hends.2.2

/-- The first process has a page with a byte, and makes a second one that runs. -/
def twoProcesses : Kernel :=
  { ((stored [0xAA]).createProcess Layout.packed 0x8000).2 with current := 1 }

/-- Where the second process has got a page. -/
def secondBase : Nat := ephemeralBase + ephemeralBytesPerProcess

/-- The second process has got a page. -/
def twoPages : Kernel := (twoProcesses.memoryAllocate 4096).2

theorem create_second :
    SparingStep Layout.packed (stored [0xAA]) (.createProcess 0x8000)
      ((stored [0xAA]).createProcess Layout.packed 0x8000).2 := ⟨.createProcess rfl, trivial⟩

theorem switch_second :
    SparingStep Layout.packed ((stored [0xAA]).createProcess Layout.packed 0x8000).2 .other
      twoProcesses := by
  have hlive : (((stored [0xAA]).createProcess Layout.packed 0x8000).2.table 1).isLive = true := by
    decide +kernel
  exact ⟨.other ⟨fun _ => rfl, fun _ => rfl, fun _ => rfl, fun _ => rfl, fun _ => rfl, fun _ => rfl⟩
    hlive, trivial⟩

theorem allocate_second :
    SparingStep Layout.packed twoProcesses (.memoryAllocate 4096) twoPages :=
  ⟨.memoryAllocate (show (twoProcesses.table 1).isLive = true by decide +kernel), trivial⟩

theorem run_twoProcesses :
    ∃ h, Run (SparingStep Layout.packed) (started 64) h twoProcesses :=
  ⟨_, .snoc (.snoc (run_stored (show [(0xAA : UInt8)].length ≤ 4096 by decide)) create_second)
    switch_second⟩

theorem twoPages_buffer :
    ∃ g, Buffer Layout.packed g secondBase 0x404000 twoPages ∧
      twoPages.tracked 1 = [0x404000] ∧ ∀ i < 4096, twoPages.mem (0x404000 + i) = 0 := by
  obtain ⟨h, hrun⟩ := run_twoProcesses
  obtain ⟨g, hg⟩ := holds_of_run (booted_started (by decide)) hrun
  have hrunning : twoProcesses.Running :=
    show (twoProcesses.table 1).isLive = true by decide +kernel
  have hfin : twoProcesses.allocationEnd 4096 = some (secondBase + 4096) := by decide +kernel
  have hpages : twoProcesses.allocationPages (secondBase + 4096) = [secondBase] := by
    decide +kernel
  have hcanonical : ∀ i < 4096, Canonical (secondBase + i) := by
    intro i hi
    unfold Canonical secondBase ephemeralBase ephemeralBytesPerProcess
    omega
  have hvalue : 0 ≤ (twoProcesses.memoryAllocate 4096).1 := by decide +kernel
  have htracked : twoPages.tracked 1 = [0x404000] := by decide +kernel
  have hhead : (twoProcesses.table 1).framesHead = 0 := by decide +kernel
  obtain ⟨g', frame, hbuffer, hframe, hmem⟩ := exists_buffer hg hrunning hfin hpages hcanonical
    (by decide) (by decide) hvalue
  obtain rfl : frame = 0x404000 := (List.cons.inj (hframe.symm.trans htracked)).1
  refine ⟨g', hbuffer, htracked, fun i hi => (hmem i hi).trans ?_⟩
  have hcurrent : twoProcesses.current = 1 := rfl
  rw [hcurrent, hhead]
  exact linkByte_zero i

/-- The second process stores a byte in its page, and the page of the first one stays where it
is. -/
theorem isolated_of_run_twoPages :
    Keeps (stored [0xAA])
      { twoPages with mem := Function.update twoPages.mem (0x404000 + 0) 0x55 } 0 ephemeralBase := by
  obtain ⟨g, hbuffer, -⟩ := twoPages_buffer
  obtain ⟨hstore, -⟩ := hbuffer.store (show 0 < 4096 by decide) 0x55
  have hlive : (((stored [0xAA]).createProcess Layout.packed 0x8000).2.table 0).isLive = true := by
    decide +kernel
  have hlive' : (twoPages.table 0).isLive = true := by decide +kernel
  have hpages : ∀ va ∈ mappedBy Layout.packed twoProcesses (.memoryAllocate 4096),
      pageNo va ≠ pageNo ephemeralBase := by decide +kernel
  exact isolated_of_run (booted_started (by decide)) (run_stored (by decide)) rfl
    (.snoc (.snoc (.snoc (.snoc .nil ⟨create_second, hlive, nofun⟩) ⟨switch_second, hlive, nofun⟩)
      ⟨allocate_second, hlive', hpages⟩) ⟨hstore, hlive', nofun⟩)

/-! ## Where the frames are -/

/-- The tables on the ways from a root. -/
inductive TableOf (m : Nat → UInt8) (root : Nat) : Nat → Nat → Prop
  | root : TableOf m root 3 root
  | child {n t i : Nat} (table : TableOf m root (n + 1) t) (index : i < 512)
      (present : present (cell m t i) = true) (table : isHuge (cell m t i) = false) :
      TableOf m root n (target (cell m t i))

theorem TableOf.use (hk : TablesHold L m g) {root n t : Nat} (hroot : g.use root = .table 3 0)
    (htable : TableOf m root n t) : ∃ pre, g.use t = .table n pre := by
  induction htable with
  | root => exact ⟨0, hroot⟩
  | child _ hi hpresent hhuge ih =>
      obtain ⟨pre, ht⟩ := ih
      exact ⟨_, (hk.child _ _ _ ht _ hi hpresent hhuge).1⟩

/-- No frame is in two places. -/
structure Sorted (k : Kernel) (free : List Nat) : Prop where
  threaded : Threaded (word k.mem) k.freeListHead free
  nodup : free.Nodup
  aligned : ∀ f ∈ free, Aligned f
  tracked_nodup : ∀ p, (k.tracked p).Nodup
  tracked_not_free : ∀ p, ∀ f ∈ k.tracked p, f ∉ free
  tracked_apart : ∀ p p', p ≠ p' → ∀ f ∈ k.tracked p, f ∉ k.tracked p'
  table_apart : ∀ p, (k.table p).isLive = true → ∀ n t,
    TableOf k.mem (pageDown (k.table p).pageTableBase) n t →
      t ∉ free ∧ ∀ p', t ∉ k.tracked p'

theorem Holds.sorted (hk : Holds L k g) : Sorted k g.free where
  threaded := hk.pool.threaded
  nodup := hk.pool.nodup
  aligned f hf := by
    have hfree := (hk.pool.mem_free f).mp hf
    exact hk.aligned (by rw [hfree]; exact Use.noConfusion)
  tracked_nodup := hk.owners.tracked_nodup
  tracked_not_free p f hf hfree := by
    have hheld := hk.owners.tracked_held p f hf
    rw [(hk.pool.mem_free f).mp hfree] at hheld
    cases hheld
  tracked_apart := hk.owners.tracked_disjoint
  table_apart p hlive n t htable := by
    obtain ⟨pre, huse⟩ := htable.use hk.tables (hk.root_of_live hlive)
    refine ⟨fun hfree => ?_, fun p' hmem => ?_⟩
    · rw [(hk.pool.mem_free t).mp hfree] at huse
      cases huse
    · rw [hk.owners.tracked_held p' t hmem] at huse
      cases huse

/-- A process that dies, by itself or by another one. -/
inductive Death (k : Kernel) : Pid → Kernel → Prop
  | exit {fuel code : Nat} {k' : Kernel} (run : k.exitProcess fuel code = some k') :
      Death k k.current k'
  | kill {fuel : Nat} {pid : Pid} {k' : Kernel} (run : k.killProcess fuel pid = some (true, k')) :
      Death k pid k'

/-- A death gives back the frames of the list. -/
theorem Death.sorted {pid : Pid} (hdeath : Death k pid k') (hk : Holds L k g)
    (hintact : Intact k pid) :
    ∃ l, Threaded (word k.mem) (k.table pid).framesHead l ∧ (∀ f ∈ l, f ∈ k.tracked pid) ∧
      Sorted k' (l.reverse ++ g.free) ∧ k'.tracked pid = [] := by
  obtain ⟨l, hthread, hl⟩ := hintact
  refine ⟨l, hthread, hl, ?_⟩
  rw [← Ledger.releaseAll_free]
  cases hdeath with
  | exit hrun =>
      obtain ⟨k₁, -, rfl, hholds⟩ := death_freed hk hthread hl _ (by rfl) (by rfl) hrun
      exact ⟨hholds.sorted, Function.update_self _ _ _⟩
  | kill hrun =>
      rw [Kernel.killProcess] at hrun
      split at hrun
      · cases hrun
      · obtain ⟨k₂, hrun, heq⟩ := Option.map_eq_some_iff.mp hrun
        cases heq
        obtain ⟨k₁, -, rfl, hholds⟩ := death_freed hk hthread hl _ (by rfl) (by rfl) hrun
        exact ⟨hholds.sorted, Function.update_self _ _ _⟩

/-- In every state that a sparing run reaches, no frame is in two places: each one is at most once
on the free list, in one list of a process or a table of a live process.  A process that dies with
an intact list gives back exactly the frames of the list, before those that were free. -/
theorem sorted_of_run (boot : Booted L k₀) (run : Run (SparingStep L) k₀ h k) :
    ∃ free, Sorted k free ∧ ∀ pid k', Death k pid k' → Intact k pid →
      ∃ l, Threaded (word k.mem) (k.table pid).framesHead l ∧ (∀ f ∈ l, f ∈ k.tracked pid) ∧
        Sorted k' (l.reverse ++ free) ∧ k'.tracked pid = [] := by
  obtain ⟨g, hk⟩ := holds_of_run boot run
  exact ⟨g.free, hk.sorted, fun _ _ hdeath hintact => hdeath.sorted hk hintact⟩

/-- The second process has died. -/
def afterDeath : Kernel := (twoPages.exitProcess 2 0).getD twoPages

theorem exit_second : twoPages.exitProcess 2 0 = some afterDeath := by
  have hsome : (twoPages.exitProcess 2 0).isSome = true := by decide +kernel
  obtain ⟨k, hk⟩ := Option.isSome_iff_exists.mp hsome
  rw [afterDeath, hk]
  rfl

/-- The list of the second process leads to its one frame. -/
theorem intact_second : Intact twoPages 1 := by
  obtain ⟨g, hbuffer, htracked, hzero⟩ := twoPages_buffer
  have hhead : (twoPages.table 1).framesHead = 0x404000 := by decide +kernel
  have hlast : word twoPages.mem 0x404000 = 0 := by decide +kernel
  refine ⟨[0x404000], ?_, fun f hf => ?_⟩
  · rw [hhead]
    refine .cons (by decide) ?_
    rw [hlast]
    exact .nil
  · rw [htracked]
    exact hf

/-- The frames after an allocation of each of two processes and the death of the second one. -/
theorem sorted_of_run_afterDeath :
    ∃ free, Sorted afterDeath free ∧ ∀ pid k', Death afterDeath pid k' → Intact afterDeath pid →
      ∃ l, Threaded (word afterDeath.mem) (afterDeath.table pid).framesHead l ∧
        (∀ f ∈ l, f ∈ afterDeath.tracked pid) ∧
        Sorted k' (l.reverse ++ free) ∧ k'.tracked pid = [] := by
  obtain ⟨h, hrun⟩ := run_twoProcesses
  have hrunning : twoPages.Running := show (twoPages.table 1).isLive = true by decide +kernel
  have hexit : SparingStep Layout.packed twoPages (.exitProcess 0) afterDeath :=
    ⟨.exitProcess hrunning exit_second, intact_second⟩
  exact sorted_of_run (booted_started (by decide)) (.snoc (.snoc hrun allocate_second) hexit)

end PureOS.Memory
