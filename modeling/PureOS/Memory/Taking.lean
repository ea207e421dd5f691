import PureOS.Memory.Ledger

set_option autoImplicit false

/-!
# Memory: taking and tracking frames

What `alloc_frame` and `track_frame` do to the ledger, and what may be written into a
frame that was given out.
-/

namespace PureOS.Memory

open PureOS.Foundation PureOS.Process

variable {L : Layout} {k k' : Kernel} {g g' : Ledger} {m m' : Nat → UInt8}

/-! ## Frames of the ledger -/

theorem PoolHolds.aligned_fresh (h : PoolHolds k g) {f : Nat} (hf : g.Fresh f) : Aligned f :=
  (h.frame f hf.ne_other).2.1

theorem Holds.aligned (h : Holds L k g) {f : Nat} (hf : g.use f ≠ .other) : Aligned f :=
  (h.pool.frame f hf).2.1

theorem Holds.aligned_table (h : Holds L k g) {t n pre : Nat} (ht : g.use t = .table n pre) :
    Aligned t := h.aligned (by rw [ht]; exact Use.noConfusion)

theorem Holds.aligned_fresh (h : Holds L k g) {f : Nat} (hf : g.Fresh f) : Aligned f :=
  h.aligned hf.ne_other

/-- A frame that is tracked is not given out again. -/
theorem OwnersHold.not_fresh_of_tracked (h : OwnersHold L k g) {p : Pid} {f : Nat}
    (hf : f ∈ k.tracked p) : ¬g.Fresh f := fun hfresh => hfresh.ne_held (h.tracked_held p f hf)

/-- What becomes of a fresh frame does not matter to the processes. -/
theorem OwnersHold.setFresh (h : OwnersHold L k g) {f : Nat} (hf : g.Fresh f)
    (huse : ∀ f' ≠ f, g'.use f' = g.use f') (htable : k'.table = k.table)
    (htracked : k'.tracked = k.tracked) : OwnersHold L k' g' where
  base := by rw [htable]; exact h.base
  base_zero := by
    rw [htable]
    intro hlive
    obtain ⟨hroot, hlt, hne⟩ := h.base_zero hlive
    refine ⟨?_, hlt, hne⟩
    rw [huse]
    · exact hroot
    · intro heq
      exact hf.ne_table (heq ▸ hroot)
  tracked_held := by
    rw [htracked]
    intro p f' hf'
    rw [huse]
    · exact h.tracked_held p f' hf'
    · intro heq
      exact hf.ne_held (heq ▸ h.tracked_held p f' hf')
  tracked_nodup := by rw [htracked]; exact h.tracked_nodup
  tracked_disjoint := by rw [htracked]; exact h.tracked_disjoint

/-- Only the process table and the records of tracked frames count for the processes. -/
theorem OwnersHold.congr (h : OwnersHold L k g) (htable : k'.table = k.table)
    (htracked : k'.tracked = k.tracked) : OwnersHold L k' g where
  base := by rw [htable]; exact h.base
  base_zero := by rw [htable]; exact h.base_zero
  tracked_held := by rw [htracked]; exact h.tracked_held
  tracked_nodup := by rw [htracked]; exact h.tracked_nodup
  tracked_disjoint := by rw [htracked]; exact h.tracked_disjoint

/-! ## `alloc_frame` -/

/-- The allocator gave out the frame `f`. -/
structure GivenOut (k k' : Kernel) (g g' : Ledger) (f : Nat) : Prop where
  fresh : g.Fresh f
  use_eq : g'.use = (g.set f .held).use
  mem_eq : k'.mem = overlay k.mem f 4096 fun _ => 0
  quiet : Kernel.Quiet k k'
  less : available k' g' + 1 = available k g
  pool : PoolHolds k' g'

/-- The frame `f` was taken from the allocator. -/
structure Taken (L : Layout) (k k' : Kernel) (g g' : Ledger) (f : Nat) : Prop where
  fresh : g.Fresh f
  use_eq : g'.use = (g.set f .held).use
  mem_eq : k'.mem = overlay k.mem f 4096 fun _ => 0
  quiet : Kernel.Quiet k k'
  less : available k' g' + 1 = available k g
  holds : Holds L k' g'

/-- The words of other frames are not touched when a frame is zeroed. -/
theorem word_zeroed_of_ne {f f' : Nat} (hf : Aligned f) (hf' : Aligned f') (hne : f' ≠ f) :
    word (overlay m f 4096 fun _ => 0) f' = word m f' :=
  (onlyPage_overlay hf (Nat.le_refl _)).word (i := 0) hf hf' hne (by decide)

/-- The tables stay when a fresh frame is taken. -/
theorem TablesHold.take (h : TablesHold L m g) {f : Nat} (hf : g.Fresh f)
    (haligned : ∀ f, g.use f ≠ .other → Aligned f) (huse : g'.use = (g.set f .held).use) :
    TablesHold L (overlay m f 4096 fun _ => 0) g' := by
  have hset : TablesHold L m (g.set f .held) :=
    h.set (fun _ _ => hf.ne_table) fun _ _ => Use.noConfusion
  have hcells : TablesHold L (overlay m f 4096 fun _ => 0) (g.set f .held) := by
    refine hset.congr fun t n pre ht i hi => ?_
    have htf : t ≠ f := by
      rintro rfl
      rw [Ledger.set_use_self] at ht
      cases ht
    rw [Ledger.set_use_of_ne _ _ htf] at ht
    have htaligned : Aligned t := haligned t (by rw [ht]; exact Use.noConfusion)
    exact cell_of_onlyPage (onlyPage_overlay (haligned f hf.ne_other) (Nat.le_refl _))
      (haligned f hf.ne_other) htaligned htf hi
  exact ⟨fun p => by rw [huse]; exact hcells.root p, by rw [huse]; exact hcells.child⟩

/-- What the allocator gives out is taken from the ledger. -/
theorem GivenOut.taken {f : Nat} (hgiven : GivenOut k k' g g' f) (h : Holds L k g) :
    Taken L k k' g g' f where
  fresh := hgiven.fresh
  use_eq := hgiven.use_eq
  mem_eq := hgiven.mem_eq
  quiet := hgiven.quiet
  less := hgiven.less
  holds := by
    refine ⟨hgiven.pool, ?_, ?_⟩
    · rw [hgiven.mem_eq]
      exact h.tables.take hgiven.fresh (fun _ => h.aligned) hgiven.use_eq
    · refine h.owners.setFresh hgiven.fresh (fun f' hf' => ?_) hgiven.quiet.table_eq
        hgiven.quiet.tracked_eq
      rw [hgiven.use_eq, Ledger.set_use_of_ne g .held hf']

/-- The head of the free list is given out. -/
theorem PoolHolds.allocFrame_of_free (h : PoolHolds k g) (hhead : k.freeListHead ≠ 0) :
    ∃ f k' g', k.allocFrame = (some f, k') ∧ GivenOut k k' g g' f := by
  have hthreaded := h.threaded
  have hnodup := h.nodup
  have hmem := h.mem_free
  cases hfree : g.free with
  | nil =>
      rw [hfree] at hthreaded
      exact absurd (hthreaded.head_eq_zero_iff.mpr rfl) hhead
  | cons f rest =>
      rw [hfree] at hthreaded hnodup hmem
      obtain ⟨hnotin, hrest⟩ := List.nodup_cons.mp hnodup
      obtain ⟨hfirst, hpos, hnext⟩ := hthreaded.of_cons
      rw [← hfirst] at hpos hnext hnotin hmem
      have huse : g.use k.freeListHead = .free := (hmem _).mp List.mem_cons_self
      have hfresh : g.Fresh k.freeListHead := Or.inl huse
      have haligned := h.aligned_fresh hfresh
      refine ⟨k.freeListHead, _, ⟨(g.set k.freeListHead .held).use, rest⟩,
        by rw [Kernel.allocFrame, if_pos hhead], ?_⟩
      refine ⟨hfresh, rfl, rfl, ⟨rfl, rfl, rfl, rfl, rfl, rfl⟩, ?_, ?_⟩
      · rw [available, available, hfree]
        change rest.length + k.poolFrames + 1 = rest.length + 1 + k.poolFrames
        omega
      · refine ⟨?_, h.aligned, h.next_lt, h.end_le, ?_, ?_, hrest, ?_⟩
        · intro f' hf'
          by_cases heq : f' = k.freeListHead
          · exact heq ▸ h.frame _ hfresh.ne_other
          · exact h.frame f' (by rwa [← Ledger.set_use_of_ne g .held heq])
        · intro f'
          rw [← h.unused f']
          by_cases heq : f' = k.freeListHead
          · rw [heq, Ledger.set_use_self, huse]
            exact iff_of_false Use.noConfusion Use.noConfusion
          · rw [Ledger.set_use_of_ne g .held heq]
        · refine hnext.congr fun f' hf' => ?_
          have hne : f' ≠ k.freeListHead := fun heq => hnotin (heq ▸ hf')
          have hfree' := (hmem f').mp (List.mem_cons_of_mem _ hf')
          exact word_zeroed_of_ne haligned (h.aligned_fresh (Or.inl hfree')) hne
        · intro f'
          by_cases heq : f' = k.freeListHead
          · rw [heq, Ledger.set_use_self]
            exact iff_of_false hnotin Use.noConfusion
          · rw [Ledger.set_use_of_ne g .held heq, ← hmem f', List.mem_cons]
            exact (or_iff_right heq).symm

/-- The next frame of the pool is given out. -/
theorem PoolHolds.allocFrame_of_pool (h : PoolHolds k g) (hhead : k.freeListHead = 0)
    (hpool : ¬(k.poolNext = 0 ∨ wrappingAdd k.poolNext 4096 > k.poolEnd)) :
    ∃ f k' g', k.allocFrame = (some f, k') ∧ GivenOut k k' g g' f := by
  have hlt := h.next_lt
  have haligned := h.aligned
  have hadd : wrappingAdd k.poolNext 4096 = k.poolNext + 4096 :=
    wrappingAdd_of_lt (Nat.lt_of_lt_of_le (Nat.add_lt_add_right hlt 4096) (by decide))
  rw [not_or, hadd, Nat.not_lt] at hpool
  obtain ⟨hpos, hle⟩ := hpool
  have huse : g.use k.poolNext = .unused :=
    (h.unused _).mpr ⟨hpos, haligned, Nat.le_refl _, hle⟩
  have hfresh : g.Fresh k.poolNext := Or.inr huse
  have hend := h.end_le
  have halloc : k.allocFrame = (some k.poolNext, { k with
      poolNext := k.poolNext + 4096
      mem := overlay k.mem k.poolNext 4096 fun _ => 0 }) := by
    rw [Kernel.allocFrame, if_neg (not_not.mpr hhead), hadd, if_neg]
    exact not_or.mpr ⟨hpos, Nat.not_lt.mpr hle⟩
  refine ⟨k.poolNext, _, ⟨(g.set k.poolNext .held).use, g.free⟩, halloc, ?_⟩
  refine ⟨hfresh, rfl, rfl, ⟨rfl, rfl, rfl, rfl, rfl, rfl⟩, ?_, ?_⟩
  · rw [available, available, Kernel.poolFrames, Kernel.poolFrames, if_neg hpos]
    change g.free.length + (if k.poolNext + 4096 = 0 then 0
      else (k.poolEnd - (k.poolNext + 4096)) / 4096) + 1 = _
    rw [if_neg (by omega)]
    omega
  · refine ⟨?_, ?_, ?_, hend, ?_, ?_, h.nodup, ?_⟩
    · intro f hf
      by_cases heq : f = k.poolNext
      · exact heq ▸ h.frame _ hfresh.ne_other
      · exact h.frame f (by rwa [← Ledger.set_use_of_ne g .held heq])
    · unfold Aligned at haligned ⊢
      change (k.poolNext + 4096) % 4096 = 0
      omega
    · change k.poolNext + 4096 < 2 ^ 53
      omega
    · intro f
      change _ ↔ k.poolNext + 4096 ≠ 0 ∧ Aligned f ∧ k.poolNext + 4096 ≤ f ∧ f + 4096 ≤ k.poolEnd
      by_cases heq : f = k.poolNext
      · rw [heq, Ledger.set_use_self]
        refine iff_of_false Use.noConfusion ?_
        omega
      · rw [Ledger.set_use_of_ne g .held heq, h.unused f]
        unfold Aligned at haligned ⊢
        omega
    · refine h.threaded.congr fun f hf => ?_
      have hfree := (h.mem_free f).mp hf
      refine word_zeroed_of_ne haligned (h.aligned_fresh (Or.inl hfree)) ?_
      rintro rfl
      rw [huse] at hfree
      cases hfree
    · intro f
      by_cases heq : f = k.poolNext
      · rw [heq, Ledger.set_use_self, h.mem_free, huse]
        exact iff_of_false Use.noConfusion Use.noConfusion
      · rw [Ledger.set_use_of_ne g .held heq]
        exact h.mem_free f

/-- `alloc_frame` fails exactly when nothing is available. -/
theorem PoolHolds.allocFrame_cases (h : PoolHolds k g) :
    (k.allocFrame = (none, k) ∧ available k g = 0) ∨
      ∃ f k' g', k.allocFrame = (some f, k') ∧ GivenOut k k' g g' f := by
  by_cases hhead : k.freeListHead = 0
  · by_cases hpool : k.poolNext = 0 ∨ wrappingAdd k.poolNext 4096 > k.poolEnd
    · refine Or.inl ⟨by rw [Kernel.allocFrame, if_neg (not_not.mpr hhead), if_pos hpool], ?_⟩
      have hnil : g.free = [] := h.threaded.head_eq_zero_iff.mp hhead
      have hlt := h.next_lt
      have hadd : wrappingAdd k.poolNext 4096 = k.poolNext + 4096 := by
        exact wrappingAdd_of_lt (Nat.lt_of_lt_of_le (Nat.add_lt_add_right hlt 4096) (by decide))
      rw [hadd] at hpool
      rw [available, hnil, Kernel.poolFrames, List.length_nil]
      split <;> omega
    · exact Or.inr (h.allocFrame_of_pool hhead hpool)
  · exact Or.inr (h.allocFrame_of_free hhead)

/-- What that means for the ledger. -/
theorem allocFrame_cases (h : Holds L k g) :
    (k.allocFrame = (none, k) ∧ available k g = 0) ∨
      ∃ f k' g', k.allocFrame = (some f, k') ∧ Taken L k k' g g' f := by
  rcases h.pool.allocFrame_cases with hnone | ⟨f, k', g', halloc, hgiven⟩
  · exact Or.inl hnone
  · exact Or.inr ⟨f, k', g', halloc, hgiven.taken h⟩

end PureOS.Memory
