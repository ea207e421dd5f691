import Mathlib.Data.Finset.Card
import Mathlib.Data.List.Perm.Basic
import PureOS.Foundation.Run
import PureOS.Memory.Frames

set_option autoImplicit false

/-!
# Memory: the pool of frames (`frame.rs`)

The allocator by itself: where its pool begins, what it says about its frames, and what holds
while frames are taken, given back and written to by their owners.
-/

namespace PureOS.Memory

open PureOS.Foundation

/-- `FrameStats`. -/
structure FrameStats where
  totalBytes : Nat
  usedBytes : Nat
  freeBytes : Nat
  totalFrames : Nat
  usedFrames : Nat
  freeFrames : Nat

/-- The statics of `frame.rs`: the kernel has all of them but `POOL_BASE`. -/
structure Pool where
  kernel : Kernel
  poolBase : Nat

namespace Pool

/-- `init`, without the wrapping that no pool below the end of memory comes to. -/
def init (base size : Nat) (p : Pool) : Pool :=
  if size = 0 then
    { kernel := { p.kernel with poolNext := 0, poolEnd := 0, freeListHead := 0 }, poolBase := 0 }
  else
    let aligned := pageDown (wrappingAdd base 4095)
    { kernel := { p.kernel with
        poolNext := aligned
        poolEnd := wrappingAdd base size
        freeListHead := 0 }
      poolBase := aligned }

/-- `stats`. -/
def stats (p : Pool) : FrameStats :=
  if p.poolBase = 0 ∨ p.kernel.poolEnd ≤ p.poolBase then ⟨0, 0, 0, 0, 0, 0⟩
  else
    let total := p.kernel.poolEnd - p.poolBase
    let used := p.kernel.poolNext - p.poolBase
    let free := total - used
    ⟨total, used, free, total / 4096, used / 4096, free / 4096⟩

/-- The loop of `real_stats`, with a bound on its turns.  `none` is an exhausted bound. -/
def countFree (mem : Nat → UInt8) : Nat → Nat → Nat → Option Nat
  | 0, _, _ => none
  | fuel + 1, f, free => if f = 0 then some free else countFree mem fuel (word mem f) (free + 1)

/-- `real_stats`. -/
def realStats (p : Pool) (fuel : Nat) : Option FrameStats :=
  let s := p.stats
  (countFree p.kernel.mem fuel p.kernel.freeListHead s.freeFrames).map fun free =>
    { totalBytes := s.totalBytes
      usedBytes := (s.totalFrames - free) * 4096
      freeBytes := free * 4096
      totalFrames := s.totalFrames
      usedFrames := s.totalFrames - free
      freeFrames := free }

end Pool

/-! ## Runs -/

/-- The allocator and the frames that are out. -/
structure InUse where
  pool : Pool
  out : List Nat

/-- The calls of the owners, and what they do between them. -/
inductive PoolCall where
  | alloc (result : Option Nat)
  | free (frame : Nat)
  | write

/-- A step: a frame is asked for, one that is out is given back, or those that are out are
written to. -/
inductive InUse.Step : InUse → PoolCall → InUse → Prop
  | alloc (s : InUse) :
      Step s (.alloc s.pool.kernel.allocFrame.1)
        { pool := { s.pool with kernel := s.pool.kernel.allocFrame.2 }
          out := s.pool.kernel.allocFrame.1.toList ++ s.out }
  | free (s : InUse) {f : Nat} (mem : f ∈ s.out) :
      Step s (.free f)
        { pool := { s.pool with kernel := s.pool.kernel.freeFrame f }, out := s.out.erase f }
  | write (s : InUse) (mem : Nat → UInt8)
      (inside : ∀ a, (∀ f ∈ s.out, a < f ∨ f + 4096 ≤ a) → mem a = s.pool.kernel.mem a) :
      Step s .write { s with pool := { s.pool with kernel := { s.pool.kernel with mem := mem } } }

/-- The whole frames between two addresses. -/
def wholeFrames (base size : Nat) : Finset Nat :=
  (Finset.range (base + size)).filter fun f => Aligned f ∧ base ≤ f ∧ f + 4096 ≤ base + size

/-- `n` frames one behind the other. -/
def framesFrom (a n : Nat) : List Nat := (List.range n).map (a + 4096 * ·)

/-- The invariant: the free list leads through the frames that were given back, and those and the
frames that are out are what the bump pointer has passed. -/
structure InUse.Sound (base size : Nat) (s : InUse) : Prop where
  poolBase : s.pool.poolBase = pageDown (base + 4095)
  poolEnd : s.pool.kernel.poolEnd = base + size
  frames : ∃ n free, s.pool.kernel.poolNext = pageDown (base + 4095) + 4096 * n ∧
    (n = 0 ∨ pageDown (base + 4095) + 4096 * n ≤ base + size) ∧
    Threaded (word s.pool.kernel.mem) s.pool.kernel.freeListHead free ∧
    (free ++ s.out).Perm (framesFrom (pageDown (base + 4095)) n)

theorem framesFrom_succ (a n : Nat) : framesFrom a (n + 1) = framesFrom a n ++ [a + 4096 * n] := by
  rw [framesFrom, List.range_succ, List.map_append]
  rfl

theorem length_framesFrom (a n : Nat) : (framesFrom a n).length = n := by
  rw [framesFrom, List.length_map, List.length_range]

theorem mem_framesFrom {a n f : Nat} : f ∈ framesFrom a n ↔ ∃ i < n, a + 4096 * i = f := by
  simp [framesFrom]

theorem nodup_framesFrom (a n : Nat) : (framesFrom a n).Nodup := by
  refine List.Nodup.map ?_ List.nodup_range
  intro i j hij
  dsimp only at hij
  omega

/-- The first frame that is wholly in the pool. -/
theorem aligned_base (base : Nat) : Aligned (pageDown (base + 4095)) := aligned_pageDown _

theorem base_le (base : Nat) :
    base ≤ pageDown (base + 4095) ∧ pageDown (base + 4095) < base + 4096 := by
  unfold pageDown
  omega

/-- The whole frames of a pool are those from the first one on that end in it. -/
theorem mem_wholeFrames_iff {base size f : Nat} :
    f ∈ wholeFrames base size ↔
      ∃ i, pageDown (base + 4095) + 4096 * i = f ∧ f + 4096 ≤ base + size := by
  have hle := base_le base
  have haligned := aligned_base base
  rw [wholeFrames, Finset.mem_filter, Finset.mem_range]
  unfold Aligned at haligned ⊢
  constructor
  · rintro ⟨-, hf, hbase, hend⟩
    exact ⟨(f - pageDown (base + 4095)) / 4096, by omega, hend⟩
  · rintro ⟨i, rfl, hend⟩
    exact ⟨by omega, by omega, by omega, hend⟩

theorem card_wholeFrames (base size : Nat) :
    (wholeFrames base size).card = (base + size - pageDown (base + 4095)) / 4096 := by
  have hsame : wholeFrames base size =
      (framesFrom (pageDown (base + 4095))
        ((base + size - pageDown (base + 4095)) / 4096)).toFinset := by
    ext f
    rw [mem_wholeFrames_iff, List.mem_toFinset, mem_framesFrom]
    constructor
    · rintro ⟨i, rfl, hend⟩
      exact ⟨i, by omega, rfl⟩
    · rintro ⟨i, hi, rfl⟩
      exact ⟨i, rfl, by omega⟩
  rw [hsame, List.toFinset_card_of_nodup (nodup_framesFrom _ _), length_framesFrom]

/-! ## The invariant -/

section Sound

variable {base size : Nat} {s s' : InUse}

theorem aligned_of_mem {n f : Nat} (h : f ∈ framesFrom (pageDown (base + 4095)) n) : Aligned f := by
  obtain ⟨i, -, rfl⟩ := mem_framesFrom.mp h
  have haligned := aligned_base base
  unfold Aligned at haligned ⊢
  omega

theorem pos_of_mem (hbase : 0 < base) {n f : Nat}
    (h : f ∈ framesFrom (pageDown (base + 4095)) n) : f ≠ 0 := by
  obtain ⟨i, -, rfl⟩ := mem_framesFrom.mp h
  have hle := base_le base
  omega

/-- Two frames that are not the same do not meet. -/
theorem word_overlay_frame {m : Nat → UInt8} {src : Nat → UInt8} {f g : Nat} (hf : Aligned f)
    (hg : Aligned g) (hne : g ≠ f) : word (overlay m f 4096 src) g = word m g := by
  have honly : OnlyPage f m (overlay m f 4096 src) := onlyPage_overlay hf le_rfl
  have hword := honly.word hf hg hne (show 0 < 512 by decide)
  rwa [Nat.mul_zero, Nat.add_zero] at hword

theorem InUse.sound_init (hfit : base + size + 8192 < 2 ^ 64) (hsize : 0 < size) (p : Pool) :
    InUse.Sound base size { pool := p.init base size, out := [] } := by
  have hbase : wrappingAdd base 4095 = base + 4095 := wrappingAdd_of_lt (by unfold wordSize; omega)
  have hend : wrappingAdd base size = base + size := wrappingAdd_of_lt (by unfold wordSize; omega)
  rw [Pool.init, if_neg (by omega)]
  refine ⟨?_, hend, 0, [], ?_, Or.inl rfl, .nil, .nil⟩
  · rw [hbase]
  · dsimp only
    rw [hbase, Nat.mul_zero]
    omega

/-- A frame comes from the free list, or from behind what the bump pointer has passed; none comes
only if both are used up. -/
theorem InUse.Sound.alloc (hbase : 0 < base) (hfit : base + size + 8192 < 2 ^ 64)
    (h : s.Sound base size) :
    InUse.Sound base size { pool := { s.pool with kernel := s.pool.kernel.allocFrame.2 }
                            out := s.pool.kernel.allocFrame.1.toList ++ s.out } ∧
    (∀ f, s.pool.kernel.allocFrame.1 = some f →
      f ∈ wholeFrames base size ∧ f ∉ s.out ∧
        ∀ i < 4096, s.pool.kernel.allocFrame.2.mem (f + i) = 0) ∧
    (s.pool.kernel.allocFrame.1 = none → ∀ f ∈ wholeFrames base size, f ∈ s.out) := by
  obtain ⟨n, free, hnext, hn, hthread, hperm⟩ := h.frames
  have hle := base_le base
  have hin {f : Nat} (hf : f ∈ free ++ s.out) : f ∈ framesFrom (pageDown (base + 4095)) n :=
    hperm.mem_iff.mp hf
  have hnodup : (free ++ s.out).Nodup := hperm.nodup_iff.mpr (nodup_framesFrom _ _)
  have hwhole {f : Nat} (hf : f ∈ framesFrom (pageDown (base + 4095)) n) :
      f ∈ wholeFrames base size := by
    obtain ⟨i, hi, rfl⟩ := mem_framesFrom.mp hf
    exact mem_wholeFrames_iff.mpr ⟨i, rfl, by omega⟩
  unfold Kernel.allocFrame
  by_cases hhead : s.pool.kernel.freeListHead = 0
  · have hfree : free = [] := hthread.head_eq_zero_iff.mp hhead
    subst hfree
    rw [if_neg (not_not.mpr hhead)]
    have hwrap : wrappingAdd s.pool.kernel.poolNext 4096 = s.pool.kernel.poolNext + 4096 := by
      refine wrappingAdd_of_lt ?_
      unfold wordSize
      omega
    rw [hwrap]
    by_cases hfull :
        s.pool.kernel.poolNext = 0 ∨ s.pool.kernel.poolNext + 4096 > s.pool.kernel.poolEnd
    · rw [if_pos hfull]
      refine ⟨h, ?_, fun _ f hf => ?_⟩
      · rintro f ⟨⟩
      obtain ⟨i, rfl, hend⟩ := mem_wholeFrames_iff.mp hf
      have hend' := h.poolEnd
      refine hperm.mem_iff.mpr (mem_framesFrom.mpr ⟨i, ?_, rfl⟩)
      omega
    · obtain ⟨hpos, hroom⟩ := not_or.mp hfull
      have hend := h.poolEnd
      rw [if_neg hfull]
      refine ⟨⟨h.poolBase, h.poolEnd, n + 1, [], ?_, Or.inr (by omega), ?_, ?_⟩, ?_,
        fun hnone => nomatch hnone⟩
      · dsimp only
        omega
      · dsimp only
        rw [hhead]
        exact .nil
      · rw [framesFrom_succ, hnext]
        exact (List.Perm.cons _ hperm).trans (List.perm_append_singleton _ _).symm
      · rintro f ⟨⟩
        refine ⟨mem_wholeFrames_iff.mpr ⟨n, hnext.symm, by omega⟩, fun hout => ?_,
          fun i hi => ?_⟩
        · obtain ⟨i, hi, heq⟩ := mem_framesFrom.mp (hin hout)
          omega
        · dsimp only
          exact overlay_of_inside hi
  · rw [if_pos hhead]
    generalize s.pool.kernel.freeListHead = head at hthread hhead ⊢
    cases hthread with
    | nil => exact absurd rfl hhead
    | @cons _ rest pos hrest =>
        obtain ⟨hnot, -⟩ := List.nodup_cons.mp hnodup
        have hf := hin (List.mem_append_left _ List.mem_cons_self)
        refine ⟨⟨h.poolBase, h.poolEnd, n, rest, hnext, hn, ?_, ?_⟩, ?_, fun hnone => nomatch hnone⟩
        · refine hrest.congr fun g hg => word_overlay_frame (aligned_of_mem hf)
            (aligned_of_mem (hin (List.mem_append_left _ (List.mem_cons_of_mem _ hg)))) ?_
          rintro rfl
          exact hnot (List.mem_append_left _ hg)
        · exact List.perm_middle.trans hperm
        · rintro f ⟨⟩
          refine ⟨hwhole hf, fun hout => hnot (List.mem_append_right _ hout), fun i hi => ?_⟩
          dsimp only
          exact overlay_of_inside hi

/-- A frame that is given back goes to the front of the free list. -/
theorem InUse.Sound.free (hbase : 0 < base) (hfit : base + size + 8192 < 2 ^ 64)
    (h : s.Sound base size) {f : Nat} (hf : f ∈ s.out) :
    InUse.Sound base size
      { pool := { s.pool with kernel := s.pool.kernel.freeFrame f }, out := s.out.erase f } := by
  obtain ⟨n, free, hnext, hn, hthread, hperm⟩ := h.frames
  have hin {g : Nat} (hg : g ∈ free ++ s.out) : g ∈ framesFrom (pageDown (base + 4095)) n :=
    hperm.mem_iff.mp hg
  have hnodup : (free ++ s.out).Nodup := hperm.nodup_iff.mpr (nodup_framesFrom _ _)
  have hf' := hin (List.mem_append_right _ hf)
  have haligned := aligned_of_mem hf'
  have hpos := pos_of_mem hbase hf'
  have hnot : f ∉ free := fun hfree => List.disjoint_of_nodup_append hnodup hfree hf
  have hheadlt : s.pool.kernel.freeListHead < 2 ^ 64 := by
    generalize s.pool.kernel.freeListHead = head at hthread
    cases hthread with
    | nil => decide
    | cons _ _ =>
        obtain ⟨i, hi, heq⟩ := mem_framesFrom.mp (hin (List.mem_append_left _ List.mem_cons_self))
        have hle := base_le base
        omega
  rw [Kernel.freeFrame, if_neg (not_or.mpr ⟨hpos, not_not.mpr haligned⟩)]
  refine ⟨h.poolBase, h.poolEnd, n, f :: free, hnext, hn, .cons hpos ?_, ?_⟩
  · dsimp only
    rw [word_setWord_same _ _ hheadlt]
    refine hthread.congr fun g hg => word_setWord_of_disjoint _ ?_
    have hg' := aligned_of_mem (hin (List.mem_append_left _ hg))
    have hne : g ≠ f := by
      rintro rfl
      exact hnot hg
    unfold Aligned at haligned hg'
    omega
  · have hmiddle : (f :: (free ++ s.out.erase f)).Perm (free ++ f :: s.out.erase f) :=
      List.perm_middle.symm
    exact (hmiddle.trans ((List.perm_cons_erase hf).symm.append_left free)).trans hperm

/-- What the owners write does not reach the free list. -/
theorem InUse.Sound.write (h : s.Sound base size) {mem : Nat → UInt8}
    (inside : ∀ a, (∀ f ∈ s.out, a < f ∨ f + 4096 ≤ a) → mem a = s.pool.kernel.mem a) :
    InUse.Sound base size
      { s with pool := { s.pool with kernel := { s.pool.kernel with mem := mem } } } := by
  obtain ⟨n, free, hnext, hn, hthread, hperm⟩ := h.frames
  have hnodup : (free ++ s.out).Nodup := hperm.nodup_iff.mpr (nodup_framesFrom _ _)
  refine ⟨h.poolBase, h.poolEnd, n, free, hnext, hn, hthread.congr fun g hg => ?_, hperm⟩
  refine readLE_congr fun a hle hlt => inside a fun f hf => ?_
  have hg' := aligned_of_mem (hperm.mem_iff.mp (List.mem_append_left _ hg))
  have hf' := aligned_of_mem (hperm.mem_iff.mp (List.mem_append_right _ hf))
  have hne : g ≠ f := by
    rintro rfl
    exact List.disjoint_of_nodup_append hnodup hg hf
  unfold Aligned at hg' hf'
  omega

theorem InUse.Sound.step (hbase : 0 < base) (hfit : base + size + 8192 < 2 ^ 64)
    (h : s.Sound base size) {call : PoolCall} (hstep : s.Step call s') : s'.Sound base size := by
  cases hstep with
  | alloc => exact (h.alloc hbase hfit).1
  | free mem => exact h.free hbase hfit mem
  | write mem inside => exact h.write inside

/-! ## What the statistics say -/

/-- The traversal of the free list ends behind its last frame. -/
theorem countFree_of_threaded {mem : Nat → UInt8} {head : Nat} {free : List Nat}
    (h : Threaded (word mem) head free) :
    ∀ fuel count, free.length < fuel →
      Pool.countFree mem fuel head count = some (count + free.length) := by
  induction h with
  | nil =>
      intro fuel count hfuel
      obtain ⟨fuel, rfl⟩ := Nat.exists_eq_succ_of_ne_zero (Nat.ne_zero_of_lt hfuel)
      rw [Pool.countFree, if_pos rfl]
      rfl
  | @cons f rest pos _ ih =>
      intro fuel count hfuel
      obtain ⟨fuel, rfl⟩ := Nat.exists_eq_succ_of_ne_zero (Nat.ne_zero_of_lt hfuel)
      rw [List.length_cons] at hfuel
      rw [Pool.countFree, if_neg pos, ih fuel (count + 1) (by omega), List.length_cons]
      congr 1
      omega

theorem InUse.Sound.stats (hbase : 0 < base) (h : s.Sound base size) :
    ∃ bound stats, (∀ fuel > bound, s.pool.realStats fuel = some stats) ∧
      s.out.length + stats.freeFrames = (wholeFrames base size).card := by
  obtain ⟨n, free, hnext, hn, hthread, hperm⟩ := h.frames
  have hlen := hperm.length_eq
  rw [List.length_append, length_framesFrom] at hlen
  have hle := base_le base
  refine ⟨free.length, _, fun fuel hfuel => by
    rw [Pool.realStats, countFree_of_threaded hthread fuel _ hfuel]
    rfl, ?_⟩
  rw [card_wholeFrames]
  dsimp only
  rw [Pool.stats, h.poolBase, h.poolEnd]
  split
  · rename_i hnone
    dsimp only
    omega
  · rename_i hsome
    dsimp only
    rw [hnext]
    omega

end Sound

/-- Whatever sequence of frames is asked for and given back, with the owners writing to what they
have: a frame that is given out is whole, in the pool, zero and not out yet; the frames that are
out and those that the statistics call free are all frames of the pool, and the traversal behind
the statistics ends; and no frame is given out only when all are out. -/
theorem pool_sound {base size : Nat} (hbase : 0 < base) (hsize : 0 < size)
    (hfit : base + size + 8192 < 2 ^ 64) {p : Pool} {s : InUse} {calls : List PoolCall}
    (run : Run InUse.Step { pool := p.init base size, out := [] } calls s) :
    (∀ f, s.pool.kernel.allocFrame.1 = some f →
      (Aligned f ∧ base ≤ f ∧ f + 4096 ≤ base + size) ∧ f ∉ s.out ∧
        ∀ i < 4096, s.pool.kernel.allocFrame.2.mem (f + i) = 0) ∧
    (∃ bound stats, (∀ fuel > bound, s.pool.realStats fuel = some stats) ∧
      s.out.length + stats.freeFrames = (wholeFrames base size).card) ∧
    (s.pool.kernel.allocFrame.1 = none → ∀ f ∈ wholeFrames base size, f ∈ s.out) := by
  have hsound : s.Sound base size :=
    run.invariant_state (InUse.Sound base size) (InUse.sound_init hfit hsize p)
      fun _ _ _ h hstep => h.step hbase hfit hstep
  obtain ⟨-, hgiven, hnone⟩ := hsound.alloc hbase hfit
  refine ⟨fun f hf => ?_, hsound.stats hbase, hnone⟩
  obtain ⟨hwhole, hnot, hzero⟩ := hgiven f hf
  exact ⟨(Finset.mem_filter.mp hwhole).2, hnot, hzero⟩

/-- Two frames from the address of the first one on, of which one is given out. -/
theorem pool_sound_alloc :
    ∃ s calls, Run InUse.Step { pool := Pool.init 4096 8192 ⟨Kernel.blank, 0⟩, out := [] } calls s ∧
      s.out = [4096] ∧ (wholeFrames 4096 8192).card = 2 ∧
      ∀ f, s.pool.kernel.allocFrame.1 = some f → f ∉ s.out := by
  have run := Run.nil.snoc
    (InUse.Step.alloc { pool := Pool.init 4096 8192 ⟨Kernel.blank, 0⟩, out := [] })
  refine ⟨_, _, run, rfl, ?_, fun f hf => ?_⟩
  · rw [card_wholeFrames]
    rfl
  · exact ((pool_sound (by decide) (by decide) (by decide) run).1 f hf).2.1

end PureOS.Memory
