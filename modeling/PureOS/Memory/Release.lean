import PureOS.Memory.Pages

set_option autoImplicit false

/-!
# Memory: giving frames back

The loop of `free_process_frames` over a list that is what it should be: each of its frames
is in use, and it ends.  The frames come back in order, each once.
-/

namespace PureOS.Memory

open PureOS.Foundation PureOS.Process

variable {L : Layout} {k k' : Kernel} {g g' : Ledger} {m : Nat → UInt8}
variable {pid : Pid} {f head : Nat} {l : List Nat}

/-! ## `free_frame` -/

namespace Ledger

/-- The frame `f` goes back. -/
def release (g : Ledger) (f : Nat) : Ledger := ⟨(g.set f .free).use, f :: g.free⟩

/-- The frames `l` go back, one after the other. -/
def releaseAll (g : Ledger) (l : List Nat) : Ledger := l.foldl release g

theorem releaseAll_free (g : Ledger) (l : List Nat) :
    (g.releaseAll l).free = l.reverse ++ g.free := by
  induction l generalizing g with
  | nil => rfl
  | cons f l ih =>
      rw [releaseAll, List.foldl_cons, ← releaseAll, ih, List.reverse_cons, List.append_assoc]
      rfl

theorem releaseAll_of_not_mem (hf : f ∉ l) : (g.releaseAll l).use f = g.use f := by
  induction l generalizing g with
  | nil => rfl
  | cons f' l ih =>
      rw [List.mem_cons, not_or] at hf
      rw [releaseAll, List.foldl_cons, ← releaseAll, ih hf.2]
      exact g.set_use_of_ne .free hf.1

end Ledger

/-- The head of the free list fits into a word. -/
theorem PoolHolds.head_lt (h : PoolHolds k g) : k.freeListHead < 2 ^ 64 := by
  have hthreaded := h.threaded
  cases hfree : g.free with
  | nil =>
      rw [hfree] at hthreaded
      rw [hthreaded.head_eq_zero_iff.mpr rfl]
      decide
  | cons f rest =>
      rw [hfree] at hthreaded
      rw [hthreaded.of_cons.1]
      have hmem : f ∈ g.free := by
        rw [hfree]
        exact List.mem_cons_self
      have huse := (h.mem_free f).mp hmem
      have hlt := (h.frame f (by rw [huse]; exact Use.noConfusion)).2.2
      omega

theorem PoolHolds.freeFrame_eq (h : PoolHolds k g) (hf : g.use f = .held) :
    k.freeFrame f = { k with mem := setWord k.mem f k.freeListHead, freeListHead := f } := by
  obtain ⟨hpos, haligned, -⟩ := h.frame f (by rw [hf]; exact Use.noConfusion)
  rw [Kernel.freeFrame, if_neg]
  rintro (hzero | hnot)
  · exact hpos hzero
  · exact hnot haligned

/-- A frame in use goes back to the allocator. -/
theorem PoolHolds.freeFrame (h : PoolHolds k g) (hf : g.use f = .held) :
    PoolHolds (k.freeFrame f) (g.release f) := by
  have hne : g.use f ≠ .other := by rw [hf]; exact Use.noConfusion
  obtain ⟨hpos, haligned, hlt⟩ := h.frame f hne
  have hnot : f ∉ g.free := fun hmem => by
    have huse := (h.mem_free f).mp hmem
    rw [hf] at huse
    cases huse
  rw [h.freeFrame_eq hf]
  refine ⟨?_, h.aligned, h.next_lt, h.end_le, ?_, ?_, List.nodup_cons.mpr ⟨hnot, h.nodup⟩, ?_⟩
  · intro f' hf'
    by_cases heq : f' = f
    · exact heq ▸ ⟨hpos, haligned, hlt⟩
    · exact h.frame f' (by rwa [← Ledger.set_use_of_ne g .free heq])
  · intro f'
    rw [← h.unused f']
    by_cases heq : f' = f
    · rw [heq, hf]
      refine iff_of_false ?_ Use.noConfusion
      change (g.set f .free).use f ≠ .unused
      rw [Ledger.set_use_self]
      exact Use.noConfusion
    · change (g.set f .free).use f' = .unused ↔ _
      rw [Ledger.set_use_of_ne g .free heq]
  · refine .cons hpos ?_
    change Threaded (word (setWord k.mem f k.freeListHead))
      (word (setWord k.mem f k.freeListHead) f) g.free
    rw [word_setWord_same _ _ h.head_lt]
    refine h.threaded.congr fun f' hf' => ?_
    have hfree := (h.mem_free f').mp hf'
    have hne' : f' ≠ f := fun heq => hnot (heq ▸ hf')
    have haligned' := h.aligned_fresh (Or.inl hfree)
    unfold Aligned at haligned haligned'
    exact word_setWord_of_disjoint _ (by omega)
  · intro f'
    change f' ∈ f :: g.free ↔ (g.set f .free).use f' = .free
    by_cases heq : f' = f
    · rw [heq, Ledger.set_use_self]
      exact iff_of_true List.mem_cons_self rfl
    · rw [Ledger.set_use_of_ne g .free heq, List.mem_cons, ← h.mem_free f']
      exact or_iff_right heq

/-- The tables do not see it. -/
theorem TablesHold.freeFrame (h : TablesHold L k.mem g) (hpool : PoolHolds k g)
    (hf : g.use f = .held) : TablesHold L (k.freeFrame f).mem (g.release f) := by
  have hset : TablesHold L k.mem (g.set f .free) :=
    h.set (fun _ _ => by rw [hf]; exact Use.noConfusion) fun _ _ => Use.noConfusion
  have haligned := (hpool.frame f (by rw [hf]; exact Use.noConfusion)).2.1
  have hcells : TablesHold L (setWord k.mem f k.freeListHead) (g.set f .free) := by
    refine hset.congr fun t n pre ht i hi => ?_
    have hne : t ≠ f := by
      rintro rfl
      rw [Ledger.set_use_self] at ht
      cases ht
    rw [Ledger.set_use_of_ne _ _ hne] at ht
    have htaligned := (hpool.frame t (by rw [ht]; exact Use.noConfusion)).2.1
    exact cell_of_onlyPage (onlyPage_setWord (i := 0) haligned (by decide)) haligned htaligned hne hi
  rw [hpool.freeFrame_eq hf]
  exact ⟨hcells.root, hcells.child⟩

/-! ## The loop -/

/-- What giving frames back does: the frames `l` are on the free list, and only they were
written. -/
structure Freed (L : Layout) (l : List Nat) (k k' : Kernel) (g : Ledger) : Prop where
  pool : PoolHolds k' (g.releaseAll l)
  tables : TablesHold L k'.mem (g.releaseAll l)
  writes : ∀ a, pageDown a ∉ l → k'.mem a = k.mem a
  table_eq : k'.table = k.table
  current_eq : k'.current = k.current
  tracked_eq : k'.tracked = k.tracked
  tick_eq : k'.tick = k.tick
  poolNext_eq : k'.poolNext = k.poolNext
  poolEnd_eq : k'.poolEnd = k.poolEnd

theorem freeFrames_of_threaded (hpool : PoolHolds k g) (htables : TablesHold L k.mem g)
    (hthread : Threaded (word k.mem) head l) (hheld : ∀ f ∈ l, g.use f = .held) {fuel : Nat}
    (hrun : Kernel.freeFrames fuel head k = some k') : Freed L l k k' g := by
  induction l generalizing fuel head k g with
  | nil =>
      cases fuel with
      | zero => cases hrun
      | succ fuel =>
          rw [Kernel.freeFrames, if_pos (hthread.head_eq_zero_iff.mpr rfl)] at hrun
          cases hrun
          exact ⟨hpool, htables, fun _ _ => rfl, rfl, rfl, rfl, rfl, rfl, rfl⟩
  | cons f l ih =>
      obtain ⟨rfl, hpos, hnext⟩ := hthread.of_cons
      have hnotin := (List.nodup_cons.mp hthread.nodup).1
      have hf := hheld head List.mem_cons_self
      have hne : g.use head ≠ .other := by rw [hf]; exact Use.noConfusion
      have haligned := (hpool.frame head hne).2.1
      cases fuel with
      | zero => cases hrun
      | succ fuel =>
          rw [Kernel.freeFrames, if_neg hpos] at hrun
          have heq := hpool.freeFrame_eq hf
          have honly : OnlyPage head k.mem (k.freeFrame head).mem := by
            rw [heq]
            exact onlyPage_setWord (i := 0) haligned (by decide)
          have hrest : Threaded (word (k.freeFrame head).mem) (word k.mem head) l := by
            refine hnext.congr fun f' hf' => ?_
            have hheld' := hheld f' (List.mem_cons_of_mem _ hf')
            have haligned' := (hpool.frame f' (by rw [hheld']; exact Use.noConfusion)).2.1
            exact honly.word (i := 0) haligned haligned' (fun heq => hnotin (heq ▸ hf')) (by decide)
          have hfreed := ih (hpool.freeFrame hf) (htables.freeFrame hpool hf) hrest
            (fun f' hf' => by
              rw [← hheld f' (List.mem_cons_of_mem _ hf')]
              exact g.set_use_of_ne .free fun heq => hnotin (heq ▸ hf')) hrun
          have hsame : k.freeFrame head =
              { k with mem := (k.freeFrame head).mem, freeListHead := head } := by
            rw [heq]
          refine ⟨hfreed.pool, hfreed.tables, fun a ha => ?_, ?_, ?_, ?_, ?_, ?_, ?_⟩
          · rw [List.mem_cons, not_or] at ha
            refine (hfreed.writes a ha.2).trans (honly a ?_)
            have hpage := ha.1
            unfold Aligned at haligned
            unfold pageDown at hpage
            omega
          · rw [hfreed.table_eq, hsame]
          · rw [hfreed.current_eq, hsame]
          · rw [hfreed.tracked_eq, hsame]
          · rw [hfreed.tick_eq, hsame]
          · rw [hfreed.poolNext_eq, hsame]
          · rw [hfreed.poolEnd_eq, hsame]

end PureOS.Memory
