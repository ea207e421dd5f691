import PureOS.Memory.Create
import PureOS.Memory.Entry

set_option autoImplicit false

/-!
# Memory: who has which frame

A ledger says what each frame is used for, and `Holds` that the kernel's own structures
agree with it: the free list runs through exactly the free frames, the entries of a table
lead to tables of the next level, and frames that were tracked are in use.

A table is entered with its level and with the part of an address that is decoded on the
way to it.  Since the tables below an entry continue the address of that entry, two
addresses that reach the same table agree in that part, whichever root they start from.
-/

namespace PureOS.Memory

open PureOS.Foundation PureOS.Process

/-- What a frame is used for. -/
inductive Use where
  /-- It is no frame of the allocator and no table. -/
  | other
  /-- It lies in the rest of the pool. -/
  | unused
  /-- It is on the free list. -/
  | free
  /-- It was given out, and is no table. -/
  | held
  /-- A table that is reached by addresses with `pre` above the bits of its level. -/
  | table (level pre : Nat)
  deriving DecidableEq

/-- The use of each frame, and the free list. -/
structure Ledger where
  use : Nat → Use
  free : List Nat

namespace Ledger

/-- A change of use. -/
def set (g : Ledger) (f : Nat) (u : Use) : Ledger := { g with use := Function.update g.use f u }

/-- A frame that the allocator can give out. -/
def Fresh (g : Ledger) (f : Nat) : Prop := g.use f = .free ∨ g.use f = .unused

@[simp] theorem set_use_self (g : Ledger) (f : Nat) (u : Use) : (g.set f u).use f = u := by
  simp [set]

@[simp] theorem set_use_of_ne (g : Ledger) {f f' : Nat} (u : Use) (h : f' ≠ f) :
    (g.set f u).use f' = g.use f' := by simp [set, h]

@[simp] theorem set_free (g : Ledger) (f : Nat) (u : Use) : (g.set f u).free = g.free := rfl

theorem Fresh.ne_table {g : Ledger} {f n pre : Nat} (h : g.Fresh f) : g.use f ≠ .table n pre := by
  rcases h with h | h <;> rw [h] <;> exact Use.noConfusion

theorem Fresh.ne_held {g : Ledger} {f : Nat} (h : g.Fresh f) : g.use f ≠ .held := by
  rcases h with h | h <;> rw [h] <;> exact Use.noConfusion

theorem Fresh.ne_other {g : Ledger} {f : Nat} (h : g.Fresh f) : g.use f ≠ .other := by
  rcases h with h | h <;> rw [h] <;> exact Use.noConfusion

end Ledger

/-- The number of frames that the allocator has not touched yet. -/
def Kernel.poolFrames (k : Kernel) : Nat :=
  if k.poolNext = 0 then 0 else (k.poolEnd - k.poolNext) / 4096

/-- The number of frames that are available. -/
def available (k : Kernel) (g : Ledger) : Nat := g.free.length + k.poolFrames

/-- The allocator agrees with the ledger. -/
structure PoolHolds (k : Kernel) (g : Ledger) : Prop where
  frame : ∀ f, g.use f ≠ .other → f ≠ 0 ∧ Aligned f ∧ f < 2 ^ 52
  aligned : Aligned k.poolNext
  next_lt : k.poolNext < 2 ^ 53
  end_le : k.poolEnd ≤ 2 ^ 52
  unused : ∀ f, g.use f = .unused ↔
    k.poolNext ≠ 0 ∧ Aligned f ∧ k.poolNext ≤ f ∧ f + 4096 ≤ k.poolEnd
  threaded : Threaded (word k.mem) k.freeListHead g.free
  nodup : g.free.Nodup
  mem_free : ∀ f, f ∈ g.free ↔ g.use f = .free

/-- The tables agree with the ledger. -/
structure TablesHold (L : Layout) (m : Nat → UInt8) (g : Ledger) : Prop where
  root : ∀ p, g.use (L.processPml4 p) = .table 3 0
  child : ∀ t n pre, g.use t = .table (n + 1) pre → ∀ i < 512, present (cell m t i) = true →
    isHuge (cell m t i) = false →
    g.use (target (cell m t i)) = .table n (pre * 512 + i) ∧ isWritable (cell m t i) = true

/-- The process table agrees with the ledger.  The running process at boot keeps the tables
it has then, and every other one has its own root. -/
structure OwnersHold (L : Layout) (k : Kernel) (g : Ledger) : Prop where
  base : ∀ p, p ≠ 0 → (k.table p).isLive = true → (k.table p).pageTableBase = L.processPml4 p
  base_zero : (k.table 0).isLive = true →
    g.use (pageDown (k.table 0).pageTableBase) = .table 3 0 ∧
    (k.table 0).pageTableBase < 2 ^ 52 ∧
    ∀ q, pageDown (k.table 0).pageTableBase ≠ L.processPml4 q
  tracked_held : ∀ p, ∀ f ∈ k.tracked p, g.use f = .held
  tracked_nodup : ∀ p, (k.tracked p).Nodup
  tracked_disjoint : ∀ p q, p ≠ q → ∀ f ∈ k.tracked p, f ∉ k.tracked q

/-- The kernel agrees with the ledger. -/
structure Holds (L : Layout) (k : Kernel) (g : Ledger) : Prop where
  pool : PoolHolds k g
  tables : TablesHold L k.mem g
  owners : OwnersHold L k g

variable {L : Layout} {k k' : Kernel} {g g' : Ledger} {m m' : Nat → UInt8}

/-! ## Writing -/

/-- The allocator does not see what is written outside the free frames. -/
theorem PoolHolds.write (h : PoolHolds k g)
    (hmem : ∀ f, g.use f = .free → word k'.mem f = word k.mem f)
    (hnext : k'.poolNext = k.poolNext) (hend : k'.poolEnd = k.poolEnd)
    (hhead : k'.freeListHead = k.freeListHead) : PoolHolds k' g where
  frame := h.frame
  aligned := hnext ▸ h.aligned
  next_lt := hnext ▸ h.next_lt
  end_le := hend ▸ h.end_le
  unused := by rw [hnext, hend]; exact h.unused
  threaded := by
    rw [hhead]
    exact h.threaded.congr fun f hf => hmem f ((h.mem_free f).mp hf)
  nodup := h.nodup
  mem_free := h.mem_free

/-- The tables do not see what is written outside them. -/
theorem TablesHold.congr (h : TablesHold L m g)
    (hcell : ∀ t n pre, g.use t = .table n pre → ∀ i < 512, cell m' t i = cell m t i) :
    TablesHold L m' g where
  root := h.root
  child t n pre ht i hi := by
    rw [hcell t (n + 1) pre ht i hi]
    exact h.child t n pre ht i hi

/-- A frame that was no table stays none, and the tables are as before. -/
theorem TablesHold.set (h : TablesHold L m g) {f : Nat} {u : Use}
    (hf : ∀ n pre, g.use f ≠ .table n pre) (hu : ∀ n pre, u ≠ .table n pre) :
    TablesHold L m (g.set f u) where
  root p := by
    rw [Ledger.set_use_of_ne]
    · exact h.root p
    · rintro rfl
      exact hf 3 0 (h.root p)
  child t n pre ht i hi hpresent hhuge := by
    have htf : t ≠ f := by
      rintro rfl
      rw [Ledger.set_use_self] at ht
      exact hu _ _ ht
    rw [Ledger.set_use_of_ne _ _ htf] at ht
    obtain ⟨huse, hwritable⟩ := h.child t n pre ht i hi hpresent hhuge
    refine ⟨?_, hwritable⟩
    rw [Ledger.set_use_of_ne]
    · exact huse
    · intro heq
      exact hf _ _ (heq ▸ huse)

/-- A frame without entries becomes a table. -/
theorem TablesHold.setTable (h : TablesHold L m g) {f n pre : Nat}
    (hf : ∀ n pre, g.use f ≠ .table n pre)
    (hzero : ∀ i < 512, present (cell m f i) = false) :
    TablesHold L m (g.set f (.table n pre)) where
  root p := by
    rw [Ledger.set_use_of_ne]
    · exact h.root p
    · rintro rfl
      exact hf 3 0 (h.root p)
  child t n' pre' ht i hi hpresent hhuge := by
    have htf : t ≠ f := by
      rintro rfl
      rw [hzero i hi] at hpresent
      cases hpresent
    rw [Ledger.set_use_of_ne _ _ htf] at ht
    obtain ⟨huse, hwritable⟩ := h.child t n' pre' ht i hi hpresent hhuge
    refine ⟨?_, hwritable⟩
    rw [Ledger.set_use_of_ne]
    · exact huse
    · intro heq
      exact hf _ _ (heq ▸ huse)

/-- An entry that leads to the right table may be put into a table. -/
theorem TablesHold.setCell (h : TablesHold L m g) {t i n pre e : Nat} (he : e < 2 ^ 64)
    (haligned : ∀ t n pre, g.use t = .table n pre → Aligned t)
    (ht : g.use t = .table n pre) (hi : i < 512)
    (hlead : ∀ n', n = n' + 1 → present e = true → isHuge e = false →
      g.use (target e) = .table n' (pre * 512 + i) ∧ isWritable e = true) :
    TablesHold L (setWord m (t + 8 * i) e) g where
  root := h.root
  child t' n' pre' ht' i' hi' := by
    by_cases hsame : t' = t ∧ i' = i
    · obtain ⟨rfl, rfl⟩ := hsame
      rw [ht] at ht'
      cases ht'
      rw [cell_setWord_same he]
      exact hlead n' rfl
    · have hne : t' ≠ t ∨ i' ≠ i := by
        by_cases htt : t' = t
        · exact Or.inr fun hii => hsame ⟨htt, hii⟩
        · exact Or.inl htt
      rw [cell_setWord_of_ne (haligned t n pre ht) (haligned t' _ pre' ht') hi hi' hne]
      exact h.child t' n' pre' ht' i' hi'

end PureOS.Memory
