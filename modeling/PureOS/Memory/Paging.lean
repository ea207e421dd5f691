import PureOS.Memory.Frames

set_option autoImplicit false

/-!
# Memory: page tables (`cpu.rs`)

`map_page` over the tables in physical memory, and what the processor makes of them:
`translate` is the walk that the hardware does, with the rights of all levels joined.
-/

namespace PureOS.Memory

open PureOS.Foundation PureOS.Process

/-- `PHYS_MASK`. -/
def physMask : Nat := 0x000f_ffff_ffff_f000

/-- `PAGE_PRESENT`. -/
def present (e : Nat) : Bool := e.testBit 0
/-- `PAGE_WRITABLE`. -/
def isWritable (e : Nat) : Bool := e.testBit 1
/-- `PAGE_USER`. -/
def isUser (e : Nat) : Bool := e.testBit 2
/-- `PAGE_HUGE`. -/
def isHuge (e : Nat) : Bool := e.testBit 7

/-- The address in an entry. -/
def target (e : Nat) : Nat := e &&& physMask

/-- The index into the table of level `n + 1` for an address: `i1` to `i4` of
`map_page`. -/
def index (n virt : Nat) : Nat := virt / 2 ^ (12 + 9 * n) % 512

/-- The entry `i` of the table at `t`. -/
def cell (m : Nat → UInt8) (t i : Nat) : Nat := word m (t + 8 * i)

/-- The flags of an entry: present, and the two rights. -/
def flags (writable user : Bool) : Nat :=
  1 ||| (if writable then 2 else 0) ||| (if user then 4 else 0)

namespace Kernel

/-- `next_table` for the entry `i` of the table at `t`. -/
def nextTable (k : Kernel) (t i : Nat) (user : Bool) : Option Nat × Kernel :=
  let e := cell k.mem t i
  if ¬present e then
    match k.allocFrame with
    | (none, k) => (none, k)
    | (some frame, k) =>
        let e := target frame ||| flags true user
        (some (target e), { k with mem := setWord k.mem (t + 8 * i) e })
  else if isHuge e then (none, k)
  else if user then
    (some (target (e ||| 4)), { k with mem := setWord k.mem (t + 8 * i) (e ||| 4) })
  else (some (target e), k)

/-- The calls of `next_table` in `map_page`, one for each of the `n` levels above the
last one. -/
def lastTable (user : Bool) (virt : Nat) : Nat → Nat → Kernel → Option Nat × Kernel
  | 0, t, k => (some t, k)
  | n + 1, t, k =>
      match k.nextTable t (index (n + 1) virt) user with
      | (none, k) => (none, k)
      | (some t, k) => lastTable user virt n t k

/-- `map_page`. -/
def mapPage (k : Kernel) (pml4 virt phys : Nat) (writable user : Bool) : Bool × Kernel :=
  match lastTable user virt 3 (target pml4) k with
  | (none, k) => (false, k)
  | (some pt, k) =>
      (true, { k with
        mem := setWord k.mem (pt + 8 * index 0 virt) (target phys ||| flags writable user) })

/-! ## What taking frames and mapping leaves alone -/

/-- Physical memory, the pool and the free list may differ, and nothing else. -/
structure Quiet (k k' : Kernel) : Prop where
  poolEnd_eq : k'.poolEnd = k.poolEnd
  table_eq : k'.table = k.table
  current_eq : k'.current = k.current
  tick_eq : k'.tick = k.tick
  reads_eq : k'.reads = k.reads
  tracked_eq : k'.tracked = k.tracked

theorem Quiet.refl (k : Kernel) : Quiet k k := ⟨rfl, rfl, rfl, rfl, rfl, rfl⟩

theorem Quiet.trans {k k' k'' : Kernel} (h : Quiet k k') (h' : Quiet k' k'') : Quiet k k'' :=
  ⟨h'.poolEnd_eq.trans h.poolEnd_eq, h'.table_eq.trans h.table_eq,
    h'.current_eq.trans h.current_eq, h'.tick_eq.trans h.tick_eq, h'.reads_eq.trans h.reads_eq,
    h'.tracked_eq.trans h.tracked_eq⟩

theorem allocFrame_quiet (k : Kernel) : Quiet k k.allocFrame.2 := by
  unfold allocFrame
  split
  · exact ⟨rfl, rfl, rfl, rfl, rfl, rfl⟩
  · split
    · exact .refl k
    · exact ⟨rfl, rfl, rfl, rfl, rfl, rfl⟩

theorem nextTable_quiet (k : Kernel) (t i : Nat) (user : Bool) :
    Quiet k (k.nextTable t i user).2 := by
  have halloc := k.allocFrame_quiet
  unfold nextTable
  dsimp only
  split
  · split
    · rename_i h
      rwa [h] at halloc
    · rename_i h
      rw [h] at halloc
      exact halloc.trans ⟨rfl, rfl, rfl, rfl, rfl, rfl⟩
  split
  · exact .refl k
  split
  · exact ⟨rfl, rfl, rfl, rfl, rfl, rfl⟩
  · exact .refl k

theorem lastTable_quiet (user : Bool) (virt n t : Nat) (k : Kernel) :
    Quiet k (lastTable user virt n t k).2 := by
  induction n generalizing t k with
  | zero => exact .refl k
  | succ n ih =>
      have hnext := k.nextTable_quiet t (index (n + 1) virt) user
      rw [lastTable]
      split
      · rename_i h
        rwa [h] at hnext
      · rename_i t' k' h
        rw [h] at hnext
        exact hnext.trans (ih t' k')

theorem mapPage_quiet (k : Kernel) (pml4 virt phys : Nat) (writable user : Bool) :
    Quiet k (k.mapPage pml4 virt phys writable user).2 := by
  have hlast := lastTable_quiet user virt 3 (target pml4) k
  unfold mapPage
  split
  · rename_i h
    rwa [h] at hlast
  · rename_i h
    rw [h] at hlast
    exact hlast.trans ⟨rfl, rfl, rfl, rfl, rfl, rfl⟩

end Kernel

/-! ## The processor -/

/-- What an address translates to. -/
structure Access where
  phys : Nat
  writable : Bool
  user : Bool
  deriving DecidableEq

/-- The rights of an entry above. -/
def Access.under (e : Nat) (a : Access) : Access where
  phys := a.phys
  writable := isWritable e && a.writable
  user := isUser e && a.user

/-- What the last entry of a walk, for a page of `2 ^ bits` bytes, gives. -/
def leafAccess (e bits virt : Nat) : Access where
  phys := target e / 2 ^ bits * 2 ^ bits + virt % 2 ^ bits
  writable := isWritable e
  user := isUser e

/-- The walk from a table of level `n + 1` down. -/
def walk (m : Nat → UInt8) (virt : Nat) : Nat → Nat → Option Access
  | 0, t =>
      let e := cell m t (index 0 virt)
      if present e then some (leafAccess e 12 virt) else none
  | n + 1, t =>
      let e := cell m t (index (n + 1) virt)
      if ¬present e then none
      else if isHuge e then
        -- There are no huge pages at the highest level.
        if n + 1 = 3 then none else some (leafAccess e (12 + 9 * (n + 1)) virt)
      else (walk m virt n (target e)).map (Access.under e)

/-- An address whose upper bits are all like bit 47. -/
def Canonical (virt : Nat) : Prop := virt < 2 ^ 47 ∨ (2 ^ 64 - 2 ^ 47 ≤ virt ∧ virt < 2 ^ 64)

instance (virt : Nat) : Decidable (Canonical virt) := inferInstanceAs (Decidable (_ ∨ _))

/-- What an address translates to under the tables with the given root. -/
def translate (m : Nat → UInt8) (root virt : Nat) : Option Access :=
  if Canonical virt then walk m virt 3 (target root) else none

end PureOS.Memory
