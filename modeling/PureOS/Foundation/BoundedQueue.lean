import Mathlib.Logic.Function.Basic

set_option autoImplicit false

/-!
# Foundation: bounded queues

A buffer that is filled at one end and emptied at the other, and refuses what does not fit.  What
comes out of it, over any run of pushes and pops, is what went in, in order and once.  A cyclic
buffer with two indices, one place of which stays free, is such a queue.
-/

namespace PureOS.Foundation

universe u v

/-! ## Queues -/

/-- A buffer: how it is filled and emptied, and when it refuses. -/
structure Buffer (σ : Type u) (α : Type v) where
  push : σ → α → σ
  pop : σ → Option α × σ
  Full : σ → Prop
  decFull : DecidablePred Full

/-- A use of a buffer. -/
inductive BufferOp (α : Type v) where
  | push (x : α)
  | pop

/-- A buffer in use, with what it has taken and what has been taken from it. -/
structure BufferTrace (σ : Type u) (α : Type v) where
  state : σ
  accepted : List α
  popped : List α

namespace Buffer

variable {σ : Type u} {α : Type v}

instance (b : Buffer σ α) : DecidablePred b.Full := b.decFull

/-- One use. -/
def step (b : Buffer σ α) (t : BufferTrace σ α) : BufferOp α → BufferTrace σ α
  | .push x =>
      { t with
        state := b.push t.state x
        accepted := if b.Full t.state then t.accepted else t.accepted ++ [x] }
  | .pop =>
      { t with
        state := (b.pop t.state).2
        popped := t.popped ++ (b.pop t.state).1.toList }

/-- A run of uses. -/
def run (b : Buffer σ α) (s : σ) (ops : List (BufferOp α)) : BufferTrace σ α :=
  ops.foldl b.step ⟨s, [], []⟩

/-- What the buffer holds, in the states that it can be in, and what each operation does to it. -/
structure IsQueue (b : Buffer σ α) (capacity : Nat) (Valid : σ → Prop) (held : σ → List α) :
    Prop where
  full_iff : ∀ {s}, Valid s → (b.Full s ↔ (held s).length = capacity)
  push_full : ∀ {s} x, b.Full s → b.push s x = s
  push_room : ∀ {s} x, Valid s → ¬b.Full s →
    Valid (b.push s x) ∧ held (b.push s x) = held s ++ [x]
  pop_eq : ∀ {s}, Valid s →
    Valid (b.pop s).2 ∧ (b.pop s).1 = (held s).head? ∧ held (b.pop s).2 = (held s).tail

/-- From a state that holds a list, whatever is done: the elements that come out are first those of
the list and then those that were taken, in order; a pop brings out the first that is still inside,
and none only if there is none; a push is refused exactly if as many are inside as there is room
for, and then it changes nothing. -/
def FifoFrom (b : Buffer σ α) (capacity : Nat) (s : σ) (held : List α) : Prop :=
  ∀ ops, (b.run s ops).popped <+: held ++ (b.run s ops).accepted ∧
    (b.pop (b.run s ops).state).1 =
      (held ++ (b.run s ops).accepted)[(b.run s ops).popped.length]? ∧
    (b.Full (b.run s ops).state ↔
      held.length + (b.run s ops).accepted.length = (b.run s ops).popped.length + capacity) ∧
    ∀ x, b.Full (b.run s ops).state → b.push (b.run s ops).state x = (b.run s ops).state

namespace IsQueue

variable {b : Buffer σ α} {capacity : Nat} {Valid : σ → Prop} {held : σ → List α}

/-- What is inside is what a pop brings out and what it leaves. -/
theorem held_pop (hb : b.IsQueue capacity Valid held) {s : σ} (hvalid : Valid s) :
    held s = (b.pop s).1.toList ++ held (b.pop s).2 := by
  obtain ⟨-, hfirst, hrest⟩ := hb.pop_eq hvalid
  rw [hfirst, hrest]
  cases held s with
  | nil => rfl
  | cons x xs => rfl

/-- One use loses nothing and adds nothing. -/
theorem step (hb : b.IsQueue capacity Valid held) {first : List α} {t : BufferTrace σ α}
    (hvalid : Valid t.state) (h : first ++ t.accepted = t.popped ++ held t.state)
    (op : BufferOp α) :
    Valid (b.step t op).state ∧
      first ++ (b.step t op).accepted = (b.step t op).popped ++ held (b.step t op).state := by
  cases op with
  | push x =>
      by_cases hfull : b.Full t.state
      · simp only [Buffer.step, if_pos hfull, hb.push_full x hfull]
        exact ⟨hvalid, h⟩
      · obtain ⟨hpush, hheld⟩ := hb.push_room x hvalid hfull
        simp only [Buffer.step, if_neg hfull, hheld]
        rw [← List.append_assoc, h, List.append_assoc]
        exact ⟨hpush, rfl⟩
  | pop =>
      simp only [Buffer.step]
      rw [h, List.append_assoc, ← hb.held_pop hvalid]
      exact ⟨(hb.pop_eq hvalid).1, rfl⟩

/-- What was inside and what was taken is what came out and what is inside. -/
theorem run (hb : b.IsQueue capacity Valid held) {s : σ} (hvalid : Valid s)
    (ops : List (BufferOp α)) :
    Valid (b.run s ops).state ∧
      held s ++ (b.run s ops).accepted = (b.run s ops).popped ++ held (b.run s ops).state := by
  have hall : ∀ (ops : List (BufferOp α)) (t : BufferTrace σ α), Valid t.state →
      held s ++ t.accepted = t.popped ++ held t.state →
      Valid (ops.foldl b.step t).state ∧
        held s ++ (ops.foldl b.step t).accepted =
          (ops.foldl b.step t).popped ++ held (ops.foldl b.step t).state := by
    intro ops
    induction ops with
    | nil => exact fun t hvalid h => ⟨hvalid, h⟩
    | cons op ops ih =>
        intro t hvalid h
        obtain ⟨hnext, hkeep⟩ := hb.step hvalid h op
        exact ih (b.step t op) hnext hkeep
  exact hall ops ⟨s, [], []⟩ hvalid (List.append_nil _)

theorem fifoFrom (hb : b.IsQueue capacity Valid held) {s : σ} (hvalid : Valid s) :
    b.FifoFrom capacity s (held s) := by
  intro ops
  obtain ⟨hend, hkeep⟩ := hb.run hvalid ops
  refine ⟨⟨held (b.run s ops).state, hkeep.symm⟩, ?_, ?_, fun x => hb.push_full x⟩
  · rw [(hb.pop_eq hend).2.1, hkeep, List.getElem?_append_right (Nat.le_refl _), Nat.sub_self,
      List.head?_eq_getElem?]
  · have hlen := congrArg List.length hkeep
    rw [List.length_append, List.length_append] at hlen
    rw [hb.full_iff hend, hlen]
    omega

end IsQueue

end Buffer

/-! ## The cyclic buffer -/

/-- The places, the index that is written next and the one that is read next. -/
structure CyclicBuffer (α : Type v) where
  buf : Nat → α
  wr : Nat
  rd : Nat

namespace CyclicBuffer

variable {α : Type v} {size : Nat} {c : CyclicBuffer α}

/-- How many elements are inside. -/
def count (size : Nat) (c : CyclicBuffer α) : Nat := (c.wr + size - c.rd) % size

/-- The elements, from the one that is read next on. -/
def held (size : Nat) (c : CyclicBuffer α) : List α :=
  (List.range (c.count size)).map fun i => c.buf ((c.rd + i) % size)

/-- Both indices are inside. -/
def Valid (size : Nat) (c : CyclicBuffer α) : Prop := c.wr < size ∧ c.rd < size

/-- An index that would meet the other one is not moved. -/
def cyclic (α : Type v) (size : Nat) : Buffer (CyclicBuffer α) α where
  Full c := (c.wr + 1) % size = c.rd
  decFull _ := inferInstance
  push c x :=
    if (c.wr + 1) % size = c.rd then c
    else { c with buf := Function.update c.buf c.wr x, wr := (c.wr + 1) % size }
  pop c := if c.rd = c.wr then (none, c) else (some (c.buf c.rd), { c with rd := (c.rd + 1) % size })

@[simp] theorem length_held : (c.held size).length = c.count size := by
  rw [held, List.length_map, List.length_range]

theorem succ_mod {i : Nat} (h : i < size) : (i + 1) % size = if i + 1 = size then 0 else i + 1 := by
  split
  · rename_i hend
    rw [hend, Nat.mod_self]
  · exact Nat.mod_eq_of_lt (by omega)

theorem add_mod_eq {i j : Nat} (hi : i < size) (hj : j < size) :
    (i + j) % size = if i + j < size then i + j else i + j - size := by
  split
  · rename_i hlt
    exact Nat.mod_eq_of_lt hlt
  · rw [Nat.mod_eq_sub_mod (by omega), Nat.mod_eq_of_lt (by omega)]

theorem count_eq (h : c.Valid size) :
    c.count size = if c.rd ≤ c.wr then c.wr - c.rd else c.wr + size - c.rd := by
  obtain ⟨hwr, hrd⟩ := h
  unfold count
  split
  · rw [show c.wr + size - c.rd = c.wr - c.rd + size by omega, Nat.add_mod_right]
    exact Nat.mod_eq_of_lt (by omega)
  · exact Nat.mod_eq_of_lt (by omega)

theorem count_lt (h : c.Valid size) : c.count size < size :=
  Nat.mod_lt _ (by obtain ⟨hwr, -⟩ := h; omega)

theorem held_eq_nil (h : c.Valid size) (hsame : c.wr = c.rd) : c.held size = [] := by
  have hcount : c.count size = 0 := by
    rw [count_eq h, if_pos (Nat.le_of_eq hsame.symm), hsame, Nat.sub_self]
  rw [held, hcount]
  rfl

/-- The element behind the last one is at the index that is written next. -/
theorem rd_add_count (h : c.Valid size) : (c.rd + c.count size) % size = c.wr := by
  rw [add_mod_eq h.2 (count_lt h), count_eq h]
  obtain ⟨hwr, hrd⟩ := h
  split <;> split at * <;> omega

/-- The buffer refuses when all places but one are taken. -/
theorem full_iff (h : c.Valid size) : (cyclic α size).Full c ↔ c.count size = size - 1 := by
  rw [count_eq h]
  change (c.wr + 1) % size = c.rd ↔ _
  rw [succ_mod h.1]
  obtain ⟨hwr, hrd⟩ := h
  split <;> split <;> omega

theorem push_room (h : c.Valid size) (hroom : ¬(cyclic α size).Full c) (x : α) :
    ((cyclic α size).push c x).Valid size ∧
      ((cyclic α size).push c x).held size = c.held size ++ [x] := by
  have hpos : 0 < size := by
    obtain ⟨hwr, -⟩ := h
    omega
  have hpush : (cyclic α size).push c x =
      { c with buf := Function.update c.buf c.wr x, wr := (c.wr + 1) % size } := if_neg hroom
  have hvalid : ((cyclic α size).push c x).Valid size := by
    rw [hpush]
    exact ⟨Nat.mod_lt _ hpos, h.2⟩
  have hcount : ((cyclic α size).push c x).count size = c.count size + 1 := by
    rw [full_iff h] at hroom
    have hlt := count_lt h
    rw [count_eq hvalid, hpush]
    rw [count_eq h] at hroom hlt ⊢
    change (if c.rd ≤ (c.wr + 1) % size then (c.wr + 1) % size - c.rd
      else (c.wr + 1) % size + size - c.rd) = _
    rw [succ_mod h.1]
    obtain ⟨hwr, hrd⟩ := h
    split at hroom <;> split <;> split <;> omega
  refine ⟨hvalid, ?_⟩
  rw [held, hcount, List.range_succ, List.map_append, hpush, held]
  congr 1
  · -- the place that is written is none of those that are taken
    refine List.map_congr_left fun i hi => ?_
    have hi := List.mem_range.mp hi
    refine Function.update_of_ne ?_ x c.buf
    have hlt := count_lt h
    rw [← rd_add_count h, add_mod_eq h.2 (by omega), add_mod_eq h.2 hlt]
    obtain ⟨hwr, hrd⟩ := h
    split <;> split <;> omega
  · simp only [List.map_cons, List.map_nil, rd_add_count h, Function.update_self]

theorem pop_eq (h : c.Valid size) :
    ((cyclic α size).pop c).2.Valid size ∧
      ((cyclic α size).pop c).1 = (c.held size).head? ∧
      ((cyclic α size).pop c).2.held size = (c.held size).tail := by
  have hpos : 0 < size := by
    obtain ⟨hwr, -⟩ := h
    omega
  by_cases hempty : c.rd = c.wr
  · have hpop : (cyclic α size).pop c = (none, c) := if_pos hempty
    rw [hpop, held_eq_nil h hempty.symm]
    exact ⟨h, rfl, rfl⟩
  · have hpop : (cyclic α size).pop c = (some (c.buf c.rd), { c with rd := (c.rd + 1) % size }) :=
      if_neg hempty
    have hvalid : Valid size { c with rd := (c.rd + 1) % size } := ⟨h.1, Nat.mod_lt _ hpos⟩
    have hcount : c.count size = count size { c with rd := (c.rd + 1) % size } + 1 := by
      rw [count_eq hvalid, count_eq h]
      change _ = (if (c.rd + 1) % size ≤ c.wr then c.wr - (c.rd + 1) % size
        else c.wr + size - (c.rd + 1) % size) + 1
      rw [succ_mod h.2]
      obtain ⟨hwr, hrd⟩ := h
      split <;> split <;> split <;> omega
    rw [hpop]
    have hheld : c.held size =
        c.buf c.rd :: held size { c with rd := (c.rd + 1) % size } := by
      rw [held, hcount, List.range_succ_eq_map, List.map_cons, List.map_map, held]
      congr 1
      · rw [Nat.add_zero, Nat.mod_eq_of_lt h.2]
      · refine List.map_congr_left fun i _ => ?_
        change c.buf ((c.rd + (i + 1)) % size) = c.buf (((c.rd + 1) % size + i) % size)
        rw [Nat.mod_add_mod, Nat.add_right_comm, Nat.add_assoc]
    rw [hheld]
    exact ⟨hvalid, rfl, rfl⟩

/-- A cyclic buffer is a queue with room for one element less than it has places. -/
theorem isQueue : (cyclic α size).IsQueue (size - 1) (Valid size) (held size) where
  full_iff h := by rw [length_held, full_iff h]
  push_full _ hfull := if_pos hfull
  push_room x h hroom := push_room h hroom x
  pop_eq h := pop_eq h

end CyclicBuffer

namespace Buffer

variable {σ : Type u} {α : Type v} {b : Buffer σ α} {size : Nat}

/-- A buffer is cyclic when its operations are those of the two indices and the places in it. -/
structure IsCyclic (b : Buffer σ α) (size : Nat) (view : σ → CyclicBuffer α) : Prop where
  full_iff : ∀ s, b.Full s ↔ ((view s).wr + 1) % size = (view s).rd
  push_full : ∀ s x, b.Full s → b.push s x = s
  push_room : ∀ s x, ¬b.Full s → view (b.push s x) =
    ⟨Function.update (view s).buf (view s).wr x, ((view s).wr + 1) % size, (view s).rd⟩
  pop_empty : ∀ s, (view s).rd = (view s).wr → b.pop s = (none, s)
  pop_some : ∀ s, (view s).rd ≠ (view s).wr →
    (b.pop s).1 = some ((view s).buf (view s).rd) ∧
      view (b.pop s).2 = ⟨(view s).buf, (view s).wr, ((view s).rd + 1) % size⟩

namespace IsCyclic

variable {view : σ → CyclicBuffer α}

theorem push_eq (h : b.IsCyclic size view) {s : σ} (x : α) (hroom : ¬b.Full s) :
    view (b.push s x) = (CyclicBuffer.cyclic α size).push (view s) x := by
  rw [h.push_room s x hroom]
  rw [h.full_iff] at hroom
  exact (if_neg hroom).symm

theorem pop_eq (h : b.IsCyclic size view) (s : σ) :
    (b.pop s).1 = ((CyclicBuffer.cyclic α size).pop (view s)).1 ∧
      view (b.pop s).2 = ((CyclicBuffer.cyclic α size).pop (view s)).2 := by
  by_cases hempty : (view s).rd = (view s).wr
  · have hpop : (CyclicBuffer.cyclic α size).pop (view s) = (none, view s) := if_pos hempty
    rw [hpop, h.pop_empty s hempty]
    exact ⟨rfl, rfl⟩
  · have hpop : (CyclicBuffer.cyclic α size).pop (view s) =
        (some ((view s).buf (view s).rd), ⟨(view s).buf, (view s).wr, ((view s).rd + 1) % size⟩) :=
      if_neg hempty
    rw [hpop]
    exact h.pop_some s hempty

theorem isQueue (h : b.IsCyclic size view) :
    b.IsQueue (size - 1) (fun s => (view s).Valid size) (fun s => (view s).held size) where
  full_iff hvalid := (h.full_iff _).trans (CyclicBuffer.isQueue.full_iff hvalid)
  push_full x hfull := h.push_full _ x hfull
  push_room x hvalid hroom := by
    rw [h.push_eq x hroom]
    rw [h.full_iff] at hroom
    exact CyclicBuffer.isQueue.push_room x hvalid hroom
  pop_eq hvalid := by
    rw [(h.pop_eq _).1, (h.pop_eq _).2]
    exact CyclicBuffer.isQueue.pop_eq hvalid

end IsCyclic

end Buffer

end PureOS.Foundation
