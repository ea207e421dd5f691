import PureOS.Memory.Isolation

set_option autoImplicit false

/-!
# Memory: pages that a process stores to

A process that has got a page may store bytes there, one after the other.
-/

namespace PureOS.Memory

open PureOS.Foundation PureOS.Process

/-- A page of the running process, from the address `base` on, with the frame `frame`. -/
structure Buffer (L : Layout) (g : Ledger) (base frame : Nat) (k : Kernel) : Prop where
  holds : Holds L k g
  running : k.Running
  tracked : frame ∈ k.tracked k.current
  fits : base + 4096 ≤ wordSize
  access : ∀ i < 4096, translate k.mem k.readCr3 (base + i) = some ⟨frame + i, true, true⟩

variable {L : Layout} {g : Ledger} {base frame size i : Nat} {k : Kernel}

namespace Buffer

theorem held (h : Buffer L g base frame k) : g.use frame = .held :=
  h.holds.owners.tracked_held _ frame h.tracked

theorem pageDown_frame (h : Buffer L g base frame k) (hi : i < 4096) :
    pageDown (frame + i) = frame := by
  have haligned : Aligned frame := h.holds.aligned (by rw [h.held]; exact Use.noConfusion)
  unfold Aligned at haligned
  unfold pageDown
  omega

theorem seen (h : Buffer L g base frame k) (hi : i < 4096) :
    k.seen (base + i) = k.mem (frame + i) := by
  rw [Kernel.seen, h.access i hi]
  rfl

/-- A store of a byte into the page. -/
theorem store (h : Buffer L g base frame k) (hi : i < 4096) (value : UInt8) :
    SparingStep L k (.store (base + i) value)
        { k with mem := Function.update k.mem (frame + i) value } ∧
      Buffer L g base frame { k with mem := Function.update k.mem (frame + i) value } := by
  have hspared : ∃ p, pageDown (frame + i) ∈ k.tracked p :=
    ⟨k.current, by rw [h.pageDown_frame hi]; exact h.tracked⟩
  have hkeeps : ∀ virt, Keeps k { k with mem := Function.update k.mem (frame + i) value }
      k.current virt := by
    intro virt
    refine keeps_of_writes h.holds h.running (fun a n pre htable => ?_) rfl
    refine Function.update_of_ne ?_ _ _
    rintro rfl
    rw [h.pageDown_frame hi, h.held] at htable
    cases htable
  refine ⟨⟨.store h.running (h.access i hi) rfl, fun a ha => ?_⟩,
    h.holds.store hspared value, h.running, h.tracked, h.fits, fun j hj => ?_⟩
  · rw [h.access i hi] at ha
    cases ha
    exact hspared
  · have hold := h.access j hj
    exact ((hkeeps (base + j)).2.eq_of_user hold rfl).trans hold

/-- The stores of some bytes. -/
def actions (base : Nat) : List UInt8 → List Action
  | [] => []
  | value :: rest => .store base value :: actions (base + 1) rest

/-- Bytes that are stored one after the other. -/
theorem stores (h : Buffer L g base frame k) {bytes : List UInt8} (hi : i + bytes.length ≤ 4096) :
    Run (SparingStep L) k (actions (base + i) bytes)
        { k with mem := blit k.mem (frame + i) bytes } ∧
      Buffer L g base frame { k with mem := blit k.mem (frame + i) bytes } := by
  induction bytes generalizing i k with
  | nil => exact ⟨.nil, h⟩
  | cons value rest ih =>
      rw [List.length_cons] at hi
      obtain ⟨hstep, hbuffer⟩ := h.store (show i < 4096 by omega) value
      obtain ⟨hrun, hend⟩ := ih hbuffer (show i + 1 + rest.length ≤ 4096 by omega)
      exact ⟨.cons hstep hrun, hend⟩

end Buffer

/-- An allocation of one page makes a buffer, with a link in front of zeros. -/
theorem exists_buffer {fin : Nat} (h : Holds L k g) (hrunning : k.Running)
    (hfin : k.allocationEnd size = some fin) (hpages : k.allocationPages fin = [base])
    (hcanonical : ∀ i < 4096, Canonical (base + i)) (hfits : base + 4096 ≤ wordSize)
    (hbase : base % 4096 = 0) (hvalue : 0 ≤ (k.memoryAllocate size).1) :
    ∃ g' frame, Buffer L g' base frame (k.memoryAllocate size).2 ∧
      ((k.memoryAllocate size).2.tracked k.current) = frame :: k.tracked k.current ∧
      ∀ i < 4096, (k.memoryAllocate size).2.mem (frame + i) =
        linkByte (k.table k.current).framesHead i := by
  rcases memoryAllocate_outcome h hrunning size with
    ⟨hnone, -⟩ | ⟨fin', hfin', ⟨k', g', hrun, -⟩ | ⟨log, k', g', hrun, hadded, hof⟩⟩
  · rw [hfin] at hnone
    cases hnone
  · rw [hrun] at hvalue
    have hnot : ¬0 ≤ errOutOfMemory := by decide
    exact absurd hvalue hnot
  rw [hfin] at hfin'
  cases hfin'
  have hva := hof.pages
  rw [hpages] at hva
  obtain ⟨e, rest, rfl, hpage, hrest⟩ := List.map_eq_cons_iff.mp hva
  obtain rfl : rest = [] := List.map_eq_nil_iff.mp hrest
  rw [hrun]
  have hcurrent : k'.current = k.current := hadded.current
  have htracked : k'.tracked k.current = e.frame :: k.tracked k.current := by
    rw [hadded.tracked, Function.update_self]
    rfl
  have hfresh := (hadded.frames e List.mem_cons_self).1
  obtain ⟨-, haligned, hlt⟩ := h.pool.frame e.frame hfresh.ne_other
  have hmaps := hadded.maps [] e [] rfl nofun
  obtain ⟨hw, hu⟩ := hof.rights e List.mem_cons_self
  have hlive : (k'.table k.current).isLive = true := by
    rw [hadded.heads.isLive]
    exact hrunning
  have hroot : (k'.table k.current).pageTableBase = (k.table k.current).pageTableBase :=
    hadded.heads.pageTableBase k.current
  have hsame : ((k'.setPcb k.current { k'.table k.current with nextFree := fin }).table
      (k'.setPcb k.current { k'.table k.current with nextFree := fin }).current) =
      { k'.table k.current with nextFree := fin } := by
    rw [Kernel.setPcb_current, hcurrent, Kernel.setPcb_self]
  refine ⟨g', e.frame, ⟨hadded.holds.setPcb fun hlive' => Or.inl ⟨hlive', rfl⟩, ?_, ?_, hfits,
    fun i hi => ?_⟩, htracked, fun i hi => ?_⟩
  · rw [Kernel.Running, hsame]
    exact hlive
  · rw [Kernel.setPcb_current, hcurrent]
    exact htracked ▸ List.mem_cons_self
  · have hsamePage : pageNo e.va = pageNo (base + i) := by
      rw [hpage]
      unfold pageNo
      omega
    have hoffset : (base + i) % 4096 = i := by omega
    have haccess := (hmaps.page hsamePage).translate (hcanonical i hi) haligned hlt
    rw [hoffset, hw, hu, ← hroot] at haccess
    rw [Kernel.readCr3, hsame]
    exact haccess
  · rw [Kernel.setPcb_mem, hadded.content e List.mem_cons_self i hi,
      hof.filled _ fillsWith_nothing e List.mem_cons_self i hi, hadded.chained.1]

/-! ## The first process -/

/-- A start with 64 frames, after the first process has got a page. -/
def allocated : Kernel := ((started 64).memoryAllocate 4096).2

/-- And after it has stored some bytes there. -/
def stored (bytes : List UInt8) : Kernel :=
  { allocated with mem := blit allocated.mem 0x400000 bytes }

theorem allocated_buffer :
    ∃ g, Buffer Layout.packed g ephemeralBase 0x400000 allocated ∧
      ∀ i < 4096, allocated.mem (0x400000 + i) = 0 := by
  have hfin : (started 64).allocationEnd 4096 = some (ephemeralBase + 4096) := by decide
  have hpages : (started 64).allocationPages (ephemeralBase + 4096) = [ephemeralBase] := by decide
  have hcanonical : ∀ i < 4096, Canonical (ephemeralBase + i) := by
    intro i hi
    unfold Canonical ephemeralBase
    omega
  have hvalue : 0 ≤ ((started 64).memoryAllocate 4096).1 := by decide +kernel
  have htracked : allocated.tracked 0 = [0x400000] := by decide +kernel
  obtain ⟨g, frame, hbuffer, hframe, hmem⟩ := exists_buffer (started_holds (by decide)) rfl hfin
    hpages hcanonical (by decide) (by decide) hvalue
  obtain rfl : frame = 0x400000 := (List.cons.inj (hframe.symm.trans htracked)).1
  exact ⟨g, hbuffer, fun i hi => (hmem i hi).trans (linkByte_zero i)⟩

variable {bytes : List UInt8}

theorem stored_buffer (hlen : bytes.length ≤ 4096) :
    ∃ g, Buffer Layout.packed g ephemeralBase 0x400000 (stored bytes) := by
  obtain ⟨g, hbuffer, -⟩ := allocated_buffer
  exact ⟨g, (hbuffer.stores (show 0 + bytes.length ≤ 4096 by omega)).2⟩

/-- The run to a stored image. -/
theorem run_stored (hlen : bytes.length ≤ 4096) :
    Run (SparingStep Layout.packed) (started 64)
      (.memoryAllocate 4096 :: Buffer.actions ephemeralBase bytes) (stored bytes) := by
  obtain ⟨g, hbuffer, -⟩ := allocated_buffer
  exact .cons ⟨.memoryAllocate rfl, trivial⟩
    (hbuffer.stores (show 0 + bytes.length ≤ 4096 by omega)).1

end PureOS.Memory
