import PureOS.Foundation.BoundedQueue
import PureOS.Input.Decoding

set_option autoImplicit false

/-!
# Input: the buffers of characters (`keyboard.rs`, `usb/hid.rs`)

Both keyboards put the characters that were typed into a cyclic buffer, from which they are read
one by one.
-/

namespace PureOS.Input

open PureOS.Foundation

/-! ## PS/2 -/

namespace Keyboard

/-- `read_key` behind its call of `poll`. -/
def takeKey (k : Keyboard) : Option UInt8 × Keyboard :=
  if k.tail = k.head then (none, k)
  else (some (k.keybuf k.tail), { k with tail := (k.tail + 1) % 256 })

/-- The buffer: `push_buf` and `read_key`. -/
def buffer : Buffer Keyboard UInt8 where
  Full k := (k.head + 1) % 256 = k.tail
  decFull _ := inferInstance
  push := pushBuf
  pop := takeKey

/-- Its places and indices. -/
def cyclicView (k : Keyboard) : CyclicBuffer UInt8 := ⟨k.keybuf, k.head, k.tail⟩

/-- The characters that wait. -/
def held (k : Keyboard) : List UInt8 := k.cyclicView.held 256

theorem readKey_eq (k : Keyboard) (c : Controller) :
    k.readKey c =
      ((k.poll c).1.takeKey.1, (k.poll c).1.takeKey.2, (k.poll c).2) := by
  unfold readKey takeKey
  dsimp only
  split
  · rfl
  · rfl

theorem buffer_isCyclic : buffer.IsCyclic 256 cyclicView where
  full_iff _ := Iff.rfl
  push_full _ _ hfull := if_neg (not_not_intro hfull)
  push_room _ _ hroom := congrArg cyclicView (if_pos hroom)
  pop_empty _ hempty := if_pos hempty
  pop_some k hsome := by
    have htake : k.takeKey = (some (k.keybuf k.tail), { k with tail := (k.tail + 1) % 256 }) :=
      if_neg hsome
    exact ⟨congrArg Prod.fst htake, congrArg (cyclicView ∘ Prod.snd) htake⟩

/-- A poll of a keyboard in use does to the buffer what pushes of characters do. -/
theorem exists_poll_pushes {k : Keyboard} (h : k.initDone) (c : Controller) :
    ∃ chars : List UInt8, (chars.foldl pushBuf k).SameRing (k.poll c).1 := by
  have hloop : ∀ (n : Nat) (k : Keyboard) (c : Controller),
      ∃ chars : List UInt8, (chars.foldl pushBuf k).SameRing (pollLoop n k c).1 := by
    intro n
    induction n with
    | zero => exact fun k c => ⟨[], rfl, rfl, rfl⟩
    | succ n ih =>
        intro k c
        rw [pollLoop]
        dsimp only
        split
        · exact ⟨[], rfl, rfl, rfl⟩
        · split
          · exact ih k _
          · obtain ⟨chars, hrest⟩ := ih (k.handleScancode c.readStatus.2.readData.1)
              c.readStatus.2.readData.2
            have hfirst := (sameRing_handleScancode k c.readStatus.2.readData.1).pushAll chars
            refine ⟨k.typedBy c.readStatus.2.readData.1 ++ chars, ?_⟩
            rw [List.foldl_append]
            exact ⟨hrest.keybuf.trans hfirst.keybuf, hrest.head.trans hfirst.head,
              hrest.tail.trans hfirst.tail⟩
  have hpoll : k.poll c = pollLoop 64 k c := by simp only [poll, h, not_true, if_false]
  rw [hpoll]
  exact hloop 64 k c

theorem SameRing.takeKey {k k' : Keyboard} (h : k.SameRing k') :
    k'.takeKey.1 = k.takeKey.1 ∧ k.takeKey.2.SameRing k'.takeKey.2 := by
  rw [Keyboard.takeKey, Keyboard.takeKey, h.keybuf, h.head, h.tail]
  split
  · exact ⟨rfl, h⟩
  · exact ⟨rfl, rfl, rfl, rfl⟩

/-- `read_key` does to the buffer what pushes of characters and a pop do. -/
theorem exists_readKey_pushes {k : Keyboard} (h : k.initDone) (c : Controller) :
    ∃ chars : List UInt8, (k.readKey c).1 = (chars.foldl pushBuf k).takeKey.1 ∧
      (chars.foldl pushBuf k).takeKey.2.SameRing (k.readKey c).2.1 := by
  obtain ⟨chars, hring⟩ := exists_poll_pushes h c
  rw [readKey_eq]
  exact ⟨chars, hring.takeKey⟩

end Keyboard

/-! ## USB -/

/-- `KEY_BUF`, `KEY_BUF_WR` and `KEY_BUF_RD`. -/
structure KeyBuf where
  buf : Nat → UInt8
  wr : Nat
  rd : Nat

namespace KeyBuf

/-- `push_key`. -/
def pushKey (b : KeyBuf) (ch : UInt8) : KeyBuf :=
  let next := (b.wr + 1) % 16
  if next ≠ b.rd then { b with buf := Function.update b.buf b.wr ch, wr := next } else b

/-- `read_key`. -/
def readKey (b : KeyBuf) : Option UInt8 × KeyBuf :=
  if b.rd = b.wr then (none, b) else (some (b.buf b.rd), { b with rd := (b.rd + 1) % 16 })

/-- The buffer: `push_key` and `read_key`. -/
def buffer : Buffer KeyBuf UInt8 where
  Full b := (b.wr + 1) % 16 = b.rd
  decFull _ := inferInstance
  push := pushKey
  pop := readKey

/-- Its places and indices. -/
def cyclicView (b : KeyBuf) : CyclicBuffer UInt8 := ⟨b.buf, b.wr, b.rd⟩

/-- The characters that wait. -/
def held (b : KeyBuf) : List UInt8 := b.cyclicView.held 16

theorem buffer_isCyclic : buffer.IsCyclic 16 cyclicView where
  full_iff _ := Iff.rfl
  push_full _ _ hfull := if_neg (not_not_intro hfull)
  push_room _ _ hroom := congrArg cyclicView (if_pos hroom)
  pop_empty _ hempty := if_pos hempty
  pop_some b hsome := by
    have hread : b.readKey = (some (b.buf b.rd), { b with rd := (b.rd + 1) % 16 }) := if_neg hsome
    exact ⟨congrArg Prod.fst hread, congrArg (cyclicView ∘ Prod.snd) hread⟩

end KeyBuf

/-! ## Both are queues -/

/-- The buffer of the PS/2 keyboard is a queue of 255 characters and that of the USB keyboards one
of 15, from every pair of indices; nothing waits when the indices are the same.  What comes out is
what went in, in order and once, and it does come out. -/
theorem keyBuffers_fifo :
    (∀ k : Keyboard, k.head < 256 → k.tail < 256 →
      (k.head = k.tail → k.held = []) ∧ Keyboard.buffer.FifoFrom 255 k k.held) ∧
    ∀ b : KeyBuf, b.wr < 16 → b.rd < 16 →
      (b.wr = b.rd → b.held = []) ∧ KeyBuf.buffer.FifoFrom 15 b b.held := by
  constructor
  · intro k hhead htail
    have hvalid : k.cyclicView.Valid 256 := ⟨hhead, htail⟩
    refine ⟨fun hsame => ?_, Keyboard.buffer_isCyclic.isQueue.fifoFrom hvalid⟩
    exact CyclicBuffer.held_eq_nil hvalid hsame
  · intro b hwr hrd
    have hvalid : b.cyclicView.Valid 16 := ⟨hwr, hrd⟩
    refine ⟨fun hsame => ?_, KeyBuf.buffer_isCyclic.isQueue.fifoFrom hvalid⟩
    exact CyclicBuffer.held_eq_nil hvalid hsame

/-- Two characters are typed on the PS/2 keyboard and one is read, and the other one comes next; the
buffer of the USB keyboards is filled, and the next character is dropped. -/
theorem keyBuffers_fifo_typed :
    ((Keyboard.buffer.run freshKeyboard [.push 97, .push 98, .pop]).popped <+: [97, 98] ∧
      (Keyboard.buffer.pop
        (Keyboard.buffer.run freshKeyboard [.push 97, .push 98, .pop]).state).1 = some 98) ∧
      KeyBuf.buffer.push
          (KeyBuf.buffer.run ⟨fun _ => 0, 15, 15⟩ (List.replicate 15 (.push 97))).state 98 =
        (KeyBuf.buffer.run ⟨fun _ => 0, 15, 15⟩ (List.replicate 15 (.push 97))).state := by
  obtain ⟨hps2, husb⟩ := keyBuffers_fifo
  obtain ⟨hempty, hfifo⟩ := hps2 freshKeyboard (by decide) (by decide)
  obtain ⟨hempty', hfifo'⟩ := husb ⟨fun _ => 0, 15, 15⟩ (by decide) (by decide)
  rw [hempty rfl] at hfifo
  rw [hempty' rfl] at hfifo'
  obtain ⟨hcame, hnext, -⟩ := hfifo [.push 97, .push 98, .pop]
  obtain ⟨-, -, hfull, hdropped⟩ := hfifo' (List.replicate 15 (.push 97))
  exact ⟨⟨hcame, hnext⟩, hdropped 98 (hfull.mpr (by decide))⟩

end PureOS.Input
