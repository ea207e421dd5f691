import Mathlib.Data.List.Induction
import Mathlib.Logic.Function.Basic
import PureOS.Foundation.Run

set_option autoImplicit false

/-!
# Foundation: files with positions

A file is a list of cells and is open under several names at once, each with a position
and with the right to read, to write or to do both.  A write puts its data where the position
of its name is, a read takes what is there, and both move that position on.
-/

namespace PureOS.Foundation

universe u v

section Overwrite

variable {α : Type u} (z : α)

/-- The cells with `data` put at `off`; a gap behind their end is filled with `z`. -/
def overwrite (c : List α) (off : Nat) (data : List α) : List α :=
  c.take off ++ List.replicate (off - c.length) z ++ data ++ c.drop (off + data.length)

theorem length_front (c : List α) (off : Nat) :
    (c.take off ++ List.replicate (off - c.length) z).length = off := by
  rw [List.length_append, List.length_take, List.length_replicate]
  omega

/-- Data that follows other data goes where that would have gone on. -/
theorem overwrite_overwrite (c : List α) (off : Nat) (a b : List α) :
    overwrite z (overwrite z c off a) (off + a.length) b = overwrite z c off (a ++ b) := by
  have hfront : (c.take off ++ List.replicate (off - c.length) z ++ a).length = off + a.length := by
    rw [List.length_append, length_front]
  have hlength : off + a.length ≤ (overwrite z c off a).length := by
    rw [overwrite, List.length_append, hfront]
    exact Nat.le_add_right _ _
  have htake : (overwrite z c off a).take (off + a.length) =
      c.take off ++ List.replicate (off - c.length) z ++ a := by
    rw [overwrite, ← hfront, List.take_left']
    rfl
  have hdrop : (overwrite z c off a).drop (off + a.length + b.length) =
      c.drop (off + (a ++ b).length) := by
    rw [overwrite, ← List.drop_drop, ← hfront, List.drop_left', List.drop_drop, hfront,
      List.length_append, Nat.add_assoc]
    rfl
  rw [overwrite, htake, hdrop, Nat.sub_eq_zero_of_le hlength, List.replicate_zero,
    List.append_nil, overwrite]
  simp only [List.append_assoc]

/-- What has been put somewhere is there. -/
theorem take_drop_overwrite (c : List α) (off : Nat) (data : List α) :
    ((overwrite z c off data).drop off).take data.length = data := by
  have hdrop : (overwrite z c off data).drop off = data ++ c.drop (off + data.length) := by
    rw [overwrite, List.append_assoc, List.drop_left' (length_front z c off)]
  rw [hdrop, List.take_left']
  rfl

end Overwrite

/-- A name under which a file is open. -/
structure Opened where
  offset : Nat
  mayRead : Bool
  mayWrite : Bool

/-- A file and the names under which it is open. -/
structure FileView (δ : Type u) (α : Type v) where
  content : List α
  opened : δ → Option Opened

/-- What happens to a file. -/
inductive FileEvent (δ : Type u) (α : Type v) where
  /-- Nothing is done, on demand or with an error. -/
  | idle
  | opened (d : δ) (mayRead mayWrite : Bool)
  | closed (d : δ)
  /-- All of the data is written. -/
  | wrote (d : δ) (data : List α)
  /-- Up to `len` cells are asked for, and these come. -/
  | got (d : δ) (len : Nat) (data : List α)
  /-- The position becomes `offset`, which is the start if that is what is asked for. -/
  | sought (d : δ) (toStart : Bool) (offset : Nat)

namespace FileView

variable {δ : Type u} {α : Type v} [DecidableEq δ] {z : α}

/-- A name gets a position. -/
def moveTo (f : FileView δ α) (d : δ) (o : Opened) (offset : Nat) : FileView δ α :=
  { f with opened := Function.update f.opened d (some { o with offset := offset }) }

@[simp]
theorem moveTo_content (f : FileView δ α) (d : δ) (o : Opened) (offset : Nat) :
    (f.moveTo d o offset).content = f.content := rfl

@[simp]
theorem moveTo_opened (f : FileView δ α) (d : δ) (o : Opened) (offset : Nat) :
    (f.moveTo d o offset).opened d = some { o with offset := offset } := Function.update_self ..

/-- What a file with positions does. -/
inductive Step (z : α) (f : FileView δ α) : FileEvent δ α → FileView δ α → Prop
  | idle : Step z f .idle f
  | opened {d : δ} {mayRead mayWrite : Bool} (free : f.opened d = none) :
      Step z f (.opened d mayRead mayWrite)
        { f with opened := Function.update f.opened d (some ⟨0, mayRead, mayWrite⟩) }
  | closed {d : δ} {o : Opened} (isOpen : f.opened d = some o) :
      Step z f (.closed d) { f with opened := Function.update f.opened d none }
  | wrote {d : δ} {o : Opened} {data : List α} (isOpen : f.opened d = some o)
      (allowed : o.mayWrite = true) :
      Step z f (.wrote d data)
        { f.moveTo d o (o.offset + data.length) with
          content := overwrite z f.content o.offset data }
  | got {d : δ} {o : Opened} {len : Nat} {data : List α} (isOpen : f.opened d = some o)
      (allowed : data ≠ [] → o.mayRead = true) (there : data = (f.content.drop o.offset).take len) :
      Step z f (.got d len data) (f.moveTo d o (o.offset + data.length))
  | sought {d : δ} {o : Opened} {toStart : Bool} {offset : Nat} (isOpen : f.opened d = some o)
      (inside : offset ≤ f.content.length) (start : toStart = true → offset = 0) :
      Step z f (.sought d toStart offset) (f.moveTo d o offset)

theorem Step.of_wrote {f f' : FileView δ α} {d : δ} {data : List α}
    (h : Step z f (.wrote d data) f') : ∃ o, f.opened d = some o ∧ o.mayWrite = true ∧
      f' = { f.moveTo d o (o.offset + data.length) with
        content := overwrite z f.content o.offset data } := by
  cases h with
  | wrote isOpen allowed => exact ⟨_, isOpen, allowed, rfl⟩

theorem Step.of_got {f f' : FileView δ α} {d : δ} {len : Nat} {data : List α}
    (h : Step z f (.got d len data) f') : ∃ o, f.opened d = some o ∧
      (data ≠ [] → o.mayRead = true) ∧ data = (f.content.drop o.offset).take len ∧
      f' = f.moveTo d o (o.offset + data.length) := by
  cases h with
  | got isOpen allowed there => exact ⟨_, isOpen, allowed, there, rfl⟩

/-- Writes under one name, one after the other, are one write of all their data. -/
theorem run_wrote {f f' : FileView δ α} {d : δ} {o : Opened} {datas : List (List α)}
    (hopen : f.opened d = some o) (hinside : o.offset ≤ f.content.length)
    (run : Run (Step z) f (datas.map (.wrote d)) f') :
    f'.content = overwrite z f.content o.offset datas.flatten ∧
      f'.opened d = some { o with offset := o.offset + datas.flatten.length } := by
  induction datas using List.reverseRecOn generalizing f' with
  | nil =>
      obtain rfl := run.of_nil
      refine ⟨?_, hopen⟩
      rw [overwrite, Nat.sub_eq_zero_of_le hinside]
      simp
  | append_singleton datas data ih =>
      rw [List.map_append] at run
      obtain ⟨f'', hbefore, hlast⟩ := Run.of_snoc run
      obtain ⟨hcontent, hopened⟩ := ih hbefore
      obtain ⟨o', hopen', -, rfl⟩ := hlast.of_wrote
      obtain rfl := Option.some.inj (hopened.symm.trans hopen')
      rw [List.flatten_append, List.flatten_singleton, List.length_append, ← Nat.add_assoc]
      refine ⟨?_, moveTo_opened _ _ _ _⟩
      change overwrite z f''.content (o.offset + datas.flatten.length) data = _
      rw [hcontent, overwrite_overwrite]

/-- Data written from the start of a file by successive writes and read back after a seek to the
start comes in the order in which it was written. -/
theorem read_back {f f' : FileView δ α} {d : δ} {o : Opened} {datas : List (List α)}
    {data : List α} {offset : Nat} (hopen : f.opened d = some o) (hstart : o.offset = 0)
    (run : Run (Step z) f
      (datas.map (.wrote d) ++ [.sought d true offset] ++ [.got d datas.flatten.length data]) f') :
    data = datas.flatten := by
  obtain ⟨f₂, hsought, hgot⟩ := Run.of_snoc run
  obtain ⟨f₁, hwrote, hseek⟩ := Run.of_snoc hsought
  obtain ⟨hcontent, -⟩ := run_wrote hopen (by omega) hwrote
  cases hseek with
  | @sought d' o' toStart n hopen₁ hinside hzero =>
      obtain ⟨o₂, hopen₂, -, hthere, -⟩ := hgot.of_got
      rw [moveTo_opened] at hopen₂
      obtain rfl := Option.some.inj hopen₂
      rw [hthere, moveTo_content, hcontent, hstart, hzero rfl]
      exact take_drop_overwrite z f.content 0 datas.flatten

end FileView

end PureOS.Foundation
