import PureOS.Foundation.Bytes

set_option autoImplicit false

/-!
# Foundation: memory in pages

A flat memory of bytes is read and written in 64-bit words and handed around in
pages of 4096 bytes.  Pages that start at multiples of their size are the same or do not meet,
so what happens in one page is not seen in another.  A list may be threaded through
such a memory: each element says, in its first word, which one comes next.
-/

namespace PureOS.Foundation

/-- The 64-bit word at an address. -/
def word (m : Nat → UInt8) (a : Nat) : Nat := readLE m a 8

/-- Write the 64-bit word at an address. -/
def setWord (m : Nat → UInt8) (a v : Nat) : Nat → UInt8 := writeLE m a 8 v

/-- Put `n` bytes of `src` at the address `a`. -/
def overlay (m : Nat → UInt8) (a n : Nat) (src : Nat → UInt8) : Nat → UInt8 := fun i =>
  if a ≤ i ∧ i < a + n then src (i - a) else m i

/-- The start of the page that an address lies in. -/
def pageDown (a : Nat) : Nat := a - a % 4096

/-- A start of a page. -/
def Aligned (a : Nat) : Prop := a % 4096 = 0

instance (a : Nat) : Decidable (Aligned a) := inferInstanceAs (Decidable (_ = _))

section Words

variable {m m' : Nat → UInt8} {a b n v : Nat} {src : Nat → UInt8}

theorem word_lt (m : Nat → UInt8) (a : Nat) : word m a < 2 ^ 64 := readLE_lt m a 8

theorem word_setWord_same (m : Nat → UInt8) (a : Nat) (hv : v < 2 ^ 64) :
    word (setWord m a v) a = v := by
  rw [word, setWord, readLE_writeLE_same]
  exact Nat.mod_eq_of_lt hv

theorem word_setWord_of_disjoint (v : Nat) (h : b + 8 ≤ a ∨ a + 8 ≤ b) :
    word (setWord m a v) b = word m b :=
  readLE_writeLE_of_disjoint m v h

theorem setWord_of_outside {i : Nat} (v : Nat) (h : i < a ∨ a + 8 ≤ i) :
    setWord m a v i = m i := writeLE_of_outside m v h

/-- The bytes of a word do not depend on what was there. -/
theorem setWord_of_inside {i : Nat} (m m' : Nat → UInt8) (a v : Nat) (h : i < 8) :
    setWord m a v (a + i) = setWord m' a v (a + i) := by
  have hlen : i < (toLE 8 v).length := by rwa [length_toLE]
  rw [setWord, setWord, writeLE, writeLE, blit_of_inside m a _ i hlen,
    blit_of_inside m' a _ i hlen]

theorem overlay_of_outside {i : Nat} (h : i < a ∨ a + n ≤ i) : overlay m a n src i = m i :=
  if_neg fun hin => by omega

theorem overlay_of_inside {i : Nat} (h : i < n) : overlay m a n src (a + i) = src i := by
  rw [overlay, if_pos ⟨Nat.le_add_right _ _, by omega⟩, Nat.add_sub_cancel_left]

/-- One byte more. -/
theorem overlay_succ (m : Nat → UInt8) (a n : Nat) (src : Nat → UInt8) :
    overlay m a (n + 1) src = Function.update (overlay m a n src) (a + n) (src n) := by
  funext i
  by_cases hi : i = a + n
  · rw [hi, Function.update_self]
    exact overlay_of_inside (Nat.lt_succ_self n)
  · rw [Function.update_of_ne hi]
    by_cases hin : a ≤ i ∧ i < a + n
    · rw [overlay, overlay, if_pos hin, if_pos ⟨hin.1, by omega⟩]
    · rw [overlay, overlay, if_neg hin, if_neg fun h => by omega]

/-- A word that was put in comes back. -/
theorem word_overlay_of_inside {i : Nat} (h : i + 8 ≤ n) :
    word (overlay m a n src) (a + i) = word src i := by
  unfold word readLE
  congr 1
  refine List.map_congr_left fun j hj => ?_
  have hlt := List.mem_range.mp hj
  rw [Nat.add_assoc]
  exact overlay_of_inside (by omega)

theorem word_zero (a : Nat) : word (fun _ => 0) a = 0 := by
  have hslice : slice (fun _ : Nat => (0 : UInt8)) a 8 = toLE 8 0 := rfl
  rw [word, readLE, hslice, fromLE_toLE, Nat.zero_mod]

end Words

/-! ## Pages -/

section Pages

variable {m m' m'' : Nat → UInt8} {f t a i n v : Nat}

theorem aligned_pageDown (a : Nat) : Aligned (pageDown a) := by
  unfold Aligned pageDown
  omega

theorem pageDown_le (a : Nat) : pageDown a ≤ a := Nat.sub_le _ _

/-- Two memories that differ in the page `f` at most. -/
def OnlyPage (f : Nat) (m m' : Nat → UInt8) : Prop := ∀ a, a / 4096 ≠ f / 4096 → m' a = m a

theorem OnlyPage.refl (f : Nat) (m : Nat → UInt8) : OnlyPage f m m := fun _ _ => rfl

theorem OnlyPage.trans (h : OnlyPage f m m') (h' : OnlyPage f m' m'') : OnlyPage f m m'' :=
  fun a ha => (h' a ha).trans (h a ha)

theorem onlyPage_setWord (hf : Aligned f) (hi : i < 512) :
    OnlyPage f m (setWord m (f + 8 * i) v) := by
  intro a ha
  unfold Aligned at hf
  exact setWord_of_outside v (by omega)

theorem onlyPage_overlay (hf : Aligned f) {src : Nat → UInt8} (hn : n ≤ 4096) :
    OnlyPage f m (overlay m f n src) := by
  intro a ha
  unfold Aligned at hf
  exact overlay_of_outside (by omega)

/-- Different pages have different numbers. -/
theorem div_ne_of_aligned (hf : Aligned f) (ht : Aligned t) (hne : t ≠ f) :
    t / 4096 ≠ f / 4096 := by
  unfold Aligned at hf ht
  omega

/-- A byte of another page. -/
theorem OnlyPage.byte (h : OnlyPage f m m') (hf : Aligned f) (ht : Aligned t) (hne : t ≠ f)
    (hi : i < 4096) : m' (t + i) = m (t + i) := by
  refine h _ ?_
  have := div_ne_of_aligned hf ht hne
  unfold Aligned at ht
  omega

/-- A word of another page. -/
theorem OnlyPage.word (h : OnlyPage f m m') (hf : Aligned f) (ht : Aligned t) (hne : t ≠ f)
    (hi : i < 512) : word m' (t + 8 * i) = word m (t + 8 * i) := by
  refine readLE_congr fun a hle hlt => ?_
  have hbyte := h.byte hf ht hne (show a - t < 4096 by omega)
  rwa [Nat.add_sub_of_le (by omega)] at hbyte

end Pages

/-! ## Lists threaded through memory -/

/-- `Threaded next head l`: from `head` on, `next` leads through the elements of `l` and
ends at 0. -/
inductive Threaded (next : Nat → Nat) : Nat → List Nat → Prop
  | nil : Threaded next 0 []
  | cons {f : Nat} {l : List Nat} (pos : f ≠ 0) (rest : Threaded next (next f) l) :
      Threaded next f (f :: l)

namespace Threaded

variable {next next' : Nat → Nat} {head : Nat} {l l' : List Nat}

theorem of_cons {f : Nat} (h : Threaded next head (f :: l)) :
    head = f ∧ f ≠ 0 ∧ Threaded next (next f) l := by
  cases h with
  | cons pos rest => exact ⟨rfl, pos, rest⟩

/-- The list is determined by its head. -/
theorem unique (h : Threaded next head l) (h' : Threaded next head l') : l = l' := by
  induction h generalizing l' with
  | nil =>
      cases h' with
      | nil => rfl
      | cons pos _ => exact absurd rfl pos
  | cons pos _ ih =>
      cases h' with
      | nil => exact absurd rfl pos
      | cons _ rest => rw [ih rest]

/-- What happens outside the elements does not matter. -/
theorem congr (h : Threaded next head l) (hsame : ∀ f ∈ l, next' f = next f) :
    Threaded next' head l := by
  induction h with
  | nil => exact .nil
  | @cons f l pos _ ih =>
      refine .cons pos ?_
      rw [hsame f List.mem_cons_self]
      exact ih fun g hg => hsame g (List.mem_cons_of_mem f hg)

/-- From an element on the list goes on in the same way. -/
theorem of_mem {f : Nat} (h : Threaded next head l) (hf : f ∈ l) :
    ∃ l₁ l₂, l = l₁ ++ l₂ ∧ Threaded next f l₂ := by
  induction h with
  | nil => exact absurd hf List.not_mem_nil
  | @cons f' l pos rest ih =>
      by_cases heq : f = f'
      · subst heq
        exact ⟨[], f :: l, rfl, .cons pos rest⟩
      · obtain ⟨l₁, l₂, rfl, hl₂⟩ := ih ((List.mem_cons.mp hf).resolve_left heq)
        exact ⟨f' :: l₁, l₂, rfl, hl₂⟩

/-- A list that ends does not come back to an element. -/
theorem nodup (h : Threaded next head l) : l.Nodup := by
  induction h with
  | nil => exact List.nodup_nil
  | @cons f l pos rest ih =>
      refine List.nodup_cons.mpr ⟨fun hmem => ?_, ih⟩
      obtain ⟨l₁, l₂, rfl, hl₂⟩ := rest.of_mem hmem
      have hlen := congrArg List.length (hl₂.unique (.cons pos rest))
      rw [List.length_cons, List.length_append] at hlen
      omega

theorem head_eq_zero_iff (h : Threaded next head l) : head = 0 ↔ l = [] := by
  cases h with
  | nil => exact iff_of_true rfl rfl
  | cons pos _ => exact iff_of_false pos (List.cons_ne_nil _ _)

end Threaded

end PureOS.Foundation
