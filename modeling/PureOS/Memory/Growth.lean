import PureOS.Memory.Taking

set_option autoImplicit false

/-!
# Memory: how tables grow

`map_page` makes the tables on the way to an address that are not there yet.  What was
decoded before is decoded in the same way afterwards, and nothing is reached through the
new tables until an entry is put into the last one.
-/

namespace PureOS.Memory

open PureOS.Foundation PureOS.Process

/-- The address is no table of the ledger. -/
def Ledger.New (g : Ledger) (t : Nat) : Prop := ∀ n pre, g.use t ≠ .table n pre

/-- How an entry above the last level may change: rights are only given, and an entry may be
made that leads to a new table. -/
structure EntryGrown (g : Ledger) (e e' : Nat) : Prop where
  kept : present e = true → present e' = true ∧ isHuge e' = isHuge e ∧ target e' = target e ∧
    isWritable e' = isWritable e ∧ (isUser e = true → isUser e' = true)
  huge : isHuge e = true → present e = true → e' = e
  made : present e = false →
    e' = e ∨ (present e' = true ∧ isHuge e' = false ∧ g.New (target e'))

/-- Frames were taken from the allocator, and may have been made into tables; nothing was
entered into last tables but for the pages in `S`, which are given by the number that is
decoded for them. -/
structure Grown (S : Nat → Prop) (k k' : Kernel) (g g' : Ledger) : Prop where
  uses : ∀ f, ¬g.Fresh f → g'.use f = g.use f
  keeps : ∀ a, g.use (pageDown a) = .held ∨ g.use (pageDown a) = .other → k'.mem a = k.mem a
  last : ∀ t pre, g.use t = .table 0 pre → ∀ i < 512, ¬S (pre * 512 + i) →
    cell k'.mem t i = cell k.mem t i
  above : ∀ t n pre, g.use t = .table (n + 1) pre → ∀ i < 512,
    EntryGrown g (cell k.mem t i) (cell k'.mem t i)
  made : ∀ t n pre, g.New t → g'.use t = .table n pre → ∀ i < 512,
    present (cell k'.mem t i) = true →
      (n = 0 → S (pre * 512 + i)) ∧
      (n ≠ 0 → isHuge (cell k'.mem t i) = false ∧ g.New (target (cell k'.mem t i)))
  less : available k' g' ≤ available k g

/-- No page. -/
def noPage : Nat → Prop := fun _ => False

variable {L : Layout} {k k' k'' : Kernel} {g g' g'' : Ledger} {m m' : Nat → UInt8}
variable {S S' : Nat → Prop}

theorem EntryGrown.refl (g : Ledger) (e : Nat) : EntryGrown g e e where
  kept h := ⟨h, rfl, rfl, rfl, id⟩
  huge _ _ := rfl
  made _ := Or.inl rfl

theorem EntryGrown.trans {e e' e'' : Nat} (hnew : ∀ t, g'.New t → g.New t)
    (h : EntryGrown g e e') (h' : EntryGrown g' e' e'') : EntryGrown g e e'' where
  kept hpresent := by
    obtain ⟨hp, hh, ht, hw, hu⟩ := h.kept hpresent
    obtain ⟨hp', hh', ht', hw', hu'⟩ := h'.kept hp
    exact ⟨hp', hh'.trans hh, ht'.trans ht, hw'.trans hw, fun huser => hu' (hu huser)⟩
  huge hhuge hpresent := by
    have heq := h.huge hhuge hpresent
    rw [← heq] at hhuge hpresent
    exact (h'.huge hhuge hpresent).trans heq
  made habsent := by
    rcases h.made habsent with rfl | ⟨hp, hh, ht⟩
    · rcases h'.made habsent with heq | ⟨hp', hh', ht'⟩
      · exact Or.inl heq
      · exact Or.inr ⟨hp', hh', hnew _ ht'⟩
    · obtain ⟨hp', hh', ht', _⟩ := h'.kept hp
      exact Or.inr ⟨hp', hh'.trans hh, ht' ▸ ht⟩

theorem Grown.refl (S : Nat → Prop) (k : Kernel) (g : Ledger) : Grown S k k g g where
  uses _ _ := rfl
  keeps _ _ := rfl
  last _ _ _ _ _ _ := rfl
  above _ _ _ _ _ _ := .refl g _
  made _ n pre hnew ht := absurd ht (hnew n pre)
  less := Nat.le_refl _

theorem Grown.mono (h : Grown S k k' g g') (hS : ∀ v, S v → S' v) : Grown S' k k' g g' where
  uses := h.uses
  keeps := h.keeps
  last t pre ht i hi hnot := h.last t pre ht i hi fun hv => hnot (hS _ hv)
  above := h.above
  made t n pre hnew ht i hi hpresent := by
    obtain ⟨hlast, habove⟩ := h.made t n pre hnew ht i hi hpresent
    exact ⟨fun hn => hS _ (hlast hn), habove⟩
  less := h.less

/-- Tables stay tables. -/
theorem Grown.table (h : Grown S k k' g g') {t n pre : Nat} (ht : g.use t = .table n pre) :
    g'.use t = .table n pre := by
  rw [h.uses t, ht]
  intro hfresh
  exact hfresh.ne_table ht

theorem Grown.held (h : Grown S k k' g g') {f : Nat} (hf : g.use f = .held) :
    g'.use f = .held := by
  rw [h.uses f, hf]
  intro hfresh
  exact hfresh.ne_held hf

theorem Grown.new (h : Grown S k k' g g') {t : Nat} (ht : g'.New t) : g.New t :=
  fun n pre heq => ht n pre (h.table heq)

theorem Grown.fresh (h : Grown S k k' g g') {f : Nat} (hf : g'.Fresh f) : g.Fresh f := by
  by_contra hnot
  have heq := h.uses f hnot
  unfold Ledger.Fresh at hf hnot
  rw [heq] at hf
  exact hnot hf

/-- What held or was no frame of the allocator is as it was. -/
theorem Grown.use_held_or_other (h : Grown S k k' g g') {f : Nat}
    (hf : g.use f = .held ∨ g.use f = .other) : g'.use f = .held ∨ g'.use f = .other := by
  rw [h.uses]
  · exact hf
  · intro hfresh
    rcases hf with hf | hf
    · exact hfresh.ne_held hf
    · exact hfresh.ne_other hf

theorem Grown.trans (h : Grown S k k' g g') (h' : Grown S k' k'' g' g'') :
    Grown S k k'' g g'' where
  uses f hf := (h'.uses f fun hfresh => hf (h.fresh hfresh)).trans (h.uses f hf)
  keeps a ha := (h'.keeps a (h.use_held_or_other ha)).trans (h.keeps a ha)
  last t pre ht i hi hnot :=
    (h'.last t pre (h.table ht) i hi hnot).trans (h.last t pre ht i hi hnot)
  above t n pre ht i hi :=
    (h.above t n pre ht i hi).trans (fun _ => h.new) (h'.above t n pre (h.table ht) i hi)
  made t n pre hnew ht i hi hpresent := by
    by_cases hnew' : g'.New t
    · obtain ⟨hlast, habove⟩ := h'.made t n pre hnew' ht i hi hpresent
      refine ⟨hlast, fun hn => ?_⟩
      obtain ⟨hh, htarget⟩ := habove hn
      exact ⟨hh, h.new htarget⟩
    -- The table was made in the first part.
    unfold Ledger.New at hnew'
    push Not at hnew'
    obtain ⟨n', pre', ht'⟩ := hnew'
    have hsame := h'.table ht'
    rw [ht] at hsame
    cases hsame
    have hfirst := h.made t n pre hnew ht' i hi
    cases n with
    | zero =>
        refine ⟨fun _ => ?_, fun hn => absurd rfl hn⟩
        by_contra hnot
        rw [h'.last t pre ht' i hi hnot] at hpresent
        exact hnot ((hfirst hpresent).1 rfl)
    | succ n =>
        refine ⟨fun hn => absurd hn (Nat.succ_ne_zero n), fun hn => ?_⟩
        have hgrown := h'.above t n pre ht' i hi
        cases hp : present (cell k'.mem t i) with
        | true =>
            obtain ⟨hh, htarget⟩ := (hfirst hp).2 hn
            obtain ⟨_, hh', htarget', _⟩ := hgrown.kept hp
            refine ⟨hh'.trans hh, ?_⟩
            rw [htarget']
            exact htarget
        | false =>
            rcases hgrown.made hp with heq | ⟨_, hh, htarget⟩
            · rw [heq, hp] at hpresent
              cases hpresent
            · exact ⟨hh, h.new htarget⟩
  less := Nat.le_trans h'.less h.less

/-! ## One level -/

/-- A frame that is given out may get any use that is not the allocator's. -/
theorem PoolHolds.set (h : PoolHolds k g) {f : Nat} {u : Use} (hf : ¬g.Fresh f)
    (hframe : g.use f ≠ .other) (hu : u ≠ .free ∧ u ≠ .unused) : PoolHolds k (g.set f u) where
  frame f' hf' := by
    by_cases heq : f' = f
    · exact heq ▸ h.frame f hframe
    · exact h.frame f' (by rwa [← Ledger.set_use_of_ne g u heq])
  aligned := h.aligned
  next_lt := h.next_lt
  end_le := h.end_le
  unused f' := by
    rw [← h.unused f']
    by_cases heq : f' = f
    · rw [heq, Ledger.set_use_self]
      exact iff_of_false hu.2 fun hun => hf (Or.inr hun)
    · rw [Ledger.set_use_of_ne g u heq]
  threaded := h.threaded
  nodup := h.nodup
  mem_free f' := by
    rw [Ledger.set_free, h.mem_free f']
    by_cases heq : f' = f
    · rw [heq, Ledger.set_use_self]
      exact iff_of_false (fun hfree => hf (Or.inl hfree)) hu.1
    · rw [Ledger.set_use_of_ne g u heq]

/-- Writing an entry of a table leaves the free frames alone. -/
theorem Holds.word_free (h : Holds L k g) {t n pre i v f : Nat} (ht : g.use t = .table n pre)
    (hi : i < 512) (hf : g.use f = .free) : word (setWord k.mem (t + 8 * i) v) f = word k.mem f := by
  have hne : f ≠ t := by
    rintro rfl
    rw [hf] at ht
    cases ht
  have hfresh : g.Fresh f := Or.inl hf
  exact (onlyPage_setWord (h.aligned_table ht) hi).word (i := 0) (h.aligned_table ht)
    (h.aligned_fresh hfresh) hne (by decide)

/-- And it leaves frames that are no tables alone. -/
theorem Holds.setWord_keeps (h : Holds L k g) {t n pre i v a : Nat} (ht : g.use t = .table n pre)
    (hi : i < 512) (ha : g.use (pageDown a) ≠ .table n pre) :
    setWord k.mem (t + 8 * i) v a = k.mem a := by
  refine onlyPage_setWord (h.aligned_table ht) hi a ?_
  intro heq
  refine ha ?_
  have haligned := h.aligned_table ht
  have hpage : pageDown a = t := by
    unfold pageDown
    unfold Aligned at haligned
    omega
  rw [hpage, ht]

/-- Writing an entry leaves the other entries alone. -/
theorem Holds.cell_setWord (h : Holds L k g) {t n pre i v : Nat} (ht : g.use t = .table n pre)
    (hi : i < 512) {t' n' pre' i' : Nat} (ht' : g.use t' = .table n' pre') (hi' : i' < 512)
    (hne : t' ≠ t ∨ i' ≠ i) : cell (setWord k.mem (t + 8 * i) v) t' i' = cell k.mem t' i' :=
  cell_setWord_of_ne (h.aligned_table ht) (h.aligned_table ht') hi hi' hne

/-- A present entry that is no huge page gets the right for user space. -/
theorem raise_grown (h : Holds L k g) {t n pre i : Nat} (ht : g.use t = .table (n + 1) pre)
    (hi : i < 512) (hpresent : present (cell k.mem t i) = true)
    (hhuge : isHuge (cell k.mem t i) = false) :
    Holds L { k with mem := setWord k.mem (t + 8 * i) (cell k.mem t i ||| 4) } g ∧
      Grown noPage k { k with mem := setWord k.mem (t + 8 * i) (cell k.mem t i ||| 4) } g g := by
  have hlt : cell k.mem t i ||| 4 < 2 ^ 64 := raised_lt (cell_lt k.mem t i)
  have hcell : ∀ t' n' pre' i', g.use t' = .table n' pre' → i' < 512 → t' ≠ t ∨ i' ≠ i →
      cell (setWord k.mem (t + 8 * i) (cell k.mem t i ||| 4)) t' i' = cell k.mem t' i' :=
    fun _ _ _ _ ht' hi' hne => h.cell_setWord ht hi ht' hi' hne
  refine ⟨⟨?_, ?_, h.owners.congr rfl rfl⟩, ?_⟩
  · exact h.pool.write (fun f hf => h.word_free ht hi hf) rfl rfl rfl
  · refine h.tables.setCell hlt (fun t n pre => h.aligned_table) ht hi ?_
    rintro n' heq _ _
    cases heq
    rw [target_raised, isWritable_raised]
    exact h.tables.child t n pre ht i hi hpresent hhuge
  · refine ⟨fun _ _ => rfl, ?_, ?_, ?_, ?_, Nat.le_refl _⟩
    · intro a ha
      refine h.setWord_keeps ht hi ?_
      rcases ha with ha | ha <;> rw [ha] <;> exact Use.noConfusion
    · intro t' pre' ht' i' hi' _
      refine hcell t' 0 pre' i' ht' hi' (Or.inl ?_)
      rintro rfl
      rw [ht] at ht'
      cases ht'
    · intro t' n' pre' ht' i' hi'
      by_cases hsame : t' = t ∧ i' = i
      · obtain ⟨rfl, rfl⟩ := hsame
        change EntryGrown g _ (cell (setWord k.mem (t' + 8 * i') _) t' i')
        rw [cell_setWord_same hlt]
        refine ⟨fun _ => ?_, fun hh => ?_, fun hp => ?_⟩
        · exact ⟨present_raised.trans hpresent, isHuge_raised, target_raised, isWritable_raised,
            fun _ => isUser_raised⟩
        · rw [hhuge] at hh
          cases hh
        · rw [hpresent] at hp
          cases hp
      · have hne : t' ≠ t ∨ i' ≠ i := by
          by_cases htt : t' = t
          · exact Or.inr fun hii => hsame ⟨htt, hii⟩
          · exact Or.inl htt
        change EntryGrown g _ (cell (setWord k.mem (t + 8 * i) _) t' i')
        rw [hcell t' _ pre' i' ht' hi' hne]
        exact .refl g _
    · intro t' n' pre' hnew ht'
      exact absurd ht' (hnew n' pre')

/-- The page of an address is another one. -/
theorem div_ne_of_pageDown {a f : Nat} (hf : Aligned f) (hne : pageDown a ≠ f) :
    a / 4096 ≠ f / 4096 := by
  unfold pageDown at hne
  unfold Aligned at hf
  omega

/-- So does writing an entry after a frame was taken. -/
theorem Taken.cell_setWord (h : Holds L k g) {k₁ : Kernel} {g₁ : Ledger} {f : Nat}
    (htaken : Taken L k k₁ g g₁ f) {t n pre i v : Nat} (ht : g.use t = .table n pre) (hi : i < 512)
    {t' n' pre' i' : Nat} (ht' : g.use t' = .table n' pre') (hi' : i' < 512)
    (hne : t' ≠ t ∨ i' ≠ i) : cell (setWord k₁.mem (t + 8 * i) v) t' i' = cell k.mem t' i' := by
  have haligned := h.aligned_fresh htaken.fresh
  have htf' : t' ≠ f := by
    rintro rfl
    exact htaken.fresh.ne_table ht'
  rw [cell_setWord_of_ne (h.aligned_table ht) (h.aligned_table ht') hi hi' hne, htaken.mem_eq]
  exact cell_of_onlyPage (onlyPage_overlay haligned (Nat.le_refl _)) haligned
    (h.aligned_table ht') htf' hi'

/-- An entry that was absent leads to a frame that was taken for it. -/
theorem make_grown (h : Holds L k g) {k₁ : Kernel} {g₁ : Ledger} {t n pre i f : Nat}
    (ht : g.use t = .table (n + 1) pre) (hi : i < 512)
    (habsent : present (cell k.mem t i) = false) (htaken : Taken L k k₁ g g₁ f) (user : Bool) :
    Holds L { k₁ with mem := setWord k₁.mem (t + 8 * i) (entry f true user) }
        (g₁.set f (.table n (pre * 512 + i))) ∧
      Grown noPage k { k₁ with mem := setWord k₁.mem (t + 8 * i) (entry f true user) }
        g (g₁.set f (.table n (pre * 512 + i))) := by
  have h₁ := htaken.holds
  have hfresh := htaken.fresh
  have huse₁ : ∀ f' ≠ f, g₁.use f' = g.use f' := fun f' hf' => by
    rw [htaken.use_eq, Ledger.set_use_of_ne _ _ hf']
  have huse₂ : ∀ f' ≠ f, (g₁.set f (.table n (pre * 512 + i))).use f' = g.use f' :=
    fun f' hf' => by rw [Ledger.set_use_of_ne _ _ hf', huse₁ f' hf']
  have hheld : g₁.use f = .held := by rw [htaken.use_eq, Ledger.set_use_self]
  have htf : t ≠ f := by
    rintro rfl
    exact hfresh.ne_table ht
  have ht₁ : g₁.use t = .table (n + 1) pre := (huse₁ t htf).trans ht
  have haligned := h.aligned_fresh hfresh
  have hlt : f < 2 ^ 52 := (h.pool.frame f hfresh.ne_other).2.2
  have htarget : target (entry f true user) = f :=
    (target_entry true user).trans (target_of_aligned haligned hlt)
  have hnew₁ : g₁.New f := fun n' pre' heq => by
    rw [hheld] at heq
    cases heq
  have hzero : ∀ j < 512, cell k₁.mem f j = 0 := fun j hj => by
    rw [htaken.mem_eq]
    exact cell_zeroed hj
  have hpool : PoolHolds k₁ (g₁.set f (.table n (pre * 512 + i))) := by
    refine h₁.pool.set ?_ ?_ ⟨Use.noConfusion, Use.noConfusion⟩
    · intro hf
      exact hf.ne_held hheld
    · rw [hheld]
      exact Use.noConfusion
  -- Cells of other tables are what they were at the beginning.
  have hcell : ∀ t' n' pre' i', g.use t' = .table n' pre' → i' < 512 → t' ≠ t ∨ i' ≠ i →
      cell (setWord k₁.mem (t + 8 * i) (entry f true user)) t' i' = cell k.mem t' i' :=
    fun _ _ _ _ ht' hi' hne => htaken.cell_setWord h ht hi ht' hi' hne
  refine ⟨⟨?_, ?_, ?_⟩, ?_⟩
  · refine hpool.write (fun f' hf' => ?_) rfl rfl rfl
    have hne : f' ≠ f := by
      rintro rfl
      rw [Ledger.set_use_self] at hf'
      cases hf'
    rw [Ledger.set_use_of_ne _ _ hne] at hf'
    exact h₁.word_free ht₁ hi hf'
  · have htables : TablesHold L k₁.mem (g₁.set f (.table n (pre * 512 + i))) :=
      h₁.tables.setTable hnew₁ fun j hj => by rw [hzero j hj]; rfl
    refine htables.setCell (entry_lt true user) ?_ ((huse₂ t htf).trans ht) hi ?_
    · intro t' n' pre' ht'
      exact (hpool.frame t' (by rw [ht']; exact Use.noConfusion)).2.1
    · rintro n' heq _ _
      cases heq
      rw [htarget, Ledger.set_use_self, isWritable_entry]
      exact ⟨rfl, rfl⟩
  · exact h.owners.setFresh hfresh huse₂ htaken.quiet.table_eq htaken.quiet.tracked_eq
  refine ⟨?_, ?_, ?_, ?_, ?_, ?_⟩
  · intro f' hf'
    refine huse₂ f' ?_
    rintro rfl
    exact hf' hfresh
  · intro a ha
    have hne : pageDown a ≠ f := by
      intro heq
      rw [heq] at ha
      rcases ha with ha | ha
      · exact hfresh.ne_held ha
      · exact hfresh.ne_other ha
    have hkeep := h₁.setWord_keeps (v := entry f true user) (a := a) ht₁ hi (by
      rw [huse₁ _ hne]
      rcases ha with ha | ha <;> rw [ha] <;> exact Use.noConfusion)
    refine hkeep.trans ?_
    rw [htaken.mem_eq]
    exact onlyPage_overlay haligned (Nat.le_refl _) a (div_ne_of_pageDown haligned hne)
  · intro t' pre' ht' i' hi' _
    refine hcell t' 0 pre' i' ht' hi' (Or.inl ?_)
    rintro rfl
    rw [ht] at ht'
    cases ht'
  · intro t' n' pre' ht' i' hi'
    by_cases hsame : t' = t ∧ i' = i
    · obtain ⟨rfl, rfl⟩ := hsame
      change EntryGrown g _ (cell (setWord k₁.mem (t' + 8 * i') _) t' i')
      rw [cell_setWord_same (entry_lt true user)]
      refine ⟨fun hp => ?_, fun _ hp => ?_, fun _ => Or.inr ⟨present_entry true user,
        isHuge_entry true user, ?_⟩⟩
      · rw [habsent] at hp
        cases hp
      · rw [habsent] at hp
        cases hp
      · rw [htarget]
        exact fun _ _ => hfresh.ne_table
    · have hne : t' ≠ t ∨ i' ≠ i := by
        by_cases htt : t' = t
        · exact Or.inr fun hii => hsame ⟨htt, hii⟩
        · exact Or.inl htt
      change EntryGrown g _ (cell (setWord k₁.mem (t + 8 * i) _) t' i')
      rw [hcell t' _ pre' i' ht' hi' hne]
      exact .refl g _
  · intro t' n' pre' hnew ht' i' hi' hpresent
    have heq : t' = f := by
      by_contra hne
      rw [huse₂ t' hne] at ht'
      exact hnew n' pre' ht'
    rw [heq] at hpresent
    change present (cell (setWord k₁.mem (t + 8 * i) _) f i') = true at hpresent
    rw [cell_setWord_of_ne (h.aligned_table ht) haligned hi hi' (Or.inl (Ne.symm htf)),
      hzero i' hi'] at hpresent
    cases hpresent
  · change available k₁ g₁ ≤ available k g
    exact Nat.le_trans (Nat.le_succ _) (Nat.le_of_eq htaken.less)

/-! ## The way down -/

/-- An entry that lets accesses through. -/
structure Opens (user : Bool) (e : Nat) : Prop where
  present : present e = true
  notHuge : isHuge e = false
  writable : isWritable e = true
  user : user = true → isUser e = true

/-- The entries on the way from the table `t` of level `n` lead down to the last table `pt`,
and let accesses through. -/
inductive Path (user : Bool) (m : Nat → UInt8) (virt : Nat) : Nat → Nat → Nat → Prop
  | last (t : Nat) : Path user m virt 0 t t
  | down {n t pt : Nat} (opens : Opens user (cell m t (index (n + 1) virt)))
      (rest : Path user m virt n (target (cell m t (index (n + 1) virt))) pt) :
      Path user m virt (n + 1) t pt

/-- The part of an address that is decoded above the last level. -/
def prefixOf (virt : Nat) : Nat → Nat → Nat
  | 0, pre => pre
  | n + 1, pre => prefixOf virt n (pre * 512 + index (n + 1) virt)

/-- The last table on the way is in the ledger with the address that leads to it. -/
theorem Path.table (h : TablesHold L m g) {user : Bool} {virt n t pt pre : Nat}
    (hpath : Path user m virt n t pt) (ht : g.use t = .table n pre) :
    g.use pt = .table 0 (prefixOf virt n pre) := by
  induction hpath generalizing pre with
  | last => exact ht
  | @down n t pt opens _ ih =>
      exact ih (h.child t n pre ht _ (index_lt _ _) opens.present opens.notHuge).1

/-- Ways stay open when entries grow. -/
theorem Path.mono (h : TablesHold L m g)
    (habove : ∀ t n pre, g.use t = .table (n + 1) pre → ∀ i < 512,
      EntryGrown g (cell m t i) (cell m' t i)) {user : Bool} {virt n t pt pre : Nat}
    (hpath : Path user m virt n t pt) (ht : g.use t = .table n pre) :
    Path user m' virt n t pt := by
  induction hpath generalizing pre with
  | last => exact .last _
  | @down n t pt opens _ ih =>
      have hchild := (h.child t n pre ht _ (index_lt _ _) opens.present opens.notHuge).1
      obtain ⟨hp, hh, htarget, hw, hu⟩ :=
        (habove t n pre ht _ (index_lt _ _)).kept opens.present
      refine .down ⟨hp, hh.trans opens.notHuge, hw.trans opens.writable,
        fun huser => hu (opens.user huser)⟩ ?_
      rw [htarget]
      exact ih hchild

/-- What `next_table` leaves when it leads on to `t'`: the entry is open, and no other one has
changed. -/
structure Stepped (L : Layout) (user : Bool) (t i t' : Nat) (k k' : Kernel) (g g' : Ledger) :
    Prop where
  holds : Holds L k' g'
  grown : Grown noPage k k' g g'
  opens : Opens user (cell k'.mem t i)
  leads : target (cell k'.mem t i) = t'
  others : ∀ t₁ n₁ pre₁, g.use t₁ = .table n₁ pre₁ → ∀ j < 512, t₁ ≠ t ∨ j ≠ i →
    cell k'.mem t₁ j = cell k.mem t₁ j

/-- `next_table` at an entry that is absent: it fails for want of a frame, or makes a table
without entries of one. -/
theorem nextTable_absent (h : Holds L k g) {t n pre i : Nat} (ht : g.use t = .table (n + 1) pre)
    (hi : i < 512) (user : Bool) (habsent : present (cell k.mem t i) = false) :
    (k.nextTable t i user = (none, k) ∧ available k g = 0) ∨
      ∃ t' k' g', k.nextTable t i user = (some t', k') ∧ Stepped L user t i t' k k' g g' ∧
        available k' g' + 1 = available k g ∧ ∀ j < 512, present (cell k'.mem t' j) = false := by
  rcases allocFrame_cases h with ⟨hnone, havail⟩ | ⟨f, k₁, g₁, hsome, htaken⟩
  · refine Or.inl ⟨?_, havail⟩
    rw [Kernel.nextTable]
    simp only [habsent, hnone, Bool.false_eq_true, not_false_eq_true, if_true]
  · obtain ⟨hholds, hgrown⟩ := make_grown h ht hi habsent htaken user
    have hcell : cell (setWord k₁.mem (t + 8 * i) (entry f true user)) t i =
        entry f true user := cell_setWord_same (entry_lt true user)
    have haligned := h.aligned_fresh htaken.fresh
    have hlt : f < 2 ^ 52 := (h.pool.frame f htaken.fresh.ne_other).2.2
    have htarget : target (entry f true user) = f :=
      (target_entry true user).trans (target_of_aligned haligned hlt)
    have htf : f ≠ t := by
      rintro rfl
      exact htaken.fresh.ne_table ht
    refine Or.inr ⟨target (entry f true user), _, _, ?_, ⟨hholds, hgrown, ?_, ?_, ?_⟩,
      htaken.less, fun j hj => ?_⟩
    · rw [Kernel.nextTable]
      simp only [habsent, hsome, Bool.false_eq_true, not_false_eq_true, if_true]
      rfl
    · change Opens user (cell (setWord k₁.mem (t + 8 * i) _) t i)
      rw [hcell]
      exact ⟨present_entry true user, isHuge_entry true user, isWritable_entry true user,
        fun huser => (isUser_entry true user).trans huser⟩
    · exact congrArg target hcell
    · exact fun _ _ _ ht₁ j hj hne => htaken.cell_setWord h ht hi ht₁ hj hne
    · rw [htarget]
      change present (cell (setWord k₁.mem (t + 8 * i) _) f j) = false
      rw [cell_setWord_of_ne (h.aligned_table ht) haligned hi hj (Or.inl htf), htaken.mem_eq,
        cell_zeroed hj]
      rfl

/-- `next_table` at an entry that leads to a table goes on there. -/
theorem nextTable_present (h : Holds L k g) {t n pre i : Nat} (ht : g.use t = .table (n + 1) pre)
    (hi : i < 512) (user : Bool) (hpresent : present (cell k.mem t i) = true)
    (hhuge : isHuge (cell k.mem t i) = false) :
    ∃ k', k.nextTable t i user = (some (target (cell k.mem t i)), k') ∧
      Stepped L user t i (target (cell k.mem t i)) k k' g g ∧ available k' g = available k g := by
  have hwritable := (h.tables.child t n pre ht i hi hpresent hhuge).2
  cases user with
  | false =>
      refine ⟨k, ?_, ⟨h, .refl _ k g, ⟨hpresent, hhuge, hwritable, Bool.noConfusion⟩, rfl,
        fun _ _ _ _ _ _ _ => rfl⟩, rfl⟩
      rw [Kernel.nextTable]
      simp only [hpresent, hhuge, not_true_eq_false, Bool.false_eq_true, if_false]
  | true =>
      obtain ⟨hholds, hgrown⟩ := raise_grown h ht hi hpresent hhuge
      have hcell : cell (setWord k.mem (t + 8 * i) (cell k.mem t i ||| 4)) t i =
          cell k.mem t i ||| 4 := cell_setWord_same (raised_lt (cell_lt _ _ _))
      refine ⟨_, ?_, ⟨hholds, hgrown, ?_, ?_, ?_⟩, rfl⟩
      · rw [Kernel.nextTable]
        simp only [hpresent, hhuge, not_true_eq_false, Bool.false_eq_true, if_false, if_true,
          target_raised]
      · change Opens true (cell (setWord k.mem (t + 8 * i) _) t i)
        rw [hcell]
        exact ⟨present_raised.trans hpresent, isHuge_raised.trans hhuge,
          isWritable_raised.trans hwritable, fun _ => isUser_raised⟩
      · exact (congrArg target hcell).trans target_raised
      · exact fun _ _ _ ht₁ j hj hne => h.cell_setWord ht hi ht₁ hj hne

/-- `next_table` does not lead through a huge page. -/
theorem nextTable_huge {t i : Nat} (user : Bool) (hpresent : present (cell k.mem t i) = true)
    (hhuge : isHuge (cell k.mem t i) = true) : k.nextTable t i user = (none, k) := by
  rw [Kernel.nextTable]
  simp only [hpresent, hhuge, not_true_eq_false, if_false, if_true]

/-- `next_table` fails and changes nothing, or leads on. -/
theorem nextTable_cases (h : Holds L k g) {t n pre i : Nat} (ht : g.use t = .table (n + 1) pre)
    (hi : i < 512) (user : Bool) :
    k.nextTable t i user = (none, k) ∨
      ∃ t' k' g', k.nextTable t i user = (some t', k') ∧ Stepped L user t i t' k k' g g' := by
  cases hpresent : present (cell k.mem t i) with
  | false =>
      rcases nextTable_absent h ht hi user hpresent with ⟨hnone, -⟩ | ⟨t', k', g', hsome, hstep, -⟩
      · exact Or.inl hnone
      · exact Or.inr ⟨t', k', g', hsome, hstep⟩
  | true =>
      cases hhuge : isHuge (cell k.mem t i) with
      | true => exact Or.inl (nextTable_huge user hpresent hhuge)
      | false =>
          obtain ⟨k', hsome, hstep, -⟩ := nextTable_present h ht hi user hpresent hhuge
          exact Or.inr ⟨_, k', g, hsome, hstep⟩

/-- The calls of `next_table` make the tables on the way, and lead to the last one. -/
theorem lastTable_cases (user : Bool) (virt n : Nat) (h : Holds L k g) {t pre : Nat}
    (ht : g.use t = .table n pre) :
    ∃ r k' g', Kernel.lastTable user virt n t k = (r, k') ∧ Holds L k' g' ∧ Grown noPage k k' g g' ∧
      ∀ pt, r = some pt → Path user k'.mem virt n t pt := by
  induction n generalizing t pre k g with
  | zero =>
      refine ⟨some t, k, g, rfl, h, .refl _ k g, ?_⟩
      rintro pt heq
      cases heq
      exact .last t
  | succ n ih =>
      rcases nextTable_cases h ht (index_lt (n + 1) virt) user with hnone |
        ⟨t', k₁, g₁, hsome, h₁, hgrown, hopens, htarget, -⟩
      · refine ⟨none, k, g, ?_, h, .refl _ k g, fun _ heq => by cases heq⟩
        rw [Kernel.lastTable, hnone]
      · have ht₁ := hgrown.table ht
        have hchild := (h₁.tables.child t n pre ht₁ _ (index_lt _ _) hopens.present
          hopens.notHuge).1
        rw [htarget] at hchild
        obtain ⟨r, k₂, g₂, hlast, h₂, hgrown₂, hpath⟩ := ih h₁ hchild
        refine ⟨r, k₂, g₂, ?_, h₂, hgrown.trans hgrown₂, ?_⟩
        · rw [Kernel.lastTable, hsome]
          exact hlast
        · intro pt heq
          obtain ⟨hp, hh, htarget₂, hw, hu⟩ :=
            (hgrown₂.above t n pre ht₁ _ (index_lt (n + 1) virt)).kept hopens.present
          refine .down ⟨hp, hh.trans hopens.notHuge, hw.trans hopens.writable,
            fun huser => hu (hopens.user huser)⟩ ?_
          rw [htarget₂, htarget]
          exact hpath pt heq

end PureOS.Memory
