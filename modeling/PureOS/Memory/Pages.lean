import PureOS.Memory.Mapping

set_option autoImplicit false

/-!
# Memory: adding a page to a process

One turn of the loops that give pages to a process: a frame is taken, entered into the
list of the process, mapped and filled, in the one order or in the other.
-/

namespace PureOS.Memory

open PureOS.Foundation PureOS.Process

variable {L : Layout} {k k' k'' : Kernel} {g g' : Ledger} {m m' : Nat → UInt8}
variable {S : Nat → Prop} {pid : Pid} {f : Nat}

/-! ## Frames that were given out -/

/-- The entries of tables do not change with a frame that is no table. -/
theorem Holds.cell_onlyPage (h : Holds L k g) (hf : g.use f = .held) (hmem : OnlyPage f k.mem m')
    {t n pre i : Nat} (ht : g.use t = .table n pre) (hi : i < 512) :
    cell m' t i = cell k.mem t i := by
  have hne : t ≠ f := by
    rintro rfl
    rw [hf] at ht
    cases ht
  exact cell_of_onlyPage hmem (h.aligned (by rw [hf]; exact Use.noConfusion))
    (h.aligned_table ht) hne hi

/-- Something is written into a frame that was given out. -/
theorem Holds.write (h : Holds L k g) (hf : g.use f = .held) (hmem : OnlyPage f k.mem m')
    (k' : Kernel) (hk : k' = { k with mem := m' }) : Holds L k' g := by
  subst hk
  have haligned : Aligned f := h.aligned (by rw [hf]; exact Use.noConfusion)
  refine ⟨?_, ?_, h.owners.congr rfl rfl⟩
  · refine h.pool.write (fun f' hf' => ?_) rfl rfl rfl
    have hne : f' ≠ f := by
      rintro rfl
      rw [hf] at hf'
      cases hf'
    exact hmem.word (i := 0) haligned (h.aligned_fresh (Or.inl hf')) hne (by decide)
  · exact h.tables.congr fun t n pre ht i hi => h.cell_onlyPage hf hmem ht hi

/-- Writing into a frame that was taken in between does not count as growth. -/
theorem Grown.write (hg : Grown S k k' g g') (h' : Holds L k' g') (hfresh : g.Fresh f)
    (hf : g'.use f = .held) (hmem : OnlyPage f k'.mem k''.mem)
    (havail : available k'' g' = available k' g') : Grown S k k'' g g' := by
  have haligned : Aligned f := h'.aligned (by rw [hf]; exact Use.noConfusion)
  have hcell : ∀ t n pre, g'.use t = .table n pre → ∀ i < 512,
      cell k''.mem t i = cell k'.mem t i :=
    fun t n pre ht i hi => h'.cell_onlyPage hf hmem ht hi
  refine ⟨hg.uses, ?_, ?_, ?_, ?_, ?_⟩
  · intro a ha
    have hne : pageDown a ≠ f := by
      intro heq
      rw [heq] at ha
      rcases ha with ha | ha
      · exact hfresh.ne_held ha
      · exact hfresh.ne_other ha
    exact (hmem a (div_ne_of_pageDown haligned hne)).trans (hg.keeps a ha)
  · intro t pre ht i hi hnot
    exact (hcell t 0 pre (hg.table ht) i hi).trans (hg.last t pre ht i hi hnot)
  · intro t n pre ht i hi
    rw [hcell t _ pre (hg.table ht) i hi]
    exact hg.above t n pre ht i hi
  · intro t n pre hnew ht i hi
    rw [hcell t n pre ht i hi]
    exact hg.made t n pre hnew ht i hi
  · rw [havail]
    exact hg.less

/-- Nothing else happened to the tables when a frame was taken. -/
theorem Taken.grown (h : Holds L k g) (htaken : Taken L k k' g g' f) :
    Grown noPage k k' g g' := by
  have hfresh := htaken.fresh
  have huse : ∀ f' ≠ f, g'.use f' = g.use f' := fun f' hf' => by
    rw [htaken.use_eq, Ledger.set_use_of_ne _ _ hf']
  have hheld : g'.use f = .held := by rw [htaken.use_eq, Ledger.set_use_self]
  have haligned := h.aligned_fresh hfresh
  have honly : OnlyPage f k.mem k'.mem := by
    rw [htaken.mem_eq]
    exact onlyPage_overlay haligned (Nat.le_refl _)
  have hcell : ∀ t n pre, g.use t = .table n pre → ∀ i < 512,
      cell k'.mem t i = cell k.mem t i := by
    intro t n pre ht i hi
    have hne : t ≠ f := by
      rintro rfl
      exact hfresh.ne_table ht
    exact cell_of_onlyPage honly haligned (h.aligned_table ht) hne hi
  refine ⟨?_, ?_, ?_, ?_, ?_, ?_⟩
  · intro f' hf'
    refine huse f' ?_
    rintro rfl
    exact hf' hfresh
  · intro a ha
    refine honly a (div_ne_of_pageDown haligned ?_)
    intro heq
    rw [heq] at ha
    rcases ha with ha | ha
    · exact hfresh.ne_held ha
    · exact hfresh.ne_other ha
  · intro t pre ht i hi _
    exact hcell t 0 pre ht i hi
  · intro t n pre ht i hi
    rw [hcell t _ pre ht i hi]
    exact .refl g _
  · intro t n pre hnew ht
    have hne : t ≠ f := by
      rintro rfl
      rw [hheld] at ht
      cases ht
    rw [huse t hne] at ht
    exact absurd ht (hnew n pre)
  · exact Nat.le_trans (Nat.le_succ _) (Nat.le_of_eq htaken.less)

/-! ## `track_frame` -/

/-- The process table changes in nothing but the head of the list of frames of `pid`. -/
def HeadSet (pid : Pid) (f : Nat) (t t' : Table) : Prop :=
  t' = Function.update t pid { t pid with framesHead := f }

theorem HeadSet.isLive {t t' : Table} (h : HeadSet pid f t t') (p : Pid) :
    (t' p).isLive = (t p).isLive := by
  rw [h]
  by_cases hp : p = pid
  · rw [hp, Function.update_self]
    rfl
  · rw [Function.update_of_ne hp]

theorem HeadSet.pageTableBase {t t' : Table} (h : HeadSet pid f t t') (p : Pid) :
    (t' p).pageTableBase = (t p).pageTableBase := by
  rw [h]
  by_cases hp : p = pid
  · rw [hp, Function.update_self]
  · rw [Function.update_of_ne hp]

theorem HeadSet.trans {t t' t'' : Table} {f' : Nat} (h : HeadSet pid f t t')
    (h' : HeadSet pid f' t' t'') : HeadSet pid f' t t'' := by
  unfold HeadSet at *
  rw [h', h, Function.update_self, Function.update_idem]

/-- A frame that no process has is entered into the list of a process. -/
theorem trackFrame_holds (h : Holds L k g) (hf : g.use f = .held)
    (hnot : ∀ p, f ∉ k.tracked p) (pid : Pid) : Holds L (k.trackFrame pid f) g := by
  have haligned : Aligned f := h.aligned (by rw [hf]; exact Use.noConfusion)
  have honly : OnlyPage f k.mem (setWord k.mem f (k.table pid).framesHead) :=
    onlyPage_setWord (i := 0) haligned (by decide)
  have hwrite := h.write hf honly _ rfl
  have hset : HeadSet pid f k.table (k.trackFrame pid f).table := rfl
  refine ⟨hwrite.pool.write (fun _ _ => rfl) rfl rfl rfl, hwrite.tables, ?_⟩
  refine ⟨?_, ?_, ?_, ?_, ?_⟩
  · intro p hp
    rw [hset.isLive, hset.pageTableBase]
    exact h.owners.base p hp
  · rw [hset.isLive, hset.pageTableBase]
    exact h.owners.base_zero
  · intro p f' hf'
    change f' ∈ Function.update k.tracked pid (f :: k.tracked pid) p at hf'
    by_cases hp : p = pid
    · rw [hp, Function.update_self] at hf'
      rcases List.mem_cons.mp hf' with rfl | hf'
      · exact hf
      · exact h.owners.tracked_held pid f' hf'
    · rw [Function.update_of_ne hp] at hf'
      exact h.owners.tracked_held p f' hf'
  · intro p
    change (Function.update k.tracked pid (f :: k.tracked pid) p).Nodup
    by_cases hp : p = pid
    · rw [hp, Function.update_self]
      exact List.nodup_cons.mpr ⟨hnot pid, h.owners.tracked_nodup pid⟩
    · rw [Function.update_of_ne hp]
      exact h.owners.tracked_nodup p
  · intro p q hpq f' hf' hq
    change f' ∈ Function.update k.tracked pid (f :: k.tracked pid) p at hf'
    change f' ∈ Function.update k.tracked pid (f :: k.tracked pid) q at hq
    by_cases hp : p = pid
    · have hqne : q ≠ pid := fun heq => hpq (hp.trans heq.symm)
      rw [hp, Function.update_self] at hf'
      rw [Function.update_of_ne hqne] at hq
      rcases List.mem_cons.mp hf' with rfl | hf'
      · exact hnot q hq
      · exact h.owners.tracked_disjoint pid q (Ne.symm hqne) f' hf' hq
    · rw [Function.update_of_ne hp] at hf'
      by_cases hqe : q = pid
      · rw [hqe, Function.update_self] at hq
        rcases List.mem_cons.mp hq with rfl | hq
        · exact hnot p hf'
        · exact h.owners.tracked_disjoint p pid hp f' hf' hq
      · rw [Function.update_of_ne hqe] at hq
        exact h.owners.tracked_disjoint p q hpq f' hf' hq

/-! ## One turn of a loop -/

/-- The page `va` was added to the process with the frame `f`. -/
structure PageAdded (L : Layout) (pid : Pid) (root va : Nat) (writable user : Bool)
    (k k' : Kernel) (g g' : Ledger) (f : Nat) : Prop where
  fresh : g.Fresh f
  held : g'.use f = .held
  holds : Holds L k' g'
  grown : Grown (· = pageNo va) k k' g g'
  less : available k' g' < available k g
  maps : MapsTo k'.mem root va f writable user
  heads : HeadSet pid f k.table k'.table
  tracked : k'.tracked = Function.update k.tracked pid (f :: k.tracked pid)
  current : k'.current = k.current
  tick : k'.tick = k.tick

/-- A frame was taken for the process, and no page was added. -/
structure PageLost (L : Layout) (pid : Pid) (k k' : Kernel) (g g' : Ledger) : Prop where
  holds : Holds L k' g'
  grown : Grown noPage k k' g g'
  less : available k' g' < available k g
  heads : ∃ f, HeadSet pid f k.table k'.table
  tracked : ∀ p, p ≠ pid → k'.tracked p = k.tracked p
  current : k'.current = k.current

/-- The filling of a page writes into its frame, and reads. -/
def Fills (fill : Nat → Nat → Kernel → Kernel) : Prop :=
  ∀ va f k, Aligned f → OnlyPage f k.mem (fill va f k).mem ∧
    ∃ reads, fill va f k = { k with mem := (fill va f k).mem, reads := reads }

theorem fills_nothing : Fills fun _ _ k => k := fun _ f k _ => ⟨.refl f k.mem, k.reads, rfl⟩

theorem PageAdded.fill {fill : Nat → Nat → Kernel → Kernel} (hfill : Fills fill) {root va : Nat}
    {writable user : Bool} (h : PageAdded L pid root va writable user k k' g g' f)
    (hroot : g.use root = .table 3 0) :
    PageAdded L pid root va writable user k (fill va f k') g g' f := by
  have haligned : Aligned f := h.holds.aligned (by rw [h.held]; exact Use.noConfusion)
  obtain ⟨honly, reads, heq⟩ := hfill va f k' haligned
  have hmem := h.holds.write h.held honly _ rfl
  have hgrown : Grown (· = pageNo va) k (fill va f k') g g' :=
    h.grown.write h.holds h.fresh h.held honly (by rw [heq]; rfl)
  have hmaps : MapsTo (fill va f k').mem root va f writable user :=
    h.maps.congr h.holds.tables (fun t n pre ht i hi => h.holds.cell_onlyPage h.held honly ht hi)
      (h.grown.table hroot)
  rw [heq] at hgrown hmaps ⊢
  exact ⟨h.fresh, h.held, ⟨hmem.pool.write (fun _ _ => rfl) rfl rfl rfl, hmem.tables,
    hmem.owners.congr rfl rfl⟩, hgrown, h.less, hmaps, h.heads, h.tracked, h.current, h.tick⟩

/-- What is in a frame before it is filled: zeros, after the list of the process. -/
def Linked (k k' : Kernel) (pid : Pid) (f : Nat) : Prop :=
  ∀ i < 4096, k'.mem (f + i) = setWord (fun _ => 0) f (k.table pid).framesHead (f + i)

/-- A word that is put into a page of zeros. -/
theorem setWord_zeroed {v i : Nat} (hzero : ∀ i < 4096, m (f + i) = 0) (hi : i < 4096) :
    setWord m f v (f + i) = setWord (fun _ => 0) f v (f + i) := by
  by_cases h8 : i < 8
  · exact setWord_of_inside m _ f v h8
  · rw [setWord_of_outside v (by omega), setWord_of_outside v (by omega)]
    exact hzero i hi

/-- The frame that `trackFrame` is called for is no frame of a process. -/
theorem Taken.not_tracked (h : Holds L k g) (htaken : Taken L k k' g g' f) (p : Pid) :
    f ∉ k'.tracked p := by
  rw [htaken.quiet.tracked_eq]
  exact fun hf => h.owners.not_fresh_of_tracked hf htaken.fresh

theorem Taken.held (htaken : Taken L k k' g g' f) : g'.use f = .held := by
  rw [htaken.use_eq, Ledger.set_use_self]

theorem Taken.zeroed (htaken : Taken L k k' g g' f) : ∀ i < 4096, k'.mem (f + i) = 0 := by
  intro i hi
  rw [htaken.mem_eq, overlay_of_inside hi]

/-- The bytes of a frame that is held. -/
theorem Grown.byte (hg : Grown S k k' g g') (h : Holds L k g) (hf : g.use f = .held) {i : Nat}
    (hi : i < 4096) : k'.mem (f + i) = k.mem (f + i) := by
  have haligned : Aligned f := h.aligned (by rw [hf]; exact Use.noConfusion)
  have hpage : pageDown (f + i) = f := by
    unfold Aligned at haligned
    unfold pageDown
    omega
  exact hg.keeps (f + i) (Or.inl (by rw [hpage]; exact hf))

/-- The state after `track_frame`. -/
theorem trackFrame_grown (hg : Grown S k k' g g') (h' : Holds L k' g') (hfresh : g.Fresh f)
    (hf : g'.use f = .held) (pid : Pid) : Grown S k (k'.trackFrame pid f) g g' :=
  hg.write h' hfresh hf
    (onlyPage_setWord (i := 0) (h'.aligned (by rw [hf]; exact Use.noConfusion)) (by decide)) rfl

variable {pml4 va : Nat} {writable user : Bool} {fill : Nat → Nat → Kernel → Kernel}

/-- The loops that enter a frame into the list before they map it.  The filling comes last. -/
theorem trackAndMap_cases (h : Holds L k g) (hroot : g.use (target pml4) = .table 3 0)
    (pid : Pid) (va : Nat) (writable user : Bool) :
    ((∀ fill, Kernel.trackAndMap pid pml4 writable user fill va k = (.error errOutOfMemory, k)) ∧
      available k g = 0) ∨
    (∃ k' g', (∀ fill,
        Kernel.trackAndMap pid pml4 writable user fill va k = (.error errOutOfMemory, k')) ∧
      PageLost L pid k k' g g') ∨
    ∃ f k' g', (∀ fill,
        Kernel.trackAndMap pid pml4 writable user fill va k = (.ok (), fill va f k')) ∧
      PageAdded L pid (target pml4) va writable user k k' g g' f ∧ Linked k k' pid f := by
  rcases allocFrame_cases h with ⟨hnone, havail⟩ | ⟨f, k₁, g₁, hsome, htaken⟩
  · refine Or.inl ⟨fun fill => ?_, havail⟩
    rw [Kernel.trackAndMap, hnone]
  refine Or.inr ?_
  have h₁ := htaken.holds
  have hgrown₁ := htaken.grown h
  have htracked := trackFrame_holds h₁ htaken.held (htaken.not_tracked h) pid
  have hgrown := trackFrame_grown hgrown₁ h₁ htaken.fresh htaken.held pid
  have hless : available (k₁.trackFrame pid f) g₁ < available k g := by
    have := htaken.less
    change available k₁ g₁ < available k g
    omega
  have hheads : HeadSet pid f k.table (k₁.trackFrame pid f).table := by
    rw [← htaken.quiet.table_eq]
    rfl
  have hlist : (k₁.trackFrame pid f).tracked =
      Function.update k.tracked pid (f :: k.tracked pid) := by
    rw [← htaken.quiet.tracked_eq]
    rfl
  have hquiet := (k₁.trackFrame pid f).mapPage_quiet pml4 va f writable user
  rcases mapPage_cases htracked (hgrown.table hroot) va f writable user with
    ⟨k₂, g₂, hmap, h₂, hgrown₂⟩ | ⟨k₂, g₂, hmap, h₂, hgrown₂, hmaps⟩
  · rw [hmap] at hquiet
    refine Or.inl ⟨k₂, g₂, fun fill => ?_, ⟨h₂, hgrown.trans hgrown₂, Nat.lt_of_le_of_lt hgrown₂.less hless,
      ⟨f, by rwa [hquiet.table_eq]⟩, ?_, hquiet.current_eq.trans htaken.quiet.current_eq⟩⟩
    · rw [Kernel.trackAndMap, hsome]
      dsimp only
      rw [hmap]
    · intro p hp
      rw [hquiet.tracked_eq, hlist, Function.update_of_ne hp]
  · rw [hmap] at hquiet
    refine Or.inr ⟨f, k₂, g₂, fun fill => ?_, ⟨htaken.fresh, hgrown₂.held htaken.held, h₂,
      (hgrown.mono fun _ hv => hv.elim).trans hgrown₂, Nat.lt_of_le_of_lt hgrown₂.less hless,
      hmaps, by rwa [hquiet.table_eq], hquiet.tracked_eq.trans hlist,
      hquiet.current_eq.trans htaken.quiet.current_eq,
      hquiet.tick_eq.trans htaken.quiet.tick_eq⟩, ?_⟩
    · rw [Kernel.trackAndMap, hsome]
      dsimp only
      rw [hmap]
    · intro i hi
      rw [hgrown₂.byte htracked htaken.held hi, ← htaken.quiet.table_eq]
      exact setWord_zeroed htaken.zeroed hi

/-- The loops that map a frame before they enter it into the list. -/
theorem mapAndTrack_cases (h : Holds L k g) (hroot : g.use (target pml4) = .table 3 0)
    (pid : Pid) (va : Nat) (writable user : Bool) (fill : Nat → Nat → Kernel → Kernel) :
    (Kernel.mapAndTrack pid pml4 writable user fill va k = (.error errOutOfMemory, k) ∧
      available k g = 0) ∨
    (∃ k' g', Kernel.mapAndTrack pid pml4 writable user fill va k = (.error errOutOfMemory, k') ∧
      PageLost L pid k k' g g') ∨
    ∃ f k' g', Kernel.mapAndTrack pid pml4 writable user fill va k = (.ok (), fill va f k') ∧
      PageAdded L pid (target pml4) va writable user k k' g g' f ∧ Linked k k' pid f := by
  rcases allocFrame_cases h with ⟨hnone, havail⟩ | ⟨f, k₁, g₁, hsome, htaken⟩
  · refine Or.inl ⟨?_, havail⟩
    rw [Kernel.mapAndTrack, hnone]
  refine Or.inr ?_
  have h₁ := htaken.holds
  have hgrown₁ := htaken.grown h
  have hless : available k₁ g₁ < available k g := by
    have := htaken.less
    omega
  have hquiet := k₁.mapPage_quiet pml4 va f writable user
  rcases mapPage_cases h₁ (hgrown₁.table hroot) va f writable user with
    ⟨k₂, g₂, hmap, h₂, hgrown₂⟩ | ⟨k₂, g₂, hmap, h₂, hgrown₂, hmaps⟩
  · rw [hmap] at hquiet
    have hall := htaken.quiet.trans hquiet
    refine Or.inl ⟨k₂, g₂, ?_, ⟨h₂, hgrown₁.trans hgrown₂, Nat.lt_of_le_of_lt hgrown₂.less hless,
      ⟨(k.table pid).framesHead, ?_⟩, fun p _ => by rw [hall.tracked_eq], hall.current_eq⟩⟩
    · rw [Kernel.mapAndTrack, hsome]
      dsimp only
      rw [hmap]
    · rw [hall.table_eq]
      exact (Function.update_eq_self pid k.table).symm
  · rw [hmap] at hquiet
    have hall := htaken.quiet.trans hquiet
    have hheld := hgrown₂.held htaken.held
    have hnot : ∀ p, f ∉ k₂.tracked p := fun p => by
      rw [hquiet.tracked_eq]
      exact htaken.not_tracked h p
    have hgrown := (hgrown₁.mono fun _ hv => hv.elim).trans hgrown₂
    have honly : OnlyPage f k₂.mem (k₂.trackFrame pid f).mem :=
      onlyPage_setWord (i := 0) (h₂.aligned (by rw [hheld]; exact Use.noConfusion)) (by decide)
    refine Or.inr ⟨f, k₂.trackFrame pid f, g₂, ?_, ⟨htaken.fresh, hheld,
      trackFrame_holds h₂ hheld hnot pid, trackFrame_grown hgrown h₂ htaken.fresh hheld pid,
      Nat.lt_of_le_of_lt hgrown₂.less hless, ?_, ?_, ?_, hall.current_eq, hall.tick_eq⟩, ?_⟩
    · rw [Kernel.mapAndTrack, hsome]
      dsimp only
      rw [hmap]
    · exact hmaps.congr h₂.tables (fun t n pre ht i hi => h₂.cell_onlyPage hheld honly ht hi)
        (hgrown.table hroot)
    · rw [← hall.table_eq]
      rfl
    · rw [← hall.tracked_eq]
      rfl
    · intro i hi
      rw [← hall.table_eq]
      refine setWord_zeroed (fun i hi => ?_) hi
      rw [hgrown₂.byte h₁ htaken.held hi]
      exact htaken.zeroed i hi

end PureOS.Memory
