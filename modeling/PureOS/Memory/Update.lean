import PureOS.Memory.Tree

set_option autoImplicit false

/-!
# Memory: `map_page` as an update of a tree

Under any root whose tables make a tree, a call of `map_page` changes the last entry for the
page and nothing else that is translated, whether or not it fails on the way.
-/

namespace PureOS.Memory

open PureOS.Foundation

variable {k k₁ k' : Kernel} {g g₁ g' : Ledger} {n t t₁ i f virt phys e : Nat}
variable {writable user ok : Bool}

/-! ## One level -/

/-- An entry that is present and no huge page is opened for user space if that is asked for. -/
theorem opened_raised (hpresent : present e = true) (hhuge : isHuge e = false) :
    Opened true e (e ||| 4) where
  present := present_raised.trans hpresent
  notHuge := isHuge_raised.trans hhuge
  target_eq := target_raised
  writable_eq := isWritable_raised
  keeps _ := isUser_raised
  same hu := nomatch hu

/-- `next_table` gives no table and changes nothing, enters a table that is given out for it, or
gives the one that is there. -/
theorem PoolHolds.nextTable_cases (h : PoolHolds k g) (t i : Nat) (user : Bool) :
    k.nextTable t i user = (none, k) ∨
    (∃ f k₁ g₁, present (cell k.mem t i) = false ∧ GivenOut k k₁ g g₁ f ∧
      k.nextTable t i user =
        (some f, { k₁ with mem := setWord k₁.mem (t + 8 * i) (entry f true user) })) ∨
    ∃ t₁ m₁, child k.mem t i = some t₁ ∧
      k.nextTable t i user = (some t₁, { k with mem := m₁ }) ∧
      (∀ a, a < t + 8 * i ∨ t + 8 * i + 8 ≤ a → m₁ a = k.mem a) ∧
      Opened user (cell k.mem t i) (cell m₁ t i) ∧ (user = true → isUser (cell m₁ t i) = true) := by
  unfold Kernel.nextTable
  cases hpresent : present (cell k.mem t i) with
  | false =>
      rcases h.allocFrame_cases with ⟨halloc, -⟩ | ⟨f, k₁, g₁, halloc, hgiven⟩
      · left
        simp only [hpresent, Bool.false_eq_true, not_false_eq_true, if_true, halloc]
      · right
        left
        have hframe := h.frame f hgiven.fresh.ne_other
        have htarget : target (target f ||| flags true user) = f :=
          (target_entry true user).trans (target_of_aligned hframe.2.1 hframe.2.2)
        refine ⟨f, k₁, g₁, rfl, hgiven, ?_⟩
        simp only [hpresent, Bool.false_eq_true, not_false_eq_true, if_true, halloc, htarget]
        rfl
  | true =>
      cases hhuge : isHuge (cell k.mem t i) with
      | true =>
          left
          simp only [hpresent, not_true_eq_false, if_false, hhuge, if_true]
      | false =>
          right
          right
          have hchild : child k.mem t i = some (target (cell k.mem t i)) :=
            child_eq_some.mpr ⟨hpresent, hhuge, rfl⟩
          cases user with
          | false =>
              refine ⟨_, k.mem, hchild, ?_, fun _ _ => rfl,
                ⟨hpresent, hhuge, rfl, rfl, id, fun _ => rfl⟩, fun hu => nomatch hu⟩
              simp only [hpresent, not_true_eq_false, if_false, hhuge, Bool.false_eq_true]
          | true =>
              have hsame := @cell_setWord_same k.mem t i _ (raised_lt (cell_lt k.mem t i))
              refine ⟨_, setWord k.mem (t + 8 * i) (cell k.mem t i ||| 4), hchild, ?_,
                fun a ha => setWord_of_outside _ ha, ?_, fun _ => ?_⟩
              · simp only [hpresent, not_true_eq_false, if_false, hhuge, Bool.false_eq_true,
                  if_true, target_raised]
              · rw [hsame]
                exact opened_raised hpresent hhuge
              · rw [hsame]
                exact isUser_raised

/-- The calls of `next_table` in `map_page`, and its last entry. -/
def Kernel.mapIn (user : Bool) (virt e : Nat) : Nat → Nat → Kernel → Bool × Kernel
  | 0, t, k => (true, { k with mem := setWord k.mem (t + 8 * index 0 virt) e })
  | n + 1, t, k =>
      match k.nextTable t (index (n + 1) virt) user with
      | (none, k) => (false, k)
      | (some t, k) => mapIn user virt e n t k

theorem mapIn_eq (user : Bool) (virt e n t : Nat) (k : Kernel) :
    k.mapIn user virt e n t =
      match Kernel.lastTable user virt n t k with
      | (none, k) => (false, k)
      | (some pt, k) => (true, { k with mem := setWord k.mem (pt + 8 * index 0 virt) e }) := by
  induction n generalizing t k with
  | zero => rfl
  | succ n ih =>
      rw [Kernel.mapIn, Kernel.lastTable]
      cases k.nextTable t (index (n + 1) virt) user with
      | mk r k₁ =>
          cases r with
          | none => rfl
          | some t₁ => exact ih t₁ k₁

theorem mapPage_eq (k : Kernel) (pml4 virt phys : Nat) (writable user : Bool) :
    k.mapPage pml4 virt phys writable user =
      k.mapIn user virt (entry phys writable user) 3 (target pml4) := by
  rw [mapIn_eq, Kernel.mapPage]
  rfl

/-! ## All levels -/

/-- What `mapIn` does from a table of level `n + 1` on. -/
structure Updated (user : Bool) (virt phys : Nat) (writable : Bool) (n t : Nat) (k k' : Kernel)
    (g g' : Ledger) (ok : Bool) : Prop where
  pool : PoolHolds k' g'
  fresh : ∀ f, g'.Fresh f → g.Fresh f
  tree : TreeHolds k'.mem g' n t
  grows : ∀ f ∈ tables k'.mem n t, f ∈ tables k.mem n t ∨ g.Fresh f
  writes : ∀ f, Aligned f → f ∉ pathTables k.mem virt n t → (g.Fresh f → g'.Fresh f) →
    SameFrame f k.mem k'.mem
  entries : ∀ i < 512, i ≠ index n virt → cell k'.mem t i = cell k.mem t i
  made : ∀ f, g.Fresh f → ¬g'.Fresh f →
    ∃ l, ∀ i < 512, i ≠ index l virt → cell k'.mem f i = 0
  others : ∀ w, (ok = true → ∃ l ≤ n, index l w ≠ index l virt) →
    SameFor user k.mem k'.mem n t w
  mapped : ok = true → leaf k'.mem virt n t = some (entry phys writable user, 12) ∧
    ∃ w, walk k'.mem virt n t = some ⟨target phys / 4096 * 4096 + virt % 4096, w, user⟩

/-- Nothing happens. -/
theorem Updated.fail (h : PoolHolds k g) (htree : TreeHolds k.mem g n t) :
    Updated user virt phys writable n t k k g g false where
  pool := h
  fresh _ := id
  tree := htree
  grows _ := Or.inl
  writes _ _ _ _ _ _ := rfl
  entries _ _ _ := rfl
  made _ hfresh hnot := absurd hfresh hnot
  others w _ := .refl user _ n t w
  mapped hok := nomatch hok

/-- What is written to a table that was given out leaves the allocator alone. -/
theorem PoolHolds.write_given (h : PoolHolds k g) (ht : Aligned t) (hgiven : ¬g.Fresh t)
    {m : Nat → UInt8} (hmem : OnlyPage t k.mem m) : PoolHolds { k with mem := m } g := by
  refine h.write (fun f hf => ?_) rfl rfl rfl
  have hfresh : g.Fresh f := Or.inl hf
  have hne : f ≠ t := by
    rintro rfl
    exact hgiven hfresh
  have hword := hmem.word ht (h.aligned_fresh hfresh) hne (show 0 < 512 by decide)
  rwa [Nat.mul_zero, Nat.add_zero] at hword

/-- The last entry is put in. -/
theorem Updated.last (h : PoolHolds k g) (ht : Aligned t) (htree : TreeHolds k.mem g 0 t) :
    Updated user virt phys writable 0 t k
      { k with mem := setWord k.mem (t + 8 * index 0 virt) (entry phys writable user) } g g
      true := by
  have hpage : OnlyPage t k.mem (setWord k.mem (t + 8 * index 0 virt) (entry phys writable user)) :=
    onlyPage_setWord ht (index_lt 0 virt)
  have hcells (i : Nat) (hi : i < 512) (hne : i ≠ index 0 virt) :
      cell (setWord k.mem (t + 8 * index 0 virt) (entry phys writable user)) t i =
        cell k.mem t i :=
    cell_setWord_of_ne ht ht (index_lt 0 virt) hi (Or.inr hne)
  have hcell : cell (setWord k.mem (t + 8 * index 0 virt) (entry phys writable user)) t
      (index 0 virt) = entry phys writable user := cell_setWord_same (entry_lt writable user)
  refine ⟨h.write_given ht htree.root hpage, fun _ => id, ⟨htree.nodup, htree.given⟩,
    fun _ => Or.inl, fun f hf hnot _ => ?_, hcells, fun _ hfresh hnot => absurd hfresh hnot,
    fun w hw => ?_, fun _ => ⟨?_, writable, ?_⟩⟩
  · refine .of_onlyPage hpage ht hf ?_
    rintro rfl
    exact hnot (List.mem_singleton_self f)
  · obtain ⟨l, hl, hne⟩ := hw rfl
    rw [Nat.le_zero.mp hl] at hne
    have hsame := hcells _ (index_lt 0 w) hne
    have hwalk : walk (setWord k.mem (t + 8 * index 0 virt) (entry phys writable user)) w 0 t =
        walk k.mem w 0 t := by rw [walk, walk, hsame]
    refine ⟨?_, ?_, fun _ => hwalk⟩
    · rw [leaf, leaf, hsame]
    · rw [hwalk]
      exact .refl _
  · rw [leaf, hcell, present_entry]
    rfl
  · rw [walk, hcell, present_entry, if_pos rfl, leafAccess, target_entry, isWritable_entry,
      isUser_entry]
    simp only [Nat.reducePow]

/-- The entry of the level leads to a table, and the rest happens from that table on. -/
theorem Updated.down (ht : Aligned t) (htree : TreeHolds k.mem g (n + 1) t)
    (hchild : child k.mem t (index (n + 1) virt) = some t₁)
    (huser : user = true → isUser (cell k.mem t (index (n + 1) virt)) = true)
    (h : Updated user virt phys writable n t₁ k k' g g' ok) :
    Updated user virt phys writable (n + 1) t k k' g g' ok := by
  have hi := index_lt (n + 1) virt
  obtain ⟨hbelow, hnotin⟩ := htree.below hi hchild
  have hroot : SameFrame t k.mem k'.mem :=
    h.writes t ht (fun hmem => hnotin (mem_tables_of_path hmem)) fun hfree =>
      absurd hfree htree.root
  have hother {j tj : Nat} (hj : j < 512) (hne : j ≠ index (n + 1) virt)
      (htj : child k.mem t j = some tj) : ∀ f ∈ tables k.mem n tj, SameFrame f k.mem k'.mem := by
    intro f hf
    refine h.writes f (aligned_of_mem_tables (aligned_of_child htj) hf) (fun hmem => ?_)
      fun hfree => absurd hfree ((htree.below hj htj).1.given f hf)
    exact htree.apart hj hi hne htj hchild hf (mem_tables_of_path hmem)
  have hopened : Opened user (cell k.mem t (index (n + 1) virt))
      (cell k'.mem t (index (n + 1) virt)) := by
    obtain ⟨hpresent, hhuge, -⟩ := child_eq_some.mp hchild
    rw [hroot.cell hi]
    exact ⟨hpresent, hhuge, rfl, rfl, id, fun _ => rfl⟩
  have hchild' : child k'.mem t (index (n + 1) virt) = some t₁ := by
    rw [child_congr (hroot.cell hi), hchild]
  refine ⟨h.pool, h.fresh, ?_, fun f hf => ?_, fun f hf hnot hfree => ?_,
    fun i hi' _ => hroot.cell hi', h.made, fun w hw => ?_, fun hok => ?_⟩
  · refine htree.replace hi h.fresh (fun j hj _ => hroot.cell hj)
      (fun j hj hne tj htj => hother hj hne htj) hchild' h.tree fun f hf => ?_
    rcases h.grows f hf with hmem | hfree
    · exact Or.inr ⟨t₁, hchild, hmem⟩
    · exact Or.inl hfree
  · rcases mem_tables_succ.mp hf with rfl | ⟨j, tj, hj, htj, hmem⟩
    · exact Or.inl (mem_tables_self _ _ _)
    · by_cases hne : j = index (n + 1) virt
      · subst hne
        rw [hchild'] at htj
        cases htj
        refine (h.grows f hmem).imp_left fun hold => ?_
        exact mem_tables_succ.mpr (Or.inr ⟨_, t₁, hj, hchild, hold⟩)
      · rw [child_congr (hroot.cell hj)] at htj
        rw [(tables_congr (hother hj hne htj)).1] at hmem
        exact Or.inl (mem_tables_succ.mpr (Or.inr ⟨j, tj, hj, htj, hmem⟩))
  · refine h.writes f hf (fun hmem => hnot ?_) hfree
    exact mem_pathTables_succ.mpr (Or.inr ⟨t₁, hchild, hmem⟩)
  · by_cases hsame : index (n + 1) w = index (n + 1) virt
    · rw [← hsame] at hchild hopened
      refine SameFor.below hchild hopened (h.others w fun hok => ?_)
      obtain ⟨l, hl, hne⟩ := hw hok
      refine ⟨l, ?_, hne⟩
      have hlast : l ≠ n + 1 := by
        rintro rfl
        exact hne hsame
      omega
    · exact .of_cell (hroot.cell (index_lt _ _)) fun tj htj =>
        (tables_congr (hother (index_lt _ _) hsame htj)).2.2 user w
  · obtain ⟨hleaf, w, hwalk⟩ := h.mapped hok
    refine ⟨?_, isWritable (cell k'.mem t (index (n + 1) virt)) && w, ?_⟩
    · rw [leaf_of_child hchild', hleaf]
    · rw [walk_of_child hchild', hwalk, Option.map_some, Access.under, hroot.cell hi]
      cases user with
      | false => rw [Bool.and_false]
      | true => rw [huser rfl, Bool.true_and]

/-- What a call of `next_table` that gives a table does to a table of level `n + 2`. -/
structure Entered (user : Bool) (virt n t : Nat) (k k₁ : Kernel) (g g₁ : Ledger) : Prop where
  pool : PoolHolds k₁ g₁
  fresh : ∀ f, g₁.Fresh f → g.Fresh f
  tree : TreeHolds k₁.mem g₁ (n + 1) t
  grows : ∀ f ∈ tables k₁.mem (n + 1) t, f ∈ tables k.mem (n + 1) t ∨ g.Fresh f
  paths : ∀ f ∈ pathTables k₁.mem virt (n + 1) t,
    f ∈ pathTables k.mem virt (n + 1) t ∨ g.Fresh f ∧ ¬g₁.Fresh f
  writes : ∀ f, Aligned f → f ≠ t → (g.Fresh f → g₁.Fresh f) → SameFrame f k.mem k₁.mem
  entries : ∀ i < 512, i ≠ index (n + 1) virt → cell k₁.mem t i = cell k.mem t i
  made : ∀ f, g.Fresh f → ¬g₁.Fresh f →
    child k₁.mem t (index (n + 1) virt) = some f ∧ ∀ i < 512, cell k₁.mem f i = 0
  others : ∀ w, SameFor user k.mem k₁.mem (n + 1) t w

/-- The level, and what happens below. -/
theorem Entered.updated (hentered : Entered user virt n t k k₁ g g₁) (ht : Aligned t)
    (hchild : child k₁.mem t (index (n + 1) virt) = some t₁)
    (huser : user = true → isUser (cell k₁.mem t (index (n + 1) virt)) = true)
    (hrest : Updated user virt phys writable n t₁ k₁ k' g₁ g' ok) :
    Updated user virt phys writable (n + 1) t k k' g g' ok := by
  have hdown := Updated.down ht hentered.tree hchild huser hrest
  refine ⟨hdown.pool, fun f hf => hentered.fresh f (hdown.fresh f hf), hdown.tree,
    fun f hf => ?_, fun f hf hnot hfree => ?_, fun i hi hne => ?_, fun f hfresh hnot => ?_,
    fun w hw => (hentered.others w).trans (hdown.others w hw), hdown.mapped⟩
  · rcases hdown.grows f hf with hmem | hfresh
    · exact hentered.grows f hmem
    · exact Or.inr (hentered.fresh f hfresh)
  · have hne : f ≠ t := by
      rintro rfl
      exact hnot (mem_pathTables_self _ _ _ _)
    have hfree₁ (hfresh : g.Fresh f) : g₁.Fresh f := hdown.fresh f (hfree hfresh)
    refine (hentered.writes f hf hne hfree₁).trans (hdown.writes f hf (fun hmem => ?_)
      fun hfresh => hfree (hentered.fresh f hfresh))
    rcases hentered.paths f hmem with hpath | ⟨hfresh, hgiven⟩
    · exact hnot hpath
    · exact hgiven (hfree₁ hfresh)
  · rw [hdown.entries i hi hne, hentered.entries i hi hne]
  · by_cases hfresh₁ : g₁.Fresh f
    · exact hrest.made f hfresh₁ hnot
    · obtain ⟨hchild₁, hzero⟩ := hentered.made f hfresh hfresh₁
      rw [hchild] at hchild₁
      cases hchild₁
      exact ⟨n, fun i hi hne => (hrest.entries i hi hne).trans (hzero i hi)⟩

/-- The entry was there. -/
theorem Entered.opened (h : PoolHolds k g) (ht : Aligned t) (htree : TreeHolds k.mem g (n + 1) t)
    {m : Nat → UInt8} (hchild : child k.mem t (index (n + 1) virt) = some t₁)
    (hwrite : ∀ a, a < t + 8 * index (n + 1) virt ∨ t + 8 * index (n + 1) virt + 8 ≤ a →
      m a = k.mem a)
    (hopened : Opened user (cell k.mem t (index (n + 1) virt))
      (cell m t (index (n + 1) virt))) :
    Entered user virt n t k { k with mem := m } g g ∧
      child m t (index (n + 1) virt) = some t₁ := by
  have hi := index_lt (n + 1) virt
  have hpage : OnlyPage t k.mem m := by
    intro a ha
    unfold Aligned at ht
    exact hwrite a (by omega)
  have hcells (j : Nat) (hne : j ≠ index (n + 1) virt) : cell m t j = cell k.mem t j :=
    readLE_congr fun a hle hlt => hwrite a (by omega)
  have hsame (f : Nat) (hf : Aligned f) (hne : f ≠ t) : SameFrame f k.mem m :=
    .of_onlyPage hpage ht hf hne
  have hbelow {j tj : Nat} (hj : j < 512) (htj : child k.mem t j = some tj) :
      ∀ f ∈ tables k.mem n tj, SameFrame f k.mem m := by
    intro f hf
    refine hsame f (aligned_of_mem_tables (aligned_of_child htj) hf) ?_
    rintro rfl
    exact (htree.below hj htj).2 hf
  have hchildren (j : Nat) : child m t j = child k.mem t j := by
    by_cases hne : j = index (n + 1) virt
    · rw [hne, hchild]
      obtain ⟨-, -, rfl⟩ := child_eq_some.mp hchild
      exact child_eq_some.mpr ⟨hopened.present, hopened.notHuge, hopened.target_eq⟩
    · exact child_congr (hcells j hne)
  have hchild' : child m t (index (n + 1) virt) = some t₁ := (hchildren _).trans hchild
  have hold (f : Nat) (hf : f ∈ tables m n t₁) : f ∈ tables k.mem n t₁ := by
    rw [(tables_congr (hbelow hi hchild)).1] at hf
    exact hf
  refine ⟨⟨h.write_given ht htree.root hpage, fun _ => id, ?_, fun f hf => Or.inl ?_,
    fun f hf => Or.inl ?_, fun f hf hne _ => hsame f hf hne, fun j _ hne => hcells j hne,
    fun f hfresh hnot => absurd hfresh hnot, fun w => ?_⟩, hchild'⟩
  · refine htree.replace hi (fun _ => id) (fun j _ hne => hcells j hne)
      (fun j hj _ tj htj => hbelow hj htj) hchild'
      ((htree.below hi hchild).1.congr (hbelow hi hchild) fun _ => id) fun f hf =>
        Or.inr ⟨t₁, hchild, hold f hf⟩
  · rcases mem_tables_succ.mp hf with rfl | ⟨j, tj, hj, htj, hmem⟩
    · exact mem_tables_self _ _ _
    · rw [show child m t j = _ from hchildren j] at htj
      refine mem_tables_succ.mpr (Or.inr ⟨j, tj, hj, htj, ?_⟩)
      rw [(tables_congr (hbelow hj htj)).1] at hmem
      exact hmem
  · rcases mem_pathTables_succ.mp hf with rfl | ⟨tj, htj, hmem⟩
    · exact mem_pathTables_self _ _ _ _
    · rw [show child m t _ = _ from hchildren _] at htj
      refine mem_pathTables_succ.mpr (Or.inr ⟨tj, htj, ?_⟩)
      rw [(tables_congr (hbelow (index_lt _ _) htj)).2.1 virt] at hmem
      exact hmem
  · by_cases hsame' : index (n + 1) w = index (n + 1) virt
    · rw [← hsame'] at hchild hopened hi
      exact .below hchild hopened ((tables_congr (hbelow hi hchild)).2.2 user w)
    · exact .of_cell (hcells _ hsame') fun tj htj =>
        (tables_congr (hbelow (index_lt _ _) htj)).2.2 user w

/-- The entry was made, for a frame that the allocator gave out. -/
theorem Entered.new {k₀ : Kernel} (h : PoolHolds k g) (ht : Aligned t)
    (htree : TreeHolds k.mem g (n + 1) t)
    (habsent : present (cell k.mem t (index (n + 1) virt)) = false)
    (hgiven : GivenOut k k₀ g g₁ f) :
    Entered user virt n t k
        { k₀ with mem := setWord k₀.mem (t + 8 * index (n + 1) virt) (entry f true user) } g g₁ ∧
      child (setWord k₀.mem (t + 8 * index (n + 1) virt) (entry f true user)) t
        (index (n + 1) virt) = some f ∧
      cell (setWord k₀.mem (t + 8 * index (n + 1) virt) (entry f true user)) t
        (index (n + 1) virt) = entry f true user ∧
      TreeHolds (setWord k₀.mem (t + 8 * index (n + 1) virt) (entry f true user)) g₁ n f := by
  have hi := index_lt (n + 1) virt
  obtain ⟨-, hf, hflt⟩ := h.frame f hgiven.fresh.ne_other
  have htf : t ≠ f := by
    rintro rfl
    exact htree.root hgiven.fresh
  have huse (f' : Nat) (hne : f' ≠ f) : g₁.use f' = g.use f' := by
    rw [hgiven.use_eq, Ledger.set_use_of_ne _ _ hne]
  have hheld : g₁.use f = .held := by rw [hgiven.use_eq, Ledger.set_use_self]
  have hnotfresh : ¬g₁.Fresh f := fun hfresh => hfresh.ne_held hheld
  have hfresh (f' : Nat) (hf' : g₁.Fresh f') : g.Fresh f' := by
    have hne : f' ≠ f := by
      rintro rfl
      exact hnotfresh hf'
    unfold Ledger.Fresh at hf' ⊢
    rwa [huse f' hne] at hf'
  have hroot₁ : ¬g₁.Fresh t := fun hfree => htree.root (hfresh t hfree)
  have hzeroed : OnlyPage f k.mem k₀.mem := by
    rw [hgiven.mem_eq]
    exact onlyPage_overlay hf (Nat.le_refl _)
  generalize hm : setWord k₀.mem (t + 8 * index (n + 1) virt) (entry f true user) = m
  have hpage : OnlyPage t k₀.mem m := by
    rw [← hm]
    exact onlyPage_setWord ht hi
  have hentry : cell m t (index (n + 1) virt) = entry f true user := by
    rw [← hm]
    exact cell_setWord_same (entry_lt true user)
  have hcells (j : Nat) (hj : j < 512) (hne : j ≠ index (n + 1) virt) :
      cell m t j = cell k.mem t j := by
    rw [← hm, cell_setWord_of_ne ht ht hi hj (Or.inr hne)]
    exact cell_of_onlyPage hzeroed hf ht htf hj
  have hsame (f' : Nat) (hf' : Aligned f') (hne : f' ≠ t) (hne' : f' ≠ f) :
      SameFrame f' k.mem m :=
    (SameFrame.of_onlyPage hzeroed hf hf' hne').trans (.of_onlyPage hpage ht hf' hne)
  have hzero (j : Nat) (hj : j < 512) : cell m f j = 0 := by
    rw [cell_of_onlyPage hpage ht hf (Ne.symm htf) hj, hgiven.mem_eq]
    exact cell_zeroed hj
  have hnone (j : Nat) (hj : j < 512) : present (cell m f j) = false := by
    rw [hzero j hj]
    exact present_zero
  obtain ⟨htables, hpaths, hwalks⟩ := @tables_of_absent m n f hnone
  have hchild : child m t (index (n + 1) virt) = some f := by
    refine child_eq_some.mpr ?_
    rw [hentry, target_entry]
    exact ⟨present_entry true user, isHuge_entry true user, target_of_aligned hf hflt⟩
  have hbelow {j tj : Nat} (hj : j < 512) (htj : child k.mem t j = some tj) :
      ∀ f' ∈ tables k.mem n tj, SameFrame f' k.mem m := by
    intro f' hf'
    obtain ⟨htreej, hnotin⟩ := htree.below hj htj
    refine hsame f' (aligned_of_mem_tables (aligned_of_child htj) hf') ?_ ?_
    · rintro rfl
      exact hnotin hf'
    · rintro rfl
      exact htreej.given f' hf' hgiven.fresh
  have htreef : TreeHolds m g₁ n f := by
    refine ⟨htables ▸ List.nodup_singleton f, fun f' hf' => ?_⟩
    rw [htables] at hf'
    rw [List.mem_singleton.mp hf']
    exact hnotfresh
  refine ⟨⟨hgiven.pool.write_given ht hroot₁ hpage, hfresh, ?_, fun f' hf' => ?_,
    fun f' hf' => ?_, fun f' hf' hne hfree => ?_, hcells, fun f' hf' hnot => ?_, fun w => ?_⟩,
    hchild, hentry, htreef⟩
  · refine htree.replace hi hfresh hcells (fun j hj _ tj htj => hbelow hj htj) hchild htreef
      fun f' hf' => Or.inl ?_
    rw [htables] at hf'
    rw [List.mem_singleton.mp hf']
    exact hgiven.fresh
  · rcases mem_tables_succ.mp hf' with rfl | ⟨j, tj, hj, htj, hmem⟩
    · exact Or.inl (mem_tables_self _ _ _)
    · by_cases hne : j = index (n + 1) virt
      · subst hne
        rw [show child m t _ = _ from hchild] at htj
        cases htj
        rw [show tables m n f = _ from htables] at hmem
        rw [List.mem_singleton.mp hmem]
        exact Or.inr hgiven.fresh
      · rw [show child m t j = _ from child_congr (hcells j hj hne)] at htj
        refine Or.inl (mem_tables_succ.mpr (Or.inr ⟨j, tj, hj, htj, ?_⟩))
        rw [(tables_congr (hbelow hj htj)).1] at hmem
        exact hmem
  · rcases mem_pathTables_succ.mp hf' with rfl | ⟨tj, htj, hmem⟩
    · exact Or.inl (mem_pathTables_self _ _ _ _)
    · rw [show child m t _ = _ from hchild] at htj
      cases htj
      rw [show pathTables m virt n f = _ from hpaths virt] at hmem
      rw [List.mem_singleton.mp hmem]
      exact Or.inr ⟨hgiven.fresh, hnotfresh⟩
  · refine hsame f' hf' hne ?_
    rintro rfl
    exact hnotfresh (hfree hgiven.fresh)
  · have heq : f' = f := by
      by_contra hne
      refine hnot ?_
      unfold Ledger.Fresh at hf' ⊢
      rwa [huse f' hne]
    rw [heq]
    exact ⟨hchild, hzero⟩
  · by_cases hw : index (n + 1) w = index (n + 1) virt
    · have hbefore : present (cell k.mem t (index (n + 1) w)) = false := by
        rw [hw]
        exact habsent
      have hchildw : child m t (index (n + 1) w) = some f := by
        rw [hw]
        exact hchild
      have hleaf : leaf m w (n + 1) t = leaf k.mem w (n + 1) t := by
        rw [leaf_of_child hchildw, (hwalks w).1, leaf, hbefore]
        rfl
      have hold : walk k.mem w (n + 1) t = none := by
        rw [walk, hbefore]
        rfl
      have hwalk : walk m w (n + 1) t = none := by
        rw [walk_of_child hchildw, (hwalks w).2]
        rfl
      refine ⟨hleaf, ?_, fun _ => hwalk.trans hold.symm⟩
      rw [show walk m w (n + 1) t = _ from hwalk, hold]
      exact .refl _
    · exact .of_cell (hcells _ (index_lt _ _) hw) fun tj htj =>
        (tables_congr (hbelow (index_lt _ _) htj)).2.2 user w

/-- `mapIn` fails with nothing translated in another way, or puts the entry in. -/
theorem mapIn_updated (h : PoolHolds k g) (ht : Aligned t) (htree : TreeHolds k.mem g n t)
    (virt phys : Nat) (writable user : Bool) :
    ∃ ok k' g', k.mapIn user virt (entry phys writable user) n t = (ok, k') ∧
      Updated user virt phys writable n t k k' g g' ok := by
  induction n generalizing t k g with
  | zero => exact ⟨true, _, g, rfl, .last h ht htree⟩
  | succ n ih =>
      rw [Kernel.mapIn]
      rcases h.nextTable_cases t (index (n + 1) virt) user with hnone |
        ⟨f, k₀, g₁, habsent, hgiven, hnext⟩ | ⟨t₁, m, hchild, hnext, hwrite, hopened, huser⟩
      · rw [hnone]
        exact ⟨false, k, g, rfl, .fail h htree⟩
      · rw [hnext]
        obtain ⟨hentered, hchild, hcell, hbelow⟩ := Entered.new h ht htree habsent hgiven
        have hf := h.aligned_fresh hgiven.fresh
        obtain ⟨ok, k', g', hrun, hrest⟩ := ih hentered.pool hf hbelow
        refine ⟨ok, k', g', hrun, hentered.updated ht hchild (fun hu => ?_) hrest⟩
        rw [show cell _ t _ = _ from hcell, isUser_entry, hu]
      · rw [hnext]
        obtain ⟨hentered, hchild'⟩ := Entered.opened h ht htree hchild hwrite hopened
        obtain ⟨ok, k', g', hrun, hrest⟩ := ih hentered.pool (aligned_of_child hchild)
          (hentered.tree.below (index_lt _ _) hchild').1
        exact ⟨ok, k', g', hrun, hentered.updated ht hchild' huser hrest⟩

/-! ## `map_page` -/

/-- Canonical addresses of different pages differ in some index. -/
theorem index_ne_of_page {w virt : Nat} (hw : Canonical w) (hvirt : Canonical virt)
    (hne : w / 4096 ≠ virt / 4096) : ∃ l ≤ 3, index l w ≠ index l virt := by
  by_contra hnot
  push Not at hnot
  have h0 : w / 4096 % 512 = virt / 4096 % 512 := hnot 0 (by decide)
  have h1 : w / 2097152 % 512 = virt / 2097152 % 512 := hnot 1 (by decide)
  have h2 : w / 1073741824 % 512 = virt / 1073741824 % 512 := hnot 2 (by decide)
  have h3 : w / 549755813888 % 512 = virt / 549755813888 % 512 := hnot 3 (by decide)
  unfold Canonical at hw hvirt
  omega

/-- For every tree of tables that the allocator has no frame of, `map_page` gives the frame with
the rights of the last entry, and user access through all levels; every other page ends at the same
entry as before, and so does every page if the call fails; and only tables of the way and frames
that were given out, which are zero but for one entry, are written to. -/
theorem mapPage_updates (h : PoolHolds k g) {pml4 : Nat}
    (htree : TreeHolds k.mem g 3 (target pml4)) (hvirt : Canonical virt) (hphys : Aligned phys)
    (hlt : phys < 2 ^ 52) (writable user : Bool) :
    ∃ ok k' g', k.mapPage pml4 virt phys writable user = (ok, k') ∧
      PoolHolds k' g' ∧ TreeHolds k'.mem g' 3 (target pml4) ∧
      (ok = true → leaf k'.mem virt 3 (target pml4) = some (entry phys writable user, 12) ∧
        ∃ above, translate k'.mem pml4 virt = some ⟨phys + virt % 4096, above, user⟩) ∧
      (∀ w, Canonical w → (ok = true → w / 4096 ≠ virt / 4096) →
        SameFor user k.mem k'.mem 3 (target pml4) w) ∧
      ∀ a, k'.mem a ≠ k.mem a → pageDown a ∈ pathTables k.mem virt 3 (target pml4) ∨
        g.Fresh (pageDown a) ∧ ¬g'.Fresh (pageDown a) ∧
          ∃ l, ∀ i < 512, i ≠ index l virt → cell k'.mem (pageDown a) i = 0 := by
  obtain ⟨ok, k', g', hrun, hupdated⟩ :=
    mapIn_updated h (aligned_target pml4) htree virt phys writable user
  refine ⟨ok, k', g', (mapPage_eq k pml4 virt phys writable user).trans hrun, hupdated.pool,
    hupdated.tree, fun hok => ?_, fun w hw hne => ?_, fun a ha => ?_⟩
  · obtain ⟨hleaf, above, hwalk⟩ := hupdated.mapped hok
    refine ⟨hleaf, above, ?_⟩
    have hpage : phys / 4096 * 4096 = phys := by
      unfold Aligned at hphys
      omega
    rw [translate, if_pos hvirt, hwalk, target_of_aligned hphys hlt, hpage]
  · exact hupdated.others w fun hok => index_ne_of_page hw hvirt (hne hok)
  · by_cases hpath : pageDown a ∈ pathTables k.mem virt 3 (target pml4)
    · exact Or.inl hpath
    have hchanged : ¬(g.Fresh (pageDown a) → g'.Fresh (pageDown a)) := by
      intro hfree
      have hsame := hupdated.writes _ (aligned_pageDown a) hpath hfree (a % 4096) (by omega)
      have hle : a % 4096 ≤ a := Nat.mod_le _ _
      rw [pageDown, Nat.sub_add_cancel hle] at hsame
      exact ha hsame
    rw [Classical.not_imp] at hchanged
    exact Or.inr ⟨hchanged.1, hchanged.2, hupdated.made _ hchanged.1 hchanged.2⟩

/-- A pool of four frames, and nothing else. -/
def fourFrames : Kernel := { Kernel.blank with poolNext := 0x1000, poolEnd := 0x5000 }

/-- The frames of `fourFrames` are unused. -/
def fourUnused : Ledger where
  use f := if Aligned f ∧ 0x1000 ≤ f ∧ f + 4096 ≤ 0x5000 then .unused else .other
  free := []

theorem fourUnused_use (f : Nat) :
    fourUnused.use f = .unused ∧ Aligned f ∧ 0x1000 ≤ f ∧ f + 4096 ≤ 0x5000 ∨
      fourUnused.use f = .other ∧ ¬(Aligned f ∧ 0x1000 ≤ f ∧ f + 4096 ≤ 0x5000) := by
  by_cases h : Aligned f ∧ 0x1000 ≤ f ∧ f + 4096 ≤ 0x5000
  · exact Or.inl ⟨if_pos h, h⟩
  · exact Or.inr ⟨if_neg h, h⟩

theorem fourFrames_holds : PoolHolds fourFrames fourUnused where
  frame f hf := by
    rcases fourUnused_use f with ⟨-, haligned, hle, hend⟩ | ⟨hother, -⟩
    · exact ⟨by omega, haligned, by omega⟩
    · exact absurd hother hf
  aligned := rfl
  next_lt := by decide
  end_le := by decide
  unused f := by
    rcases fourUnused_use f with ⟨hunused, haligned, hle, hend⟩ | ⟨hother, hnot⟩
    · exact iff_of_true hunused ⟨by decide, haligned, hle, hend⟩
    · rw [hother]
      exact iff_of_false Use.noConfusion fun h => hnot h.2
  threaded := .nil
  nodup := .nil
  mem_free f := by
    rcases fourUnused_use f with ⟨huse, -⟩ | ⟨huse, -⟩ <;> rw [huse] <;>
      exact iff_of_false List.not_mem_nil Use.noConfusion

/-- Under a table without entries the page gets three tables and the frame. -/
theorem mapPage_updates_fourFrames :
    ∃ k', fourFrames.mapPage 0x8000 0 0x9000 true true = (true, k') ∧
      leaf k'.mem 0 3 0x8000 = some (entry 0x9000 true true, 12) ∧
      ∀ w, Canonical w → w / 4096 ≠ 0 → leaf k'.mem w 3 0x8000 = none := by
  have habsent (i : Nat) (_ : i < 512) : present (cell fourFrames.mem 0x8000 i) = false := by
    rw [show cell fourFrames.mem 0x8000 i = 0 from word_zero _]
    exact present_zero
  obtain ⟨htables, -, hwalks⟩ := @tables_of_absent fourFrames.mem 3 0x8000 habsent
  have htree : TreeHolds fourFrames.mem fourUnused 3 (target 0x8000) := by
    rw [show target 0x8000 = 0x8000 from rfl]
    refine ⟨htables ▸ List.nodup_singleton _, fun f hf hfresh => ?_⟩
    rw [htables] at hf
    rw [List.mem_singleton.mp hf] at hfresh
    rcases hfresh with h | h <;> cases h
  obtain ⟨ok, k', g', hrun, -, -, hmapped, hothers, -⟩ :=
    @mapPage_updates fourFrames fourUnused 0 0x9000 fourFrames_holds 0x8000 htree (by decide) rfl
      (by decide) true true
  have hok : (fourFrames.mapPage 0x8000 0 0x9000 true true).1 = true := by decide +kernel
  rw [hrun] at hok
  cases hok
  refine ⟨k', hrun, (hmapped rfl).1, fun w hw hne => ?_⟩
  exact (hothers w hw fun _ => hne).leaf_eq.trans (hwalks w).1

end PureOS.Memory
