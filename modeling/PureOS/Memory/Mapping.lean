import PureOS.Memory.Growth

set_option autoImplicit false

/-!
# Memory: what `map_page` maps

After a success the address translates to the frame with the rights that were asked for.
Under every root, other pages translate as before, but for rights that user space may
gain; and a failure maps nothing at all.
-/

namespace PureOS.Memory

open PureOS.Foundation PureOS.Process

/-- The part of an address that is decoded: the number of its page. -/
def pageNo (virt : Nat) : Nat := virt / 4096 % 2 ^ 36

theorem pageNo_eq (virt : Nat) : prefixOf virt 3 0 * 512 + index 0 virt = pageNo virt := by
  change (((0 * 512 + virt / 549755813888 % 512) * 512 + virt / 1073741824 % 512) * 512 +
    virt / 2097152 % 512) * 512 + virt / 4096 % 512 = virt / 4096 % 68719476736
  omega

/-- The entries for an address let accesses through, and the last one is for the frame. -/
def MapsTo (m : Nat → UInt8) (root virt phys : Nat) (writable user : Bool) : Prop :=
  ∃ pt, Path user m virt 3 root pt ∧ cell m pt (index 0 virt) = entry phys writable user

/-- The second translation is the first one, with more rights for user space. -/
def Wider (a a' : Option Access) : Prop :=
  match a with
  | none => a' = none
  | some x => ∃ y, a' = some y ∧ y.phys = x.phys ∧ y.writable = x.writable ∧
      (x.user = true → y.user = true)

theorem Wider.refl (a : Option Access) : Wider a a := by
  cases a with
  | none => rfl
  | some x => exact ⟨x, rfl, rfl, rfl, id⟩

theorem Wider.under {e e' : Nat} {a a' : Option Access} (h : Wider a a')
    (hw : isWritable e' = isWritable e) (hu : isUser e = true → isUser e' = true) :
    Wider (a.map (Access.under e)) (a'.map (Access.under e')) := by
  cases a with
  | none =>
      have hnone : a' = none := h
      rw [hnone]
      rfl
  | some x =>
      obtain ⟨y, rfl, hphys, hwritable, huser⟩ := h
      refine ⟨y.under e', rfl, hphys, ?_, ?_⟩
      · change (isWritable e' && y.writable) = (isWritable e && x.writable)
        rw [hw, hwritable]
      · intro hx
        have hboth : (isUser e && x.user) = true := hx
        rw [Bool.and_eq_true] at hboth
        change (isUser e' && y.user) = true
        rw [Bool.and_eq_true]
        exact ⟨hu hboth.1, huser hboth.2⟩

/-- What user space can reach keeps its frame and its rights. -/
theorem Wider.eq_of_user {a a' : Option Access} {x : Access} (h : Wider a a') (ha : a = some x)
    (hx : x.user = true) : a' = a := by
  subst ha
  obtain ⟨⟨phys, writable, user⟩, rfl, hphys, hwritable, huser⟩ := h
  obtain ⟨phys', writable', user'⟩ := x
  cases hphys
  cases hwritable
  cases hx
  cases huser rfl
  rfl

variable {L : Layout} {k k' : Kernel} {g g' : Ledger} {m m' : Nat → UInt8}
variable {S : Nat → Prop} {virt phys : Nat} {writable user : Bool}

/-! ## The walk -/

/-- Nothing is reached through a new table but what was entered there. -/
theorem walk_new (hg : Grown S k k' g g') (h' : TablesHold L k'.mem g') {n t pre : Nat}
    (hnew : g.New t) (ht : g'.use t = .table n pre)
    (hnot : ¬S (prefixOf virt n pre * 512 + index 0 virt)) : walk k'.mem virt n t = none := by
  induction n generalizing t pre with
  | zero =>
      rw [walk]
      cases hp : present (cell k'.mem t (index 0 virt)) with
      | false => rfl
      | true => exact absurd ((hg.made t 0 pre hnew ht _ (index_lt _ _) hp).1 rfl) hnot
  | succ n ih =>
      rw [walk]
      cases hp : present (cell k'.mem t (index (n + 1) virt)) with
      | false => rfl
      | true =>
          obtain ⟨hhuge, hnew'⟩ :=
            (hg.made t (n + 1) pre hnew ht _ (index_lt _ _) hp).2 (Nat.succ_ne_zero n)
          have hchild := (h'.child t n pre ht _ (index_lt _ _) hp hhuge).1
          simp only [not_true_eq_false, if_false, hhuge, Bool.false_eq_true]
          rw [ih hnew' hchild hnot]
          rfl

/-- A page that nothing was entered for translates as before. -/
theorem walk_grown (h : TablesHold L k.mem g) (hg : Grown S k k' g g')
    (h' : TablesHold L k'.mem g') {n t pre : Nat} (ht : g.use t = .table n pre)
    (hnot : ¬S (prefixOf virt n pre * 512 + index 0 virt)) :
    Wider (walk k.mem virt n t) (walk k'.mem virt n t) := by
  induction n generalizing t pre with
  | zero =>
      rw [walk, walk, hg.last t pre ht _ (index_lt _ _) hnot]
      exact .refl _
  | succ n ih =>
      have hcell := hg.above t n pre ht _ (index_lt (n + 1) virt)
      rw [walk, walk]
      cases hp : present (cell k.mem t (index (n + 1) virt)) with
      | false =>
          rcases hcell.made hp with heq | ⟨hp', hhuge', hnew⟩
          · rw [heq, hp]
            exact .refl _
          · have hchild :=
              (h'.child t n pre (hg.table ht) _ (index_lt _ _) hp' hhuge').1
            simp only [Bool.false_eq_true, not_false_eq_true, if_true, hp', not_true_eq_false,
              if_false, hhuge']
            rw [walk_new hg h' hnew hchild hnot]
            rfl
      | true =>
          obtain ⟨hp', hhuge', htarget, hw, hu⟩ := hcell.kept hp
          cases hhuge : isHuge (cell k.mem t (index (n + 1) virt)) with
          | true =>
              rw [hcell.huge hhuge hp, hp, hhuge]
              exact .refl _
          | false =>
              have hchild := (h.child t n pre ht _ (index_lt _ _) hp hhuge).1
              rw [hhuge] at hhuge'
              simp only [not_true_eq_false, if_false, Bool.false_eq_true, hp', hhuge', htarget]
              exact (ih hchild hnot).under hw hu

/-- A page that nothing was entered for translates as before, under every root. -/
theorem translate_grown (h : TablesHold L k.mem g) (hg : Grown S k k' g g')
    (h' : TablesHold L k'.mem g') {root : Nat} (hroot : g.use (target root) = .table 3 0)
    (hnot : ¬S (pageNo virt)) :
    Wider (translate k.mem root virt) (translate k'.mem root virt) := by
  rw [translate, translate]
  split
  · refine walk_grown h hg h' hroot ?_
    rwa [pageNo_eq]
  · exact .refl _

/-- What an open way to an entry gives. -/
theorem walk_of_path {n t pt : Nat} (hpath : Path user m virt n t pt)
    (hcell : cell m pt (index 0 virt) = entry phys writable user) :
    walk m virt n t = some ⟨target phys / 4096 * 4096 + virt % 4096, writable, user⟩ := by
  induction hpath with
  | last =>
      rw [walk, hcell, present_entry, if_pos rfl, leafAccess, target_entry, isWritable_entry,
        isUser_entry]
      simp only [Nat.reducePow]
  | @down n t pt opens _ ih =>
      rw [walk]
      simp only [opens.present, opens.notHuge, not_true_eq_false, if_false, Bool.false_eq_true]
      rw [ih hcell, Option.map_some, Access.under]
      dsimp only
      rw [opens.writable, Bool.true_and]
      cases user with
      | false => rw [Bool.and_false]
      | true => rw [opens.user rfl, Bool.true_and]

/-- A mapped page is a page of the frame. -/
theorem MapsTo.translate {root : Nat} (h : MapsTo m (target root) virt phys writable user)
    (hvirt : Canonical virt) (haligned : Aligned phys) (hlt : phys < 2 ^ 52) :
    translate m root virt = some ⟨phys + virt % 4096, writable, user⟩ := by
  obtain ⟨pt, hpath, hcell⟩ := h
  have hpage : phys / 4096 * 4096 = phys := by
    unfold Aligned at haligned
    omega
  rw [Memory.translate, if_pos hvirt, walk_of_path hpath hcell, target_of_aligned haligned hlt,
    hpage]

/-- A page stays mapped while other pages are mapped. -/
theorem MapsTo.grown (h : TablesHold L k.mem g) (hg : Grown S k k' g g') {root : Nat}
    (hroot : g.use root = .table 3 0) (hmaps : MapsTo k.mem root virt phys writable user)
    (hnot : ¬S (pageNo virt)) : MapsTo k'.mem root virt phys writable user := by
  obtain ⟨pt, hpath, hcell⟩ := hmaps
  have hpt := hpath.table h hroot
  refine ⟨pt, hpath.mono h hg.above hroot, ?_⟩
  rw [hg.last pt _ hpt _ (index_lt _ _) (by rwa [pageNo_eq])]
  exact hcell

/-- A page stays mapped while no entry of a table changes. -/
theorem MapsTo.congr (h : TablesHold L m g)
    (hcell : ∀ t n pre, g.use t = .table n pre → ∀ i < 512, cell m' t i = cell m t i)
    {root : Nat} (hroot : g.use root = .table 3 0) (hmaps : MapsTo m root virt phys writable user) :
    MapsTo m' root virt phys writable user := by
  obtain ⟨pt, hpath, hlast⟩ := hmaps
  have hpt := hpath.table h hroot
  refine ⟨pt, hpath.mono h (fun t n pre ht i hi => ?_) hroot, ?_⟩
  · rw [hcell t _ pre ht i hi]
    exact .refl g _
  · rw [hcell pt 0 _ hpt _ (index_lt _ _)]
    exact hlast

/-! ## `map_page` -/

/-- An entry is put into a last table. -/
theorem leaf_grown (h : Holds L k g) {pt pre i e : Nat} (hpt : g.use pt = .table 0 pre)
    (hi : i < 512) (he : e < 2 ^ 64) :
    Holds L { k with mem := setWord k.mem (pt + 8 * i) e } g ∧
      Grown (· = pre * 512 + i) k { k with mem := setWord k.mem (pt + 8 * i) e } g g := by
  have hcell : ∀ t n pre' i', g.use t = .table n pre' → i' < 512 → t ≠ pt ∨ i' ≠ i →
      cell (setWord k.mem (pt + 8 * i) e) t i' = cell k.mem t i' :=
    fun t n pre' i' ht hi' hne =>
      cell_setWord_of_ne (h.aligned_table hpt) (h.aligned_table ht) hi hi' hne
  refine ⟨⟨?_, ?_, h.owners.congr rfl rfl⟩, fun _ _ => rfl, ?_, ?_, ?_, ?_, Nat.le_refl _⟩
  · exact h.pool.write (fun f hf => h.word_free hpt hi hf) rfl rfl rfl
  · refine h.tables.setCell he (fun t n pre => h.aligned_table) hpt hi ?_
    rintro n' heq
    cases heq
  · intro a ha
    refine h.setWord_keeps hpt hi ?_
    rcases ha with ha | ha <;> rw [ha] <;> exact Use.noConfusion
  · intro t pre' ht i' hi' hnot
    refine hcell t 0 pre' i' ht hi' ?_
    by_cases htt : t = pt
    · refine Or.inr fun hii => hnot ?_
      rw [htt, hpt] at ht
      cases ht
      rw [hii]
    · exact Or.inl htt
  · intro t n pre' ht i' hi'
    have hne : t ≠ pt := by
      rintro rfl
      rw [hpt] at ht
      cases ht
    change EntryGrown g _ (cell (setWord k.mem (pt + 8 * i) e) t i')
    rw [hcell t _ pre' i' ht hi' (Or.inl hne)]
    exact .refl g _
  · intro t n pre' hnew ht
    exact absurd ht (hnew n pre')

/-- `map_page` fails and maps nothing, or maps the page. -/
theorem mapPage_cases (h : Holds L k g) {pml4 : Nat} (hroot : g.use (target pml4) = .table 3 0)
    (virt phys : Nat) (writable user : Bool) :
    (∃ k' g', k.mapPage pml4 virt phys writable user = (false, k') ∧ Holds L k' g' ∧
      Grown noPage k k' g g') ∨
    ∃ k' g', k.mapPage pml4 virt phys writable user = (true, k') ∧ Holds L k' g' ∧
      Grown (· = pageNo virt) k k' g g' ∧
      MapsTo k'.mem (target pml4) virt phys writable user := by
  obtain ⟨r, k₁, g₁, hlast, h₁, hgrown, hpath⟩ := lastTable_cases user virt 3 h hroot
  cases r with
  | none =>
      refine Or.inl ⟨k₁, g₁, ?_, h₁, hgrown⟩
      rw [Kernel.mapPage, hlast]
  | some pt =>
      have hroot₁ := hgrown.table hroot
      have hway := hpath pt rfl
      have hpt := hway.table h₁.tables hroot₁
      obtain ⟨h₂, hleaf⟩ := leaf_grown h₁ hpt (index_lt 0 virt)
        (@entry_lt phys writable user)
      rw [pageNo_eq] at hleaf
      refine Or.inr ⟨_, g₁, ?_, h₂, (hgrown.mono fun _ hv => hv.elim).trans hleaf, ?_⟩
      · rw [Kernel.mapPage, hlast]
        rfl
      · exact ⟨pt, hway.mono h₁.tables hleaf.above hroot₁, cell_setWord_same (entry_lt _ _)⟩

/-! ## Addresses in a page -/

variable {va n root : Nat}

theorem index_of_pageNo (hpage : pageNo va = pageNo virt) (hn : n ≤ 3) :
    index n va = index n virt := by
  unfold pageNo at hpage
  obtain rfl | rfl | rfl | rfl : n = 0 ∨ n = 1 ∨ n = 2 ∨ n = 3 := by omega
  all_goals
    unfold index
    omega

theorem Path.page {t pt : Nat} (hpage : pageNo va = pageNo virt) (hn : n ≤ 3)
    (h : Path user m va n t pt) : Path user m virt n t pt := by
  induction h with
  | last t => exact .last t
  | @down n t pt opens _ ih =>
      have hrest := ih (by omega)
      rw [index_of_pageNo hpage hn] at opens hrest
      exact .down opens hrest

theorem MapsTo.page (hpage : pageNo va = pageNo virt)
    (h : MapsTo m root va phys writable user) : MapsTo m root virt phys writable user := by
  obtain ⟨pt, hpath, hcell⟩ := h
  refine ⟨pt, hpath.page hpage (Nat.le_refl 3), ?_⟩
  rw [← index_of_pageNo hpage (Nat.zero_le 3)]
  exact hcell

end PureOS.Memory
