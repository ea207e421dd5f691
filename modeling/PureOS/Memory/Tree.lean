import Mathlib.Data.List.Nodup
import Mathlib.Data.List.Pairwise
import PureOS.Memory.Mapping

set_option autoImplicit false

/-!
# Memory: the tree of tables

The tables under a root are read off memory.  If each of them is reached in one way, and the
allocator has none of them, then what is written to one is not seen in the others, and an entry
can be given a table of its own.
-/

namespace PureOS.Memory

open PureOS.Foundation

/-- The table that an entry above the last level leads to. -/
def child (m : Nat → UInt8) (t i : Nat) : Option Nat :=
  if present (cell m t i) = true ∧ isHuge (cell m t i) = false then some (target (cell m t i))
  else none

/-- The tables that are reached from a table of level `n + 1`, itself the first. -/
def tables (m : Nat → UInt8) : Nat → Nat → List Nat
  | 0, t => [t]
  | n + 1, t => t :: (List.range 512).flatMap fun i => (child m t i).elim [] (tables m n)

/-- Those of them that an address goes through. -/
def pathTables (m : Nat → UInt8) (virt : Nat) : Nat → Nat → List Nat
  | 0, t => [t]
  | n + 1, t => t :: (child m t (index (n + 1) virt)).elim [] (pathTables m virt n)

/-- The last entry of the walk for an address, and the number of bits that it leaves. -/
def leaf (m : Nat → UInt8) (virt : Nat) : Nat → Nat → Option (Nat × Nat)
  | 0, t =>
      let e := cell m t (index 0 virt)
      if present e then some (e, 12) else none
  | n + 1, t =>
      let e := cell m t (index (n + 1) virt)
      if ¬present e then none
      else if isHuge e then
        if n + 1 = 3 then none else some (e, 12 + 9 * (n + 1))
      else leaf m virt n (target e)

/-- Each table is reached in one way, and was given out by the allocator or is none of its
frames. -/
structure TreeHolds (m : Nat → UInt8) (g : Ledger) (n t : Nat) : Prop where
  nodup : (tables m n t).Nodup
  given : ∀ f ∈ tables m n t, ¬g.Fresh f

/-- An address is translated as before, by the same last entry. Rights of user space may be
wider, but only if `user` was asked for. -/
structure SameFor (user : Bool) (m m' : Nat → UInt8) (n t virt : Nat) : Prop where
  leaf_eq : leaf m' virt n t = leaf m virt n t
  wider : Wider (walk m virt n t) (walk m' virt n t)
  walk_eq : user = false → walk m' virt n t = walk m virt n t

variable {m m' m'' : Nat → UInt8} {g g' : Ledger} {n t t' i virt f : Nat} {user : Bool}

theorem child_eq_some :
    child m t i = some t' ↔
      present (cell m t i) = true ∧ isHuge (cell m t i) = false ∧ target (cell m t i) = t' := by
  unfold child
  split
  · rename_i h
    rw [Option.some_inj]
    exact ⟨fun heq => ⟨h.1, h.2, heq⟩, fun heq => heq.2.2⟩
  · rename_i h
    exact iff_of_false (fun heq => nomatch heq) fun hall => h ⟨hall.1, hall.2.1⟩

theorem aligned_of_child (h : child m t i = some t') : Aligned t' := by
  obtain ⟨-, -, rfl⟩ := child_eq_some.mp h
  exact aligned_target _

theorem child_congr (h : cell m' t i = cell m t i) : child m' t i = child m t i := by
  unfold child
  rw [h]

/-! ## The tables of a tree -/

theorem mem_tables_self (m : Nat → UInt8) (n t : Nat) : t ∈ tables m n t := by
  cases n with
  | zero => exact List.mem_singleton_self t
  | succ n => exact List.mem_cons_self

theorem mem_pathTables_self (m : Nat → UInt8) (virt n t : Nat) : t ∈ pathTables m virt n t := by
  cases n with
  | zero => exact List.mem_singleton_self t
  | succ n => exact List.mem_cons_self

/-- The tables below are those that the entries lead to. -/
theorem mem_tables_succ :
    f ∈ tables m (n + 1) t ↔
      f = t ∨ ∃ i t', i < 512 ∧ child m t i = some t' ∧ f ∈ tables m n t' := by
  rw [tables, List.mem_cons, List.mem_flatMap]
  refine or_congr_right ⟨?_, ?_⟩
  · rintro ⟨i, hi, hf⟩
    cases hchild : child m t i with
    | none =>
        rw [hchild] at hf
        exact absurd hf List.not_mem_nil
    | some t' =>
        rw [hchild] at hf
        exact ⟨i, t', List.mem_range.mp hi, hchild, hf⟩
  · rintro ⟨i, t', hi, hchild, hf⟩
    refine ⟨i, List.mem_range.mpr hi, ?_⟩
    rw [hchild]
    exact hf

theorem mem_pathTables_succ :
    f ∈ pathTables m virt (n + 1) t ↔
      f = t ∨ ∃ t', child m t (index (n + 1) virt) = some t' ∧ f ∈ pathTables m virt n t' := by
  rw [pathTables, List.mem_cons]
  refine or_congr_right ?_
  cases child m t (index (n + 1) virt) with
  | none => exact iff_of_false List.not_mem_nil fun ⟨t', heq, _⟩ => nomatch heq
  | some t' =>
      constructor
      · exact fun hf => ⟨t', rfl, hf⟩
      · rintro ⟨_, ⟨⟩, hf⟩
        exact hf

theorem mem_tables_of_path (h : f ∈ pathTables m virt n t) : f ∈ tables m n t := by
  induction n generalizing t with
  | zero => exact h
  | succ n ih =>
      rcases mem_pathTables_succ.mp h with rfl | ⟨t', hchild, hf⟩
      · exact mem_tables_self _ _ _
      · exact mem_tables_succ.mpr (Or.inr ⟨_, t', index_lt _ _, hchild, ih hf⟩)

theorem aligned_of_mem_tables (ht : Aligned t) (h : f ∈ tables m n t) : Aligned f := by
  induction n generalizing t with
  | zero =>
      rw [List.mem_singleton.mp h]
      exact ht
  | succ n ih =>
      rcases mem_tables_succ.mp h with rfl | ⟨i, t', -, hchild, hf⟩
      · exact ht
      · exact ih (aligned_of_child hchild) hf

/-- A tree is its root and the trees below, which do not meet. -/
theorem nodup_tables_succ :
    (tables m (n + 1) t).Nodup ↔
      (∀ i < 512, ∀ t', child m t i = some t' → (tables m n t').Nodup ∧ t ∉ tables m n t') ∧
      ∀ i < 512, ∀ j < 512, i ≠ j → ∀ ti tj, child m t i = some ti → child m t j = some tj →
        List.Disjoint (tables m n ti) (tables m n tj) := by
  rw [tables, List.nodup_cons, List.nodup_flatMap, List.mem_flatMap]
  constructor
  · rintro ⟨hroot, hbelow, hapart⟩
    refine ⟨fun i hi t' hchild => ⟨?_, fun hmem => hroot ⟨i, List.mem_range.mpr hi, ?_⟩⟩,
      fun i hi j hj hne ti tj hti htj => ?_⟩
    · have hnodup := hbelow i (List.mem_range.mpr hi)
      rwa [hchild] at hnodup
    · rw [hchild]
      exact hmem
    · have hsymm : Std.Symm (Function.onFun List.Disjoint fun i =>
          (child m t i).elim [] (tables m n)) := ⟨fun _ _ h _ hy hx => h hx hy⟩
      have hdisjoint := hapart.forall (List.mem_range.mpr hi) (List.mem_range.mpr hj) hne
      unfold Function.onFun at hdisjoint
      dsimp only at hdisjoint
      rwa [hti, htj] at hdisjoint
  · rintro ⟨hbelow, hapart⟩
    refine ⟨?_, fun i hi => ?_, ?_⟩
    · rintro ⟨i, hi, hmem⟩
      cases hchild : child m t i with
      | none =>
          rw [hchild] at hmem
          exact absurd hmem List.not_mem_nil
      | some t' =>
          rw [hchild] at hmem
          exact (hbelow i (List.mem_range.mp hi) t' hchild).2 hmem
    · cases hchild : child m t i with
      | none => exact List.nodup_nil
      | some t' => exact (hbelow i (List.mem_range.mp hi) t' hchild).1
    · refine List.nodup_range.imp_of_mem fun {i j} hi hj hne => ?_
      unfold Function.onFun
      dsimp only
      cases hti : child m t i with
      | none => exact List.disjoint_nil_left _
      | some ti =>
          cases htj : child m t j with
          | none => exact List.disjoint_nil_right _
          | some tj =>
              exact hapart i (List.mem_range.mp hi) j (List.mem_range.mp hj) hne ti tj hti htj

/-! ## Changes outside a tree, and of one entry -/

/-- The bytes of a frame are the same in both memories. -/
def SameFrame (f : Nat) (m m' : Nat → UInt8) : Prop := ∀ i < 4096, m' (f + i) = m (f + i)

theorem SameFrame.trans (h : SameFrame f m m') (h' : SameFrame f m' m'') : SameFrame f m m'' :=
  fun i hi => (h' i hi).trans (h i hi)

theorem SameFrame.cell (h : SameFrame f m m') (hi : i < 512) : cell m' f i = cell m f i := by
  refine readLE_congr fun a hle hlt => ?_
  have hbyte := h (a - f) (by omega)
  rwa [Nat.add_sub_of_le (by omega)] at hbyte

theorem SameFrame.of_onlyPage {t : Nat} (h : OnlyPage t m m') (ht : Aligned t) (hf : Aligned f)
    (hne : f ≠ t) : SameFrame f m m' := fun _ hi => h.byte ht hf hne hi

theorem SameFor.refl (user : Bool) (m : Nat → UInt8) (n t virt : Nat) :
    SameFor user m m n t virt := ⟨rfl, .refl _, fun _ => rfl⟩

theorem Wider.trans {a a' a'' : Option Access} (h : Wider a a') (h' : Wider a' a'') :
    Wider a a'' := by
  cases a with
  | none =>
      have hnone : a' = none := h
      rw [hnone] at h'
      exact h'
  | some x =>
      obtain ⟨y, rfl, hphys, hwritable, huser⟩ := h
      obtain ⟨z, rfl, hphys', hwritable', huser'⟩ := h'
      exact ⟨z, rfl, hphys'.trans hphys, hwritable'.trans hwritable, fun hx => huser' (huser hx)⟩

theorem SameFor.trans (h : SameFor user m m' n t virt) (h' : SameFor user m' m'' n t virt) :
    SameFor user m m'' n t virt where
  leaf_eq := h'.leaf_eq.trans h.leaf_eq
  wider := h.wider.trans h'.wider
  walk_eq hu := (h'.walk_eq hu).trans (h.walk_eq hu)

theorem leaf_of_child (h : child m t (index (n + 1) virt) = some t') :
    leaf m virt (n + 1) t = leaf m virt n t' := by
  obtain ⟨hpresent, hhuge, rfl⟩ := child_eq_some.mp h
  rw [leaf]
  simp only [hpresent, hhuge, not_true_eq_false, if_false, Bool.false_eq_true]

theorem walk_of_child (h : child m t (index (n + 1) virt) = some t') :
    walk m virt (n + 1) t =
      (walk m virt n t').map (Access.under (cell m t (index (n + 1) virt))) := by
  obtain ⟨hpresent, hhuge, rfl⟩ := child_eq_some.mp h
  rw [walk]
  simp only [hpresent, hhuge, not_true_eq_false, if_false, Bool.false_eq_true]

/-- How the entry that a call goes through may change. -/
structure Opened (user : Bool) (e e' : Nat) : Prop where
  present : present e' = true
  notHuge : isHuge e' = false
  target_eq : target e' = target e
  writable_eq : isWritable e' = isWritable e
  keeps : isUser e = true → isUser e' = true
  same : user = false → e' = e

/-- Behind an entry that leads to the same table, what that table says counts. -/
theorem SameFor.below (hchild : child m t (index (n + 1) virt) = some t')
    (hopened : Opened user (cell m t (index (n + 1) virt)) (cell m' t (index (n + 1) virt)))
    (h : SameFor user m m' n t' virt) : SameFor user m m' (n + 1) t virt := by
  have hchild' : child m' t (index (n + 1) virt) = some t' := by
    obtain ⟨-, -, rfl⟩ := child_eq_some.mp hchild
    exact child_eq_some.mpr ⟨hopened.present, hopened.notHuge, hopened.target_eq⟩
  refine ⟨?_, ?_, fun hu => ?_⟩
  · rw [leaf_of_child hchild, leaf_of_child hchild', h.leaf_eq]
  · rw [walk_of_child hchild, walk_of_child hchild']
    exact h.wider.under hopened.writable_eq hopened.keeps
  · rw [walk_of_child hchild, walk_of_child hchild', h.walk_eq hu, hopened.same hu]

/-- An entry that stays, and what is below it stays. -/
theorem SameFor.of_cell
    (hcell : cell m' t (index (n + 1) virt) = cell m t (index (n + 1) virt))
    (hbelow : ∀ t', child m t (index (n + 1) virt) = some t' → SameFor user m m' n t' virt) :
    SameFor user m m' (n + 1) t virt := by
  cases hchild : child m t (index (n + 1) virt) with
  | some t' =>
      obtain ⟨hpresent, hhuge, -⟩ := child_eq_some.mp hchild
      rw [← hcell] at hpresent hhuge
      refine (hbelow t' hchild).below hchild ⟨hpresent, hhuge, ?_, ?_, ?_, fun _ => hcell⟩
      · rw [hcell]
      · rw [hcell]
      · rw [hcell]
        exact id
  | none =>
      have hend : present (cell m t (index (n + 1) virt)) = true →
          isHuge (cell m t (index (n + 1) virt)) = true := by
        intro hpresent
        by_contra hhuge
        rw [Bool.not_eq_true] at hhuge
        rw [child_eq_some.mpr ⟨hpresent, hhuge, rfl⟩] at hchild
        cases hchild
      have hwalk : walk m' virt (n + 1) t = walk m virt (n + 1) t := by
        rw [walk, walk, hcell]
        cases hpresent : present (cell m t (index (n + 1) virt)) with
        | false => rfl
        | true => rw [hend hpresent]; rfl
      refine ⟨?_, ?_, fun _ => hwalk⟩
      · rw [leaf, leaf, hcell]
        cases hpresent : present (cell m t (index (n + 1) virt)) with
        | false => rfl
        | true => rw [hend hpresent]; rfl
      · rw [hwalk]
        exact .refl _

/-- What happens outside the tables of a tree is not seen in it. -/
theorem tables_congr (h : ∀ f ∈ tables m n t, SameFrame f m m') :
    tables m' n t = tables m n t ∧ (∀ virt, pathTables m' virt n t = pathTables m virt n t) ∧
      ∀ user virt, SameFor user m m' n t virt := by
  induction n generalizing t with
  | zero =>
      have hcell (virt : Nat) := (h t (mem_tables_self m 0 t)).cell (index_lt 0 virt)
      refine ⟨rfl, fun _ => rfl, fun user virt => ?_⟩
      have hwalk : walk m' virt 0 t = walk m virt 0 t := by rw [walk, walk, hcell virt]
      refine ⟨?_, ?_, fun _ => hwalk⟩
      · rw [leaf, leaf, hcell virt]
      · rw [hwalk]
        exact .refl _
  | succ n ih =>
      have hcell (i : Nat) (hi : i < 512) := (h t (mem_tables_self m _ t)).cell hi
      have hbelow {i t' : Nat} (hi : i < 512) (hchild : child m t i = some t') :=
        ih fun f hf => h f (mem_tables_succ.mpr (Or.inr ⟨i, t', hi, hchild, hf⟩))
      refine ⟨?_, fun virt => ?_, fun user virt => ?_⟩
      · have hlist (i : Nat) (hi : i ∈ List.range 512) :
            (child m' t i).elim [] (tables m' n) = (child m t i).elim [] (tables m n) := by
          have hi := List.mem_range.mp hi
          rw [child_congr (hcell i hi)]
          cases hchild : child m t i with
          | none => rw [Option.elim_none, Option.elim_none]
          | some t' => rw [Option.elim_some, Option.elim_some, (hbelow hi hchild).1]
        rw [tables, tables, List.flatMap_congr hlist]
      · rw [pathTables, pathTables, child_congr (hcell _ (index_lt _ _))]
        cases hchild : child m t (index (n + 1) virt) with
        | none => rw [Option.elim_none, Option.elim_none]
        | some t' => rw [Option.elim_some, Option.elim_some, (hbelow (index_lt _ _) hchild).2.1 virt]
      · exact .of_cell (hcell _ (index_lt _ _)) fun t' hchild =>
          (hbelow (index_lt _ _) hchild).2.2 user virt

/-- A table without entries is a tree that translates nothing. -/
theorem tables_of_absent (h : ∀ i < 512, present (cell m t i) = false) :
    tables m n t = [t] ∧ (∀ virt, pathTables m virt n t = [t]) ∧
      ∀ virt, leaf m virt n t = none ∧ walk m virt n t = none := by
  have hchild (i : Nat) (hi : i < 512) : child m t i = none := by
    unfold child
    rw [h i hi]
    rfl
  cases n with
  | zero =>
      refine ⟨rfl, fun _ => rfl, fun virt => ⟨?_, ?_⟩⟩
      · rw [leaf, h _ (index_lt _ _)]
        rfl
      · rw [walk, h _ (index_lt _ _)]
        rfl
  | succ n =>
      refine ⟨?_, fun virt => ?_, fun virt => ⟨?_, ?_⟩⟩
      · have hlist (i : Nat) (hi : i ∈ List.range 512) : (child m t i).elim [] (tables m n) = [] := by
          rw [hchild i (List.mem_range.mp hi)]
          rfl
        rw [tables, List.flatMap_eq_nil_iff.mpr hlist]
      · rw [pathTables, hchild _ (index_lt _ _)]
        rfl
      · rw [leaf, h _ (index_lt _ _)]
        rfl
      · rw [walk, h _ (index_lt _ _)]
        rfl

namespace TreeHolds

theorem below (h : TreeHolds m g (n + 1) t) (hi : i < 512) (hchild : child m t i = some t') :
    TreeHolds m g n t' ∧ t ∉ tables m n t' :=
  have hbelow := (nodup_tables_succ.mp h.nodup).1 i hi t' hchild
  ⟨⟨hbelow.1, fun f hf => h.given f (mem_tables_succ.mpr (Or.inr ⟨i, t', hi, hchild, hf⟩))⟩,
    hbelow.2⟩

theorem apart (h : TreeHolds m g (n + 1) t) {j ti tj : Nat} (hi : i < 512) (hj : j < 512)
    (hne : i ≠ j) (hti : child m t i = some ti) (htj : child m t j = some tj) :
    List.Disjoint (tables m n ti) (tables m n tj) :=
  (nodup_tables_succ.mp h.nodup).2 i hi j hj hne ti tj hti htj

theorem root (h : TreeHolds m g n t) : ¬g.Fresh t := h.given t (mem_tables_self m n t)

/-- A tree whose tables are not touched stays. -/
theorem congr (h : TreeHolds m g n t) (hsame : ∀ f ∈ tables m n t, SameFrame f m m')
    (hfresh : ∀ f, g'.Fresh f → g.Fresh f) : TreeHolds m' g' n t := by
  have htables := (tables_congr hsame).1
  refine ⟨htables ▸ h.nodup, fun f hf hfree => ?_⟩
  rw [htables] at hf
  exact h.given f hf (hfresh f hfree)

/-- One entry of the root leads to another tree, with tables that it had before or that the
allocator gave out. -/
theorem replace (h : TreeHolds m g (n + 1) t) (hi : i < 512)
    (hfresh : ∀ f, g'.Fresh f → g.Fresh f)
    (hcells : ∀ j < 512, j ≠ i → cell m' t j = cell m t j)
    (hothers : ∀ j < 512, j ≠ i → ∀ t', child m t j = some t' →
      ∀ f ∈ tables m n t', SameFrame f m m')
    (hchild : child m' t i = some t') (hbelow : TreeHolds m' g' n t')
    (hfrom : ∀ f ∈ tables m' n t', g.Fresh f ∨
      ∃ t₀, child m t i = some t₀ ∧ f ∈ tables m n t₀) :
    TreeHolds m' g' (n + 1) t := by
  have hother {j tj : Nat} (hj : j < 512) (hne : j ≠ i) (htj : child m' t j = some tj) :
      child m t j = some tj ∧ tables m' n tj = tables m n tj := by
    rw [child_congr (hcells j hj hne)] at htj
    exact ⟨htj, (tables_congr (hothers j hj hne tj htj)).1⟩
  have hroot {j tj : Nat} (hj : j < 512) (htj : child m' t j = some tj) :
      (tables m' n tj).Nodup ∧ t ∉ tables m' n tj := by
    by_cases hne : j = i
    · subst hne
      rw [hchild] at htj
      cases htj
      refine ⟨hbelow.nodup, fun hmem => ?_⟩
      rcases hfrom t hmem with hfree | ⟨t₀, ht₀, hmem₀⟩
      · exact h.root hfree
      · exact (h.below hi ht₀).2 hmem₀
    · obtain ⟨htj', heq⟩ := hother hj hne htj
      rw [heq]
      exact ⟨(h.below hj htj').1.nodup, (h.below hj htj').2⟩
  have hapart {j tj : Nat} (hj : j < 512) (hne : j ≠ i) (htj : child m' t j = some tj) :
      List.Disjoint (tables m' n tj) (tables m' n t') := by
    obtain ⟨htj', heq⟩ := hother hj hne htj
    rw [heq]
    intro f hf hf'
    rcases hfrom f hf' with hfree | ⟨t₀, ht₀, hmem₀⟩
    · exact (h.below hj htj').1.given f hf hfree
    · exact h.apart hj hi hne htj' ht₀ hf hmem₀
  refine ⟨nodup_tables_succ.mpr ⟨fun j hj tj htj => hroot hj htj, fun j hj l hl hne tj tl htj htl => ?_⟩,
    fun f hf hfree => ?_⟩
  · by_cases hji : j = i
    · subst hji
      rw [hchild] at htj
      cases htj
      exact fun f hf hf' => hapart hl (Ne.symm hne) htl hf' hf
    · by_cases hli : l = i
      · subst hli
        rw [hchild] at htl
        cases htl
        exact hapart hj hji htj
      · obtain ⟨htj', hj'⟩ := hother hj hji htj
        obtain ⟨htl', hl'⟩ := hother hl hli htl
        rw [hj', hl']
        exact h.apart hj hl hne htj' htl'
  · rcases mem_tables_succ.mp hf with rfl | ⟨j, tj, hj, htj, hmem⟩
    · exact h.root (hfresh f hfree)
    · by_cases hji : j = i
      · subst hji
        rw [hchild] at htj
        cases htj
        exact hbelow.given f hmem hfree
      · obtain ⟨htj', heq⟩ := hother hj hji htj
        rw [heq] at hmem
        exact (h.below hj htj').1.given f hmem (hfresh f hfree)

end TreeHolds

end PureOS.Memory
