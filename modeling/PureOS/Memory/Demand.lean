import PureOS.Memory.Loops

set_option autoImplicit false

/-!
# Memory: how many frames a page takes

A page takes a frame for itself and one for each table that is missing on the way to it.
The tables that one page gets are there for the next one, as far as the two addresses agree.
-/

namespace PureOS.Memory

open PureOS.Foundation PureOS.Process

/-- The number of tables that are missing on the way from a table of level `n + 1`; `none`, if
a huge page is in the way. -/
def gaps (m : Nat → UInt8) (virt : Nat) : Nat → Nat → Option Nat
  | 0, _ => some 0
  | n + 1, t =>
      let e := cell m t (index (n + 1) virt)
      if ¬present e then some (n + 1)
      else if isHuge e then none
      else gaps m virt n (target e)

/-- The number of tables below level `n + 1` that two addresses do not share. -/
def parted (virt va : Nat) : Nat → Nat
  | 0 => 0
  | n + 1 => if index (n + 1) virt = index (n + 1) va then parted virt va n else n + 1

/-- A table of level `n' + 1` that is reached from one of level `n + 1`, by the addresses that
lead to the two. -/
def Within (n pre n' pre' : Nat) : Prop := n' ≤ n ∧ pre' / 512 ^ (n - n') = pre

variable {L : Layout} {k k' : Kernel} {g g' : Ledger} {m m' : Nat → UInt8}
variable {n n' pre pre' t i virt va : Nat} {user : Bool}

/-- The number of available frames is a number of the kernel's. -/
theorem PoolHolds.available_unique (h : PoolHolds k g) (h' : PoolHolds k g') :
    available k g = available k g' := by
  rw [available, available, h.threaded.unique h'.threaded]

theorem gaps_le (m : Nat → UInt8) (virt n t : Nat) : ∀ d ∈ gaps m virt n t, d ≤ n := by
  induction n generalizing t with
  | zero =>
      intro d hd
      cases hd
      exact Nat.le_refl 0
  | succ n ih =>
      intro d hd
      rw [gaps] at hd
      split at hd
      · cases hd
        exact Nat.le_refl _
      · split at hd
        · cases hd
        · exact (ih _ d hd).trans (Nat.le_succ n)

theorem parted_le (virt va n : Nat) : parted virt va n ≤ n := by
  induction n with
  | zero => exact Nat.le_refl 0
  | succ n ih =>
      rw [parted]
      split
      · exact ih.trans (Nat.le_succ n)
      · exact Nat.le_refl _

theorem gaps_absent (h : present (cell m t (index (n + 1) virt)) = false) :
    gaps m virt (n + 1) t = some (n + 1) := by
  rw [gaps]
  simp only [h, Bool.false_eq_true, not_false_eq_true, if_true]

theorem gaps_huge (h : present (cell m t (index (n + 1) virt)) = true)
    (hhuge : isHuge (cell m t (index (n + 1) virt)) = true) : gaps m virt (n + 1) t = none := by
  rw [gaps]
  simp only [h, hhuge, not_true_eq_false, if_false, if_true]

theorem gaps_present (h : present (cell m t (index (n + 1) virt)) = true)
    (hhuge : isHuge (cell m t (index (n + 1) virt)) = false) :
    gaps m virt (n + 1) t = gaps m virt n (target (cell m t (index (n + 1) virt))) := by
  rw [gaps]
  simp only [h, hhuge, not_true_eq_false, Bool.false_eq_true, if_false]

/-! ## Tables below a table -/

theorem Within.refl (n pre : Nat) : Within n pre n pre := by
  refine ⟨Nat.le_refl n, ?_⟩
  rw [Nat.sub_self, Nat.pow_zero, Nat.div_one]

theorem Within.up (hi : i < 512) (h : Within n (pre * 512 + i) n' pre') :
    Within (n + 1) pre n' pre' := by
  obtain ⟨hle, hpre⟩ := h
  refine ⟨hle.trans (Nat.le_succ n), ?_⟩
  rw [Nat.succ_sub hle, Nat.pow_succ, ← Nat.div_div_eq_div_mul, hpre]
  omega

/-- Tables below different entries are different. -/
theorem Within.apart {j : Nat} (hne : i ≠ j)
    (h : Within n (pre * 512 + i) n' pre') : ¬Within n (pre * 512 + j) n' pre' := by
  rintro ⟨-, hpre⟩
  have heq := h.2
  rw [hpre] at heq
  omega

/-- A table is not below its own entries. -/
theorem Within.not_self (n pre q : Nat) : ¬Within n q (n + 1) pre :=
  fun h => Nat.not_succ_le_self n h.1

/-- Gaps stay when the tables below stay. -/
theorem gaps_congr (h : TablesHold L m g) (ht : g.use t = .table n pre)
    (hsame : ∀ t' n' pre', g.use t' = .table (n' + 1) pre' → Within n pre (n' + 1) pre' →
      ∀ i < 512, cell m' t' i = cell m t' i) : gaps m' virt n t = gaps m virt n t := by
  induction n generalizing t pre with
  | zero => rfl
  | succ n ih =>
      have hi := index_lt (n + 1) virt
      have hcell := hsame t n pre ht (.refl _ _) _ hi
      rw [gaps, gaps, hcell]
      split
      · rfl
      · split
        · rfl
        · next hpresent hhuge =>
            rw [not_not] at hpresent
            rw [Bool.not_eq_true] at hhuge
            have hchild := (h.child t n pre ht _ hi hpresent hhuge).1
            exact ih hchild fun t' n' pre' ht' hwithin => hsame t' n' pre' ht' (hwithin.up hi)

/-- A table without entries. -/
theorem gaps_empty (h : ∀ j < 512, present (cell m t j) = false) : gaps m virt n t = some n := by
  cases n with
  | zero => rfl
  | succ n => exact gaps_absent (h _ (index_lt _ _))

/-- Gaps for an address that goes another way, below a table of which one entry changes. -/
theorem gaps_off (h : TablesHold L m g) (ht : g.use t = .table (n + 1) pre)
    (hcells : ∀ t' n' pre', g.use t' = .table n' pre' → ¬Within n (pre * 512 + i) n' pre' →
      ∀ j < 512, t' ≠ t ∨ j ≠ i → cell m' t' j = cell m t' j)
    (hne : index (n + 1) virt ≠ i) : gaps m' virt (n + 1) t = gaps m virt (n + 1) t := by
  have hj := index_lt (n + 1) virt
  have hcell := hcells t (n + 1) pre ht (Within.not_self n pre _) _ hj (Or.inr hne)
  cases hpresent : present (cell m t (index (n + 1) virt)) with
  | false => rw [gaps_absent hpresent, gaps_absent (by rw [hcell, hpresent])]
  | true =>
      cases hhuge : isHuge (cell m t (index (n + 1) virt)) with
      | true =>
          rw [gaps_huge hpresent hhuge, gaps_huge (by rw [hcell, hpresent]) (by rw [hcell, hhuge])]
      | false =>
          rw [gaps_present hpresent hhuge,
            gaps_present (by rw [hcell, hpresent]) (by rw [hcell, hhuge]), hcell]
          refine gaps_congr h (h.child t n pre ht _ hj hpresent hhuge).1 ?_
          intro t' n' pre' ht' hwithin i' hi'
          have htt : t' ≠ t := by
            rintro rfl
            rw [ht] at ht'
            cases ht'
            exact Within.not_self n pre _ hwithin
          exact hcells t' _ pre' ht' (hwithin.apart hne) i' hi' (Or.inl htt)

/-! ## The way down -/

/-- What the calls of `next_table` for an address leave, below a table of level `n + 1`. -/
structure Walked (L : Layout) (n pre : Nat) (k k' : Kernel) (g g' : Ledger) : Prop where
  holds : Holds L k' g'
  grown : Grown noPage k k' g g'
  outside : ∀ t' n' pre', g.use t' = .table n' pre' → ¬Within n pre n' pre' → ∀ i < 512,
    cell k'.mem t' i = cell k.mem t' i

/-- They take a frame for each gap, and close the gaps that other addresses share. -/
structure Filled (va n t d : Nat) (k k' : Kernel) (g g' : Ledger) : Prop where
  count : available k' g' + d = available k g
  gaps_eq : ∀ virt, gaps k'.mem virt n t = (gaps k.mem virt n t).map (min (parted virt va n))

/-- Two entries on the way down, of which the first one was opened. -/
theorem Stepped.walked {t₁ : Nat} {k₁ : Kernel} {g₁ : Ledger}
    (hstep : Stepped L user t i t₁ k k₁ g g₁) (ht : g.use t = .table (n + 1) pre) (hi : i < 512)
    (hwalk : Walked L n (pre * 512 + i) k₁ k' g₁ g') :
    Walked L (n + 1) pre k k' g g' ∧
      ∀ t' n' pre', g.use t' = .table n' pre' → ¬Within n (pre * 512 + i) n' pre' →
        ∀ j < 512, t' ≠ t ∨ j ≠ i → cell k'.mem t' j = cell k.mem t' j := by
  have hcells : ∀ t' n' pre', g.use t' = .table n' pre' → ¬Within n (pre * 512 + i) n' pre' →
      ∀ j < 512, t' ≠ t ∨ j ≠ i → cell k'.mem t' j = cell k.mem t' j :=
    fun t' n' pre' ht' hnot j hj hne =>
      (hwalk.outside t' n' pre' (hstep.grown.table ht') hnot j hj).trans
        (hstep.others t' n' pre' ht' j hj hne)
  refine ⟨⟨hwalk.holds, hstep.grown.trans hwalk.grown, ?_⟩, hcells⟩
  intro t' n' pre' ht' hnot j hj
  have htt : t' ≠ t := by
    rintro rfl
    rw [ht] at ht'
    cases ht'
    exact hnot (.refl _ _)
  exact hcells t' n' pre' ht' (fun hwithin => hnot (hwithin.up hi)) j hj (Or.inl htt)

/-- Gaps for an address that goes the same way at first. -/
theorem Stepped.gaps_on {t₁ : Nat} {k₁ : Kernel} {g₁ : Ledger}
    (hstep : Stepped L user t (index (n + 1) va) t₁ k k₁ g g₁)
    (ht : g.use t = .table (n + 1) pre)
    (hwalk : Walked L n (pre * 512 + index (n + 1) va) k₁ k' g₁ g')
    (hsame : index (n + 1) virt = index (n + 1) va) :
    gaps k'.mem virt (n + 1) t = gaps k'.mem virt n t₁ := by
  have hkeep := hwalk.outside t (n + 1) pre (hstep.grown.table ht) (Within.not_self n pre _) _
    (index_lt (n + 1) va)
  have hopens := hstep.opens
  have hleads := hstep.leads
  rw [← hkeep] at hopens hleads
  rw [gaps_present (by rw [hsame, hopens.present]) (by rw [hsame, hopens.notHuge]), hsame, hleads]

theorem gaps_map_parted (hne : index (n + 1) virt ≠ index (n + 1) va) :
    (gaps m virt (n + 1) t).map (min (parted virt va (n + 1))) = gaps m virt (n + 1) t := by
  rw [parted, if_neg hne]
  cases hgaps : gaps m virt (n + 1) t with
  | none => rfl
  | some d =>
      have hle := gaps_le m virt (n + 1) t d (by rw [hgaps]; rfl)
      rw [Option.map_some, Nat.min_eq_right hle]

/-- The gaps below an entry that was opened, and those of the entry itself. -/
theorem Stepped.filled {t₁ c d : Nat} {k₁ : Kernel} {g₁ : Ledger} (h : Holds L k g)
    (hstep : Stepped L user t (index (n + 1) va) t₁ k k₁ g g₁) (ht : g.use t = .table (n + 1) pre)
    (hwalk : Walked L n (pre * 512 + index (n + 1) va) k₁ k' g₁ g')
    (hbelow : Filled va n t₁ d k₁ k' g₁ g') (hcount : available k₁ g₁ + c = available k g)
    (hgap : ∀ virt, index (n + 1) virt = index (n + 1) va →
      (gaps k₁.mem virt n t₁).map (min (parted virt va n)) =
        (gaps k.mem virt (n + 1) t).map (min (parted virt va n))) :
    Filled va (n + 1) t (d + c) k k' g g' := by
  refine ⟨by rw [← Nat.add_assoc, hbelow.count, hcount], fun virt => ?_⟩
  by_cases hsame : index (n + 1) virt = index (n + 1) va
  · rw [hstep.gaps_on ht hwalk hsame, hbelow.gaps_eq virt, hgap virt hsame, parted, if_pos hsame]
  · rw [gaps_map_parted hsame]
    exact gaps_off h.tables ht (hstep.walked ht (index_lt _ _) hwalk).2 hsame

/-- The calls of `next_table` lead to the last table exactly if no huge page is in the way and
there are frames for the gaps. -/
theorem lastTable_exact (user : Bool) (va n : Nat) (h : Holds L k g)
    (ht : g.use t = .table n pre) :
    ∃ r k' g', Kernel.lastTable user va n t k = (r, k') ∧ Walked L n pre k k' g g' ∧
      (gaps k.mem va n t = none → r = none) ∧
      ∀ d, gaps k.mem va n t = some d → (available k g < d → r = none) ∧
        (d ≤ available k g → r ≠ none ∧ Filled va n t d k k' g g') := by
  induction n generalizing t pre k g with
  | zero =>
      refine ⟨some t, k, g, rfl, ⟨h, .refl _ k g, fun _ _ _ _ _ _ _ => rfl⟩, fun heq => (by cases heq),
        fun d hd => ?_⟩
      cases hd
      exact ⟨fun hlt => absurd hlt (Nat.not_lt_zero _), fun _ => ⟨Option.some_ne_none t, rfl,
        fun virt => rfl⟩⟩
  | succ n ih =>
      have hi := index_lt (n + 1) va
      have hfail : Walked L (n + 1) pre k k g g :=
        ⟨h, .refl _ k g, fun _ _ _ _ _ _ _ => rfl⟩
      cases hpresent : present (cell k.mem t (index (n + 1) va)) with
      | false =>
          rw [gaps_absent hpresent]
          rcases nextTable_absent h ht hi user hpresent with ⟨hnone, havail⟩ |
            ⟨t₁, k₁, g₁, hsome, hstep, hcount, hempty⟩
          · refine ⟨none, k, g, by rw [Kernel.lastTable, hnone], hfail, fun _ => rfl, fun d hd => ?_⟩
            cases hd
            exact ⟨fun _ => rfl, fun hle => by omega⟩
          · have ht₁ := (hstep.holds.tables.child t n pre (hstep.grown.table ht) _ hi
              hstep.opens.present hstep.opens.notHuge).1
            rw [hstep.leads] at ht₁
            obtain ⟨r, k', g', hrun, hwalk, -, hsecond⟩ := ih hstep.holds ht₁
            obtain ⟨hshort, henough⟩ := hsecond n (gaps_empty hempty)
            refine ⟨r, k', g', by rw [Kernel.lastTable, hsome]; exact hrun,
              (hstep.walked ht hi hwalk).1, fun heq => (by cases heq), fun d hd => ?_⟩
            cases hd
            refine ⟨fun hlt => hshort (by omega), fun hle => ?_⟩
            obtain ⟨hr, hfilled⟩ := henough (by omega)
            refine ⟨hr, hstep.filled h ht hwalk hfilled hcount fun virt hsame => ?_⟩
            -- All that is shared below the new table was missing before.
            have hle := parted_le virt va n
            rw [gaps_empty hempty, gaps_absent (by rw [hsame, hpresent]), Option.map_some,
              Option.map_some, Nat.min_eq_left hle, Nat.min_eq_left (hle.trans (Nat.le_succ n))]
      | true =>
          cases hhuge : isHuge (cell k.mem t (index (n + 1) va)) with
          | true =>
              rw [gaps_huge hpresent hhuge]
              refine ⟨none, k, g, by rw [Kernel.lastTable, nextTable_huge user hpresent hhuge], hfail,
                fun _ => rfl, fun d hd => by cases hd⟩
          | false =>
              obtain ⟨k₁, hsome, hstep, hcount⟩ := nextTable_present h ht hi user hpresent hhuge
              have ht₁ := (h.tables.child t n pre ht _ hi hpresent hhuge).1
              have hsame : ∀ virt, gaps k₁.mem virt n (target (cell k.mem t (index (n + 1) va))) =
                  gaps k.mem virt n (target (cell k.mem t (index (n + 1) va))) := by
                intro virt
                refine gaps_congr h.tables ht₁ fun t' n' pre' ht' hwithin j hj =>
                  hstep.others t' _ pre' ht' j hj (Or.inl ?_)
                rintro rfl
                rw [ht] at ht'
                cases ht'
                exact Within.not_self n pre _ hwithin
              obtain ⟨r, k', g', hrun, hwalk, hblocked, hsecond⟩ := ih hstep.holds ht₁
              rw [hsame va] at hblocked hsecond
              rw [gaps_present hpresent hhuge]
              refine ⟨r, k', g', by rw [Kernel.lastTable, hsome]; exact hrun,
                (hstep.walked ht hi hwalk).1, hblocked, fun d hd => ?_⟩
              obtain ⟨hshort, henough⟩ := hsecond d hd
              refine ⟨fun hlt => hshort (by omega), fun hle => ?_⟩
              obtain ⟨hr, hfilled⟩ := henough (by omega)
              refine ⟨hr, hstep.filled (c := 0) h ht hwalk hfilled hcount fun virt hindex => ?_⟩
              rw [hsame virt, gaps_present (by rw [hindex, hpresent]) (by rw [hindex, hhuge]),
                hindex]

/-- `map_page` succeeds exactly if no huge page is in the way and there are frames for the
gaps. -/
theorem mapPage_exact (h : Holds L k g) {pml4 : Nat} (hroot : g.use (target pml4) = .table 3 0)
    (va phys : Nat) (writable user : Bool) :
    ∃ ok k' g', k.mapPage pml4 va phys writable user = (ok, k') ∧ Holds L k' g' ∧
      Grown (· = pageNo va) k k' g g' ∧
      (gaps k.mem va 3 (target pml4) = none → ok = false) ∧
      ∀ d, gaps k.mem va 3 (target pml4) = some d → (available k g < d → ok = false) ∧
        (d ≤ available k g → ok = true ∧ Filled va 3 (target pml4) d k k' g g') := by
  obtain ⟨r, k₁, g₁, hlast, hwalk, hblocked, hsecond⟩ := lastTable_exact user va 3 h hroot
  obtain ⟨r', k₁', g₁', hlast', -, -, hpath⟩ := lastTable_cases user va 3 h hroot
  rw [hlast] at hlast'
  obtain ⟨rfl, rfl⟩ := Prod.mk.inj hlast'
  cases r with
  | none =>
      refine ⟨false, k₁, g₁, by rw [Kernel.mapPage, hlast], hwalk.holds,
        hwalk.grown.mono fun _ hv => hv.elim, fun _ => rfl, fun d hd => ⟨fun _ => rfl, fun hle => ?_⟩⟩
      exact absurd rfl ((hsecond d hd).2 hle).1
  | some pt =>
      have hroot₁ := hwalk.grown.table hroot
      have hpt := (hpath pt rfl).table hwalk.holds.tables hroot₁
      obtain ⟨h₂, hleaf⟩ := leaf_grown hwalk.holds hpt (index_lt 0 va) (@entry_lt phys writable user)
      rw [pageNo_eq] at hleaf
      refine ⟨true, _, g₁, by rw [Kernel.mapPage, hlast]; rfl, h₂,
        (hwalk.grown.mono fun _ hv => hv.elim).trans hleaf, fun hnone => ?_, fun d hd => ?_⟩
      · exact absurd (hblocked hnone) (Option.some_ne_none pt)
      · obtain ⟨hshort, henough⟩ := hsecond d hd
        refine ⟨fun hlt => absurd (hshort hlt) (Option.some_ne_none pt), fun hle => ⟨rfl, ?_⟩⟩
        obtain ⟨-, hfilled⟩ := henough hle
        refine ⟨hfilled.count, fun virt => ?_⟩
        rw [← hfilled.gaps_eq virt]
        refine gaps_congr hwalk.holds.tables hroot₁ fun t' n' pre' ht' _ j hj => ?_
        refine hwalk.holds.cell_setWord hpt (index_lt 0 va) ht' hj (Or.inl ?_)
        rintro rfl
        rw [hpt] at ht'
        cases ht'

end PureOS.Memory
