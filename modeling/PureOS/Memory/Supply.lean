import PureOS.Memory.Clone
import PureOS.Memory.Demand

set_option autoImplicit false

/-!
# Memory: when frames are enough

A step that maps pages succeeds exactly if there are frames for all that the pages take.
Steps of this kind can be put behind each other, and a loop of them is one.
-/

namespace PureOS.Memory

open PureOS.Foundation PureOS.Process

variable {L : Layout} {k k' : Kernel} {g g' : Ledger} {m m' : Nat → UInt8}
variable {virt va root pml4 f : Nat} {done l l' : List Nat}

/-! ## Gaps that stay -/

/-- Frames that are no tables do not matter for the gaps. -/
theorem Holds.gaps_write (h : Holds L k g) (hf : g.use f = .held)
    (hroot : g.use root = .table 3 0) (honly : OnlyPage f k.mem m') :
    gaps m' virt 3 root = gaps k.mem virt 3 root :=
  gaps_congr h.tables hroot fun _ _ _ ht' _ _ hj => h.cell_onlyPage hf honly ht' hj

theorem Taken.gaps_eq (h : Holds L k g) (htaken : Taken L k k' g g' f)
    (hroot : g.use root = .table 3 0) : gaps k'.mem virt 3 root = gaps k.mem virt 3 root := by
  refine gaps_congr h.tables hroot fun t' n' pre' ht' _ j hj => ?_
  have hne : t' ≠ f := by
    rintro rfl
    exact htaken.fresh.ne_table ht'
  have haligned := h.aligned_fresh htaken.fresh
  rw [htaken.mem_eq]
  exact cell_of_onlyPage (onlyPage_overlay haligned (Nat.le_refl _)) haligned
    (h.aligned_table ht') hne hj

/-- A change of a frame that is held keeps what was filled. -/
theorem Filled.write {d : Nat} {k'' : Kernel} (h : Filled va 3 root d k k' g g')
    (h' : Holds L k' g') (hf : g'.use f = .held) (hroot : g'.use root = .table 3 0)
    (honly : OnlyPage f k'.mem k''.mem) (hcount : available k'' g' = available k' g') :
    Filled va 3 root d k k'' g g' :=
  ⟨by rw [hcount, h.count], fun virt => (h'.gaps_write hf hroot honly).trans (h.gaps_eq virt)⟩

/-- Frames that were taken before count as well. -/
theorem Filled.after {c d : Nat} {k₁ : Kernel} {g₁ : Ledger}
    (hfilled : Filled va 3 root d k₁ k' g₁ g') (hcount : available k₁ g₁ + c = available k g)
    (hgaps : ∀ virt, gaps k₁.mem virt 3 root = gaps k.mem virt 3 root) :
    Filled va 3 root (d + c) k k' g g' :=
  ⟨by rw [← Nat.add_assoc, hfilled.count, hcount], fun virt => by
    rw [hfilled.gaps_eq virt, hgaps virt]⟩

/-- The filling of a frame that is held. -/
theorem Holds.fill {fill : Nat → Nat → Kernel → Kernel} (h : Holds L k g) (hfill : Fills fill)
    (hf : g.use f = .held) (va : Nat) :
    Holds L (fill va f k) g ∧ OnlyPage f k.mem (fill va f k).mem ∧
      available (fill va f k) g = available k g := by
  obtain ⟨honly, reads, heq⟩ := hfill va f k (h.aligned (by rw [hf]; exact Use.noConfusion))
  have hmem := h.write hf honly _ rfl
  refine ⟨?_, honly, ?_⟩
  · rw [heq]
    exact ⟨hmem.pool.write (fun _ _ => rfl) rfl rfl rfl, hmem.tables, hmem.owners.congr rfl rfl⟩
  · rw [heq]
    rfl

/-! ## One page -/

/-- A body that adds the page, exactly if there are a frame for it and frames for the gaps. -/
def AddsExactly (L : Layout) (pml4 : Nat) (body : Nat → Kernel → Except Int Unit × Kernel) : Prop :=
  ∀ k g va, Holds L k g → g.use (target pml4) = .table 3 0 →
    (∀ d, gaps k.mem va 3 (target pml4) = some d → d + 1 ≤ available k g → ∃ k' g',
      body va k = (.ok (), k') ∧ Holds L k' g' ∧ g'.use (target pml4) = .table 3 0 ∧
        Filled va 3 (target pml4) (d + 1) k k' g g') ∧
    ((∀ d, gaps k.mem va 3 (target pml4) = some d → available k g < d + 1) →
      ∃ k', body va k = (.error errOutOfMemory, k'))

theorem addsExactly_trackAndMap (pid : Pid) (pml4 : Nat) (writable user : Bool)
    {fill : Nat → Nat → Kernel → Kernel} (hfill : Fills fill) :
    AddsExactly L pml4 (Kernel.trackAndMap pid pml4 writable user fill) := by
  intro k g va h hroot
  rcases allocFrame_cases h with ⟨hnone, havail⟩ | ⟨f, k₁, g₁, hsome, htaken⟩
  · refine ⟨fun d _ hle => by omega, fun _ => ⟨k, ?_⟩⟩
    rw [Kernel.trackAndMap, hnone]
  have h₁ := trackFrame_holds htaken.holds htaken.held (htaken.not_tracked h) pid
  have hroot₁ := (htaken.grown h).table hroot
  have hwrite : OnlyPage f k₁.mem (k₁.trackFrame pid f).mem :=
    onlyPage_setWord (i := 0) (h.aligned_fresh htaken.fresh) (by decide)
  have hgaps : ∀ virt, gaps (k₁.trackFrame pid f).mem virt 3 (target pml4) =
      gaps k.mem virt 3 (target pml4) := fun virt =>
    (htaken.holds.gaps_write htaken.held hroot₁ hwrite).trans (htaken.gaps_eq h hroot)
  have hcount : available (k₁.trackFrame pid f) g₁ + 1 = available k g := htaken.less
  obtain ⟨ok, k₂, g₂, hmap, h₂, hgrown₂, hblocked, hsecond⟩ :=
    mapPage_exact h₁ hroot₁ va f writable user
  rw [hgaps va] at hblocked hsecond
  have hbody : Kernel.trackAndMap pid pml4 writable user fill va k =
      if ok then (.ok (), fill va f k₂) else (.error errOutOfMemory, k₂) := by
    rw [Kernel.trackAndMap, hsome]
    dsimp only
    rw [hmap]
    cases ok <;> rfl
  rw [hbody]
  constructor
  · intro d hd hle
    obtain ⟨rfl, hfilled⟩ := (hsecond d hd).2 (by omega)
    have hheld := hgrown₂.held htaken.held
    obtain ⟨h₃, honly, hsame⟩ := h₂.fill hfill hheld va
    have hroot₂ := hgrown₂.table hroot₁
    exact ⟨_, g₂, if_pos rfl, h₃, hroot₂,
      (hfilled.after hcount hgaps).write h₂ hheld hroot₂ honly hsame⟩
  · intro hshort
    have hok : ok = false := by
      cases hd : gaps k.mem va 3 (target pml4) with
      | none => exact hblocked hd
      | some d =>
          have hlt := hshort d hd
          exact (hsecond d hd).1 (by omega)
    exact ⟨k₂, by rw [hok]; rfl⟩

theorem addsExactly_mapAndTrack (pid : Pid) (pml4 : Nat) (writable user : Bool)
    {fill : Nat → Nat → Kernel → Kernel} (hfill : Fills fill) :
    AddsExactly L pml4 (Kernel.mapAndTrack pid pml4 writable user fill) := by
  intro k g va h hroot
  rcases allocFrame_cases h with ⟨hnone, havail⟩ | ⟨f, k₁, g₁, hsome, htaken⟩
  · refine ⟨fun d _ hle => by omega, fun _ => ⟨k, ?_⟩⟩
    rw [Kernel.mapAndTrack, hnone]
  have hroot₁ := (htaken.grown h).table hroot
  have hgaps : ∀ virt, gaps k₁.mem virt 3 (target pml4) = gaps k.mem virt 3 (target pml4) :=
    fun virt => htaken.gaps_eq h hroot
  have hcount := htaken.less
  obtain ⟨ok, k₂, g₂, hmap, h₂, hgrown₂, hblocked, hsecond⟩ :=
    mapPage_exact htaken.holds hroot₁ va f writable user
  rw [hgaps va] at hblocked hsecond
  have hbody : Kernel.mapAndTrack pid pml4 writable user fill va k =
      if ok then (.ok (), fill va f (k₂.trackFrame pid f)) else (.error errOutOfMemory, k₂) := by
    rw [Kernel.mapAndTrack, hsome]
    dsimp only
    rw [hmap]
    cases ok <;> rfl
  rw [hbody]
  constructor
  · intro d hd hle
    obtain ⟨rfl, hfilled⟩ := (hsecond d hd).2 (by omega)
    have hheld := hgrown₂.held htaken.held
    have hroot₂ := hgrown₂.table hroot₁
    have hnot : ∀ p, f ∉ k₂.tracked p := fun p => by
      have hquiet := k₁.mapPage_quiet pml4 va f writable user
      rw [hmap] at hquiet
      rw [hquiet.tracked_eq]
      exact htaken.not_tracked h p
    have h₃ := trackFrame_holds h₂ hheld hnot pid
    have hwrite : OnlyPage f k₂.mem (k₂.trackFrame pid f).mem :=
      onlyPage_setWord (i := 0) (h.aligned_fresh htaken.fresh) (by decide)
    obtain ⟨h₄, honly, hsame⟩ := h₃.fill hfill hheld va
    exact ⟨_, g₂, if_pos rfl, h₄, hroot₂,
      (hfilled.after hcount hgaps).write h₂ hheld hroot₂ (hwrite.trans honly) (hsame.trans rfl)⟩
  · intro hshort
    have hok : ok = false := by
      cases hd : gaps k.mem va 3 (target pml4) with
      | none => exact hblocked hd
      | some d =>
          have hlt := hshort d hd
          exact (hsecond d hd).1 (by omega)
    exact ⟨k₂, by rw [hok]; rfl⟩

/-! ## Many pages -/

/-- The gaps for an address after pages were mapped. -/
def gapsAfter (m : Nat → UInt8) (root : Nat) (done : List Nat) (virt : Nat) : Option Nat :=
  done.foldl (fun d va => d.map (min (parted virt va 3))) (gaps m virt 3 root)

/-- How many frames some pages take after others were mapped; `none`, if a huge page is in the
way of one of them. -/
def demandAfter (m : Nat → UInt8) (root : Nat) : List Nat → List Nat → Option Nat
  | _, [] => some 0
  | done, va :: rest =>
      (gapsAfter m root done va).bind fun d =>
        (demandAfter m root (done ++ [va]) rest).map (d + 1 + ·)

/-- How many frames some pages take. -/
def demand (m : Nat → UInt8) (root : Nat) (l : List Nat) : Option Nat := demandAfter m root [] l

/-- The pages `done` were mapped since the memory was `m`. -/
structure Since (L : Layout) (m : Nat → UInt8) (root : Nat) (done : List Nat) (k : Kernel)
    (g : Ledger) : Prop where
  holds : Holds L k g
  isRoot : g.use root = .table 3 0
  gaps_eq : ∀ virt, gaps k.mem virt 3 root = gapsAfter m root done virt

/-- A step that maps the pages `l`, exactly if there are frames for all that they take. -/
def Takes (L : Layout) (m : Nat → UInt8) (root : Nat) (l : List Nat)
    (step : Kernel → Except Int Unit × Kernel) : Prop :=
  ∀ done k g, Since L m root done k g →
    (∀ d, demandAfter m root done l = some d → d ≤ available k g → ∃ k' g',
      step k = (.ok (), k') ∧ Since L m root (done ++ l) k' g' ∧
        available k' g' + d = available k g) ∧
    ((∀ d, demandAfter m root done l = some d → available k g < d) →
      ∃ k', step k = (.error errOutOfMemory, k'))

theorem Since.start (h : Holds L k g) (hroot : g.use root = .table 3 0) :
    Since L k.mem root [] k g := ⟨h, hroot, fun _ => rfl⟩

theorem gapsAfter_snoc (m : Nat → UInt8) (root : Nat) (done : List Nat) (va virt : Nat) :
    gapsAfter m root (done ++ [va]) virt =
      (gapsAfter m root done virt).map (min (parted virt va 3)) :=
  List.foldl_append

theorem demandAfter_append (m : Nat → UInt8) (root : Nat) (done l l' : List Nat) :
    demandAfter m root done (l ++ l') = (demandAfter m root done l).bind fun d =>
      (demandAfter m root (done ++ l) l').map (d + ·) := by
  induction l generalizing done with
  | nil =>
      rw [List.nil_append, List.append_nil, demandAfter, Option.bind_some]
      cases demandAfter m root done l' with
      | none => rfl
      | some d => exact congrArg some (Nat.zero_add d).symm
  | cons va rest ih =>
      rw [List.cons_append, demandAfter, demandAfter, ih, List.append_assoc, List.singleton_append]
      cases gapsAfter m root done va with
      | none => rfl
      | some d =>
          simp only [Option.bind_some]
          cases demandAfter m root (done ++ [va]) rest with
          | none => rfl
          | some r =>
              simp only [Option.bind_some, Option.map_some]
              cases demandAfter m root (done ++ va :: rest) l' with
              | none => rfl
              | some r' => exact congrArg some (Nat.add_assoc _ _ _).symm

namespace Takes

variable {step step' : Kernel → Except Int Unit × Kernel}

/-- One page. -/
theorem page {body : Nat → Kernel → Except Int Unit × Kernel} (hbody : AddsExactly L pml4 body)
    (m : Nat → UInt8) (va : Nat) : Takes L m (target pml4) [va] (body va) := by
  intro done k g h
  have hdemand : demandAfter m (target pml4) done [va] =
      (gaps k.mem va 3 (target pml4)).map (· + 1) := by
    rw [h.gaps_eq va, demandAfter, demandAfter]
    cases gapsAfter m (target pml4) done va <;> rfl
  obtain ⟨henough, hshort⟩ := hbody k g va h.holds h.isRoot
  rw [hdemand]
  constructor
  · intro d hd hle
    obtain ⟨c, hc, rfl⟩ := Option.map_eq_some_iff.mp hd
    obtain ⟨k', g', hrun, h', hroot', hfilled⟩ := henough c hc hle
    refine ⟨k', g', hrun, ⟨h', hroot', fun virt => ?_⟩, hfilled.count⟩
    rw [hfilled.gaps_eq virt, gapsAfter_snoc, h.gaps_eq virt]
  · intro hall
    exact hshort fun d hd => hall (d + 1) (by rw [hd]; rfl)

/-- A step that takes no frames and leaves the tables alone. -/
theorem skip (h : ∀ k g, Holds L k g → ∃ k', step k = (.ok (), k') ∧ Holds L k' g ∧
    k'.mem = k.mem ∧ available k' g = available k g) : Takes L m root [] step := by
  intro done k g hsince
  obtain ⟨k', hrun, h', hmem, hcount⟩ := h k g hsince.holds
  constructor
  · intro d hd _
    cases hd
    refine ⟨k', g, hrun, ⟨h', hsince.isRoot, fun virt => ?_⟩, hcount⟩
    rw [hmem, List.append_nil]
    exact hsince.gaps_eq virt
  · intro hall
    exact absurd (hall 0 rfl) (Nat.not_lt_zero _)

/-- Two steps, one after the other. -/
theorem seq (h : Takes L m root l step) (h' : Takes L m root l' step') :
    Takes L m root (l ++ l') fun k =>
      match step k with
      | (.ok (), k) => step' k
      | (.error e, k) => (.error e, k) := by
  intro done k g hsince
  obtain ⟨henough, hshort⟩ := h done k g hsince
  rw [demandAfter_append]
  cases hd₁ : demandAfter m root done l with
  | none =>
      refine ⟨fun d hd => (by cases hd), fun _ => ?_⟩
      obtain ⟨k', hrun⟩ := hshort fun d hd => by
        rw [hd₁] at hd
        cases hd
      exact ⟨k', by simp only [hrun]⟩
  | some d₁ =>
      by_cases hle : d₁ ≤ available k g
      · obtain ⟨k₁, g₁, hrun, hsince₁, hcount⟩ := henough d₁ hd₁ hle
        obtain ⟨henough', hshort'⟩ := h' (done ++ l) k₁ g₁ hsince₁
        simp only [hrun, Option.bind_some]
        constructor
        · intro d hd hle'
          obtain ⟨d₂, hd₂, rfl⟩ := Option.map_eq_some_iff.mp hd
          obtain ⟨k₂, g₂, hrun₂, hsince₂, hcount₂⟩ := henough' d₂ hd₂ (by omega)
          rw [List.append_assoc] at hsince₂
          exact ⟨k₂, g₂, hrun₂, hsince₂, by omega⟩
        · intro hall
          refine hshort' fun d₂ hd₂ => ?_
          have hlt := hall (d₁ + d₂) (by rw [hd₂]; rfl)
          omega
      · constructor
        · intro d hd hle'
          obtain ⟨d₂, -, rfl⟩ := Option.map_eq_some_iff.mp hd
          omega
        · intro _
          obtain ⟨k', hrun⟩ := hshort fun d hd => by
            rw [hd₁] at hd
            cases hd
            omega
          exact ⟨k', by simp only [hrun]⟩

/-- A loop of such steps. -/
theorem forEach {β : Type} {body : β → Kernel → Except Int Unit × Kernel} {pages : β → List Nat}
    (h : ∀ b, Takes L m root (pages b) (body b)) (bs : List β) :
    Takes L m root (bs.flatMap pages) (PureOS.Foundation.forEach body bs) := by
  induction bs with
  | nil => exact skip fun k g hk => ⟨k, rfl, hk, rfl, rfl⟩
  | cons b rest ih =>
      have hrun : PureOS.Foundation.forEach body (b :: rest) = fun k =>
          match body b k with
          | (.ok (), k) => PureOS.Foundation.forEach body rest k
          | (.error e, k) => (.error e, k) := by
        funext k
        rw [PureOS.Foundation.forEach]
        rcases body b k with ⟨_ | _, k⟩ <;> rfl
      rw [List.flatMap_cons, hrun]
      exact (h b).seq ih

end Takes

end PureOS.Memory
