import PureOS.Memory.Pages

set_option autoImplicit false

/-!
# Memory: adding many pages

The loops that give pages to a process, with a record of each page that was added.  The
records of two loops that follow each other are put behind each other.
-/

namespace PureOS.Memory

open PureOS.Foundation PureOS.Process

/-- A page that was added: its frame, the list that its frame was put before, its rights,
and what is in it. -/
structure Page where
  va : Nat
  frame : Nat
  link : Nat
  writable : Bool
  user : Bool
  content : Nat → UInt8

/-- The head of a list of frames after the pages were put before it. -/
def headAfter (head : Nat) (log : List Page) : Nat := log.foldl (fun _ e => e.frame) head

/-- Each page was put before the list that the ones before it had made. -/
def Chained : Nat → List Page → Prop
  | _, [] => True
  | head, e :: rest => e.link = head ∧ Chained e.frame rest

theorem headAfter_append (head : Nat) (log log' : List Page) :
    headAfter head (log ++ log') = headAfter (headAfter head log) log' :=
  List.foldl_append

theorem Chained.append {head : Nat} {log log' : List Page} (h : Chained head log)
    (h' : Chained (headAfter head log) log') : Chained head (log ++ log') := by
  induction log generalizing head with
  | nil => exact h'
  | cons e rest ih => exact ⟨h.1, ih h.2 h'⟩

/-- The pages of the record were added to the process.  Of the entries for one page the last one
counts. -/
structure PagesAdded (L : Layout) (pid : Pid) (root : Nat) (log : List Page) (k k' : Kernel)
    (g g' : Ledger) : Prop where
  holds : Holds L k' g'
  grown : Grown (fun v => ∃ e ∈ log, v = pageNo e.va) k k' g g'
  frames : ∀ e ∈ log, g.Fresh e.frame ∧ g'.use e.frame = .held
  distinct : (log.map Page.frame).Nodup
  maps : ∀ front e back, log = front ++ e :: back → (∀ e' ∈ back, pageNo e'.va ≠ pageNo e.va) →
    MapsTo k'.mem root e.va e.frame e.writable e.user
  content : ∀ e ∈ log, ∀ i < 4096, k'.mem (e.frame + i) = e.content i
  less : available k' g' + log.length ≤ available k g
  heads : HeadSet pid (headAfter (k.table pid).framesHead log) k.table k'.table
  chained : Chained (k.table pid).framesHead log
  tracked : k'.tracked =
    Function.update k.tracked pid ((log.map Page.frame).reverse ++ k.tracked pid)
  current : k'.current = k.current
  tick : k'.tick = k.tick

/-- Adding the pages `l` ran short. -/
structure PagesLost (L : Layout) (pid : Pid) (l : List Nat) (k k' : Kernel) (g g' : Ledger) :
    Prop where
  holds : Holds L k' g'
  grown : Grown (fun v => ∃ va ∈ l, v = pageNo va) k k' g g'
  short : available k' g' < available k g ∨ available k g = 0
  heads : ∃ f, HeadSet pid f k.table k'.table
  tracked : ∀ p, p ≠ pid → k'.tracked p = k.tracked p
  current : k'.current = k.current

variable {L : Layout} {k k₁ k' k'' : Kernel} {g g₁ g' g'' : Ledger}
variable {pid : Pid} {root pml4 f : Nat} {log log' : List Page} {l : List Nat}

theorem HeadSet.refl (pid : Pid) (t : Table) : HeadSet pid (t pid).framesHead t t :=
  (Function.update_eq_self pid t).symm

theorem HeadSet.framesHead {t t' : Table} (h : HeadSet pid f t t') : (t' pid).framesHead = f := by
  rw [h, Function.update_self]

theorem PagesAdded.nil (h : Holds L k g) : PagesAdded L pid root [] k k g g where
  holds := h
  grown := .refl _ k g
  frames _ he := absurd he List.not_mem_nil
  distinct := List.nodup_nil
  maps front e back heq :=
    absurd heq.symm (List.append_ne_nil_of_right_ne_nil front (List.cons_ne_nil e back))
  content _ he := absurd he List.not_mem_nil
  less := Nat.le_refl _
  heads := .refl pid k.table
  chained := trivial
  tracked := (Function.update_eq_self pid k.tracked).symm
  current := rfl
  tick := rfl

/-- Two loops, one after the other. -/
theorem PagesAdded.append (hroot : g.use root = .table 3 0)
    (hfirst : PagesAdded L pid root log k k₁ g g₁)
    (hsecond : PagesAdded L pid root log' k₁ k' g₁ g') :
    PagesAdded L pid root (log ++ log') k k' g g' := by
  have hheld : ∀ e ∈ log, g₁.use e.frame = .held := fun e he => (hfirst.frames e he).2
  refine ⟨hsecond.holds, ?_, ?_, ?_, ?_, ?_, ?_, ?_, ?_, ?_, ?_, ?_⟩
  · refine (hfirst.grown.mono ?_).trans (hsecond.grown.mono ?_)
    · rintro v ⟨e, he, rfl⟩
      exact ⟨e, List.mem_append_left _ he, rfl⟩
    · rintro v ⟨e, he, rfl⟩
      exact ⟨e, List.mem_append_right _ he, rfl⟩
  · intro e he
    rcases List.mem_append.mp he with he | he
    · exact ⟨(hfirst.frames e he).1, hsecond.grown.held (hheld e he)⟩
    · exact ⟨hfirst.grown.fresh (hsecond.frames e he).1, (hsecond.frames e he).2⟩
  · rw [List.map_append]
    refine List.Nodup.append hfirst.distinct hsecond.distinct ?_
    intro f hf hf'
    obtain ⟨e, he, rfl⟩ := List.mem_map.mp hf
    obtain ⟨e', he', heq⟩ := List.mem_map.mp hf'
    have hfresh := (hsecond.frames e' he').1
    rw [heq] at hfresh
    exact hfresh.ne_held (hheld e he)
  · intro front e back heq hlast
    have hearlier : ∀ front' back', log = front' ++ e :: back' → back = back' ++ log' →
        MapsTo k'.mem root e.va e.frame e.writable e.user := by
      rintro front' back' hlog rfl
      refine (hfirst.maps front' e back' hlog fun e' he' =>
        hlast e' (List.mem_append_left _ he')).grown hfirst.holds.tables hsecond.grown
        (hfirst.grown.table hroot) ?_
      rintro ⟨e', he', hsame⟩
      exact hlast e' (List.mem_append_right _ he') hsame.symm
    rcases List.append_eq_append_iff.mp heq with ⟨front', _, hlog'⟩ | ⟨back', hlog, hrest⟩
    · exact hsecond.maps front' e back hlog' hlast
    · cases back' with
      | nil => exact hsecond.maps [] e back hrest.symm hlast
      | cons e₁ back' =>
          obtain ⟨rfl, hback⟩ := List.cons.inj hrest
          exact hearlier front back' hlog hback
  · intro e he i hi
    rcases List.mem_append.mp he with he | he
    · rw [hsecond.grown.byte hfirst.holds (hheld e he) hi]
      exact hfirst.content e he i hi
    · exact hsecond.content e he i hi
  · have h₁ := hfirst.less
    have h₂ := hsecond.less
    rw [List.length_append]
    omega
  · have hheads := hsecond.heads
    rw [hfirst.heads.framesHead, ← headAfter_append] at hheads
    exact hfirst.heads.trans hheads
  · have hchained := hsecond.chained
    rw [hfirst.heads.framesHead] at hchained
    exact hfirst.chained.append hchained
  · rw [hsecond.tracked, hfirst.tracked, Function.update_self, Function.update_idem,
      List.map_append, List.reverse_append, List.append_assoc]
  · exact hsecond.current.trans hfirst.current
  · exact hsecond.tick.trans hfirst.tick

/-- Pages that are all different stay mapped. -/
theorem PagesAdded.maps_of_nodup (h : PagesAdded L pid root log k k' g g')
    (hnodup : (log.map fun e => pageNo e.va).Nodup) {e : Page} (he : e ∈ log) :
    MapsTo k'.mem root e.va e.frame e.writable e.user := by
  obtain ⟨front, back, rfl⟩ := List.append_of_mem he
  rw [List.map_append, List.map_cons] at hnodup
  have hback := (List.nodup_cons.mp (List.nodup_append.mp hnodup).2.1).1
  refine h.maps front e back rfl fun e' he' hsame => hback ?_
  rw [← hsame]
  exact List.mem_map_of_mem he'

/-- A loop that runs short after another one. -/
theorem PagesAdded.lost (hadded : PagesAdded L pid root log k k₁ g g₁)
    (hlost : PagesLost L pid l k₁ k' g₁ g') :
    PagesLost L pid (log.map Page.va ++ l) k k' g g' := by
  obtain ⟨f, hf⟩ := hlost.heads
  refine ⟨hlost.holds, ?_, ?_, ⟨f, hadded.heads.trans hf⟩, fun p hp => ?_,
    hlost.current.trans hadded.current⟩
  · refine (hadded.grown.mono ?_).trans (hlost.grown.mono ?_)
    · rintro v ⟨e, he, rfl⟩
      exact ⟨e.va, List.mem_append_left _ (List.mem_map_of_mem he), rfl⟩
    · rintro v ⟨va, hva, rfl⟩
      exact ⟨va, List.mem_append_right _ hva, rfl⟩
  · have hless := hadded.grown.less
    rcases hlost.short with hshort | hnone
    · exact Or.inl (Nat.lt_of_lt_of_le hshort hless)
    · have hle := hlost.grown.less
      omega
  · rw [hlost.tracked p hp, hadded.tracked, Function.update_of_ne hp]

theorem PagesLost.mono {l' : List Nat} (h : PagesLost L pid l k k' g g')
    (hl : ∀ va ∈ l, va ∈ l') : PagesLost L pid l' k k' g g' := by
  refine ⟨h.holds, h.grown.mono ?_, h.short, h.heads, h.tracked, h.current⟩
  rintro v ⟨va, hva, rfl⟩
  exact ⟨va, hl va hva, rfl⟩

/-! ## The loops -/

/-- What a filling puts into a frame depends on the page and on the list before it. -/
def FillsWith (fill : Nat → Nat → Kernel → Kernel) (content : Nat → Nat → Nat → UInt8) : Prop :=
  ∀ va f link k, Aligned f →
    (∀ i < 4096, k.mem (f + i) = setWord (fun _ => 0) f link (f + i)) →
    ∀ i < 4096, (fill va f k).mem (f + i) = content va link i

/-- A body that adds a page. -/
def AddsPage (L : Layout) (pid : Pid) (pml4 : Nat) (writable user : Bool)
    (fill : Nat → Nat → Kernel → Kernel) (body : Nat → Kernel → Except Int Unit × Kernel) : Prop :=
  ∀ k g va, Holds L k g → g.use (target pml4) = .table 3 0 →
    (body va k = (.error errOutOfMemory, k) ∧ available k g = 0) ∨
    (∃ k' g', body va k = (.error errOutOfMemory, k') ∧ PageLost L pid k k' g g') ∨
    ∃ f k' g', body va k = (.ok (), fill va f k') ∧
      PageAdded L pid (target pml4) va writable user k k' g g' f ∧ Linked k k' pid f

theorem addsPage_trackAndMap (L : Layout) (pid : Pid) (pml4 : Nat) (writable user : Bool)
    (fill : Nat → Nat → Kernel → Kernel) :
    AddsPage L pid pml4 writable user fill (Kernel.trackAndMap pid pml4 writable user fill) := by
  intro k g va h hroot
  rcases trackAndMap_cases h hroot pid va writable user with
    ⟨heq, havail⟩ | ⟨k', g', heq, hlost⟩ | ⟨f, k', g', heq, hpage⟩
  · exact Or.inl ⟨heq fill, havail⟩
  · exact Or.inr (Or.inl ⟨k', g', heq fill, hlost⟩)
  · exact Or.inr (Or.inr ⟨f, k', g', heq fill, hpage⟩)

theorem addsPage_mapAndTrack (L : Layout) (pid : Pid) (pml4 : Nat) (writable user : Bool)
    (fill : Nat → Nat → Kernel → Kernel) :
    AddsPage L pid pml4 writable user fill (Kernel.mapAndTrack pid pml4 writable user fill) :=
  fun _ _ va h hroot => mapAndTrack_cases h hroot pid va writable user fill

/-- The pages of a record, in order, with the rights and the fillings of one loop. -/
structure PagesOf (fill : Nat → Nat → Kernel → Kernel) (writable user : Bool) (l : List Nat)
    (log : List Page) : Prop where
  pages : log.map Page.va = l
  rights : ∀ e ∈ log, e.writable = writable ∧ e.user = user
  filled : ∀ content, FillsWith fill content → ∀ e ∈ log, ∀ i < 4096,
    e.content i = content e.va e.link i

variable {writable user : Bool} {fill : Nat → Nat → Kernel → Kernel}
variable {body : Nat → Kernel → Except Int Unit × Kernel}

theorem PagesOf.nil : PagesOf fill writable user [] [] :=
  ⟨rfl, fun _ he => absurd he List.not_mem_nil, fun _ _ _ he => absurd he List.not_mem_nil⟩

theorem PagesOf.append {l' : List Nat} (h : PagesOf fill writable user l log)
    (h' : PagesOf fill writable user l' log') :
    PagesOf fill writable user (l ++ l') (log ++ log') := by
  refine ⟨by rw [List.map_append, h.pages, h'.pages], fun e he => ?_, fun content hcontent e he => ?_⟩
  · rcases List.mem_append.mp he with he | he
    · exact h.rights e he
    · exact h'.rights e he
  · rcases List.mem_append.mp he with he | he
    · exact h.filled content hcontent e he
    · exact h'.filled content hcontent e he

/-- One page as a record of one. -/
theorem PageAdded.record {va : Nat} (hfill : Fills fill) (hroot : g.use root = .table 3 0)
    (h : PageAdded L pid root va writable user k k₁ g g₁ f) (hlinked : Linked k k₁ pid f) :
    ∃ e : Page, PagesAdded L pid root [e] k (fill va f k₁) g g₁ ∧
      PagesOf fill writable user [va] [e] := by
  have hfilled := h.fill hfill hroot
  refine ⟨⟨va, f, (k.table pid).framesHead, writable, user, fun i => (fill va f k₁).mem (f + i)⟩,
    ?_, rfl, ?_, ?_⟩
  · refine ⟨hfilled.holds, ?_, ?_, List.nodup_singleton _, ?_, ?_, ?_, ?_, ⟨rfl, trivial⟩, ?_,
      hfilled.current, hfilled.tick⟩
    · exact hfilled.grown.mono fun v hv => ⟨_, List.mem_singleton_self _, hv⟩
    · intro e he
      rw [List.mem_singleton.mp he]
      exact ⟨h.fresh, h.held⟩
    · intro front e back heq _
      have he : e ∈ front ++ e :: back := List.mem_append_right _ List.mem_cons_self
      rw [← heq] at he
      rw [List.mem_singleton.mp he]
      exact hfilled.maps
    · intro e he i hi
      rw [List.mem_singleton.mp he]
    · exact hfilled.less
    · exact hfilled.heads
    · exact hfilled.tracked
  · intro e he
    rw [List.mem_singleton.mp he]
    exact ⟨rfl, rfl⟩
  · intro content hcontent e he i hi
    rw [List.mem_singleton.mp he]
    have haligned : Aligned f := h.holds.aligned (by rw [h.held]; exact Use.noConfusion)
    exact hcontent va f _ k₁ haligned hlinked i hi

/-- A loop adds all its pages, or runs short. -/
theorem pages_added (hbody : AddsPage L pid pml4 writable user fill body) (hfill : Fills fill)
    (h : Holds L k g) (hroot : g.use (target pml4) = .table 3 0) (l : List Nat) :
    (∃ k' g', forEach body l k = (.error errOutOfMemory, k') ∧ PagesLost L pid l k k' g g') ∨
    ∃ log k' g', forEach body l k = (.ok (), k') ∧
      PagesAdded L pid (target pml4) log k k' g g' ∧ PagesOf fill writable user l log := by
  have hends : Ends (fun k' => ∃ log g', PagesAdded L pid (target pml4) log k k' g g' ∧
        PagesOf fill writable user l log)
      (fun e k' => e = errOutOfMemory ∧ ∃ g', PagesLost L pid l k k' g g') (forEach body l k) := by
    refine forEach.rule (I := fun done k' => ∃ log g',
      PagesAdded L pid (target pml4) log k k' g g' ∧ PagesOf fill writable user done log) l
      ⟨[], g, .nil h, .nil⟩ ?_
    rintro done va rest k₁ hl ⟨log, g₁, hadded, hof⟩
    have hroot₁ := hadded.grown.table hroot
    have hmono : Grown (fun v => ∃ va ∈ l, v = pageNo va) k k₁ g g₁ := by
      refine hadded.grown.mono ?_
      rintro v ⟨e, he, rfl⟩
      refine ⟨e.va, ?_, rfl⟩
      rw [hl, ← hof.pages]
      exact List.mem_append_left _ (List.mem_map_of_mem he)
    rcases hbody k₁ g₁ va hadded.holds hroot₁ with ⟨heq, havail⟩ | ⟨k₂, g₂, heq, hlost⟩ |
      ⟨f, k₂, g₂, heq, hpage, hlinked⟩
    · rw [heq]
      refine ⟨rfl, g₁, hadded.holds, hmono, ?_, ⟨_, hadded.heads⟩, fun p hp => by
        rw [hadded.tracked, Function.update_of_ne hp], hadded.current⟩
      rw [havail]
      exact (Nat.eq_zero_or_pos _).symm
    · rw [heq]
      obtain ⟨f', hf'⟩ := hlost.heads
      refine ⟨rfl, g₂, hlost.holds, hmono.trans (hlost.grown.mono fun _ hv => hv.elim),
        Or.inl ?_, ⟨f', hadded.heads.trans hf'⟩, fun p hp => by
          rw [hlost.tracked p hp, hadded.tracked, Function.update_of_ne hp],
        hlost.current.trans hadded.current⟩
      exact Nat.lt_of_lt_of_le hlost.less hmono.less
    · rw [heq]
      obtain ⟨e, hone, hofone⟩ := hpage.record hfill hroot₁ hlinked
      exact ⟨log ++ [e], g₂, hadded.append hroot hone, hof.append hofone⟩
  rcases hr : forEach body l k with ⟨e | _, k'⟩
  · rw [hr] at hends
    obtain ⟨rfl, g', hlost⟩ := hends
    exact Or.inl ⟨k', g', rfl, hlost⟩
  · rw [hr] at hends
    obtain ⟨log, g', hadded, hof⟩ := hends
    exact Or.inr ⟨log, k', g', rfl, hadded, hof⟩

end PureOS.Memory
