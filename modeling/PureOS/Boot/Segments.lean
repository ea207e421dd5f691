import PureOS.Boot.Loader

set_option autoImplicit false

/-!
# Boot: what the loader leaves in memory

If no sum of the fields of the file wraps, then an image that is accepted is loaded: what is read
lies in the image, what is written lies in pages that were given out, and each segment is in place.
-/

namespace PureOS.Boot

open PureOS.Foundation

/-- The sums over one program header stay below the end of the 64-bit numbers. -/
structure Image.NoWrapAt (image : Image) (index : Nat) : Prop where
  header : image.header.phoff + index * image.header.phentsize + 56 < 2 ^ 64
  file : (image.programHeader index).isLoad = true →
    (image.programHeader index).offset + (image.programHeader index).filesz < 2 ^ 64
  memory : (image.programHeader index).isLoad = true →
    (image.programHeader index).pageOffset + (image.programHeader index).memsz + 4095 < 2 ^ 64
  range : (image.programHeader index).isLoad = true →
    (image.programHeader index).pageBase + (image.programHeader index).pages * 4096 < 2 ^ 64

/-- No sum of the fields wraps. -/
def Image.NoWrap (image : Image) : Prop := ∀ i < image.header.phnum, image.NoWrapAt i

/-- The checks that the loop makes on one program header. -/
structure Image.Checked (image : Image) (index : Nat) : Prop where
  header : wrappingAdd (image.phOffset index) 56 ≤ image.bytes.length
  size : (image.programHeader index).isLoad = true →
    (image.programHeader index).filesz ≤ (image.programHeader index).memsz
  file : (image.programHeader index).isLoad = true →
    wrappingAdd (image.programHeader index).offset (image.programHeader index).filesz ≤
      image.bytes.length

/-- The segment of a program header is in place. -/
def Image.InPlace (image : Image) (mem : Nat → UInt8) (index : Nat) : Prop :=
  ∀ j < (image.programHeader index).memsz, mem ((image.programHeader index).loadAddr + j) =
    if j < (image.programHeader index).filesz
    then image.bytes.getD ((image.programHeader index).offset + j) 0 else 0

/-- Everything that was read is in the image. -/
def Loader.ReadsInside {φ : Type} (image : Image) (s : Loader φ) : Prop :=
  ∀ r ∈ s.reads, r.1 + r.2 ≤ image.bytes.length

/-- Everything that was written is in pages that were given out. -/
def Loader.WritesInside {φ : Type} (s : Loader φ) : Prop :=
  ∀ w ∈ s.writes, ∀ a, w.1 ≤ a → a < w.1 + w.2 → ∃ p ∈ s.granted, p.1 ≤ a ∧ a < p.1 + p.2

/-- What a loaded image is. -/
structure Loaded {φ : Type} (image : Image) (s : Loader φ) : Prop where
  reads : s.ReadsInside image
  writes : s.WritesInside
  segments : ∀ i < image.header.phnum, (image.programHeader i).isLoad = true →
    image.InPlace s.mem i

variable {φ : Type} {fw : Firmware φ} {image : Image} {i lowest highest : Nat}
variable {s s' : Loader φ}

/-! ## Writing -/

theorem store_eq_overlay {mem : Nat → UInt8} {addr n : Nat} {src : Nat → UInt8}
    (h : addr + n ≤ 2 ^ 64) : store mem addr n src = overlay mem addr n src := by
  funext a
  unfold store overlay
  by_cases hin : addr ≤ a ∧ a < addr + n
  · have hoff : (a + 2 ^ 64 - addr) % 2 ^ 64 = a - addr := by omega
    rw [if_pos hin, hoff, if_pos (by omega)]
  · rw [if_neg hin, if_neg (by omega)]

theorem loadAddr_lt (image : Image) (index : Nat) :
    (image.programHeader index).loadAddr < 2 ^ 64 := by
  unfold Elf64ProgramHeader.loadAddr
  split
  · exact readLE_lt _ 24 8
  · exact readLE_lt _ 16 8

theorem pageBase_add_pageOffset (ph : Elf64ProgramHeader) :
    ph.pageBase + ph.pageOffset = ph.loadAddr := by
  have hle := pageDown_le ph.loadAddr
  unfold Elf64ProgramHeader.pageOffset Elf64ProgramHeader.pageBase
  omega

/-- The pages reach from the start of the page to the end of the segment. -/
theorem memsz_le_pages {ph : Elf64ProgramHeader}
    (h : ph.pageOffset + ph.memsz + 4095 < 2 ^ 64) :
    ph.loadAddr + ph.memsz ≤ ph.pageBase + ph.pages * 4096 := by
  have hadd := pageBase_add_pageOffset ph
  have hsum : (ph.pageOffset + ph.memsz + 4096 - 1) % 2 ^ 64 = ph.pageOffset + ph.memsz + 4095 :=
    Nat.mod_eq_of_lt h
  rw [Elf64ProgramHeader.pages, hsum]
  omega

/-- The bytes of the segment are filled in, and no others. -/
theorem fill_mem {ph : Elf64ProgramHeader} (hsize : ph.filesz ≤ ph.memsz)
    (hend : ph.loadAddr + ph.memsz < 2 ^ 64) (a : Nat) :
    (s.fill image ph).mem a =
      if ph.loadAddr ≤ a ∧ a < ph.loadAddr + ph.memsz then
        if a - ph.loadAddr < ph.filesz then image.from ph.offset (a - ph.loadAddr) else 0
      else s.mem a := by
  have hstart : wrappingAdd ph.loadAddr ph.filesz = ph.loadAddr + ph.filesz := by
    refine wrappingAdd_of_lt ?_
    unfold wordSize
    omega
  have hfile : ph.loadAddr + ph.filesz ≤ 2 ^ 64 := by omega
  have hzero : ph.loadAddr + ph.filesz + (ph.memsz - ph.filesz) ≤ 2 ^ 64 := by omega
  unfold Loader.fill
  dsimp only
  split
  · dsimp only [Loader.noteRead]
    rw [hstart, store_eq_overlay hzero, store_eq_overlay hfile]
    by_cases hin : ph.loadAddr ≤ a ∧ a < ph.loadAddr + ph.memsz
    · rw [if_pos hin]
      by_cases hf : a - ph.loadAddr < ph.filesz
      · rw [if_pos hf, overlay, if_neg (by omega), overlay, if_pos (by omega)]
      · rw [if_neg hf, overlay, if_pos (by omega)]
    · rw [if_neg hin, overlay, if_neg (by omega), overlay, if_neg (by omega)]
  · dsimp only [Loader.noteRead]
    rw [store_eq_overlay hfile, overlay]
    have heq : ph.filesz = ph.memsz := by omega
    by_cases hin : ph.loadAddr ≤ a ∧ a < ph.loadAddr + ph.memsz
    · rw [if_pos hin, if_pos (by omega), if_pos (by omega)]
    · rw [if_neg hin, if_neg (by omega)]

/-- What the fill notes. -/
theorem fill_notes {ph : Elf64ProgramHeader} (hsize : ph.filesz ≤ ph.memsz)
    (hend : ph.loadAddr + ph.memsz < 2 ^ 64) :
    (s.fill image ph).reads = (ph.offset, ph.filesz) :: s.reads ∧
      (s.fill image ph).granted = s.granted ∧ (s.fill image ph).firmware = s.firmware ∧
      ∀ w ∈ (s.fill image ph).writes,
        w ∈ s.writes ∨ ph.loadAddr ≤ w.1 ∧ w.1 + w.2 ≤ ph.loadAddr + ph.memsz := by
  have hstart : wrappingAdd ph.loadAddr ph.filesz = ph.loadAddr + ph.filesz := by
    refine wrappingAdd_of_lt ?_
    unfold wordSize
    omega
  unfold Loader.fill
  dsimp only
  split
  · refine ⟨rfl, rfl, rfl, fun w hw => ?_⟩
    rw [hstart] at hw
    rcases List.mem_cons.mp hw with rfl | hw
    · right
      dsimp only
      omega
    · rcases List.mem_cons.mp hw with rfl | hw
      · right
        dsimp only
        omega
      · exact Or.inl hw
  · refine ⟨rfl, rfl, rfl, fun w hw => ?_⟩
    rcases List.mem_cons.mp hw with rfl | hw
    · right
      dsimp only
      omega
    · exact Or.inl hw

/-! ## The loop -/

/-- How the body of the loop may end well: the checks are passed, and the firmware gives out the
pages if there is a segment to load. -/
theorem loadSegment_cases (fw : Firmware φ) (image : Image) (i : Nat) (s : Loader φ) :
    (∃ status s', s.loadSegment fw image i = (.error status, s') ∧
      ¬(image.Checked i ∧ ((image.programHeader i).isLoad = true →
        ∃ f, fw.allocatePages s.firmware (image.programHeader i).pageBase
          (image.programHeader i).pages = .ok f))) ∨
    (image.Checked i ∧ (image.programHeader i).isLoad = false ∧
      s.loadSegment fw image i = (.ok none, s.noteRead (image.phOffset i) 56)) ∨
    ∃ f, image.Checked i ∧ (image.programHeader i).isLoad = true ∧
      fw.allocatePages s.firmware (image.programHeader i).pageBase
        (image.programHeader i).pages = .ok f ∧
      s.loadSegment fw image i = (.ok (some (image.programHeader i)),
        { s.noteRead (image.phOffset i) 56 with
          firmware := f
          granted := ((image.programHeader i).pageBase, (image.programHeader i).pages * 4096) ::
            s.granted }.fill image (image.programHeader i)) := by
  unfold Loader.loadSegment
  by_cases hheader : wrappingAdd (image.phOffset i) 56 > image.bytes.length
  · rw [if_pos hheader]
    exact Or.inl ⟨_, _, rfl, fun h => Nat.not_le.mpr hheader h.1.header⟩
  rw [if_neg hheader]
  dsimp only
  cases hload : (image.programHeader i).isLoad with
  | false =>
      refine Or.inr (Or.inl ⟨⟨Nat.not_lt.mp hheader, ?_, ?_⟩, rfl, rfl⟩)
      · exact fun h => nomatch hload.symm.trans h
      · exact fun h => nomatch hload.symm.trans h
  | true =>
      simp only [not_true_eq_false, if_false]
      by_cases hsize : (image.programHeader i).filesz > (image.programHeader i).memsz
      · rw [if_pos hsize]
        exact Or.inl ⟨_, _, rfl, fun h => Nat.not_le.mpr hsize (h.1.size hload)⟩
      rw [if_neg hsize]
      by_cases hfile : wrappingAdd (image.programHeader i).offset
          (image.programHeader i).filesz > image.bytes.length
      · rw [if_pos hfile]
        exact Or.inl ⟨_, _, rfl, fun h => Nat.not_le.mpr hfile (h.1.file hload)⟩
      rw [if_neg hfile]
      have hfirmware : (s.noteRead (image.phOffset i) 56).firmware = s.firmware := rfl
      rw [hfirmware]
      cases halloc : fw.allocatePages s.firmware (image.programHeader i).pageBase
          (image.programHeader i).pages with
      | error status =>
          refine Or.inl ⟨status, _, rfl, fun h => ?_⟩
          obtain ⟨f, hf⟩ := h.2 trivial
          cases hf
      | ok f =>
          exact Or.inr (Or.inr ⟨f, ⟨Nat.not_lt.mp hheader, fun _ => Nat.not_lt.mp hsize,
            fun _ => Nat.not_lt.mp hfile⟩, trivial, rfl, rfl⟩)

/-- What the loop keeps and brings about while no sum wraps. -/
structure Progress (fw : Firmware φ) (image : Image) (l : List Nat) (s s' : Loader φ) : Prop where
  keeps : ∀ a, fw.taken s.firmware a → fw.taken s'.firmware a ∧ s'.mem a = s.mem a
  reads : s.ReadsInside image → s'.ReadsInside image
  writes : s.WritesInside → s'.WritesInside
  inPlace : ∀ i ∈ l, (image.programHeader i).isLoad = true →
    image.InPlace s'.mem i ∧
      ∀ j < (image.programHeader i).memsz,
        fw.taken s'.firmware ((image.programHeader i).loadAddr + j)

theorem Progress.refl (s : Loader φ) : Progress fw image [] s s :=
  ⟨fun _ h => ⟨h, rfl⟩, id, id, fun _ hi => absurd hi List.not_mem_nil⟩

theorem Progress.trans {l l' : List Nat} {s'' : Loader φ} (h : Progress fw image l s s')
    (h' : Progress fw image l' s' s'') : Progress fw image (l ++ l') s s'' where
  keeps a ha := by
    obtain ⟨ha', hsame⟩ := h.keeps a ha
    obtain ⟨ha'', hsame'⟩ := h'.keeps a ha'
    exact ⟨ha'', hsame'.trans hsame⟩
  reads hr := h'.reads (h.reads hr)
  writes hw := h'.writes (h.writes hw)
  inPlace i hi hload := by
    rcases List.mem_append.mp hi with hi | hi
    · obtain ⟨hplace, htaken⟩ := h.inPlace i hi hload
      refine ⟨fun j hj => ?_, fun j hj => (h'.keeps _ (htaken j hj)).1⟩
      rw [(h'.keeps _ (htaken j hj)).2, hplace j hj]
    · exact h'.inPlace i hi hload

theorem phOffset_of_noWrap (h : image.NoWrapAt i) :
    image.phOffset i = image.header.phoff + i * image.header.phentsize := by
  refine wrappingAdd_of_lt ?_
  have hlt := h.header
  unfold wordSize
  omega

/-- The read of a program header that was checked. -/
theorem header_inside (h : image.NoWrapAt i) (hchecked : image.Checked i) :
    image.phOffset i + 56 ≤ image.bytes.length := by
  have hle := hchecked.header
  rwa [wrappingAdd_of_lt] at hle
  rw [phOffset_of_noWrap h]
  exact h.header

theorem noteRead_progress (h : image.NoWrapAt i) (hchecked : image.Checked i)
    (hload : (image.programHeader i).isLoad = false) :
    Progress fw image [i] s (s.noteRead (image.phOffset i) 56) where
  keeps _ ha := ⟨ha, rfl⟩
  reads hr r hmem := by
    rcases List.mem_cons.mp hmem with rfl | hmem
    · exact header_inside h hchecked
    · exact hr r hmem
  writes := id
  inPlace i' hi' hload' := by
    rw [List.mem_singleton.mp hi', hload] at hload'
    cases hload'

theorem fill_progress (h : image.NoWrapAt i) (hchecked : image.Checked i)
    (hload : (image.programHeader i).isLoad = true) {f : φ}
    (halloc : fw.allocatePages s.firmware (image.programHeader i).pageBase
      (image.programHeader i).pages = .ok f) :
    Progress fw image [i] s ({ s.noteRead (image.phOffset i) 56 with
      firmware := f
      granted := ((image.programHeader i).pageBase, (image.programHeader i).pages * 4096) ::
        s.granted }.fill image (image.programHeader i)) := by
  have hpages := memsz_le_pages (h.memory hload)
  have hfits := fw.fits _ _ _ _ halloc
  have hsize := hchecked.size hload
  have hend : (image.programHeader i).loadAddr + (image.programHeader i).memsz < 2 ^ 64 := by omega
  have hbase : (image.programHeader i).pageBase ≤ (image.programHeader i).loadAddr := pageDown_le _
  have hfile : (image.programHeader i).offset + (image.programHeader i).filesz ≤
      image.bytes.length := by
    have hle := hchecked.file hload
    rwa [wrappingAdd_of_lt (h.file hload)] at hle
  generalize hs₁ : ({ s.noteRead (image.phOffset i) 56 with
    firmware := f
    granted := ((image.programHeader i).pageBase, (image.programHeader i).pages * 4096) ::
      s.granted } : Loader φ) = s₁
  have hfirmware : s₁.firmware = f := by rw [← hs₁]
  have hgranted : s₁.granted = ((image.programHeader i).pageBase,
      (image.programHeader i).pages * 4096) :: s.granted := by rw [← hs₁]
  have hmem : s₁.mem = s.mem := by
    rw [← hs₁]
    rfl
  have hreads : s₁.reads = (image.phOffset i, 56) :: s.reads := by
    rw [← hs₁]
    rfl
  have hwrites : s₁.writes = s.writes := by
    rw [← hs₁]
    rfl
  have hfill := @fill_mem φ image s₁ _ hsize hend
  obtain ⟨hreads', hgranted', hfirmware', hwrites'⟩ := @fill_notes φ image s₁ _ hsize hend
  rw [hfirmware] at hfirmware'
  refine ⟨fun a ha => ⟨?_, ?_⟩, fun hr r hmem' => ?_, fun hw w hmem' a hle hlt => ?_,
    fun i' hi' _ => ?_⟩
  · rw [hfirmware']
    exact (fw.takes _ _ _ _ halloc a).mpr (Or.inl ha)
  · have hnot : ¬((image.programHeader i).loadAddr ≤ a ∧
        a < (image.programHeader i).loadAddr + (image.programHeader i).memsz) := by
      intro hin
      exact fw.free _ _ _ _ halloc a (by omega) (by omega) ha
    rw [hfill, if_neg hnot, hmem]
  · rw [hreads', hreads] at hmem'
    rcases List.mem_cons.mp hmem' with rfl | hmem'
    · exact hfile
    · rcases List.mem_cons.mp hmem' with rfl | hmem'
      · exact header_inside h hchecked
      · exact hr r hmem'
  · rw [hgranted', hgranted]
    rcases hwrites' w hmem' with hold | ⟨hstart, hstop⟩
    · rw [hwrites] at hold
      obtain ⟨p, hp, hin⟩ := hw w hold a hle hlt
      exact ⟨p, List.mem_cons_of_mem _ hp, hin⟩
    · refine ⟨_, List.mem_cons_self, ?_, ?_⟩
      · dsimp only
        omega
      · dsimp only
        omega
  · rw [List.mem_singleton.mp hi']
    refine ⟨fun j hj => ?_, fun j hj => ?_⟩
    · rw [hfill, if_pos (by omega), Nat.add_sub_cancel_left]
      by_cases hj' : j < (image.programHeader i).filesz
      · have hoff : wrappingAdd (image.programHeader i).offset j =
            (image.programHeader i).offset + j := by
          have hlt := h.file hload
          refine wrappingAdd_of_lt ?_
          unfold wordSize
          omega
        have hin : (image.programHeader i).offset + j < image.bytes.length := by omega
        rw [if_pos hj', if_pos hj', Image.from, hoff, Image.byteAt,
          List.getD_eq_getElem?_getD, List.getD_eq_getElem?_getD, List.getElem?_eq_getElem hin]
        rfl
      · rw [if_neg hj', if_neg hj']
    · rw [hfirmware']
      exact (fw.takes _ _ _ _ halloc _).mpr (Or.inr ⟨by omega, by omega⟩)

/-- The run lemma of the loop. -/
theorem loadLoop_progress {l : List Nat} {r : Nat × Nat} (h : ∀ i ∈ l, image.NoWrapAt i)
    (hrun : s.loadLoop fw image l lowest highest = (.ok r, s')) : Progress fw image l s s' := by
  induction l generalizing s lowest highest with
  | nil =>
      cases hrun
      exact .refl _
  | cons i l ih =>
      have hi := h i List.mem_cons_self
      have hl (j : Nat) (hj : j ∈ l) := h j (List.mem_cons_of_mem i hj)
      rw [Loader.loadLoop] at hrun
      rcases loadSegment_cases fw image i s with ⟨status, s₁, hstep, -⟩ | ⟨hchecked, hload, hstep⟩ |
        ⟨f, hchecked, hload, halloc, hstep⟩
      · rw [hstep] at hrun
        cases hrun
      · rw [hstep] at hrun
        exact (noteRead_progress hi hchecked hload).trans (ih hl hrun)
      · rw [hstep] at hrun
        exact (fill_progress hi hchecked hload halloc).trans (ih hl hrun)

/-! ## Which images are accepted -/

/-- The pages that the loop asks for. -/
def Image.requests (image : Image) (l : List Nat) : List (Nat × Nat) :=
  l.filterMap fun i =>
    if (image.programHeader i).isLoad then
      some ((image.programHeader i).pageBase, (image.programHeader i).pages)
    else none

/-- The firmware gives out all of them, one after the other. -/
def Firmware.grants (fw : Firmware φ) (f : φ) (l : List (Nat × Nat)) : Except Nat φ :=
  l.foldlM (fun f r => fw.allocatePages f r.1 r.2) f

/-- Every check is passed, there is a segment to load, and the firmware gives out the pages. -/
structure Accepted (fw : Firmware φ) (image : Image) (f : φ) : Prop where
  length : 64 ≤ image.bytes.length
  header : image.header.ok = true
  phentsize : 56 ≤ image.header.phentsize
  checked : ∀ i < image.header.phnum, image.Checked i
  segment : ∃ i < image.header.phnum, (image.programHeader i).isLoad = true
  granted : ∃ f', fw.grants f (image.requests (List.range image.header.phnum)) = .ok f'

theorem requests_cons_of_load {l : List Nat} (h : (image.programHeader i).isLoad = true) :
    image.requests (i :: l) =
      ((image.programHeader i).pageBase, (image.programHeader i).pages) :: image.requests l := by
  rw [Image.requests, List.filterMap_cons, if_pos h]
  rfl

theorem requests_cons_of_not_load {l : List Nat} (h : (image.programHeader i).isLoad = false) :
    image.requests (i :: l) = image.requests l := by
  rw [Image.requests, List.filterMap_cons, h]
  rfl

theorem fill_firmware (s : Loader φ) (image : Image) (ph : Elf64ProgramHeader) :
    (s.fill image ph).firmware = s.firmware := by
  unfold Loader.fill
  dsimp only
  split <;> rfl

/-- The loop ends well exactly if all its checks are passed and all its pages given out. -/
theorem loadLoop_ok_iff {l : List Nat} :
    (∃ r s', s.loadLoop fw image l lowest highest = (.ok r, s')) ↔
      (∀ i ∈ l, image.Checked i) ∧ ∃ f, fw.grants s.firmware (image.requests l) = .ok f := by
  induction l generalizing s lowest highest with
  | nil =>
      refine iff_of_true ⟨_, s, rfl⟩ ⟨fun i hi => absurd hi List.not_mem_nil, s.firmware, rfl⟩
  | cons i l ih =>
      rw [Loader.loadLoop, List.forall_mem_cons]
      rcases loadSegment_cases fw image i s with ⟨status, s₁, hstep, hnot⟩ |
        ⟨hchecked, hload, hstep⟩ | ⟨f, hchecked, hload, halloc, hstep⟩
      · rw [hstep]
        refine iff_of_false (fun ⟨r, s', heq⟩ => nomatch heq) ?_
        rintro ⟨⟨hchecked, -⟩, f, hgrants⟩
        refine hnot ⟨hchecked, fun hload => ?_⟩
        rw [requests_cons_of_load hload, Firmware.grants, List.foldlM_cons] at hgrants
        cases halloc : fw.allocatePages s.firmware (image.programHeader i).pageBase
            (image.programHeader i).pages with
        | error status =>
            rw [halloc] at hgrants
            cases hgrants
        | ok f => exact ⟨f, rfl⟩
      · rw [hstep, requests_cons_of_not_load hload]
        dsimp only
        rw [ih]
        exact ⟨fun ⟨hall, hgrants⟩ => ⟨⟨hchecked, hall⟩, hgrants⟩,
          fun ⟨⟨_, hall⟩, hgrants⟩ => ⟨hall, hgrants⟩⟩
      · rw [hstep, requests_cons_of_load hload, Firmware.grants, List.foldlM_cons, halloc]
        dsimp only
        rw [ih, fill_firmware]
        exact ⟨fun ⟨hall, hgrants⟩ => ⟨⟨hchecked, hall⟩, hgrants⟩,
          fun ⟨⟨_, hall⟩, hgrants⟩ => ⟨hall, hgrants⟩⟩

theorem pageBase_lt (image : Image) (index : Nat) :
    (image.programHeader index).pageBase < 2 ^ 64 - 1 := by
  have hlt := loadAddr_lt image index
  unfold Elf64ProgramHeader.pageBase pageDown
  omega

/-- `lowest_base` is only changed for a segment to load. -/
theorem loadLoop_lowest {l : List Nat} {r : Nat × Nat}
    (hrun : s.loadLoop fw image l lowest highest = (.ok r, s')) :
    r.1 ≤ lowest ∧ ((∃ i ∈ l, (image.programHeader i).isLoad = true) → r.1 < 2 ^ 64 - 1) ∧
      ((∀ i ∈ l, (image.programHeader i).isLoad = false) → r.1 = lowest) := by
  induction l generalizing s lowest highest with
  | nil =>
      cases hrun
      exact ⟨Nat.le_refl _, fun ⟨i, hi, _⟩ => absurd hi List.not_mem_nil, fun _ => rfl⟩
  | cons i l ih =>
      rw [Loader.loadLoop] at hrun
      rcases loadSegment_cases fw image i s with ⟨status, s₁, hstep, -⟩ |
        ⟨-, hload, hstep⟩ | ⟨f, -, hload, -, hstep⟩
      · rw [hstep] at hrun
        cases hrun
      · rw [hstep] at hrun
        obtain ⟨hle, hsome, hnone⟩ := ih hrun
        refine ⟨hle, fun ⟨j, hj, hjload⟩ => ?_, fun hall => ?_⟩
        · rcases List.mem_cons.mp hj with rfl | hj
          · rw [hload] at hjload
            cases hjload
          · exact hsome ⟨j, hj, hjload⟩
        · exact hnone fun j hj => hall j (List.mem_cons_of_mem i hj)
      · rw [hstep] at hrun
        obtain ⟨hle, -, -⟩ := ih hrun
        have hbase := pageBase_lt image i
        refine ⟨by omega, fun _ => by omega, fun hall => ?_⟩
        rw [hall i List.mem_cons_self] at hload
        cases hload

/-- The loader accepts an image exactly if every check is passed and every page given out. -/
theorem loadElfSegments_ok_iff :
    (∃ kernel s', s.loadElfSegments fw image = (.ok kernel, s')) ↔
      Accepted fw image s.firmware := by
  unfold Loader.loadElfSegments
  by_cases hlength : image.bytes.length < 64
  · rw [if_pos hlength]
    exact iff_of_false (fun ⟨_, _, heq⟩ => nomatch heq) fun h =>
      absurd h.length (Nat.not_le.mpr hlength)
  rw [if_neg hlength]
  cases hok : image.header.ok with
  | false => exact iff_of_false (fun ⟨_, _, heq⟩ => nomatch heq) fun h => nomatch hok.symm.trans h.header
  | true =>
      simp only [not_true_eq_false, if_false]
      by_cases hentsize : image.header.phentsize < 56
      · rw [if_pos hentsize]
        exact iff_of_false (fun ⟨_, _, heq⟩ => nomatch heq) fun h =>
          absurd h.phentsize (Nat.not_le.mpr hentsize)
      rw [if_neg hentsize]
      have hloop := @loadLoop_ok_iff φ fw image (2 ^ 64 - 1) 0 (s.noteRead 0 64)
        (List.range image.header.phnum)
      cases hrun : (s.noteRead 0 64).loadLoop fw image (List.range image.header.phnum)
          (2 ^ 64 - 1) 0 with
      | mk result s₁ =>
          cases result with
          | error status =>
              refine iff_of_false (fun ⟨_, _, heq⟩ => nomatch heq) fun h => ?_
              obtain ⟨r, s', heq⟩ := hloop.mpr
                ⟨fun i hi => h.checked i (List.mem_range.mp hi), h.granted⟩
              rw [hrun] at heq
              cases heq
          | ok r =>
              obtain ⟨hchecked, hgranted⟩ := hloop.mp ⟨r, s₁, hrun⟩
              obtain ⟨-, hsome, hnone⟩ := loadLoop_lowest hrun
              dsimp only
              by_cases hlowest : r.1 = 2 ^ 64 - 1
              · rw [if_pos hlowest]
                refine iff_of_false (fun ⟨_, _, heq⟩ => nomatch heq) fun h => ?_
                obtain ⟨i, hi, hload⟩ := h.segment
                have hlt := hsome ⟨i, List.mem_range.mpr hi, hload⟩
                omega
              · rw [if_neg hlowest]
                refine iff_of_true ⟨_, _, rfl⟩ ⟨Nat.not_lt.mp hlength, hok, Nat.not_lt.mp hentsize,
                  fun i hi => hchecked i (List.mem_range.mpr hi), ?_, hgranted⟩
                by_contra hsegment
                refine hlowest (hnone fun i hi => ?_)
                rw [← Bool.not_eq_true]
                exact fun hload => hsegment ⟨i, List.mem_range.mp hi, hload⟩

/-- The loop of a call that ends well. -/
theorem loadLoop_of_ok {kernel : Loader.LoadedKernel}
    (hrun : s.loadElfSegments fw image = (.ok kernel, s')) :
    ∃ r, (s.noteRead 0 64).loadLoop fw image (List.range image.header.phnum) (2 ^ 64 - 1) 0 =
      (.ok r, s') := by
  have haccepted := loadElfSegments_ok_iff.mp ⟨kernel, s', hrun⟩
  unfold Loader.loadElfSegments at hrun
  rw [if_neg (Nat.not_lt.mpr haccepted.length)] at hrun
  simp only [haccepted.header, not_true_eq_false, if_false] at hrun
  rw [if_neg (Nat.not_lt.mpr haccepted.phentsize)] at hrun
  cases hloop : (s.noteRead 0 64).loadLoop fw image (List.range image.header.phnum)
      (2 ^ 64 - 1) 0 with
  | mk result s₁ =>
      rw [hloop] at hrun
      cases result with
      | error status => cases hrun
      | ok r =>
          dsimp only at hrun
          split at hrun
          · cases hrun
          · cases hrun
            exact ⟨r, rfl⟩

/-- What an accepted image leaves, if no sum wraps. -/
theorem loaded_of_ok {kernel : Loader.LoadedKernel} (h : image.NoWrap) (hreads : s.reads = [])
    (hwrites : s.writes = []) (hrun : s.loadElfSegments fw image = (.ok kernel, s')) :
    Loaded image s' := by
  have haccepted := loadElfSegments_ok_iff.mp ⟨kernel, s', hrun⟩
  obtain ⟨r, hloop⟩ := loadLoop_of_ok hrun
  have hprogress := loadLoop_progress (fun i hi => h i (List.mem_range.mp hi)) hloop
  refine ⟨hprogress.reads fun r hr => ?_, hprogress.writes fun w hw => ?_,
    fun i hi hload => (hprogress.inPlace i (List.mem_range.mpr hi) hload).1⟩
  · have heq : (s.noteRead 0 64).reads = [(0, 64)] := congrArg _ hreads
    rw [heq] at hr
    rw [List.mem_singleton.mp hr]
    exact haccepted.length
  · rw [show (s.noteRead 0 64).writes = [] from hwrites] at hw
    exact absurd hw List.not_mem_nil

/-! ## What a sum that wraps does -/

/-- What is noted for a program header once it was accepted. -/
structure Noted (image : Image) (s : Loader φ) (index : Nat) : Prop where
  header : (image.phOffset index, 56) ∈ s.reads
  file : (image.programHeader index).isLoad = true →
    ((image.programHeader index).offset, (image.programHeader index).filesz) ∈ s.reads
  copy : (image.programHeader index).isLoad = true →
    ((image.programHeader index).loadAddr, (image.programHeader index).filesz) ∈ s.writes
  zeros : (image.programHeader index).isLoad = true →
    (image.programHeader index).filesz < (image.programHeader index).memsz →
      (wrappingAdd (image.programHeader index).loadAddr (image.programHeader index).filesz,
        (image.programHeader index).memsz - (image.programHeader index).filesz) ∈ s.writes
  fits : (image.programHeader index).isLoad = true →
    (image.programHeader index).pageBase + (image.programHeader index).pages * 4096 < 2 ^ 64

/-- The last page of the 64-bit addresses is not given out. -/
def Loader.GrantedBelow (s : Loader φ) : Prop := ∀ p ∈ s.granted, p.1 + p.2 ≤ 2 ^ 64 - 4096

/-- Notes are not taken back. -/
structure Notes (s s' : Loader φ) : Prop where
  reads : ∀ r ∈ s.reads, r ∈ s'.reads
  writes : ∀ w ∈ s.writes, w ∈ s'.writes
  granted : s.GrantedBelow → s'.GrantedBelow

theorem Notes.trans {s'' : Loader φ} (h : Notes s s') (h' : Notes s' s'') : Notes s s'' :=
  ⟨fun r hr => h'.reads r (h.reads r hr), fun w hw => h'.writes w (h.writes w hw),
    fun hg => h'.granted (h.granted hg)⟩

theorem Noted.mono (h : Noted image s i) (hnotes : Notes s s') : Noted image s' i :=
  ⟨hnotes.reads _ h.header, fun hload => hnotes.reads _ (h.file hload),
    fun hload => hnotes.writes _ (h.copy hload),
    fun hload hlt => hnotes.writes _ (h.zeros hload hlt), h.fits⟩

/-- What the fill notes in any case. -/
theorem fill_noted (s : Loader φ) (image : Image) (ph : Elf64ProgramHeader) :
    (s.fill image ph).reads = (ph.offset, ph.filesz) :: s.reads ∧
      (s.fill image ph).granted = s.granted ∧
      (∀ w ∈ s.writes, w ∈ (s.fill image ph).writes) ∧
      (ph.loadAddr, ph.filesz) ∈ (s.fill image ph).writes ∧
      (ph.filesz < ph.memsz → (wrappingAdd ph.loadAddr ph.filesz, ph.memsz - ph.filesz) ∈
        (s.fill image ph).writes) := by
  unfold Loader.fill
  dsimp only
  split
  · exact ⟨rfl, rfl, fun w hw => List.mem_cons_of_mem _ (List.mem_cons_of_mem _ hw),
      List.mem_cons_of_mem _ List.mem_cons_self, fun _ => List.mem_cons_self⟩
  · rename_i hnot
    exact ⟨rfl, rfl, fun w hw => List.mem_cons_of_mem _ hw, List.mem_cons_self,
      fun hlt => absurd hlt hnot⟩

theorem loadLoop_noted {l : List Nat} {r : Nat × Nat}
    (hrun : s.loadLoop fw image l lowest highest = (.ok r, s')) :
    Notes s s' ∧ ∀ i ∈ l, Noted image s' i := by
  induction l generalizing s lowest highest with
  | nil =>
      cases hrun
      exact ⟨⟨fun _ => id, fun _ => id, id⟩, fun i hi => absurd hi List.not_mem_nil⟩
  | cons i l ih =>
      rw [Loader.loadLoop] at hrun
      rcases loadSegment_cases fw image i s with ⟨status, s₁, hstep, -⟩ |
        ⟨-, hload, hstep⟩ | ⟨f, -, hload, halloc, hstep⟩
      · rw [hstep] at hrun
        cases hrun
      · rw [hstep] at hrun
        obtain ⟨hnotes, hnoted⟩ := ih hrun
        have hfirst : Notes s (s.noteRead (image.phOffset i) 56) :=
          ⟨fun r hr => List.mem_cons_of_mem _ hr, fun _ => id, id⟩
        refine ⟨hfirst.trans hnotes, List.forall_mem_cons.mpr ⟨?_, hnoted⟩⟩
        refine Noted.mono ⟨List.mem_cons_self, fun h => ?_, fun h => ?_, fun h => ?_, fun h => ?_⟩
          hnotes <;> exact nomatch hload.symm.trans h
      · rw [hstep] at hrun
        obtain ⟨hnotes, hnoted⟩ := ih hrun
        generalize hs₁ : ({ s.noteRead (image.phOffset i) 56 with
          firmware := f
          granted := ((image.programHeader i).pageBase, (image.programHeader i).pages * 4096) ::
            s.granted } : Loader φ) = s₁ at hnotes
        have hreads₁ : s₁.reads = (image.phOffset i, 56) :: s.reads := by
          rw [← hs₁]
          rfl
        have hwrites₁ : s₁.writes = s.writes := by
          rw [← hs₁]
          rfl
        have hgranted₁ : s₁.granted = ((image.programHeader i).pageBase,
            (image.programHeader i).pages * 4096) :: s.granted := by rw [← hs₁]
        obtain ⟨hreads, hgranted, hwrites, hcopy, hzeros⟩ :=
          fill_noted s₁ image (image.programHeader i)
        have hfirst : Notes s (s₁.fill image (image.programHeader i)) := by
          refine ⟨fun r hr => ?_, fun w hw => hwrites w (hwrites₁ ▸ hw), fun hbelow p hp => ?_⟩
          · rw [hreads, hreads₁]
            exact List.mem_cons_of_mem _ (List.mem_cons_of_mem _ hr)
          · rw [hgranted, hgranted₁] at hp
            rcases List.mem_cons.mp hp with rfl | hp
            · have hfits := fw.fits _ _ _ _ halloc
              have haligned := aligned_pageDown (image.programHeader i).loadAddr
              unfold Aligned at haligned
              unfold Elf64ProgramHeader.pageBase at hfits ⊢
              dsimp only
              omega
            · exact hbelow p hp
        refine ⟨hfirst.trans hnotes, List.forall_mem_cons.mpr ⟨?_, hnoted⟩⟩
        refine Noted.mono ⟨?_, fun _ => ?_, fun _ => hcopy, fun _ hlt => hzeros hlt,
          fun _ => fw.fits _ _ _ _ halloc⟩ hnotes
        · rw [hreads, hreads₁]
          exact List.mem_cons_of_mem _ List.mem_cons_self
        · rw [hreads]
          exact List.mem_cons_self

/-- If a sum wraps in an image that is accepted, then the loader has read outside the image or
written outside the pages that it was given. -/
theorem noWrap_of_inside {kernel : Loader.LoadedKernel} (hlength : image.bytes.length < 2 ^ 63)
    (hgranted : s.granted = []) (hrun : s.loadElfSegments fw image = (.ok kernel, s'))
    (hreads : s'.ReadsInside image) (hwrites : s'.WritesInside) : image.NoWrap := by
  obtain ⟨r, hloop⟩ := loadLoop_of_ok hrun
  obtain ⟨hnotes, hnoted⟩ := loadLoop_noted hloop
  have hbelow : s'.GrantedBelow := by
    refine hnotes.granted fun p hp => ?_
    rw [show (s.noteRead 0 64).granted = [] from hgranted] at hp
    exact absurd hp List.not_mem_nil
  have hnotAbove (w : Nat × Nat) (hw : w ∈ s'.writes) (a : Nat) (hle : w.1 ≤ a)
      (hlt : a < w.1 + w.2) : a < 2 ^ 64 - 4096 := by
    obtain ⟨p, hp, -, hin⟩ := hwrites w hw a hle hlt
    have hend := hbelow p hp
    omega
  intro i hi
  have hi' := hnoted i (List.mem_range.mpr hi)
  refine ⟨?_, fun hload => ?_, fun hload => ?_, hi'.fits⟩
  · -- The first program header is read in the image, and the others are not far behind it.
    have hfirst := hreads _ (hnoted 0 (List.mem_range.mpr (Nat.zero_lt_of_lt hi))).header
    have hphoff : image.header.phoff < 2 ^ 64 := readLE_lt _ 32 8
    have hzero : image.phOffset 0 = image.header.phoff := by
      rw [Image.phOffset, Nat.zero_mul]
      generalize image.header.phoff = phoff at hphoff
      exact (wrappingAdd_of_lt (by unfold wordSize; omega)).trans (Nat.add_zero phoff)
    have hnum : image.header.phnum < 2 ^ 16 := readLE_lt _ 56 2
    have hentsize : image.header.phentsize < 2 ^ 16 := readLE_lt _ 54 2
    have hmul : i * image.header.phentsize ≤ 2 ^ 16 * 2 ^ 16 :=
      Nat.mul_le_mul (by omega) (Nat.le_of_lt hentsize)
    rw [hzero] at hfirst
    omega
  · have hfile := hreads _ (hi'.file hload)
    dsimp only at hfile
    omega
  · -- The last byte would lie in the last page, which is not given out.
    by_contra hwrap
    have hadd := pageBase_add_pageOffset (image.programHeader i)
    have hlt := loadAddr_lt image i
    have hfile := hreads _ (hi'.file hload)
    dsimp only at hfile
    have hsmall : (image.programHeader i).pageOffset < 4096 := by
      unfold Elf64ProgramHeader.pageOffset Elf64ProgramHeader.pageBase pageDown
      omega
    by_cases haround : (image.programHeader i).loadAddr + (image.programHeader i).filesz < 2 ^ 64
    · have hzeros := hi'.zeros hload (by omega)
      rw [wrappingAdd_of_lt haround] at hzeros
      have hlast := hnotAbove _ hzeros
        ((image.programHeader i).loadAddr + (image.programHeader i).memsz - 1)
      dsimp only at hlast
      omega
    · have hlast := hnotAbove _ (hi'.copy hload) (2 ^ 64 - 1)
      dsimp only at hlast
      omega

/-! ## The loader -/

/-- The loader, called with nothing read, written or given out yet, returns an error or leaves the
image loaded exactly if no sum of the fields wraps in an image that it accepts; and only then does
it keep to the image and to its pages. -/
theorem loads_iff (fw : Firmware φ) (image : Image) (s : Loader φ)
    (hlength : image.bytes.length < 2 ^ 63) (hreads : s.reads = []) (hwrites : s.writes = [])
    (hgranted : s.granted = []) :
    ((∀ kernel s', s.loadElfSegments fw image = (.ok kernel, s') →
        Loaded image s' ∧ image.NoWrap) ↔
      (Accepted fw image s.firmware → image.NoWrap)) ∧
    ((∀ kernel s', s.loadElfSegments fw image = (.ok kernel, s') →
        s'.ReadsInside image ∧ s'.WritesInside) ↔
      (Accepted fw image s.firmware → image.NoWrap)) := by
  have hloaded (h : Accepted fw image s.firmware → image.NoWrap) kernel s'
      (hrun : s.loadElfSegments fw image = (.ok kernel, s')) : Loaded image s' ∧ image.NoWrap := by
    have hnoWrap := h (loadElfSegments_ok_iff.mp ⟨kernel, s', hrun⟩)
    exact ⟨loaded_of_ok hnoWrap hreads hwrites hrun, hnoWrap⟩
  refine ⟨⟨fun h haccepted => ?_, hloaded⟩, fun h haccepted => ?_, fun h kernel s' hrun => ?_⟩
  · obtain ⟨kernel, s', hrun⟩ := loadElfSegments_ok_iff.mpr haccepted
    exact (h kernel s' hrun).2
  · obtain ⟨kernel, s', hrun⟩ := loadElfSegments_ok_iff.mpr haccepted
    exact noWrap_of_inside hlength hgranted hrun (h kernel s' hrun).1 (h kernel s' hrun).2
  · exact ⟨(hloaded h kernel s' hrun).1.reads, (hloaded h kernel s' hrun).1.writes⟩

/-! ## Two images -/

/-- A firmware that gives out what it has not given out before. -/
def firstCome : Firmware (List (Nat × Nat)) where
  allocatePages s base pages :=
    if base + pages * 4096 < 2 ^ 64 ∧ ∀ r ∈ s, base + pages * 4096 ≤ r.1 ∨ r.2 ≤ base then
      .ok ((base, base + pages * 4096) :: s)
    else .error (2 ^ 63 + 14)
  taken s a := ∃ r ∈ s, r.1 ≤ a ∧ a < r.2
  free s s' base pages h a hle hlt := by
    split at h
    · rename_i hfree
      rintro ⟨r, hr, hin⟩
      have hapart := hfree.2 r hr
      omega
    · cases h
  takes s s' base pages h a := by
    split at h
    · cases h
      constructor
      · rintro ⟨r, hr, hin⟩
        rcases List.mem_cons.mp hr with rfl | hr
        · exact Or.inr hin
        · exact Or.inl ⟨r, hr, hin⟩
      · rintro (⟨r, hr, hin⟩ | hin)
        · exact ⟨r, List.mem_cons_of_mem _ hr, hin⟩
        · exact ⟨_, List.mem_cons_self, hin⟩
    · cases h
  fits s s' base pages h := by
    split at h
    · rename_i hfits
      exact hfits.1
    · cases h

/-- An image with one segment, which is put at 1 MiB. -/
def oneSegment (offset filesz memsz : Nat) : Image where
  bytes := [0x7f, 0x45, 0x4c, 0x46, 2, 1] ++ List.replicate 10 0 ++ toLE 2 2 ++ toLE 2 0x3e ++
    toLE 4 1 ++ toLE 8 0x100000 ++ toLE 8 64 ++ toLE 8 0 ++ toLE 4 0 ++ toLE 2 64 ++ toLE 2 56 ++
    toLE 2 1 ++ toLE 6 0 ++
    toLE 4 1 ++ toLE 4 5 ++ toLE 8 offset ++ toLE 8 0x100000 ++ toLE 8 0x100000 ++
    toLE 8 filesz ++ toLE 8 memsz ++ toLE 8 4096
  beyond _ := 0xff

/-- Nothing was done yet. -/
def Loader.start : Loader (List (Nat × Nat)) := ⟨[], fun _ => 0, [], [], []⟩

/-- The whole file with zeros behind it is loaded. -/
theorem loads_iff_oneSegment :
    ∃ kernel s', Loader.start.loadElfSegments firstCome (oneSegment 0 120 200) = (.ok kernel, s') ∧
      Loaded (oneSegment 0 120 200) s' := by
  have hfields : (oneSegment 0 120 200).bytes.length = 120 ∧
      (oneSegment 0 120 200).header.phnum = 1 ∧
      (oneSegment 0 120 200).header.phoff + 0 * (oneSegment 0 120 200).header.phentsize + 56 <
        2 ^ 64 ∧
      ((oneSegment 0 120 200).programHeader 0).offset +
        ((oneSegment 0 120 200).programHeader 0).filesz < 2 ^ 64 ∧
      ((oneSegment 0 120 200).programHeader 0).pageOffset +
        ((oneSegment 0 120 200).programHeader 0).memsz + 4095 < 2 ^ 64 ∧
      ((oneSegment 0 120 200).programHeader 0).pageBase +
        ((oneSegment 0 120 200).programHeader 0).pages * 4096 < 2 ^ 64 ∧
      (Loader.start.loadElfSegments firstCome (oneSegment 0 120 200)).1.isOk = true := by
    decide +kernel
  obtain ⟨hlength, hnum, hheader, hfile, hmemory, hrange, hok⟩ := hfields
  have hnoWrap : (oneSegment 0 120 200).NoWrap := by
    intro i hi
    have hzero : i = 0 := by omega
    subst hzero
    exact ⟨hheader, fun _ => hfile, fun _ => hmemory, fun _ => hrange⟩
  cases hrun : Loader.start.loadElfSegments firstCome (oneSegment 0 120 200) with
  | mk result s' =>
      rw [hrun] at hok
      cases result with
      | error status => cases hok
      | ok kernel =>
          have hiff := (loads_iff firstCome (oneSegment 0 120 200) Loader.start
            (by rw [hlength]; decide) rfl rfl rfl).1
          exact ⟨kernel, s', rfl, (hiff.mpr (fun _ => hnoWrap) kernel s' hrun).1⟩

/-- The 32 bytes from 16 bytes before the image on: the sum of the offset and the size wraps to
16, and the image is accepted. -/
theorem not_loads : ¬∀ (φ : Type) (fw : Firmware φ) (image : Image) (s : Loader φ),
    image.bytes.length < 2 ^ 63 → s.reads = [] → s.writes = [] → s.granted = [] →
    ∀ kernel s', s.loadElfSegments fw image = (.ok kernel, s') →
      Loaded image s' ∧ image.NoWrap := by
  intro h
  have hwrong : (oneSegment (2 ^ 64 - 16) 32 200).bytes.length = 120 ∧
      (Loader.start.loadElfSegments firstCome (oneSegment (2 ^ 64 - 16) 32 200)).1.isOk = true ∧
      (2 ^ 64 - 16, 32) ∈
        (Loader.start.loadElfSegments firstCome (oneSegment (2 ^ 64 - 16) 32 200)).2.reads := by
    decide +kernel
  obtain ⟨hlength, hok, hread⟩ := hwrong
  cases hrun : Loader.start.loadElfSegments firstCome (oneSegment (2 ^ 64 - 16) 32 200) with
  | mk result s' =>
      rw [hrun] at hok hread
      cases result with
      | error status => cases hok
      | ok kernel =>
          have hloaded := (h _ firstCome _ Loader.start (by rw [hlength]; decide) rfl rfl rfl kernel s'
            hrun).1
          have hinside := hloaded.reads _ hread
          rw [hlength] at hinside
          exact absurd hinside (by decide)

end PureOS.Boot
