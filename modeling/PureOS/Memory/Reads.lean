import PureOS.Memory.Elf

set_option autoImplicit false

/-!
# Memory: what the ELF loader reads

The loader checks that the header fits the image, and nothing about the program headers
and the stretches of the file that they name.  Its reads stay within the image when the
fields that it follows do.
-/

namespace PureOS.Memory

open PureOS.Foundation PureOS.Process

/-- The addresses of an image. -/
def WithinImage (dataPtr size a : Nat) : Prop := dataPtr ≤ a ∧ a < dataPtr + size

instance (dataPtr size a : Nat) : Decidable (WithinImage dataPtr size a) :=
  inferInstanceAs (Decidable (_ ∧ _))

/-- The header of the image. -/
def headerOf (image : Image) (dataPtr : Nat) : Elf64Header :=
  .ofBytes (bytesFrom (image.found .header) dataPtr)

/-- The program header `i` of the image, as the first pass finds it. -/
def entryOf (image : Image) (dataPtr i : Nat) : Elf64Phdr :=
  Kernel.scanAt image dataPtr (headerOf image dataPtr) i

/-- The program header `i` lies in the image. -/
def EntryInside (image : Image) (dataPtr size i : Nat) : Prop :=
  ∀ j < phdrSize, WithinImage dataPtr size
    (wrappingAdd (Kernel.phdrAddr dataPtr (headerOf image dataPtr) i) j)

/-- The file bytes of a segment lie in the image. -/
def SegmentInside (ph : Elf64Phdr) (size : Nat) : Prop := ph.pOffset + ph.pFilesz ≤ size

/-- The loader refuses the image for this program header. -/
def Refused (ph : Elf64Phdr) : Prop :=
  ph.pType = ptLoad ∧ (ph.pMemsz < ph.pFilesz ∨ wordSize ≤ ph.pVaddr + ph.pMemsz)

/-- Some field of the headers points outside the image. -/
def PointsOutside (image : Image) (dataPtr size : Nat) : Prop :=
  ∃ i < (headerOf image dataPtr).phnum, ¬EntryInside image dataPtr size i ∨
    ((entryOf image dataPtr i).pType = ptLoad ∧ ¬SegmentInside (entryOf image dataPtr i) size)

/-- The addresses that `exec` reads. -/
def execReads (L : Layout) (look : Look) (k : Kernel) (dataPtr size : Nat) : List Nat :=
  (Kernel.exec L look { k with reads := [] } dataPtr size).2.reads

/-- What `exec` answers. -/
def execValue (L : Layout) (look : Look) (k : Kernel) (dataPtr size : Nat) : Int :=
  (Kernel.exec L look { k with reads := [] } dataPtr size).1

/-- The image as it is when the loader begins. -/
def atFirst (look : Look) (k : Kernel) : Image := .still (look .header k)

/-- Every read is within the image, and an image whose fields point outside it is
rejected. -/
def ReadsSafely (L : Layout) (look : Look) (k : Kernel) (dataPtr size : Nat) : Prop :=
  (∀ a ∈ execReads L look k dataPtr size, WithinImage dataPtr size a) ∧
    (PointsOutside (atFirst look k) dataPtr size → execValue L look k dataPtr size < 0)

/-- The fields that the loader follows stay in the image: the program headers up to the
first one that it refuses the image for, and, when there is none and there is a segment
at all, the file bytes of every segment. -/
def Contained (image : Image) (dataPtr size : Nat) : Prop :=
  size < headerSize ∨ Kernel.headerOk (headerOf image dataPtr) = false ∨
    ((∀ i < (headerOf image dataPtr).phnum,
        (∀ j < i, ¬Refused (entryOf image dataPtr j)) → EntryInside image dataPtr size i) ∧
      ((∃ i < (headerOf image dataPtr).phnum, Refused (entryOf image dataPtr i)) ∨
        (∀ i < (headerOf image dataPtr).phnum, (entryOf image dataPtr i).pType = ptLoad →
          (entryOf image dataPtr i).pVaddr = 2 ^ 64 - 1) ∨
        ∀ i < (headerOf image dataPtr).phnum, (entryOf image dataPtr i).pType = ptLoad →
          SegmentInside (entryOf image dataPtr i) size))

/-- Whether the fields stay in the image depends on the headers. -/
theorem contained_congr {image image' : Image} {dataPtr size : Nat}
    (hheader : headerOf image dataPtr = headerOf image' dataPtr)
    (hentry : ∀ i < (headerOf image' dataPtr).phnum,
      entryOf image dataPtr i = entryOf image' dataPtr i) :
    Contained image dataPtr size ↔ Contained image' dataPtr size := by
  unfold Contained EntryInside
  rw [hheader]
  refine or_congr Iff.rfl (or_congr Iff.rfl (and_congr ?_ (or_congr ?_ (or_congr ?_ ?_))))
  · refine forall₂_congr fun i hi => imp_congr (forall₂_congr fun j hj => ?_) Iff.rfl
    rw [hentry j (by omega)]
  · exact exists_congr fun i => and_congr_right fun hi => by rw [hentry i hi]
  · exact forall₂_congr fun i hi => by rw [hentry i hi]
  · exact forall₂_congr fun i hi => by rw [hentry i hi]

instance (image : Image) (dataPtr size i : Nat) : Decidable (EntryInside image dataPtr size i) :=
  inferInstanceAs (Decidable (∀ _ < _, _))

instance (ph : Elf64Phdr) (size : Nat) : Decidable (SegmentInside ph size) :=
  inferInstanceAs (Decidable (_ ≤ _))

instance (ph : Elf64Phdr) : Decidable (Refused ph) := inferInstanceAs (Decidable (_ ∧ (_ ∨ _)))

instance (image : Image) (dataPtr size : Nat) : Decidable (Contained image dataPtr size) :=
  inferInstanceAs (Decidable (_ ∨ _ ∨ ((∀ _ < _, (∀ _ < _, _) → _) ∧
    ((∃ _ < _, _) ∨ (∀ _ < _, _ → _) ∨ ∀ _ < _, _ → _))))

/-! ## The first pass -/

namespace Kernel

variable {L : Layout} {image : Image} {dataPtr size : Nat} {k : Kernel} {look : Look}

theorem mem_noteReads {addr n a : Nat} :
    a ∈ (k.noteReads addr n).reads ↔ (∃ j < n, wrappingAdd addr j = a) ∨ a ∈ k.reads := by
  simp [noteReads]

theorem reads_copyFromUser (look : Kernel → Nat → UInt8) (src dst n : Nat) (k : Kernel) :
    (copyFromUser look src dst n k).reads = (k.noteReads src n).reads := by
  induction n with
  | zero => rfl
  | succ n ih =>
      rw [noteReads_succ, ← ih]
      rfl

theorem mem_copyFromUser {look : Kernel → Nat → UInt8} {src dst n a : Nat} :
    a ∈ (copyFromUser look src dst n k).reads ↔
      (∃ j < n, wrappingAdd src j = a) ∨ a ∈ k.reads := by
  rw [reads_copyFromUser, mem_noteReads]

/-- The first pass does nothing but read. -/
theorem firstPass_eq (look : Look) (dataPtr : Nat) (hdr : Elf64Header) (l : List Nat)
    (range : SegmentRange) (k : Kernel) :
    (firstPass look dataPtr hdr l range k).2 =
      { k with reads := (firstPass look dataPtr hdr l range k).2.reads } := by
  induction l generalizing range k with
  | nil => rfl
  | cons i rest ih =>
      rw [firstPass]
      split
      · rw [ih]; rfl
      split
      · rfl
      split
      · rfl
      · rw [ih]; rfl

theorem firstPass_congr {look' : Look}
    (h : ∀ i reads, look (.scan i) { k with reads := reads } =
      look' (.scan i) { k with reads := reads }) (hdr : Elf64Header) (l : List Nat)
    (range : SegmentRange) (reads : List Nat) :
    firstPass look dataPtr hdr l range { k with reads := reads } =
      firstPass look' dataPtr hdr l range { k with reads := reads } := by
  induction l generalizing range reads with
  | nil => rfl
  | cons i rest ih =>
      have hnext : ∀ range, firstPass look dataPtr hdr rest range
          (({ k with reads := reads } : Kernel).noteReads (phdrAddr dataPtr hdr i) phdrSize) =
          firstPass look' dataPtr hdr rest range
          (({ k with reads := reads } : Kernel).noteReads (phdrAddr dataPtr hdr i) phdrSize) :=
        fun range => ih range _
      rw [firstPass, firstPass, h i reads]
      simp only [hnext]

/-- Two ways to read that find the same before the second pass, and lead it to the same. -/
theorem exec_congr {look' : Look} (hheader : look .header k = look' .header k)
    (hscan : ∀ i reads, look (.scan i) { k with reads := reads } =
      look' (.scan i) { k with reads := reads })
    (hload : ∀ hdr range reads, Elf64Header.ofBytes (bytesFrom (look .header k) dataPtr) = hdr →
      ¬size < headerSize → headerOk hdr = true → range.base ≠ 2 ^ 64 - 1 →
      firstPass look dataPtr hdr (List.range hdr.phnum) ⟨2 ^ 64 - 1, 0⟩
          (k.noteReads dataPtr headerSize) = (.ok range, { k with reads := reads }) →
      execLoad L look dataPtr hdr range { k with reads := reads } =
        execLoad L look' dataPtr hdr range { k with reads := reads }) :
    exec L look k dataPtr size = exec L look' k dataPtr size := by
  rw [exec, exec, ← hheader]
  generalize hhdr : Elf64Header.ofBytes (bytesFrom (look .header k) dataPtr) = hdr
  have hpass : firstPass look dataPtr hdr (List.range hdr.phnum) ⟨2 ^ 64 - 1, 0⟩
      (k.noteReads dataPtr headerSize) =
      firstPass look' dataPtr hdr (List.range hdr.phnum) ⟨2 ^ 64 - 1, 0⟩
        (k.noteReads dataPtr headerSize) :=
    firstPass_congr hscan hdr _ _ (k.noteReads dataPtr headerSize).reads
  have hstate := firstPass_eq look' dataPtr hdr (List.range hdr.phnum) ⟨2 ^ 64 - 1, 0⟩
    (k.noteReads dataPtr headerSize)
  by_cases hsize : size < headerSize
  · rw [if_pos hsize, if_pos hsize]
  rw [if_neg hsize, if_neg hsize]
  dsimp only
  cases hok : headerOk hdr with
  | false => rw [if_pos Bool.false_ne_true, if_pos Bool.false_ne_true]
  | true =>
      rw [if_neg (not_not.mpr rfl), if_neg (not_not.mpr rfl), hpass]
      rcases hres : firstPass look' dataPtr hdr (List.range hdr.phnum) ⟨2 ^ 64 - 1, 0⟩
        (k.noteReads dataPtr headerSize) with ⟨e | range, k'⟩
      · rfl
      rw [hres] at hstate
      have hk' : k' = { k with reads := k'.reads } := hstate
      rw [hk'] at hres ⊢
      dsimp only
      by_cases hbase : range.base = 2 ^ 64 - 1
      · rw [if_pos hbase, if_pos hbase]
      · rw [if_neg hbase, if_neg hbase,
          hload hdr range _ hhdr hsize hok hbase (hpass.trans hres)]

theorem mem_firstPass_of_mem {look : Look} {hdr : Elf64Header} {l : List Nat}
    {range : SegmentRange} {a : Nat} (h : a ∈ k.reads) :
    a ∈ (firstPass look dataPtr hdr l range k).2.reads := by
  induction l generalizing range k with
  | nil => exact h
  | cons i rest ih =>
      have hnote : a ∈ (k.noteReads (phdrAddr dataPtr hdr i) phdrSize).reads :=
        mem_noteReads.mpr (Or.inr h)
      rw [firstPass]
      split
      · exact ih hnote
      split
      · exact hnote
      split
      · exact hnote
      · exact ih hnote

/-- An entry is refused exactly where the first pass stops. -/
theorem refused_iff {ph : Elf64Phdr} {range : SegmentRange} :
    Refused ph ↔ ph.pType = ptLoad ∧
      (ph.pMemsz < ph.pFilesz ∨ range.extend ph.pVaddr ph.pMemsz = none) := by
  rw [Refused, SegmentRange.extend, Option.map_eq_none_iff, checkedAdd]
  split <;> simp <;> omega

/-- The answer of the first pass: it ends with an error at a refused entry, or it has
gone through all of them. -/
theorem firstPass_value (hdr : Elf64Header) (l : List Nat) (range : SegmentRange) (k : Kernel)
    (hbase : range.base ≤ 2 ^ 64 - 1) :
    (∃ i ∈ l, Refused (scanAt image dataPtr hdr i) ∧
      (firstPass image dataPtr hdr l range k).1 = .error errInvalidPointer) ∨
    ((∀ i ∈ l, ¬Refused (scanAt image dataPtr hdr i)) ∧
      ∃ r, (firstPass image dataPtr hdr l range k).1 = .ok r ∧ r.base ≤ 2 ^ 64 - 1 ∧
        (r.base = 2 ^ 64 - 1 ↔ range.base = 2 ^ 64 - 1 ∧
          ∀ i ∈ l, (scanAt image dataPtr hdr i).pType = ptLoad →
            (scanAt image dataPtr hdr i).pVaddr = 2 ^ 64 - 1)) := by
  induction l generalizing range k with
  | nil => exact Or.inr ⟨by simp, range, rfl, hbase, by simp⟩
  | cons i rest ih =>
      rw [firstPass_cons]
      have hrefused := @refused_iff (scanAt image dataPtr hdr i) range
      by_cases htype : (scanAt image dataPtr hdr i).pType = ptLoad
      · rw [if_neg (not_not.mpr htype)]
        by_cases hsize : (scanAt image dataPtr hdr i).pFilesz > (scanAt image dataPtr hdr i).pMemsz
        · rw [if_pos hsize]
          exact Or.inl ⟨i, List.mem_cons_self, hrefused.mpr ⟨htype, Or.inl hsize⟩, rfl⟩
        rw [if_neg hsize]
        cases hext : range.extend (scanAt image dataPtr hdr i).pVaddr
            (scanAt image dataPtr hdr i).pMemsz with
        | none =>
            exact Or.inl ⟨i, List.mem_cons_self, hrefused.mpr ⟨htype, Or.inr hext⟩, rfl⟩
        | some range' =>
            have hnot : ¬Refused (scanAt image dataPtr hdr i) := by
              rw [hrefused]
              rintro ⟨_, hlt | hnone⟩
              · exact hsize hlt
              · rw [hext] at hnone
                cases hnone
            have hmin : range'.base = min range.base (scanAt image dataPtr hdr i).pVaddr := by
              simp only [SegmentRange.extend, Option.map_eq_some_iff] at hext
              obtain ⟨e, _, rfl⟩ := hext
              rfl
            rcases ih range' (k.noteReads (phdrAddr dataPtr hdr i) phdrSize) (by omega) with
              ⟨j, hj, href, hval⟩ | ⟨hnone, r, hval, hle, hiff⟩
            · exact Or.inl ⟨j, List.mem_cons_of_mem i hj, href, hval⟩
            · refine Or.inr ⟨List.forall_mem_cons.mpr ⟨hnot, hnone⟩, r, hval, hle, ?_⟩
              rw [hiff, hmin, List.forall_mem_cons]
              have hlt : (scanAt image dataPtr hdr i).pVaddr < 2 ^ 64 :=
                readLE_lt _ _ _
              constructor
              · rintro ⟨heq, hall⟩
                exact ⟨by omega, fun _ => by omega, hall⟩
              · rintro ⟨heq, hi, hall⟩
                have := hi htype
                exact ⟨by omega, hall⟩
      · rw [if_pos htype]
        have hnot : ¬Refused (scanAt image dataPtr hdr i) := fun href => htype href.1
        rcases ih range (k.noteReads (phdrAddr dataPtr hdr i) phdrSize) hbase with
          ⟨j, hj, href, hval⟩ | ⟨hnone, r, hval, hle, hiff⟩
        · exact Or.inl ⟨j, List.mem_cons_of_mem i hj, href, hval⟩
        · refine Or.inr ⟨List.forall_mem_cons.mpr ⟨hnot, hnone⟩, r, hval, hle, ?_⟩
          rw [hiff, List.forall_mem_cons]
          exact and_congr_right fun _ => (and_iff_right fun h => absurd h htype).symm

/-- The first pass reads every entry up to the first refused one. -/
theorem firstPass_reads_entry {hdr : Elf64Header} {done : List Nat} {i : Nat} {rest : List Nat}
    {range : SegmentRange} (hdone : ∀ j ∈ done, ¬Refused (scanAt image dataPtr hdr j)) {j : Nat}
    (hj : j < phdrSize) : wrappingAdd (phdrAddr dataPtr hdr i) j ∈
      (firstPass image dataPtr hdr (done ++ i :: rest) range k).2.reads := by
  induction done generalizing range k with
  | nil =>
      have hnote : wrappingAdd (phdrAddr dataPtr hdr i) j ∈
          (k.noteReads (phdrAddr dataPtr hdr i) phdrSize).reads :=
        mem_noteReads.mpr (Or.inl ⟨j, hj, rfl⟩)
      rw [List.nil_append, firstPass_cons]
      split
      · exact mem_firstPass_of_mem hnote
      split
      · exact hnote
      split
      · exact hnote
      · exact mem_firstPass_of_mem hnote
  | cons d done ih =>
      obtain ⟨hd, hdone⟩ := List.forall_mem_cons.mp hdone
      rw [@refused_iff _ range] at hd
      rw [List.cons_append, firstPass_cons]
      split
      · exact ih hdone
      rename_i htype
      split
      · rename_i hsize
        exact absurd ⟨not_not.mp htype, Or.inl hsize⟩ hd
      split
      · rename_i hnone
        exact absurd ⟨not_not.mp htype, Or.inr hnone⟩ hd
      · exact ih hdone

/-- And it reads nothing else. -/
theorem firstPass_reads_only {P : Nat → Prop} {hdr : Elf64Header} {l : List Nat}
    {range : SegmentRange} (hk : ∀ a ∈ k.reads, P a)
    (hentry : ∀ done i rest, l = done ++ i :: rest →
      (∀ j ∈ done, ¬Refused (scanAt image dataPtr hdr j)) →
      ∀ j < phdrSize, P (wrappingAdd (phdrAddr dataPtr hdr i) j)) :
    ∀ a ∈ (firstPass image dataPtr hdr l range k).2.reads, P a := by
  induction l generalizing range k with
  | nil => exact hk
  | cons i rest ih =>
      have hnote : ∀ a ∈ (k.noteReads (phdrAddr dataPtr hdr i) phdrSize).reads, P a := by
        intro a ha
        rcases mem_noteReads.mp ha with ⟨j, hj, rfl⟩ | ha
        · exact hentry [] i rest rfl (by simp) j hj
        · exact hk a ha
      have hrest : ¬Refused (scanAt image dataPtr hdr i) → ∀ done i' rest',
          rest = done ++ i' :: rest' → (∀ j ∈ done, ¬Refused (scanAt image dataPtr hdr j)) →
          ∀ j < phdrSize, P (wrappingAdd (phdrAddr dataPtr hdr i') j) := by
        intro hnot done i' rest' heq hdone
        exact hentry (i :: done) i' rest' (by rw [heq]; rfl)
          (List.forall_mem_cons.mpr ⟨hnot, hdone⟩)
      have hrefused := @refused_iff (scanAt image dataPtr hdr i) range
      rw [firstPass_cons]
      split
      · rename_i htype
        exact ih hnote (hrest fun href => htype href.1)
      split
      · exact hnote
      rename_i hsize
      split
      · exact hnote
      · rename_i r hext
        refine ih hnote (hrest ?_)
        rw [hrefused, hext]
        rintro ⟨_, hlt | hnone⟩
        · exact hsize hlt
        · cases hnone

/-! ## The second pass -/

/-- One page: it fails for want of memory, and reads what its filling reads. -/
theorem trackAndMap_ends {I : Kernel → Prop} {pid : Pid} {pml4 : Nat} {writable user : Bool}
    {fill : Nat → Nat → Kernel → Kernel} {va : Nat}
    (hquiet : ∀ k k', I k → k'.reads = k.reads → I k')
    (hfill : ∀ phys k, I k → I (fill va phys k)) (hk : I k) :
    Ends I (fun e k => e = errOutOfMemory ∧ I k)
      (trackAndMap pid pml4 writable user fill va k) := by
  have halloc := k.allocFrame_quiet
  unfold trackAndMap
  split
  · rename_i k' h
    rw [h] at halloc
    exact ⟨rfl, hquiet k k' hk halloc.reads_eq⟩
  · rename_i phys k' h
    rw [h] at halloc
    have htrack : I (k'.trackFrame pid phys) := hquiet k _ hk halloc.reads_eq
    have hmap := (k'.trackFrame pid phys).mapPage_quiet pml4 va phys writable user
    split
    · rename_i k'' h'
      rw [h'] at hmap
      exact ⟨rfl, hquiet _ k'' htrack hmap.reads_eq⟩
    · rename_i k'' h'
      rw [h'] at hmap
      exact hfill phys k'' (hquiet _ k'' htrack hmap.reads_eq)

/-- The second pass reads the program headers and what the filling of pages reads, and
fails only for want of memory. -/
theorem loadSegments_ends {Q : List Nat → Prop} {hdr : Elf64Header} {slot : Pid}
    (hk : Q k.reads)
    (hnote : ∀ i < hdr.phnum, ∀ k : Kernel, Q k.reads →
      Q (k.noteReads (phdrAddr dataPtr hdr i) phdrSize).reads)
    (hfill : ∀ i < hdr.phnum, ∀ k₁ : Kernel,
      (readPhdr (look (.entry i) k₁) dataPtr hdr i).pType = ptLoad → ∀ va phys k, Q k.reads →
      Q (loadPage look dataPtr i (readPhdr (look (.entry i) k₁) dataPtr hdr i) va phys k).reads) :
    Ends (fun k => Q k.reads) (fun e k => e = errOutOfMemory ∧ Q k.reads)
      (loadSegments L look dataPtr hdr slot k) := by
  refine forEach.invariant hk ?_
  intro i hi k hk
  have hlt := List.mem_range.mp hi
  rw [loadSegment]
  split
  · exact hnote i hlt k hk
  · rename_i htype
    refine forEach.invariant (hnote i hlt k hk) fun va _ k' hk' => ?_
    refine trackAndMap_ends ?_ (hfill i hlt k (not_not.mp htype) va) hk'
    intro k k' h heq
    rwa [heq]

/-- The loop over the stack reads nothing, and fails only for want of memory. -/
theorem mapStack_ends {Q : List Nat → Prop} {slot : Pid} (fin : Nat) (hk : Q k.reads) :
    Ends (fun k => Q k.reads) (fun e k => e = errOutOfMemory ∧ Q k.reads)
      (mapStack L slot fin k) := by
  refine forEach.invariant hk fun va _ k hk => ?_
  refine trackAndMap_ends ?_ (fun _ _ h => h) hk
  intro k k' h heq
  rwa [heq]

/-- Loading reads what the second pass reads, and fails only for want of a slot or of
memory. -/
theorem execLoad_ends {Q : List Nat → Prop} {hdr : Elf64Header} {range : SegmentRange}
    (hk : Q k.reads)
    (hnote : ∀ i < hdr.phnum, ∀ k : Kernel, Q k.reads →
      Q (k.noteReads (phdrAddr dataPtr hdr i) phdrSize).reads)
    (hfill : ∀ i < hdr.phnum, ∀ k₁ : Kernel,
      (readPhdr (look (.entry i) k₁) dataPtr hdr i).pType = ptLoad → ∀ va phys k, Q k.reads →
      Q (loadPage look dataPtr i (readPhdr (look (.entry i) k₁) dataPtr hdr i) va phys k).reads) :
    Q (execLoad L look dataPtr hdr range k).2.reads ∧
      ((execLoad L look dataPtr hdr range k).1 = errNoCapacity ∨
        (execLoad L look dataPtr hdr range k).1 = errOutOfMemory ∨
        0 ≤ (execLoad L look dataPtr hdr range k).1) := by
  rcases execLoad_cases L look dataPtr hdr range k with
    ⟨_, heq⟩ | ⟨slot, _, ⟨e, k₁, hseg, heq⟩ | ⟨k₁, hseg, hrest⟩⟩
  · rw [heq]
    exact ⟨hk, Or.inl rfl⟩
  · have hends := @loadSegments_ends L dataPtr (prepareSlot L slot k) look Q hdr slot hk
      hnote hfill
    rw [hseg] at hends
    rw [heq]
    exact ⟨hends.2, Or.inr (Or.inl hends.1)⟩
  · have hends := @loadSegments_ends L dataPtr (prepareSlot L slot k) look Q hdr slot hk
      hnote hfill
    rw [hseg] at hends
    have hends' := @mapStack_ends L k₁ Q slot (pageDown (wrappingAdd range.fin 0xFFF)) hends
    rcases hrest with ⟨e, k₂, hstack, heq⟩ | ⟨k₂, hstack, heq⟩
    · rw [hstack] at hends'
      rw [heq]
      exact ⟨hends'.2, Or.inr (Or.inl hends'.1)⟩
    · rw [hstack] at hends'
      rw [heq]
      exact ⟨hends', Or.inr (Or.inr (Int.natCast_nonneg _))⟩

/-- The file bytes of a segment in the image are read in the image. -/
theorem loadPage_reads {ph : Elf64Phdr} (hfits : dataPtr + size ≤ wordSize)
    (hseg : SegmentInside ph size) (i va phys : Nat)
    (hk : ∀ a ∈ k.reads, WithinImage dataPtr size a) :
    ∀ a ∈ (loadPage look dataPtr i ph va phys k).reads, WithinImage dataPtr size a := by
  rw [loadPage]
  generalize wrappingSub va ph.pVaddr = inPage
  split
  · rename_i hcopy
    intro a ha
    rcases mem_copyFromUser.mp ha with ⟨j, hj, rfl⟩ | ha
    · unfold SegmentInside at hseg
      have hin : inPage + j < ph.pFilesz := by omega
      have hoff : dataPtr + ph.pOffset < wordSize := by omega
      have hpage : dataPtr + ph.pOffset + inPage < wordSize := by omega
      have hbyte : dataPtr + ph.pOffset + inPage + j < wordSize := by omega
      rw [wrappingAdd_of_lt hoff, wrappingAdd_of_lt hpage, wrappingAdd_of_lt hbyte]
      exact ⟨by omega, by omega⟩
    · exact hk a ha
  · exact hk

/-- Reads stay on the record. -/
theorem mem_loadPage_of_mem {ph : Elf64Phdr} {i va phys a : Nat} (h : a ∈ k.reads) :
    a ∈ (loadPage look dataPtr i ph va phys k).reads := by
  rw [loadPage]
  generalize wrappingSub va ph.pVaddr = inPage
  split
  · exact mem_copyFromUser.mpr (Or.inr h)
  · exact h

theorem mem_execLoad_of_mem {hdr : Elf64Header} {range : SegmentRange} {a : Nat}
    (h : a ∈ k.reads) : a ∈ (execLoad L look dataPtr hdr range k).2.reads :=
  (execLoad_ends (Q := (a ∈ ·)) h (fun _ _ _ hk => mem_noteReads.mpr (Or.inr hk))
    fun _ _ _ _ _ _ _ hk => mem_loadPage_of_mem hk).1

/-- How loading may end. -/
theorem execLoad_value (L : Layout) (look : Look) (dataPtr : Nat) (hdr : Elf64Header)
    (range : SegmentRange) (k : Kernel) :
    (execLoad L look dataPtr hdr range k).1 = errNoCapacity ∨
      (execLoad L look dataPtr hdr range k).1 = errOutOfMemory ∨
      0 ≤ (execLoad L look dataPtr hdr range k).1 :=
  (execLoad_ends (Q := fun _ => True) trivial (fun _ _ _ _ => trivial)
    fun _ _ _ _ _ _ _ _ => trivial).2

end Kernel

/-! ## The whole -/

section Whole

variable {L : Layout} {image : Image} {look : Look} {dataPtr size : Nat} {k : Kernel}

/-- The header and the first pass find the image as it is when the loader begins. -/
def Steady (look : Look) (k : Kernel) : Prop :=
  ∀ reads, look .header { k with reads := reads } = look .header k ∧
    ∀ i, look (.scan i) { k with reads := reads } = look .header k

theorem steady_throughTables (k : Kernel) : Steady throughTables k := fun _ => ⟨rfl, fun _ => rfl⟩

theorem firstPass_of_steady (h : Steady look k) (dataPtr : Nat) (hdr : Elf64Header) (l : List Nat)
    (range : SegmentRange) (reads : List Nat) :
    Kernel.firstPass look dataPtr hdr l range { k with reads := reads } =
      Kernel.firstPass (atFirst look k) dataPtr hdr l range { k with reads := reads } :=
  Kernel.firstPass_congr (fun i reads => (h reads).2 i) hdr l range reads

/-- The state of `exec` before the first pass. -/
def afterHeader (k : Kernel) (dataPtr : Nat) : Kernel :=
  { k with reads := [] }.noteReads dataPtr headerSize

/-- The first pass of `exec`. -/
def scan (image : Image) (k : Kernel) (dataPtr : Nat) : Except Int SegmentRange × Kernel :=
  Kernel.firstPass image dataPtr (headerOf image dataPtr)
    (List.range (headerOf image dataPtr).phnum) ⟨2 ^ 64 - 1, 0⟩ (afterHeader k dataPtr)

theorem afterHeader_inside (hfits : dataPtr + size ≤ wordSize) (hsize : ¬size < headerSize) :
    ∀ a ∈ (afterHeader k dataPtr).reads, WithinImage dataPtr size a := by
  intro a ha
  rcases Kernel.mem_noteReads.mp ha with ⟨j, hj, rfl⟩ | ha
  · rw [wrappingAdd_of_lt (by omega)]
    exact ⟨by omega, by omega⟩
  · cases ha

/-- `exec` with its first pass on the image as it is at first. -/
theorem exec_of_steady (L : Layout) (h : Steady look k) (dataPtr size : Nat) :
    Kernel.exec L look { k with reads := [] } dataPtr size =
      if size < headerSize then (errInvalidPointer, { k with reads := [] })
      else if ¬Kernel.headerOk (headerOf (atFirst look k) dataPtr) then
        (errInvalidPointer, afterHeader k dataPtr)
      else
        match scan (atFirst look k) k dataPtr with
        | (.error e, k) => (e, k)
        | (.ok range, k') =>
            if range.base = 2 ^ 64 - 1 then (errInvalidPointer, k')
            else Kernel.execLoad L look dataPtr (headerOf (atFirst look k) dataPtr) range k' := by
  have hheader : Elf64Header.ofBytes (bytesFrom (look .header { k with reads := [] }) dataPtr) =
      headerOf (atFirst look k) dataPtr := by
    rw [(h []).1]
    rfl
  have hscan := firstPass_of_steady h dataPtr (headerOf (atFirst look k) dataPtr)
    (List.range (headerOf (atFirst look k) dataPtr).phnum) ⟨2 ^ 64 - 1, 0⟩
    (afterHeader k dataPtr).reads
  rw [Kernel.exec, hheader, scan]
  exact congrArg (fun pass => if size < headerSize then (errInvalidPointer, { k with reads := [] })
    else if ¬Kernel.headerOk (headerOf (atFirst look k) dataPtr) then
      (errInvalidPointer, afterHeader k dataPtr)
    else
      match pass with
      | (.error e, k) => (e, k)
      | (.ok range, k') =>
          if range.base = 2 ^ 64 - 1 then (errInvalidPointer, k')
          else Kernel.execLoad L look dataPtr (headerOf (atFirst look k) dataPtr) range k') hscan

/-- The ways in which `exec` may go. -/
theorem exec_cases (L : Layout) (h : Steady look k) (dataPtr size : Nat) :
    (size < headerSize ∧ execReads L look k dataPtr size = [] ∧
      execValue L look k dataPtr size = errInvalidPointer) ∨
    (¬size < headerSize ∧
      ((Kernel.headerOk (headerOf (atFirst look k) dataPtr) = false ∧
          execReads L look k dataPtr size = (afterHeader k dataPtr).reads ∧
          execValue L look k dataPtr size = errInvalidPointer) ∨
        (Kernel.headerOk (headerOf (atFirst look k) dataPtr) = true ∧
          ((∃ e, (scan (atFirst look k) k dataPtr).1 = .error e ∧
              execReads L look k dataPtr size = (scan (atFirst look k) k dataPtr).2.reads ∧
              execValue L look k dataPtr size = e) ∨
            ∃ r, (scan (atFirst look k) k dataPtr).1 = .ok r ∧
              ((r.base = 2 ^ 64 - 1 ∧
                  execReads L look k dataPtr size = (scan (atFirst look k) k dataPtr).2.reads ∧
                  execValue L look k dataPtr size = errInvalidPointer) ∨
                (r.base ≠ 2 ^ 64 - 1 ∧
                  execReads L look k dataPtr size = (Kernel.execLoad L look dataPtr
                    (headerOf (atFirst look k) dataPtr) r
                    (scan (atFirst look k) k dataPtr).2).2.reads ∧
                  execValue L look k dataPtr size = (Kernel.execLoad L look dataPtr
                    (headerOf (atFirst look k) dataPtr) r
                    (scan (atFirst look k) k dataPtr).2).1)))))) := by
  unfold execReads execValue
  rw [exec_of_steady L h]
  by_cases hsize : size < headerSize
  · rw [if_pos hsize]
    exact Or.inl ⟨hsize, rfl, rfl⟩
  refine Or.inr ⟨hsize, ?_⟩
  rw [if_neg hsize]
  cases hok : Kernel.headerOk (headerOf (atFirst look k) dataPtr) with
  | false =>
      rw [if_pos Bool.false_ne_true]
      exact Or.inl ⟨rfl, rfl, rfl⟩
  | true =>
      rw [if_neg (not_not.mpr rfl)]
      refine Or.inr ⟨rfl, ?_⟩
      rcases hscan : scan (atFirst look k) k dataPtr with ⟨e | r, k'⟩
      · exact Or.inl ⟨e, rfl, rfl, rfl⟩
      · refine Or.inr ⟨r, rfl, ?_⟩
        by_cases hbase : r.base = 2 ^ 64 - 1
        · exact Or.inl ⟨hbase, by simp only [hbase, if_true], by simp only [hbase, if_true]⟩
        · exact Or.inr ⟨hbase, by simp only [hbase, if_false], by simp only [hbase, if_false]⟩

/-- The first pass of an image: it ends at the first refused entry, or there is none. -/
theorem scan_value (image : Image) (k : Kernel) (dataPtr : Nat) :
    ((∃ i < (headerOf image dataPtr).phnum, Refused (entryOf image dataPtr i)) ∧
      (scan image k dataPtr).1 = .error errInvalidPointer) ∨
    ((∀ i < (headerOf image dataPtr).phnum, ¬Refused (entryOf image dataPtr i)) ∧
      ∃ r, (scan image k dataPtr).1 = .ok r ∧
        (r.base = 2 ^ 64 - 1 ↔ ∀ i < (headerOf image dataPtr).phnum,
          (entryOf image dataPtr i).pType = ptLoad →
            (entryOf image dataPtr i).pVaddr = 2 ^ 64 - 1)) := by
  rcases Kernel.firstPass_value (headerOf image dataPtr)
    (List.range (headerOf image dataPtr).phnum) ⟨2 ^ 64 - 1, 0⟩ (afterHeader k dataPtr)
    (Nat.le_refl _) with ⟨i, hi, href, hval⟩ | ⟨hnone, r, hval, _, hiff⟩
  · exact Or.inl ⟨⟨i, List.mem_range.mp hi, href⟩, hval⟩
  · refine Or.inr ⟨fun i hi => hnone i (List.mem_range.mpr hi), r, hval, hiff.trans ?_⟩
    rw [and_iff_right rfl]
    exact ⟨fun h i hi => h i (List.mem_range.mpr hi), fun h i hi => h i (List.mem_range.mp hi)⟩

/-- The first pass reads within the image when the entries that it comes to lie there. -/
theorem scan_inside (hfits : dataPtr + size ≤ wordSize) (hsize : ¬size < headerSize)
    (hentry : ∀ i < (headerOf image dataPtr).phnum,
      (∀ j < i, ¬Refused (entryOf image dataPtr j)) → EntryInside image dataPtr size i) :
    ∀ a ∈ (scan image k dataPtr).2.reads, WithinImage dataPtr size a := by
  refine Kernel.firstPass_reads_only (afterHeader_inside hfits hsize) ?_
  intro done i rest heq hdone
  obtain ⟨rfl, hlt⟩ := range_eq_append_cons heq
  exact hentry i hlt fun j hj => hdone j (List.mem_range.mpr hj)

/-- The first pass reads the entries that it comes to. -/
theorem entryInside_of_scan {i : Nat} (hi : i < (headerOf image dataPtr).phnum)
    (hprev : ∀ j < i, ¬Refused (entryOf image dataPtr j))
    (h : ∀ a ∈ (scan image k dataPtr).2.reads, WithinImage dataPtr size a) :
    EntryInside image dataPtr size i := by
  intro j hj
  refine h _ ?_
  obtain ⟨rest, heq⟩ := range_append_cons hi
  rw [scan, heq]
  exact Kernel.firstPass_reads_entry (fun d hd => hprev d (List.mem_range.mp hd)) hj

/-- With all entries and segments in the image no field points outside it. -/
theorem not_pointsOutside
    (hentry : ∀ i < (headerOf image dataPtr).phnum, EntryInside image dataPtr size i)
    (hseg : ∀ i < (headerOf image dataPtr).phnum, (entryOf image dataPtr i).pType = ptLoad →
      SegmentInside (entryOf image dataPtr i) size) : ¬PointsOutside image dataPtr size := by
  rintro ⟨i, hi, hout | ⟨htype, hout⟩⟩
  · exact hout (hentry i hi)
  · exact hout (hseg i hi htype)

/-- An image whose fields stay inside is read safely, if the second pass finds the headers that
the first one found. -/
theorem readsSafely_of_contained (hsteady : Steady look k)
    (hagain : ∀ i k', look (.entry i) k' = look .header k) (hfits : dataPtr + size ≤ wordSize)
    (h : Contained (atFirst look k) dataPtr size) : ReadsSafely L look k dataPtr size := by
  have hneg : errInvalidPointer < 0 := by decide
  have hcases := exec_cases L hsteady dataPtr size
  have hread : ∀ i k', Kernel.readPhdr (look (.entry i) k') dataPtr (headerOf (atFirst look k) dataPtr) i =
      entryOf (atFirst look k) dataPtr i := fun i k' => by
    rw [hagain]
    rfl
  unfold ReadsSafely
  generalize atFirst look k = image at h hcases hread ⊢
  rcases hcases with ⟨_, hreads, hval⟩ | ⟨hsize, hrest⟩
  · exact ⟨by rw [hreads]; simp, fun _ => by rw [hval]; exact hneg⟩
  rcases hrest with ⟨_, hreads, hval⟩ | ⟨hok, hrest⟩
  · exact ⟨by rw [hreads]; exact afterHeader_inside hfits hsize, fun _ => by rw [hval]; exact hneg⟩
  obtain ⟨hentry, hsegs⟩ : _ ∧ _ := by
    rcases h with h | h | h
    · exact absurd h hsize
    · rw [hok] at h
      cases h
    · exact h
  have hscan := scan_inside (k := k) hfits hsize hentry
  rcases scan_value image k dataPtr with ⟨_, herr⟩ | ⟨hnone, r, hr, hbase⟩
  · rcases hrest with ⟨e, he, hreads, hval⟩ | ⟨r, hr, _⟩
    · rw [herr] at he
      cases he
      exact ⟨by rw [hreads]; exact hscan, fun _ => by rw [hval]; exact hneg⟩
    · rw [herr] at hr
      cases hr
  rcases hrest with ⟨e, he, _⟩ | ⟨r', hr', hrest⟩
  · rw [hr] at he
    cases he
  rw [hr] at hr'
  cases hr'
  rcases hrest with ⟨_, hreads, hval⟩ | ⟨hne, hreads, hval⟩
  · exact ⟨by rw [hreads]; exact hscan, fun _ => by rw [hval]; exact hneg⟩
  have hentries : ∀ i < (headerOf image dataPtr).phnum, EntryInside image dataPtr size i :=
    fun i hi => hentry i hi fun j hj => hnone j (by omega)
  have hinside : ∀ i < (headerOf image dataPtr).phnum,
      (entryOf image dataPtr i).pType = ptLoad → SegmentInside (entryOf image dataPtr i) size := by
    rcases hsegs with ⟨i, hi, href⟩ | hmax | h
    · exact absurd href (hnone i hi)
    · exact absurd (hbase.mpr hmax) hne
    · exact h
  refine ⟨?_, fun hout => absurd hout (not_pointsOutside hentries hinside)⟩
  rw [hreads]
  refine (Kernel.execLoad_ends (Q := fun l => ∀ a ∈ l, WithinImage dataPtr size a) hscan ?_ ?_).1
  · intro i hi k hk a ha
    rcases Kernel.mem_noteReads.mp ha with ⟨j, hj, rfl⟩ | ha
    · exact hentries i hi j hj
    · exact hk a ha
  · intro i hi k₁ htype va phys k hk
    rw [hread] at htype ⊢
    exact Kernel.loadPage_reads hfits (hinside i hi htype) i va phys hk

/-- An image that is read safely has its fields inside, unless loading ran short. -/
theorem contained_of_readsSafely (hsteady : Steady look k)
    (h : ReadsSafely L look k dataPtr size) :
    Contained (atFirst look k) dataPtr size ∨ execValue L look k dataPtr size = errNoCapacity ∨
      execValue L look k dataPtr size = errOutOfMemory := by
  obtain ⟨hread, hreject⟩ := h
  have hcases := exec_cases L hsteady dataPtr size
  generalize atFirst look k = image at hreject hcases ⊢
  rcases hcases with ⟨hsize, _⟩ | ⟨_, hrest⟩
  · exact Or.inl (Or.inl hsize)
  rcases hrest with ⟨hok, _⟩ | ⟨_, hrest⟩
  · exact Or.inl (Or.inr (Or.inl hok))
  have hscan : ∀ a ∈ (scan image k dataPtr).2.reads, WithinImage dataPtr size a := by
    rcases hrest with ⟨_, _, hreads, _⟩ | ⟨_, _, ⟨_, hreads, _⟩ | ⟨_, hreads, _⟩⟩
    · rwa [hreads] at hread
    · rwa [hreads] at hread
    · rw [hreads] at hread
      exact fun a ha => hread a (Kernel.mem_execLoad_of_mem ha)
  have hentry : ∀ i < (headerOf image dataPtr).phnum,
      (∀ j < i, ¬Refused (entryOf image dataPtr j)) → EntryInside image dataPtr size i :=
    fun i hi hprev => entryInside_of_scan hi hprev hscan
  rcases scan_value image k dataPtr with ⟨href, _⟩ | ⟨hnone, r, hr, hbase⟩
  · exact Or.inl (Or.inr (Or.inr ⟨hentry, Or.inl href⟩))
  rcases hrest with ⟨e, he, _⟩ | ⟨r', hr', hrest⟩
  · rw [hr] at he
    cases he
  rw [hr] at hr'
  cases hr'
  rcases hrest with ⟨hmax, _⟩ | ⟨_, _, hval⟩
  · exact Or.inl (Or.inr (Or.inr ⟨hentry, Or.inr (Or.inl (hbase.mp hmax))⟩))
  rcases Kernel.execLoad_value L look dataPtr (headerOf image dataPtr) r
    (scan image k dataPtr).2 with hcap | hmem | hpos
  · exact Or.inr (Or.inl (hval.trans hcap))
  · exact Or.inr (Or.inr (hval.trans hmem))
  refine Or.inl (Or.inr (Or.inr ⟨hentry, Or.inr (Or.inr fun i hi htype => ?_)⟩))
  -- A segment outside would have had to be refused, and the answer is a success.
  by_contra hout
  have hlt := hreject ⟨i, hi, Or.inr ⟨htype, hout⟩⟩
  rw [hval] at hlt
  omega

/-- A header with `phnum` program headers from the offset `phoff` on. -/
def smallHeader (phoff phnum : Nat) : List UInt8 :=
  elfMagic ++ [2] ++ List.replicate 13 0 ++ toLE 2 0x3e ++ List.replicate 12 0 ++ toLE 8 phoff ++
    List.replicate 14 0 ++ toLE 2 phdrSize ++ toLE 2 phnum ++ List.replicate 6 0

/-- An image at an address, with zeros around it. -/
def imageAt (base : Nat) (bytes : List UInt8) : Image := .still fun a =>
  if base ≤ a then bytes.getD (a - base) 0 else 0

end Whole

end PureOS.Memory
