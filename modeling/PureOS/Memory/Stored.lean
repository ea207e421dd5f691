import PureOS.Memory.Buffer
import PureOS.Memory.Through

set_option autoImplicit false

/-!
# Memory: images that a process stores

A process that has got a page may store an image there, and let the loader read it.  The loader
reads within the image if its fields stay inside, and if no page of the image comes to lie over
the program headers before they are read again.
-/

namespace PureOS.Memory

open PureOS.Foundation PureOS.Process

variable {L : Layout} {g : Ledger} {base frame dataPtr size i : Nat} {k : Kernel}

theorem Buffer.kept (h : Buffer L g base frame k) (hi : i < 4096) : Kept g k (base + i) := by
  refine ⟨_, h.access i hi, Or.inl ?_⟩
  rw [h.pageDown_frame hi]
  exact h.held

/-- An image that lies in the page stays as it is while its pages are mapped elsewhere. -/
theorem Buffer.settled (h : Buffer L g base frame k) {image : Image} {hdr : Elf64Header}
    (himage : Image.still k.seen = image) (hhdr : headerOf image base = hdr)
    (hheaders : ∀ i < hdr.phnum, hdr.phoff + i * hdr.phentsize + phdrSize ≤ 4096)
    (hbytes : ∀ i < hdr.phnum,
      (Kernel.phdrAt image base hdr i).pOffset + (Kernel.phdrAt image base hdr i).pFilesz ≤ 4096)
    (hmissed : ∀ va ∈ (plan image base hdr).map Prod.snd, pageNo va ≠ pageNo base)
    (hbase : base % 4096 = 0) (size : Nat) : Settled L k base size := by
  have hfits := h.fits
  have hplace : ∀ i < 4096, ∀ l ⊆ (plan image base hdr).map Prod.snd,
      Kept g k (base + i) ∧ Missed l (base + i) := by
    intro i hi l hl
    refine ⟨h.kept hi, fun va hva => ?_⟩
    have hpage : pageNo (base + i) = pageNo base := by
      unfold pageNo
      omega
    rw [hpage]
    exact hmissed va (hl hva)
  intro range slot _ _
  refine ⟨h.running, g, h.holds, ?_, ?_⟩
  · unfold HeadersStay
    rw [himage]
    dsimp only
    rw [hhdr]
    intro i hi j hj
    have hle := hheaders i hi
    have haddr : wrappingAdd (Kernel.phdrAddr base hdr i) j =
        base + (hdr.phoff + i * hdr.phentsize + j) := by
      rw [Kernel.phdrAddr, wrappingAdd_of_lt (show base + hdr.phoff < wordSize by omega),
        wrappingAdd_of_lt (show base + hdr.phoff + i * hdr.phentsize < wordSize by omega),
        wrappingAdd_of_lt (by omega)]
      omega
    rw [haddr]
    refine hplace _ (by omega) _ ?_
    obtain ⟨rest, hrange⟩ := range_append_cons hi
    rw [map_snd_plan, hrange, List.flatMap_append]
    exact List.subset_append_left _ _
  · unfold BytesStay
    rw [himage]
    dsimp only
    rw [hhdr]
    intro i hi _ o ho
    have hle := hbytes i hi
    rw [wrappingAdd_of_lt (by omega)]
    exact hplace _ (by omega) _ (List.Subset.refl _)

/-! ## The first process stores an image -/

section Stored

variable {bytes : List UInt8}

theorem seen_stored (hlen : bytes.length ≤ 4096) (hi : i < 4096) :
    (stored bytes).seen (ephemeralBase + i) = bytes.getD i 0 := by
  obtain ⟨g, hbuffer⟩ := stored_buffer hlen
  obtain ⟨-, -, hzero⟩ := allocated_buffer
  rw [hbuffer.seen hi, stored]
  dsimp only
  by_cases hin : i < bytes.length
  · rw [blit_of_inside _ _ _ _ hin, List.getD_eq_getElem _ _ hin]
  · rw [blit_of_outside _ _ _ _ (by omega), hzero i hi, List.getD_eq_default]
    omega

/-- A stored image is found as it was stored. -/
theorem found_stored (hlen : bytes.length ≤ 4096) (reading : Reading) (hi : i < 4096) :
    (stored bytes).seen (wrappingAdd ephemeralBase i) =
      (imageAt ephemeralBase bytes).found reading (wrappingAdd ephemeralBase i) := by
  have hadd : wrappingAdd ephemeralBase i = ephemeralBase + i := by
    refine wrappingAdd_of_lt ?_
    unfold ephemeralBase wordSize
    omega
  rw [hadd, seen_stored hlen hi]
  exact ((if_pos (Nat.le_add_right _ _)).trans (by rw [Nat.add_sub_cancel_left])).symm

theorem headerOf_stored (hlen : bytes.length ≤ 4096) :
    headerOf (.still (stored bytes).seen) ephemeralBase =
      headerOf (imageAt ephemeralBase bytes) ephemeralBase :=
  Elf64Header.ofBytes_congr fun _ hi => found_stored hlen .header (by omega)

theorem readPhdr_stored (hlen : bytes.length ≤ 4096) {hdr : Elf64Header}
    (hle : hdr.phoff + i * hdr.phentsize + phdrSize ≤ 4096) :
    Kernel.readPhdr (stored bytes).seen ephemeralBase hdr i =
      Kernel.phdrAt (imageAt ephemeralBase bytes) ephemeralBase hdr i := by
  refine readPhdr_congr fun j hj => ?_
  have haddr : wrappingAdd (Kernel.phdrAddr ephemeralBase hdr i) j =
      wrappingAdd ephemeralBase (hdr.phoff + i * hdr.phentsize + j) := by
    unfold Kernel.phdrAddr wrappingAdd wordSize
    omega
  rw [haddr]
  exact found_stored hlen (.entry i) (by omega)

/-- A stored image stays as it is while its pages are mapped elsewhere. -/
theorem settled_stored (hlen : bytes.length ≤ 4096) {hdr : Elf64Header}
    (hhdr : headerOf (imageAt ephemeralBase bytes) ephemeralBase = hdr)
    (hheaders : ∀ i < hdr.phnum, hdr.phoff + i * hdr.phentsize + phdrSize ≤ 4096)
    (hbytes : ∀ i < hdr.phnum,
      (Kernel.phdrAt (imageAt ephemeralBase bytes) ephemeralBase hdr i).pOffset +
        (Kernel.phdrAt (imageAt ephemeralBase bytes) ephemeralBase hdr i).pFilesz ≤ 4096)
    (hmissed : ∀ va ∈ (plan (imageAt ephemeralBase bytes) ephemeralBase hdr).map Prod.snd,
      pageNo va ≠ pageNo ephemeralBase) (size : Nat) :
    Settled Layout.packed (stored bytes) ephemeralBase size := by
  obtain ⟨g, hbuffer⟩ := stored_buffer hlen
  have hph : ∀ i < hdr.phnum, Kernel.phdrAt (.still (stored bytes).seen) ephemeralBase hdr i =
      Kernel.phdrAt (imageAt ephemeralBase bytes) ephemeralBase hdr i :=
    fun i hi => readPhdr_stored hlen (hheaders i hi)
  refine hbuffer.settled rfl ((headerOf_stored hlen).trans hhdr) hheaders (fun i hi => ?_) ?_
    (by decide) size
  · rw [hph i hi]
    exact hbytes i hi
  · rw [plan_congr hph]
    exact hmissed

end Stored

/-! ## What is read -/

theorem Undisturbed.reads (h : Undisturbed L k dataPtr size) (reads : List Nat) :
    Undisturbed L { k with reads := reads } dataPtr size := by
  intro range slot hchecked hslot
  obtain ⟨hrunning, g, hk, hstay⟩ := h range slot hchecked hslot
  exact ⟨hrunning, g, hk.reads reads, hstay.reads reads⟩

/-- The loader reads within an image whose fields stay inside, and rejects the others, if it finds
the headers again as they were.  Only then does it so, or where it stops for want of a slot or of
memory. -/
theorem readsSafely_iff_contained (L : Layout) (k : Kernel) (hfits : dataPtr + size ≤ wordSize) :
    (Contained (.still k.seen) dataPtr size → Undisturbed L k dataPtr size →
      ReadsSafely L throughTables k dataPtr size) ∧
    (ReadsSafely L throughTables k dataPtr size →
      Contained (.still k.seen) dataPtr size ∨
        execValue L throughTables k dataPtr size = errNoCapacity ∨
        execValue L throughTables k dataPtr size = errOutOfMemory) := by
  refine ⟨fun hcontained hstay => ?_, contained_of_readsSafely (steady_throughTables k)⟩
  have hexec := (hstay.reads []).exec_eq
  have hseen : ({ k with reads := [] } : Kernel).seen = k.seen := rfl
  rw [hseen] at hexec
  have hsafe := readsSafely_of_contained (L := L) (steady_headersFound k) (fun _ _ => rfl) hfits
    hcontained
  unfold ReadsSafely execReads execValue at hsafe ⊢
  rw [hexec]
  exact hsafe

/-- What is refused is refused with one answer. -/
theorem execValue_of_refused (hchecked : checked (.still k.seen) dataPtr size = none) :
    execValue L throughTables k dataPtr size = errInvalidPointer := by
  obtain ⟨image, hheader, hscan, -, hexec⟩ :=
    exists_image L (steady_throughTables { k with reads := [] }) dataPtr size
  have hseen : throughTables .header { k with reads := [] } = k.seen := rfl
  rw [hseen] at hheader hscan
  have hsame : checked image dataPtr size = checked (.still k.seen) dataPtr size := by
    refine checked_congr (congrArg (fun found => Elf64Header.ofBytes (bytesFrom found dataPtr)) hheader)
      fun i _ => ?_
    exact congrArg (fun found => Kernel.readPhdr found dataPtr _ i) (hscan i)
  obtain ⟨reads, heq⟩ := exec_eq L image { k with reads := [] } dataPtr size
  rw [execValue, hexec, heq, hsame, hchecked]

/-- An image with two segments of one byte. -/
def twoSegments : List UInt8 :=
  smallHeader 64 2 ++
    (toLE 4 1 ++ toLE 4 5 ++ toLE 8 0 ++ toLE 8 0x400000 ++ toLE 8 0 ++ toLE 8 1 ++ toLE 8 1 ++
      toLE 8 0) ++
    (toLE 4 1 ++ toLE 4 7 ++ toLE 8 1 ++ toLE 8 0x401000 ++ toLE 8 0 ++ toLE 8 1 ++ toLE 8 9 ++
      toLE 8 0)

/-- The first process stores the image in its page, and the loader reads nothing else. -/
theorem readsSafely_iff_contained_twoSegments :
    ReadsSafely Layout.packed throughTables (stored twoSegments) ephemeralBase 176 := by
  have hlen : twoSegments.length ≤ 4096 := by decide +kernel
  have hheaders : ∀ i < (headerOf (imageAt ephemeralBase twoSegments) ephemeralBase).phnum,
      (headerOf (imageAt ephemeralBase twoSegments) ephemeralBase).phoff +
        i * (headerOf (imageAt ephemeralBase twoSegments) ephemeralBase).phentsize + phdrSize ≤
          4096 := by decide +kernel
  have hcontained : Contained (imageAt ephemeralBase twoSegments) ephemeralBase 176 := by
    decide +kernel
  have hsettled := settled_stored hlen rfl hheaders (by decide +kernel) (by decide +kernel) 176
  have hheader := headerOf_stored hlen
  have hentry : ∀ i < (headerOf (imageAt ephemeralBase twoSegments) ephemeralBase).phnum,
      entryOf (.still (stored twoSegments).seen) ephemeralBase i =
        entryOf (imageAt ephemeralBase twoSegments) ephemeralBase i := by
    intro i hi
    rw [entryOf, hheader]
    exact readPhdr_stored hlen (hheaders i hi)
  exact (readsSafely_iff_contained Layout.packed (stored twoSegments) (by decide)).1
    ((contained_congr hheader hentry).mpr hcontained) hsettled.undisturbed

/-- A header alone, and the program header far behind it. -/
theorem not_readsSafely :
    ¬∀ (L : Layout) (k₀ k : Kernel) (h : List Action), Booted L k₀ → Run (SparingStep L) k₀ h k →
      k.Running → ∀ dataPtr size, dataPtr + size ≤ wordSize →
        ReadsSafely L throughTables k dataPtr size := by
  intro hall
  have hlen : (smallHeader 1000 1).length ≤ 4096 := by decide +kernel
  have hheaders : ∀ i < (headerOf (imageAt ephemeralBase (smallHeader 1000 1)) ephemeralBase).phnum,
      (headerOf (imageAt ephemeralBase (smallHeader 1000 1)) ephemeralBase).phoff +
        i * (headerOf (imageAt ephemeralBase (smallHeader 1000 1)) ephemeralBase).phentsize +
          phdrSize ≤ 4096 := by decide +kernel
  have hnot : ¬Contained (imageAt ephemeralBase (smallHeader 1000 1)) ephemeralBase 64 := by
    decide +kernel
  have hrefused : (checked (imageAt ephemeralBase (smallHeader 1000 1)) ephemeralBase 64).isNone := by
    decide +kernel
  have hheader := headerOf_stored hlen
  have hentry : ∀ i < (headerOf (imageAt ephemeralBase (smallHeader 1000 1)) ephemeralBase).phnum,
      Kernel.scanAt (.still (stored (smallHeader 1000 1)).seen) ephemeralBase
          (headerOf (imageAt ephemeralBase (smallHeader 1000 1)) ephemeralBase) i =
        Kernel.scanAt (imageAt ephemeralBase (smallHeader 1000 1)) ephemeralBase
          (headerOf (imageAt ephemeralBase (smallHeader 1000 1)) ephemeralBase) i :=
    fun i hi => readPhdr_stored hlen (hheaders i hi)
  have hchecked : checked (.still (stored (smallHeader 1000 1)).seen) ephemeralBase 64 = none :=
    (checked_congr hheader hentry).trans (Option.isNone_iff_eq_none.mp hrefused)
  have hvalue := execValue_of_refused (L := Layout.packed) hchecked
  have hsafe := hall Layout.packed (started 64) (stored (smallHeader 1000 1)) _
    (booted_started (by decide)) (run_stored hlen) rfl ephemeralBase 64 (by decide)
  rcases contained_of_readsSafely (steady_throughTables _) hsafe with hcontained | hvalue' | hvalue'
  · refine hnot ((contained_congr hheader fun i hi => ?_).mp hcontained)
    rw [entryOf, hheader]
    exact hentry i hi
  · exact absurd (hvalue.symm.trans hvalue') (by decide)
  · exact absurd (hvalue.symm.trans hvalue') (by decide)

end PureOS.Memory
