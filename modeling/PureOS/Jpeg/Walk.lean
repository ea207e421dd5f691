import PureOS.Jpeg.Markers
import Mathlib.Logic.Relation

set_option autoImplicit false

/-!
# Jpeg: the walk from marker to marker (`jpeg.rs`)

Each turn of the loop either moves on or ends the walk.  The scan header sets the place of the
scan and moves to the end of the data, so that the next turn refuses the file: the loop never
ends with a scan to decode.  What can go wrong goes wrong in the markers before.
-/

namespace PureOS.Jpeg

open PureOS.Foundation Parse

/-- The two bytes of a segment's length are cut off. -/
def CutOff (data : List UInt8) (pos : Nat) : Prop := pos + 1 = data.length

/-- The length that a segment says it has. -/
def lenAt (data : List UInt8) (pos : Nat) : Nat :=
  (data[pos]?.getD 0).toNat * 256 + (data[pos + 1]?.getD 0).toNat

/-- The segment at a place lies inside the data. -/
def Inside (data : List UInt8) (pos : Nat) : Prop :=
  pos + 1 < data.length ∧ pos + lenAt data pos ≤ data.length

/-- The arm of the marker in front of a place goes wrong. -/
def BadSegment (data : List UInt8) (numComponents pos : Nat) : Kind → Prop
  | .alone | .eoi => False
  | .dqt | .dht => CutOff data pos
  | .skip => CutOff data pos ∨ Inside data pos ∧ lenAt data pos < 2
  | .sof0 => CutOff data pos ∨
      Inside data pos ∧ 6 ≤ lenAt data pos ∧ data[pos + 2]? = some 8 ∧ data.length ≤ pos + 7
  | .sos => CutOff data pos ∨
      Inside data pos ∧ (data.length ≤ pos + 2 ∨
        (data[pos + 2]?.getD 0).toNat = numComponents ∧ data.length ≤ pos + 5 + numComponents * 2)

/-- The turn of the loop at a place goes wrong. -/
def BadAt (data : List UInt8) (h : Header) : Prop :=
  data[h.pos]? = some 0xFF ∧
    ∃ marker, data[h.pos + 1]? = some marker ∧
      BadSegment data h.numComponents (h.pos + 2) (kindOf marker)

/-- The loop comes from one state to another. -/
def Reaches (data : List UInt8) : Header → Header → Prop :=
  Relation.ReflTransGen fun h h' => turn data h = .ok (true, h')

/-- The files on which some turn of the loop goes wrong. -/
def Harmful (data : List UInt8) : Prop :=
  data.take 2 = [0xFF, 0xD8] ∧ 4 ≤ data.length ∧ ∃ h, Reaches data .start h ∧ BadAt data h

/-- What holds in front of each turn: there is a frame header with three components or none, and
the place of the scan is not known, unless the data are at their end. -/
structure Walking (data : List UInt8) (h : Header) : Prop where
  components : h.numComponents = 0 ∨ h.numComponents = 3
  scan : h.scanStart = 0 ∨ h.pos = data.length

/-- A segment with tables has moved on, and has changed nothing else that counts. -/
structure Advances (h h' : Header) : Prop where
  pos : h.pos ≤ h'.pos
  scan : h'.scanStart = h.scanStart
  components : h'.numComponents = h.numComponents

theorem Advances.refl (h : Header) : Advances h h := ⟨Nat.le_refl _, rfl, rfl⟩

theorem Advances.trans {h h' h'' : Header} (h₁ : Advances h h') (h₂ : Advances h' h'') :
    Advances h h'' :=
  ⟨h₁.pos.trans h₂.pos, h₂.scan.trans h₁.scan, h₂.components.trans h₁.components⟩

section

variable {data : List UInt8} {h h' : Header} {pos n : Nat}

/-! ## The tables -/

theorem readQuant8_meets (is : List (Fin 64)) (pos : Nat) (q : Vector Nat 64) :
    Meets (readQuant8 data is pos q) fun r => pos ≤ r.1 := by
  induction is generalizing pos q with
  | nil => exact Nat.le_refl pos
  | cons i is ih =>
      rw [readQuant8]
      split
      · trivial
      · refine (Meets.byteAt (by omega)).bind fun b _ => (ih _ _).mono fun r hr => ?_
        omega

theorem readQuant16_meets (is : List (Fin 64)) (pos : Nat) (q : Vector Nat 64) :
    Meets (readQuant16 data is pos q) fun r => pos ≤ r.1 := by
  induction is generalizing pos q with
  | nil => exact Nat.le_refl pos
  | cons i is ih =>
      rw [readQuant16]
      split
      · trivial
      · refine (Meets.be16 (by omega)).bind fun b _ => (ih _ _).mono fun r hr => ?_
        omega

theorem readCounts_meets (is : List (Fin 16)) (pos : Nat) (q : Vector UInt8 16) :
    Meets (readCounts data is pos q) fun r => pos ≤ r.1 := by
  induction is generalizing pos q with
  | nil => exact Nat.le_refl pos
  | cons i is ih =>
      rw [readCounts]
      split
      · trivial
      · refine (Meets.byteAt (by omega)).bind fun b _ => (ih _ _).mono fun r hr => ?_
        omega

theorem readSymbols_meets (n pos : Nat) (symbols : List UInt8) :
    Meets (readSymbols data n pos symbols) fun r => pos ≤ r.1 := by
  induction n generalizing pos symbols with
  | zero => exact Nat.le_refl pos
  | succ n ih =>
      rw [readSymbols]
      split
      · trivial
      · refine (Meets.byteAt (by omega)).bind fun b _ => (ih _ _).mono fun r hr => ?_
        omega

/-- A table moves on. -/
def MovesOn (table : Header → Parse Header) : Prop :=
  ∀ h, Meets (table h) fun h' => Advances h h' ∧ h.pos < h'.pos

theorem readQuantTable_movesOn : MovesOn (readQuantTable data) := by
  intro h
  rw [readQuantTable]
  split
  · trivial
  · refine (Meets.byteAt (by omega)).bind fun info _ => ?_
    dsimp only
    split
    · split
      · refine (readQuant8_meets _ _ _).bind fun r hr => ?_
        exact ⟨⟨by change h.pos ≤ r.1; omega, rfl, rfl⟩, hr⟩
      · refine (readQuant16_meets _ _ _).bind fun r hr => ?_
        exact ⟨⟨by change h.pos ≤ r.1; omega, rfl, rfl⟩, hr⟩
    · trivial

theorem readHuffTable_movesOn : MovesOn (readHuffTable data) := by
  intro h
  rw [readHuffTable]
  split
  · trivial
  · refine (Meets.byteAt (by omega)).bind fun info _ => ?_
    dsimp only
    split
    · refine (readCounts_meets _ _ _).bind fun r hr => ?_
      refine (readSymbols_meets _ _ _).bind fun r' hr' => ?_
      split
      · exact ⟨⟨by change h.pos ≤ r'.1; omega, rfl, rfl⟩, by change h.pos < r'.1; omega⟩
      · exact ⟨⟨by change h.pos ≤ r'.1; omega, rfl, rfl⟩, by change h.pos < r'.1; omega⟩
    · trivial

/-- The loop over the tables of a segment ends. -/
theorem readTables_meets {table : Header → Parse Header} (htable : MovesOn table) {stop : Nat}
    (hpos : 0 < n) (hn : stop < n + h.pos) :
    Meets (readTables table stop n h) fun h' => Advances h h' := by
  induction n generalizing h with
  | zero => cases hpos
  | succ n ih =>
      rw [readTables]
      split
      · rename_i hstop
        refine (htable h).bind fun h' hh' => ?_
        obtain ⟨hadvances, hlt⟩ := hh'
        cases n with
        | zero => omega
        | succ n => exact (ih n.succ_pos (by omega)).mono fun h'' hh'' => hadvances.trans hh''
      · exact Advances.refl h

/-! ## The segments -/

theorem be16_eq (h : pos + 1 < data.length) : be16 data pos = .ok (lenAt data pos) := by
  rw [be16, byteAt_ok (by omega), byteAt_ok h, lenAt, List.getElem?_eq_getElem h,
    List.getElem?_eq_getElem (by omega)]
  rfl

theorem segLen_inside (h : Inside data pos) : segLen data pos = .ok (lenAt data pos) := by
  obtain ⟨hlen, hend⟩ := h
  rw [segLen, if_neg (by omega), be16_eq hlen, Parse.bind_ok, if_neg (Nat.not_lt.mpr hend)]
  rfl

theorem segLen_cutOff (h : CutOff data pos) : segLen data pos = panic := by
  rw [CutOff] at h
  rw [segLen, if_neg (by omega), be16, byteAt_ok (by omega), Parse.bind_ok, byteAt_panic (by omega)]
  rfl

theorem segLen_meets (h : ¬CutOff data pos) :
    Meets (segLen data pos) fun len => len = lenAt data pos ∧ Inside data pos := by
  by_cases hinside : Inside data pos
  · rw [segLen_inside hinside]
    exact ⟨rfl, hinside⟩
  · rw [segLen]
    split
    · trivial
    · have hlen : pos + 1 < data.length := by
        rw [CutOff] at h
        omega
      rw [be16_eq hlen, Parse.bind_ok, if_pos]
      · trivial
      · exact Nat.lt_of_not_le fun hend => hinside ⟨hlen, hend⟩

/-- What holds behind a turn of the loop. -/
structure Next (data : List UInt8) (h : Header) (r : Bool × Header) : Prop where
  pos : h.pos ≤ r.2.pos
  walking : Walking data r.2
  stops : r.1 = false → r.2.scanStart = 0

/-- An arm that neither sets the place of the scan nor reads a frame header. -/
theorem Advances.next (hadvances : Advances h h')
    (hcomponents : h.numComponents = 0 ∨ h.numComponents = 3) (hscan : h.scanStart = 0)
    (again : Bool) : Next data h (again, h') where
  pos := hadvances.pos
  walking :=
    { components := by rwa [hadvances.components]
      scan := Or.inl (hadvances.scan.trans hscan) }
  stops _ := hadvances.scan.trans hscan

theorem skipSegment_meets (h : Header) (hbad : ¬BadSegment data h.numComponents h.pos .skip) :
    Meets (skipSegment data h) (Advances h) := by
  have hcut : ¬CutOff data h.pos := fun hcut => hbad (Or.inl hcut)
  refine (segLen_meets hcut).bind fun len hlen => ?_
  obtain ⟨rfl, hinside⟩ := hlen
  have htwo : ¬lenAt data h.pos < 2 := fun htwo => hbad (Or.inr ⟨hinside, htwo⟩)
  rw [sub, if_neg htwo]
  exact ⟨Nat.le_add_right _ _, rfl, rfl⟩

theorem tablesSegment_meets {table : Header → Parse Header} (htable : MovesOn table) (h : Header)
    (hcut : ¬CutOff data h.pos) : Meets (tablesSegment data table h) (Advances h) := by
  refine (segLen_meets hcut).bind fun len hlen => ?_
  obtain ⟨rfl, hinside⟩ := hlen
  have hfuel : h.pos + lenAt data h.pos < data.length + 1 + (h.pos + 2) := by
    have := hinside.2
    omega
  refine (readTables_meets htable (Nat.succ_pos _) hfuel).mono fun h' hadvances => ?_
  exact ⟨(Nat.le_add_right _ 2).trans hadvances.pos, hadvances.scan, hadvances.components⟩

/-- The loop over the components reads inside the data. -/
theorem readComponents_meets (is : List (Fin 3)) (hlen : pos + 16 < data.length) (h : Header) :
    Meets (readComponents data pos is h) fun h' =>
      h'.scanStart = h.scanStart ∧ h'.numComponents = h.numComponents := by
  induction is generalizing h with
  | nil => exact ⟨rfl, rfl⟩
  | cons i is ih =>
      have hi := i.isLt
      rw [readComponents]
      refine (Meets.byteAt (by omega)).bind fun id _ => ?_
      refine (Meets.byteAt (by omega)).bind fun hv _ => ?_
      refine (Meets.byteAt (by omega)).bind fun tq _ => ?_
      dsimp only
      split
      · trivial
      · split
        · split
          · trivial
          · exact ih _
        · trivial

theorem frameSegment_meets (h : Header) (hbad : ¬BadSegment data h.numComponents h.pos .sof0) :
    Meets (frameSegment data h) fun h' =>
      h.pos ≤ h'.pos ∧ h'.scanStart = h.scanStart ∧ h'.numComponents = 3 := by
  have hcut : ¬CutOff data h.pos := fun hcut => hbad (Or.inl hcut)
  refine (segLen_meets hcut).bind fun len hlen => ?_
  obtain ⟨rfl, hinside⟩ := hlen
  split
  · trivial
  · rename_i hsix
    have hend := hinside.2
    refine (Meets.byteAt (by omega)).bind fun precision hprecision => ?_
    split
    · trivial
    · rename_i hne
      have height := not_not.mp hne
      have hlong : h.pos + 7 < data.length := by
        refine Nat.lt_of_not_le fun hle => hbad (Or.inr ⟨hinside, Nat.le_of_not_lt hsix, ?_, hle⟩)
        rw [hprecision, height]
      refine (Meets.be16 (by omega)).bind fun _ _ => ?_
      refine (Meets.be16 (by omega)).bind fun _ _ => ?_
      refine (Meets.byteAt (by omega)).bind fun components _ => ?_
      split
      · trivial
      · split
        · trivial
        · refine (readComponents_meets _ (by omega) _).bind fun h' hh' => ?_
          rw [sub, if_neg (by omega)]
          obtain ⟨hscan, hcomponents⟩ := hh'
          exact ⟨Nat.le_add_right _ _, hscan, hcomponents⟩

theorem selectTables_meets {base : Nat} (js : List (Fin 3)) (hlen : base + 1 < data.length)
    (h : Header) :
    Meets (selectTables data base js h) fun h' => h'.numComponents = h.numComponents := by
  induction js generalizing h with
  | nil => exact rfl
  | cons j js ih =>
      rw [selectTables]
      refine (Meets.byteAt (by omega)).bind fun id _ => ?_
      split
      · exact (Meets.byteAt (by omega)).bind fun tables _ => ih _
      · exact ih _

theorem selectAll_meets (is : List Nat) (hlen : ∀ i ∈ is, pos + 4 + i * 2 < data.length)
    (h : Header) :
    Meets (selectAll data pos is h) fun h' => h'.numComponents = h.numComponents := by
  induction is generalizing h with
  | nil => exact rfl
  | cons i is ih =>
      have hi := hlen i List.mem_cons_self
      rw [selectAll]
      refine (selectTables_meets _ (by omega) h).bind fun h' hh' => ?_
      exact (ih (fun i hi => hlen i (List.mem_cons_of_mem _ hi)) h').mono fun _ => (·.trans hh')

theorem scanSegment_meets (h : Header) (hbad : ¬BadSegment data h.numComponents h.pos .sos) :
    Meets (scanSegment data h) fun h' =>
      h.pos ≤ h'.pos ∧ h'.pos = data.length ∧ h'.numComponents = h.numComponents ∧
        h'.scanStart = h.pos + lenAt data h.pos - 2 := by
  have hcut : ¬CutOff data h.pos := fun hcut => hbad (Or.inl hcut)
  refine (segLen_meets hcut).bind fun len hlen => ?_
  obtain ⟨rfl, hinside⟩ := hlen
  have htwo : h.pos + 2 < data.length :=
    Nat.lt_of_not_le fun hle => hbad (Or.inr ⟨hinside, Or.inl hle⟩)
  refine (Meets.byteAt htwo).bind fun n hn => ?_
  split
  · trivial
  · rename_i heq
    have heq := not_not.mp heq
    have hlong : h.pos + 5 + h.numComponents * 2 < data.length := by
      refine Nat.lt_of_not_le fun hle => hbad (Or.inr ⟨hinside, Or.inr ⟨?_, hle⟩⟩)
      rw [hn]
      exact heq
    refine (selectAll_meets _ ?_ h).bind fun h' hh' => ?_
    · intro i hi
      have := List.mem_range.mp hi
      omega
    · refine (Meets.byteAt (by omega)).bind fun _ _ => ?_
      refine (Meets.byteAt (by omega)).bind fun _ _ => ?_
      refine (Meets.byteAt (by omega)).bind fun _ _ => ?_
      split
      · trivial
      · exact ⟨by change h.pos ≤ data.length; omega, rfl, hh', rfl⟩

/-! ## The arms that go wrong -/

theorem frameSegment_panic (hinside : Inside data h.pos) (hlen : 6 ≤ lenAt data h.pos)
    (height : data[h.pos + 2]? = some 8) (hshort : data.length ≤ h.pos + 7) :
    frameSegment data h = panic := by
  have hend := hinside.2
  have hbyte : byteAt data (h.pos + 2) = .ok 8 := by rw [byteAt, height]
  rw [frameSegment, segLen_inside hinside, Parse.bind_ok, if_neg (by omega), hbyte, Parse.bind_ok,
    if_neg (by decide), be16_eq (by omega), Parse.bind_ok]
  -- The width is cut off, or the number of components is.
  by_cases hwidth : h.pos + 6 < data.length
  · rw [be16_eq hwidth, Parse.bind_ok, byteAt_panic hshort]
    rfl
  · rw [be16, byteAt_ok (by omega), Parse.bind_ok, byteAt_panic (by omega)]
    rfl

theorem selectTables_fault {base : Nat} (js : List (Fin 3)) (h : Header) :
    selectTables data base js h = panic ∨ ∃ h', selectTables data base js h = .ok h' := by
  induction js generalizing h with
  | nil => exact Or.inr ⟨h, rfl⟩
  | cons j js ih =>
      rw [selectTables]
      rcases Nat.lt_or_ge base data.length with hbase | hbase
      · rw [byteAt_ok hbase, Parse.bind_ok]
        split
        · rcases Nat.lt_or_ge (base + 1) data.length with hnext | hnext
          · rw [byteAt_ok hnext, Parse.bind_ok]
            exact ih _
          · rw [byteAt_panic hnext]
            exact Or.inl rfl
        · exact ih h
      · rw [byteAt_panic hbase]
        exact Or.inl rfl

theorem selectAll_fault (is : List Nat) (h : Header) :
    selectAll data pos is h = panic ∨ ∃ h', selectAll data pos is h = .ok h' := by
  induction is generalizing h with
  | nil => exact Or.inr ⟨h, rfl⟩
  | cons i is ih =>
      rw [selectAll]
      rcases @selectTables_fault data (pos + 3 + i * 2)
        ((List.finRange 3).filter fun j => j.val < h.numComponents) h with htables | ⟨h', htables⟩
      · rw [htables]
        exact Or.inl rfl
      · rw [htables, Parse.bind_ok]
        exact ih h'

theorem scanSegment_panic (hinside : Inside data h.pos)
    (hshort : data.length ≤ h.pos + 2 ∨ (data[h.pos + 2]?.getD 0).toNat = h.numComponents ∧
      data.length ≤ h.pos + 5 + h.numComponents * 2) :
    scanSegment data h = panic := by
  rw [scanSegment, segLen_inside hinside, Parse.bind_ok]
  rcases Nat.lt_or_ge (h.pos + 2) data.length with htwo | htwo
  · obtain ⟨hn, hend⟩ := hshort.resolve_left (by omega)
    rw [List.getElem?_eq_getElem htwo] at hn
    change data[h.pos + 2].toNat = _ at hn
    rw [byteAt_ok htwo, Parse.bind_ok, if_neg (not_not.mpr hn)]
    rcases @selectAll_fault data h.pos (List.range data[h.pos + 2].toNat) h with
      hall | ⟨h', hall⟩
    · rw [hall]
      rfl
    · -- One of the last three bytes is not there.
      rw [hall, Parse.bind_ok, hn]
      rcases Nat.lt_or_ge (h.pos + 3 + h.numComponents * 2) data.length with hstart | hstart
      · rw [byteAt_ok hstart, Parse.bind_ok]
        rcases Nat.lt_or_ge (h.pos + 4 + h.numComponents * 2) data.length with hlast | hlast
        · rw [byteAt_ok hlast, Parse.bind_ok, byteAt_panic hend]
          rfl
        · rw [byteAt_panic hlast]
          rfl
      · rw [byteAt_panic hstart]
        rfl
  · rw [byteAt_panic htwo]
    rfl

/-- An arm for a bad segment goes wrong. -/
theorem arm_bad {kind : Kind} (hbad : BadSegment data h.numComponents h.pos kind) :
    arm data h kind = panic := by
  cases kind with
  | alone => exact hbad.elim
  | eoi => exact hbad.elim
  | dqt =>
      rw [arm, tablesSegment, segLen_cutOff hbad]
      rfl
  | dht =>
      rw [arm, tablesSegment, segLen_cutOff hbad]
      rfl
  | skip =>
      rw [arm, skipSegment]
      rcases hbad with hcut | ⟨hinside, htwo⟩
      · rw [segLen_cutOff hcut]
        rfl
      · rw [segLen_inside hinside, Parse.bind_ok, sub, if_pos htwo]
        rfl
  | sof0 =>
      rw [arm]
      rcases hbad with hcut | ⟨hinside, hlen, height, hshort⟩
      · rw [frameSegment, segLen_cutOff hcut]
        rfl
      · rw [frameSegment_panic hinside hlen height hshort]
        rfl
  | sos =>
      rw [arm]
      rcases hbad with hcut | ⟨hinside, hshort⟩
      · rw [scanSegment, segLen_cutOff hcut]
        rfl
      · rw [scanSegment_panic hinside hshort]
        rfl

/-! ## The walk -/

/-- An arm for a segment that is not bad. -/
theorem arm_meets {kind : Kind} (hcomponents : h.numComponents = 0 ∨ h.numComponents = 3)
    (hscan : h.scanStart = 0) (hbad : ¬BadSegment data h.numComponents h.pos kind) :
    Meets (arm data h kind) (Next data h) := by
  have hnext : ∀ again h', Advances h h' → Next data h (again, h') :=
    fun again _ hadvances => hadvances.next hcomponents hscan again
  cases kind with
  | alone => exact hnext true h (Advances.refl h)
  | eoi => exact hnext false h (Advances.refl h)
  | skip => exact (skipSegment_meets h hbad).map (hnext true)
  | dqt => exact (tablesSegment_meets readQuantTable_movesOn h hbad).map (hnext true)
  | dht => exact (tablesSegment_meets readHuffTable_movesOn h hbad).map (hnext true)
  | sof0 =>
      refine (frameSegment_meets h hbad).map fun h' hh' => ?_
      obtain ⟨hpos, hscan', hthree⟩ := hh'
      exact ⟨hpos, ⟨Or.inr hthree, Or.inl (hscan'.trans hscan)⟩, fun hstop => by cases hstop⟩
  | sos =>
      refine (scanSegment_meets h hbad).map fun h' hh' => ?_
      obtain ⟨hpos, hend, hsame, -⟩ := hh'
      refine ⟨hpos, ⟨?_, Or.inr hend⟩, fun hstop => by cases hstop⟩
      rwa [hsame]

/-- A turn of the loop moves on or ends the walk, unless it comes to a bad segment. -/
theorem turn_meets (hwalking : Walking data h) (hbad : ¬BadAt data h) :
    Meets (turn data h) fun r => (r.1 = true → h.pos < r.2.pos ∧ Walking data r.2) ∧
      (r.1 = false → r.2.scanStart = 0) := by
  rw [turn]
  split
  · trivial
  · rename_i hpos
    have hscan : h.scanStart = 0 := hwalking.scan.resolve_right (by omega)
    refine (Meets.byteAt (by omega)).bind fun b hb => ?_
    split
    · split
      · exact ⟨fun again => Bool.noConfusion again, fun _ => hscan⟩
      · refine ⟨fun _ => ⟨Nat.lt_succ_self _, hwalking.components, Or.inl hscan⟩, fun stops => ?_⟩
        cases stops
    · rename_i hff
      have hff := not_not.mp hff
      split
      · trivial
      · refine (Meets.byteAt (by omega)).bind fun marker hmarker => ?_
        have hsegment : ¬BadSegment data h.numComponents (h.pos + 2) (kindOf marker) :=
          fun hsegment => hbad ⟨by rw [hb, hff], marker, hmarker, hsegment⟩
        refine (@arm_meets data { h with pos := h.pos + 2, visited := _ } (kindOf marker)
          hwalking.components hscan hsegment).mono fun r hr => ?_
        exact ⟨fun _ => ⟨(Nat.lt_add_of_pos_right Nat.two_pos).trans_le hr.pos, hr.walking⟩, hr.stops⟩

theorem turn_bad (hbad : BadAt data h) : turn data h = panic := by
  obtain ⟨hff, marker, hmarker, hsegment⟩ := hbad
  have hlen : h.pos + 1 < data.length := (List.getElem?_eq_some_iff.mp hmarker).1
  rw [turn, if_neg (by omega), byteAt, hff]
  dsimp only
  rw [Parse.bind_ok, if_neg (not_not.mpr rfl), if_neg (by omega), byteAt, hmarker]
  exact arm_bad hsegment

theorem turn_inside {r : Bool × Header} (hr : turn data h = .ok r) : h.pos < data.length := by
  refine Nat.lt_of_not_le fun hle => ?_
  rw [turn, if_pos (Nat.lt_succ_of_le hle)] at hr
  cases hr

/-- The walk from a place to another takes a turn less than there were. -/
theorem fuel_step {r : Bool × Header} (hr : turn data h = .ok r) (hlt : h.pos < h'.pos)
    (hn : data.length < n + 1 + h.pos) : 0 < n ∧ data.length < n + h'.pos := by
  have hinside := turn_inside hr
  omega

/-- With enough turns the loop ends without a scan, if it comes to no bad segment. -/
theorem markers_meets (hpos : 0 < n) (hn : data.length < n + h.pos) (hwalking : Walking data h)
    (hsound : ∀ h', Reaches data h h' → ¬BadAt data h') :
    Meets (markers data n h) fun h' => h'.scanStart = 0 := by
  induction n generalizing h with
  | zero => cases hpos
  | succ n ih =>
      have hturn := turn_meets hwalking (hsound h .refl)
      rw [markers]
      cases hr : turn data h with
      | error stop =>
          rw [hr] at hturn
          cases stop with
          | refused => trivial
          | fault f => exact hturn.elim
      | ok r =>
          obtain ⟨again, h'⟩ := r
          obtain ⟨hagain, hstops⟩ := hturn.of_ok hr
          cases again with
          | false => exact hstops rfl
          | true =>
              obtain ⟨hlt, hwalking'⟩ := hagain rfl
              obtain ⟨hpos', hn'⟩ := fuel_step hr hlt hn
              exact ih hpos' hn' hwalking' fun h'' hreaches => hsound h'' (.head hr hreaches)

/-- The loop goes wrong at a bad segment that it comes to. -/
theorem markers_bad (hwalking : Walking data h) (hpos : 0 < n) (hn : data.length < n + h.pos)
    (hreaches : Reaches data h h') (hbad : BadAt data h') : markers data n h = panic := by
  induction hreaches using Relation.ReflTransGen.head_induction_on generalizing n with
  | refl =>
      obtain ⟨n, rfl⟩ := Nat.exists_eq_add_of_lt hpos
      rw [Nat.zero_add, markers, turn_bad hbad]
      rfl
  | @head h h'' hr _ ih =>
      have hgood : ¬BadAt data h := fun hbad => by
        rw [turn_bad hbad] at hr
        cases hr
      obtain ⟨hlt, hwalking'⟩ := ((turn_meets hwalking hgood).of_ok hr).1 rfl
      obtain ⟨n, rfl⟩ := Nat.exists_eq_add_of_lt hpos
      rw [Nat.zero_add] at hn ⊢
      obtain ⟨hpos', hn'⟩ := fuel_step hr hlt hn
      rw [markers, hr]
      exact ih hwalking' hpos' hn'

theorem start_walking (data : List UInt8) : Walking data .start := ⟨Or.inl rfl, Or.inl rfl⟩

end

section

variable {data : List UInt8}

theorem take_two (h : 4 ≤ data.length) : data.take 2 = [data[0], data[1]] := by
  match data with
  | b :: c :: rest => rfl

/-- On a file that starts as a JPEG does, the header is what the loop makes of it. -/
theorem readHeader_eq (hlen : 4 ≤ data.length) (hsoi : data.take 2 = [0xFF, 0xD8]) :
    readHeader data = (do
      let h ← markers data (data.length + 1) .start
      if h.width = 0 ∨ h.height = 0 ∨ h.scanStart = 0 then refuse else return h) := by
  rw [take_two hlen] at hsoi
  injection hsoi with hff hrest
  injection hrest with hd8
  rw [readHeader, if_neg (Nat.not_lt.mpr hlen), byteAt_ok (by omega), Parse.bind_ok,
    byteAt_ok (by omega), Parse.bind_ok, if_neg]
  rw [hff, hd8]
  decide

theorem readHeader_refuse (h : ¬(4 ≤ data.length ∧ data.take 2 = [0xFF, 0xD8])) :
    readHeader data = refuse := by
  rw [readHeader]
  split
  · rfl
  · rename_i hlen
    have hlen := Nat.le_of_not_lt hlen
    rw [byteAt_ok (by omega), Parse.bind_ok, byteAt_ok (by omega), Parse.bind_ok, if_pos]
    by_contra hsoi
    push Not at hsoi
    refine h ⟨hlen, ?_⟩
    rw [take_two hlen, hsoi.1, hsoi.2]

/-- The header of a file on which no turn goes wrong is refused. -/
theorem readHeader_refused (h : ¬Harmful data) : readHeader data = refuse := by
  by_cases hsoi : 4 ≤ data.length ∧ data.take 2 = [0xFF, 0xD8]
  · obtain ⟨hlen, hsoi⟩ := hsoi
    have hmeets : Meets (markers data (data.length + 1) .start) fun h => h.scanStart = 0 :=
      markers_meets (Nat.succ_pos _) (by omega) (start_walking data) fun h' hreaches hbad =>
        h ⟨hsoi, hlen, h', hreaches, hbad⟩
    rw [readHeader_eq hlen hsoi]
    cases hr : markers data (data.length + 1) .start with
    | error stop =>
        cases stop with
        | refused => rfl
        | fault f => exact (hmeets.not_fault f hr).elim
    | ok h' =>
        have hscan := hmeets.of_ok hr
        rw [Parse.bind_ok, if_pos (Or.inr (Or.inr hscan))]
  · exact readHeader_refuse hsoi

theorem readHeader_panic (h : Harmful data) : readHeader data = panic := by
  obtain ⟨hsoi, hlen, h', hreaches, hbad⟩ := h
  rw [readHeader_eq hlen hsoi,
    markers_bad (start_walking data) (Nat.succ_pos _) (by omega) hreaches hbad]
  rfl

/-- No file is decoded: its scan is never begun. -/
theorem readHeader_ne_ok (data : List UInt8) (h : Header) : readHeader data ≠ .ok h := by
  intro hok
  by_cases hharmful : Harmful data
  · rw [readHeader_panic hharmful] at hok
    cases hok
  · rw [readHeader_refused hharmful] at hok
    cases hok

/-- `decode_jpeg` returns, whatever the scan would do, on exactly the files on which no turn of
its loop over the markers comes to a bad segment. -/
theorem decodeJpeg_returns_iff (data : List UInt8) (scan : Header → Parse Bool) :
    (∃ b, decodeJpeg data scan = .ok b) ↔ ¬Harmful data := by
  refine ⟨?_, ?_⟩
  · rintro ⟨b, hb⟩ hharmful
    rw [decodeJpeg, readHeader_panic hharmful] at hb
    cases hb
  · intro hsound
    refine ⟨false, ?_⟩
    rw [decodeJpeg, readHeader_refused hsound]
    rfl

/-- A file that ends in the length of its first segment is not refused. -/
theorem not_decodeJpeg_returns :
    ¬∀ (data : List UInt8) (scan : Header → Parse Bool), ∃ b, decodeJpeg data scan = .ok b := by
  intro hall
  obtain ⟨b, hb⟩ := hall [0xFF, 0xD8, 0xFF, 0xE0, 0x00] fun _ => .ok true
  have hpanic : decodeJpeg [0xFF, 0xD8, 0xFF, 0xE0, 0x00] (fun _ => .ok true) = .error .panic := by
    decide +kernel
  rw [hpanic] at hb
  cases hb

end

end PureOS.Jpeg
