import Mathlib.Data.List.Induction
import Mathlib.Data.Set.BooleanAlgebra
import Mathlib.Order.CompletePartialOrder
import PureOS.Foundation.Run
import PureOS.Fs.Invariant

set_option autoImplicit false

/-!
# Fs: the node table refines the tree

`State.volume` forgets where things are stored: it keeps the tree, the capacity of
each file and the bump pointer.  Every operation of the RAM file system is, seen
through it, a step of the abstract file system with the same answer, and the
representation invariant holds in every state reached from the initial one.
-/

namespace PureOS.Fs

open PureOS.Foundation

namespace State

/-- The entry that a slot of the node table stands for. -/
def entry (s : State) (i : NodeId) : Option (Entry NodeId) :=
  match (s.nodes i).kind with
  | .free => none
  | .dir => some ⟨(s.nodes i).name.bytes, (s.nodes i).parent, .dir⟩
  | .file => some ⟨(s.nodes i).name.bytes, (s.nodes i).parent, .file (s.read i)⟩

/-- The abstract tree: the node table without its storage. -/
def tree (s : State) : Tree NodeId := s.entry

/-- The abstract file system that a state stands for. -/
def volume (s : State) : Volume NodeId where
  tree := s.tree
  room i := (s.nodes i).dataCap
  taken := s.dataNext

@[simp] theorem volume_tree (s : State) : s.volume.tree = s.tree := rfl

@[simp] theorem volume_room (s : State) (i : NodeId) :
    s.volume.room i = (s.nodes i).dataCap := rfl

@[simp] theorem volume_taken (s : State) : s.volume.taken = s.dataNext := rfl

/-! ## Reading the tree off the table -/

theorem tree_eq_none_iff (s : State) (i : NodeId) : s.tree i = none ↔ ¬s.Live i := by
  unfold tree entry Live
  cases (s.nodes i).kind <;> simp

theorem tree_eq_some {s : State} {i : NodeId} {e : Entry NodeId} (h : s.tree i = some e) :
    s.Live i ∧ e.name = (s.nodes i).name.bytes ∧ e.parent = (s.nodes i).parent := by
  unfold tree entry at h
  unfold Live
  cases hk : (s.nodes i).kind <;> simp only [hk] at h
  · cases h
  · cases h; simp
  · cases h; simp

theorem exists_tree_eq_some {s : State} {i : NodeId} (h : s.Live i) :
    ∃ e, s.tree i = some e := by
  cases he : s.tree i with
  | none => exact absurd h ((tree_eq_none_iff s i).mp he)
  | some e => exact ⟨e, rfl⟩

theorem isDir_tree_iff (s : State) (i : NodeId) :
    s.tree.IsDir i ↔ (s.nodes i).kind = .dir := by
  unfold Tree.IsDir tree entry
  cases (s.nodes i).kind <;> simp

theorem isFile_tree_iff (s : State) (i : NodeId) (bytes : List UInt8) :
    s.tree.IsFile i bytes ↔ (s.nodes i).kind = .file ∧ s.read i = bytes := by
  unfold Tree.IsFile tree entry
  cases (s.nodes i).kind <;> simp

theorem not_isFile_tree {s : State} {i : NodeId} (h : (s.nodes i).kind ≠ .file)
    (bytes : List UInt8) : ¬s.tree.IsFile i bytes :=
  fun hfile => h ((isFile_tree_iff s i bytes).mp hfile).1

theorem child_tree_iff (s : State) (dir i : NodeId) :
    s.tree.Child dir i ↔ s.IsChild dir i := by
  constructor
  · rintro ⟨e, he, hp, hne⟩
    obtain ⟨hlive, _, hparent⟩ := tree_eq_some he
    exact ⟨hlive, hparent ▸ hp, hne⟩
  · rintro ⟨hlive, hp, hne⟩
    obtain ⟨e, he⟩ := exists_tree_eq_some hlive
    obtain ⟨_, _, hparent⟩ := tree_eq_some he
    exact ⟨e, he, hparent.trans hp, hne⟩

theorem childNamed_tree_iff (s : State) (dir i : NodeId) (name : List UInt8) :
    s.tree.ChildNamed dir name i ↔ s.IsChild dir i ∧ (s.nodes i).name.bytes = name := by
  constructor
  · rintro ⟨e, he, hp, hne, hname⟩
    obtain ⟨_, hn, _⟩ := tree_eq_some he
    exact ⟨(child_tree_iff s dir i).mp ⟨e, he, hp, hne⟩, hn ▸ hname⟩
  · rintro ⟨hchild, hname⟩
    obtain ⟨e, he, hp, hne⟩ := (child_tree_iff s dir i).mpr hchild
    exact ⟨e, he, hp, hne, (tree_eq_some he).2.1.trans hname⟩

theorem allowed_tree_iff (s : State) (dir : NodeId) (name : List UInt8) :
    s.tree.Allowed nameMax dir name ↔ s.Creatable dir name := by
  rw [Tree.Allowed, Creatable, isDir_tree_iff]

theorem free_tree_iff (s : State) (i : NodeId) :
    s.tree.Free root i ↔ i ≠ root ∧ ¬s.Live i := by
  rw [Tree.Free, tree_eq_none_iff]

/-- `find_child` finds nothing exactly when no entry has the name. -/
theorem not_childNamed_of_findChild {s : State} {dir : NodeId} {name : List UInt8}
    (h : s.findChild dir name = none) (j : NodeId) : ¬s.tree.ChildNamed dir name j := by
  rw [childNamed_tree_iff]
  rintro ⟨hchild, hname⟩
  exact findChild_eq_none h j hchild hname

theorem childNamed_of_findChild {s : State} {dir j : NodeId} {name : List UInt8}
    (h : s.findChild dir name = some j) : s.tree.ChildNamed dir name j :=
  (childNamed_tree_iff s dir j name).mpr (findChild_eq_some h)

/-! ## Updates of the table, seen in the tree -/

theorem read_setNode_of_ne (s : State) {i j : NodeId} (n : Node) (h : j ≠ i) :
    (s.setNode i n).read j = s.read j := by
  simp [read, h]

theorem entry_setNode_of_ne (s : State) {i j : NodeId} (n : Node) (h : j ≠ i) :
    (s.setNode i n).entry j = s.entry j := by
  simp [entry, read_setNode_of_ne s n h, h]

theorem tree_setNode (s : State) (i : NodeId) (n : Node) :
    (s.setNode i n).tree = Function.update s.tree i ((s.setNode i n).entry i) := by
  funext j
  by_cases h : j = i
  · subst h; simp [tree]
  · simp only [tree, Function.update_of_ne h]
    exact entry_setNode_of_ne s n h

theorem entry_fresh_dir (s : State) (i dir : NodeId) {name : List UInt8}
    (h : name.length ≤ nameMax) :
    (s.setNode i (freshNode dir name .dir)).entry i = some ⟨name, dir, .dir⟩ := by
  simp [entry, freshNode, nameBuf_bytes h]

theorem entry_fresh_file (s : State) (i dir : NodeId) {name : List UInt8}
    (h : name.length ≤ nameMax) :
    (s.setNode i (freshNode dir name .file)).entry i = some ⟨name, dir, .file []⟩ := by
  simp [entry, freshNode, nameBuf_bytes h, read]

theorem entry_cleared (s : State) (i : NodeId) :
    (s.setNode i Node.empty).entry i = none := by
  simp [entry, Node.empty]

/-- A live file is its slice of the pool, also when it is empty. -/
theorem read_eq_slice {s : State} {i : NodeId} (h : (s.nodes i).kind = .file) :
    s.read i = slice s.data (s.nodes i).dataOff (s.nodes i).dataLen := by
  unfold read
  by_cases hlen : (s.nodes i).dataLen = 0
  · simp [hlen]
  · simp [h, hlen]

theorem length_read_le_cap {s : State} (wf : s.WellFormed) {i : NodeId}
    (h : (s.nodes i).kind = .file) : (s.read i).length ≤ (s.nodes i).dataCap := by
  rw [read_eq_slice h, length_slice]
  exact wf.len_le_cap i h

/-- Handing a file a stretch of the pool changes one entry, when the memory is
left alone on the extents of the other files. -/
theorem tree_restore {s : State} {i : NodeId}
    {data : Nat → UInt8} {next off len cap : Nat} {bytes : List UInt8}
    (hk : (s.nodes i).kind = .file) (hbytes : slice data off len = bytes)
    (hframe : ∀ j, j ≠ i → (s.nodes j).kind = .file →
      slice data (s.nodes j).dataOff (s.nodes j).dataLen =
        slice s.data (s.nodes j).dataOff (s.nodes j).dataLen) :
    (s.restore i data next off len cap).tree = s.tree.setContent i (.file bytes) := by
  funext j
  by_cases h : j = i
  · subst h
    have hread : (s.restore j data next off len cap).read j = bytes := by
      rw [read_eq_slice (by rw [(restore_shape j).1]; exact hk)]
      simpa using hbytes
    simp [tree, entry, Tree.setContent, hk, hread]
  · have hentry : (s.restore i data next off len cap).entry j = s.entry j := by
      unfold entry
      rw [restore_of_ne h]
      cases hkj : (s.nodes j).kind with
      | free => rfl
      | dir => rfl
      | file =>
          have hread : (s.restore i data next off len cap).read j = s.read j := by
            rw [read_eq_slice (by rw [(restore_shape j).1]; exact hkj), read_eq_slice hkj,
              restore_of_ne h]
            exact hframe j h hkj
          simp [hread]
    simp only [tree, Tree.setContent, Function.update_of_ne h, hentry]

theorem volume_setNode {s : State} {i : NodeId} {n : Node} {e : Option (Entry NodeId)}
    (hentry : (s.setNode i n).entry i = e) (hcap : n.dataCap = 0) :
    (s.setNode i n).volume = s.volume.put i e := by
  have hroom : (fun j => ((s.setNode i n).nodes j).dataCap) =
      Function.update (fun j => (s.nodes j).dataCap) i 0 := by
    funext j
    by_cases h : j = i
    · subst h; simp [hcap]
    · simp [h]
  simp only [volume, Volume.put, tree_setNode, hentry, hroom, setNode_dataNext]

theorem room_restore (s : State) (i : NodeId) (data : Nat → UInt8) (next off len cap : Nat) :
    (s.restore i data next off len cap).volume.room =
      Function.update s.volume.room i cap := by
  funext j
  by_cases h : j = i
  · subst h; simp
  · simp [h]

theorem volume_overwrite {s : State} {i : NodeId} {data : Nat → UInt8} {off len : Nat}
    {bytes : List UInt8}
    (htree : (s.restore i data s.dataNext off len (s.nodes i).dataCap).tree =
      s.tree.setContent i (.file bytes)) :
    (s.restore i data s.dataNext off len (s.nodes i).dataCap).volume =
      s.volume.overwrite i bytes := by
  have hroom := room_restore s i data s.dataNext off len (s.nodes i).dataCap
  have hsame : Function.update s.volume.room i (s.nodes i).dataCap = s.volume.room :=
    Function.update_eq_self i s.volume.room
  rw [hsame] at hroom
  exact congrArg₂ (fun t r => (⟨t, r, s.dataNext⟩ : Volume NodeId)) htree hroom

theorem volume_relocate {s : State} {i : NodeId} {data : Nat → UInt8} {off len : Nat}
    {bytes : List UInt8}
    (htree : (s.restore i data (s.dataNext + bytes.length) off len bytes.length).tree =
      s.tree.setContent i (.file bytes)) :
    (s.restore i data (s.dataNext + bytes.length) off len bytes.length).volume =
      s.volume.relocate i bytes :=
  congrArg₂ (fun t r => (⟨t, r, s.dataNext + bytes.length⟩ : Volume NodeId)) htree
    (room_restore s i data (s.dataNext + bytes.length) off len bytes.length)

/-! ## Each operation is an abstract step -/

section Steps

variable {s : State}

theorem mkdir_refines (dir : NodeId) (name : List UInt8) :
    Volume.Step root nameMax dataPool s.volume (.mkdir dir name, .node (s.mkdir dir name).1)
      (s.mkdir dir name).2.volume := by
  rcases s.mkdir_cases dir name with ⟨i, hc, hnew, hroot, hfree, heq⟩ | ⟨why, heq⟩
  · rw [heq, volume_setNode (entry_fresh_dir s i dir hc.2.1) rfl]
    exact .made ((allowed_tree_iff s dir name).mpr hc) (not_childNamed_of_findChild hnew)
      ((free_tree_iff s i).mpr ⟨hroot, hfree⟩)
  · rw [heq]
    refine .notMade ?_
    rcases why with h | h | h
    · exact Or.inl fun ha => h ((allowed_tree_iff s dir name).mp ha)
    · obtain ⟨j, hj⟩ := Option.isSome_iff_exists.mp h
      exact Or.inr (Or.inl ⟨j, childNamed_of_findChild hj⟩)
    · refine Or.inr (Or.inr fun i hi => ?_)
      obtain ⟨hroot, hfree⟩ := (free_tree_iff s i).mp hi
      exact hfree (h i hroot)

theorem createFile_refines (dir : NodeId) (name : List UInt8) :
    Volume.Step root nameMax dataPool s.volume
      (.createFile dir name, .node (s.createFile dir name).1)
      (s.createFile dir name).2.volume := by
  rcases s.createFile_cases dir name with
    ⟨i, hc, hnew, hroot, hfree, heq⟩ | ⟨i, hc, hfound, hk, heq⟩ | ⟨why, heq⟩
  · rw [heq, volume_setNode (entry_fresh_file s i dir hc.2.1) rfl]
    exact .created ((allowed_tree_iff s dir name).mpr hc) (not_childNamed_of_findChild hnew)
      ((free_tree_iff s i).mpr ⟨hroot, hfree⟩)
  · rw [heq]
    exact .existing ((allowed_tree_iff s dir name).mpr hc) (childNamed_of_findChild hfound)
      ((isFile_tree_iff s i _).mpr ⟨hk, rfl⟩)
  · rw [heq]
    refine .notCreated ?_
    rcases why with h | ⟨j, hj, hk⟩ | h
    · exact Or.inl fun ha => h ((allowed_tree_iff s dir name).mp ha)
    · exact Or.inr (Or.inl ⟨j, childNamed_of_findChild hj, (isDir_tree_iff s j).mpr hk⟩)
    · refine Or.inr (Or.inr fun i hi => ?_)
      obtain ⟨hroot, hfree⟩ := (free_tree_iff s i).mp hi
      exact hfree (h i hroot)

/-- In place: the extents of the other files are apart from this one. -/
theorem tree_written (wf : s.WellFormed) {node : NodeId} {bytes : List UInt8}
    (hk : (s.nodes node).kind = .file) (hcap : bytes.length ≤ (s.nodes node).dataCap) :
    (s.restore node (blit s.data (s.nodes node).dataOff bytes) s.dataNext
        (s.nodes node).dataOff bytes.length (s.nodes node).dataCap).tree =
      s.tree.setContent node (.file bytes) := by
  rw [tree_restore hk (slice_blit_same s.data _ bytes)]
  intro j hj hkj
  have hlenj := wf.len_le_cap j hkj
  have hapart := wf.extents_apart node j hk hkj hj.symm
  unfold Apart at hapart
  exact slice_blit_disjoint _ _ _ _ _ (by omega)

/-- In a new stretch: every extent lies below the bump pointer. -/
theorem tree_relocated (wf : s.WellFormed) {node : NodeId} (hk : (s.nodes node).kind = .file)
    (bytes : List UInt8) :
    (s.restore node (blit s.data s.dataNext bytes) (s.dataNext + bytes.length) s.dataNext
        bytes.length bytes.length).tree =
      s.tree.setContent node (.file bytes) := by
  rw [tree_restore hk (slice_blit_same s.data _ bytes)]
  intro j _ hkj
  have hlenj := wf.len_le_cap j hkj
  have hbelow := wf.extent_below j hkj
  exact slice_blit_disjoint _ _ _ _ _ (Or.inl (by omega))

/-- A write fails and changes nothing, or replaces the content of its file and
nothing else. -/
theorem write_tree (wf : s.WellFormed) (node : NodeId) {bytes : List UInt8}
    (hlen : bytes.length < 2 ^ 32) :
    s.write node bytes = (false, s) ∨
    ((s.nodes node).kind = .file ∧ (s.write node bytes).1 = true ∧
      (s.write node bytes).2.tree = s.tree.setContent node (.file bytes)) := by
  rcases s.write_cases node hlen with ⟨_, heq⟩ | ⟨hk, hcap, heq⟩ | ⟨hk, _, _, heq⟩
  · exact Or.inl heq
  · exact Or.inr ⟨hk, by rw [heq], by rw [heq]; exact tree_written wf hk hcap⟩
  · exact Or.inr ⟨hk, by rw [heq], by rw [heq]; exact tree_relocated wf hk bytes⟩

theorem write_refines (wf : s.WellFormed) (node : NodeId) {bytes : List UInt8}
    (hlen : bytes.length < 2 ^ 32) :
    Volume.Step root nameMax dataPool s.volume (.write node bytes, .done (s.write node bytes).1)
      (s.write node bytes).2.volume := by
  rcases s.write_cases node hlen with ⟨why, heq⟩ | ⟨hk, hcap, heq⟩ | ⟨hk, hmore, hroom, heq⟩
  · rw [heq]
    exact .notWritten (why.imp not_isFile_tree id)
  · rw [heq, volume_overwrite (tree_written wf hk hcap)]
    exact .wrote ((isFile_tree_iff s node _).mpr ⟨hk, rfl⟩) hcap
  · rw [heq, volume_relocate (tree_relocated wf hk bytes)]
    exact .wroteAnew ((isFile_tree_iff s node _).mpr ⟨hk, rfl⟩) hmore hroom

/-- The old content is copied to the bump pointer and the new bytes behind it: a
single store of both, since the old content lies below the pointer. -/
theorem append_eq_blit (wf : s.WellFormed) {node : NodeId} (hk : (s.nodes node).kind = .file)
    (bytes : List UInt8) :
    blit (copyWithin s.data s.dataNext (s.nodes node).dataOff (s.read node).length)
        (s.dataNext + (s.read node).length) bytes =
      blit s.data s.dataNext (s.read node ++ bytes) := by
  have hold := length_read_le_cap wf hk
  have hbelow := wf.extent_below node hk
  have hcopy : copyWithin s.data s.dataNext (s.nodes node).dataOff (s.read node).length =
      blit s.data s.dataNext (s.read node) := by
    rw [copyWithin_eq_blit _ _ _ _ (Or.inr (by omega))]
    congr 1
    conv_rhs => rw [read_eq_slice hk]
    rw [read_eq_slice hk, length_slice]
  rw [hcopy, blit_append]

theorem append_refines (wf : s.WellFormed) (node : NodeId) (bytes : List UInt8) :
    Volume.Step root nameMax dataPool s.volume
      (.append node bytes, .done (s.append node bytes).1) (s.append node bytes).2.volume := by
  rcases s.append_cases node bytes with ⟨why, heq⟩ | ⟨hk, hroom, heq⟩
  · rw [heq]
    refine .notAppended ?_
    by_cases hk : (s.nodes node).kind = .file
    · refine Or.inr ⟨s.read node, (isFile_tree_iff s node _).mpr ⟨hk, rfl⟩, ?_⟩
      rw [List.length_append]
      exact why.resolve_left fun h => h hk
    · exact Or.inl (not_isFile_tree hk)
  · rw [← List.length_append] at hroom heq
    rw [heq, append_eq_blit wf hk, volume_relocate (tree_relocated wf hk _)]
    exact .appended ((isFile_tree_iff s node _).mpr ⟨hk, rfl⟩) hroom

theorem read_refines (node : NodeId) :
    Volume.Step root nameMax dataPool s.volume (.read node, .bytes (s.read node)) s.volume := by
  by_cases hk : (s.nodes node).kind = .file
  · exact .readFile ((isFile_tree_iff s node _).mpr ⟨hk, rfl⟩)
  · have hnil : s.read node = [] := by simp [read, hk]
    rw [hnil]
    exact .readOther (not_isFile_tree hk)

theorem unlink_refines (node : NodeId) :
    Volume.Step root nameMax dataPool s.volume (.unlink node, .done (s.unlink node).1)
      (s.unlink node).2.volume := by
  rcases s.unlink_cases node with ⟨why, heq⟩ | ⟨hroot, hlive, hempty, heq⟩
  · rw [heq]
    refine .notUnlinked ?_
    rcases why with h | h | ⟨hdir, i, hi⟩
    · exact Or.inl h
    · exact Or.inr (Or.inl ((tree_eq_none_iff s node).mpr h))
    · exact Or.inr (Or.inr ⟨(isDir_tree_iff s node).mpr hdir, i, (child_tree_iff s node i).mpr hi⟩)
  · rw [heq, volume_setNode (entry_cleared s node) rfl]
    refine .unlinked hroot ?_ ?_
    · obtain ⟨e, he⟩ := exists_tree_eq_some hlive
      simp [he]
    · intro hdir j hj
      exact hempty ((isDir_tree_iff s node).mp hdir) j ((child_tree_iff s node j).mp hj)

/-- Every operation is a step of the abstract file system with the same answer. -/
theorem exec_refines (wf : s.WellFormed) {op : Op NodeId} (hop : FitsU32 op) :
    Volume.Step root nameMax dataPool s.volume (op, (s.exec op).1) (s.exec op).2.volume := by
  cases op with
  | mkdir dir name => exact mkdir_refines dir name
  | createFile dir name => exact createFile_refines dir name
  | write node bytes => exact write_refines wf node hop
  | append node bytes => exact append_refines wf node bytes
  | read node => exact read_refines node
  | unlink node => exact unlink_refines node

end Steps

/-! ## The initial state -/

theorem blank_wellFormed : blank.WellFormed := by
  have hlive : ∀ i, blank.Live i → i = root := by
    intro i hi
    by_contra hne
    simp [Live, blank, hne, Node.empty] at hi
  have hrootLive : blank.Live root := by simp [Live, blank]
  have hfile : ∀ i, (blank.nodes i).kind ≠ .file := by
    intro i
    by_cases h : i = root
    · subst h; simp [blank]
    · simp [blank, h, Node.empty]
  have hparent : (blank.nodes root).parent = root := by simp [blank]
  refine ⟨by simp [blank], hparent, ?_, ?_, ?_, ?_, ?_, ?_, Nat.zero_le _⟩
  · intro i hi
    rw [hlive i hi, hparent]
    simp [blank]
  · intro i hi
    rw [hlive i hi]
    exact .root hrootLive
  · intro dir i j hi hj _
    exact (hlive i hi.1).trans (hlive j hj.1).symm
  · exact fun i hi => absurd hi (hfile i)
  · exact fun i _ hi => absurd hi (hfile i)
  · exact fun i hi => absurd hi (hfile i)

theorem length_pushLine_le (content line : List UInt8) :
    (pushLine content line).length ≤ content.length + line.length := by
  induction line generalizing content with
  | nil => simp [pushLine]
  | cons b line ih =>
      unfold pushLine
      split
      · simp
      · refine (ih (content ++ [b])).trans ?_
        simp only [List.length_append, List.length_cons, List.length_nil]
        omega

theorem length_shortcutText_lt (name : Name) (base : List UInt8) :
    (shortcutText name.bytes base).length < 2 ^ 32 := by
  have hfits := name.fits
  have hlit : (ascii "Name=").length = 5 ∧ (ascii "Exec=/apps/").length = 11 ∧
      (ascii "Icon=4488CC\n").length = 12 ∧ (ascii "Glyph=").length = 6 := by decide
  unfold shortcutText
  grind [length_pushLine_le]

theorem length_etcText_lt : motdText.length < 2 ^ 32 ∧ releaseText.length < 2 ^ 32 ∧
    versionText.length < 2 ^ 32 := by
  decide +kernel

/-- What the operations that build the initial tree keep. -/
structure KeptByBuilding (P : State → Prop) : Prop where
  mkdir : ∀ s dir name, P s → P (s.mkdir dir name).2
  createFile : ∀ s dir name, P s → P (s.createFile dir name).2
  write : ∀ s node bytes, bytes.length < 2 ^ 32 → P s → P (s.write node bytes).2

namespace KeptByBuilding

variable {P : State → Prop} {s : State}

theorem createAndWrite (hP : KeptByBuilding P) (hs : P s) (dir : NodeId) (name : List UInt8)
    {text : List UInt8} (h : text.length < 2 ^ 32) : P (s.createAndWrite dir name text) := by
  have hcreate := hP.createFile s dir name hs
  unfold State.createAndWrite
  generalize s.createFile dir name = r at hcreate
  obtain ⟨_ | n, s'⟩ := r
  · exact hcreate
  · exact hP.write s' n text h hcreate

theorem scanEntry (hP : KeptByBuilding P) (hs : P s) (desktopDir idx : NodeId) (count : Nat) :
    P (State.scanEntry desktopDir (s, count) idx).1 := by
  unfold State.scanEntry
  dsimp only
  split
  · exact hs
  split
  · exact hs
  have hcreate := hP.createFile s desktopDir (shortcutName
    ((s.nodes idx).name.bytes.take ((s.nodes idx).name.bytes.length - 4))) hs
  generalize s.createFile desktopDir _ = r at hcreate
  obtain ⟨_ | n, s'⟩ := r
  · exact hcreate
  · exact hP.write s' n _ (length_shortcutText_lt (s.nodes idx).name _) hcreate

theorem scanAppsForShortcuts (hP : KeptByBuilding P) (hs : P s) (desktopDir : NodeId) :
    P (s.scanAppsForShortcuts desktopDir) := by
  unfold State.scanAppsForShortcuts
  dsimp only
  split
  · exact hs
  -- The scan keeps the property, whichever slots it visits.
  refine List.foldlRecOn (motive := fun acc : State × Nat => P acc.1) _ _ hs ?_
  rintro ⟨s', count⟩ hs' i _
  dsimp only
  split
  · exact hP.scanEntry hs' desktopDir i count
  · exact hs'

theorem init (hP : KeptByBuilding P) (hblank : P blank) : P State.init := by
  have hbase : P (["bin", "dev", "etc", "home", "tmp"].foldl
      (fun s name => (s.mkdir root (ascii name)).2) blank) :=
    List.foldlRecOn (motive := P) _ _ hblank fun s hs name _ => hP.mkdir s root (ascii name) hs
  have hetc : ∀ s : State, P s → P s.initEtc := by
    intro s hs
    unfold initEtc
    split
    · obtain ⟨hmotd, hrelease, hversion⟩ := length_etcText_lt
      exact hP.createAndWrite (hP.createAndWrite (hP.createAndWrite hs _ _ hmotd) _ _ hrelease)
        _ _ hversion
    · exact hs
  have hhome : ∀ s : State, P s → P s.initHome := by
    intro s hs
    unfold initHome
    split
    · exact hP.mkdir s _ _ hs
    · exact hs
  have hdesktop : ∀ s : State, P s → P s.initDesktop := by
    intro s hs
    unfold initDesktop
    dsimp only
    split
    · exact hP.scanAppsForShortcuts (hP.mkdir s _ _ hs) _
    · exact hP.mkdir s _ _ hs
  unfold State.init
  exact hdesktop _ (hhome _ (hetc _ hbase))

end KeptByBuilding

theorem wellFormed_keptByBuilding : KeptByBuilding WellFormed where
  mkdir _ dir name wf := wf.mkdir dir name
  createFile _ dir name wf := wf.createFile dir name
  write _ node _ hlen wf := wf.write node hlen

theorem init_wellFormed : init.WellFormed := wellFormed_keptByBuilding.init blank_wellFormed

end State

/-! ## Runs -/

/-- A step of the RAM file system: a request whose data length the source's `u32`
holds, with the answer it gets. -/
def Step (s : State) (l : Op NodeId × Answer NodeId) (s' : State) : Prop :=
  State.FitsU32 l.1 ∧ s.exec l.1 = (l.2, s')

theorem step_exec (s : State) {op : Op NodeId} (fits : State.FitsU32 op) :
    Step s (op, (s.exec op).1) (s.exec op).2 := ⟨fits, rfl⟩

/-- What the storage promises in a state. -/
structure Sound (s : State) : Prop where
  /-- The pool extents of live files are pairwise disjoint. -/
  extents_disjoint : ∀ i j, (s.nodes i).kind = .file → (s.nodes j).kind = .file → i ≠ j →
    Disjoint (Set.Ico (s.nodes i).dataOff ((s.nodes i).dataOff + (s.nodes i).dataCap))
      (Set.Ico (s.nodes j).dataOff ((s.nodes j).dataOff + (s.nodes j).dataCap))
  /-- They lie below the bump pointer. -/
  extents_below : ∀ i, (s.nodes i).kind = .file →
    (s.nodes i).dataOff + (s.nodes i).dataCap ≤ s.dataNext
  /-- The bump pointer stays inside the pool. -/
  next_le_pool : s.dataNext ≤ dataPool
  /-- A content fits its extent. -/
  len_le_cap : ∀ i, (s.nodes i).kind = .file → (s.nodes i).dataLen ≤ (s.nodes i).dataCap
  /-- The parent chain of a live node reaches the root over live nodes, none of
  them twice. -/
  chain_to_root : ∀ i, s.Live i → ∃ k, (fun i => (s.nodes i).parent)^[k] i = root ∧
    (∀ a ≤ k, s.Live ((fun i => (s.nodes i).parent)^[a] i)) ∧
    Set.InjOn (fun a => (fun i => (s.nodes i).parent)^[a] i) (Set.Iic k)
  /-- The names in one directory are pairwise distinct. -/
  names_distinct : ∀ dir i j, s.IsChild dir i → s.IsChild dir j → i ≠ j →
    (s.nodes i).name.bytes ≠ (s.nodes j).name.bytes

theorem State.WellFormed.sound {s : State} (wf : s.WellFormed) : Sound s where
  extents_disjoint i j hi hj hij := by
    rw [Set.disjoint_left]
    intro a ha hb
    have hapart := wf.extents_apart i j hi hj hij
    simp only [Set.mem_Ico] at ha hb
    unfold State.Apart at hapart
    omega
  extents_below := wf.extent_below
  next_le_pool := wf.next_le_pool
  len_le_cap := wf.len_le_cap
  chain_to_root i hi := (wf.rooted i hi).exists_acyclic_chain
  names_distinct dir i j hi hj hij heq := by
    refine hij (wf.names dir i j hi hj ?_)
    cases hn : (s.nodes i).name
    cases hm : (s.nodes j).name
    simp_all

theorem run_wellFormed {s : State} {h : List (Op NodeId × Answer NodeId)}
    (run : Run Step State.init h s) : s.WellFormed := by
  refine run.invariant_state State.WellFormed State.init_wellFormed ?_
  rintro s ⟨op, answer⟩ s' wf ⟨hop, heq⟩
  have := wf.exec hop
  rwa [heq] at this

/-- For every run from the initialised state: seen through `State.volume` it is a
run of the abstract file system with the same answers, the storage is sound in the
state it reaches, and there every request that reports failure changes nothing. -/
theorem run_refines_tree {s : State} {h : List (Op NodeId × Answer NodeId)}
    (run : Run Step State.init h s) :
    Run (Volume.Step root nameMax dataPool) State.init.volume h s.volume ∧ Sound s ∧
      ∀ op, State.FitsU32 op → (s.exec op).1.Failed → (s.exec op).2 = s := by
  refine ⟨?_, (run_wellFormed run).sound, fun op hop hfail => s.exec_failed op ?_ hfail⟩
  · induction run with
    | nil => exact .nil
    | @snoc h s s' l run last ih =>
        obtain ⟨op, answer⟩ := l
        obtain ⟨hop, heq⟩ := last
        have hstep := State.exec_refines (run_wellFormed run) hop
        rw [heq] at hstep
        exact .snoc ih hstep
  · rintro node bytes rfl
    exact hop

/-- Requests never get stuck: every sequence of them is answered by a run. -/
theorem exists_run (s : State) (ops : List (Op NodeId)) (fits : ∀ op ∈ ops, State.FitsU32 op) :
    ∃ h s', Run Step s h s' ∧ h.map Prod.fst = ops := by
  induction ops using List.reverseRecOn with
  | nil => exact ⟨[], s, .nil, rfl⟩
  | append_singleton ops op ih =>
      obtain ⟨h, s', run, hmap⟩ := ih fun o ho => fits o (List.mem_append_left _ ho)
      refine ⟨h ++ [(op, (s'.exec op).1)], (s'.exec op).2, .snoc run (step_exec s' ?_), ?_⟩
      · exact fits op (List.mem_append_right _ (List.mem_singleton_self op))
      · simp [hmap]

/-- The run of two requests. -/
theorem run_pair (s : State) {op op' : Op NodeId} (fits : State.FitsU32 op)
    (fits' : State.FitsU32 op') :
    Run Step s [(op, (s.exec op).1), (op', ((s.exec op).2.exec op').1)]
      ((s.exec op).2.exec op').2 := by
  have hfirst : Run Step s ([] ++ [(op, (s.exec op).1)]) (s.exec op).2 :=
    .snoc .nil (step_exec s fits)
  exact .snoc hfirst (step_exec (s.exec op).2 fits')

/-- `run_refines_tree` on two requests: a file is created and written. -/
theorem run_refines_tree_create_write :
    let first := State.init.exec (.createFile root (ascii "notes"))
    let second := first.2.exec (.write 11 (ascii "text"))
    Run (Volume.Step root nameMax dataPool) State.init.volume
        [(.createFile root (ascii "notes"), first.1), (.write 11 (ascii "text"), second.1)]
        second.2.volume ∧ Sound second.2 ∧
      ∀ op, State.FitsU32 op → (second.2.exec op).1.Failed → (second.2.exec op).2 = second.2 := by
  have hlen : State.FitsU32 (.write 11 (ascii "text")) := by
    show (ascii "text").length < 2 ^ 32
    decide
  exact run_refines_tree (run_pair State.init trivial hlen)

end PureOS.Fs
