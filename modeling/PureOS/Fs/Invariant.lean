import PureOS.Fs.Exec

set_option autoImplicit false

/-!
# Fs: the representation invariant

`WellFormed` is what the two tables satisfy in every reachable state: the live
nodes form a tree whose inner nodes are directories with distinct names, and the
live files own disjoint extents below the bump pointer.  It is kept by putting a
fresh node in a free slot, by clearing a node without children, and by handing a
file a stretch of the pool; every operation is one of these or changes nothing.
-/

namespace PureOS.Fs

open PureOS.Foundation

namespace State

/-- The extents of two nodes do not meet. -/
def Apart (a b : Node) : Prop :=
  a.dataOff + a.dataCap ≤ b.dataOff ∨ b.dataOff + b.dataCap ≤ a.dataOff

/-- The parent chain of a node runs through live nodes to the root. -/
abbrev RootedAt (s : State) (i : NodeId) : Prop :=
  Rooted s.Live (fun i => (s.nodes i).parent) root i

/-- The representation invariant. -/
structure WellFormed (s : State) : Prop where
  root_dir : (s.nodes root).kind = .dir
  root_parent : (s.nodes root).parent = root
  parent_dir : ∀ i, s.Live i → (s.nodes (s.nodes i).parent).kind = .dir
  rooted : ∀ i, s.Live i → s.RootedAt i
  names : ∀ dir i j, s.IsChild dir i → s.IsChild dir j →
    (s.nodes i).name = (s.nodes j).name → i = j
  extent_below : ∀ i, (s.nodes i).kind = .file →
    (s.nodes i).dataOff + (s.nodes i).dataCap ≤ s.dataNext
  extents_apart : ∀ i j, (s.nodes i).kind = .file → (s.nodes j).kind = .file → i ≠ j →
    Apart (s.nodes i) (s.nodes j)
  len_le_cap : ∀ i, (s.nodes i).kind = .file → (s.nodes i).dataLen ≤ (s.nodes i).dataCap
  next_le_pool : s.dataNext ≤ dataPool

/-! ## A fresh node -/

section Fresh

variable {s : State} {i dir : NodeId} {name : List UInt8} {k : Kind}

theorem live_setNode_of_ne {j : NodeId} {n : Node} (h : j ≠ i) :
    (s.setNode i n).Live j ↔ s.Live j := by
  simp [Live, h]

theorem WellFormed.fresh (wf : s.WellFormed) (hroot : i ≠ root) (hfree : ¬s.Live i)
    (hc : s.Creatable dir name) (hnew : s.findChild dir name = none) :
    (s.setNode i (freshNode dir name k)).WellFormed := by
  obtain ⟨_, hfits, hdir⟩ := hc
  have hdirLive : s.Live dir := by simp [Live, hdir]
  have hne : ∀ j, s.Live j → j ≠ i := fun j hj hji => hfree (hji ▸ hj)
  have hold : ∀ j, s.Live j → (s.setNode i (freshNode dir name k)).nodes j = s.nodes j :=
    fun j hj => setNode_of_ne s _ (hne j hj)
  have hkeep : ∀ j, s.Live j → (s.setNode i (freshNode dir name k)).Live j :=
    fun j hj => (live_setNode_of_ne (hne j hj)).mpr hj
  have hrootLive : s.Live root := by simp [Live, wf.root_dir]
  have hrooted : ∀ j, s.RootedAt j → (s.setNode i (freshNode dir name k)).RootedAt j :=
    fun j hj => hj.congr fun a ha => ⟨hkeep a ha, by rw [hold a ha]⟩
  -- A child in the new state is an old one, or the new node under `dir`.
  have hchild : ∀ d j, (s.setNode i (freshNode dir name k)).IsChild d j →
      (j ≠ i ∧ s.IsChild d j) ∨ (j = i ∧ d = dir) := by
    rintro d j ⟨hlive, hparent, hjd⟩
    by_cases hji : j = i
    · subst hji
      exact Or.inr ⟨rfl, by simpa [freshNode] using hparent.symm⟩
    · exact Or.inl ⟨hji, (live_setNode_of_ne hji).mp hlive,
        by simpa [hji] using hparent, hjd⟩
  have hclash : ∀ j, s.IsChild dir j → (s.nodes j).name ≠ nameBuf name := by
    intro j hj heq
    refine findChild_eq_none hnew j hj ?_
    rw [heq, nameBuf_bytes hfits]
  refine ⟨?_, ?_, ?_, ?_, ?_, ?_, ?_, ?_, wf.next_le_pool⟩
  · rw [hold root hrootLive]; exact wf.root_dir
  · rw [hold root hrootLive]; exact wf.root_parent
  · intro j hj
    by_cases hji : j = i
    · subst hji
      rw [setNode_self, freshNode_parent, hold dir hdirLive]
      exact hdir
    · have hjlive : s.Live j := (live_setNode_of_ne hji).mp hj
      have hp : s.Live (s.nodes j).parent := by simp [Live, wf.parent_dir j hjlive]
      rw [hold j hjlive, hold _ hp]
      exact wf.parent_dir j hjlive
  · intro j hj
    by_cases hji : j = i
    · subst hji
      refine .child hj ?_
      rw [setNode_self, freshNode_parent]
      exact hrooted dir (wf.rooted dir hdirLive)
    · exact hrooted j (wf.rooted j ((live_setNode_of_ne hji).mp hj))
  · intro d a b ha hb heq
    rcases hchild d a ha with ⟨hai, ha'⟩ | ⟨rfl, rfl⟩ <;>
      rcases hchild d b hb with ⟨hbi, hb'⟩ | ⟨hbi, hbd⟩
    · rw [setNode_of_ne s _ hai, setNode_of_ne s _ hbi] at heq
      exact wf.names d a b ha' hb' heq
    · subst hbi hbd
      rw [setNode_of_ne s _ hai, setNode_self] at heq
      exact absurd heq (hclash a ha')
    · rw [setNode_self, setNode_of_ne s _ hbi] at heq
      exact absurd heq.symm (hclash b hb')
    · exact hbi.symm
  · intro j hj
    by_cases hji : j = i
    · subst hji; simp [freshNode]
    · rw [setNode_of_ne s _ hji] at hj ⊢
      exact wf.extent_below j hj
  · intro a b ha hb hab
    by_cases hai : a = i
    · subst hai; left; simp [freshNode]
    by_cases hbi : b = i
    · subst hbi; right; simp [freshNode]
    rw [setNode_of_ne s _ hai] at ha ⊢
    rw [setNode_of_ne s _ hbi] at hb ⊢
    exact wf.extents_apart a b ha hb hab
  · intro j hj
    by_cases hji : j = i
    · subst hji; simp [freshNode]
    · rw [setNode_of_ne s _ hji] at hj ⊢
      exact wf.len_le_cap j hj

end Fresh

/-! ## A cleared node -/

section Cleared

variable {s : State} {i : NodeId}

theorem not_live_setNode_empty : ¬(s.setNode i Node.empty).Live i := by
  simp [Live, Node.empty]

/-- Only a directory can have children. -/
theorem WellFormed.not_isChild_of_file (wf : s.WellFormed) (h : (s.nodes i).kind ≠ .dir)
    (j : NodeId) : ¬s.IsChild i j := by
  rintro ⟨hlive, hparent, _⟩
  exact h (hparent ▸ wf.parent_dir j hlive)

theorem WellFormed.cleared (wf : s.WellFormed) (hroot : i ≠ root)
    (hleaf : ∀ j, ¬s.IsChild i j) : (s.setNode i Node.empty).WellFormed := by
  have hlive : ∀ j, (s.setNode i Node.empty).Live j → j ≠ i ∧ s.Live j := by
    intro j hj
    have hji : j ≠ i := by
      rintro rfl
      exact not_live_setNode_empty hj
    exact ⟨hji, (live_setNode_of_ne hji).mp hj⟩
  have hparent : ∀ j, j ≠ i → s.Live j → (s.nodes j).parent ≠ i :=
    fun j hji hj hp => hleaf j ⟨hj, hp, hji⟩
  have hfile : ∀ j, ((s.setNode i Node.empty).nodes j).kind = .file →
      j ≠ i ∧ (s.nodes j).kind = .file := by
    intro j hj
    have hji : j ≠ i := by
      rintro rfl
      simp [Node.empty] at hj
    exact ⟨hji, by rwa [setNode_of_ne s _ hji] at hj⟩
  refine ⟨?_, ?_, ?_, ?_, ?_, ?_, ?_, ?_, wf.next_le_pool⟩
  · rw [setNode_of_ne s _ hroot.symm]; exact wf.root_dir
  · rw [setNode_of_ne s _ hroot.symm]; exact wf.root_parent
  · intro j hj
    obtain ⟨hji, hj'⟩ := hlive j hj
    rw [setNode_of_ne s _ hji, setNode_of_ne s _ (hparent j hji hj')]
    exact wf.parent_dir j hj'
  · intro j hj
    obtain ⟨hji, hj'⟩ := hlive j hj
    refine (wf.rooted j hj').remove hji (fun a ha hai => hparent a hai ha) ?_
    intro a hai ha
    exact ⟨(live_setNode_of_ne hai).mpr ha, by rw [setNode_of_ne s _ hai]⟩
  · intro d a b ha hb heq
    obtain ⟨hai, ha'⟩ := hlive a ha.1
    obtain ⟨hbi, hb'⟩ := hlive b hb.1
    have hca : s.IsChild d a := ⟨ha', by simpa [hai] using ha.2.1, ha.2.2⟩
    have hcb : s.IsChild d b := ⟨hb', by simpa [hbi] using hb.2.1, hb.2.2⟩
    rw [setNode_of_ne s _ hai, setNode_of_ne s _ hbi] at heq
    exact wf.names d a b hca hcb heq
  · intro j hj
    obtain ⟨hji, hj'⟩ := hfile j hj
    rw [setNode_of_ne s _ hji]
    exact wf.extent_below j hj'
  · intro a b ha hb hab
    obtain ⟨hai, ha'⟩ := hfile a ha
    obtain ⟨hbi, hb'⟩ := hfile b hb
    rw [setNode_of_ne s _ hai, setNode_of_ne s _ hbi]
    exact wf.extents_apart a b ha' hb' hab
  · intro j hj
    obtain ⟨hji, hj'⟩ := hfile j hj
    rw [setNode_of_ne s _ hji]
    exact wf.len_le_cap j hj'

end Cleared

/-! ## A file that is handed a stretch of the pool -/

section Stored

variable {s : State} {i : NodeId} {data : Nat → UInt8} {next off len cap : Nat}

@[simp] theorem restore_of_ne {j : NodeId} (h : j ≠ i) :
    (s.restore i data next off len cap).nodes j = s.nodes j := by
  simp [restore, setNode, h]

@[simp] theorem restore_self :
    (s.restore i data next off len cap).nodes i =
      { s.nodes i with dataOff := off, dataLen := len, dataCap := cap } := by
  simp [restore, setNode]

@[simp] theorem restore_data : (s.restore i data next off len cap).data = data := rfl

@[simp] theorem restore_dataNext : (s.restore i data next off len cap).dataNext = next := rfl

@[simp] theorem restore_cwd : (s.restore i data next off len cap).cwd = s.cwd := rfl

/-- Kind, name and parent of every node stay. -/
theorem restore_shape (j : NodeId) :
    ((s.restore i data next off len cap).nodes j).kind = (s.nodes j).kind ∧
    ((s.restore i data next off len cap).nodes j).name = (s.nodes j).name ∧
    ((s.restore i data next off len cap).nodes j).parent = (s.nodes j).parent := by
  by_cases h : j = i
  · subst h; simp
  · simp [h]

theorem live_restore (j : NodeId) :
    (s.restore i data next off len cap).Live j ↔ s.Live j := by
  rw [Live, Live, (restore_shape j).1]

theorem isChild_restore (d j : NodeId) :
    (s.restore i data next off len cap).IsChild d j ↔ s.IsChild d j := by
  rw [IsChild, IsChild, live_restore, (restore_shape j).2.2]

/-- The new extent is the old one, or a new stretch at the bump pointer. -/
def NewExtent (s : State) (i : NodeId) (next off cap : Nat) : Prop :=
  (next = s.dataNext ∧ off = (s.nodes i).dataOff ∧ cap = (s.nodes i).dataCap) ∨
  (off = s.dataNext ∧ next = off + cap)

theorem WellFormed.restored (wf : s.WellFormed) (hk : (s.nodes i).kind = .file)
    (hext : s.NewExtent i next off cap) (hlen : len ≤ cap) (hpool : next ≤ dataPool) :
    (s.restore i data next off len cap).WellFormed := by
  have hbelow := wf.extent_below i hk
  have hnext : s.dataNext ≤ next := by
    rcases hext with ⟨h, _, _⟩ | ⟨h₁, h₂⟩ <;> omega
  have hself : off + cap ≤ next := by
    rcases hext with ⟨h₁, h₂, h₃⟩ | ⟨h₁, h₂⟩ <;> omega
  have hother : ∀ j, j ≠ i → (s.nodes j).kind = .file →
      Apart { s.nodes i with dataOff := off, dataLen := len, dataCap := cap } (s.nodes j) := by
    intro j hj hjk
    have hjn := wf.extent_below j hjk
    have hij := wf.extents_apart i j hk hjk hj.symm
    simp only [Apart] at hij ⊢
    rcases hext with ⟨_, h₂, h₃⟩ | ⟨h₁, _⟩ <;> omega
  refine ⟨?_, ?_, ?_, ?_, ?_, ?_, ?_, ?_, hpool⟩
  · rw [(restore_shape root).1]; exact wf.root_dir
  · rw [(restore_shape root).2.2]; exact wf.root_parent
  · intro j hj
    rw [(restore_shape j).2.2, (restore_shape _).1]
    exact wf.parent_dir j ((live_restore j).mp hj)
  · intro j hj
    refine (wf.rooted j ((live_restore j).mp hj)).congr fun a ha => ?_
    exact ⟨(live_restore a).mpr ha, (restore_shape a).2.2⟩
  · intro d a b ha hb heq
    rw [(restore_shape a).2.1, (restore_shape b).2.1] at heq
    exact wf.names d a b ((isChild_restore d a).mp ha) ((isChild_restore d b).mp hb) heq
  · intro j hj
    by_cases hji : j = i
    · subst hji; simpa using hself
    · rw [restore_of_ne hji] at hj ⊢
      exact (wf.extent_below j hj).trans hnext
  · intro a b ha hb hab
    rw [(restore_shape a).1] at ha
    rw [(restore_shape b).1] at hb
    by_cases hai : a = i
    · subst hai
      rw [restore_self, restore_of_ne hab.symm]
      exact hother b hab.symm hb
    by_cases hbi : b = i
    · subst hbi
      rw [restore_self, restore_of_ne hai]
      exact (hother a hai ha).symm
    rw [restore_of_ne hai, restore_of_ne hbi]
    exact wf.extents_apart a b ha hb hab
  · intro j hj
    by_cases hji : j = i
    · subst hji; simpa using hlen
    · rw [restore_of_ne hji] at hj ⊢
      exact wf.len_le_cap j hj

end Stored

/-! ## Operations -/

theorem WellFormed.mkdir {s : State} (wf : s.WellFormed) (dir : NodeId) (name : List UInt8) :
    (s.mkdir dir name).2.WellFormed := by
  rcases s.mkdir_cases dir name with ⟨i, hc, hnew, hroot, hfree, heq⟩ | ⟨_, heq⟩
  · rw [heq]; exact wf.fresh hroot hfree hc hnew
  · rw [heq]; exact wf

theorem WellFormed.createFile {s : State} (wf : s.WellFormed) (dir : NodeId)
    (name : List UInt8) : (s.createFile dir name).2.WellFormed := by
  rcases s.createFile_cases dir name with
    ⟨i, hc, hnew, hroot, hfree, heq⟩ | ⟨i, _, _, _, heq⟩ | ⟨_, heq⟩
  · rw [heq]; exact wf.fresh hroot hfree hc hnew
  · rw [heq]; exact wf
  · rw [heq]; exact wf

theorem WellFormed.write {s : State} (wf : s.WellFormed) (node : NodeId) {bytes : List UInt8}
    (hlen : bytes.length < 2 ^ 32) : (s.write node bytes).2.WellFormed := by
  rcases s.write_cases node hlen with ⟨_, heq⟩ | ⟨hk, hcap, heq⟩ | ⟨hk, _, hroom, heq⟩
  · rw [heq]; exact wf
  · rw [heq]; exact wf.restored hk (Or.inl ⟨rfl, rfl, rfl⟩) hcap wf.next_le_pool
  · rw [heq]; exact wf.restored hk (Or.inr ⟨rfl, rfl⟩) le_rfl hroom

theorem WellFormed.append {s : State} (wf : s.WellFormed) (node : NodeId)
    (bytes : List UInt8) : (s.append node bytes).2.WellFormed := by
  rcases s.append_cases node bytes with ⟨_, heq⟩ | ⟨hk, hroom, heq⟩
  · rw [heq]; exact wf
  · rw [heq]; exact wf.restored hk (Or.inr ⟨rfl, rfl⟩) le_rfl hroom

theorem WellFormed.unlink {s : State} (wf : s.WellFormed) (node : NodeId) :
    (s.unlink node).2.WellFormed := by
  rcases s.unlink_cases node with ⟨_, heq⟩ | ⟨hroot, _, hempty, heq⟩
  · rw [heq]; exact wf
  · rw [heq]
    by_cases hdir : (s.nodes node).kind = .dir
    · exact wf.cleared hroot (hempty hdir)
    · exact wf.cleared hroot (wf.not_isChild_of_file hdir)

theorem WellFormed.setCwd {s : State} (wf : s.WellFormed) (node : NodeId) :
    (s.setCwd node).WellFormed := by
  unfold State.setCwd
  split
  · exact ⟨wf.root_dir, wf.root_parent, wf.parent_dir, wf.rooted, wf.names,
      wf.extent_below, wf.extents_apart, wf.len_le_cap, wf.next_le_pool⟩
  · exact wf

/-- The length of the data a request carries fits the source's `u32`. -/
def FitsU32 : Op NodeId → Prop
  | .write _ bytes => bytes.length < 2 ^ 32
  | .append _ bytes => bytes.length < 2 ^ 32
  | _ => True

theorem WellFormed.exec {s : State} (wf : s.WellFormed) {op : Op NodeId} (hop : FitsU32 op) :
    (s.exec op).2.WellFormed := by
  cases op with
  | mkdir dir name => exact wf.mkdir dir name
  | createFile dir name => exact wf.createFile dir name
  | write node bytes => exact wf.write node hop
  | append node bytes => exact wf.append node bytes
  | read node => exact wf
  | unlink node => exact wf.unlink node

end State

end PureOS.Fs
