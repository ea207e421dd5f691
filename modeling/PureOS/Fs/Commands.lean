import PureOS.Fs.Names

set_option autoImplicit false

/-!
# Fs: `cp` and `mv` (`commands.rs`)

Both commands create the destination and write the content of the source to it, which is still
the slice of the pool that `read` has lent out.  `mv` then removes the source, whether or not
the write has succeeded and even if the destination is the source.
-/

namespace PureOS.Fs

open PureOS.Foundation

namespace State

/-- `write` of the bytes `DATA[src..src + n]`, which are read while they are being written. -/
def writeSlice (s : State) (node : NodeId) (src n : Nat) : Bool × State :=
  let nd := s.nodes node
  if nd.kind ≠ .file then (false, s)
  else
    let len := asU32 n
    if len ≤ nd.dataCap then
      (true, { s with data := copyWithin s.data nd.dataOff src n }.setNode node
        { nd with dataLen := len })
    else
      let off := s.dataNext
      if off + n > dataPool then (false, s)
      else
        (true, { s with data := copyWithin s.data off src n, dataNext := off + len }.setNode node
          { nd with dataOff := off, dataLen := len, dataCap := len })

/-- The first two parts of `args.split(' ')`. -/
def splitArgs (args : List UInt8) : List UInt8 × List UInt8 :=
  let parts := args.splitOn 32
  (parts.getD 0 [], parts.getD 1 [])

/-- The source that `cp` and `mv` accept: a path that resolves to a file. -/
def sourceOf (s : State) (src : List UInt8) : Option NodeId :=
  (s.scanFrom s.cwd src).filter fun n => s.kind n = .file

/-- What `cp` and `mv` share: what is written to the terminal and the state afterwards. -/
def copyCommand (command : String) (finish : NodeId → State → State) (args : List UInt8)
    (s : State) : List UInt8 × State :=
  let (src, dst) := splitArgs args
  if src = [] ∨ dst = [] then
    (ascii ("usage: " ++ command ++ " <source> <destination>\n"), s)
  else
    match s.sourceOf src with
    | none => (ascii (command ++ ": source not a file\n"), s)
    | some srcNode =>
        let data := s.nodes srcNode
        match s.resolveParent dst with
        | none => (ascii (command ++ ": invalid destination\n"), s)
        | some (parent, leaf) =>
            match s.createFile parent leaf with
            | (none, s) => (ascii (command ++ ": cannot create destination\n"), s)
            | (some new, s) => ([], finish srcNode (s.writeSlice new data.dataOff data.dataLen).2)

/-- `cmd_cp`. -/
def cmdCp : List UInt8 → State → List UInt8 × State := copyCommand "cp" fun _ s => s

/-- `cmd_mv`. -/
def cmdMv : List UInt8 → State → List UInt8 × State :=
  copyCommand "mv" fun srcNode s => (s.unlink srcNode).2

/-- The node is a file with the content `bytes`. -/
def Holds (s : State) (n : NodeId) (bytes : List UInt8) : Prop :=
  (s.nodes n).kind = .file ∧ s.read n = bytes

/-- After `mv` the bytes of the source are the content of the source or of the destination. -/
def MvKeeps (s : State) (args : List UInt8) : Prop :=
  ∀ n, s.sourceOf (splitArgs args).1 = some n →
    (cmdMv args s).2.Holds n (s.read n) ∨
    ∃ parent leaf new, s.resolveParent (splitArgs args).2 = some (parent, leaf) ∧
      (cmdMv args s).2.findChild parent leaf = some new ∧ (cmdMv args s).2.Holds new (s.read n)

/-- After `cp` the source is as it was. -/
def CpKeeps (s : State) (args : List UInt8) : Prop :=
  ∀ n, s.sourceOf (splitArgs args).1 = some n → (cmdCp args s).2.Holds n (s.read n)

/-- No room is left in the pool for `len` bytes, nor in an extent of `cap` bytes. -/
def NoRoom (s : State) (len cap : Nat) : Prop := cap < len ∧ dataPool < s.dataNext + len

/-- The destination of a move is the source itself, or it can be created but not written. -/
def MvLoses (s : State) (args : List UInt8) : Prop :=
  ∃ n parent leaf, (splitArgs args).1 ≠ [] ∧ (splitArgs args).2 ≠ [] ∧
    s.sourceOf (splitArgs args).1 = some n ∧
    s.resolveParent (splitArgs args).2 = some (parent, leaf) ∧ s.Creatable parent leaf ∧
    ((∃ m, s.findChild parent leaf = some m ∧ (s.nodes m).kind = .file ∧
        (m = n ∨ s.NoRoom (s.nodes n).dataLen (s.nodes m).dataCap)) ∨
      s.findChild parent leaf = none ∧ s.allocNode ≠ none ∧ s.NoRoom (s.nodes n).dataLen 0)

/-! ## Writing a slice that was lent out -/

variable {s : State}

theorem length_read {n : NodeId} (h : (s.nodes n).kind = .file) :
    (s.read n).length = (s.nodes n).dataLen := by
  rw [read_eq_slice h, length_slice]

theorem length_read_lt (wf : s.WellFormed) {n : NodeId} (h : (s.nodes n).kind = .file) :
    (s.read n).length < 2 ^ 32 := by
  have hcap := length_read_le_cap wf h
  have hbelow := wf.extent_below n h
  have hpool := wf.next_le_pool
  simp only [dataPool] at hpool
  omega

/-- While the extents are apart, the slice of a file is written as its content. -/
theorem writeSlice_eq (wf : s.WellFormed) {n : NodeId} (h : (s.nodes n).kind = .file)
    (node : NodeId) :
    s.writeSlice node (s.nodes n).dataOff (s.nodes n).dataLen = s.write node (s.read n) := by
  have hlen := length_read h
  have hcap := wf.len_le_cap n h
  have hbelow := wf.extent_below n h
  unfold writeSlice write
  rw [hlen, read_eq_slice h]
  dsimp only
  split
  · rfl
  rename_i hfile
  have hk : (s.nodes node).kind = .file := not_not.mp hfile
  split
  · rw [copyWithin_eq_blit]
    by_cases hn : node = n
    · rw [hn]
      exact Or.inl le_rfl
    · have hapart := wf.extents_apart node n hk h hn
      unfold Apart at hapart
      omega
  · split
    · rfl
    · rw [copyWithin_eq_blit]
      omega

theorem write_of_noRoom {node : NodeId} {bytes : List UInt8} (hlen : bytes.length < 2 ^ 32)
    (h : s.NoRoom bytes.length (s.nodes node).dataCap) : s.write node bytes = (false, s) := by
  obtain ⟨hcap, hpool⟩ := h
  rcases s.write_cases node hlen with ⟨-, heq⟩ | ⟨-, hle, -⟩ | ⟨-, -, hle, -⟩
  · exact heq
  · exact absurd hcap (Nat.not_lt.mpr hle)
  · exact absurd hpool (Nat.not_lt.mpr hle)

/-- A write that has room succeeds. -/
theorem Holds.of_write (wf : s.WellFormed) {node : NodeId} {bytes : List UInt8}
    (hk : (s.nodes node).kind = .file) (hlen : bytes.length < 2 ^ 32)
    (h : ¬s.NoRoom bytes.length (s.nodes node).dataCap) :
    (s.write node bytes).2.Holds node bytes := by
  have hok : (s.write node bytes).1 = true := by
    unfold write
    simp only [asU32_of_lt hlen]
    rw [if_neg (not_not.mpr hk)]
    split
    · rfl
    · rename_i hcap
      rw [if_neg fun hpool => h ⟨Nat.not_le.mp hcap, hpool⟩]
  rcases write_tree wf node hlen with heq | ⟨-, -, htree⟩
  · rw [heq] at hok
    cases hok
  · refine (isFile_tree_iff _ _ _).mp ?_
    obtain ⟨e, he, -⟩ := (isFile_tree_iff s node _).mpr ⟨hk, rfl⟩
    rw [htree]
    exact ⟨{ e with content := .file bytes }, by rw [Tree.setContent, Function.update_self, he]; rfl,
      rfl⟩

/-- Writing its own content anywhere leaves a file as it was. -/
theorem Holds.write (wf : s.WellFormed) {n : NodeId} {bytes : List UInt8} (h : s.Holds n bytes)
    (hlen : bytes.length < 2 ^ 32) (node : NodeId) : (s.write node bytes).2.Holds n bytes := by
  rcases write_tree wf node hlen with heq | ⟨hk, -, htree⟩
  · rw [heq]
    exact h
  · refine (isFile_tree_iff _ _ _).mp ?_
    obtain ⟨e, he, hcontent⟩ := (isFile_tree_iff s n bytes).mpr h
    rw [htree]
    by_cases hn : n = node
    · subst hn
      exact ⟨{ e with content := .file bytes },
        by rw [Tree.setContent, Function.update_self, he]; rfl, rfl⟩
    · exact ⟨e, by rw [Tree.setContent, Function.update_of_ne hn]; exact he, hcontent⟩

/-- A write changes no name, no kind and no parent. -/
theorem write_shape {node : NodeId} {bytes : List UInt8} (hlen : bytes.length < 2 ^ 32)
    (j : NodeId) :
    (((s.write node bytes).2.nodes j).name = (s.nodes j).name) ∧
      ∀ dir, (s.write node bytes).2.IsChild dir j ↔ s.IsChild dir j := by
  rcases s.write_cases node hlen with ⟨-, heq⟩ | ⟨-, -, heq⟩ | ⟨-, -, -, heq⟩
  · rw [heq]
    exact ⟨rfl, fun _ => Iff.rfl⟩
  · rw [heq]
    exact ⟨(restore_shape j).2.1, fun dir => isChild_restore dir j⟩
  · rw [heq]
    exact ⟨(restore_shape j).2.1, fun dir => isChild_restore dir j⟩

theorem write_kind {node : NodeId} {bytes : List UInt8} (hlen : bytes.length < 2 ^ 32) (j : NodeId) :
    ((s.write node bytes).2.nodes j).kind = (s.nodes j).kind := by
  rcases s.write_cases node hlen with ⟨-, heq⟩ | ⟨-, -, heq⟩ | ⟨-, -, -, heq⟩
  · rw [heq]
  · rw [heq]
    exact (restore_shape j).1
  · rw [heq]
    exact (restore_shape j).1

/-! ## The destination -/

/-- A file that `create_file` has found or made. -/
structure Created (s : State) (parent : NodeId) (leaf : List UInt8) (new : NodeId) (s' : State) :
    Prop where
  child : s'.IsChild parent new
  name : (s'.nodes new).name.bytes = leaf
  file : (s'.nodes new).kind = .file
  kept : ∀ n bytes, s.Holds n bytes → s'.Holds n bytes ∧ s'.nodes n = s.nodes n
  next : s'.dataNext = s.dataNext
  creatable : s.Creatable parent leaf
  how : s.findChild parent leaf = some new ∧ s' = s ∨
    s.findChild parent leaf = none ∧ s.allocNode ≠ none ∧ ¬s.Live new ∧ (s'.nodes new).dataCap = 0

theorem createFile_created {parent new : NodeId} {leaf : List UInt8} {s' : State}
    (h : s.createFile parent leaf = (some new, s')) : s.Created parent leaf new s' := by
  rcases s.createFile_cases parent leaf with
    ⟨i, hc, hnone, hroot, hfree, heq⟩ | ⟨i, hc, hfound, hk, heq⟩ | ⟨-, heq⟩
  · obtain ⟨hi, hs'⟩ := Prod.mk.inj (heq.symm.trans h)
    cases hi
    subst hs'
    have hdir : parent ≠ new := by
      rintro rfl
      exact hfree (by rw [Live, hc.2.2]; exact Kind.noConfusion)
    have hself := s.setNode_self new (freshNode parent leaf .file)
    refine ⟨⟨?_, ?_, hdir.symm⟩, ?_, ?_, ?_, rfl, hc, Or.inr ⟨hnone, ?_, hfree, ?_⟩⟩
    · rw [Live, hself]
      exact Kind.noConfusion
    · rw [hself, freshNode_parent]
    · rw [hself, freshNode, nameBuf_bytes hc.2.1]
    · rw [hself, freshNode_kind]
    · rintro n bytes ⟨hk, hread⟩
      have hn : n ≠ new := by
        rintro rfl
        exact hfree (by rw [Live, hk]; exact Kind.noConfusion)
      have hsame := s.setNode_of_ne (freshNode parent leaf .file) hn
      exact ⟨⟨by rw [hsame]; exact hk, by rw [read_setNode_of_ne s _ hn]; exact hread⟩, hsame⟩
    · intro hfull
      exact allocNode_eq_none hfull new ⟨hroot, hfree⟩
    · rw [hself]
      rfl
  · obtain ⟨hi, hs'⟩ := Prod.mk.inj (heq.symm.trans h)
    cases hi
    subst hs'
    obtain ⟨hchild, hname⟩ := findChild_eq_some hfound
    exact ⟨hchild, hname, hk, fun n bytes hn => ⟨hn, rfl⟩, rfl, hc, Or.inl ⟨hfound, rfl⟩⟩
  · exact absurd (congrArg Prod.fst (heq.symm.trans h)) (by simp)

theorem created_of_fst {parent new : NodeId} {leaf : List UInt8}
    (h : (s.createFile parent leaf).1 = some new) :
    s.Created parent leaf new (s.createFile parent leaf).2 :=
  createFile_created (Prod.ext h rfl)

/-- What is there already stays as it is. -/
theorem createFile_live (s : State) (dir : NodeId) (name : List UInt8) {j : NodeId}
    (hlive : s.Live j) : (s.createFile dir name).2.nodes j = s.nodes j := by
  rcases s.createFile_cases dir name with ⟨i, -, -, -, hfree, heq⟩ | ⟨i, -, -, -, heq⟩ | ⟨-, heq⟩
  · rw [heq]
    refine s.setNode_of_ne _ ?_
    rintro rfl
    exact hfree hlive
  · rw [heq]
  · rw [heq]

theorem createFile_none {parent : NodeId} {leaf : List UInt8}
    (h : (s.createFile parent leaf).1 = none) : s.createFile parent leaf = (none, s) := by
  rcases s.createFile_cases parent leaf with ⟨i, -, -, -, -, heq⟩ | ⟨i, -, -, -, heq⟩ | ⟨-, heq⟩
  · rw [heq] at h
    cases h
  · rw [heq] at h
    cases h
  · exact heq

/-! ## The commands -/

/-- The arguments name a source and a destination that a copy may go to. -/
structure Goes (s : State) (args : List UInt8) (n parent : NodeId) (leaf : List UInt8) : Prop where
  src : (splitArgs args).1 ≠ []
  dst : (splitArgs args).2 ≠ []
  source : s.sourceOf (splitArgs args).1 = some n
  target : s.resolveParent (splitArgs args).2 = some (parent, leaf)

theorem sourceOf_file {src : List UInt8} {n : NodeId} (h : s.sourceOf src = some n) :
    (s.nodes n).kind = .file :=
  of_decide_eq_true (Option.filter_eq_some_iff.mp h).2

theorem sourceOf_eq {src : List UInt8} {n : NodeId} (h : s.scanFrom s.cwd src = some n)
    (hk : (s.nodes n).kind = .file) : s.sourceOf src = some n := by
  rw [sourceOf, h]
  exact Option.filter_eq_some_iff.mpr ⟨rfl, decide_eq_true hk⟩

variable {args : List UInt8} {n parent : NodeId} {leaf : List UInt8} {command : String}
  {finish : NodeId → State → State}

theorem copyCommand_of_created (wf : s.WellFormed) (hgo : s.Goes args n parent leaf)
    {new : NodeId} {s' : State} (hcreate : s.createFile parent leaf = (some new, s')) :
    (copyCommand command finish args s).2 = finish n (s'.write new (s.read n)).2 := by
  have hk := sourceOf_file hgo.source
  have hcreated := createFile_created hcreate
  obtain ⟨⟨hk', hread⟩, hsame⟩ := hcreated.kept n _ ⟨hk, rfl⟩
  have wf' : s'.WellFormed := by
    have hwf := wf.createFile parent leaf
    rwa [hcreate] at hwf
  have hslice := writeSlice_eq wf' hk' new
  rw [hread, hsame] at hslice
  unfold copyCommand
  dsimp only
  rw [if_neg (not_or.mpr ⟨hgo.src, hgo.dst⟩), hgo.source, hgo.target]
  dsimp only
  rw [hcreate]
  dsimp only
  rw [hslice]

theorem copyCommand_of_not (h : ∀ n parent leaf, s.Goes args n parent leaf →
    (s.createFile parent leaf).1 = none) : (copyCommand command finish args s).2 = s := by
  unfold copyCommand
  dsimp only
  split
  · rfl
  rename_i hargs
  obtain ⟨hsrc, hdst⟩ := not_or.mp hargs
  cases hsource : s.sourceOf (splitArgs args).1 with
  | none => rfl
  | some n =>
      cases htarget : s.resolveParent (splitArgs args).2 with
      | none => rfl
      | some target =>
          obtain ⟨parent, leaf⟩ := target
          dsimp only
          rw [createFile_none (h n parent leaf ⟨hsrc, hdst, hsource, htarget⟩)]

/-- A copy goes ahead, or the command changes nothing. -/
theorem goes_or_not (s : State) (args : List UInt8) :
    (∃ n parent leaf new s', s.Goes args n parent leaf ∧
        s.createFile parent leaf = (some new, s')) ∨
      ∀ n parent leaf, s.Goes args n parent leaf → (s.createFile parent leaf).1 = none := by
  by_cases h : ∃ n parent leaf, s.Goes args n parent leaf ∧ (s.createFile parent leaf).1 ≠ none
  · obtain ⟨n, parent, leaf, hgo, hne⟩ := h
    obtain ⟨new, hnew⟩ := Option.ne_none_iff_exists'.mp hne
    exact Or.inl ⟨n, parent, leaf, new, _, hgo, Prod.ext hnew rfl⟩
  · refine Or.inr fun n parent leaf hgo => ?_
    by_contra hne
    exact h ⟨n, parent, leaf, hgo, hne⟩

/-- `cp` leaves its source as it was. -/
theorem cp_keeps (wf : s.WellFormed) (args : List UInt8) : s.CpKeeps args := by
  intro n hsource
  have hk := sourceOf_file hsource
  rcases s.goes_or_not args with ⟨n', parent, leaf, new, s', hgo, hcreate⟩ | hnot
  · obtain rfl : n = n' := Option.some.inj (hsource.symm.trans hgo.source)
    have wf' : s'.WellFormed := by
      have hwf := wf.createFile parent leaf
      rwa [hcreate] at hwf
    rw [cmdCp, copyCommand_of_created wf hgo hcreate]
    exact ((createFile_created hcreate).kept n _ ⟨hk, rfl⟩).1.write wf' (length_read_lt wf hk) new
  · rw [cmdCp, copyCommand_of_not hnot]
    exact ⟨hk, rfl⟩

/-- When a move goes ahead, it loses the content if its destination is the source, or cannot be
written. -/
theorem mvLoses_iff_of_created (hgo : s.Goes args n parent leaf) {new : NodeId} {s' : State}
    (h : s.Created parent leaf new s') :
    s.MvLoses args ↔ new = n ∨ s'.NoRoom (s.nodes n).dataLen (s'.nodes new).dataCap := by
  constructor
  · rintro ⟨n', parent', leaf', -, -, hsource, htarget, -, hcase⟩
    obtain rfl : n = n' := Option.some.inj (hgo.source.symm.trans hsource)
    obtain ⟨rfl, rfl⟩ := Prod.mk.inj (Option.some.inj (hgo.target.symm.trans htarget))
    rcases h.how with ⟨hfound, rfl⟩ | ⟨hnone, -, -, hcap⟩
    · rcases hcase with ⟨m, hm, -, hlose⟩ | ⟨hnone, -⟩
      · rw [hfound] at hm
        cases hm
        exact hlose
      · rw [hfound] at hnone
        cases hnone
    · rcases hcase with ⟨m, hm, -⟩ | ⟨-, -, hroom⟩
      · rw [hnone] at hm
        cases hm
      · rw [hcap, NoRoom, h.next]
        exact Or.inr hroom
  · intro hlose
    refine ⟨n, parent, leaf, hgo.src, hgo.dst, hgo.source, hgo.target, h.creatable, ?_⟩
    rcases h.how with ⟨hfound, rfl⟩ | ⟨hnone, hroom, hfree, hcap⟩
    · exact Or.inl ⟨new, hfound, h.file, hlose⟩
    · rcases hlose with rfl | hno
      · exact absurd (sourceOf_file hgo.source) fun hk => hfree (by rw [Live, hk]; exact Kind.noConfusion)
      · rw [hcap, NoRoom, h.next] at hno
        exact Or.inr ⟨hnone, hroom, hno⟩

/-- After a write and the removal of the source, the bytes are where they should be exactly if the
destination is not the source and the write has had room. -/
theorem move_keeps_iff (wf : s.WellFormed) {bytes : List UInt8} (h : s.Holds n bytes)
    {new : NodeId} (hchild : s.IsChild parent new) (hname : (s.nodes new).name.bytes = leaf)
    (hfile : (s.nodes new).kind = .file) :
    (((s.write new bytes).2.unlink n).2.Holds n bytes ∨
      ∃ m, ((s.write new bytes).2.unlink n).2.findChild parent leaf = some m ∧
        ((s.write new bytes).2.unlink n).2.Holds m bytes) ↔
    ¬(new = n ∨ s.NoRoom bytes.length (s.nodes new).dataCap) := by
  have hlen : bytes.length < 2 ^ 32 := by
    rw [← h.2]
    exact length_read_lt wf h.1
  have hkept := h.write wf hlen new
  have hshape := @write_shape s new bytes hlen
  have hwritten := @Holds.of_write s wf new bytes hfile hlen
  have hrefused := @write_of_noRoom s new bytes hlen
  have wf₂ : (s.write new bytes).2.WellFormed := wf.write new hlen
  generalize hs₂ : (s.write new bytes).2 = s₂ at hkept hshape hwritten wf₂ ⊢
  have hlive : s₂.Live n := by
    rw [Live, hkept.1]
    exact Kind.noConfusion
  have hunlink : s₂.unlink n = (true, s₂.setNode n Node.empty) := by
    rcases s₂.unlink_cases n with ⟨hwhy, -⟩ | ⟨-, -, -, heq⟩
    · rcases hwhy with rfl | hfree | ⟨hdir, -⟩
      · exact absurd (wf₂.root_dir.symm.trans hkept.1) (by simp)
      · exact absurd hlive hfree
      · exact absurd (hdir.symm.trans hkept.1) (by simp)
    · exact heq
  have hgone : ¬(s₂.setNode n Node.empty).Live n := not_live_setNode_empty
  have wf₃ : (s₂.setNode n Node.empty).WellFormed := by
    have hwf := wf₂.unlink n
    rwa [hunlink] at hwf
  have hchild₂ : s₂.IsChild parent new := ((hshape new).2 parent).mpr hchild
  have hname₂ : (s₂.nodes new).name.bytes = leaf := by rw [(hshape new).1, hname]
  -- Whatever has the name of the destination now is the destination.
  have hfound {m : NodeId} (hm : (s₂.setNode n Node.empty).findChild parent leaf = some m) :
      m ≠ n ∧ m = new := by
    obtain ⟨hchild', hname'⟩ := findChild_eq_some hm
    have hne : m ≠ n := by
      rintro rfl
      exact hgone hchild'.1
    have hsame := s₂.setNode_of_ne Node.empty hne
    have hchild'' : s₂.IsChild parent m := by
      refine ⟨?_, ?_, hchild'.2.2⟩
      · rw [Live, ← hsame]
        exact hchild'.1
      · rw [← hsame]
        exact hchild'.2.1
    have hm₂ := findChild_of_isChild wf₂ hchild''
    rw [← hsame, hname', ← hname₂, findChild_of_isChild wf₂ hchild₂] at hm₂
    exact ⟨hne, (Option.some.inj hm₂).symm⟩
  rw [hunlink]
  constructor
  · rintro (hn | ⟨m, hm, hholds⟩) hlose
    · exact hgone (by rw [Live, hn.1]; exact Kind.noConfusion)
    · obtain ⟨hne, rfl⟩ := hfound hm
      rcases hlose with heq | hno
      · exact hne heq
      · have hsame : s₂ = s := by rw [← hs₂, hrefused hno]
        have hread : s.read m = bytes := by
          rw [← hholds.2, read_setNode_of_ne _ _ hne, hsame]
        have hcap := length_read_le_cap wf hfile
        rw [hread] at hcap
        exact absurd hno.1 (Nat.not_lt.mpr hcap)
  · intro hok
    obtain ⟨hne, hroom⟩ := not_or.mp hok
    have hsame := s₂.setNode_of_ne Node.empty hne
    obtain ⟨hk, hread⟩ := hwritten hroom
    refine Or.inr ⟨new, ?_, by rw [hsame]; exact hk, by rw [read_setNode_of_ne _ _ hne]; exact hread⟩
    have hchild₃ : (s₂.setNode n Node.empty).IsChild parent new := by
      refine ⟨?_, ?_, hchild.2.2⟩
      · rw [Live, hsame]
        exact hchild₂.1
      · rw [hsame]
        exact hchild₂.2.1
    have hfind := findChild_of_isChild wf₃ hchild₃
    rwa [hsame, hname₂] at hfind

/-- `mv` keeps the content of its source exactly if its destination is not the source and can be
written once it is created. -/
theorem mv_keeps_iff (wf : s.WellFormed) (args : List UInt8) :
    s.MvKeeps args ↔ ¬s.MvLoses args := by
  rcases s.goes_or_not args with ⟨n, parent, leaf, new, s', hgo, hcreate⟩ | hnot
  · have hk := sourceOf_file hgo.source
    have hcreated := createFile_created hcreate
    have wf' : s'.WellFormed := by
      have hwf := wf.createFile parent leaf
      rwa [hcreate] at hwf
    have hholds := (hcreated.kept n _ ⟨hk, rfl⟩).1
    have hiff := move_keeps_iff wf' hholds hcreated.child hcreated.name hcreated.file
    rw [length_read hk, ← mvLoses_iff_of_created hgo hcreated] at hiff
    rw [← hiff, MvKeeps, cmdMv, copyCommand_of_created wf hgo hcreate]
    constructor
    · intro hkeeps
      rcases hkeeps n hgo.source with h | ⟨parent', leaf', m, htarget, hm, h⟩
      · exact Or.inl h
      · obtain ⟨rfl, rfl⟩ := Prod.mk.inj (Option.some.inj (hgo.target.symm.trans htarget))
        exact Or.inr ⟨m, hm, h⟩
    · intro hkept n' hsource
      obtain rfl : n = n' := Option.some.inj (hgo.source.symm.trans hsource)
      rcases hkept with h | ⟨m, hm, h⟩
      · exact Or.inl h
      · exact Or.inr ⟨parent, leaf, m, hgo.target, hm, h⟩
  · refine iff_of_true (fun n hsource => Or.inl ?_) ?_
    · rw [cmdMv, copyCommand_of_not hnot]
      exact ⟨sourceOf_file hsource, rfl⟩
    · rintro ⟨n, parent, leaf, hsrc, hdst, hsource, htarget, hc, hcase⟩
      have hnone := createFile_none (hnot n parent leaf ⟨hsrc, hdst, hsource, htarget⟩)
      unfold createFile at hnone
      rw [if_pos hc] at hnone
      rcases hcase with ⟨m, hm, hk, -⟩ | ⟨hfind, hroom, -⟩
      · rw [hm] at hnone
        simp [hk] at hnone
      · rw [hfind] at hnone
        obtain ⟨i, hi⟩ := Option.ne_none_iff_exists'.mp hroom
        simp [allocAs, hi] at hnone

end State

/-! ## Runs -/

theorem run_wellFormed_shell {s : State} {h : List ShellOp} (run : Run ShellStep State.init h s) :
    s.WellFormed := by
  refine run.invariant_state State.WellFormed State.init_wellFormed ?_
  intro s op s' wf hstep
  cases hstep with
  | node fits => exact wf.exec fits
  | rmRecursive done => exact (State.rmRecursive_spec _ wf done).1
  | @setCwd node => exact wf.setCwd node

/-- In every state that is reached, `mv` keeps the content of its source exactly if its
destination is not the source and can be written once it is created, and `cp` always does. -/
theorem mv_keeps_iff_of_run {s : State} {h : List ShellOp} (run : Run ShellStep State.init h s)
    (args : List UInt8) : (s.MvKeeps args ↔ ¬s.MvLoses args) ∧ s.CpKeeps args :=
  ⟨State.mv_keeps_iff (run_wellFormed_shell run) args,
    State.cp_keeps (run_wellFormed_shell run) args⟩

/-- `touch /x`. -/
def touched : State := (State.init.createFile root (ascii "x")).2

theorem exec_write (s : State) (node : NodeId) (bytes : List UInt8) :
    (s.exec (.write node bytes)).2 = (s.write node bytes).2 := rfl

theorem exec_createFile (s : State) (dir : NodeId) (name : List UInt8) :
    (s.exec (.createFile dir name)).2 = (s.createFile dir name).2 := rfl

theorem run_touched : Run ShellStep State.init [.node (.createFile root (ascii "x"))] touched := by
  refine .snoc (h := []) .nil ?_
  rw [touched, ← exec_createFile]
  exact .node trivial

theorem mv_keeps_iff_of_run_touched :
    (touched.MvKeeps (ascii "/x /y") ↔ ¬touched.MvLoses (ascii "/x /y")) ∧
      touched.CpKeeps (ascii "/x /y") :=
  mv_keeps_iff_of_run run_touched _

/-- `mv /x /x` loses the file. -/
theorem not_mv_keeps : ¬∀ (s : State) (h : List ShellOp) (args : List UInt8),
    Run ShellStep State.init h s → s.MvKeeps args ∧ s.CpKeeps args := by
  intro hall
  have wf := run_wellFormed_shell run_touched
  have hnew : (State.init.createFile root (ascii "x")).1 = some 11 := by
    rw [State.init_eq]
    decide +kernel
  have hcreated : State.init.Created root (ascii "x") 11 touched := by
    rw [touched]
    exact State.created_of_fst hnew
  have hfind : touched.findChild root (ascii "x") = some 11 := by
    have hfind := State.findChild_of_isChild wf hcreated.child
    rwa [hcreated.name] at hfind
  have hscan : touched.scanFrom touched.cwd (ascii "/x") = some 11 := by
    have habs : ascii "/x" = absolute [ascii "x"] := by decide
    rw [habs, State.scanFrom_absolute _ _ (by decide), List.foldlM_cons, State.enter,
      if_neg (by decide), if_neg (by decide), hfind]
    rfl
  have hargs : State.splitArgs (ascii "/x /x") = (ascii "/x", ascii "/x") := by decide
  have hsource : touched.sourceOf (ascii "/x") = some 11 :=
    State.sourceOf_eq hscan hcreated.file
  have htarget : touched.resolveParent (ascii "/x") = some (root, ascii "x") := by
    have hsplit : ascii "/x" = [] ++ slash :: ascii "x" := by decide
    have hroot : touched.scanFrom touched.cwd ([] ++ [slash]) = some root := by
      rw [State.scanFrom_eq]
      rfl
    rw [hsplit, State.resolveParent_append _ _ (by decide), if_neg (by decide), hroot,
      Option.bind_some, if_pos wf.root_dir]
  refine (State.mv_keeps_iff wf (ascii "/x /x")).mp (hall _ _ _ run_touched).1 ?_
  refine ⟨11, root, ascii "x", ?_, ?_, ?_, ?_, ⟨by decide, by decide, wf.root_dir⟩,
    Or.inl ⟨11, hfind, hcreated.file, Or.inl rfl⟩⟩
  · rw [hargs]
    decide
  · rw [hargs]
    decide
  · rw [hargs]
    exact hsource
  · rw [hargs]
    exact htarget

end PureOS.Fs
