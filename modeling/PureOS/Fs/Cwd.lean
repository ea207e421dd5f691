import Mathlib.Logic.Relation
import PureOS.Fs.Refinement

set_option autoImplicit false

/-!
# Fs: the working directory

`CWD` is a bare node index beside the tree.  `set_cwd` lets only a directory in,
but `unlink` and the recursive remove of the shell never look at it, so the
removal of the working directory leaves it on a free slot, which a later creation
takes.  As long as no removal hits the working directory it stays the directory
it was set to, and its parent chain reaches the root.
-/

namespace PureOS.Fs

open PureOS.Foundation Relation

namespace State

/-! ## `rm_recursive` -/

/-- The child that the callback in `rm_recursive` keeps: the first one that
`for_each_child` visits. -/
def firstChild (s : State) (dir : NodeId) : Option NodeId :=
  if (s.nodes dir).kind = .dir then (List.finRange maxNodes).find? (s.IsChild dir ·) else none

/-- `rm_recursive`, with a bound on the calls and turns of its loop.  `none` is an
exhausted bound. -/
def rmRecursive : Nat → State → NodeId → Option State
  | 0, _, _ => none
  | fuel + 1, s, dir =>
      match s.firstChild dir with
      | none => some s
      | some child =>
          let cleared := if (s.nodes child).kind = .dir then rmRecursive fuel s child else some s
          cleared.bind fun s => rmRecursive fuel (s.unlink child).2 dir

/-- `n` lies strictly below `dir`. -/
def Below (s : State) (dir n : NodeId) : Prop := TransGen s.IsChild dir n

theorem firstChild_isChild {s : State} {dir child : NodeId}
    (h : s.firstChild dir = some child) : s.IsChild dir child := by
  unfold firstChild at h
  split at h
  · simpa using List.find?_some h
  · cases h

/-- What removing things below `dir` leaves of a state: the working directory is
not moved, every slot is as it was or cleared, and a cleared one lay below `dir`. -/
structure PrunedBelow (s : State) (dir : NodeId) (s' : State) : Prop where
  cwd_eq : s'.cwd = s.cwd
  kept_or_cleared : ∀ n, s'.nodes n = s.nodes n ∨ s'.nodes n = Node.empty
  kept : ∀ n, ¬s.Below dir n → s'.nodes n = s.nodes n

theorem PrunedBelow.refl (s : State) (dir : NodeId) : PrunedBelow s dir s :=
  ⟨rfl, fun _ => Or.inl rfl, fun _ _ => rfl⟩

/-- A child in the pruned state was a child before. -/
theorem PrunedBelow.isChild {s s' : State} {dir a b : NodeId} (h : PrunedBelow s dir s')
    (hchild : s'.IsChild a b) : s.IsChild a b := by
  obtain ⟨hlive, hparent, hne⟩ := hchild
  rcases h.kept_or_cleared b with hb | hb
  · exact ⟨by rwa [Live, hb] at hlive, by rwa [hb] at hparent, hne⟩
  · exact absurd (by rw [hb]; rfl) hlive

theorem PrunedBelow.below {s s' : State} {dir a b : NodeId} (h : PrunedBelow s dir s')
    (hbelow : s'.Below a b) : s.Below a b :=
  TransGen.mono (fun _ _ => h.isChild) _ _ hbelow

/-- Pruning below `dir` twice, the first time perhaps only below a node under it. -/
theorem PrunedBelow.trans {s s' s'' : State} {dir sub : NodeId} (h : PrunedBelow s sub s')
    (hsub : ∀ n, s.Below sub n → s.Below dir n) (h' : PrunedBelow s' dir s'') :
    PrunedBelow s dir s'' where
  cwd_eq := h'.cwd_eq.trans h.cwd_eq
  kept_or_cleared n := by
    rcases h'.kept_or_cleared n with hn | hn
    · rw [hn]; exact h.kept_or_cleared n
    · exact Or.inr hn
  kept n hn := by
    rw [h'.kept n fun hb => hn (h.below hb)]
    exact h.kept n fun hb => hn (hsub n hb)

theorem unlink_cwd (s : State) (node : NodeId) : (s.unlink node).2.cwd = s.cwd := by
  rcases s.unlink_cases node with ⟨_, heq⟩ | ⟨_, _, _, heq⟩
  · rw [heq]
  · rw [heq]; rfl

theorem unlink_nodes_of_ne (s : State) {node n : NodeId} (h : n ≠ node) :
    (s.unlink node).2.nodes n = s.nodes n := by
  rcases s.unlink_cases node with ⟨_, heq⟩ | ⟨_, _, _, heq⟩
  · rw [heq]
  · rw [heq]; exact setNode_of_ne s _ h

/-- Removing one child prunes below its directory. -/
theorem PrunedBelow.unlink {s : State} {dir child : NodeId} (h : s.IsChild dir child) :
    PrunedBelow s dir (s.unlink child).2 where
  cwd_eq := s.unlink_cwd child
  kept_or_cleared n := by
    rcases s.unlink_cases child with ⟨_, heq⟩ | ⟨_, _, _, heq⟩
    · rw [heq]; exact Or.inl rfl
    · rw [heq]
      by_cases hn : n = child
      · subst hn; exact Or.inr (setNode_self s n _)
      · exact Or.inl (setNode_of_ne s _ hn)
  kept n hn := by
    refine s.unlink_nodes_of_ne ?_
    rintro rfl
    exact hn (.single h)

/-- The recursive remove keeps the representation invariant and prunes below its
directory. -/
theorem rmRecursive_spec (fuel : Nat) : ∀ {s s' : State} {dir : NodeId},
    s.WellFormed → rmRecursive fuel s dir = some s' → s'.WellFormed ∧ PrunedBelow s dir s' := by
  induction fuel with
  | zero =>
      intro s s' dir _ h
      simp [rmRecursive] at h
  | succ fuel ih =>
      intro s s' dir wf h
      unfold rmRecursive at h
      cases hc : s.firstChild dir with
      | none =>
          simp only [hc, Option.some.injEq] at h
          subst h
          exact ⟨wf, .refl s dir⟩
      | some child =>
          simp only [hc, Option.bind_eq_some_iff] at h
          obtain ⟨s₁, hclear, hrest⟩ := h
          have hchild := firstChild_isChild hc
          have hsub : ∀ n, s.Below child n → s.Below dir n := fun n hn => .head hchild hn
          have hfirst : s₁.WellFormed ∧ PrunedBelow s child s₁ := by
            split at hclear
            · exact ih wf hclear
            · cases hclear
              exact ⟨wf, .refl s child⟩
          obtain ⟨wf₁, hpruned₁⟩ := hfirst
          obtain ⟨wf', hpruned'⟩ := ih (wf₁.unlink child) hrest
          refine ⟨wf', hpruned₁.trans hsub ?_⟩
          -- The child itself is still a child, unless the tree below it held it.
          by_cases hstill : s₁.IsChild dir child
          · exact (PrunedBelow.unlink hstill).trans (fun _ hn => hn) hpruned'
          · have hfree : ¬s₁.Live child := by
              intro hlive
              rcases hpruned₁.kept_or_cleared child with hn | hn
              · exact hstill ⟨hlive, by rw [hn]; exact hchild.2.1, hchild.2.2⟩
              · exact hlive (by rw [hn]; rfl)
            have hsame : (s₁.unlink child).2 = s₁ := by
              rcases s₁.unlink_cases child with ⟨_, heq⟩ | ⟨_, hlive, _⟩
              · rw [heq]
              · exact absurd hlive hfree
            rwa [hsame] at hpruned'

/-- What every removal of a node keeps, the recursive remove keeps. -/
theorem rmRecursive_induction {P : State → Prop} (hunlink : ∀ s i, P s → P (s.unlink i).2)
    {fuel : Nat} {s s' : State} {dir : NodeId} (hs : P s) (h : rmRecursive fuel s dir = some s') :
    P s' := by
  induction fuel generalizing s s' dir with
  | zero => cases h
  | succ fuel ih =>
      unfold rmRecursive at h
      cases hc : s.firstChild dir with
      | none =>
          simp only [hc, Option.some.injEq] at h
          rwa [← h]
      | some child =>
          simp only [hc, Option.bind_eq_some_iff] at h
          obtain ⟨s₁, hclear, hrest⟩ := h
          have hfirst : P s₁ := by
            split at hclear
            · exact ih hs hclear
            · cases hclear
              exact hs
          exact ih (hunlink s₁ child hfirst) hrest

end State

/-! ## Runs of the operations that the shell and the syscalls reach -/

/-- The requests that can reach the working directory: the ones on nodes, the
recursive remove of the shell, and `set_cwd`. -/
inductive ShellOp where
  | node (op : Op NodeId)
  | rmRecursive (dir : NodeId)
  | setCwd (node : NodeId)

/-- A step of the file system under the shell and the syscalls. -/
inductive ShellStep : State → ShellOp → State → Prop
  | node {s : State} {op : Op NodeId} (fits : State.FitsU32 op) :
      ShellStep s (.node op) (s.exec op).2
  | rmRecursive {s s' : State} {dir : NodeId} {fuel : Nat}
      (done : s.rmRecursive fuel dir = some s') : ShellStep s (.rmRecursive dir) s'
  | setCwd {s : State} {node : NodeId} : ShellStep s (.setCwd node) (s.setCwd node)

/-- The working directory is a live directory whose parent chain reaches the root. -/
def CwdValid (s : State) : Prop := (s.nodes s.cwd).kind = .dir ∧ s.RootedAt s.cwd

/-- The removal that a request asks for leaves the working directory alone: it is
not the empty directory that `unlink` is called on, and it does not lie below the
directory that is removed recursively. -/
def SparesCwd (s : State) : ShellOp → Prop
  | .node (.unlink node) => ¬(node = s.cwd ∧ node ≠ root ∧ ∀ i, ¬s.IsChild node i)
  | .rmRecursive dir => ¬s.Below dir s.cwd
  | _ => True

/-- A step whose removal leaves the working directory alone. -/
def SparingStep (s : State) (op : ShellOp) (s' : State) : Prop :=
  SparesCwd s op ∧ ShellStep s op s'

/-- The slot of the working directory and what is in it are as before. -/
def CwdKept (s s' : State) : Prop := s'.cwd = s.cwd ∧ s'.nodes s.cwd = s.nodes s.cwd

theorem cwdKept_setNode {s : State} {i : NodeId} {n : Node} (h : i ≠ s.cwd) :
    CwdKept s (s.setNode i n) := ⟨rfl, State.setNode_of_ne s n h.symm⟩

/-- No operation on nodes other than a removal touches a directory. -/
theorem cwdKept_exec {s : State} (hdir : (s.nodes s.cwd).kind = .dir) {op : Op NodeId}
    (fits : State.FitsU32 op) (spares : SparesCwd s (.node op)) :
    CwdKept s (s.exec op).2 := by
  have hlive : s.Live s.cwd := by simp [State.Live, hdir]
  have hfresh : ∀ i, ¬s.Live i → i ≠ s.cwd := fun i hi heq => hi (heq ▸ hlive)
  have hfile : ∀ i, (s.nodes i).kind = .file → i ≠ s.cwd := by
    rintro i hi rfl
    rw [hdir] at hi
    cases hi
  cases op with
  | mkdir dir name =>
      rcases s.mkdir_cases dir name with ⟨i, _, _, _, hfree, heq⟩ | ⟨_, heq⟩
      · simp only [State.exec, heq]
        exact cwdKept_setNode (hfresh i hfree)
      · simp only [State.exec, heq]
        exact ⟨rfl, rfl⟩
  | createFile dir name =>
      rcases s.createFile_cases dir name with
        ⟨i, _, _, _, hfree, heq⟩ | ⟨_, _, _, _, heq⟩ | ⟨_, heq⟩
      · simp only [State.exec, heq]
        exact cwdKept_setNode (hfresh i hfree)
      · simp only [State.exec, heq]
        exact ⟨rfl, rfl⟩
      · simp only [State.exec, heq]
        exact ⟨rfl, rfl⟩
  | write node bytes =>
      rcases s.write_cases node fits with ⟨_, heq⟩ | ⟨hk, _, heq⟩ | ⟨hk, _, _, heq⟩
      · simp only [State.exec, heq]
        exact ⟨rfl, rfl⟩
      · simp only [State.exec, heq]
        exact ⟨rfl, State.restore_of_ne (hfile node hk).symm⟩
      · simp only [State.exec, heq]
        exact ⟨rfl, State.restore_of_ne (hfile node hk).symm⟩
  | append node bytes =>
      rcases s.append_cases node bytes with ⟨_, heq⟩ | ⟨hk, _, heq⟩
      · simp only [State.exec, heq]
        exact ⟨rfl, rfl⟩
      · simp only [State.exec, heq]
        exact ⟨rfl, State.restore_of_ne (hfile node hk).symm⟩
  | read node => exact ⟨rfl, rfl⟩
  | unlink node =>
      rcases s.unlink_cases node with ⟨_, heq⟩ | ⟨hroot, _, hempty, heq⟩
      · simp only [State.exec, heq]
        exact ⟨rfl, rfl⟩
      · simp only [State.exec, heq]
        refine cwdKept_setNode ?_
        rintro rfl
        exact spares ⟨rfl, hroot, hempty hdir⟩

theorem CwdKept.valid {s s' : State} (h : CwdKept s s') (wf' : s'.WellFormed)
    (hv : CwdValid s) : CwdValid s' := by
  have hdir : (s'.nodes s'.cwd).kind = .dir := by rw [h.1, h.2]; exact hv.1
  exact ⟨hdir, wf'.rooted s'.cwd (by simp [State.Live, hdir])⟩

/-- One step that spares the working directory keeps the invariant; any such step
but `set_cwd` also keeps the working directory itself. -/
theorem sparingStep_spec {s s' : State} {op : ShellOp} (wf : s.WellFormed) (hv : CwdValid s)
    (h : SparingStep s op s') :
    s'.WellFormed ∧ CwdValid s' ∧ ((∀ node, op ≠ .setCwd node) → CwdKept s s') := by
  obtain ⟨spares, hstep⟩ := h
  cases hstep with
  | node fits =>
      have hkept := cwdKept_exec hv.1 fits spares
      have wf' := wf.exec fits
      exact ⟨wf', hkept.valid wf' hv, fun _ => hkept⟩
  | rmRecursive done =>
      obtain ⟨wf', hpruned⟩ := State.rmRecursive_spec _ wf done
      have hkept : CwdKept s s' := ⟨hpruned.cwd_eq, hpruned.kept s.cwd spares⟩
      exact ⟨wf', hkept.valid wf' hv, fun _ => hkept⟩
  | @setCwd node =>
      refine ⟨wf.setCwd node, ?_, fun hne => absurd rfl (hne node)⟩
      unfold State.setCwd
      split
      · rename_i hdir
        exact ⟨hdir, wf.rooted node (by simp [State.Live, hdir])⟩
      · exact hv

theorem init_cwdValid : CwdValid State.init := by
  have hcwd := State.init_built.2.2
  have hdir : (State.init.nodes State.init.cwd).kind = .dir := by
    rw [hcwd]; exact State.init_wellFormed.root_dir
  exact ⟨hdir, State.init_wellFormed.rooted _ (by simp [State.Live, hdir])⟩

/-- In every run whose removals spare the working directory, it is in every state
reached a live directory with a parent chain to the root, and only `set_cwd`
makes it another one. -/
theorem cwd_valid_of_sparing_run {s : State} {h : List ShellOp}
    (run : Run SparingStep State.init h s) :
    CwdValid s ∧ ∀ op s', SparingStep s op s' → (∀ node, op ≠ .setCwd node) → CwdKept s s' := by
  have hinv : s.WellFormed ∧ CwdValid s := by
    refine run.invariant_state (fun s => s.WellFormed ∧ CwdValid s)
      ⟨State.init_wellFormed, init_cwdValid⟩ ?_
    intro s op s' hs hstep
    obtain ⟨wf', hv', _⟩ := sparingStep_spec hs.1 hs.2 hstep
    exact ⟨wf', hv'⟩
  exact ⟨hinv.2, fun op s' hstep => (sparingStep_spec hinv.1 hinv.2 hstep).2.2⟩

/-- A run as in `cwd_valid_of_sparing_run`: a directory is made and entered, and
another one is removed. -/
theorem cwd_valid_after_remove_elsewhere :
    let s := (((State.init.exec (.mkdir root (ascii "x"))).2.setCwd 11).exec (.unlink 1)).2
    CwdValid s ∧ ∀ op s', SparingStep s op s' → (∀ node, op ≠ .setCwd node) → CwdKept s s' :=
  cwd_valid_of_sparing_run (h := [.node (.mkdir root (ascii "x")), .setCwd 11, .node (.unlink 1)])
    (.snoc (.snoc (.snoc .nil ⟨trivial, .node trivial⟩) ⟨trivial, .setCwd⟩)
      ⟨by
        have hcwd : ((State.init.exec (.mkdir root (ascii "x"))).2.setCwd 11).cwd ≠ 1 := by
          rw [State.init_eq]
          decide +kernel
        exact fun hn => hcwd hn.1.symm, .node trivial⟩)

/-- The removal of the working directory leaves it on a slot that the next file
takes: make a directory, enter it, remove it, create a file. -/
theorem cwd_on_reused_slot :
    ∃ s, Run ShellStep State.init
      [.node (.mkdir root (ascii "x")), .setCwd 11, .node (.unlink 11),
        .node (.createFile root (ascii "y"))] s ∧
      ¬CwdValid s ∧ (s.nodes s.cwd).kind = .file ∧ (s.nodes s.cwd).name.bytes = ascii "y" := by
  refine ⟨_, .snoc (.snoc (.snoc (.snoc .nil (.node trivial)) .setCwd) (.node trivial))
    (.node trivial), ?_⟩
  have hkind : ∀ s : State, (s.nodes s.cwd).kind = .file → ¬CwdValid s := by
    intro s hs hv
    rw [hv.1] at hs
    cases hs
  have hlast : ∀ s : State,
      (s.nodes s.cwd).kind = .file ∧ (s.nodes s.cwd).name.bytes = ascii "y" →
      ¬CwdValid s ∧ (s.nodes s.cwd).kind = .file ∧ (s.nodes s.cwd).name.bytes = ascii "y" :=
    fun s hs => ⟨hkind s hs.1, hs⟩
  refine hlast _ ?_
  rw [State.init_eq]
  decide +kernel

end PureOS.Fs
