import Mathlib.Algebra.BigOperators.Group.Finset.Basic
import Mathlib.Algebra.Order.BigOperators.Group.Finset
import Mathlib.Order.Interval.Finset.Nat
import PureOS.Barrel.Language
import PureOS.Foundation.Preorder
import PureOS.Fs.Remove

set_option autoImplicit false

/-!
# Fs: walks over the tree (`commands.rs`)

`tree` writes a line for each node that it meets, `du` adds the lengths up.  The parent pointers of
a well-formed table make a forest, so both meet every node below their start once.  The files have
the pool in disjoint stretches, so the sum is at most its size.
-/

namespace PureOS.Fs

open PureOS.Foundation PureOS.Barrel Relation

namespace State

/-- `for_each_child` with a callback that leaves the tree alone and adds to what it has. -/
def overChildren {β : Type} (s : State) (dir : NodeId) (f : β → NodeId → β) (acc : β) : β :=
  if (s.nodes dir).kind ≠ .dir then acc
  else (List.finRange maxNodes).foldl (fun acc i => if s.IsChild dir i then f acc i else acc) acc

/-! ## `tree` -/

/-- The line that `tree_walk` writes for a child. -/
def treeLine (s : State) (depth : Nat) (child : NodeId) : List UInt8 :=
  (List.replicate depth (ascii "  ")).flatten ++ ascii "|- " ++ (s.nodes child).name.bytes ++
    (if (s.nodes child).kind = .dir then ascii "/" else []) ++ ascii "\n"

/-- `tree_walk`: what is written. -/
def treeWalk (s : State) (dir : NodeId) (depth : Nat) : List UInt8 :=
  if (s.nodes dir).kind ≠ .dir ∨ 8 < depth then []
  else
    s.overChildren dir (fun out child =>
      out ++ (s.treeLine depth child ++
        if (s.nodes child).kind = .dir then s.treeWalk child (depth + 1) else [])) []
termination_by 9 - depth

/-- The directory that `tree` and `du` start with: the working directory if no path is given. -/
def startOf (s : State) (path : List UInt8) : Option NodeId :=
  if path = [] then some s.cwd else s.scanFrom s.cwd path

/-- `cmd_tree`: what is written. -/
def cmdTree (args : List UInt8) (s : State) : List UInt8 :=
  match s.startOf args with
  | none => ascii "tree: no such path\n"
  | some dir => (s.nodes dir).name.bytes ++ ascii "\n" ++ s.treeWalk dir 1

/-! ## `du` -/

/-- `du_sum`, with a bound on the depth of its calls.  `none` is an exhausted bound. -/
def duSum (s : State) : Nat → NodeId → Option Nat
  | 0, _ => none
  | fuel + 1, node =>
      if (s.nodes node).kind = .dir then
        s.overChildren node (fun total c => do
          let total ← total
          let sum ← s.duSum fuel c
          return asU32 (total + sum)) (some (s.sizeOf node))
      else some (s.sizeOf node)

/-- The flag that `cmd_du` knows. -/
def DuHuman (args : List UInt8) : Prop :=
  3 ≤ args.length ∧ args[0]? = some 45 ∧ args[1]? = some 115 ∧ args[2]? = some 104

instance (args : List UInt8) : Decidable (DuHuman args) := inferInstanceAs (Decidable (_ ∧ _))

/-- The path that `cmd_du` is given. -/
def duPath (args : List UInt8) : List UInt8 :=
  if DuHuman args then if args.length ≤ 3 then [] else args.drop 4 else args

/-- `terminal::write_num(n as u64)`. -/
def num (n : Nat) : List UInt8 := writeNum (BitVec.ofNat 64 n)

/-- The end of `cmd_du`: the size, scaled if so wanted, and the name. -/
def duReport (human : Bool) (size : Nat) (name : List UInt8) : List UInt8 :=
  let shown :=
    if human then
      if 1024 * 1024 ≤ size then num (size / (1024 * 1024)) ++ ascii "M"
      else if 1024 ≤ size then num (size / 1024) ++ ascii "K"
      else num size ++ ascii "B"
    else num size
  shown ++ ascii "\t" ++ name ++ ascii "\n"

/-- `cmd_du`: what is written, with a bound as for `duSum`.  The working directory is taken as it
is, a path must lead to a directory. -/
def cmdDu (fuel : Nat) (args : List UInt8) (s : State) : Option (List UInt8) :=
  match s.startOf (duPath args) with
  | none => some (ascii "du: no such path\n")
  | some dir =>
      if duPath args ≠ [] ∧ s.kind dir ≠ .dir then some (ascii "du: not a directory\n")
      else (s.duSum fuel dir).map fun size =>
        duReport (decide (DuHuman args)) size (s.nodes dir).name.bytes

/-! ## The forest -/

section Forest

variable {s : State} {dir i : NodeId} {k n d : Nat}

/-- The children that `for_each_child` visits, in its order. -/
def children (s : State) (dir : NodeId) : List NodeId :=
  if (s.nodes dir).kind ≠ .dir then []
  else (List.finRange maxNodes).filter (s.IsChild dir ·)

theorem overChildren_eq {β : Type} (s : State) (dir : NodeId) (f : β → NodeId → β) (acc : β) :
    s.overChildren dir f acc = (s.children dir).foldl f acc := by
  unfold overChildren children
  split
  · rfl
  · rw [List.foldl_filter]
    simp only [decide_eq_true_eq]

theorem mem_children (wf : s.WellFormed) (dir i : NodeId) :
    i ∈ s.children dir ↔ s.IsChild dir i := by
  by_cases hdir : (s.nodes dir).kind = .dir
  · simp [children, hdir]
  · simp [children, hdir, wf.not_isChild_of_file hdir i]

theorem children_nodup (s : State) (dir : NodeId) : (s.children dir).Nodup := by
  unfold children
  split
  · exact List.nodup_nil
  · exact (List.nodup_finRange maxNodes).filter _

theorem children_of_not_dir (h : (s.nodes dir).kind ≠ .dir) : s.children dir = [] := if_pos h

/-- A node names its parent, and no chain of parents comes back. -/
theorem WellFormed.isForest (wf : s.WellFormed) : IsForest s.IsChild where
  parent_unique _ _ _ ha hb := ha.2.1.symm.trans hb.2.1
  acyclic := not_below_self wf

/-- Each level down leaves fewer nodes below. -/
theorem level_le (wf : s.WellFormed) (h : Level s.IsChild k dir i) :
    k ≤ {i | s.Below dir i}.ncard := by
  induction h with
  | child step =>
      exact (Set.ncard_pos (Set.toFinite _)).mpr ⟨_, TransGen.single step⟩
  | down step _ ih => exact Nat.succ_le_of_lt (Nat.lt_of_le_of_lt ih (ncard_below_child wf step))

/-- The size of the table is more than there are levels. -/
theorem level_lt (wf : s.WellFormed) (h : Level s.IsChild k dir i) : k < maxNodes :=
  Nat.lt_of_le_of_lt (level_le wf h) (ncard_below_lt wf)

end Forest

/-! ## What `tree` writes -/

section Tree

variable {s : State} {dir : NodeId} {n d : Nat}

theorem treeWalk_of_not_dir (h : (s.nodes dir).kind ≠ .dir) : s.treeWalk dir d = [] := by
  rw [treeWalk, if_pos (Or.inl h)]

/-- The lines are the ones of the walk, from the level on that the indentation shows. -/
theorem treeWalk_eq (s : State) (h : d + n = 9) :
    s.treeWalk dir d = (preorder s.children n d dir).flatMap fun p => s.treeLine p.1 p.2 := by
  induction n generalizing d dir with
  | zero => rw [treeWalk, if_pos (Or.inr (by omega)), preorder, List.flatMap_nil]
  | succ n ih =>
      by_cases hdir : (s.nodes dir).kind = .dir
      · have hgo : ¬((s.nodes dir).kind ≠ .dir ∨ 8 < d) :=
          not_or.mpr ⟨not_not.mpr hdir, by omega⟩
        rw [treeWalk, if_neg hgo, overChildren_eq, ← List.flatMap_eq_foldl, preorder,
          List.flatMap_assoc]
        congr 1
        funext child
        rw [List.flatMap_cons, ← ih (by omega)]
        congr 1
        split
        · rfl
        · rename_i hchild
          exact (treeWalk_of_not_dir hchild).symm
      · rw [treeWalk_of_not_dir hdir, preorder, children_of_not_dir hdir, List.flatMap_nil,
          List.flatMap_nil]

end Tree

/-! ## What `du` adds up -/

section Du

variable {s : State} {dir node : NodeId} {n d : Nat}

/-- The lengths of a node and of all that is below it. -/
noncomputable def usage (s : State) (dir : NodeId) : Nat :=
  ∑ i ∈ (Set.toFinite {i | i = dir ∨ s.Below dir i}).toFinset, s.sizeOf i

/-- The sum along the walk, with the start itself. -/
def walkSum (s : State) (n d : Nat) (node : NodeId) : Nat :=
  s.sizeOf node + ((preorder s.children n d node).map fun p => s.sizeOf p.2).sum

theorem walkSum_succ (s : State) (n d : Nat) (node : NodeId) :
    s.walkSum (n + 1) d node =
      s.sizeOf node + ((s.children node).map (s.walkSum n (d + 1))).sum := by
  rw [walkSum, preorder]
  congr 1
  induction s.children node with
  | nil => rfl
  | cons c l ih =>
      rw [List.flatMap_cons, List.map_append, List.sum_append, ih, List.map_cons, List.map_cons,
        List.sum_cons, List.sum_cons, walkSum]

/-- While the sum fits, nothing is lost in the loop over the children. -/
theorem foldl_duSum {l : List NodeId} {g : NodeId → Option Nat} {v : NodeId → Nat} {acc : Nat}
    (hg : ∀ c ∈ l, g c = some (v c)) (hlt : acc + (l.map v).sum < 2 ^ 32) :
    l.foldl (fun total c => do
      let total ← total
      let sum ← g c
      return asU32 (total + sum)) (some acc) = some (acc + (l.map v).sum) := by
  induction l generalizing acc with
  | nil => rfl
  | cons c l ih =>
      rw [List.map_cons, List.sum_cons, ← Nat.add_assoc] at hlt ⊢
      rw [List.foldl_cons, hg c List.mem_cons_self]
      have hfits : asU32 (acc + v c) = acc + v c := asU32_of_lt (by omega)
      simp only [Option.bind_eq_bind, Option.bind_some, pure, hfits]
      exact ih (fun b hb => hg b (List.mem_cons_of_mem c hb)) hlt

theorem duSum_succ {v : NodeId → Nat} (hv : ∀ c ∈ s.children node, s.duSum n c = some (v c))
    (hlt : s.sizeOf node + ((s.children node).map v).sum < 2 ^ 32) :
    s.duSum (n + 1) node = some (s.sizeOf node + ((s.children node).map v).sum) := by
  rw [duSum]
  by_cases hdir : (s.nodes node).kind = .dir
  · rw [if_pos hdir, overChildren_eq]
    exact foldl_duSum hv hlt
  · rw [if_neg hdir, children_of_not_dir hdir]
    rfl

/-- With a bound that is more than there are levels, `du_sum` is the sum along the walk. -/
theorem duSum_eq (wf : s.WellFormed) (hlevels : ∀ k i, Level s.IsChild k node i → k ≤ n)
    (hlt : s.walkSum n d node < 2 ^ 32) : s.duSum (n + 1) node = some (s.walkSum n d node) := by
  induction n generalizing d node with
  | zero =>
      have hnone : s.children node = [] := by
        refine List.eq_nil_iff_forall_not_mem.mpr fun c hc => ?_
        exact absurd (hlevels 1 c (.child ((mem_children wf node c).mp hc))) (by omega)
      have hsum : s.walkSum 0 d node = s.sizeOf node + ((s.children node).map fun _ => 0).sum := by
        rw [hnone, walkSum, preorder]
        rfl
      rw [hsum] at hlt ⊢
      refine duSum_succ (fun c hc => ?_) hlt
      rw [hnone] at hc
      exact absurd hc List.not_mem_nil
  | succ n ih =>
      rw [walkSum_succ] at hlt ⊢
      refine duSum_succ (fun c hc => ih (fun k i hlevel => ?_) ?_) hlt
      · exact Nat.le_of_succ_le_succ
          (hlevels (k + 1) i (.down ((mem_children wf node c).mp hc) hlevel))
      · have hle := List.single_le_sum (fun _ _ => Nat.zero_le _) _
          (List.mem_map_of_mem (f := s.walkSum n (d + 1)) hc)
        omega

/-- The walk meets what is below its start once, so that the sum is the usage. -/
theorem walkSum_eq_usage (wf : s.WellFormed) (hlevels : ∀ k i, Level s.IsChild k node i → k ≤ n) :
    s.walkSum n d node = s.usage node := by
  obtain ⟨l, hl⟩ : ∃ l, l = (preorder s.children n d node).map Prod.snd := ⟨_, rfl⟩
  have hmem : ∀ i, i ∈ l ↔ s.Below node i := by
    intro i
    rw [hl, List.mem_map]
    constructor
    · rintro ⟨p, hp, rfl⟩
      exact below_of_mem_preorder (mem_children wf) hp
    · intro hbelow
      obtain ⟨k, hlevel⟩ := Level.of_transGen hbelow
      have hpos := hlevel.pos
      exact ⟨(d + k - 1, i), (mem_preorder (mem_children wf)).mpr
        ⟨k, hlevels k i hlevel, by omega, hlevel⟩, rfl⟩
  have hnodup : (node :: l).Nodup := by
    rw [List.nodup_cons, hmem, hl]
    exact ⟨not_below_self wf node,
      preorder_nodup (mem_children wf) wf.isForest s.children_nodup⟩
  have hset : (Set.toFinite {i | i = node ∨ s.Below node i}).toFinset = (node :: l).toFinset := by
    ext i
    rw [Set.Finite.mem_toFinset, List.mem_toFinset, List.mem_cons, hmem]
    exact Iff.rfl
  rw [usage, hset, List.sum_toFinset _ hnodup, List.map_cons, List.sum_cons, walkSum, hl,
    List.map_map]
  rfl

/-! ## What it cannot exceed -/

/-- Disjoint stretches below a bound are together at most as long. -/
theorem sum_le_of_apart {ι : Type} (S : Finset ι) (off cap : ι → Nat) {top : Nat}
    (hbelow : ∀ i ∈ S, off i + cap i ≤ top)
    (happart : ∀ i ∈ S, ∀ j ∈ S, i ≠ j → off i + cap i ≤ off j ∨ off j + cap j ≤ off i) :
    ∑ i ∈ S, cap i ≤ top := by
  classical
  have hdisjoint : (S : Set ι).PairwiseDisjoint fun i => Finset.Ico (off i) (off i + cap i) := by
    intro i hi j hj hne
    change Disjoint _ _
    rw [Finset.disjoint_left]
    intro x hx hx'
    rw [Finset.mem_Ico] at hx hx'
    have := happart i hi j hj hne
    omega
  calc ∑ i ∈ S, cap i
      = ∑ i ∈ S, (Finset.Ico (off i) (off i + cap i)).card := by
        simp only [Nat.card_Ico, Nat.add_sub_cancel_left]
    _ = (S.biUnion fun i => Finset.Ico (off i) (off i + cap i)).card :=
        (Finset.card_biUnion hdisjoint).symm
    _ ≤ (Finset.range top).card := by
        refine Finset.card_le_card fun x hx => ?_
        obtain ⟨i, hi, hx⟩ := Finset.mem_biUnion.mp hx
        rw [Finset.mem_Ico] at hx
        exact Finset.mem_range.mpr (Nat.lt_of_lt_of_le hx.2 (hbelow i hi))
    _ = top := Finset.card_range top

/-- Only files have a length. -/
def OnlyFilesLong (s : State) : Prop := ∀ i, (s.nodes i).kind ≠ .file → (s.nodes i).dataLen = 0

/-- What is used does not reach beyond the bump pointer. -/
theorem usage_le (wf : s.WellFormed) (honly : s.OnlyFilesLong) : s.usage dir ≤ s.dataNext := by
  classical
  obtain ⟨S, hS⟩ : ∃ S, S = (Set.toFinite {i | i = dir ∨ s.Below dir i}).toFinset := ⟨_, rfl⟩
  have hfile : ∀ i ∈ S.filter fun i => (s.nodes i).kind = .file, (s.nodes i).kind = .file :=
    fun i hi => (Finset.mem_filter.mp hi).2
  calc s.usage dir
      = ∑ i ∈ S.filter fun i => (s.nodes i).kind = .file, s.sizeOf i := by
        rw [usage, ← hS]
        refine (Finset.sum_filter_of_ne fun i _ hne => ?_).symm
        by_contra hk
        exact hne (honly i hk)
    _ ≤ ∑ i ∈ S.filter fun i => (s.nodes i).kind = .file, (s.nodes i).dataCap :=
        Finset.sum_le_sum fun i hi => wf.len_le_cap i (hfile i hi)
    _ ≤ s.dataNext := by
        refine sum_le_of_apart _ (fun i => (s.nodes i).dataOff) _ ?_ ?_
        · exact fun i hi => wf.extent_below i (hfile i hi)
        · exact fun i hi j hj hne => wf.extents_apart i j (hfile i hi) (hfile j hj) hne

end Du

/-! ## Over a run -/

section Run

variable {s : State}

theorem onlyFilesLong_setNode (h : s.OnlyFilesLong) {i : NodeId} {n : Node} (hn : n.dataLen = 0) :
    (s.setNode i n).OnlyFilesLong := by
  intro j hj
  by_cases hji : j = i
  · subst hji
    rw [setNode_self, hn]
  · rw [setNode_of_ne s n hji] at hj ⊢
    exact h j hj

theorem onlyFilesLong_restore (h : s.OnlyFilesLong) {i : NodeId} (hk : (s.nodes i).kind = .file)
    {data : Nat → UInt8} {next off len cap : Nat} :
    (s.restore i data next off len cap).OnlyFilesLong := by
  intro j hj
  by_cases hji : j = i
  · subst hji
    rw [(restore_shape j).1] at hj
    exact absurd hk hj
  · rw [restore_of_ne hji] at hj ⊢
    exact h j hj

theorem onlyFilesLong_mkdir (h : s.OnlyFilesLong) (dir : NodeId) (name : List UInt8) :
    (s.mkdir dir name).2.OnlyFilesLong := by
  rcases s.mkdir_cases dir name with ⟨i, -, -, -, -, heq⟩ | ⟨-, heq⟩
  · rw [heq]
    exact onlyFilesLong_setNode h rfl
  · rw [heq]
    exact h

theorem onlyFilesLong_createFile (h : s.OnlyFilesLong) (dir : NodeId) (name : List UInt8) :
    (s.createFile dir name).2.OnlyFilesLong := by
  rcases s.createFile_cases dir name with ⟨i, -, -, -, -, heq⟩ | ⟨i, -, -, -, heq⟩ | ⟨-, heq⟩
  · rw [heq]
    exact onlyFilesLong_setNode h rfl
  · rw [heq]
    exact h
  · rw [heq]
    exact h

theorem onlyFilesLong_write (h : s.OnlyFilesLong) (node : NodeId) {bytes : List UInt8}
    (hlen : bytes.length < 2 ^ 32) : (s.write node bytes).2.OnlyFilesLong := by
  rcases s.write_cases node hlen with ⟨-, heq⟩ | ⟨hk, -, heq⟩ | ⟨hk, -, -, heq⟩
  · rw [heq]
    exact h
  · rw [heq]
    exact onlyFilesLong_restore h hk
  · rw [heq]
    exact onlyFilesLong_restore h hk

theorem onlyFilesLong_unlink (h : s.OnlyFilesLong) (node : NodeId) :
    (s.unlink node).2.OnlyFilesLong := by
  rcases s.unlink_cases node with ⟨-, heq⟩ | ⟨-, -, -, heq⟩
  · rw [heq]
    exact h
  · rw [heq]
    exact onlyFilesLong_setNode h rfl

theorem onlyFilesLong_exec (h : s.OnlyFilesLong) {op : Op NodeId} (fits : FitsU32 op) :
    (s.exec op).2.OnlyFilesLong := by
  cases op with
  | mkdir dir name => exact onlyFilesLong_mkdir h dir name
  | createFile dir name => exact onlyFilesLong_createFile h dir name
  | write node bytes => exact onlyFilesLong_write h node fits
  | append node bytes =>
      rcases s.append_cases node bytes with ⟨-, heq⟩ | ⟨hk, -, heq⟩
      · simp only [exec, heq]
        exact h
      · simp only [exec, heq]
        exact onlyFilesLong_restore h hk
  | read node => exact h
  | unlink node => exact onlyFilesLong_unlink h node

/-- What is pruned is cleared. -/
theorem onlyFilesLong_pruned {dir : NodeId} {s' : State} (h : s.OnlyFilesLong)
    (hpruned : PrunedBelow s dir s') : s'.OnlyFilesLong := by
  intro i hi
  rcases hpruned.kept_or_cleared i with heq | heq
  · rw [heq] at hi ⊢
    exact h i hi
  · rw [heq]
    rfl

theorem onlyFilesLong_setCwd (h : s.OnlyFilesLong) (node : NodeId) :
    (s.setCwd node).OnlyFilesLong := by
  unfold setCwd
  split
  · exact h
  · exact h

theorem blank_onlyFilesLong : blank.OnlyFilesLong := by
  intro i _
  by_cases hi : i = root
  · subst hi
    simp [blank]
  · simp [blank, hi, Node.empty]

theorem init_onlyFilesLong : init.OnlyFilesLong :=
  KeptByBuilding.init
    { mkdir := fun _ dir name h => onlyFilesLong_mkdir h dir name
      createFile := fun _ dir name h => onlyFilesLong_createFile h dir name
      write := fun _ node _ hlen h => onlyFilesLong_write h node hlen } blank_onlyFilesLong

end Run

end State

theorem run_onlyFilesLong {s : State} {h : List ShellOp} (run : Run ShellStep State.init h s) :
    s.OnlyFilesLong := by
  have hboth : s.WellFormed ∧ s.OnlyFilesLong := by
    refine run.invariant_state (fun s => s.WellFormed ∧ s.OnlyFilesLong)
      ⟨State.init_wellFormed, State.init_onlyFilesLong⟩ ?_
    rintro s op s' ⟨wf, honly⟩ hstep
    cases hstep with
    | node fits => exact ⟨wf.exec fits, State.onlyFilesLong_exec honly fits⟩
    | rmRecursive done =>
        obtain ⟨wf', hpruned⟩ := State.rmRecursive_spec _ wf done
        exact ⟨wf', State.onlyFilesLong_pruned honly hpruned⟩
    | @setCwd node => exact ⟨wf.setCwd node, State.onlyFilesLong_setCwd honly node⟩
  exact hboth.2

/-- In every state that is reached, `tree` writes the name of its start and then a line for each
node that is at most eight levels below it, once, with its level in the indentation; what is below
a node stands right behind its line, and nothing of it elsewhere. -/
theorem cmdTree_lists {s : State} {h : List ShellOp} (run : Run ShellStep State.init h s)
    {args : List UInt8} {dir : NodeId} (hstart : s.startOf args = some dir) :
    ∃ lines : List (Nat × NodeId),
      s.cmdTree args = (s.nodes dir).name.bytes ++ ascii "\n" ++
        lines.flatMap (fun p => s.treeLine p.1 p.2) ∧
      (∀ k i, (k, i) ∈ lines ↔ k ≤ 8 ∧ Level s.IsChild k dir i) ∧
      (lines.map Prod.snd).Nodup ∧
      ∀ xs k i ys, lines = xs ++ (k, i) :: ys → ∃ ys₁ ys₂, ys = ys₁ ++ ys₂ ∧
        (∀ p ∈ ys₁, s.Below i p.2) ∧ ∀ p ∈ xs ++ ys₂, ¬s.Below i p.2 := by
  have wf := run_wellFormed_shell run
  have hmem := State.mem_children wf
  refine ⟨preorder s.children 8 1 dir, ?_, ?_, ?_, ?_⟩
  · rw [State.cmdTree, hstart, ← State.treeWalk_eq s (by rfl)]
  · intro k i
    rw [mem_preorder hmem]
    constructor
    · rintro ⟨k', hle, heq, hlevel⟩
      obtain rfl : k = k' := by omega
      exact ⟨hle, hlevel⟩
    · rintro ⟨hle, hlevel⟩
      exact ⟨k, hle, Nat.add_comm k 1, hlevel⟩
  · exact preorder_nodup hmem wf.isForest s.children_nodup
  · intro xs k i ys hsplit
    exact preorder_split hmem wf.isForest s.children_nodup hsplit

/-- `tree` without a path on the initialised file system. -/
theorem cmdTree_lists_init :
    ∃ lines : List (Nat × NodeId),
      State.init.cmdTree [] = (State.init.nodes State.init.cwd).name.bytes ++ ascii "\n" ++
        lines.flatMap (fun p => State.init.treeLine p.1 p.2) ∧
      (∀ k i, (k, i) ∈ lines ↔ k ≤ 8 ∧ Level State.init.IsChild k State.init.cwd i) ∧
      (lines.map Prod.snd).Nodup ∧
      ∀ xs k i ys, lines = xs ++ (k, i) :: ys → ∃ ys₁ ys₂, ys = ys₁ ++ ys₂ ∧
        (∀ p ∈ ys₁, State.init.Below i p.2) ∧ ∀ p ∈ xs ++ ys₂, ¬State.init.Below i p.2 :=
  cmdTree_lists .nil (if_pos rfl)

/-- In every state that is reached, `du` comes to an end and reports the lengths of its start and
of all that is below it, each counted once; that is never more than the pool. -/
theorem cmdDu_reports {s : State} {h : List ShellOp} (run : Run ShellStep State.init h s)
    {args : List UInt8} {dir : NodeId} (hstart : s.startOf (State.duPath args) = some dir)
    (hdir : State.duPath args ≠ [] → s.kind dir = .dir) {fuel : Nat} (hfuel : maxNodes ≤ fuel) :
    s.cmdDu fuel args = some (State.duReport (decide (State.DuHuman args)) (s.usage dir)
      (s.nodes dir).name.bytes) ∧ s.usage dir ≤ dataPool := by
  have wf := run_wellFormed_shell run
  have hpool : s.usage dir ≤ dataPool :=
    (State.usage_le wf (run_onlyFilesLong run)).trans wf.next_le_pool
  obtain ⟨n, rfl⟩ : ∃ n, fuel = n + 1 :=
    Nat.exists_eq_add_one.mpr (Nat.lt_of_lt_of_le (by decide) hfuel)
  have hlevels : ∀ k i, Level s.IsChild k dir i → k ≤ n := fun k i hlevel =>
    Nat.le_of_lt_succ (Nat.lt_of_lt_of_le (State.level_lt wf hlevel) hfuel)
  have hsum := State.walkSum_eq_usage (d := 0) wf hlevels
  have hrun : s.duSum (n + 1) dir = some (s.usage dir) := by
    rw [← hsum]
    refine State.duSum_eq wf hlevels ?_
    rw [hsum]
    exact Nat.lt_of_le_of_lt hpool (by decide)
  refine ⟨?_, hpool⟩
  rw [State.cmdDu, hstart]
  dsimp only
  rw [if_neg (fun hbad => hbad.2 (hdir hbad.1)), hrun, Option.map_some]

/-- `du -sh` on the initialised file system. -/
theorem cmdDu_reports_init :
    State.init.cmdDu maxNodes (ascii "-sh") = some (State.duReport true
      (State.init.usage State.init.cwd) (State.init.nodes State.init.cwd).name.bytes) ∧
    State.init.usage State.init.cwd ≤ dataPool := by
  have hpath : State.duPath (ascii "-sh") = [] := by decide
  exact cmdDu_reports .nil (if_pos hpath) (absurd hpath) (Nat.le_refl _)

end PureOS.Fs
