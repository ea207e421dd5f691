import Mathlib.Data.Set.Card
import PureOS.Fs.Commands

set_option autoImplicit false

/-!
# Fs: recursive removal (`commands.rs`)

`rm_recursive` looks for a first child, empties it when it is a directory, unlinks it, and looks
again.  Each turn leaves fewer nodes below the directory, so there is a last one; by then
nothing is below it, and what was never below it is as it was.
-/

namespace PureOS.Fs

open PureOS.Foundation Relation

namespace State

/-- `cmd_rm`: what it writes to the terminal and the state afterwards, with a bound as for
`rmRecursive`. -/
def cmdRm (fuel : Nat) (args : List UInt8) (s : State) : Option (List UInt8 × State) :=
  if args = [] then some (ascii "usage: rm [-rf] <path>\n", s)
  else
    let recursive := 3 ≤ args.length ∧ args[0]? = some 45 ∧ args[1]? = some 114
    let target :=
      if args[0]? = some 45 then ((args.drop 1).dropWhile (· ≠ 32)).dropWhile (· = 32) else args
    match s.scanFrom s.cwd target with
    | none => some (ascii "rm: no such file\n", s)
    | some node =>
        let cleared := if recursive ∧ s.kind node = .dir then s.rmRecursive fuel node else some s
        cleared.map fun s =>
          let (ok, s) := s.unlink node
          (if ok then [] else ascii "rm: not empty (use -rf) or root\n", s)

/-- What was below the directory is free, and nothing else is different. -/
structure Emptied (s : State) (dir : NodeId) (s' : State) : Prop where
  gone : ∀ i, s.Below dir i → s'.nodes i = Node.empty
  kept : ∀ i, ¬s.Below dir i → s'.nodes i = s.nodes i
  same_data : s'.data = s.data
  same_next : s'.dataNext = s.dataNext
  same_cwd : s'.cwd = s.cwd

/-! ## The search -/

section Search

variable {s s' : State} {dir i c : NodeId}

/-- The search fails only when there is no child. -/
theorem firstChild_eq_none (wf : s.WellFormed) (h : s.firstChild dir = none) (i : NodeId) :
    ¬s.IsChild dir i := by
  by_cases hdir : (s.nodes dir).kind = .dir
  · rw [firstChild, if_pos hdir, List.find?_eq_none] at h
    simpa using h i (List.mem_finRange i)
  · exact wf.not_isChild_of_file hdir i

/-! ## What is below a directory -/

theorem not_below_self (wf : s.WellFormed) (i : NodeId) : ¬s.Below i i := by
  intro h
  obtain ⟨b, -, hlast⟩ := TransGen.tail'_iff.mp h
  exact (wf.rooted i hlast.1).not_below_self wf.root_parent h

/-- The root is below nothing. -/
theorem not_below_root (wf : s.WellFormed) : ¬s.Below dir root := by
  intro h
  obtain ⟨b, -, -, hparent, hne⟩ := TransGen.tail'_iff.mp h
  exact hne (wf.root_parent.symm.trans hparent)

/-- What is cleared when a child goes with all that is below it. -/
def GoneWith (s : State) (c i : NodeId) : Prop := i = c ∨ s.Below c i

/-- A child and what is below it have been cleared. -/
structure Taken (s : State) (c : NodeId) (s' : State) : Prop where
  gone : ∀ i, s.GoneWith c i → s'.nodes i = Node.empty
  kept : ∀ i, ¬s.GoneWith c i → s'.nodes i = s.nodes i
  same_data : s'.data = s.data
  same_next : s'.dataNext = s.dataNext
  same_cwd : s'.cwd = s.cwd

theorem Taken.isChild_iff (h : s.Taken c s') (a b : NodeId) :
    s'.IsChild a b ↔ s.IsChild a b ∧ ¬s.GoneWith c b := by
  by_cases hb : s.GoneWith c b
  · constructor
    · rintro ⟨hlive, -⟩
      rw [Live, h.gone b hb] at hlive
      exact absurd rfl hlive
    · rintro ⟨-, hnot⟩
      exact absurd hb hnot
  · rw [IsChild, IsChild, Live, Live, h.kept b hb]
    exact (and_iff_left hb).symm

theorem Taken.below_iff (h : s.Taken c s') (i : NodeId) :
    s'.Below dir i ↔ s.Below dir i ∧ ¬s.GoneWith c i := by
  refine transGen_without_iff ?_ h.isChild_iff
  rintro a b (rfl | hbelow) hchild
  · exact Or.inr (.single hchild)
  · exact Or.inr (.tail hbelow hchild)

/-- What is below a directory goes away in two parts. -/
theorem Taken.emptied {s'' : State} (h : s.Taken c s') (hc : s.IsChild dir c)
    (hrest : s'.Emptied dir s'') : s.Emptied dir s'' := by
  have hgone : ∀ i, s.GoneWith c i → s.Below dir i := by
    rintro i (rfl | hbelow)
    · exact .single hc
    · exact .head hc hbelow
  constructor
  · intro i hi
    by_cases hwith : s.GoneWith c i
    · rw [hrest.kept i fun hbelow => ((h.below_iff i).mp hbelow).2 hwith, h.gone i hwith]
    · exact hrest.gone i ((h.below_iff i).mpr ⟨hi, hwith⟩)
  · intro i hi
    have hwith : ¬s.GoneWith c i := fun hwith => hi (hgone i hwith)
    rw [hrest.kept i fun hbelow => hi ((h.below_iff i).mp hbelow).1, h.kept i hwith]
  · rw [hrest.same_data, h.same_data]
  · rw [hrest.same_next, h.same_next]
  · rw [hrest.same_cwd, h.same_cwd]

/-- Nothing is to be done for a directory without children. -/
theorem emptied_refl (h : ∀ i, ¬s.IsChild dir i) : s.Emptied dir s where
  gone i hi := by
    obtain ⟨b, hb, -⟩ := TransGen.head'_iff.mp hi
    exact absurd hb (h b)
  kept _ _ := rfl
  same_data := rfl
  same_next := rfl
  same_cwd := rfl

/-- A node that has been emptied can be unlinked. -/
theorem Emptied.unlink (wf : s.WellFormed) (hlive : s.Live c) (hroot : c ≠ root)
    (h : s.Emptied c s') : s'.unlink c = (true, s'.setNode c Node.empty) := by
  have hself : s'.nodes c = s.nodes c := h.kept c (not_below_self wf c)
  rcases s'.unlink_cases c with ⟨hwhy, -⟩ | ⟨-, -, -, heq⟩
  · rcases hwhy with heq | hdead | ⟨-, i, hi, hparent, hne⟩
    · exact absurd heq hroot
    · rw [Live, hself] at hdead
      exact absurd hlive hdead
    · by_cases hbelow : s.Below c i
      · rw [Live, h.gone i hbelow] at hi
        exact absurd rfl hi
      · rw [Live, h.kept i hbelow] at hi
        rw [h.kept i hbelow] at hparent
        exact absurd (.single ⟨hi, hparent, hne⟩) hbelow
  · exact heq

/-- Then it has gone with all that was below it. -/
theorem Emptied.taken (wf : s.WellFormed) (hlive : s.Live c) (hroot : c ≠ root)
    (h : s.Emptied c s') : s.Taken c (s'.unlink c).2 := by
  rw [h.unlink wf hlive hroot]
  constructor
  · rintro i (rfl | hbelow)
    · exact setNode_self s' _ _
    · have hne : i ≠ c := by
        rintro rfl
        exact not_below_self wf i hbelow
      rw [setNode_of_ne s' _ hne, h.gone i hbelow]
  · intro i hi
    rw [setNode_of_ne s' _ fun heq => hi (Or.inl heq), h.kept i fun hbelow => hi (Or.inr hbelow)]
  · exact h.same_data
  · exact h.same_next
  · exact h.same_cwd

/-- What a directory is emptied to is determined. -/
theorem Emptied.unique {s'' : State} (h : s.Emptied dir s') (h' : s.Emptied dir s'') : s' = s'' := by
  have hnodes : s'.nodes = s''.nodes := by
    funext i
    by_cases hi : s.Below dir i
    · rw [h.gone i hi, h'.gone i hi]
    · rw [h.kept i hi, h'.kept i hi]
  cases s'
  cases s''
  rw [State.mk.injEq]
  exact ⟨hnodes, h.same_data.trans h'.same_data.symm, h.same_next.trans h'.same_next.symm,
    h.same_cwd.trans h'.same_cwd.symm⟩

/-! ## The recursion -/

/-- Fewer nodes are below a child. -/
theorem ncard_below_child (wf : s.WellFormed) (hc : s.IsChild dir c) :
    {i | s.Below c i}.ncard < {i | s.Below dir i}.ncard := by
  refine Set.ncard_lt_ncard ⟨fun i hi => .head hc hi, fun hsub => ?_⟩ (Set.toFinite _)
  exact not_below_self wf c (hsub (.single hc))

/-- Fewer nodes are below the directory when a child has gone. -/
theorem Taken.ncard_below (h : s.Taken c s') (hc : s.IsChild dir c) :
    {i | s'.Below dir i}.ncard < {i | s.Below dir i}.ncard := by
  refine Set.ncard_lt_ncard ⟨fun i hi => ((h.below_iff i).mp hi).1, fun hsub => ?_⟩
    (Set.toFinite _)
  have hbelow : s'.Below dir c := hsub (.single hc)
  exact ((h.below_iff c).mp hbelow).2 (Or.inl rfl)

/-- With more calls and turns to make than there are nodes below the directory,
`rm_recursive` comes to an end and has emptied it. -/
theorem rmRecursive_empties (fuel : Nat) : ∀ {s : State} {dir : NodeId}, s.WellFormed →
    {i | s.Below dir i}.ncard < fuel → ∃ s', s.rmRecursive fuel dir = some s' ∧ s.Emptied dir s' := by
  induction fuel with
  | zero =>
      intro s dir _ h
      exact absurd h (Nat.not_lt_zero _)
  | succ fuel ih =>
      intro s dir wf h
      rw [rmRecursive]
      cases hc : s.firstChild dir with
      | none => exact ⟨s, rfl, emptied_refl (firstChild_eq_none wf hc)⟩
      | some child =>
          have hchild := firstChild_isChild hc
          have hfirst : ∃ s₁, (if (s.nodes child).kind = .dir then s.rmRecursive fuel child
              else some s) = some s₁ ∧ s₁.WellFormed ∧ s.Emptied child s₁ := by
            by_cases hdir : (s.nodes child).kind = .dir
            · rw [if_pos hdir]
              have hfewer := ncard_below_child wf hchild
              obtain ⟨s₁, hrun, hemptied⟩ := ih wf (Nat.lt_of_lt_of_le hfewer (Nat.le_of_lt_succ h))
              exact ⟨s₁, hrun, (rmRecursive_spec fuel wf hrun).1, hemptied⟩
            · rw [if_neg hdir]
              exact ⟨s, rfl, wf, emptied_refl (wf.not_isChild_of_file hdir)⟩
          obtain ⟨s₁, hrun, wf₁, hemptied⟩ := hfirst
          have hroot : child ≠ root := by
            rintro rfl
            exact not_below_root wf (.single hchild)
          have htaken := hemptied.taken wf hchild.1 hroot
          have hfewer := htaken.ncard_below hchild
          obtain ⟨s₂, hrest, hdone⟩ := ih (wf₁.unlink child)
            (Nat.lt_of_lt_of_le hfewer (Nat.le_of_lt_succ h))
          refine ⟨s₂, ?_, htaken.emptied hchild hdone⟩
          dsimp only
          rw [hrun]
          exact hrest

/-- The size of the table is enough for every directory. -/
theorem ncard_below_lt (wf : s.WellFormed) : {i | s.Below dir i}.ncard < maxNodes := by
  have hsub : {i | s.Below dir i} ⊂ Set.univ := by
    refine ⟨Set.subset_univ _, fun h => ?_⟩
    exact not_below_root wf (h (Set.mem_univ root))
  have hlt := Set.ncard_lt_ncard hsub
  rwa [Set.ncard_univ, Nat.card_eq_fintype_card, Fintype.card_fin] at hlt

/-- What a node holds is as it was. -/
theorem Emptied.read_eq (h : s.Emptied dir s') (hi : ¬s.Below dir i) : s'.read i = s.read i := by
  rw [read, read, h.kept i hi, h.same_data]

/-- `rm -r` with a directory other than the root: the directory goes with all that is below it,
and nothing is written to the terminal. -/
theorem cmdRm_of_recursive (wf : s.WellFormed) {fuel : Nat} {args : List UInt8}
    (hfuel : maxNodes ≤ fuel) (hlen : 3 ≤ args.length) (hdash : args[0]? = some 45)
    (hr : args[1]? = some 114)
    (hpath : s.scanFrom s.cwd (((args.drop 1).dropWhile (· ≠ 32)).dropWhile (· = 32)) = some c)
    (hdir : s.kind c = .dir) (hroot : c ≠ root) :
    ∃ s', cmdRm fuel args s = some ([], s') ∧ s.Taken c s' := by
  obtain ⟨s₁, hrun, hemptied⟩ :=
    rmRecursive_empties fuel wf (Nat.lt_of_lt_of_le (ncard_below_lt wf) hfuel)
  have hlive : s.Live c := by
    intro hfree
    rw [kind, hfree] at hdir
    cases hdir
  have hargs : args ≠ [] := by
    rintro rfl
    cases hdash
  refine ⟨(s₁.unlink c).2, ?_, hemptied.taken wf hlive hroot⟩
  rw [cmdRm, if_neg hargs]
  dsimp only
  rw [if_pos hdash, hpath]
  dsimp only
  rw [if_pos ⟨⟨hlen, hdash, hr⟩, hdir⟩, hrun, Option.map_some, hemptied.unlink wf hlive hroot]
  rfl

end Search

end State

/-- In every state that is reached, `rm_recursive` comes to an end for every directory: what was
below the directory is free, and every other node, the directory itself among them, has the
name, the parent, the kind and the content that it had. -/
theorem rmRecursive_removes_below {s : State} {h : List ShellOp}
    (run : Run ShellStep State.init h s) (dir : NodeId) :
    ∃ s', (∀ fuel, maxNodes ≤ fuel → s.rmRecursive fuel dir = some s') ∧
      (∀ i, s.Below dir i → ¬s'.Live i) ∧
      (∀ i, ¬s.Below dir i → s'.nodes i = s.nodes i ∧ s'.read i = s.read i) ∧
      ¬s.Below dir dir := by
  have wf := run_wellFormed_shell run
  have hends : ∀ fuel, maxNodes ≤ fuel →
      ∃ s', s.rmRecursive fuel dir = some s' ∧ s.Emptied dir s' := fun fuel hfuel =>
    State.rmRecursive_empties fuel wf (Nat.lt_of_lt_of_le (State.ncard_below_lt wf) hfuel)
  obtain ⟨s', -, hemptied⟩ := hends maxNodes (Nat.le_refl _)
  refine ⟨s', ?_, ?_, ?_, State.not_below_self wf dir⟩
  · intro fuel hfuel
    obtain ⟨s'', hrun, hemptied'⟩ := hends fuel hfuel
    rw [hrun, hemptied'.unique hemptied]
  · intro i hi hlive
    rw [State.Live, hemptied.gone i hi] at hlive
    exact hlive rfl
  · intro i hi
    exact ⟨hemptied.kept i hi, hemptied.read_eq hi⟩

/-- `rm_recursive` on the root of the initialised file system. -/
theorem rmRecursive_removes_below_root :
    ∃ s', (∀ fuel, maxNodes ≤ fuel → State.init.rmRecursive fuel root = some s') ∧
      (∀ i, State.init.Below root i → ¬s'.Live i) ∧
      (∀ i, ¬State.init.Below root i →
        s'.nodes i = State.init.nodes i ∧ s'.read i = State.init.read i) ∧
      ¬State.init.Below root root :=
  rmRecursive_removes_below .nil root

end PureOS.Fs
