import Mathlib.Data.List.DropRight
import Mathlib.Logic.Relation
import PureOS.Foundation.Pieces
import PureOS.Fs.Path

set_option autoImplicit false

/-!
# Fs: the scanner and the parent of a path

`resolve_from` as the scanner that it is, and `resolve_parent`, which cuts a path at its last
slash.  The scanner visits the components of a path, so a path resolves in two steps wherever
a slash cuts it.
-/

namespace PureOS.Fs

open PureOS.Foundation Relation

/-- The loop of `resolve_parent` over the path. -/
def lastSlash (path : List UInt8) : Option Nat :=
  path.zipIdx.foldl (fun last c => if c.1 = slash then some c.2 else last) none

namespace State

/-- The loop of `resolve_from`, on what is left of the path. -/
def scan (s : State) (cur : NodeId) (path : List UInt8) : Option NodeId :=
  let rest := path.dropWhile (· = slash)
  let comp := rest.takeWhile (· ≠ slash)
  if _h : comp = [] then some cur
  else if comp = ascii "." then s.scan cur (rest.dropWhile (· ≠ slash))
  else if comp = ascii ".." then s.scan (s.nodes cur).parent (rest.dropWhile (· ≠ slash))
  else
    match s.findChild cur comp with
    | none => none
    | some child => s.scan child (rest.dropWhile (· ≠ slash))
termination_by path.length
decreasing_by
  all_goals exact length_dropWhile_lt _h

/-- `resolve_from`, as the source scans. -/
def scanFrom (s : State) (start : NodeId) (path : List UInt8) : Option NodeId :=
  s.scan (if path.head? = some slash then root else start) path

/-- `resolve_parent`. -/
def resolveParent (s : State) (path : List UInt8) : Option (NodeId × List UInt8) :=
  match lastSlash path with
  | none => some (s.cwd, path)
  | some ls =>
      let leaf := path.drop (ls + 1)
      if leaf = [] then none
      else
        (if ls = 0 then some root else s.scanFrom s.cwd (path.take ls)).bind fun parent =>
          if (s.nodes parent).kind = .dir then some (parent, leaf) else none

/-! ## The scanner visits the components -/

theorem components_of_nil {path : List UInt8}
    (h : (path.dropWhile (· = slash)).takeWhile (· ≠ slash) = []) : components path = [] :=
  pieces_of_takeWhile_nil h

theorem components_of_ne {path : List UInt8}
    (h : (path.dropWhile (· = slash)).takeWhile (· ≠ slash) ≠ []) :
    components path = (path.dropWhile (· = slash)).takeWhile (· ≠ slash) ::
      components ((path.dropWhile (· = slash)).dropWhile (· ≠ slash)) :=
  pieces_of_takeWhile h

theorem scan_eq (s : State) (cur : NodeId) (path : List UInt8) :
    s.scan cur path = (components path).foldlM s.enter cur := by
  induction cur, path using State.scan.induct s with
  | case1 cur path rest comp h =>
      rw [scan, dif_pos h, components_of_nil h]
      rfl
  | case2 cur path rest comp h hdot ih =>
      rw [scan, dif_neg h, if_pos hdot, ih, components_of_ne h, List.foldlM_cons, enter,
        if_pos hdot]
      rfl
  | case3 cur path rest comp h hdot hup ih =>
      rw [scan, dif_neg h, if_neg hdot, if_pos hup, ih, components_of_ne h, List.foldlM_cons,
        enter, if_neg hdot, if_pos hup]
      rfl
  | case4 cur path rest comp h hdot hup hnone =>
      rw [scan, dif_neg h, if_neg hdot, if_neg hup, components_of_ne h, List.foldlM_cons,
        enter, if_neg hdot, if_neg hup]
      simp only [comp, rest] at hnone
      rw [hnone]
      rfl
  | case5 cur path rest comp h hdot hup child hsome ih =>
      rw [scan, dif_neg h, if_neg hdot, if_neg hup, components_of_ne h, List.foldlM_cons,
        enter, if_neg hdot, if_neg hup]
      simp only [comp, rest] at hsome
      rw [hsome]
      exact ih

/-- The scanner computes what the components say. -/
theorem scanFrom_eq (s : State) (start : NodeId) (path : List UInt8) :
    s.scanFrom start path = s.resolveFrom start path :=
  s.scan_eq _ path

/-! ## A slash cuts a path in two -/

theorem components_append (p q : List UInt8) :
    components (p ++ slash :: q) = components p ++ components q :=
  pieces_append p q

theorem components_slash (p : List UInt8) : components (p ++ [slash]) = components p :=
  pieces_concat p

theorem head?_append_cons (p q r : List UInt8) :
    (p ++ slash :: q).head? = (p ++ slash :: r).head? := by
  cases p with
  | nil => rfl
  | cons _ _ => rfl

/-- What is in front of a slash is resolved first, together with the slash. -/
theorem scanFrom_cut (s : State) (start : NodeId) (p q : List UInt8) :
    s.scanFrom start (p ++ slash :: q) =
      (s.scanFrom start (p ++ [slash])).bind fun d => (components q).foldlM s.enter d := by
  rw [scanFrom_eq, scanFrom_eq, resolveFrom, resolveFrom, components_append, components_slash,
    head?_append_cons p q [], List.foldlM_append]
  rfl

theorem scanFrom_slash (s : State) (start : NodeId) {p : List UInt8} (hp : p ≠ []) :
    s.scanFrom start (p ++ [slash]) = s.scanFrom start p := by
  rw [scanFrom_eq, scanFrom_eq, resolveFrom, resolveFrom, components_slash]
  cases p with
  | nil => exact absurd rfl hp
  | cons _ _ => rfl

theorem scanFrom_of_relative (s : State) (start : NodeId) {q : List UInt8}
    (hq : q.head? ≠ some slash) :
    s.scanFrom start q = (components q).foldlM s.enter start := by
  rw [scanFrom_eq, resolveFrom, if_neg hq]

/-- A path resolves in two steps. -/
theorem scanFrom_append (s : State) (start : NodeId) {p q : List UInt8} (hp : p ≠ [])
    (hq : q.head? ≠ some slash) :
    s.scanFrom start (p ++ slash :: q) = (s.scanFrom start p).bind fun d => s.scanFrom d q := by
  rw [scanFrom_cut, scanFrom_slash s start hp]
  congr 1
  funext d
  rw [scanFrom_of_relative s d hq]

end State

/-! ## The last slash -/

/-- What is behind the last slash of a path. -/
def lastComponent (path : List UInt8) : List UInt8 := path.rtakeWhile (· ≠ slash)

/-- A path has a last slash, or none. -/
theorem exists_last_slash (path : List UInt8) :
    slash ∉ path ∨ ∃ a b, path = a ++ slash :: b ∧ slash ∉ b := by
  induction path using List.reverseRecOn with
  | nil => exact Or.inl List.not_mem_nil
  | append_singleton path c ih =>
      by_cases hc : c = slash
      · subst hc
        exact Or.inr ⟨path, [], rfl, List.not_mem_nil⟩
      · rcases ih with hnot | ⟨a, b, rfl, hnot⟩
        · refine Or.inl fun hmem => ?_
          rcases List.mem_append.mp hmem with hin | hlast
          · exact hnot hin
          · exact hc (List.mem_singleton.mp hlast).symm
        · refine Or.inr ⟨a, b ++ [c], by rw [List.append_assoc, List.cons_append], fun hmem => ?_⟩
          rcases List.mem_append.mp hmem with hin | hlast
          · exact hnot hin
          · exact hc (List.mem_singleton.mp hlast).symm

theorem foldl_last_of_notMem (l : List (UInt8 × Nat)) (last : Option Nat)
    (h : ∀ c ∈ l, c.1 ≠ slash) :
    l.foldl (fun last c => if c.1 = slash then some c.2 else last) last = last := by
  induction l with
  | nil => rfl
  | cons c l ih =>
      rw [List.foldl_cons, if_neg (h c List.mem_cons_self)]
      exact ih fun c hc => h c (List.mem_cons_of_mem _ hc)

theorem lastSlash_of_notMem {path : List UInt8} (h : slash ∉ path) : lastSlash path = none := by
  refine foldl_last_of_notMem _ _ fun c hc heq => h ?_
  rw [← heq]
  exact List.fst_mem_of_mem_zipIdx hc

theorem lastSlash_append (a : List UInt8) {b : List UInt8} (h : slash ∉ b) :
    lastSlash (a ++ slash :: b) = some a.length := by
  rw [lastSlash, List.zipIdx_append, List.foldl_append, List.zipIdx_cons, List.foldl_cons,
    if_pos rfl, foldl_last_of_notMem, Nat.zero_add]
  intro c hc heq
  refine h ?_
  rw [← heq]
  exact List.fst_mem_of_mem_zipIdx hc

theorem takeWhile_of_notMem {l : List UInt8} (h : slash ∉ l) (rest : List UInt8) :
    (l ++ slash :: rest).takeWhile (· ≠ slash) = l := by
  rw [List.takeWhile_append_of_pos]
  · rw [List.takeWhile_cons_of_neg (by simp), List.append_nil]
  · intro c hc
    simp only [ne_eq, decide_not, Bool.not_eq_true', decide_eq_false_iff_not]
    rintro rfl
    exact h hc

theorem lastComponent_append (a : List UInt8) {b : List UInt8} (h : slash ∉ b) :
    lastComponent (a ++ slash :: b) = b := by
  rw [lastComponent, List.rtakeWhile, List.reverse_append, List.reverse_cons, List.append_assoc,
    List.singleton_append, takeWhile_of_notMem (fun hmem => h (List.mem_reverse.mp hmem)),
    List.reverse_reverse]

theorem lastComponent_of_notMem {path : List UInt8} (h : slash ∉ path) :
    lastComponent path = path := by
  rw [lastComponent, List.rtakeWhile_eq_self_iff]
  intro c hc
  simp only [ne_eq, decide_not, Bool.not_eq_true', decide_eq_false_iff_not]
  rintro rfl
  exact h hc

/-- `q` is `p` with one slash less where `p` has two. -/
def Squeezed (p q : List UInt8) : Prop := ∃ a b, p = a ++ slash :: slash :: b ∧ q = a ++ slash :: b

namespace State

theorem resolveParent_of_notMem (s : State) {path : List UInt8} (h : slash ∉ path) :
    s.resolveParent path = some (s.cwd, path) := by
  rw [resolveParent, lastSlash_of_notMem h]

/-- A path is cut at its last slash. -/
theorem resolveParent_append (s : State) (a : List UInt8) {b : List UInt8} (h : slash ∉ b) :
    s.resolveParent (a ++ slash :: b) =
      if b = [] then none
      else (s.scanFrom s.cwd (a ++ [slash])).bind fun parent =>
        if (s.nodes parent).kind = .dir then some (parent, b) else none := by
  have hleaf : (a ++ slash :: b).drop (a.length + 1) = b := by
    rw [← List.drop_drop, List.drop_left, List.drop_one, List.tail_cons]
  have hparent : (if a.length = 0 then some root else s.scanFrom s.cwd ((a ++ slash :: b).take a.length)) =
      s.scanFrom s.cwd (a ++ [slash]) := by
    rw [List.take_left]
    cases a with
    | nil =>
        rw [List.nil_append, s.scanFrom_eq s.cwd [slash], resolveFrom]
        rfl
    | cons c a =>
        rw [if_neg (by simp), scanFrom_slash _ _ (List.cons_ne_nil c a)]
  rw [resolveParent, lastSlash_append a h]
  dsimp only
  rw [hleaf, hparent]

/-- The directory and the name that a path is split into lead to the node of the path. -/
theorem findChild_of_resolveParent {s : State} {path leaf : List UInt8} {dir : NodeId}
    (hne : lastComponent path ≠ []) (hdot : lastComponent path ≠ ascii ".")
    (hup : lastComponent path ≠ ascii "..") (h : s.resolveParent path = some (dir, leaf)) :
    s.scanFrom s.cwd path = s.findChild dir leaf := by
  have henter {d : NodeId} {b : List UInt8} (hb : slash ∉ b) (hne : b ≠ []) (hdot : b ≠ ascii ".")
      (hup : b ≠ ascii "..") : (components b).foldlM s.enter d = s.findChild d b := by
    rw [show components b = [b] from pieces_of_notMem hb hne, List.foldlM_cons, enter,
      if_neg hdot, if_neg hup]
    simp
  rcases exists_last_slash path with hnot | ⟨a, b, rfl, hnot⟩
  · rw [lastComponent_of_notMem hnot] at hne hdot hup
    rw [resolveParent_of_notMem s hnot] at h
    cases h
    rw [scanFrom_of_relative, henter hnot hne hdot hup]
    intro hhead
    exact hnot (List.mem_of_mem_head? hhead)
  · rw [lastComponent_append a hnot] at hne hdot hup
    rw [resolveParent_append s a hnot, if_neg hne] at h
    obtain ⟨parent, hparent, h⟩ := Option.bind_eq_some_iff.mp h
    split at h
    · cases h
      rw [scanFrom_cut, hparent, Option.bind_some, henter hnot hne hdot hup]
    · cases h

/-! ## Repeated slashes -/

theorem scanFrom_squeezed {p q : List UInt8} (h : Squeezed p q) (s : State) (start : NodeId) :
    s.scanFrom start p = s.scanFrom start q := by
  obtain ⟨a, b, rfl, rfl⟩ := h
  rw [scanFrom_cut, scanFrom_cut s start a b]
  rw [show components (slash :: b) = components b from pieces_cons b]

theorem resolveParent_squeezed {p q : List UInt8} (h : Squeezed p q) (s : State) :
    s.resolveParent p = s.resolveParent q := by
  obtain ⟨a, b, rfl, rfl⟩ := h
  rcases exists_last_slash b with hnot | ⟨a', b', rfl, hnot⟩
  · have hsplit : a ++ slash :: slash :: b = (a ++ [slash]) ++ slash :: b := by
      rw [List.append_assoc, List.singleton_append]
    have hsame := scanFrom_squeezed ⟨a, [], rfl, rfl⟩ s s.cwd
    rw [hsplit, resolveParent_append s _ hnot, resolveParent_append s a hnot, List.append_assoc,
      List.singleton_append, hsame]
  · have hsplit : a ++ slash :: slash :: (a' ++ slash :: b') =
        (a ++ slash :: slash :: a') ++ slash :: b' := by simp
    have hsplit' : a ++ slash :: (a' ++ slash :: b') = (a ++ slash :: a') ++ slash :: b' := by simp
    have hsame : s.scanFrom s.cwd ((a ++ slash :: slash :: a') ++ [slash]) =
        s.scanFrom s.cwd ((a ++ slash :: a') ++ [slash]) :=
      scanFrom_squeezed ⟨a, a' ++ [slash], by simp, by simp⟩ s s.cwd
    rw [hsplit, hsplit', resolveParent_append s _ hnot, resolveParent_append s _ hnot, hsame]

/-- Resolution goes component by component: a path resolves in two steps wherever a slash cuts
it, the parent of a path and its last component lead to its node, and repeated slashes make no
difference. -/
theorem resolution_compositional (s : State) :
    (∀ (start : NodeId) (p q : List UInt8), p ≠ [] → q.head? ≠ some slash →
      s.scanFrom start (p ++ slash :: q) = (s.scanFrom start p).bind fun d => s.scanFrom d q) ∧
    (∀ (path leaf : List UInt8) (dir : NodeId), lastComponent path ≠ [] →
      lastComponent path ≠ ascii "." → lastComponent path ≠ ascii ".." →
      s.resolveParent path = some (dir, leaf) →
      s.scanFrom s.cwd path = s.findChild dir leaf) ∧
    ∀ p q : List UInt8, EqvGen Squeezed p q →
      (∀ start, s.scanFrom start p = s.scanFrom start q) ∧
        s.resolveParent p = s.resolveParent q := by
  refine ⟨fun start p q hp hq => s.scanFrom_append start hp hq,
    fun path leaf dir hne hdot hup h => findChild_of_resolveParent hne hdot hup h,
    fun p q h => ?_⟩
  induction h with
  | rel p q h => exact ⟨fun start => scanFrom_squeezed h s start, resolveParent_squeezed h s⟩
  | refl p => exact ⟨fun _ => rfl, rfl⟩
  | symm p q _ ih => exact ⟨fun start => (ih.1 start).symm, ih.2.symm⟩
  | trans p q r _ _ ihp ihq =>
      exact ⟨fun start => (ihp.1 start).trans (ihq.1 start), ihp.2.trans ihq.2⟩

end State

end PureOS.Fs
