import PureOS.Fs.Cwd
import PureOS.Fs.Resolve

set_option autoImplicit false

/-!
# Fs: the path of a node (`path_of`)

`path_of` walks from a node up to the root and writes the names on the way down.  It keeps 32
nodes of the way, and a node may be named `.` or `..`, which no path leads to.
-/

namespace PureOS.Fs

open PureOS.Foundation

namespace State

/-- `chain[..depth]` after the loop of `path_of` that has room for `n` more nodes. -/
def chain (s : State) : Nat → NodeId → List NodeId
  | 0, _ => []
  | n + 1, cur => if cur = root then [] else cur :: s.chain n (s.nodes cur).parent

/-- `if pos < out.len() { out[pos] = b; pos += 1; }`, on `out[..pos]`. -/
def putByte (cap : Nat) (out : List UInt8) (b : UInt8) : List UInt8 :=
  if out.length < cap then out ++ [b] else out

/-- A turn of the loop of `path_of` down the chain. -/
def putName (s : State) (cap : Nat) (out : List UInt8) (i : NodeId) : List UInt8 :=
  (s.nodes i).name.bytes.foldl (putByte cap) (putByte cap out slash)

/-- `path_of`: what it writes into a buffer of `cap` bytes. -/
def pathOf (s : State) (node : NodeId) (cap : Nat) : List UInt8 :=
  if node = root then if cap = 0 then [] else [slash]
  else (s.chain 32 node).reverse.foldl (s.putName cap) []

end State

/-! ## Absolute paths -/

/-- A slash and a name for every name of a list. -/
def spell (names : List (List UInt8)) : List UInt8 := names.flatMap (slash :: ·)

/-- The absolute path along some names. -/
def absolute (names : List (List UInt8)) : List UInt8 :=
  if names = [] then [slash] else spell names

/-- The names from the root down to a node. -/
inductive State.Names (s : State) : NodeId → List (List UInt8) → Prop
  | top : s.Names root []
  | under {n : NodeId} {names : List (List UInt8)} (hne : n ≠ root)
      (up : s.Names (s.nodes n).parent names) :
      s.Names n (names ++ [(s.nodes n).name.bytes])

/-- `path_of` writes the absolute path of a node into every buffer that has room for it, and the
path leads back to the node. -/
def State.RoundTrips (s : State) (n : NodeId) : Prop :=
  ∃ names, s.Names n names ∧
    (∀ cap, (absolute names).length ≤ cap → s.pathOf n cap = absolute names) ∧
    s.scanFrom s.cwd (absolute names) = some n

/-- A node lies at most 32 names deep, and none of the names is `.` or `..`. -/
def State.Spellable (s : State) (n : NodeId) : Prop :=
  ∃ names, s.Names n names ∧ names.length ≤ 32 ∧
    ∀ name ∈ names, name ≠ ascii "." ∧ name ≠ ascii ".."

theorem spell_concat (names : List (List UInt8)) (name : List UInt8) :
    spell (names ++ [name]) = spell names ++ slash :: name := by
  rw [spell, List.flatMap_append, List.flatMap_singleton]
  rfl

/-- The components of an absolute path are the names. -/
theorem components_spell {names : List (List UInt8)}
    (h : ∀ name ∈ names, name ≠ [] ∧ slash ∉ name) : components (spell names) = names := by
  induction names using List.reverseRecOn with
  | nil => rfl
  | append_singleton names name ih =>
      obtain ⟨hne, hnot⟩ := h name (List.mem_append_right _ List.mem_cons_self)
      rw [spell_concat, State.components_append, ih fun c hc => h c (List.mem_append_left _ hc),
        show components name = [name] from pieces_of_notMem hnot hne]

theorem head?_spell {names : List (List UInt8)} (h : names ≠ []) :
    (spell names).head? = some slash := by
  cases names with
  | nil => exact absurd rfl h
  | cons name names => rfl

namespace State

theorem scanFrom_absolute (s : State) (start : NodeId) {names : List (List UInt8)}
    (h : ∀ name ∈ names, name ≠ [] ∧ slash ∉ name) :
    s.scanFrom start (absolute names) = names.foldlM s.enter root := by
  rw [scanFrom_eq, resolveFrom, absolute]
  split
  · rename_i hnil
    subst hnil
    rfl
  · rename_i hne
    rw [if_pos (head?_spell hne), components_spell h]

/-! ## What `path_of` writes -/

theorem foldl_putByte {cap : Nat} (bytes : List UInt8) :
    ∀ {out : List UInt8}, bytes.foldl (putByte cap) (out.take cap) = (out ++ bytes).take cap := by
  induction bytes with
  | nil => intro out; rw [List.foldl_nil, List.append_nil]
  | cons b bytes ih =>
      intro out
      have hput : putByte cap (out.take cap) b = (out ++ [b]).take cap := by
        rw [putByte, List.length_take]
        split
        · rename_i hlt
          have hle : out.length < cap := by omega
          have hle' : (out ++ [b]).length ≤ cap := by
            rw [List.length_append, List.length_singleton]
            omega
          rw [List.take_of_length_le hle.le, List.take_of_length_le hle']
        · rename_i hge
          rw [List.take_append_of_le_length (by omega)]
      rw [List.foldl_cons, hput, ih, List.append_assoc, List.singleton_append]

/-- The text of a chain of nodes. -/
def chainText (s : State) (nodes : List NodeId) : List UInt8 :=
  spell (nodes.map fun i => (s.nodes i).name.bytes)

theorem foldl_putName (s : State) (cap : Nat) (nodes : List NodeId) :
    ∀ {out : List UInt8}, nodes.foldl (s.putName cap) (out.take cap) =
      (out ++ s.chainText nodes).take cap := by
  induction nodes with
  | nil => intro out; rw [List.foldl_nil]; exact congrArg _ (List.append_nil out).symm
  | cons i nodes ih =>
      intro out
      have hput : s.putName cap (out.take cap) i =
          (out ++ slash :: (s.nodes i).name.bytes).take cap := by
        have hslash := @foldl_putByte cap [slash] out
        rw [List.foldl_cons, List.foldl_nil] at hslash
        rw [putName, hslash, foldl_putByte, List.append_assoc, List.singleton_append]
      rw [List.foldl_cons, hput, ih, List.append_assoc]
      rfl

theorem pathOf_eq (s : State) {node : NodeId} (hne : node ≠ root) (cap : Nat) :
    s.pathOf node cap = (s.chainText (s.chain 32 node).reverse).take cap := by
  have hput := @foldl_putName s cap (s.chain 32 node).reverse []
  rw [List.take_nil, List.nil_append] at hput
  rw [pathOf, if_neg hne, hput]

/-- The chain holds the last nodes of the way, as many as there is room for. -/
theorem Names.chain {s : State} {n : NodeId} {names : List (List UInt8)} (h : s.Names n names) :
    ∀ k, (s.chain k n).reverse.map (fun i => (s.nodes i).name.bytes) =
      names.drop (names.length - k) := by
  induction h with
  | top =>
      intro k
      cases k with
      | zero => rfl
      | succ k => rw [State.chain, if_pos rfl, List.drop_nil]; rfl
  | @under n names hne up ih =>
      intro k
      cases k with
      | zero => rw [Nat.sub_zero, List.drop_length]; rfl
      | succ k =>
          rw [State.chain, if_neg hne, List.reverse_cons, List.map_append, ih k,
            List.length_append, List.length_singleton, Nat.add_sub_add_right,
            List.drop_append_of_le_length (Nat.sub_le _ _)]
          rfl

theorem length_spell_drop {names : List (List UInt8)} {k : Nat} (hk : 0 < k)
    (hlen : k ≤ names.length) : (spell (names.drop k)).length < (spell names).length := by
  have hsplit : spell names = spell (names.take k) ++ spell (names.drop k) := by
    rw [spell, spell, spell, ← List.flatMap_append, List.take_append_drop]
  have hpos : 0 < (spell (names.take k)).length := by
    cases names with
    | nil => exact absurd hlen (by rw [List.length_nil]; omega)
    | cons name names =>
        obtain ⟨k, rfl⟩ := Nat.exists_eq_succ_of_ne_zero hk.ne'
        rw [List.take_succ_cons, spell, List.flatMap_cons, List.length_append, List.length_cons]
        omega
  rw [hsplit, List.length_append]
  omega

/-- `path_of` writes the whole path of the nodes that are at most 32 names deep, and of no
others. -/
theorem Names.pathOf_iff {s : State} {n : NodeId} {names : List (List UInt8)}
    (h : s.Names n names) :
    (∀ cap, (absolute names).length ≤ cap → s.pathOf n cap = absolute names) ↔
      names.length ≤ 32 := by
  cases h with
  | top =>
      refine iff_of_true (fun cap hcap => ?_) (Nat.zero_le _)
      rw [pathOf, if_pos rfl, if_neg (Nat.pos_iff_ne_zero.mp (Nat.lt_of_succ_le hcap))]
      rfl
  | @under _ names hne up =>
      have hchain := (Names.under hne up).chain 32
      generalize hall : names ++ [(s.nodes n).name.bytes] = all at hchain
      have habs : absolute all = spell all := by
        rw [absolute, if_neg (by rw [← hall]; exact List.concat_ne_nil _ _)]
      have hpath (cap : Nat) : s.pathOf n cap = (spell (all.drop (all.length - 32))).take cap := by
        rw [pathOf_eq s hne, chainText, hchain]
      constructor
      · intro hwrites
        by_contra hdeep
        have hshort := @length_spell_drop all (all.length - 32) (by omega) (Nat.sub_le _ _)
        have hwrite := congrArg List.length (hwrites _ le_rfl)
        rw [hpath, habs, List.length_take] at hwrite
        omega
      · intro hdeep cap hcap
        rw [habs] at hcap
        rw [hpath, Nat.sub_eq_zero_of_le hdeep, List.drop_zero, habs, List.take_of_length_le hcap]

/-! ## Where the path of a node leads -/

theorem Names.unique {s : State} {n : NodeId} {names names' : List (List UInt8)}
    (h : s.Names n names) (h' : s.Names n names') : names = names' := by
  induction h generalizing names' with
  | top =>
      cases h' with
      | top => rfl
      | under hne _ => exact absurd rfl hne
  | under hne _ ih =>
      cases h' with
      | top => exact absurd rfl hne
      | under _ up' => rw [ih up']

theorem Names.ne_parent {s : State} {n : NodeId} {names : List (List UInt8)}
    (h : s.Names n names) (hne : n ≠ root) : n ≠ (s.nodes n).parent := by
  intro hself
  cases h with
  | top => exact hne rfl
  | @under _ names hne up =>
      have hlong := Names.under hne up
      rw [← hself] at up
      have hlen := congrArg List.length (hlong.unique up)
      rw [List.length_append, List.length_singleton] at hlen
      omega

theorem Names.isChild {s : State} {n : NodeId} {names : List (List UInt8)} (h : s.Names n names)
    (hne : n ≠ root) (hlive : s.Live n) : s.IsChild (s.nodes n).parent n :=
  ⟨hlive, rfl, h.ne_parent hne⟩

variable {s : State}

theorem findChild_of_isChild (wf : s.WellFormed) {dir n : NodeId} (h : s.IsChild dir n) :
    s.findChild dir (s.nodes n).name.bytes = some n := by
  cases hfind : s.findChild dir (s.nodes n).name.bytes with
  | none => exact absurd rfl (findChild_eq_none hfind n h)
  | some j =>
      obtain ⟨hchild, hbytes⟩ := findChild_eq_some hfind
      have hname : (s.nodes j).name = (s.nodes n).name := by
        cases hj : (s.nodes j).name
        cases hn : (s.nodes n).name
        rw [hj, hn] at hbytes
        cases hbytes
        rfl
      rw [wf.names dir j n hchild h hname]

/-- Every live node has a way up to the root. -/
theorem exists_names (wf : s.WellFormed) {n : NodeId} (hlive : s.Live n) :
    ∃ names, s.Names n names := by
  induction wf.rooted n hlive with
  | root _ => exact ⟨[], .top⟩
  | @child n _ up ih =>
      by_cases hroot : n = root
      · subst hroot
        exact ⟨[], .top⟩
      · obtain ⟨names, hnames⟩ := ih up.isLive
        exact ⟨_, .under hroot hnames⟩

theorem live_parent (wf : s.WellFormed) {n : NodeId} (hlive : s.Live n) :
    s.Live (s.nodes n).parent := by
  rw [Live, wf.parent_dir n hlive]
  exact Kind.noConfusion

/-- Where no name is `.` or `..`, the names lead down to the node. -/
theorem Names.foldlM_enter (wf : s.WellFormed) {n : NodeId} {names : List (List UInt8)}
    (h : s.Names n names) (hlive : s.Live n)
    (hdots : ∀ name ∈ names, name ≠ ascii "." ∧ name ≠ ascii "..") :
    names.foldlM s.enter root = some n := by
  induction h with
  | top => rfl
  | @under n names hne up ih =>
      have hfind := findChild_of_isChild wf ((Names.under hne up).isChild hne hlive)
      obtain ⟨hdot, hup⟩ := hdots _ (List.mem_append_right _ List.mem_cons_self)
      rw [List.foldlM_append, ih (live_parent wf hlive)
        fun name hname => hdots name (List.mem_append_left _ hname)]
      simp only [List.foldlM_cons, List.foldlM_nil, Option.bind_eq_bind, Option.bind_some, enter,
        if_neg hdot, if_neg hup, hfind]
      rfl

/-- A component leads one name down, `.` and `..` do not. -/
theorem enter_depth (wf : s.WellFormed) {cur n : NodeId} {comp : List UInt8}
    {above : List (List UInt8)} (h : s.Names cur above) (henter : s.enter cur comp = some n) :
    ∃ names, s.Names n names ∧ names.length ≤ above.length + 1 ∧
      (comp = ascii "." ∨ comp = ascii ".." → names.length ≤ above.length) := by
  unfold enter at henter
  split at henter
  · cases henter
    exact ⟨above, h, Nat.le_succ _, fun _ => le_rfl⟩
  split at henter
  · cases henter
    cases h with
    | top =>
        rw [wf.root_parent]
        exact ⟨[], .top, Nat.zero_le _, fun _ => le_rfl⟩
    | @under _ names _ up =>
        rw [List.length_append, List.length_singleton]
        exact ⟨names, up, by omega, fun _ => by omega⟩
  · rename_i hdot hup
    obtain ⟨⟨hlive, hparent, hne⟩, -⟩ := findChild_eq_some henter
    have hroot : n ≠ root := by
      rintro rfl
      rw [wf.root_parent] at hparent
      exact hne hparent
    rw [← hparent] at h
    refine ⟨_, .under hroot h, ?_, fun hdots => absurd hdots ?_⟩
    · rw [List.length_append, List.length_singleton]
    · rintro (heq | heq)
      · exact hdot heq
      · exact hup heq

theorem foldlM_depth (wf : s.WellFormed) (comps : List (List UInt8)) :
    ∀ {cur n : NodeId} {above : List (List UInt8)}, s.Names cur above →
      comps.foldlM s.enter cur = some n →
      ∃ names, s.Names n names ∧ names.length ≤ above.length + comps.length ∧
        ((∃ comp ∈ comps, comp = ascii "." ∨ comp = ascii "..") →
          names.length < above.length + comps.length) := by
  induction comps with
  | nil =>
      intro cur n above h hfold
      cases hfold
      exact ⟨above, h, le_rfl, fun ⟨_, hmem, _⟩ => absurd hmem List.not_mem_nil⟩
  | cons comp comps ih =>
      intro cur n above h hfold
      rw [List.foldlM_cons] at hfold
      obtain ⟨next, hnext, hfold⟩ := Option.bind_eq_some_iff.mp hfold
      obtain ⟨between, hbetween, hle, hdots⟩ := enter_depth wf h hnext
      obtain ⟨names, hnames, hle', hdots'⟩ := ih hbetween hfold
      rw [List.length_cons]
      refine ⟨names, hnames, by omega, ?_⟩
      rintro ⟨c, hmem, hc⟩
      rcases List.mem_cons.mp hmem with rfl | hmem
      · have hshort := hdots hc
        omega
      · have hshort := hdots' ⟨c, hmem, hc⟩
        omega

/-- The names lead to the node exactly if none of them is `.` or `..`. -/
theorem Names.foldlM_iff (wf : s.WellFormed) {n : NodeId} {names : List (List UInt8)}
    (h : s.Names n names) (hlive : s.Live n) :
    names.foldlM s.enter root = some n ↔
      ∀ name ∈ names, name ≠ ascii "." ∧ name ≠ ascii ".." := by
  constructor
  · intro hfold name hmem
    obtain ⟨names', hnames', -, hstrict⟩ := foldlM_depth wf names .top hfold
    rw [← h.unique hnames', List.length_nil, Nat.zero_add] at hstrict
    constructor
    · intro heq
      exact absurd (hstrict ⟨name, hmem, Or.inl heq⟩) (Nat.lt_irrefl _)
    · intro heq
      exact absurd (hstrict ⟨name, hmem, Or.inr heq⟩) (Nat.lt_irrefl _)
  · exact h.foldlM_enter wf hlive

/-! ## Names without slashes -/

/-- The root is named `/`, and any other name is not empty and has no slash in it. -/
def NameOk (n : NodeId) (name : List UInt8) : Prop :=
  if n = root then name = [slash] else name ≠ [] ∧ slash ∉ name

/-- The live nodes are named as they should be. -/
def NamesOk (s : State) : Prop := ∀ n, s.Live n → NameOk n (s.nodes n).name.bytes

theorem NamesOk.setNode (h : s.NamesOk) (n : NodeId) (node : Node)
    (hnode : node.kind ≠ .free → NameOk n node.name.bytes) : (s.setNode n node).NamesOk := by
  intro i hlive
  by_cases hi : i = n
  · subst hi
    rw [Live, setNode_self] at hlive
    rw [setNode_self]
    exact hnode hlive
  · rw [Live, setNode_of_ne s node hi] at hlive
    rw [setNode_of_ne s node hi]
    exact h i hlive

theorem NamesOk.fresh (h : s.NamesOk) {n dir : NodeId} {name : List UInt8} {kind : Kind}
    (hroot : n ≠ root) (hcreatable : s.Creatable dir name) (hnot : slash ∉ name) :
    (s.setNode n (freshNode dir name kind)).NamesOk := by
  refine h.setNode _ _ fun _ => ?_
  obtain ⟨hne, hlen, -⟩ := hcreatable
  rw [NameOk, if_neg hroot, freshNode, nameBuf_bytes hlen]
  exact ⟨hne, hnot⟩

theorem NamesOk.mkdir (h : s.NamesOk) (dir : NodeId) {name : List UInt8} (hnot : slash ∉ name) :
    (s.mkdir dir name).2.NamesOk := by
  rcases s.mkdir_cases dir name with ⟨i, hc, -, hroot, -, heq⟩ | ⟨-, heq⟩
  · rw [heq]
    exact h.fresh hroot hc hnot
  · rw [heq]
    exact h

theorem NamesOk.createFile (h : s.NamesOk) (dir : NodeId) {name : List UInt8}
    (hnot : slash ∉ name) : (s.createFile dir name).2.NamesOk := by
  rcases s.createFile_cases dir name with ⟨i, hc, -, hroot, -, heq⟩ | ⟨i, -, -, -, heq⟩ | ⟨-, heq⟩
  · rw [heq]
    exact h.fresh hroot hc hnot
  · rw [heq]
    exact h
  · rw [heq]
    exact h

theorem NamesOk.restore (h : s.NamesOk) (n : NodeId) (data : Nat → UInt8) (next off len cap : Nat) :
    (s.restore n data next off len cap).NamesOk := by
  intro i hlive
  rw [(restore_shape i).2.1]
  exact h i ((live_restore i).mp hlive)

theorem NamesOk.write (h : s.NamesOk) (n : NodeId) {bytes : List UInt8}
    (hlen : bytes.length < 2 ^ 32) : (s.write n bytes).2.NamesOk := by
  rcases s.write_cases n hlen with ⟨-, heq⟩ | ⟨-, -, heq⟩ | ⟨-, -, -, heq⟩
  · rw [heq]
    exact h
  · rw [heq]
    exact h.restore _ _ _ _ _ _
  · rw [heq]
    exact h.restore _ _ _ _ _ _

theorem NamesOk.append (h : s.NamesOk) (n : NodeId) (bytes : List UInt8) :
    (s.append n bytes).2.NamesOk := by
  rcases s.append_cases n bytes with ⟨-, heq⟩ | ⟨-, -, heq⟩
  · rw [heq]
    exact h
  · rw [heq]
    exact h.restore _ _ _ _ _ _

theorem NamesOk.unlink (h : s.NamesOk) (n : NodeId) : (s.unlink n).2.NamesOk := by
  rcases s.unlink_cases n with ⟨-, heq⟩ | ⟨-, -, -, heq⟩
  · rw [heq]
    exact h
  · rw [heq]
    exact h.setNode _ _ fun hfree => absurd rfl hfree

theorem NamesOk.pruned {s' : State} {dir : NodeId} (h : s.NamesOk) (hpruned : PrunedBelow s dir s') :
    s'.NamesOk := by
  intro i hlive
  rcases hpruned.kept_or_cleared i with hi | hi
  · rw [Live, hi] at hlive
    rw [hi]
    exact h i hlive
  · rw [Live, hi] at hlive
    exact absurd rfl hlive

theorem NamesOk.createAndWrite (h : s.NamesOk) (dir : NodeId) {name text : List UInt8}
    (hnot : slash ∉ name) (hlen : text.length < 2 ^ 32) :
    (s.createAndWrite dir name text).NamesOk := by
  have hcreate := h.createFile dir hnot
  unfold State.createAndWrite
  generalize s.createFile dir name = r at hcreate
  obtain ⟨_ | n, s'⟩ := r
  · exact hcreate
  · exact hcreate.write n hlen

theorem NamesOk.scanEntry (h : s.NamesOk) (desktopDir idx : NodeId) (count : Nat) :
    (State.scanEntry desktopDir (s, count) idx).1.NamesOk := by
  unfold State.scanEntry
  dsimp only
  split
  · exact h
  rename_i hkeep
  split
  · exact h
  have hbase : slash ∉ (s.nodes idx).name.bytes := by
    have hfile : (s.nodes idx).kind = .file := by
      by_contra hk
      exact hkeep (Or.inr (Or.inl hk))
    have hok := h idx (by rw [Live, hfile]; exact Kind.noConfusion)
    unfold NameOk at hok
    split at hok
    · rw [hok] at hkeep
      exact absurd (Or.inr (Or.inr (by decide))) hkeep
    · exact hok.2
  have hnot : slash ∉ shortcutName
      ((s.nodes idx).name.bytes.take ((s.nodes idx).name.bytes.length - 4)) := by
    intro hmem
    have hin := List.takeWhile_subset _ hmem
    rcases List.mem_append.mp hin with hin | hin
    · rcases List.mem_append.mp hin with hin | hin
      · exact hbase (List.mem_of_mem_take (List.mem_of_mem_take hin))
      · exact absurd hin (by decide)
    · exact absurd (List.eq_of_mem_replicate hin) (by decide)
  have hcreate := h.createFile desktopDir hnot
  generalize s.createFile desktopDir _ = r at hcreate
  obtain ⟨_ | n, s'⟩ := r
  · exact hcreate
  · exact hcreate.write n (length_shortcutText_lt (s.nodes idx).name _)

theorem init_namesOk : init.NamesOk := by
  have hblank : blank.NamesOk := by
    let cleared : State := { nodes := fun _ => Node.empty, data := fun _ => 0, dataNext := 0, cwd := root }
    have hcleared : cleared.NamesOk := fun i hlive => absurd rfl hlive
    refine hcleared.setNode root _ fun _ => ?_
    rw [NameOk, if_pos rfl]
    rfl
  have hbase : (["bin", "dev", "etc", "home", "tmp"].foldl
      (fun s name => (s.mkdir root (ascii name)).2) blank).NamesOk := by
    refine List.foldlRecOn (motive := NamesOk) _ _ hblank fun s hs name hname => hs.mkdir root ?_
    revert name
    decide
  have hetc (s : State) (hs : s.NamesOk) : s.initEtc.NamesOk := by
    unfold initEtc
    split
    · obtain ⟨hmotd, hrelease, hversion⟩ := length_etcText_lt
      exact ((hs.createAndWrite _ (by decide) hmotd).createAndWrite _ (by decide)
        hrelease).createAndWrite _ (by decide) hversion
    · exact hs
  have hhome (s : State) (hs : s.NamesOk) : s.initHome.NamesOk := by
    unfold initHome
    split
    · exact hs.mkdir _ (by decide)
    · exact hs
  have hscan (s : State) (hs : s.NamesOk) (desktopDir : NodeId) :
      (s.scanAppsForShortcuts desktopDir).NamesOk := by
    unfold State.scanAppsForShortcuts
    dsimp only
    split
    · exact hs
    refine List.foldlRecOn (motive := fun acc : State × Nat => acc.1.NamesOk) _ _ hs ?_
    rintro ⟨s', count⟩ hs' i _
    dsimp only
    split
    · exact hs'.scanEntry desktopDir i count
    · exact hs'
  have hdesktop (s : State) (hs : s.NamesOk) : s.initDesktop.NamesOk := by
    unfold initDesktop
    dsimp only
    split
    · exact hscan _ (hs.mkdir _ (by decide)) _
    · exact hs.mkdir _ (by decide)
  unfold init
  exact hdesktop _ (hhome _ (hetc _ hbase))

/-! ## Round trips -/

theorem Names.namesOk (wf : s.WellFormed) (hok : s.NamesOk) {n : NodeId}
    {names : List (List UInt8)} (h : s.Names n names) (hlive : s.Live n) :
    ∀ name ∈ names, name ≠ [] ∧ slash ∉ name := by
  induction h with
  | top => exact fun name hmem => absurd hmem List.not_mem_nil
  | @under n names hne up ih =>
      intro name hmem
      rcases List.mem_append.mp hmem with hmem | hmem
      · exact ih (live_parent wf hlive) name hmem
      · have hname := hok n hlive
        rw [NameOk, if_neg hne] at hname
        rw [List.mem_singleton.mp hmem]
        exact hname

theorem roundTrips_iff (wf : s.WellFormed) (hok : s.NamesOk) {n : NodeId} (hlive : s.Live n) :
    s.RoundTrips n ↔ s.Spellable n := by
  have hiff {names : List (List UInt8)} (h : s.Names n names) :
      ((∀ cap, (absolute names).length ≤ cap → s.pathOf n cap = absolute names) ∧
        s.scanFrom s.cwd (absolute names) = some n) ↔
      names.length ≤ 32 ∧ ∀ name ∈ names, name ≠ ascii "." ∧ name ≠ ascii ".." := by
    rw [scanFrom_absolute s s.cwd (h.namesOk wf hok hlive)]
    exact and_congr h.pathOf_iff (h.foldlM_iff wf hlive)
  constructor
  · rintro ⟨names, h, htrip⟩
    exact ⟨names, h, (hiff h).mp htrip⟩
  · rintro ⟨names, h, hspell⟩
    exact ⟨names, h, (hiff h).mpr hspell⟩

theorem slash_notMem_leaf {path leaf : List UInt8} {dir : NodeId}
    (h : s.resolveParent path = some (dir, leaf)) : slash ∉ leaf := by
  rcases exists_last_slash path with hnot | ⟨a, b, rfl, hnot⟩
  · rw [resolveParent_of_notMem s hnot] at h
    cases h
    exact hnot
  · rw [resolveParent_append s a hnot] at h
    split at h
    · cases h
    · obtain ⟨parent, -, h⟩ := Option.bind_eq_some_iff.mp h
      split at h
      · cases h
        exact hnot
      · cases h

/-- The names that the kernel itself gives to nodes when it is up: those of `save_config` and
of the test runner. -/
def kernelNames : List (List UInt8) :=
  [ascii "etc", ascii "pureos.conf", ascii "td", ascii "td2", ascii "a.txt"]

/-- A name that a node may be created under: the leaf of a path, or one of the kernel's. -/
def Nameable (s : State) (name : List UInt8) : Prop :=
  (∃ path dir, s.resolveParent path = some (dir, name)) ∨ name ∈ kernelNames

theorem Nameable.slash_notMem {name : List UInt8} (h : s.Nameable name) : slash ∉ name := by
  rcases h with ⟨path, dir, h⟩ | h
  · exact slash_notMem_leaf h
  · revert name
    decide

end State

/-- The name under which a request creates a node. -/
def ShellOp.creates : ShellOp → Option (List UInt8)
  | .node (.mkdir _ name) => some name
  | .node (.createFile _ name) => some name
  | _ => none

/-- A step of the file system under the shell and the syscalls, which create nodes under the
names they can take from a path. -/
def NamedStep (s : State) (op : ShellOp) (s' : State) : Prop :=
  ShellStep s op s' ∧ ∀ name, op.creates = some name → s.Nameable name

/-- A step keeps the node table in order and its names as they should be. -/
theorem namedStep_spec {s s' : State} {op : ShellOp} (wf : s.WellFormed) (hok : s.NamesOk)
    (h : NamedStep s op s') : s'.WellFormed ∧ s'.NamesOk := by
  obtain ⟨hstep, hname⟩ := h
  cases hstep with
  | @node op fits =>
      refine ⟨wf.exec fits, ?_⟩
      cases op with
      | mkdir dir name => exact hok.mkdir dir (hname name rfl).slash_notMem
      | createFile dir name => exact hok.createFile dir (hname name rfl).slash_notMem
      | write n bytes => exact hok.write n fits
      | append n bytes => exact hok.append n bytes
      | read n => exact hok
      | unlink n => exact hok.unlink n
  | rmRecursive done =>
      obtain ⟨wf', hpruned⟩ := State.rmRecursive_spec _ wf done
      exact ⟨wf', hok.pruned hpruned⟩
  | @setCwd node =>
      refine ⟨wf.setCwd node, ?_⟩
      unfold State.setCwd
      split
      · exact hok
      · exact hok

/-- In every state that is reached, the path of a live node leads back to it exactly if it is at
most 32 names long and none of them is `.` or `..`. -/
theorem path_round_trips_iff {s : State} {h : List ShellOp} {n : NodeId}
    (run : Run NamedStep State.init h s) (hlive : s.Live n) : s.RoundTrips n ↔ s.Spellable n := by
  have hinv : s.WellFormed ∧ s.NamesOk := by
    refine run.invariant_state (fun s => s.WellFormed ∧ s.NamesOk)
      ⟨State.init_wellFormed, State.init_namesOk⟩ ?_
    exact fun s op s' hs hstep => namedStep_spec hs.1 hs.2 hstep
  exact State.roundTrips_iff hinv.1 hinv.2 hlive

/-- `mkdir .` in the root. -/
def dotMade : State := (State.init.exec (.mkdir root (ascii "."))).2

theorem run_dotMade : Run NamedStep State.init [.node (.mkdir root (ascii "."))] dotMade := by
  have hstep : ShellStep State.init (.node (.mkdir root (ascii "."))) dotMade := by
    rw [dotMade]
    exact .node trivial
  refine .snoc (h := []) .nil ⟨hstep, ?_⟩
  rintro name ⟨⟩
  exact Or.inl ⟨ascii ".", _, State.resolveParent_of_notMem _ (by decide)⟩

theorem dotMade_node : dotMade.nodes 11 = State.freshNode root (ascii ".") .dir := by
  rw [dotMade, State.init_eq]
  decide +kernel

theorem dotMade_live : dotMade.Live 11 := by
  rw [State.Live, dotMade_node]
  exact Kind.noConfusion

theorem path_round_trips_iff_dotMade : dotMade.RoundTrips 11 ↔ dotMade.Spellable 11 :=
  path_round_trips_iff run_dotMade dotMade_live

/-- The shell makes a directory that its path does not lead to. -/
theorem not_path_round_trips : ¬∀ (s : State) (h : List ShellOp) (n : NodeId),
    Run NamedStep State.init h s → s.Live n → s.RoundTrips n := by
  intro hall
  obtain ⟨names, hnames, -, hscan⟩ := hall _ _ 11 run_dotMade dotMade_live
  have hdot : dotMade.Names 11 ([] ++ [(dotMade.nodes 11).name.bytes]) := by
    refine .under (by decide) ?_
    rw [dotMade_node]
    exact .top
  rw [hnames.unique hdot, dotMade_node, List.nil_append, State.scanFrom_absolute _ _ (by decide)] at hscan
  exact absurd hscan (by decide)

end PureOS.Fs
