import PureOS.Config.State
import PureOS.Fs.Commands

set_option autoImplicit false

/-!
# Config: saving and loading (`config.rs`)

`save_config` finds or creates its file and does not look at whether the write succeeded;
`load_config` checks that there are 104 bytes and reads 111.
-/

namespace PureOS.Config

open PureOS.Foundation PureOS.Fs

/-- The file that `resolve(b"/etc/pureos.conf")` finds. -/
def confFile (s : State) : Option NodeId :=
  (s.scanFrom s.cwd (ascii "/etc/pureos.conf")).filter fun n => s.kind n = .file

/-- The directory that `resolve(b"/etc")` finds. -/
def etcDir (s : State) : Option NodeId :=
  (s.scanFrom s.cwd (ascii "/etc")).filter fun n => s.kind n = .dir

namespace SystemConfig

/-- The end of `save_config`: the result of the write is not looked at. -/
def saved (c : SystemConfig) (s : State) (path : NodeId) : Bool × List UInt8 × State :=
  (true, ascii "Configuration saved to /etc/pureos.conf\n", (s.write path c.serialize).2)

/-- `save_config`: the answer, what is written to the terminal and the file system afterwards. -/
def saveConfig (c : SystemConfig) (s : State) : Bool × List UInt8 × State :=
  match confFile s with
  | some n => c.saved s n
  | none =>
      let (etc, s) :=
        match etcDir s with
        | some n => (some n, s)
        | none => s.mkdir root (ascii "etc")
      match etc with
      | none => (false, ascii "config: cannot create /etc\n", s)
      | some etc =>
          match s.createFile etc (ascii "pureos.conf") with
          | (none, s) => (false, ascii "config: cannot create /etc/pureos.conf\n", s)
          | (some n, s) => c.saved s n

/-- `load_config`: the answer, what is written to the terminal and the configuration
afterwards.  There is no result if an index is out of bounds. -/
def loadConfig (s : State) (c : SystemConfig) : Option (Bool × List UInt8 × SystemConfig) :=
  match confFile s with
  | none => some (false, ascii "config: /etc/pureos.conf not found\n", c)
  | some n => loadData (s.read n) c

/-- Loading from the file system gives back a configuration. -/
def RestoredBy (c : SystemConfig) (s : State) : Prop :=
  ∀ c', ∃ text, loadConfig s c' = some (true, text, c)

end SystemConfig

/-- The bytes that the file can hold where it is. -/
def confCap (s : State) : Nat :=
  match confFile s with
  | some n => (s.nodes n).dataCap
  | none => 0

/-! ## The file in the tree -/

section Tree

variable {s : State} {n etc : NodeId}

theorem scanFrom_etc (s : State) :
    s.scanFrom s.cwd (ascii "/etc") = s.findChild root (ascii "etc") := by
  have habs : ascii "/etc" = absolute [ascii "etc"] := by decide
  rw [habs, State.scanFrom_absolute _ _ (by decide), List.foldlM_cons, State.enter,
    if_neg (by decide), if_neg (by decide)]
  simp

theorem scanFrom_conf (s : State) :
    s.scanFrom s.cwd (ascii "/etc/pureos.conf") =
      (s.findChild root (ascii "etc")).bind fun etc => s.findChild etc (ascii "pureos.conf") := by
  have habs : ascii "/etc/pureos.conf" = absolute [ascii "etc", ascii "pureos.conf"] := by decide
  have henter (cur : NodeId) :
      s.enter cur (ascii "pureos.conf") = s.findChild cur (ascii "pureos.conf") := by
    rw [State.enter, if_neg (by decide), if_neg (by decide)]
  rw [habs, State.scanFrom_absolute _ _ (by decide), List.foldlM_cons, State.enter,
    if_neg (by decide), if_neg (by decide)]
  simp [henter]

/-- The file is found where it stands. -/
theorem confFile_iff : confFile s = some n ↔
    ∃ etc, s.findChild root (ascii "etc") = some etc ∧
      s.findChild etc (ascii "pureos.conf") = some n ∧ (s.nodes n).kind = .file := by
  rw [confFile, scanFrom_conf]
  constructor
  · intro h
    obtain ⟨hfind, hk⟩ := Option.filter_eq_some_iff.mp h
    obtain ⟨etc, hetc, hn⟩ := Option.bind_eq_some_iff.mp hfind
    exact ⟨etc, hetc, hn, of_decide_eq_true hk⟩
  · rintro ⟨etc, hetc, hn, hk⟩
    rw [hetc, Option.bind_some, hn]
    exact Option.filter_eq_some_iff.mpr ⟨rfl, decide_eq_true hk⟩

/-- Writing to a file moves nothing. -/
theorem confFile_write {bytes : List UInt8} (hlen : bytes.length < 2 ^ 32) :
    confFile (s.write n bytes).2 = confFile s := by
  have hshape := @State.write_shape s n bytes hlen
  have hkind := @State.write_kind s n bytes hlen
  have hfind (dir : NodeId) (name : List UInt8) :
      (s.write n bytes).2.findChild dir name = s.findChild dir name := by
    unfold State.findChild
    congr 1
    funext i
    simp only [(hshape i).1, (hshape i).2]
  have hfile : (fun i => decide ((s.write n bytes).2.kind i = .file)) =
      fun i => decide (s.kind i = .file) := by
    funext i
    rw [State.kind, State.kind, hkind]
  rw [confFile, confFile, scanFrom_conf, scanFrom_conf, hfile]
  simp only [hfind]

end Tree

/-! ## What is loaded after a save -/

namespace SystemConfig

variable {s : State} {n : NodeId}

theorem loadConfig_of_some (h : confFile s = some n) (c : SystemConfig) :
    loadConfig s c = loadData (s.read n) c := by
  rw [loadConfig, h]

/-- The write that ends `save_config` is what decides. -/
theorem restoredBy_saved_iff (wf : s.WellFormed) (h : confFile s = some n) (c : SystemConfig) :
    c.RestoredBy (c.saved s n).2.2 ↔ 111 ≤ (s.nodes n).dataCap ∨ s.dataNext + 111 ≤ dataPool := by
  obtain ⟨etc, -, -, hk⟩ := confFile_iff.mp h
  have hlen : c.serialize.length < 2 ^ 32 := by
    rw [length_serialize]
    decide
  have hsaved : confFile (c.saved s n).2.2 = some n := (confFile_write hlen).trans h
  constructor
  · intro hrestored
    by_contra hnot
    obtain ⟨hcap, hpool⟩ := not_or.mp hnot
    have hfails : s.NoRoom c.serialize.length (s.nodes n).dataCap := by
      rw [length_serialize]
      exact ⟨Nat.not_le.mp hcap, Nat.not_le.mp hpool⟩
    obtain ⟨text, hload⟩ := hrestored c
    have hsame : (c.saved s n).2.2 = s := by rw [saved, State.write_of_noRoom hlen hfails]
    rw [hsame, loadConfig_of_some h] at hload
    have hparse := loadData_loaded hload
    have hshort := State.length_read_le_cap wf hk
    rw [parse_of_lt (by omega)] at hparse
    cases hparse
  · intro hroom c'
    have hok : ¬s.NoRoom c.serialize.length (s.nodes n).dataCap := by
      rw [length_serialize]
      rintro ⟨hcap, hpool⟩
      omega
    have hread : (c.saved s n).2.2.read n = c.serialize := (State.Holds.of_write wf hk hlen hok).2
    rw [loadConfig_of_some hsaved, hread]
    exact ⟨_, loadData_serialize c c'⟩

/-- A file that `save_config` creates in a directory `etc` of the root is found afterwards, and
it is empty. -/
theorem confFile_created {etc : NodeId} {s' : State} (wf : s.WellFormed)
    (hetc : s.findChild root (ascii "etc") = some etc) (hnone : confFile s = none)
    (h : s.createFile etc (ascii "pureos.conf") = (some n, s')) :
    s'.WellFormed ∧ confFile s' = some n ∧ (s'.nodes n).dataCap = 0 ∧ s'.dataNext = s.dataNext := by
  have wf' : s'.WellFormed := by
    have hwf := wf.createFile etc (ascii "pureos.conf")
    rwa [h] at hwf
  have hcreated := State.createFile_created h
  have hfind : s'.findChild etc (ascii "pureos.conf") = some n := by
    have hfind := State.findChild_of_isChild wf' hcreated.child
    rwa [hcreated.name] at hfind
  rcases hcreated.how with ⟨hfound, rfl⟩ | ⟨-, -, hfree, hcap⟩
  · rw [confFile_iff.mpr ⟨etc, hetc, hfound, hcreated.file⟩] at hnone
    cases hnone
  · obtain ⟨⟨hlive, hparent, hne⟩, hname⟩ := State.findChild_eq_some hetc
    have hsame : s'.nodes etc = s.nodes etc := by
      have hkept := s.createFile_live etc (ascii "pureos.conf") hlive
      rwa [h] at hkept
    have hetc' : s'.findChild root (ascii "etc") = some etc := by
      have hchild : s'.IsChild root etc := by
        refine ⟨?_, ?_, hne⟩
        · rw [State.Live, hsame]
          exact hlive
        · rw [hsame]
          exact hparent
      have hfind' := State.findChild_of_isChild wf' hchild
      rwa [hsame, hname] at hfind'
    exact ⟨wf', confFile_iff.mpr ⟨etc, hetc', hfind, hcreated.file⟩, hcap, hcreated.next⟩

theorem confFile_of_created {etc : NodeId} (wf : s.WellFormed)
    (hetc : s.findChild root (ascii "etc") = some etc) (hnone : confFile s = none)
    (h : (s.createFile etc (ascii "pureos.conf")).1 = some n) :
    (s.createFile etc (ascii "pureos.conf")).2.WellFormed ∧
      confFile (s.createFile etc (ascii "pureos.conf")).2 = some n ∧
      ((s.createFile etc (ascii "pureos.conf")).2.nodes n).dataCap = 0 ∧
      (s.createFile etc (ascii "pureos.conf")).2.dataNext = s.dataNext :=
  confFile_created wf hetc hnone (Prod.ext h rfl)

/-- A directory that `save_config` creates is empty. -/
theorem confFile_mkdir {etc : NodeId} {s' : State} (wf : s.WellFormed)
    (h : s.mkdir root (ascii "etc") = (some etc, s')) :
    s'.WellFormed ∧ s'.findChild root (ascii "etc") = some etc ∧ confFile s' = none ∧
      s'.dataNext = s.dataNext := by
  have wf' : s'.WellFormed := by
    have hwf := wf.mkdir root (ascii "etc")
    rwa [h] at hwf
  rcases s.mkdir_cases root (ascii "etc") with ⟨i, hc, -, hroot, hfree, heq⟩ | ⟨-, heq⟩
  · obtain ⟨hi, hs'⟩ := Prod.mk.inj (heq.symm.trans h)
    cases hi
    subst hs'
    have hself := s.setNode_self etc (State.freshNode root (ascii "etc") .dir)
    have hchild : (s.setNode etc (State.freshNode root (ascii "etc") .dir)).IsChild root etc := by
      refine ⟨?_, ?_, hroot⟩
      · rw [State.Live, hself]
        exact Kind.noConfusion
      · rw [hself, State.freshNode_parent]
    have hfind := State.findChild_of_isChild wf' hchild
    rw [hself, State.freshNode, State.nameBuf_bytes hc.2.1] at hfind
    refine ⟨wf', hfind, ?_, rfl⟩
    cases hconf : confFile (s.setNode etc (State.freshNode root (ascii "etc") .dir)) with
    | none => rfl
    | some m =>
        -- What stands in the new directory would have stood in a free slot before.
        obtain ⟨etc', hetc', hm, -⟩ := confFile_iff.mp hconf
        obtain rfl : etc = etc' := Option.some.inj (hfind.symm.trans hetc')
        obtain ⟨⟨hlive, hparent, hne⟩, -⟩ := State.findChild_eq_some hm
        rw [State.Live, s.setNode_of_ne _ hne] at hlive
        rw [s.setNode_of_ne _ hne] at hparent
        have hdir := wf.parent_dir m hlive
        rw [hparent] at hdir
        exact absurd (by rw [State.Live, hdir]; exact Kind.noConfusion) hfree
  · exact absurd (congrArg Prod.fst (heq.symm.trans h)) (by simp)

/-- After a save that reports success, loading restores the configuration exactly if there was
room for it. -/
theorem restoredBy_save_iff (wf : s.WellFormed) (c : SystemConfig)
    (hsave : (c.saveConfig s).1 = true) :
    c.RestoredBy (c.saveConfig s).2.2 ↔ 111 ≤ confCap s ∨ s.dataNext + 111 ≤ dataPool := by
  unfold saveConfig at hsave ⊢
  cases hconf : confFile s with
  | some n =>
      simp only [confCap, hconf]
      exact restoredBy_saved_iff wf hconf c
  | none =>
      simp only [hconf] at hsave ⊢
      have hcap : confCap s = 0 := by rw [confCap, hconf]
      rw [hcap]
      -- The state in which the directory is there.
      have hfinish {etc : NodeId} {s₁ : State} (wf₁ : s₁.WellFormed)
          (hetc : s₁.findChild root (ascii "etc") = some etc) (hnone : confFile s₁ = none)
          (hnext : s₁.dataNext = s.dataNext) {r : Option NodeId × State}
          (hr : s₁.createFile etc (ascii "pureos.conf") = r) {n : NodeId} (hn : r.1 = some n) :
          c.RestoredBy (c.saved r.2 n).2.2 ↔ 111 ≤ 0 ∨ s.dataNext + 111 ≤ dataPool := by
        obtain ⟨wf₂, hfound, hzero, hnext₂⟩ :=
          confFile_created wf₁ hetc hnone (hr.trans (Prod.ext hn rfl))
        rw [restoredBy_saved_iff wf₂ hfound, hzero, hnext₂, hnext]
      cases hdir : etcDir s with
      | some etc =>
          simp only [hdir] at hsave ⊢
          have hetc : s.findChild root (ascii "etc") = some etc := by
            rw [etcDir, scanFrom_etc] at hdir
            exact (Option.filter_eq_some_iff.mp hdir).1
          generalize hr : s.createFile etc (ascii "pureos.conf") = r at hsave ⊢
          obtain ⟨_ | n, s₂⟩ := r
          · cases hsave
          · exact hfinish wf hetc hconf rfl hr rfl
      | none =>
          simp only [hdir] at hsave ⊢
          generalize hmk : s.mkdir root (ascii "etc") = r at hsave ⊢
          obtain ⟨_ | etc, s₁⟩ := r
          · cases hsave
          · obtain ⟨wf₁, hetc, hnone, hnext⟩ := confFile_mkdir wf hmk
            dsimp only at hsave ⊢
            generalize hr : s₁.createFile etc (ascii "pureos.conf") = r at hsave ⊢
            obtain ⟨_ | n, s₂⟩ := r
            · cases hsave
            · exact hfinish wf₁ hetc hnone hnext hr rfl

/-- Loading comes back unless the file breaks off between its two lengths. -/
theorem loadConfig_isSome_iff (s : State) (c : SystemConfig) :
    (loadConfig s c).isSome = true ↔ ∀ n, confFile s = some n → ¬Truncated (s.read n) := by
  cases hconf : confFile s with
  | none =>
      rw [loadConfig, hconf]
      exact iff_of_true rfl fun n hn => by cases hn
  | some n =>
      rw [loadConfig_of_some hconf, loadData_isSome_iff]
      constructor
      · rintro h n' ⟨⟩
        exact h
      · exact fun h => h n rfl

end SystemConfig

open SystemConfig in
/-- In every state that is reached: a save that reports success is undone by a load exactly if
there was room for its 111 bytes, and a load comes back exactly if the file, with a right header,
does not have between 104 and 110 bytes. -/
theorem save_load_iff {s : State} {h : List ShellOp} (run : Run ShellStep State.init h s)
    (c : SystemConfig) :
    ((c.saveConfig s).1 = true →
      (c.RestoredBy (c.saveConfig s).2.2 ↔ 111 ≤ confCap s ∨ s.dataNext + 111 ≤ dataPool)) ∧
    ((loadConfig s c).isSome = true ↔ ∀ n, confFile s = some n → ¬Truncated (s.read n)) :=
  ⟨fun hsave => restoredBy_save_iff (run_wellFormed_shell run) c hsave, loadConfig_isSome_iff s c⟩

theorem save_load_iff_init : (((SystemConfig.default).saveConfig State.init).1 = true →
      (SystemConfig.default.RestoredBy (SystemConfig.default.saveConfig State.init).2.2 ↔
        111 ≤ confCap State.init ∨ State.init.dataNext + 111 ≤ dataPool)) ∧
    ((SystemConfig.loadConfig State.init .default).isSome = true ↔
      ∀ n, confFile State.init = some n → ¬SystemConfig.Truncated (State.init.read n)) :=
  save_load_iff .nil _

/-- A file with a right header and 100 bytes behind it. -/
def shortFile : List UInt8 := SystemConfig.magic ++ .replicate 100 0

/-- `/etc/pureos.conf` with that content. -/
def shortConf : State :=
  ((State.init.createFile 3 (ascii "pureos.conf")).2.write 11 shortFile).2

theorem run_shortConf : Run ShellStep State.init
    [.node (.createFile 3 (ascii "pureos.conf")), .node (.write 11 shortFile)] shortConf := by
  have hfirst : Run ShellStep State.init [.node (.createFile 3 (ascii "pureos.conf"))]
      (State.init.createFile 3 (ascii "pureos.conf")).2 := by
    refine .snoc (h := []) .nil ?_
    rw [← exec_createFile]
    exact .node trivial
  refine hfirst.snoc ?_
  rw [shortConf, ← exec_write]
  have hfits : State.FitsU32 (.write 11 shortFile) := by
    show shortFile.length < 2 ^ 32
    decide
  exact .node hfits

open SystemConfig in
/-- Loading a file of 104 bytes panics. -/
theorem not_save_load : ¬∀ (s : State) (h : List ShellOp) (c : SystemConfig),
    Run ShellStep State.init h s →
      ((c.saveConfig s).1 = true → c.RestoredBy (c.saveConfig s).2.2) ∧
        (loadConfig s c).isSome = true := by
  intro hall
  have hinit : (State.init.createFile 3 (ascii "pureos.conf")).1 = some 11 ∧
      State.init.findChild root (ascii "etc") = some 3 ∧
      State.init.findChild 3 (ascii "pureos.conf") = none ∧
      State.init.dataNext + 104 ≤ dataPool := by
    rw [State.init_eq]
    decide +kernel
  obtain ⟨hcreate, hetc, hfresh, hroom⟩ := hinit
  have hnone : confFile State.init = none := by
    cases hconf : confFile State.init with
    | none => rfl
    | some n =>
        obtain ⟨etc, hetc', hn, -⟩ := confFile_iff.mp hconf
        obtain rfl := Option.some.inj (hetc.symm.trans hetc')
        exact absurd (hfresh.symm.trans hn) (by simp)
  obtain ⟨wf, hconf, -, hnext⟩ :=
    confFile_of_created State.init_wellFormed hetc hnone hcreate
  have hlen : shortFile.length = 104 := rfl
  have hfile := (confFile_iff.mp hconf).choose_spec.2.2
  have hok : ¬(State.init.createFile 3 (ascii "pureos.conf")).2.NoRoom shortFile.length
      ((State.init.createFile 3 (ascii "pureos.conf")).2.nodes 11).dataCap := by
    rintro ⟨-, hpool⟩
    rw [hnext, hlen] at hpool
    omega
  have hread : shortConf.read 11 = shortFile := by
    rw [shortConf]
    exact (State.Holds.of_write wf hfile (by rw [hlen]; decide) hok).2
  have hconf' : confFile shortConf = some 11 := by
    rw [shortConf, confFile_write (by rw [hlen]; decide)]
    exact hconf
  refine (loadConfig_isSome_iff shortConf default).mp (hall _ _ _ run_shortConf).2 11 hconf' ?_
  rw [hread]
  exact ⟨by refine ⟨?_, ?_, ?_, ?_, ?_⟩ <;> decide, hlen.ge, by rw [hlen]; decide⟩

end PureOS.Config
