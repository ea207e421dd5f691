import PureOS.Files.Calls
import PureOS.Fs.Cwd

set_option autoImplicit false

/-!
# Files: the file behind a descriptor

A descriptor keeps the number of a node and the node table gives the slots of
removed files away again, so a descriptor whose file was removed goes on working:
on nothing at first, and then on the next file in the slot.  To say so, the runs
here count how often each slot was cleared: a file is a slot together with that
count, and stays apart from every other file that was or will be in the slot.

As long as no removal takes a file that some descriptor has open, every
descriptor keeps referring to the file that it was opened on.
-/

namespace PureOS.Files

open PureOS.Foundation PureOS.Fs PureOS.Process

/-- A file: a slot of the node table, and how often the slot had been cleared when
the file was put there. -/
abbrev FileId := NodeId × Nat

/-- The system with what the code does not keep. -/
structure Traced where
  sys : System
  /-- How often each slot of the node table was cleared. -/
  cleared : NodeId → Nat
  /-- That count for the slot of a descriptor, when the descriptor was opened. -/
  openedAt : Pid → Fd → Nat

/-- What may happen: a call on descriptors, an operation of the shell or of another
part of the kernel on the file system, the end or the creation of a process, a key. -/
inductive Event where
  | sysOpen (pid : Pid) (mem : Nat → UInt8) (pathPtr flags : Nat)
  | sysClose (pid : Pid) (fd : Nat)
  | sysDup (pid : Pid) (fd : Nat)
  | sysFcntl (pid : Pid) (fd cmd arg : Nat)
  | sysRead (pid : Pid) (fd buf len : Nat)
  | sysWrite (pid : Pid) (mem : Nat → UInt8) (fd buf len : Nat)
  | sysLseek (pid : Pid) (fd : Nat) (offset : Int) (whence : Nat)
  | shell (op : ShellOp)
  | freeFds (pid : Pid)
  | provision (pid : Pid) (pcb : Pcb)
  | key (b : UInt8)

/-- What an event does to the system. -/
inductive SysStep (s : System) : Event → System → Prop
  | sysOpen {pid : Pid} {mem : Nat → UInt8} {pathPtr flags : Nat} :
      SysStep s (.sysOpen pid mem pathPtr flags) (s.sysOpen pid mem pathPtr flags).2
  | sysClose {pid : Pid} {fd : Nat} : SysStep s (.sysClose pid fd) (s.sysClose pid fd).2
  | sysDup {pid : Pid} {fd : Nat} : SysStep s (.sysDup pid fd) (s.sysDup pid fd).2
  | sysFcntl {pid : Pid} {fd cmd arg : Nat} :
      SysStep s (.sysFcntl pid fd cmd arg) (s.sysFcntl pid fd cmd arg).2
  | sysRead {pid : Pid} {fd buf len : Nat} :
      SysStep s (.sysRead pid fd buf len) (s.sysRead pid fd buf len).2.2
  | sysWrite {pid : Pid} {mem : Nat → UInt8} {fd buf len : Nat} :
      SysStep s (.sysWrite pid mem fd buf len) (s.sysWrite pid mem fd buf len).2
  | sysLseek {pid : Pid} {fd : Nat} {offset : Int} {whence : Nat} :
      SysStep s (.sysLseek pid fd offset whence) (s.sysLseek pid fd offset whence).2
  | shell {op : ShellOp} {fs : State} (done : ShellStep s.fs op fs) :
      SysStep s (.shell op) { s with fs := fs }
  | freeFds {pid : Pid} : SysStep s (.freeFds pid) (s.freeFds pid)
  | provision {pid : Pid} {pcb : Pcb} : SysStep s (.provision pid pcb) (s.provision pid pcb)
  | key {b : UInt8} : SysStep s (.key b) { s with keys := s.keys ++ [b] }

namespace Traced

/-- The count that a descriptor opened by the event gets: a copy that of the
original, any other one that of its slot. -/
def originOf (t : Traced) (e : Event) (pid : Pid) (inode : NodeId) : Nat :=
  match e with
  | .sysDup _ fd | .sysFcntl _ fd _ _ => System.withFd fd 0 fun fd => t.openedAt pid fd
  | _ => t.cleared inode

/-- The counts after an event that leads to the system `s`. -/
def next (t : Traced) (e : Event) (s : System) : Traced where
  sys := s
  cleared i := if t.sys.fs.Live i ∧ ¬s.fs.Live i then t.cleared i + 1 else t.cleared i
  openedAt pid fd :=
    if (t.sys.fds pid fd).kind = .free ∧ (s.fds pid fd).kind = .file then
      t.originOf e pid (s.fds pid fd).inode
    else t.openedAt pid fd

/-- The boot state: nothing was cleared. -/
def boot : Traced where
  sys := System.boot
  cleared := fun _ => 0
  openedAt := fun _ _ => 0

theorem boot_eq : boot = { boot with sys := { System.boot with fs := State.baseTree } } :=
  congrArg (fun sys => { boot with sys := sys }) System.boot_eq

/-- The content of a file, as long as it is there. -/
def content (t : Traced) (f : FileId) : Option (List UInt8) :=
  if (t.sys.fs.nodes f.1).kind = .file ∧ f.2 = t.cleared f.1 then some (t.sys.fs.read f.1)
  else none

/-- The file that a descriptor was opened on. -/
def fileOf (t : Traced) (pid : Pid) (fd : Fd) : FileId :=
  ((t.sys.fds pid fd).inode, t.openedAt pid fd)

/-- A descriptor refers to the file it was opened on: what a read stores comes from
it, a write changes no other file and a successful one gives it the new content,
and when it has been removed every call reports an error. -/
structure Refers (t : Traced) (pid : Pid) (fd : Fd) : Prop where
  reads : ∀ buf len, (t.sys.sysRead pid fd buf len).2.1 = [] ∨
    ∃ bytes, t.content (t.fileOf pid fd) = some bytes ∧
      (t.sys.sysRead pid fd buf len).2.1 <+: bytes.drop (t.sys.fds pid fd).offset
  writes : ∀ mem buf len, len < 2 ^ 32 → ∀ f, f ≠ t.fileOf pid fd →
    (t.next (.sysWrite pid mem fd buf len) (t.sys.sysWrite pid mem fd buf len).2).content f =
      t.content f
  stores : ∀ mem buf len, 0 < len → len < 2 ^ 32 → 0 ≤ (t.sys.sysWrite pid mem fd buf len).1 →
    (t.next (.sysWrite pid mem fd buf len) (t.sys.sysWrite pid mem fd buf len).2).content
      (t.fileOf pid fd) = some (slice mem buf len)
  removed : t.content (t.fileOf pid fd) = none →
    (∀ buf len, 0 < len → (t.sys.sysRead pid fd buf len).1 < 0) ∧
    (∀ mem buf len, 0 < len → len < 2 ^ 32 → (t.sys.sysWrite pid mem fd buf len).1 < 0) ∧
    ∀ offset whence, (t.sys.sysLseek pid fd offset whence).1 < 0

/-- Every open descriptor on a file refers to the file it was opened on. -/
def Identified (t : Traced) : Prop :=
  ∀ pid fd, (t.sys.fds pid fd).kind = .file → t.Refers pid fd

/-- A step of the system with its counts. -/
inductive Step : Traced → Event → Traced → Prop
  | mk {t : Traced} {e : Event} {s : System} (step : SysStep t.sys e s) : Step t e (t.next e s)

/-- No descriptor has the node open. -/
def Unopened (s : System) (node : NodeId) : Prop :=
  ∀ pid fd, (s.fds pid fd).kind = .file → (s.fds pid fd).inode ≠ node

/-- The removal that an event asks for takes no file that a descriptor has open, and
a write fits the source's `u32`. -/
def SparesOpen (s : System) : Event → Prop
  | .shell (.node (.unlink node)) => Unopened s node
  | .shell (.rmRecursive dir) => ∀ node, s.fs.Below dir node → Unopened s node
  | .sysWrite _ _ _ _ len => len < 2 ^ 32
  | _ => True

/-- A step that spares the open files. -/
def SparingStep (t : Traced) (e : Event) (t' : Traced) : Prop :=
  SparesOpen t.sys e ∧ Step t e t'

end Traced

/-! ## What the calls do to the tables -/

namespace System

variable {s s' : System} {pid : Pid}

@[simp] theorem setFd_fs (s : System) (pid : Pid) (fd : Fd) (e : FdEntry) :
    (s.setFd pid fd e).fs = s.fs := rfl

theorem setFd_fds (s : System) (pid p : Pid) (fd f : Fd) (e : FdEntry) :
    (s.setFd pid fd e).fds p f = if p = pid ∧ f = fd then e else s.fds p f := by
  unfold setFd
  by_cases hp : p = pid
  · subst hp
    by_cases hf : f = fd
    · subst hf; simp
    · simp [hf]
  · simp [hp]

/-- A call may open descriptors of the process on nodes with `P`; every other
descriptor on a file was one before, on the same node, and the nodes are left
alone. -/
structure Opens (P : NodeId → Prop) (pid : Pid) (s s' : System) : Prop where
  fs_eq : s'.fs = s.fs
  old_or_new : ∀ p fd, (s'.fds p fd).kind = .file →
    ((s.fds p fd).kind = .file ∧ (s'.fds p fd).inode = (s.fds p fd).inode) ∨
    ((s.fds p fd).kind = .free ∧ p = pid ∧ P (s'.fds p fd).inode)

theorem Opens.refl (P : NodeId → Prop) (pid : Pid) (s : System) : Opens P pid s s :=
  ⟨rfl, fun _ _ h => Or.inl ⟨h, rfl⟩⟩

/-- One entry is replaced. -/
theorem Opens.setFd {P : NodeId → Prop} {fd : Fd} {e : FdEntry}
    (h : e.kind = .file → ((s.fds pid fd).kind = .file ∧ e.inode = (s.fds pid fd).inode) ∨
      ((s.fds pid fd).kind = .free ∧ P e.inode)) : Opens P pid s (s.setFd pid fd e) := by
  refine ⟨rfl, fun p f hfile => ?_⟩
  rw [setFd_fds] at hfile ⊢
  split at hfile
  · rename_i hself
    obtain ⟨rfl, rfl⟩ := hself
    rw [if_pos ⟨rfl, rfl⟩]
    rcases h hfile with hold | ⟨hfree, hP⟩
    · exact Or.inl hold
    · exact Or.inr ⟨hfree, rfl, hP⟩
  · rename_i hother
    rw [if_neg hother]
    exact Or.inl ⟨hfile, rfl⟩

theorem findFreeFd_eq_some {fd : Fd} (h : s.findFreeFd pid = some fd) :
    (s.fds pid fd).kind = .free := by
  simpa using List.find?_some h

theorem sysOpen_opens (s : System) (pid : Pid) (mem : Nat → UInt8) (pathPtr flags : Nat) :
    Opens (fun i => (s.fs.nodes i).kind = .file) pid s (s.sysOpen pid mem pathPtr flags).2 := by
  unfold sysOpen
  dsimp only
  split
  · exact .refl _ _ _
  split
  · exact .setFd fun h => (nomatch h)
  split
  · exact .setFd fun h => (nomatch h)
  cases hnode : (s.fs.resolve (userPath mem pathPtr)).filter (s.fs.kind · = .file) with
  | none => exact .refl _ _ _
  | some node =>
      have hfile : (s.fs.nodes node).kind = .file :=
        of_decide_eq_true (Option.filter_eq_some_iff.mp hnode).2
      cases hfd : s.findFreeFd pid with
      | none => exact .refl _ _ _
      | some fd => exact .setFd fun _ => Or.inr ⟨findFreeFd_eq_some hfd, hfile⟩

theorem sysClose_opens (s : System) (pid : Pid) (fd : Nat) (P : NodeId → Prop) :
    Opens P pid s (s.sysClose pid fd).2 := by
  unfold sysClose
  rcases Nat.lt_or_ge fd maxFds with hlt | hge
  · rw [withFd_of_lt hlt]
    split
    · exact .refl _ _ _
    · exact .setFd fun h => (nomatch h)
  · rw [withFd_of_le hge]
    exact .refl _ _ _

/-- The descriptor `fd` of the process is on the node `i`. -/
def OnNode (s : System) (pid : Pid) (fd : Nat) (i : NodeId) : Prop :=
  ∃ h : fd < maxFds, (s.fds pid ⟨fd, h⟩).kind = .file ∧ (s.fds pid ⟨fd, h⟩).inode = i

/-- A copy is on the node of its original. -/
theorem sysDup_opens (s : System) (pid : Pid) (fd : Nat) :
    Opens (s.OnNode pid fd) pid s (s.sysDup pid fd).2 := by
  unfold sysDup
  rcases Nat.lt_or_ge fd maxFds with hlt | hge
  · rw [withFd_of_lt hlt]
    split
    · exact .refl _ _ _
    · cases hfd : s.findFreeFd pid with
      | none => exact .refl _ _ _
      | some new =>
          exact .setFd fun hfile => Or.inr ⟨findFreeFd_eq_some hfd, hlt, hfile, rfl⟩
  · rw [withFd_of_le hge]
    exact .refl _ _ _

theorem sysFcntl_opens (s : System) (pid : Pid) (fd cmd arg : Nat) :
    Opens (s.OnNode pid fd) pid s (s.sysFcntl pid fd cmd arg).2 := by
  unfold sysFcntl
  rcases Nat.lt_or_ge fd maxFds with hlt | hge
  · rw [withFd_of_lt hlt]
    dsimp only
    split
    · exact .refl _ _ _
    split
    · exact s.sysDup_opens pid fd
    · exact .refl _ _ _
    · exact .setFd fun hfile => Or.inl ⟨hfile, rfl⟩
    · exact .refl _ _ _
  · rw [withFd_of_le hge]
    exact .refl _ _ _

theorem sysRead_opens (s : System) (pid : Pid) (fd buf len : Nat) (P : NodeId → Prop) :
    Opens P pid s (s.sysRead pid fd buf len).2.2 := by
  unfold sysRead
  rcases Nat.lt_or_ge fd maxFds with hlt | hge
  · rw [withFd_of_lt hlt]
    split
    · exact .refl _ _ _
    split
    · exact .refl _ _ _
    split
    · exact ⟨rfl, fun _ _ h => Or.inl ⟨h, rfl⟩⟩
    · exact .setFd fun hfile => Or.inl ⟨hfile, rfl⟩
    · exact .refl _ _ _
  · rw [withFd_of_le hge]
    exact .refl _ _ _

theorem sysLseek_opens (s : System) (pid : Pid) (fd : Nat) (offset : Int) (whence : Nat)
    (P : NodeId → Prop) : Opens P pid s (s.sysLseek pid fd offset whence).2 := by
  unfold sysLseek
  rcases Nat.lt_or_ge fd maxFds with hlt | hge
  · rw [withFd_of_lt hlt]
    dsimp only
    split
    · split
      · exact .refl _ _ _
      · exact .setFd fun hfile => Or.inl ⟨hfile, rfl⟩
    · exact .refl _ _ _
  · rw [withFd_of_le hge]
    exact .refl _ _ _

/-- A table without descriptors on files is put in. -/
theorem opens_of_update {tbl : FdTable} (P : NodeId → Prop) (hfs : s'.fs = s.fs)
    (hfds : s'.fds = Function.update s.fds pid tbl) (htbl : ∀ fd, (tbl fd).kind ≠ .file) :
    Opens P pid s s' := by
  refine ⟨hfs, fun p fd hfile => ?_⟩
  rw [hfds] at hfile ⊢
  by_cases hp : p = pid
  · subst hp
    rw [Function.update_self] at hfile
    exact absurd hfile (htbl fd)
  · rw [Function.update_of_ne hp] at hfile ⊢
    exact Or.inl ⟨hfile, rfl⟩

theorem freeFds_opens (s : System) (pid : Pid) (P : NodeId → Prop) :
    Opens P pid s (s.freeFds pid) :=
  opens_of_update P rfl rfl fun _ h => nomatch h

theorem provision_opens (s : System) (pid : Pid) (pcb : Pcb) (P : NodeId → Prop) :
    Opens P pid s (s.provision pid pcb) :=
  opens_of_update P rfl rfl (by decide)

/-- A write through a descriptor fails and changes no file, goes to the terminal, or
is a write to the node of the descriptor. -/
theorem sysWrite_cases (s : System) (pid : Pid) (mem : Nat → UInt8) (fd buf len : Nat) :
    ((s.sysWrite pid mem fd buf len).2.fs = s.fs ∧
      (s.sysWrite pid mem fd buf len).2.fds = s.fds ∧
      ∀ h : fd < maxFds, (s.fds pid ⟨fd, h⟩).kind = .file → 0 < len →
        (s.sysWrite pid mem fd buf len).1 < 0) ∨
    ∃ h : fd < maxFds, 0 < len ∧ (s.fds pid ⟨fd, h⟩).kind = .file ∧
      s.sysWrite pid mem fd buf len =
        (if (s.fs.write (s.fds pid ⟨fd, h⟩).inode (slice mem buf len)).1 then asI64 len else -5,
          { s with fs := (s.fs.write (s.fds pid ⟨fd, h⟩).inode (slice mem buf len)).2 }) := by
  unfold sysWrite
  rcases Nat.lt_or_ge fd maxFds with hlt | hge
  · rw [withFd_of_lt hlt]
    by_cases hzero : len = 0
    · rw [if_pos hzero]
      exact Or.inl ⟨rfl, rfl, fun _ _ hpos => by omega⟩
    rw [if_neg hzero]
    split
    · exact Or.inl ⟨rfl, rfl, fun _ _ _ => show errInvalidPointer < 0 by decide⟩
    cases hk : (s.fds pid ⟨fd, hlt⟩).kind with
    | consoleOut =>
        refine Or.inl ⟨rfl, rfl, fun _ hfile => ?_⟩
        rw [hk] at hfile
        cases hfile
    | file =>
        refine Or.inr ⟨hlt, Nat.pos_of_ne_zero hzero, hk, ?_⟩
        cases hw : s.fs.write (s.fds pid ⟨fd, hlt⟩).inode (slice mem buf len) with
        | mk ok fs => cases ok <;> simp
    | free => exact Or.inl ⟨rfl, rfl, fun _ _ _ => show errUnsupported < 0 by decide⟩
    | consoleIn => exact Or.inl ⟨rfl, rfl, fun _ _ _ => show errUnsupported < 0 by decide⟩
  · rw [withFd_of_le hge]
    exact Or.inl ⟨rfl, rfl, fun h => absurd h (Nat.not_lt.mpr hge)⟩

end System

/-! ## Files that stay -/

/-- No operation on nodes but the removal of its slot takes a file away. -/
theorem exec_file {s : State} {op : Op NodeId} (fits : State.FitsU32 op) {i : NodeId}
    (hfile : (s.nodes i).kind = .file) (hop : op ≠ .unlink i) :
    ((s.exec op).2.nodes i).kind = .file := by
  have hfresh : ∀ j n, ¬s.Live j → ((s.setNode j n).nodes i).kind = .file := by
    intro j n hfree
    have hne : i ≠ j := by
      rintro rfl
      exact hfree (by simp [State.Live, hfile])
    rw [State.setNode_of_ne s n hne]
    exact hfile
  cases op with
  | mkdir dir name =>
      rcases s.mkdir_cases dir name with ⟨j, _, _, _, hfree, heq⟩ | ⟨_, heq⟩
      · simp only [State.exec, heq]
        exact hfresh j _ hfree
      · simp only [State.exec, heq]
        exact hfile
  | createFile dir name =>
      rcases s.createFile_cases dir name with
        ⟨j, _, _, _, hfree, heq⟩ | ⟨_, _, _, _, heq⟩ | ⟨_, heq⟩
      · simp only [State.exec, heq]
        exact hfresh j _ hfree
      · simp only [State.exec, heq]
        exact hfile
      · simp only [State.exec, heq]
        exact hfile
  | write node bytes =>
      rcases s.write_cases node fits with ⟨_, heq⟩ | ⟨_, _, heq⟩ | ⟨_, _, _, heq⟩
      · simp only [State.exec, heq]
        exact hfile
      · simp only [State.exec, heq]
        exact (State.restore_shape i).1.trans hfile
      · simp only [State.exec, heq]
        exact (State.restore_shape i).1.trans hfile
  | append node bytes =>
      rcases s.append_cases node bytes with ⟨_, heq⟩ | ⟨_, _, heq⟩
      · simp only [State.exec, heq]
        exact hfile
      · simp only [State.exec, heq]
        exact (State.restore_shape i).1.trans hfile
  | read node => exact hfile
  | unlink node =>
      have hne : i ≠ node := by
        rintro rfl
        exact hop rfl
      exact (congrArg Node.kind (s.unlink_nodes_of_ne hne)).trans hfile

/-- The file system stays well formed, and a file that the operation does not remove
stays a file. -/
theorem shellStep_file {s s' : State} {op : ShellOp} (wf : s.WellFormed)
    (h : ShellStep s op s') :
    s'.WellFormed ∧ ∀ i, (s.nodes i).kind = .file → op ≠ .node (.unlink i) →
      (∀ dir, op = .rmRecursive dir → ¬s.Below dir i) → (s'.nodes i).kind = .file := by
  cases h with
  | node fits =>
      refine ⟨wf.exec fits, fun i hfile hop _ => exec_file fits hfile ?_⟩
      rintro rfl
      exact hop rfl
  | rmRecursive done =>
      obtain ⟨wf', hpruned⟩ := State.rmRecursive_spec _ wf done
      refine ⟨wf', fun i hfile _ hbelow => ?_⟩
      rw [hpruned.kept i (hbelow _ rfl)]
      exact hfile
  | setCwd =>
      have hnodes : ∀ node, (s.setCwd node).nodes = s.nodes := by
        intro node
        unfold State.setCwd
        split <;> rfl
      refine ⟨wf.setCwd _, fun i hfile _ _ => ?_⟩
      rw [hnodes]
      exact hfile

/-! ## The invariant -/

namespace Traced

/-- The node table is well formed, and the file of every open descriptor is there. -/
structure Sound (t : Traced) : Prop where
  wf : t.sys.fs.WellFormed
  file : ∀ pid fd, (t.sys.fds pid fd).kind = .file →
    (t.sys.fs.nodes (t.sys.fds pid fd).inode).kind = .file
  current : ∀ pid fd, (t.sys.fds pid fd).kind = .file →
    t.openedAt pid fd = t.cleared (t.sys.fds pid fd).inode

variable {t : Traced} {s : System} {e : Event}

theorem cleared_next {i : NodeId} (h : t.sys.fs.Live i → s.fs.Live i) :
    (t.next e s).cleared i = t.cleared i :=
  if_neg fun ⟨hlive, hnot⟩ => hnot (h hlive)

theorem cleared_next_of_file {i : NodeId} (h : (s.fs.nodes i).kind = .file) :
    (t.next e s).cleared i = t.cleared i :=
  cleared_next fun _ => by simp [State.Live, h]

theorem openedAt_next_of_file {pid : Pid} {fd : Fd} (h : (t.sys.fds pid fd).kind = .file) :
    (t.next e s).openedAt pid fd = t.openedAt pid fd := by
  simp [next, h]

/-- A step that leaves the descriptors alone and keeps the open files. -/
theorem Sound.of_fs (h : t.Sound) (wf : s.fs.WellFormed) (hfds : s.fds = t.sys.fds)
    (hkept : ∀ i, (t.sys.fs.nodes i).kind = .file → ¬Unopened t.sys i →
      (s.fs.nodes i).kind = .file) : (t.next e s).Sound := by
  have hfile : ∀ pid fd, (s.fds pid fd).kind = .file →
      (s.fs.nodes (s.fds pid fd).inode).kind = .file := by
    intro pid fd hfd
    rw [hfds] at hfd ⊢
    exact hkept _ (h.file pid fd hfd) fun hun => hun pid fd hfd rfl
  refine ⟨wf, hfile, fun pid fd hfd => ?_⟩
  have hold : (t.sys.fds pid fd).kind = .file := by rwa [← hfds]
  calc (t.next e s).openedAt pid fd = t.openedAt pid fd := openedAt_next_of_file hold
    _ = t.cleared (t.sys.fds pid fd).inode := h.current pid fd hold
    _ = t.cleared (s.fds pid fd).inode := by rw [hfds]
    _ = (t.next e s).cleared (s.fds pid fd).inode := (cleared_next_of_file (hfile pid fd hfd)).symm

/-- A call that opens descriptors on files, and gives them the count of their slot. -/
theorem Sound.of_opens {P : NodeId → Prop} {pid : Pid} (h : t.Sound)
    (hopens : System.Opens P pid t.sys s)
    (hP : ∀ i, P i → (t.sys.fs.nodes i).kind = .file ∧ t.originOf e pid i = t.cleared i) :
    (t.next e s).Sound := by
  have hfile : ∀ p fd, (s.fds p fd).kind = .file →
      (s.fs.nodes (s.fds p fd).inode).kind = .file := by
    intro p fd hfd
    rw [hopens.fs_eq]
    rcases hopens.old_or_new p fd hfd with ⟨hold, hinode⟩ | ⟨_, _, hnew⟩
    · rw [hinode]
      exact h.file p fd hold
    · exact (hP _ hnew).1
  refine ⟨?_, hfile, fun p fd hfd => ?_⟩
  · show s.fs.WellFormed
    rw [hopens.fs_eq]
    exact h.wf
  have hcleared : (t.next e s).cleared (s.fds p fd).inode = t.cleared (s.fds p fd).inode :=
    cleared_next_of_file (hfile p fd hfd)
  show (t.next e s).openedAt p fd = (t.next e s).cleared (s.fds p fd).inode
  rw [hcleared]
  rcases hopens.old_or_new p fd hfd with ⟨hold, hinode⟩ | ⟨hfree, rfl, hnew⟩
  · rw [openedAt_next_of_file hold, h.current p fd hold, hinode]
  · have horigin : (t.next e s).openedAt p fd = t.originOf e p (s.fds p fd).inode :=
      if_pos ⟨hfree, hfd⟩
    rw [horigin, (hP _ hnew).2]

/-- A copy gets the count of its original. -/
theorem Sound.origin_of_onNode {pid : Pid} {fd : Nat} {i : NodeId} (h : t.Sound)
    (hon : t.sys.OnNode pid fd i) : (t.sys.fs.nodes i).kind = .file ∧
      System.withFd fd 0 (fun fd => t.openedAt pid fd) = t.cleared i := by
  obtain ⟨hlt, hfile, rfl⟩ := hon
  rw [System.withFd_of_lt hlt]
  exact ⟨h.file _ _ hfile, h.current _ _ hfile⟩

/-- A write keeps the kinds of all nodes. -/
theorem write_shape {fs : State} (wf : fs.WellFormed) (node : NodeId) {bytes : List UInt8}
    (hlen : bytes.length < 2 ^ 32) :
    (fs.write node bytes).2.WellFormed ∧
      ∀ i, ((fs.write node bytes).2.nodes i).kind = (fs.nodes i).kind := by
  refine ⟨wf.write node hlen, fun i => ?_⟩
  rcases fs.write_cases node hlen with ⟨_, heq⟩ | ⟨_, _, heq⟩ | ⟨_, _, _, heq⟩
  · rw [heq]
  · rw [heq]
    exact (State.restore_shape i).1
  · rw [heq]
    exact (State.restore_shape i).1

/-- Every step that spares the open files keeps the invariant. -/
theorem Sound.step {t' : Traced} (h : t.Sound) (hstep : SparingStep t e t') : t'.Sound := by
  obtain ⟨hspares, ⟨hsys⟩⟩ := hstep
  cases hsys with
  | sysOpen =>
      exact h.of_opens (t.sys.sysOpen_opens _ _ _ _) fun i hi => ⟨hi, rfl⟩
  | sysClose =>
      exact h.of_opens (t.sys.sysClose_opens _ _ fun _ => False) fun _ hi => hi.elim
  | sysDup =>
      exact h.of_opens (t.sys.sysDup_opens _ _) fun _ hi => h.origin_of_onNode hi
  | sysFcntl =>
      exact h.of_opens (t.sys.sysFcntl_opens _ _ _ _) fun _ hi => h.origin_of_onNode hi
  | sysRead =>
      exact h.of_opens (t.sys.sysRead_opens _ _ _ _ fun _ => False) fun _ hi => hi.elim
  | sysLseek =>
      exact h.of_opens (t.sys.sysLseek_opens _ _ _ _ fun _ => False) fun _ hi => hi.elim
  | @sysWrite pid mem fd buf len =>
      rcases t.sys.sysWrite_cases pid mem fd buf len with ⟨hfs, hfds, _⟩ | ⟨hlt, _, _, heq⟩
      · refine h.of_fs (by rw [hfs]; exact h.wf) hfds fun i hfile _ => ?_
        rw [hfs]
        exact hfile
      · have hlen : (slice mem buf len).length < 2 ^ 32 := by
          rw [length_slice]
          exact hspares
        obtain ⟨wf, hkind⟩ := write_shape h.wf (t.sys.fds pid ⟨fd, hlt⟩).inode hlen
        rw [heq]
        exact h.of_fs wf rfl fun i hfile _ => (hkind i).trans hfile
  | @shell op fs done =>
      obtain ⟨wf, hkept⟩ := shellStep_file h.wf done
      refine h.of_fs wf rfl fun i hfile hopen => hkept i hfile ?_ ?_
      · rintro rfl
        exact hopen hspares
      · rintro dir rfl hbelow
        exact hopen (hspares i hbelow)
  | freeFds =>
      exact h.of_opens (t.sys.freeFds_opens _ fun _ => False) fun _ hi => hi.elim
  | provision =>
      exact h.of_opens (t.sys.provision_opens _ _ fun _ => False) fun _ hi => hi.elim
  | key => exact h.of_fs h.wf rfl fun _ hfile _ => hfile

theorem boot_sound : boot.Sound := by
  have hfds : ∀ pid fd, (System.boot.fds pid fd).kind ≠ .file := by decide +kernel
  have hfs : boot.sys.fs = State.init := by simp only [boot, System.boot]
  refine ⟨?_, fun pid fd h => absurd h (hfds pid fd), fun pid fd h => absurd h (hfds pid fd)⟩
  rw [hfs]
  exact State.init_wellFormed

/-! ## Descriptors in a sound state -/

theorem Sound.content_fileOf (h : t.Sound) {pid : Pid} {fd : Fd}
    (hfd : (t.sys.fds pid fd).kind = .file) :
    t.content (t.fileOf pid fd) = some (t.sys.fs.read (t.sys.fds pid fd).inode) :=
  if_pos ⟨h.file pid fd hfd, h.current pid fd hfd⟩

/-- What `sys_read` stores for a descriptor on a file is a stretch of the node's
content that starts at the offset. -/
theorem sysRead_stores (s : System) {pid : Pid} {fd : Fd} (hfd : (s.fds pid fd).kind = .file)
    (buf len : Nat) : (s.sysRead pid fd buf len).2.1 <+:
      (s.fs.read (s.fds pid fd).inode).drop (s.fds pid fd).offset := by
  unfold System.sysRead
  rw [System.withFd_of_lt fd.isLt]
  split
  · exact List.nil_prefix
  split
  · exact List.nil_prefix
  simp only [Fin.eta, hfd]
  exact List.take_prefix _ _

/-- The content of a file is read off the tree. -/
theorem content_congr {t' : Traced} {f : FileId}
    (htree : t'.sys.fs.tree f.1 = t.sys.fs.tree f.1) (hcleared : t'.cleared f.1 = t.cleared f.1) :
    t'.content f = t.content f := by
  have hfile : ∀ bytes, (t'.sys.fs.nodes f.1).kind = .file ∧ t'.sys.fs.read f.1 = bytes ↔
      (t.sys.fs.nodes f.1).kind = .file ∧ t.sys.fs.read f.1 = bytes := by
    intro bytes
    rw [← State.isFile_tree_iff, ← State.isFile_tree_iff, Tree.IsFile, Tree.IsFile, htree]
  unfold content
  rw [hcleared]
  by_cases hk : (t.sys.fs.nodes f.1).kind = .file
  · obtain ⟨hk', hread⟩ := (hfile _).mpr ⟨hk, rfl⟩
    rw [hread]
    simp [hk, hk']
  · have hk' : ¬(t'.sys.fs.nodes f.1).kind = .file := fun hk' => hk ((hfile _).mp ⟨hk', rfl⟩).1
    simp [hk, hk']

theorem content_of_isFile {f : FileId} {bytes : List UInt8}
    (hfile : t.sys.fs.tree.IsFile f.1 bytes) (hcurrent : f.2 = t.cleared f.1) :
    t.content f = some bytes := by
  obtain ⟨hk, hread⟩ := (State.isFile_tree_iff _ _ _).mp hfile
  rw [content, if_pos ⟨hk, hcurrent⟩, hread]

/-- What a write through a descriptor on a file does to the contents of the files: it
fails and changes none, or it gives the descriptor's file the bytes. -/
theorem Sound.write_contents (h : t.Sound) {pid : Pid} {fd : Fd}
    (hfd : (t.sys.fds pid fd).kind = .file) (mem : Nat → UInt8) (buf : Nat) {len : Nat}
    (hpos : 0 < len) (hlen : len < 2 ^ 32) :
    let r := t.sys.sysWrite pid mem fd buf len
    let t' := t.next (.sysWrite pid mem fd buf len) r.2
    (r.1 < 0 ∧ t'.content = t.content) ∨
      t'.content = Function.update t.content (t.fileOf pid fd) (some (slice mem buf len)) := by
  intro r t'
  have hlen' : (slice mem buf len).length < 2 ^ 32 := by rwa [length_slice]
  have hsame : r.2.fs = t.sys.fs → t'.content = t.content := by
    intro hfs
    funext f
    refine content_congr (by rw [show t'.sys.fs = r.2.fs from rfl, hfs]) (cleared_next ?_)
    rw [hfs]
    exact id
  rcases t.sys.sysWrite_cases pid mem fd buf len with ⟨hfs, _, hneg⟩ | ⟨_, _, _, heq⟩
  · exact Or.inl ⟨hneg fd.isLt hfd hpos, hsame hfs⟩
  rcases State.write_tree h.wf (t.sys.fds pid fd).inode hlen' with hw | ⟨_, hok, htree⟩
  · refine Or.inl ⟨?_, hsame ?_⟩
    · show (t.sys.sysWrite pid mem fd buf len).1 < 0
      rw [heq, Fin.eta, hw]
      exact show (-5 : Int) < 0 by decide
    · show (t.sys.sysWrite pid mem fd buf len).2.fs = _
      rw [heq, Fin.eta, hw]
  · refine Or.inr ?_
    have hfs : t'.sys.fs = (t.sys.fs.write (t.sys.fds pid fd).inode (slice mem buf len)).2 := by
      show (t.sys.sysWrite pid mem fd buf len).2.fs = _
      rw [heq, Fin.eta]
    have hcleared : ∀ i, t'.cleared i = t.cleared i := by
      intro i
      refine cleared_next ?_
      show t.sys.fs.Live i → t'.sys.fs.Live i
      rw [hfs, State.Live, State.Live, (write_shape h.wf _ hlen').2 i]
      exact id
    funext f
    by_cases hself : f = t.fileOf pid fd
    · rw [hself, Function.update_self]
      refine content_of_isFile ?_ ((h.current pid fd hfd).trans (hcleared _).symm)
      have hisFile := (State.isFile_tree_iff _ _ _).mpr ⟨h.file pid fd hfd, rfl⟩
      obtain ⟨entry, hentry, _⟩ := hisFile
      rw [hfs, htree]
      exact ⟨{ entry with content := .file (slice mem buf len) },
        by simp [Tree.setContent, fileOf, hentry], rfl⟩
    · rw [Function.update_of_ne hself]
      by_cases hslot : f.1 = (t.sys.fds pid fd).inode
      · -- Another file that was or will be in the slot: not there before or after.
        have hgone : f.2 ≠ t.cleared f.1 := by
          intro hcur
          refine hself (Prod.ext hslot ?_)
          rw [hcur, hslot]
          exact (h.current pid fd hfd).symm
        rw [content, content, hcleared]
        simp [hgone]
      · refine content_congr ?_ (hcleared _)
        rw [hfs, htree, Tree.setContent, Function.update_of_ne hslot]

/-- In a sound state a descriptor on a file refers to the file it was opened on. -/
theorem Sound.refers (h : t.Sound) {pid : Pid} {fd : Fd}
    (hfd : (t.sys.fds pid fd).kind = .file) : t.Refers pid fd := by
  have hthere := h.content_fileOf hfd
  refine ⟨?_, ?_, ?_, ?_⟩
  · exact fun buf len => Or.inr ⟨_, hthere, sysRead_stores t.sys hfd buf len⟩
  · intro mem buf len hlen f hne
    rcases Nat.eq_zero_or_pos len with rfl | hpos
    · refine content_congr ?_ (cleared_next ?_) <;>
        simp [next, System.sysWrite, System.withFd_of_lt]
    · rcases h.write_contents hfd mem buf hpos hlen with ⟨_, hsame⟩ | hset
      · rw [hsame]
      · rw [hset, Function.update_of_ne hne]
  · intro mem buf len hpos hlen hnonneg
    rcases h.write_contents hfd mem buf hpos hlen with ⟨hneg, _⟩ | hset
    · omega
    · rw [hset, Function.update_self]
  · intro hnone
    rw [hthere] at hnone
    cases hnone

/-- A descriptor whose file is gone no longer refers to it: seeking never reports it. -/
theorem Refers.content_ne_none {pid : Pid} {fd : Fd} (h : t.Refers pid fd)
    (hfd : (t.sys.fds pid fd).kind = .file) : t.content (t.fileOf pid fd) ≠ none := by
  intro hnone
  have hneg := (h.removed hnone).2.2 0 0
  unfold System.sysLseek at hneg
  rw [System.withFd_of_lt fd.isLt] at hneg
  simp [hfd, System.seekTarget, System.clamp] at hneg
  split at hneg <;> omega

/-- In every run whose removals spare the open files, every descriptor on a file
refers in every state reached to the file it was opened on. -/
theorem identified_of_sparing_run {h : List Event} (run : Run SparingStep boot h t) :
    t.Identified :=
  fun _ _ hfd => (run.invariant_state Sound boot_sound fun _ _ _ hs => hs.step).refers hfd

/-- An operation on nodes by the shell. -/
def perform (t : Traced) (op : Op NodeId) : Traced :=
  t.next (.shell (.node op)) { t.sys with fs := (t.sys.fs.exec op).2 }

theorem perform_step {op : Op NodeId} (fits : State.FitsU32 op) :
    Step t (.shell (.node op)) (t.perform op) := .mk (.shell (.node fits))

/-- A process with a layer of its own, and a file `/a`. -/
def withA : Traced :=
  (boot.next (.provision 1 (provisionPcb 1 0 0 0 0))
    (boot.sys.provision 1 (provisionPcb 1 0 0 0 0))).perform (.createFile root (ascii "a"))

/-- A memory that holds the path `/a` at address 0. -/
def pathA : Nat → UInt8 := blit (fun _ => 0) 0 (ascii "/a")

/-- The process has the file open. -/
def openA : Traced := withA.next (.sysOpen 1 pathA 0 0) (withA.sys.sysOpen 1 pathA 0 0).2

theorem run_openA : Run SparingStep boot [.provision 1 (provisionPcb 1 0 0 0 0),
    .shell (.node (.createFile root (ascii "a"))), .sysOpen 1 pathA 0 0] openA := by
  have hopen : SparingStep withA (.sysOpen 1 pathA 0 0) openA := ⟨trivial, .mk .sysOpen⟩
  exact .snoc (.snoc (.snoc .nil ⟨trivial, .mk .provision⟩) ⟨trivial, perform_step trivial⟩) hopen

/-- A run as in `identified_of_sparing_run`: a process has a file open, and another file
is created and removed. -/
theorem identified_after_remove_elsewhere :
    let t := (openA.perform (.createFile root (ascii "b"))).perform (.unlink 12)
    (t.sys.fds 1 3).kind = .file ∧ t.Identified := by
  have hcreate : SparingStep openA (.shell (.node (.createFile root (ascii "b"))))
      (openA.perform (.createFile root (ascii "b"))) := ⟨trivial, perform_step trivial⟩
  have hun : Unopened (openA.perform (.createFile root (ascii "b"))).sys 12 := by
    unfold Unopened
    rw [openA, withA, boot_eq]
    decide +kernel
  have hunlink : SparingStep (openA.perform (.createFile root (ascii "b")))
      (.shell (.node (.unlink 12)))
      ((openA.perform (.createFile root (ascii "b"))).perform (.unlink 12)) :=
    ⟨hun, perform_step trivial⟩
  refine ⟨?_, identified_of_sparing_run (.snoc (.snoc run_openA hcreate) hunlink)⟩
  rw [openA, withA, boot_eq]
  decide +kernel

/-- A descriptor goes on to the next file in the slot: its file is removed, another one
is created there, and a read brings what was written to that one. -/
theorem not_identified_on_reused_slot :
    ∃ t, Run Step boot [.provision 1 (provisionPcb 1 0 0 0 0),
        .shell (.node (.createFile root (ascii "a"))), .sysOpen 1 pathA 0 0,
        .shell (.node (.unlink 11)), .shell (.node (.createFile root (ascii "b"))),
        .shell (.node (.write 11 (ascii "secret")))] t ∧
      (t.sys.sysRead 1 3 (provisionPcb 1 0 0 0 0).layerBase 100).2.1 = ascii "secret" ∧
      ¬t.Identified := by
  have hunlink : Step openA (.shell (.node (.unlink 11))) (openA.perform (.unlink 11)) :=
    perform_step trivial
  have hcreate : Step (openA.perform (.unlink 11)) (.shell (.node (.createFile root (ascii "b"))))
      ((openA.perform (.unlink 11)).perform (.createFile root (ascii "b"))) :=
    perform_step trivial
  refine ⟨((openA.perform (.unlink 11)).perform (.createFile root (ascii "b"))).perform
    (.write 11 (ascii "secret")), ?_, ?_⟩
  · exact .snoc (.snoc (.snoc (run_openA.mono fun _ _ _ h => h.2) hunlink) hcreate)
      (perform_step (show (ascii "secret").length < 2 ^ 32 by decide))
  · have hread : ∀ t : Traced, (t.sys.fds 1 3).kind = .file ∧
        t.content (t.fileOf 1 3) = none ∧
        (t.sys.sysRead 1 3 (provisionPcb 1 0 0 0 0).layerBase 100).2.1 = ascii "secret" →
        (t.sys.sysRead 1 3 (provisionPcb 1 0 0 0 0).layerBase 100).2.1 = ascii "secret" ∧
          ¬t.Identified := by
      rintro t ⟨hfd, hgone, hbytes⟩
      refine ⟨hbytes, fun hid => ?_⟩
      rcases (hid 1 3 hfd).reads (provisionPcb 1 0 0 0 0).layerBase 100 with hnil | ⟨_, hthere, _⟩
      · exact absurd (hbytes.symm.trans hnil) (by decide)
      · rw [hgone] at hthere
        cases hthere
    refine hread _ ?_
    rw [openA, withA, boot_eq]
    decide +kernel

end Traced

end PureOS.Files
