import PureOS.Files.Descriptors
import PureOS.Foundation.Positioned

set_option autoImplicit false

/-!
# Files: descriptors as positions in a file (`syscall.rs`)

`sys_read` and `sys_lseek` keep the offset of a descriptor, and `sys_open` the mode that it is
asked for.  `sys_write` hands the data to `fs::write`, which replaces the whole content: it
looks at neither, and no call looks at the mode.
-/

namespace PureOS.Files

open PureOS.Foundation PureOS.Fs PureOS.Process

/-- `O_RDONLY`. -/
abbrev oRdonly : Nat := 0
/-- `O_WRONLY`. -/
abbrev oWronly : Nat := 1

/-- The calls on a file. -/
inductive Call where
  | sysOpen (mem : Nat → UInt8) (pathPtr flags : Nat)
  | sysClose (fd : Nat)
  | sysRead (fd buf len : Nat)
  | sysWrite (mem : Nat → UInt8) (fd buf len : Nat)
  | sysLseek (fd : Nat) (offset : Int) (whence : Nat)

/-- A descriptor of a process. -/
abbrev Name := Pid × Fd

/-- The descriptor that a number stands for. -/
def nameOf (pid : Pid) (fd : Nat) : Name := (pid, Fin.ofNat maxFds fd)

theorem nameOf_eq {pid : Pid} {fd : Nat} (h : fd < maxFds) : nameOf pid fd = (pid, ⟨fd, h⟩) := by
  rw [nameOf]
  congr 1
  exact Fin.ext (Nat.mod_eq_of_lt h)

/-- A descriptor as a name under which a file is open. -/
def FdEntry.opened (e : FdEntry) : Opened where
  offset := e.offset
  mayRead := e.flags ≠ oWronly
  mayWrite := e.flags ≠ oRdonly

namespace System

/-- The value of a call, what it stores at the buffer, and the state after it. -/
def call (s : System) (pid : Pid) : Call → Int × List UInt8 × System
  | .sysOpen mem pathPtr flags =>
      let r := s.sysOpen pid mem pathPtr flags
      (r.1, [], r.2)
  | .sysClose fd =>
      let r := s.sysClose pid fd
      (r.1, [], r.2)
  | .sysRead fd buf len => s.sysRead pid fd buf len
  | .sysWrite mem fd buf len =>
      let r := s.sysWrite pid mem fd buf len
      (r.1, [], r.2)
  | .sysLseek fd offset whence =>
      let r := s.sysLseek pid fd offset whence
      (r.1, [], r.2)

/-- The position of a descriptor in the file. -/
def position (node : NodeId) (e : FdEntry) : Option Opened :=
  if e.kind = .file ∧ e.inode = node then some e.opened else none

/-- The file and the positions in it. -/
def view (s : System) (node : NodeId) : FileView Name UInt8 where
  content := s.fs.read node
  opened d := position node (s.fds d.1 d.2)

/-- What a call does to the file, as the caller sees it. -/
def event (s : System) (pid : Pid) (c : Call) : FileEvent Name UInt8 :=
  let value := (s.call pid c).1
  if value < 0 then .idle
  else
    match c with
    | .sysOpen _ _ flags =>
        .opened (nameOf pid value.toNat) (State.asU32 flags ≠ oWronly) (State.asU32 flags ≠ oRdonly)
    | .sysClose fd => .closed (nameOf pid fd)
    | .sysRead fd _ len =>
        if len = 0 then .idle
        else .got (nameOf pid fd) len ((s.call pid c).2.1.take value.toNat)
    | .sysWrite mem fd buf len =>
        if len = 0 then .idle
        else .wrote (nameOf pid fd) ((slice mem buf len).take value.toNat)
    | .sysLseek fd offset whence =>
        .sought (nameOf pid fd) (whence = 0 ∧ offset = 0) value.toNat

/-- The descriptor is free or on the node. -/
def FreeOrOn (s : System) (pid : Pid) (node : NodeId) (fd : Nat) : Prop :=
  ∀ h : fd < maxFds, (s.fds pid ⟨fd, h⟩).kind = .free ∨
    ((s.fds pid ⟨fd, h⟩).kind = .file ∧ (s.fds pid ⟨fd, h⟩).inode = node)

/-- The call is one on the file, if it is one on anything.  A slice has less than 2⁶³ bytes. -/
def IsOn (s : System) (pid : Pid) (node : NodeId) : Call → Prop
  | .sysOpen mem pathPtr _ => ¬DevicePath (userPath mem pathPtr) ∧
      s.fs.resolve (userPath mem pathPtr) = some node
  | .sysClose fd | .sysRead fd _ _ | .sysLseek fd _ _ => s.FreeOrOn pid node fd
  | .sysWrite _ fd _ len => s.FreeOrOn pid node fd ∧ len < 2 ^ 63

/-- The call does what it should do to a file with positions. -/
def Positioned (s : System) (pid : Pid) (node : NodeId) (c : Call) : Prop :=
  FileView.Step 0 (s.view node) (s.event pid c) ((s.call pid c).2.2.view node)

/-- The buffer of a call on a descriptor of the file is in order, and not empty. -/
def Reaches (s : System) (pid : Pid) (node : NodeId) (fd buf len : Nat) : Prop :=
  s.OnNode pid fd node ∧ 0 < len ∧ (s.table pid).containsRange buf len = true

/-- The call writes nothing, and reads nothing through a descriptor that is for writing. -/
def Careful (s : System) (pid : Pid) (node : NodeId) : Call → Prop
  | .sysWrite _ fd buf len => ¬(s.Reaches pid node fd buf len ∧
      (State.asU32 len ≤ (s.fs.nodes node).dataCap ∨ s.fs.dataNext + len ≤ dataPool))
  | .sysRead fd buf len => ¬(s.Reaches pid node fd buf len ∧
      (s.fds pid (nameOf pid fd).2).flags = oWronly ∧
      (s.fds pid (nameOf pid fd).2).offset < (s.fs.read node).length)
  | _ => True

/-! ## The view -/

variable {s : System} {pid : Pid} {node : NodeId} {fd : Fd}

theorem position_of_on {e : FdEntry} (h : e.kind = .file ∧ e.inode = node) :
    position node e = some e.opened := if_pos h

theorem position_of_free {e : FdEntry} (h : e.kind = .free) : position node e = none := by
  rw [position, if_neg]
  rintro ⟨hfile, -⟩
  rw [h] at hfile
  cases hfile

/-- A changed descriptor changes its own position. -/
theorem view_setFd (e : FdEntry) : (s.setFd pid fd e).view node =
    { s.view node with
      opened := Function.update (s.view node).opened (pid, fd) (position node e) } := by
  rw [view, view]
  congr 1
  funext ⟨p, f⟩
  rw [setFd_fds]
  by_cases hself : p = pid ∧ f = fd
  · obtain ⟨rfl, rfl⟩ := hself
    rw [if_pos ⟨rfl, rfl⟩, Function.update_self]
  · rw [if_neg hself, Function.update_of_ne]
    rintro heq
    exact hself (Prod.mk.inj heq)

/-- A descriptor whose offset changes moves. -/
theorem view_moveTo (h : (s.fds pid fd).kind = .file ∧ (s.fds pid fd).inode = node) (offset : Nat) :
    (s.setFd pid fd { s.fds pid fd with offset := offset }).view node =
      (s.view node).moveTo (pid, fd) (s.fds pid fd).opened offset := by
  have hposition : position node { s.fds pid fd with offset := offset } =
      some { (s.fds pid fd).opened with offset := offset } := position_of_on h
  rw [view_setFd, hposition, FileView.moveTo]

theorem view_opened (h : (s.fds pid fd).kind = .file ∧ (s.fds pid fd).inode = node) :
    (s.view node).opened (pid, fd) = some (s.fds pid fd).opened := position_of_on h

theorem view_free (h : (s.fds pid fd).kind = .free) : (s.view node).opened (pid, fd) = none :=
  position_of_free h

/-! ## The calls -/

/-- A call that answers with an error and changes nothing. -/
theorem positioned_of_error {c : Call} {error : Int} (hneg : error < 0)
    (h : s.call pid c = (error, [], s)) : s.Positioned pid node c := by
  have hevent : s.event pid c = .idle := by
    unfold event
    rw [h]
    exact if_pos hneg
  rw [Positioned, hevent, h]
  exact .idle

/-- Opening the file takes a free descriptor, or fails. -/
theorem positioned_sysOpen {mem : Nat → UInt8} {pathPtr flags : Nat}
    (hfile : (s.fs.nodes node).kind = .file) (h : s.IsOn pid node (.sysOpen mem pathPtr flags)) :
    s.Positioned pid node (.sysOpen mem pathPtr flags) := by
  obtain ⟨hdevice, hnode⟩ := h
  rw [DevicePath, not_or] at hdevice
  have hfilter : (s.fs.resolve (userPath mem pathPtr)).filter (s.fs.kind · = .file) = some node := by
    have hkind : decide (s.fs.kind node = .file) = true := decide_eq_true hfile
    rw [hnode, Option.filter_some, if_pos hkind]
  by_cases hpath : userPath mem pathPtr = []
  · refine positioned_of_error (show errInvalidPointer < 0 by decide) ?_
    rw [call, sysOpen, if_pos hpath]
  · cases hfree : s.findFreeFd pid with
    | none =>
        refine positioned_of_error (show errNoCapacity < 0 by decide) ?_
        simp only [call, sysOpen, if_neg hpath, if_neg hdevice.1, if_neg hdevice.2, hfilter, hfree]
    | some fd =>
        have hcall : s.call pid (.sysOpen mem pathPtr flags) = ((fd : Int), [],
            s.setFd pid fd ⟨.file, node, 0, State.asU32 flags⟩) := by
          simp only [call, sysOpen, if_neg hpath, if_neg hdevice.1, if_neg hdevice.2, hfilter,
            hfree]
        have hname : nameOf pid fd.val = (pid, fd) := nameOf_eq fd.isLt
        have hevent : s.event pid (.sysOpen mem pathPtr flags) = .opened (pid, fd)
            (State.asU32 flags ≠ oWronly) (State.asU32 flags ≠ oRdonly) := by
          rw [event, hcall]
          dsimp only
          rw [if_neg (Int.not_lt.mpr (Int.natCast_nonneg _)), Int.toNat_natCast, hname]
        have hposition : position node ⟨.file, node, 0, State.asU32 flags⟩ =
            some ⟨0, State.asU32 flags ≠ oWronly, State.asU32 flags ≠ oRdonly⟩ :=
          position_of_on ⟨rfl, rfl⟩
        rw [Positioned, hevent, hcall, view_setFd, hposition]
        exact .opened (view_free (findFreeFd_eq_some hfree))

/-- Closing gives the name up. -/
theorem positioned_sysClose {fd : Nat} (h : s.FreeOrOn pid node fd) :
    s.Positioned pid node (.sysClose fd) := by
  rcases Nat.lt_or_ge fd maxFds with hlt | hge
  · rcases h hlt with hfree | hon
    · refine positioned_of_error (show errInvalidPointer < 0 by decide) ?_
      simp only [call, sysClose, withFd_of_lt hlt, if_pos hfree]
    · have hused : ¬(s.fds pid ⟨fd, hlt⟩).kind = .free := by
        rw [hon.1]
        exact FdKind.noConfusion
      have hcall : s.call pid (.sysClose fd) = (0, [], s.setFd pid ⟨fd, hlt⟩ FdEntry.free) := by
        simp only [call, sysClose, withFd_of_lt hlt, if_neg hused]
      have hevent : s.event pid (.sysClose fd) = .closed (pid, ⟨fd, hlt⟩) := by
        rw [event, hcall]
        dsimp only
        rw [if_neg (Int.lt_irrefl 0), nameOf_eq hlt]
      rw [Positioned, hevent, hcall, view_setFd]
      exact .closed (view_opened hon)
  · refine positioned_of_error (show errUnsupported < 0 by decide) ?_
    simp only [call, sysClose, withFd_of_le hge]

theorem length_read_eq (h : (s.fs.nodes node).kind = .file) :
    (s.fs.read node).length = s.fs.sizeOf node := by
  rw [State.read_eq_slice h, length_slice]
  rfl

/-- Seeking moves to a place in the file. -/
theorem positioned_sysLseek {fd : Nat} {offset : Int} {whence : Nat}
    (hfile : (s.fs.nodes node).kind = .file) (h : s.FreeOrOn pid node fd) :
    s.Positioned pid node (.sysLseek fd offset whence) := by
  rcases Nat.lt_or_ge fd maxFds with hlt | hge
  · rcases h hlt with hfree | hon
    · have hnot : ¬(s.fds pid ⟨fd, hlt⟩).kind = .file := by
        rw [hfree]
        exact FdKind.noConfusion
      refine positioned_of_error (show errUnsupported < 0 by decide) ?_
      simp only [call, sysLseek, withFd_of_lt hlt, if_neg hnot]
    · cases htarget : seekTarget (s.fds pid ⟨fd, hlt⟩) (s.fs.sizeOf (s.fds pid ⟨fd, hlt⟩).inode)
          offset whence with
      | none =>
          refine positioned_of_error (show errInvalidPointer < 0 by decide) ?_
          simp only [call, sysLseek, withFd_of_lt hlt, if_pos hon.1, htarget]
      | some target =>
          have hvalue : ∃ n : Nat, clamp (s.fs.sizeOf node) target = n ∧ n ≤ s.fs.sizeOf node := by
            rw [clamp_eq (Int.natCast_nonneg _)]
            exact ⟨(max 0 (min (s.fs.sizeOf node : Int) target)).toNat, by omega, by omega⟩
          obtain ⟨n, hclamp, hle⟩ := hvalue
          have hseek := sysLseek_of_file hon.1 htarget
          have hcall : s.call pid (.sysLseek fd offset whence) = ((n : Int), [],
              s.setFd pid ⟨fd, hlt⟩ { s.fds pid ⟨fd, hlt⟩ with offset := n }) := by
            rw [hon.2, hclamp, Int.toNat_natCast] at hseek
            simp only [call, hseek]
          have hevent : s.event pid (.sysLseek fd offset whence) =
              .sought (pid, ⟨fd, hlt⟩) (whence = 0 ∧ offset = 0) n := by
            unfold event
            rw [hcall]
            dsimp only
            rw [if_neg (Int.not_lt.mpr (Int.natCast_nonneg _)), Int.toNat_natCast, nameOf_eq hlt]
          have hstart : decide (whence = 0 ∧ offset = 0) = true → n = 0 := by
            intro hzero
            obtain ⟨rfl, rfl⟩ := of_decide_eq_true hzero
            obtain rfl := Option.some.inj htarget
            rw [clamp_eq (Int.natCast_nonneg _)] at hclamp
            omega
          rw [Positioned, hevent, hcall, view_moveTo hon]
          exact .sought (view_opened hon) ((length_read_eq hfile).symm ▸ hle) hstart
  · refine positioned_of_error (show errUnsupported < 0 by decide) ?_
    simp only [call, sysLseek, withFd_of_le hge]

/-- A call with nothing to do. -/
theorem positioned_of_idle {c : Call} (hevent : s.event pid c = .idle)
    (h : (s.call pid c).2.2 = s) : s.Positioned pid node c := by
  rw [Positioned, hevent, h]
  exact .idle

/-- A read or a write that does not reach the file: with an error, or with nothing to do. -/
def Misses (s : System) (pid : Pid) (c : Call) (len : Nat) : Prop :=
  (∃ error < 0, s.call pid c = (error, [], s)) ∨ (len = 0 ∧ s.call pid c = (0, [], s))

theorem sysRead_misses {fd buf len : Nat} (h : s.FreeOrOn pid node fd)
    (hnot : ¬s.Reaches pid node fd buf len) : s.Misses pid (.sysRead fd buf len) len := by
  rcases Nat.lt_or_ge fd maxFds with hlt | hge
  · by_cases hzero : len = 0
    · right
      simp only [call, sysRead, withFd_of_lt hlt, if_pos hzero, and_true]
      exact hzero
    · left
      by_cases hrange : (s.table pid).containsRange buf len = true
      · rcases h hlt with hfree | hon
        · refine ⟨errUnsupported, by decide, ?_⟩
          simp only [call, sysRead, withFd_of_lt hlt, if_neg hzero, hrange, not_true, if_false,
            hfree]
        · exact absurd ⟨⟨hlt, hon⟩, Nat.pos_of_ne_zero hzero, hrange⟩ hnot
      · refine ⟨errInvalidPointer, by decide, ?_⟩
        simp only [call, sysRead, withFd_of_lt hlt, if_neg hzero, if_pos hrange]
  · left
    refine ⟨errUnsupported, by decide, ?_⟩
    simp only [call, sysRead, withFd_of_le hge]

/-- What `sys_read` does with a descriptor on a file. -/
theorem sysRead_of_reaches {fd buf len : Nat} {got : List UInt8} (hlt : fd < maxFds)
    (h : s.Reaches pid node fd buf len)
    (hgot : got = ((s.fs.read node).drop (s.fds pid ⟨fd, hlt⟩).offset).take len) :
    s.sysRead pid fd buf len = ((got.length : Int), got, s.setFd pid ⟨fd, hlt⟩
      { s.fds pid ⟨fd, hlt⟩ with offset := (s.fds pid ⟨fd, hlt⟩).offset + got.length }) := by
  obtain ⟨⟨_, hkind, hinode⟩, hpos, hrange⟩ := h
  have hrange' : ¬¬(s.table pid).containsRange buf len = true := not_not.mpr hrange
  have hlength : got.length =
      min len ((s.fs.read node).length - (s.fds pid ⟨fd, hlt⟩).offset) := by
    rw [hgot, List.length_take, List.length_drop]
  have htake : ((s.fs.read node).drop (s.fds pid ⟨fd, hlt⟩).offset).take
      (min len ((s.fs.read node).length - (s.fds pid ⟨fd, hlt⟩).offset)) = got := by
    rw [hgot, ← List.length_drop, List.take_eq_take_iff]
    omega
  unfold System.sysRead
  rw [withFd_of_lt hlt, if_neg (Nat.ne_of_gt hpos), if_neg hrange']
  simp only [hkind, hinode, htake, hlength]

/-- Reading is right unless it is through a descriptor that is for writing. -/
theorem positioned_sysRead_iff {fd buf len : Nat} (h : s.FreeOrOn pid node fd) :
    s.Positioned pid node (.sysRead fd buf len) ↔ s.Careful pid node (.sysRead fd buf len) := by
  by_cases hreach : s.Reaches pid node fd buf len
  · obtain ⟨⟨hlt, hon⟩, hpos, -⟩ := id hreach
    let got := ((s.fs.read node).drop (s.fds pid ⟨fd, hlt⟩).offset).take len
    have hsome : got ≠ [] ↔ (s.fds pid ⟨fd, hlt⟩).offset < (s.fs.read node).length := by
      rw [← List.length_pos_iff, List.length_take, List.length_drop]
      omega
    have hcall : s.call pid (.sysRead fd buf len) = ((got.length : Int), got,
        s.setFd pid ⟨fd, hlt⟩
          { s.fds pid ⟨fd, hlt⟩ with offset := (s.fds pid ⟨fd, hlt⟩).offset + got.length }) :=
      sysRead_of_reaches hlt hreach rfl
    have hevent : s.event pid (.sysRead fd buf len) = .got (pid, ⟨fd, hlt⟩) len got := by
      unfold event
      rw [hcall]
      dsimp only
      rw [if_neg (Int.not_lt.mpr (Int.natCast_nonneg _)), if_neg (Nat.ne_of_gt hpos),
        Int.toNat_natCast, List.take_length, nameOf_eq hlt]
    rw [Positioned, hevent, hcall, view_moveTo hon, Careful, nameOf_eq hlt, ← hsome]
    constructor
    · rintro hstep ⟨-, hflags, hne⟩
      obtain ⟨o, hopen, hallowed, -⟩ := hstep.of_got
      rw [view_opened hon] at hopen
      obtain rfl := Option.some.inj hopen
      exact of_decide_eq_true (hallowed hne) hflags
    · intro hcareful
      exact .got (view_opened hon)
        (fun hne => decide_eq_true fun hflags => hcareful ⟨hreach, hflags, hne⟩) rfl
  · refine ⟨fun _ hcareful => hreach hcareful.1, fun _ => ?_⟩
    rcases sysRead_misses h hreach with ⟨error, hneg, hcall⟩ | ⟨hzero, hcall⟩
    · exact positioned_of_error hneg hcall
    · refine positioned_of_idle ?_ (by rw [hcall])
      unfold event
      rw [hcall]
      dsimp only
      rw [if_neg (Int.lt_irrefl 0), if_pos hzero]

theorem sysWrite_misses {mem : Nat → UInt8} {fd buf len : Nat} (h : s.FreeOrOn pid node fd)
    (hnot : ¬s.Reaches pid node fd buf len) : s.Misses pid (.sysWrite mem fd buf len) len := by
  rcases Nat.lt_or_ge fd maxFds with hlt | hge
  · by_cases hzero : len = 0
    · right
      simp only [call, sysWrite, withFd_of_lt hlt, if_pos hzero, and_true]
      exact hzero
    · left
      by_cases hrange : (s.table pid).containsRange buf len = true
      · rcases h hlt with hfree | hon
        · refine ⟨errUnsupported, by decide, ?_⟩
          simp only [call, sysWrite, withFd_of_lt hlt, if_neg hzero, hrange, not_true, if_false,
            hfree]
        · exact absurd ⟨⟨hlt, hon⟩, Nat.pos_of_ne_zero hzero, hrange⟩ hnot
      · refine ⟨errInvalidPointer, by decide, ?_⟩
        simp only [call, sysWrite, withFd_of_lt hlt, if_neg hzero, if_pos hrange]
  · left
    refine ⟨errUnsupported, by decide, ?_⟩
    simp only [call, sysWrite, withFd_of_le hge]

/-- What `sys_write` does with a descriptor on a file. -/
theorem sysWrite_of_reaches {mem : Nat → UInt8} {fd buf len : Nat}
    (h : s.Reaches pid node fd buf len) :
    s.sysWrite pid mem fd buf len =
      (if (s.fs.write node (slice mem buf len)).1 then asI64 len else -5,
        { s with fs := (s.fs.write node (slice mem buf len)).2 }) := by
  obtain ⟨⟨hlt, hkind, hinode⟩, hpos, hrange⟩ := h
  have hrange' : ¬¬(s.table pid).containsRange buf len = true := not_not.mpr hrange
  unfold System.sysWrite
  rw [withFd_of_lt hlt, if_neg (Nat.ne_of_gt hpos), if_neg hrange']
  simp only [hkind, hinode]
  cases s.fs.write node (slice mem buf len) with
  | mk ok fs =>
      cases ok with
      | true => simp only [if_true]
      | false => simp only [Bool.false_eq_true, if_false]

/-- `fs::write` succeeds where there is room, and changes nothing where there is not. -/
theorem fs_write_cases (hfile : (s.fs.nodes node).kind = .file) (bytes : List UInt8) :
    ((State.asU32 bytes.length ≤ (s.fs.nodes node).dataCap ∨
        s.fs.dataNext + bytes.length ≤ dataPool) ∧ (s.fs.write node bytes).1 = true) ∨
      (¬(State.asU32 bytes.length ≤ (s.fs.nodes node).dataCap ∨
        s.fs.dataNext + bytes.length ≤ dataPool) ∧ s.fs.write node bytes = (false, s.fs)) := by
  have hnot : ¬(s.fs.nodes node).kind ≠ .file := not_not.mpr hfile
  unfold State.write
  dsimp only
  rw [if_neg hnot]
  by_cases hcap : State.asU32 bytes.length ≤ (s.fs.nodes node).dataCap
  · left
    rw [if_pos hcap]
    exact ⟨Or.inl hcap, rfl⟩
  · rw [if_neg hcap]
    by_cases hpool : s.fs.dataNext + bytes.length > dataPool
    · right
      rw [if_pos hpool]
      refine ⟨?_, rfl⟩
      rintro (h | h)
      · exact hcap h
      · exact Nat.not_lt.mpr h hpool
    · left
      rw [if_neg hpool]
      exact ⟨Or.inr (Nat.le_of_not_lt hpool), rfl⟩

/-- A write that is accepted leaves the descriptor where it was. -/
theorem not_positioned_of_stored {mem : Nat → UInt8} {fd buf len : Nat}
    (hreach : s.Reaches pid node fd buf len) (hlen : len < 2 ^ 63)
    (hok : (s.fs.write node (slice mem buf len)).1 = true) :
    ¬s.Positioned pid node (.sysWrite mem fd buf len) := by
  obtain ⟨⟨hlt, hon⟩, hpos, -⟩ := id hreach
  have hcall : s.call pid (.sysWrite mem fd buf len) = ((len : Int), [],
      { s with fs := (s.fs.write node (slice mem buf len)).2 }) := by
    simp only [call, sysWrite_of_reaches hreach, if_pos hok]
    rw [asI64_of_fits (by omega) (by omega)]
  have hevent : s.event pid (.sysWrite mem fd buf len) =
      .wrote (pid, ⟨fd, hlt⟩) (slice mem buf len) := by
    unfold event
    rw [hcall]
    dsimp only
    rw [if_neg (Int.not_lt.mpr (Int.natCast_nonneg _)), if_neg (Nat.ne_of_gt hpos),
      Int.toNat_natCast, nameOf_eq hlt, List.take_of_length_le]
    rw [length_slice]
  rw [Positioned, hevent, hcall]
  intro hstep
  obtain ⟨o, hopen, -, hview⟩ := hstep.of_wrote
  rw [view_opened hon] at hopen
  obtain rfl := Option.some.inj hopen
  have hsame : (s.view node).opened (pid, ⟨fd, hlt⟩) = some { (s.fds pid ⟨fd, hlt⟩).opened with
      offset := (s.fds pid ⟨fd, hlt⟩).opened.offset + (slice mem buf len).length } := by
    have hopened := congrArg (fun v => v.opened (pid, ⟨fd, hlt⟩)) hview
    exact hopened.trans (FileView.moveTo_opened _ _ _ _)
  rw [view_opened hon, length_slice] at hsame
  have hoffset := congrArg Opened.offset (Option.some.inj hsame)
  dsimp only at hoffset
  omega

/-- Writing is right only when it does not take place. -/
theorem positioned_sysWrite_iff {mem : Nat → UInt8} {fd buf len : Nat}
    (hfile : (s.fs.nodes node).kind = .file) (h : s.FreeOrOn pid node fd) (hlen : len < 2 ^ 63) :
    s.Positioned pid node (.sysWrite mem fd buf len) ↔
      s.Careful pid node (.sysWrite mem fd buf len) := by
  by_cases hreach : s.Reaches pid node fd buf len
  · have hcases := fs_write_cases hfile (slice mem buf len)
    rw [length_slice] at hcases
    rcases hcases with ⟨hroom, hok⟩ | ⟨hroom, hfail⟩
    · exact ⟨fun hstep => absurd hstep (not_positioned_of_stored hreach hlen hok),
        fun hcareful => absurd ⟨hreach, hroom⟩ hcareful⟩
    · refine ⟨fun _ hstored => hroom hstored.2, fun _ => ?_⟩
      refine positioned_of_error (show (-5 : Int) < 0 by decide) ?_
      simp only [call, sysWrite_of_reaches hreach, hfail, Bool.false_eq_true, if_false]
  · refine ⟨fun _ hstored => hreach hstored.1, fun _ => ?_⟩
    rcases sysWrite_misses h hreach with ⟨error, hneg, hcall⟩ | ⟨hzero, hcall⟩
    · exact positioned_of_error hneg hcall
    · refine positioned_of_idle ?_ (by rw [hcall])
      unfold event
      rw [hcall]
      dsimp only
      rw [if_neg (Int.lt_irrefl 0), if_pos hzero]

/-- A call on a file is right exactly when it is careful. -/
theorem positioned_iff {c : Call} (hfile : (s.fs.nodes node).kind = .file)
    (h : s.IsOn pid node c) : s.Positioned pid node c ↔ s.Careful pid node c := by
  cases c with
  | sysOpen mem pathPtr flags =>
      exact ⟨fun _ => trivial, fun _ => positioned_sysOpen hfile h⟩
  | sysClose fd => exact ⟨fun _ => trivial, fun _ => positioned_sysClose h⟩
  | sysRead fd buf len => exact positioned_sysRead_iff h
  | sysWrite mem fd buf len => exact positioned_sysWrite_iff hfile h.1 h.2
  | sysLseek fd offset whence => exact ⟨fun _ => trivial, fun _ => positioned_sysLseek hfile h⟩

/-! ## Sequences of calls -/

/-- Every call of a sequence has the property when its turn comes. -/
def Throughout (P : System → Pid → Call → Prop) : System → List (Pid × Call) → Prop
  | _, [] => True
  | s, (pid, c) :: calls => P s pid c ∧ Throughout P (s.call pid c).2.2 calls

/-- The state after a sequence of calls. -/
def after (s : System) (calls : List (Pid × Call)) : System :=
  calls.foldl (fun s c => (s.call c.1 c.2).2.2) s

/-- What a sequence of calls does to the file. -/
def events : System → List (Pid × Call) → List (FileEvent Name UInt8)
  | _, [] => []
  | s, (pid, c) :: calls => s.event pid c :: (s.call pid c).2.2.events calls

/-- Calls that are right make a run of the file with positions. -/
theorem run_of_positioned {calls : List (Pid × Call)}
    (h : Throughout (fun s pid c => s.Positioned pid node c) s calls) :
    Run (FileView.Step 0) (s.view node) (s.events calls) ((s.after calls).view node) := by
  induction calls generalizing s with
  | nil => exact .nil
  | cons c calls ih => exact (ih h.2).cons h.1

/-- What was written through a descriptor from the start of the file is what is read through it
after a seek to the start, where all of the calls are right. -/
theorem read_back_of_positioned {calls : List (Pid × Call)} {d : Name} {o : Opened}
    {datas : List (List UInt8)} {data : List UInt8} {offset : Nat}
    (hopen : (s.view node).opened d = some o) (hstart : o.offset = 0)
    (h : Throughout (fun s pid c => s.Positioned pid node c) s calls)
    (hevents : s.events calls =
      datas.map (.wrote d) ++ [.sought d true offset] ++ [.got d datas.flatten.length data]) :
    data = datas.flatten := by
  have hrun := run_of_positioned h
  rw [hevents] at hrun
  exact FileView.read_back hopen hstart hrun

/-- The calls of a sequence are on a regular file. -/
def AllOn (s : System) (node : NodeId) (calls : List (Pid × Call)) : Prop :=
  Throughout (fun s pid c => (s.fs.nodes node).kind = .file ∧ s.IsOn pid node c) s calls

theorem allOn_write {mem : Nat → UInt8} {fd buf len : Nat} (h : s.Reaches pid node fd buf len)
    (hfile : (s.fs.nodes node).kind = .file) (hlen : len < 2 ^ 63) :
    s.AllOn node [(pid, .sysWrite mem fd buf len)] := by
  obtain ⟨⟨_, hon⟩, -⟩ := h
  exact ⟨⟨hfile, fun _ => Or.inr hon, hlen⟩, trivial⟩

/-- A write for which there is room is not right. -/
theorem not_throughout_of_room {m : Nat → UInt8} {fd buf len : Nat}
    (h : s.Reaches pid node fd buf len) (hfile : (s.fs.nodes node).kind = .file)
    (hlen : len < 2 ^ 63) (hroom : s.fs.dataNext + len ≤ dataPool) :
    ¬Throughout (fun s pid c => s.Positioned pid node c) s [(pid, .sysWrite m fd buf len)] := by
  intro hsteps
  have hcases := fs_write_cases hfile (slice m buf len)
  rw [length_slice] at hcases
  rcases hcases with ⟨-, hok⟩ | ⟨hnone, -⟩
  · exact not_positioned_of_stored h hlen hok hsteps.1
  · exact hnone (Or.inr hroom)

end System

/-- For every sequence of calls on one regular file: its descriptors behave like positions in
the file exactly as long as nothing is written, and nothing read through a descriptor
that is for writing. -/
theorem positioned_throughout_iff {s : System} {node : NodeId} {calls : List (Pid × Call)}
    (hon : s.AllOn node calls) :
    System.Throughout (fun s pid c => s.Positioned pid node c) s calls ↔
      System.Throughout (fun s pid c => s.Careful pid node c) s calls := by
  induction calls generalizing s with
  | nil => exact Iff.rfl
  | cons c calls ih => exact and_congr (System.positioned_iff hon.1.1 hon.1.2) (ih hon.2)

/-! ## A process that writes -/

/-- The second process has `/a` open for reading and writing. -/
def writing : System := (Traced.withA.sys.sysOpen 1 Traced.pathA 0 2).2

/-- The start of its memory. -/
abbrev writingBase : Nat := (provisionPcb 1 0 0 0 0).layerBase

theorem writing_reaches : writing.Reaches 1 11 3 writingBase 2 ∧
    (writing.fs.nodes 11).kind = .file ∧ writing.fs.dataNext + 2 ≤ dataPool := by
  unfold System.Reaches System.OnNode
  rw [writing, Traced.withA, Traced.boot_eq]
  decide +kernel

theorem positioned_throughout_iff_writing :
    System.Throughout (fun s pid c => s.Positioned pid 11 c) writing
        [(1, .sysWrite (fun _ => 97) 3 writingBase 2)] ↔
      System.Throughout (fun s pid c => s.Careful pid 11 c) writing
        [(1, .sysWrite (fun _ => 97) 3 writingBase 2)] :=
  positioned_throughout_iff (System.allOn_write writing_reaches.1 writing_reaches.2.1 (by omega))

/-- Two bytes are written to a new file: the descriptor stays at its start. -/
theorem not_positioned_throughout : ¬∀ (s : System) (node : NodeId) (calls : List (Pid × Call)),
    s.AllOn node calls → System.Throughout (fun s pid c => s.Positioned pid node c) s calls := by
  intro hall
  obtain ⟨hreach, hfile, hroom⟩ := writing_reaches
  have hlen : (2 : Nat) < 2 ^ 63 := by omega
  exact System.not_throughout_of_room (m := fun _ => 97) hreach hfile hlen hroom
    (hall writing 11 _ (System.allOn_write hreach hfile hlen))

end PureOS.Files
