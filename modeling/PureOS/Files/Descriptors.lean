import PureOS.Files.Identity

set_option autoImplicit false

/-!
# Files: descriptors that are handed out, and seeking (`syscall.rs`)

Each call that hands out a descriptor asks for a free one.  Opening a device does not give up
when there is none: it takes 1 or 0, whatever that descriptor is used for.

`sys_lseek` adds the offset that it is given before it looks where the sum lies, so a sum
that an `i64` cannot hold comes out negative and ends at the start of the file.
-/

namespace PureOS.Files

open PureOS.Foundation PureOS.Fs PureOS.Process

namespace System

variable {s : System} {pid : Pid} {fd : Fd}

/-! ## Handing out -/

/-- The calls that hand out a descriptor. -/
inductive AllocCall where
  | sysOpen (mem : Nat → UInt8) (pathPtr flags : Nat)
  | sysDup (fd : Nat)
  /-- `sys_fcntl` with `F_DUPFD`. -/
  | dupFd (fd arg : Nat)

/-- The value and the state after such a call. -/
def alloc (s : System) (pid : Pid) : AllocCall → Int × System
  | .sysOpen mem pathPtr flags => s.sysOpen pid mem pathPtr flags
  | .sysDup fd => s.sysDup pid fd
  | .dupFd fd arg => s.sysFcntl pid fd 1 arg

/-- A path of the console or of the keyboard. -/
def DevicePath (path : List UInt8) : Prop :=
  (path = ascii "/dev/console" ∨ path = ascii "/dev/stdout") ∨
    path = ascii "/dev/stdin" ∨ path = ascii "/dev/kbd"

instance (path : List UInt8) : Decidable (DevicePath path) :=
  inferInstanceAs (Decidable ((_ ∨ _) ∨ _ ∨ _))

/-- The call opens a device. -/
def AllocCall.OpensDevice : AllocCall → Prop
  | .sysOpen mem pathPtr _ => DevicePath (userPath mem pathPtr)
  | _ => False

/-- No descriptor of the process is free. -/
def Full (s : System) (pid : Pid) : Prop := ∀ fd, (s.fds pid fd).kind ≠ .free

/-- What a call that hands out a descriptor promises. -/
structure Allocates (s : System) (pid : Pid) (r : Int × System) : Prop where
  /-- The descriptor was free, and no other entry of any process is changed. -/
  fresh : 0 ≤ r.1 → ∃ fd : Fd, r.1 = (fd : Int) ∧ (s.fds pid fd).kind = .free ∧
    ∀ p f, ¬(p = pid ∧ f = fd) → r.2.fds p f = s.fds p f
  /-- Without a free descriptor there is an error and every table is as it was. -/
  full : s.Full pid → r.1 < 0 ∧ r.2.fds = s.fds

theorem findFreeFd_eq_none : s.findFreeFd pid = none ↔ s.Full pid := by
  rw [findFreeFd, List.find?_eq_none]
  constructor
  · intro h fd hfree
    exact h fd (List.mem_finRange fd) (decide_eq_true hfree)
  · intro h fd _ hfree
    exact h fd (of_decide_eq_true hfree)

/-- An error that leaves the tables alone. -/
theorem Allocates.of_error {error : Int} (hneg : error < 0) : s.Allocates pid (error, s) where
  fresh h := absurd hneg (Int.not_lt.mpr h)
  full _ := ⟨hneg, rfl⟩

/-- A free descriptor is filled. -/
theorem Allocates.of_free (h : s.findFreeFd pid = some fd) (e : FdEntry) :
    s.Allocates pid ((fd : Int), s.setFd pid fd e) where
  fresh _ := by
    refine ⟨fd, rfl, findFreeFd_eq_some h, fun p f hother => ?_⟩
    rw [setFd_fds, if_neg hother]
  full hfull := by
    rw [findFreeFd_eq_none.mpr hfull] at h
    cases h

theorem allocates_sysDup (fd : Nat) : s.Allocates pid (s.sysDup pid fd) := by
  unfold sysDup
  rcases Nat.lt_or_ge fd maxFds with hlt | hge
  · rw [withFd_of_lt hlt]
    split
    · exact .of_error (show errInvalidPointer < 0 by decide)
    · cases hfd : s.findFreeFd pid with
      | none => exact .of_error (show errNoCapacity < 0 by decide)
      | some new => exact .of_free hfd _
  · rw [withFd_of_le hge]
    exact .of_error (show errUnsupported < 0 by decide)

theorem allocates_dupFd (fd arg : Nat) : s.Allocates pid (s.sysFcntl pid fd 1 arg) := by
  unfold sysFcntl
  rcases Nat.lt_or_ge fd maxFds with hlt | hge
  · rw [withFd_of_lt hlt]
    dsimp only
    split
    · exact .of_error (show errInvalidPointer < 0 by decide)
    · exact allocates_sysDup fd
  · rw [withFd_of_le hge]
    exact .of_error (show errUnsupported < 0 by decide)

/-- Opening a device fills a descriptor whether or not one is free. -/
theorem allocates_device {fallback : Fd} (e : FdEntry) :
    s.Allocates pid (((s.findFreeFd pid).getD fallback : Int),
      s.setFd pid ((s.findFreeFd pid).getD fallback) e) ↔ ¬s.Full pid := by
  rw [← findFreeFd_eq_none]
  cases hfd : s.findFreeFd pid with
  | none =>
      constructor
      · intro h
        have hneg := (h.full (findFreeFd_eq_none.mp hfd)).1
        exact absurd hneg (Int.not_lt.mpr (Int.natCast_nonneg _))
      · intro h
        exact absurd rfl h
  | some fd => exact ⟨fun _ h => absurd h (Option.some_ne_none fd), fun _ => .of_free hfd e⟩

/-- Opening a file fills a free descriptor or none. -/
theorem allocates_file {mem : Nat → UInt8} {pathPtr flags : Nat}
    (h : ¬DevicePath (userPath mem pathPtr)) :
    s.Allocates pid (s.sysOpen pid mem pathPtr flags) := by
  rw [DevicePath, not_or] at h
  unfold sysOpen
  dsimp only
  split
  · exact .of_error (show errInvalidPointer < 0 by decide)
  rw [if_neg h.1, if_neg h.2]
  split
  · exact .of_error (show errInvalidPointer < 0 by decide)
  · cases hfd : s.findFreeFd pid with
    | none => exact .of_error (show errNoCapacity < 0 by decide)
    | some fd => exact .of_free hfd _

theorem allocates_sysOpen (mem : Nat → UInt8) (pathPtr flags : Nat) :
    s.Allocates pid (s.sysOpen pid mem pathPtr flags) ↔
      ¬(DevicePath (userPath mem pathPtr) ∧ s.Full pid) := by
  by_cases hdevice : DevicePath (userPath mem pathPtr)
  · rw [not_and, forall_prop_of_true hdevice]
    have hpath : userPath mem pathPtr ≠ [] := by
      intro hnil
      rw [hnil] at hdevice
      exact absurd hdevice (by decide)
    unfold sysOpen
    dsimp only
    rw [if_neg hpath]
    by_cases hconsole : userPath mem pathPtr = ascii "/dev/console" ∨
        userPath mem pathPtr = ascii "/dev/stdout"
    · rw [if_pos hconsole]
      exact allocates_device _
    · rw [if_neg hconsole, if_pos (hdevice.resolve_left hconsole)]
      exact allocates_device _
  · exact ⟨fun _ h => hdevice h.1, fun _ => allocates_file hdevice⟩

/-- A call hands out a descriptor as it should unless it opens a device for a process that has
no descriptor left. -/
theorem allocates_iff (s : System) (pid : Pid) (c : AllocCall) :
    s.Allocates pid (s.alloc pid c) ↔ ¬(c.OpensDevice ∧ s.Full pid) := by
  cases c with
  | sysOpen mem pathPtr flags => exact allocates_sysOpen mem pathPtr flags
  | sysDup fd => exact ⟨fun _ h => h.1, fun _ => allocates_sysDup fd⟩
  | dupFd fd arg => exact ⟨fun _ h => h.1, fun _ => allocates_dupFd fd arg⟩

end System

/-- The boot state after the first process has copied its descriptor 0 so many times. -/
def copied : Nat → System
  | 0 => System.boot
  | n + 1 => ((copied n).sysDup 0 0).2

theorem run_copied (n : Nat) :
    Run SysStep System.boot (List.replicate n (.sysDup 0 0)) (copied n) := by
  induction n with
  | zero => exact .nil
  | succ n ih =>
      rw [List.replicate_succ']
      exact .snoc ih .sysDup

/-- Memory that holds a text and a zero. -/
def memoryOf (text : List UInt8) (i : Nat) : UInt8 := text.getD i 0

/-- The console is opened when 13 copies have used up the descriptors: the call answers with the
descriptor 1, which was in use. -/
theorem not_allocates : ¬∀ (s : System) (h : List Event) (pid : Pid) (c : System.AllocCall),
    Run SysStep System.boot h s → s.Allocates pid (s.alloc pid c) := by
  intro hall
  have hfull : ∀ fd, ((copied 13).fds 0 fd).kind ≠ .free := by decide +kernel
  have hopen := hall _ _ 0 (.sysOpen (memoryOf (ascii "/dev/console")) 0 2) (run_copied 13)
  have hdevice : System.DevicePath (System.userPath (memoryOf (ascii "/dev/console")) 0) := by
    decide +kernel
  exact (System.allocates_sysOpen _ 0 2).mp hopen ⟨hdevice, hfull⟩

/-! ## Seeking -/

namespace System

variable {s : System} {pid : Pid} {fd : Fd}

/-- Where a seek starts from: the start of the file, the current offset or the end. -/
def seekBase (e : FdEntry) (size : Int) (whence : Nat) : Option Int :=
  match whence with
  | 0 => some 0
  | 1 => some e.offset
  | 2 => some size
  | _ => none

/-- What `sys_lseek` promises of a descriptor on a file: the sum of the base and the offset is
formed as it is, and the new offset and the value of the call are that sum, kept between 0 and
the size of the file. -/
def SeeksExactly (s : System) (pid : Pid) (fd : Fd) (offset : Int) (whence : Nat) : Prop :=
  let e := s.fds pid fd
  let size : Int := s.fs.sizeOf e.inode
  ∃ base, seekBase e size whence = some base ∧
    seekTarget e size offset whence = some (base + offset) ∧
    s.sysLseek pid fd offset whence =
      (max 0 (min size (base + offset)),
        s.setFd pid fd { e with offset := (max 0 (min size (base + offset))).toNat })

/-- The lengths of the files and the offsets into them fit a `u32`. -/
structure Short (s : System) : Prop where
  lens : ∀ i, (s.fs.nodes i).dataLen < 2 ^ 32
  offsets : ∀ p f, (s.fds p f).offset < 2 ^ 32

theorem clamp_eq {size target : Int} (h : 0 ≤ size) : clamp size target = max 0 (min size target) := by
  unfold clamp
  dsimp only
  omega

theorem asI64_of_fits {n : Int} (h : -2 ^ 63 ≤ n) (h' : n < 2 ^ 63) : asI64 n = n := by
  rw [asI64, Int.bmod_def]
  omega

/-- A sum that is too large comes out negative. -/
theorem asI64_of_large {n : Int} (h : 2 ^ 63 ≤ n) (h' : n < 2 ^ 64) : asI64 n < 0 := by
  rw [asI64, Int.bmod_def]
  omega

/-! ### Lengths fit -/

/-- The lengths of the files fit. -/
def LensFit (fs : State) : Prop := ∀ i, (fs.nodes i).dataLen < 2 ^ 32

section LensFit

variable {fs fs' : State}

theorem LensFit.setNode (h : LensFit fs) (i : NodeId) {n : Node} (hn : n.dataLen < 2 ^ 32) :
    LensFit (fs.setNode i n) := by
  intro j
  by_cases hj : j = i
  · rw [hj, State.setNode_self]
    exact hn
  · rw [State.setNode_of_ne fs n hj]
    exact h j

theorem asU32_lt (n : Nat) : State.asU32 n < 2 ^ 32 := Nat.mod_lt _ (by decide)

theorem LensFit.mkdir (h : LensFit fs) (dir : NodeId) (name : List UInt8) :
    LensFit (fs.mkdir dir name).2 := by
  rcases fs.mkdir_cases dir name with ⟨i, -, -, -, -, heq⟩ | ⟨-, heq⟩
  · rw [heq]
    exact h.setNode i (Nat.two_pow_pos 32)
  · rw [heq]
    exact h

theorem LensFit.createFile (h : LensFit fs) (dir : NodeId) (name : List UInt8) :
    LensFit (fs.createFile dir name).2 := by
  rcases fs.createFile_cases dir name with ⟨i, -, -, -, -, heq⟩ | ⟨i, -, -, -, heq⟩ | ⟨-, heq⟩
  · rw [heq]
    exact h.setNode i (Nat.two_pow_pos 32)
  · rw [heq]
    exact h
  · rw [heq]
    exact h

theorem LensFit.write (h : LensFit fs) (node : NodeId) (bytes : List UInt8) :
    LensFit (fs.write node bytes).2 := by
  have hdata : ∀ data next, LensFit { fs with data := data, dataNext := next } := fun _ _ => h
  unfold State.write
  dsimp only
  split
  · exact h
  split
  · exact (hdata _ _).setNode node (asU32_lt _)
  split
  · exact h
  · exact (hdata _ _).setNode node (asU32_lt _)

theorem LensFit.append (h : LensFit fs) (node : NodeId) (bytes : List UInt8) :
    LensFit (fs.append node bytes).2 := by
  have hdata : ∀ data next, LensFit { fs with data := data, dataNext := next } := fun _ _ => h
  unfold State.append
  dsimp only
  split
  · exact h
  split
  · exact h
  · exact (hdata _ _).setNode node (asU32_lt _)

theorem LensFit.unlink (h : LensFit fs) (node : NodeId) : LensFit (fs.unlink node).2 := by
  rcases fs.unlink_cases node with ⟨-, heq⟩ | ⟨-, -, -, heq⟩
  · rw [heq]
    exact h
  · rw [heq]
    exact h.setNode node (Nat.two_pow_pos 32)

theorem LensFit.shellStep {op : ShellOp} (h : LensFit fs) (hstep : ShellStep fs op fs') :
    LensFit fs' := by
  cases hstep with
  | @node op fits =>
      cases op with
      | mkdir dir name => exact h.mkdir dir name
      | createFile dir name => exact h.createFile dir name
      | write node bytes => exact h.write node bytes
      | append node bytes => exact h.append node bytes
      | read node => exact h
      | unlink node => exact h.unlink node
  | @rmRecursive _ dir fuel done =>
      exact State.rmRecursive_induction (P := LensFit) (fun _ i hfs => hfs.unlink i) h done
  | @setCwd node =>
      have hnodes : (fs.setCwd node).nodes = fs.nodes := by
        unfold State.setCwd
        split
        · rfl
        · rfl
      intro i
      rw [hnodes]
      exact h i

theorem lensFit_init : LensFit State.init := by
  refine State.KeptByBuilding.init ⟨fun _ dir name h => h.mkdir dir name,
    fun _ dir name h => h.createFile dir name, fun _ node bytes _ h => h.write node bytes⟩ ?_
  intro i
  by_cases hi : i = root
  · simp [State.blank, hi]
  · simp [State.blank, hi, Node.empty]

end LensFit

/-! ### Offsets fit -/

theorem Short.setFd (h : s.Short) {e : FdEntry} (he : e.offset < 2 ^ 32) :
    (s.setFd pid fd e).Short where
  lens := h.lens
  offsets p f := by
    rw [setFd_fds]
    split
    · exact he
    · exact h.offsets p f

theorem Short.with_fs (h : s.Short) {fs : State} (hfs : LensFit fs) : Short { s with fs := fs } where
  lens := hfs
  offsets := h.offsets

/-- A table with short offsets is put in. -/
theorem Short.of_update {s' : System} (h : s.Short) {tbl : FdTable} (hfs : s'.fs = s.fs)
    (hfds : s'.fds = Function.update s.fds pid tbl) (htbl : ∀ fd, (tbl fd).offset < 2 ^ 32) :
    s'.Short where
  lens := by
    rw [hfs]
    exact h.lens
  offsets p f := by
    rw [hfds]
    by_cases hp : p = pid
    · rw [hp, Function.update_self]
      exact htbl f
    · rw [Function.update_of_ne hp]
      exact h.offsets p f

theorem Short.sizeOf_lt (h : s.Short) (i : NodeId) : s.fs.sizeOf i < 2 ^ 32 := h.lens i

theorem length_read_lt (h : s.Short) (i : NodeId) : (s.fs.read i).length < 2 ^ 32 := by
  by_cases hfile : (s.fs.nodes i).kind = .file
  · rw [State.read_eq_slice hfile, length_slice]
    exact h.lens i
  · rw [State.read, if_pos (Or.inl hfile)]
    exact Nat.two_pow_pos 32

theorem Short.sysRead (h : s.Short) (fd buf len : Nat) : (s.sysRead pid fd buf len).2.2.Short := by
  unfold System.sysRead
  rcases Nat.lt_or_ge fd maxFds with hlt | hge
  · rw [withFd_of_lt hlt]
    split
    · exact h
    split
    · exact h
    split
    · exact ⟨h.lens, h.offsets⟩
    · refine h.setFd ?_
      have hoff := h.offsets pid ⟨fd, hlt⟩
      have hdata := length_read_lt h (s.fds pid ⟨fd, hlt⟩).inode
      dsimp only
      omega
    · exact h
  · rw [withFd_of_le hge]
    exact h

theorem Short.sysLseek (h : s.Short) (fd : Nat) (offset : Int) (whence : Nat) :
    (s.sysLseek pid fd offset whence).2.Short := by
  unfold System.sysLseek
  rcases Nat.lt_or_ge fd maxFds with hlt | hge
  · rw [withFd_of_lt hlt]
    dsimp only
    split
    · split
      · exact h
      · refine h.setFd ?_
        have hsize := h.lens (s.fds pid ⟨fd, hlt⟩).inode
        rw [clamp_eq (Int.natCast_nonneg _)]
        dsimp only [State.sizeOf]
        omega
    · exact h
  · rw [withFd_of_le hge]
    exact h

theorem Short.sysWrite (h : s.Short) (mem : Nat → UInt8) (fd buf len : Nat) :
    (s.sysWrite pid mem fd buf len).2.Short := by
  rcases s.sysWrite_cases pid mem fd buf len with ⟨hfs, hfds, -⟩ | ⟨hlt, -, -, heq⟩
  · refine ⟨?_, ?_⟩
    · rw [hfs]
      exact h.lens
    · rw [hfds]
      exact h.offsets
  · rw [heq]
    exact h.with_fs (LensFit.write h.lens _ _)

theorem Short.sysDup (h : s.Short) (fd : Nat) : (s.sysDup pid fd).2.Short := by
  unfold System.sysDup
  rcases Nat.lt_or_ge fd maxFds with hlt | hge
  · rw [withFd_of_lt hlt]
    split
    · exact h
    split
    · exact h
    · exact h.setFd (h.offsets _ _)
  · rw [withFd_of_le hge]
    exact h

theorem Short.sysFcntl (h : s.Short) (fd cmd arg : Nat) : (s.sysFcntl pid fd cmd arg).2.Short := by
  unfold System.sysFcntl
  rcases Nat.lt_or_ge fd maxFds with hlt | hge
  · rw [withFd_of_lt hlt]
    dsimp only
    split
    · exact h
    split
    · exact h.sysDup fd
    · exact h
    · exact h.setFd (h.offsets pid ⟨fd, hlt⟩)
    · exact h
  · rw [withFd_of_le hge]
    exact h

theorem Short.sysClose (h : s.Short) (fd : Nat) : (s.sysClose pid fd).2.Short := by
  unfold System.sysClose
  rcases Nat.lt_or_ge fd maxFds with hlt | hge
  · rw [withFd_of_lt hlt]
    split
    · exact h
    · exact h.setFd (by decide)
  · rw [withFd_of_le hge]
    exact h

theorem Short.sysOpen (h : s.Short) (mem : Nat → UInt8) (pathPtr flags : Nat) :
    (s.sysOpen pid mem pathPtr flags).2.Short := by
  have hzero : (0 : Nat) < 2 ^ 32 := by decide
  unfold System.sysOpen
  dsimp only
  split
  · exact h
  split
  · exact h.setFd hzero
  split
  · exact h.setFd hzero
  split
  · exact h
  split
  · exact h
  · exact h.setFd hzero

theorem Short.step {s' : System} {e : Event} (h : s.Short) (hstep : SysStep s e s') : s'.Short := by
  cases hstep with
  | sysOpen => exact h.sysOpen _ _ _
  | sysClose => exact h.sysClose _
  | sysDup => exact h.sysDup _
  | sysFcntl => exact h.sysFcntl _ _ _
  | sysRead => exact h.sysRead _ _ _
  | sysWrite => exact h.sysWrite _ _ _ _
  | sysLseek => exact h.sysLseek _ _ _
  | shell done => exact h.with_fs (LensFit.shellStep h.lens done)
  | freeFds => exact h.of_update rfl rfl fun _ => by decide
  | provision => exact h.of_update rfl rfl (by decide)
  | key => exact ⟨h.lens, h.offsets⟩

theorem boot_short : boot.Short where
  lens := by
    rw [show boot.fs = State.init by simp only [boot]]
    exact lensFit_init
  offsets p f := by
    have hfds : boot.fds = Function.update (fun _ _ => FdEntry.free) 0 initFdTable := by
      simp only [boot]
    rw [hfds]
    by_cases hp : p = 0
    · rw [hp, Function.update_self]
      revert f
      decide
    · rw [Function.update_of_ne hp]
      exact Nat.two_pow_pos 32

theorem short_of_run {h : List Event} (run : Run SysStep System.boot h s) : s.Short :=
  run.invariant_state Short boot_short fun _ _ _ hs hstep => hs.step hstep

/-! ### The sum -/

/-- What `sys_lseek` does with a descriptor on a file. -/
theorem sysLseek_of_file (hfile : (s.fds pid fd).kind = .file) {offset target : Int} {whence : Nat}
    (htarget : seekTarget (s.fds pid fd) (s.fs.sizeOf (s.fds pid fd).inode) offset whence =
      some target) :
    s.sysLseek pid fd offset whence =
      (clamp (s.fs.sizeOf (s.fds pid fd).inode) target, s.setFd pid fd { s.fds pid fd with
        offset := (clamp (s.fs.sizeOf (s.fds pid fd).inode) target).toNat }) := by
  unfold System.sysLseek
  rw [withFd_of_lt fd.isLt]
  simp only [Fin.eta, hfile, if_true, htarget]

/-- Where the sum fits, the seek is exact. -/
theorem seeksExactly_of_target (hfile : (s.fds pid fd).kind = .file) {offset b : Int} {whence : Nat}
    (hbase : seekBase (s.fds pid fd) (s.fs.sizeOf (s.fds pid fd).inode) whence = some b)
    (htarget : seekTarget (s.fds pid fd) (s.fs.sizeOf (s.fds pid fd).inode) offset whence =
      some (b + offset)) : s.SeeksExactly pid fd offset whence := by
  refine ⟨b, hbase, htarget, ?_⟩
  rw [sysLseek_of_file hfile htarget, clamp_eq (Int.natCast_nonneg _)]

/-- The sum that an exact seek from the end forms. -/
theorem SeeksExactly.sum_eq {offset : Int} (h : s.SeeksExactly pid fd offset 2) :
    asI64 (s.fs.sizeOf (s.fds pid fd).inode + offset) =
      s.fs.sizeOf (s.fds pid fd).inode + offset := by
  obtain ⟨base, hbase, htarget, -⟩ := h
  obtain rfl := Option.some.inj hbase
  exact Option.some.inj htarget

/-- A sum of two numbers that is formed in an `i64` is right exactly when it is small enough. -/
theorem asI64_add_iff {b offset : Int} (hbase : 0 ≤ b) (hbase' : b < 2 ^ 32)
    (hoffset : -2 ^ 63 ≤ offset) (hoffset' : offset < 2 ^ 63) :
    asI64 (b + offset) = b + offset ↔ b + offset < 2 ^ 63 := by
  constructor
  · intro heq
    by_contra hlarge
    have hneg := asI64_of_large (n := b + offset) (Int.not_lt.mp hlarge) (by omega)
    omega
  · intro hsmall
    exact asI64_of_fits (by omega) hsmall

/-- A seek whose sum is too large ends at the start of the file. -/
theorem sysLseek_of_overflow (hfile : (s.fds pid fd).kind = .file) {offset target : Int}
    {whence : Nat}
    (htarget : seekTarget (s.fds pid fd) (s.fs.sizeOf (s.fds pid fd).inode) offset whence =
      some (asI64 target)) (hlarge : 2 ^ 63 ≤ target) (hfits : target < 2 ^ 64) :
    (s.sysLseek pid fd offset whence).1 = 0 := by
  rw [sysLseek_of_file hfile htarget, clamp_eq (Int.natCast_nonneg _)]
  have hneg := asI64_of_large hlarge hfits
  dsimp only
  omega

end System

/-- In every state that is reached, a seek is exact if and only if the base and the offset
have a sum that an `i64` holds; from the start of the file they always do. -/
theorem seeksExactly_iff {s : System} {h : List Event} (run : Run SysStep System.boot h s)
    {pid : Pid} {fd : Fd} (hfile : (s.fds pid fd).kind = .file) {offset : Int}
    (hoffset : -2 ^ 63 ≤ offset) (hoffset' : offset < 2 ^ 63) {whence : Nat} (hwhence : whence ≤ 2) :
    s.SeeksExactly pid fd offset whence ↔
      (whence = 1 → (s.fds pid fd).offset + offset < 2 ^ 63) ∧
        (whence = 2 → s.fs.sizeOf (s.fds pid fd).inode + offset < 2 ^ 63) := by
  have hshort := System.short_of_run run
  have hoff := hshort.offsets pid fd
  have hsize := hshort.sizeOf_lt (s.fds pid fd).inode
  have hcases : whence = 0 ∨ whence = 1 ∨ whence = 2 := by omega
  rcases hcases with rfl | rfl | rfl
  · have hexact : s.SeeksExactly pid fd offset 0 :=
      System.seeksExactly_of_target (b := 0) hfile rfl (by rw [Int.zero_add]; rfl)
    exact ⟨fun _ => ⟨fun h => absurd h (by decide), fun h => absurd h (by decide)⟩, fun _ => hexact⟩
  · have hbase : asI64 (s.fds pid fd).offset = (s.fds pid fd).offset :=
      System.asI64_of_fits (by omega) (by omega)
    have hsum := System.asI64_add_iff (b := (s.fds pid fd).offset) (by omega) (by omega)
      hoffset hoffset'
    constructor
    · rintro ⟨base, heq, htarget, -⟩
      obtain rfl := Option.some.inj heq
      have heq := Option.some.inj htarget
      rw [hbase, hsum] at heq
      exact ⟨fun _ => heq, fun h => absurd h (by decide)⟩
    · rintro ⟨h, -⟩
      refine System.seeksExactly_of_target hfile rfl ?_
      rw [System.seekTarget, hbase, hsum.mpr (h rfl)]
  · have hsum := System.asI64_add_iff (b := s.fs.sizeOf (s.fds pid fd).inode) (by omega)
      (by omega) hoffset hoffset'
    constructor
    · intro h
      exact ⟨fun hne => absurd hne (by decide), fun _ => hsum.mp h.sum_eq⟩
    · rintro ⟨-, h⟩
      refine System.seeksExactly_of_target hfile rfl ?_
      rw [System.seekTarget, hsum.mpr (h rfl)]

/-- The first process has opened `/etc/motd`. -/
def reading : System := (System.boot.sysOpen 0 (memoryOf (ascii "/etc/motd")) 0 0).2

theorem run_reading :
    Run SysStep System.boot [.sysOpen 0 (memoryOf (ascii "/etc/motd")) 0 0] reading := by
  refine .snoc (h := []) .nil ?_
  rw [reading]
  exact .sysOpen

theorem reading_file : (reading.fds 0 3).kind = .file ∧
    1 ≤ reading.fs.sizeOf (reading.fds 0 3).inode := by
  rw [reading, System.boot_eq]
  decide +kernel

theorem seeksExactly_iff_reading : reading.SeeksExactly 0 3 (-5) 2 ↔
    ((2 : Nat) = 1 → (reading.fds 0 3).offset + (-5 : Int) < 2 ^ 63) ∧
      ((2 : Nat) = 2 → reading.fs.sizeOf (reading.fds 0 3).inode + (-5 : Int) < 2 ^ 63) :=
  seeksExactly_iff run_reading reading_file.1 (by decide) (by decide) (by decide)

/-- The offset `i64::MAX` from the end of a file that is not empty. -/
theorem not_seeksExactly : ¬∀ (s : System) (h : List Event) (pid : Pid) (fd : Fd) (offset : Int)
    (whence : Nat), Run SysStep System.boot h s → (s.fds pid fd).kind = .file →
      -2 ^ 63 ≤ offset → offset < 2 ^ 63 → whence ≤ 2 → s.SeeksExactly pid fd offset whence := by
  intro hall
  obtain ⟨hfile, hsize⟩ := reading_file
  have hsum :=
    (hall reading _ 0 3 (2 ^ 63 - 1) 2 run_reading hfile (by decide) (by decide) (by decide)).sum_eq
  have hsize' := (System.short_of_run run_reading).sizeOf_lt (reading.fds 0 3).inode
  generalize reading.fs.sizeOf (reading.fds 0 3).inode = size at hsum hsize hsize'
  have hneg := System.asI64_of_large (n := size + (2 ^ 63 - 1)) (by omega) (by omega)
  omega

end PureOS.Files
