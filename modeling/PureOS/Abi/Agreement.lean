import PureOS.Abi.Dispatch
import PureOS.Foundation.Packing

set_option autoImplicit false

/-!
# Abi: the wrappers of `syscalls.h`

The functions of the header that user programs are compiled with, and what the
dispatcher makes of the registers they load.  `long long` values are integers,
pointers are natural numbers; both travel as 64-bit patterns.
-/

namespace PureOS.Abi

open PureOS.Foundation

/-- The 64-bit pattern of a `long long`. -/
def asU64 (n : Int) : Nat := (n % 2 ^ 64).toNat

/-- `v << n` on an `int`: the behaviour is undefined when the width is exceeded. -/
def intShl (v : Int) (n : Nat) : Option Int :=
  if n < 32 ∧ 0 ≤ v ∧ v * 2 ^ n < 2 ^ 31 then some (v * 2 ^ n) else none

/-- `__pureos_syscall`. -/
def pureosSyscall (sysNo arg1 arg2 arg3 : Nat) : Regs := ⟨sysNo, arg1, arg2, arg3⟩

/-! ## The wrappers -/

def memoryAllocate (size flags : Int) : Regs := pureosSyscall 1 (asU64 size) (asU64 flags) 0
def memoryFree (addr : Int) : Regs := pureosSyscall 2 (asU64 addr) 0 0
def createProcess (elfImage : Int) : Regs := pureosSyscall 3 (asU64 elfImage) 0 0
def createThread (entry stack : Int) : Regs := pureosSyscall 4 (asU64 entry) (asU64 stack) 0
def yieldCpu : Regs := pureosSyscall 5 0 0 0
def exitProcess (code : Int) : Regs := pureosSyscall 6 (asU64 code) 0 0
def sendIpc (targetProc : Int) (msgPtr : Nat) : Regs := pureosSyscall 7 (asU64 targetProc) msgPtr 0
def receiveIpc (msgPtr : Nat) : Regs := pureosSyscall 8 msgPtr 0 0
def replyIpc (targetProc : Int) (msgPtr : Nat) : Regs := pureosSyscall 9 (asU64 targetProc) msgPtr 0
def execElf (elfData : Nat) (size : Int) : Regs := pureosSyscall 15 elfData (asU64 size) 0
def sysWrite (fd : Int) (buf : Nat) (len : Int) : Regs :=
  pureosSyscall 16 (asU64 fd) buf (asU64 len)
def sysRead (fd : Int) (buf : Nat) (len : Int) : Regs :=
  pureosSyscall 17 (asU64 fd) buf (asU64 len)
def sysOpen (path : Nat) (flags : Int) : Regs := pureosSyscall 18 path (asU64 flags) 0
def sysClose (fd : Int) : Regs := pureosSyscall 19 (asU64 fd) 0 0
def sysLseek (fd offset whence : Int) : Regs :=
  pureosSyscall 20 (asU64 fd) (asU64 offset) (asU64 whence)
def sysStat (path buf : Nat) : Regs := pureosSyscall 21 path buf 0
def sysDup (fd : Int) : Regs := pureosSyscall 22 (asU64 fd) 0 0
def sysFcntl (fd cmd arg : Int) : Regs := pureosSyscall 23 (asU64 fd) (asU64 cmd) (asU64 arg)

/-- `pureos_print`: `len` is what its loop has counted. -/
def pureosPrint (s : Nat) (len : Int) : Regs := pureosSyscall 24 s (asU64 len) 0

/-- `pureos_println`: `len` is what its loop has counted. -/
def pureosPrintln (s : Nat) (len : Int) : Regs := pureosSyscall 25 s (asU64 len) 0

def pureosInput (buf : Nat) (maxlen : Int) : Regs := pureosSyscall 26 buf (asU64 maxlen) 0
def pureosTicks : Regs := pureosSyscall 27 0 0 0
def pureosCls : Regs := pureosSyscall 28 0 0 0
def pureosSetCursor (row col : Int) : Regs := pureosSyscall 29 (asU64 row) (asU64 col) 0
def pureosColor (fg bg : Int) : Regs := pureosSyscall 30 (asU64 fg) (asU64 bg) 0
def pureosReboot : Regs := pureosSyscall 31 0 0 0
def pureosPrintNum (val newline : Int) : Regs := pureosSyscall 32 (asU64 val) (asU64 newline) 0
def pureosGetScreenInfo (buf : Nat) : Regs := pureosSyscall 33 buf 0 0
def pureosDrawPixel (x y color : Int) : Regs :=
  pureosSyscall 34 (asU64 x) (asU64 y) (asU64 color)

/-- `((x & 0xFFFF) << 16) | (y & 0xFFFF)`. -/
def packPair (x y : Int) : Nat := pack 16 (asU64 x &&& 0xFFFF) (asU64 y &&& 0xFFFF)

def pureosDrawLine (x1 y1 x2 y2 color : Int) : Regs :=
  pureosSyscall 35 (packPair x1 y1) (packPair x2 y2) (asU64 color)

/-- `pureos_draw_rect`: the flag is shifted as an `int`. -/
def pureosDrawRect (x y w h color fill : Int) : Option Regs :=
  (intShl (if fill ≠ 0 then 1 else 0) 32).map fun flag =>
    pureosSyscall 36 (packPair x y) (packPair w h) (asU64 flag ||| (asU64 color &&& 0xFFFFFFFF))

/-- `pureos_draw_circle`: the flag is shifted as an `int`. -/
def pureosDrawCircle (x y radius color fill : Int) : Option Regs :=
  (intShl (if fill ≠ 0 then 1 else 0) 40).map fun flag =>
    pureosSyscall 37 (packPair x y)
      (asU64 flag ||| ((asU64 radius &&& 0xFFFF) <<< 24) ||| (asU64 color &&& 0xFFFFFF)) 0

def pureosClearScreen (color : Int) : Regs := pureosSyscall 39 (asU64 color) 0 0

/-! ## Calls -/

/-- A call of a wrapper. -/
inductive UserCall where
  | memoryAllocate (size flags : Int)
  | memoryFree (addr : Int)
  | createProcess (elfImage : Int)
  | createThread (entry stack : Int)
  | yieldCpu
  | exitProcess (code : Int)
  | sendIpc (targetProc : Int) (msgPtr : Nat)
  | receiveIpc (msgPtr : Nat)
  | replyIpc (targetProc : Int) (msgPtr : Nat)
  | execElf (elfData : Nat) (size : Int)
  | sysWrite (fd : Int) (buf : Nat) (len : Int)
  | sysRead (fd : Int) (buf : Nat) (len : Int)
  | sysOpen (path : Nat) (flags : Int)
  | sysClose (fd : Int)
  | sysLseek (fd offset whence : Int)
  | sysStat (path buf : Nat)
  | sysDup (fd : Int)
  | sysFcntl (fd cmd arg : Int)
  | print (s : Nat) (len : Int)
  | println (s : Nat) (len : Int)
  | input (buf : Nat) (maxlen : Int)
  | ticks
  | cls
  | setCursor (row col : Int)
  | pureosColor (fg bg : Int)
  | reboot
  | printNum (val newline : Int)
  | getScreenInfo (buf : Nat)
  | drawPixel (x y color : Int)
  | drawLine (x1 y1 x2 y2 color : Int)
  | drawRect (x y w h color fill : Int)
  | drawCircle (x y radius color fill : Int)
  | clearScreen (color : Int)
  deriving DecidableEq, Repr

/-- A value of type `long long`. -/
def IsLongLong (n : Int) : Prop := -2 ^ 63 ≤ n ∧ n < 2 ^ 63

/-- A pointer value. -/
def IsPointer (n : Nat) : Prop := n < 2 ^ 64

namespace UserCall

/-- The registers that the wrapper loads.  `none` is undefined behaviour. -/
def encode : UserCall → Option Regs
  | .memoryAllocate size flags => some (Abi.memoryAllocate size flags)
  | .memoryFree addr => some (Abi.memoryFree addr)
  | .createProcess elfImage => some (Abi.createProcess elfImage)
  | .createThread entry stack => some (Abi.createThread entry stack)
  | .yieldCpu => some Abi.yieldCpu
  | .exitProcess code => some (Abi.exitProcess code)
  | .sendIpc targetProc msgPtr => some (Abi.sendIpc targetProc msgPtr)
  | .receiveIpc msgPtr => some (Abi.receiveIpc msgPtr)
  | .replyIpc targetProc msgPtr => some (Abi.replyIpc targetProc msgPtr)
  | .execElf elfData size => some (Abi.execElf elfData size)
  | .sysWrite fd buf len => some (Abi.sysWrite fd buf len)
  | .sysRead fd buf len => some (Abi.sysRead fd buf len)
  | .sysOpen path flags => some (Abi.sysOpen path flags)
  | .sysClose fd => some (Abi.sysClose fd)
  | .sysLseek fd offset whence => some (Abi.sysLseek fd offset whence)
  | .sysStat path buf => some (Abi.sysStat path buf)
  | .sysDup fd => some (Abi.sysDup fd)
  | .sysFcntl fd cmd arg => some (Abi.sysFcntl fd cmd arg)
  | .print s len => some (pureosPrint s len)
  | .println s len => some (pureosPrintln s len)
  | .input buf maxlen => some (pureosInput buf maxlen)
  | .ticks => some pureosTicks
  | .cls => some pureosCls
  | .setCursor row col => some (pureosSetCursor row col)
  | .pureosColor fg bg => some (Abi.pureosColor fg bg)
  | .reboot => some pureosReboot
  | .printNum val newline => some (pureosPrintNum val newline)
  | .getScreenInfo buf => some (pureosGetScreenInfo buf)
  | .drawPixel x y color => some (pureosDrawPixel x y color)
  | .drawLine x1 y1 x2 y2 color => some (pureosDrawLine x1 y1 x2 y2 color)
  | .drawRect x y w h color fill => pureosDrawRect x y w h color fill
  | .drawCircle x y radius color fill => pureosDrawCircle x y radius color fill
  | .clearScreen color => some (pureosClearScreen color)

/-- The arguments have values of their types. -/
def Typed : UserCall → Prop
  | .memoryAllocate size flags => IsLongLong size ∧ IsLongLong flags
  | .memoryFree addr => IsLongLong addr
  | .createProcess elfImage => IsLongLong elfImage
  | .createThread entry stack => IsLongLong entry ∧ IsLongLong stack
  | .yieldCpu | .ticks | .cls | .reboot => True
  | .exitProcess code => IsLongLong code
  | .sendIpc targetProc msgPtr | .replyIpc targetProc msgPtr =>
      IsLongLong targetProc ∧ IsPointer msgPtr
  | .receiveIpc msgPtr => IsPointer msgPtr
  | .execElf elfData size => IsPointer elfData ∧ IsLongLong size
  | .sysWrite fd buf len | .sysRead fd buf len => IsLongLong fd ∧ IsPointer buf ∧ IsLongLong len
  | .sysOpen path flags => IsPointer path ∧ IsLongLong flags
  | .sysClose fd | .sysDup fd => IsLongLong fd
  | .sysLseek fd offset whence => IsLongLong fd ∧ IsLongLong offset ∧ IsLongLong whence
  | .sysStat path buf => IsPointer path ∧ IsPointer buf
  | .sysFcntl fd cmd arg => IsLongLong fd ∧ IsLongLong cmd ∧ IsLongLong arg
  | .print s len | .println s len => IsPointer s ∧ IsLongLong len ∧ 0 ≤ len
  | .input buf maxlen => IsPointer buf ∧ IsLongLong maxlen
  | .setCursor row col => IsLongLong row ∧ IsLongLong col
  | .pureosColor fg bg => IsLongLong fg ∧ IsLongLong bg
  | .printNum val newline => IsLongLong val ∧ IsLongLong newline
  | .getScreenInfo buf => IsPointer buf
  | .drawPixel x y color => IsLongLong x ∧ IsLongLong y ∧ IsLongLong color
  | .drawLine x1 y1 x2 y2 color =>
      IsLongLong x1 ∧ IsLongLong y1 ∧ IsLongLong x2 ∧ IsLongLong y2 ∧ IsLongLong color
  | .drawRect x y w h color fill =>
      IsLongLong x ∧ IsLongLong y ∧ IsLongLong w ∧ IsLongLong h ∧ IsLongLong color ∧
        IsLongLong fill
  | .drawCircle x y radius color fill =>
      IsLongLong x ∧ IsLongLong y ∧ IsLongLong radius ∧ IsLongLong color ∧ IsLongLong fill
  | .clearScreen color => IsLongLong color

/-- The truth value of a C expression, as a number. -/
def truth (n : Int) : Int := if n ≠ 0 then 1 else 0

/-- The call with its truth values in one form. -/
def normal : UserCall → UserCall
  | .printNum val newline => .printNum val (truth newline)
  | .drawRect x y w h color fill => .drawRect x y w h color (truth fill)
  | .drawCircle x y radius color fill => .drawCircle x y radius color (truth fill)
  | u => u

end UserCall

/-- The call of a wrapper that a handler takes its parameters for.  Handlers without a
wrapper have none. -/
def KernelCall.meaning : KernelCall → Option UserCall
  | .memoryAllocate size flags => some (.memoryAllocate size flags)
  | .memoryFree addr => some (.memoryFree addr)
  | .createProcess entry => some (.createProcess entry)
  | .createThread entry stack => some (.createThread entry stack)
  | .yieldCpu => some .yieldCpu
  | .exitProcess code => some (.exitProcess code)
  | .sendIpc targetProc msgPtr => some (.sendIpc targetProc msgPtr)
  | .receiveIpc msgPtr => some (.receiveIpc msgPtr)
  | .replyIpc targetProc msgPtr => some (.replyIpc targetProc msgPtr)
  | .exec dataPtr size => some (.execElf dataPtr size)
  | .sysWrite fd buf len => some (.sysWrite fd buf len)
  | .sysRead fd buf len => some (.sysRead fd buf len)
  | .sysOpen pathPtr flags => some (.sysOpen pathPtr flags)
  | .sysClose fd => some (.sysClose fd)
  | .sysLseek fd offset whence => some (.sysLseek fd offset whence)
  | .sysStat pathPtr statBuf => some (.sysStat pathPtr statBuf)
  | .sysDup fd => some (.sysDup fd)
  | .sysFcntl fd cmd arg => some (.sysFcntl fd cmd arg)
  | .sysPrint buf len => some (.print buf len)
  | .sysPrintln buf len => some (.println buf len)
  | .sysInput buf maxlen => some (.input buf maxlen)
  | .sysTicks => some .ticks
  | .sysCls => some .cls
  | .sysSetCursor row col => some (.setCursor row col)
  | .sysColor fg bg => some (.pureosColor (colorOf fg) (colorOf bg))
  | .sysReboot => some .reboot
  | .sysPrintNum value newline => some (.printNum value (UserCall.truth newline))
  | .sysGetScreenInfo buf => some (.getScreenInfo buf)
  | .sysDrawPixel x y color => some (.drawPixel x y (colorOf color))
  | .sysDrawLine x1 y1 x2 y2 color => some (.drawLine x1 y1 x2 y2 (colorOf color))
  | .sysDrawRect x y w h color fill =>
      some (.drawRect x y w h (colorOf color) (if fill then 1 else 0))
  | .sysDrawCircle x y radius color fill =>
      some (.drawCircle x y radius (colorOf color) (if fill then 1 else 0))
  | .sysClearScreen color => some (.clearScreen (colorOf color))
  | .shareMemory _ _ _ | .pciDeviceAccess _ _ | .mapPhysicalMemory _ _
  | .createSharedBuffer _ _ | .waitForVblank | .sysDrawImage _ _ _ _ _ | .sysSetFontScale _
  | .invalid => none

namespace UserCall

/-- The kernel decodes the registers into the parameters that the wrapper was called
with. -/
def Agrees (u : UserCall) : Prop :=
  (u.encode.bind fun r => (dispatch r).meaning) = some u.normal

instance (u : UserCall) : Decidable u.Agrees := inferInstanceAs (Decidable (_ = _))

/-- A value below `2 ^ bits` that is not negative. -/
def Fits (bits : Nat) (n : Int) : Prop := 0 ≤ n ∧ n < 2 ^ bits

/-- The calls that the kernel understands: the values are in the ranges of the
handler's parameters.  Opening and printing pass their arguments in other registers
than those the dispatcher looks at, so that only the values that do not show it get
through, and the flag of a rectangle or a circle is lost to undefined behaviour. -/
def Understood : UserCall → Prop
  | .memoryAllocate size flags => 0 ≤ size ∧ 0 ≤ flags
  | .memoryFree addr => 0 ≤ addr
  | .createProcess elfImage => 0 ≤ elfImage
  | .createThread entry stack => 0 ≤ entry ∧ 0 ≤ stack
  | .exitProcess code => 0 ≤ code
  | .sendIpc targetProc _ | .replyIpc targetProc _ => 0 ≤ targetProc
  | .execElf _ size => 0 ≤ size
  | .sysWrite fd _ len | .sysRead fd _ len => Fits 32 fd ∧ 0 ≤ len
  | .sysOpen path flags => (path : Int) = flags
  | .sysClose fd | .sysDup fd => Fits 32 fd
  | .sysLseek fd _ whence => Fits 32 fd ∧ Fits 32 whence
  | .sysFcntl fd cmd arg => Fits 32 fd ∧ Fits 32 cmd ∧ 0 ≤ arg
  | .print s len | .println s len => s = 0 ∧ len = 0
  | .input _ maxlen => 0 ≤ maxlen
  | .setCursor row col => Fits 32 row ∧ Fits 32 col
  | .pureosColor fg bg => Fits 24 fg ∧ Fits 24 bg
  | .printNum val _ => 0 ≤ val
  | .drawPixel x y color => Fits 32 x ∧ Fits 32 y ∧ Fits 24 color
  | .drawLine x1 y1 x2 y2 color =>
      Fits 16 x1 ∧ Fits 16 y1 ∧ Fits 16 x2 ∧ Fits 16 y2 ∧ Fits 24 color
  | .drawRect _ _ _ _ _ _ | .drawCircle _ _ _ _ _ => False
  | .clearScreen color => Fits 24 color
  | .yieldCpu | .receiveIpc _ | .sysStat _ _ | .ticks | .cls | .reboot | .getScreenInfo _ => True

end UserCall

/-! ## Numbers that come back -/

theorem asU64_of_nonneg {n : Int} (h : IsLongLong n) (hn : 0 ≤ n) : (asU64 n : Int) = n := by
  unfold IsLongLong at h
  unfold asU64
  omega

theorem asU64_eq_iff {n : Int} (h : IsLongLong n) : (asU64 n : Int) = n ↔ 0 ≤ n := by
  constructor
  · intro heq
    rw [← heq]
    exact Int.natCast_nonneg _
  · exact asU64_of_nonneg h

/-- A field of the low bits of a pattern. -/
theorem asU64_mod_eq_iff {n : Int} (h : IsLongLong n) (bits : Nat) :
    ((asU64 n % 2 ^ bits : Nat) : Int) = n ↔ UserCall.Fits bits n := by
  constructor
  · intro heq
    rw [UserCall.Fits, ← heq]
    refine ⟨Int.natCast_nonneg _, ?_⟩
    exact_mod_cast Nat.mod_lt _ (Nat.two_pow_pos bits)
  · rintro ⟨hn, hlt⟩
    have hval := asU64_of_nonneg h hn
    have hlow : asU64 n < 2 ^ bits := by
      rw [← hval] at hlt
      exact_mod_cast hlt
    rw [Nat.mod_eq_of_lt hlow, hval]

theorem asI64_asU64 {n : Int} (h : IsLongLong n) : asI64 (asU64 n) = n := by
  unfold IsLongLong at h
  unfold asI64 asU64
  rw [Int.bmod_def]
  split <;> omega

theorem asU32_asU64_eq_iff {n : Int} (h : IsLongLong n) :
    ((asU32 (asU64 n) : Nat) : Int) = n ↔ UserCall.Fits 32 n :=
  asU64_mod_eq_iff h _

/-- The three bytes make up the low 24 bits. -/
theorem colorOf_ofColor (n : Nat) : colorOf (ofColor n) = n % 2 ^ 24 := by
  have h := Nat.and_two_pow_sub_one_eq_mod
  simp only [ofColor, colorOf, h _ 8, Nat.shiftRight_eq_div_pow, UInt8.toNat_ofNat']
  omega

theorem color_eq_iff {n : Int} (h : IsLongLong n) :
    ((colorOf (ofColor (asU64 n)) : Nat) : Int) = n ↔ UserCall.Fits 24 n := by
  rw [colorOf_ofColor]
  exact asU64_mod_eq_iff h _

theorem ofNat_and_low (n : Nat) : UInt8.ofNat (n &&& 0xFF) = UInt8.ofNat n := by
  apply UInt8.toNat_inj.mp
  rw [UInt8.toNat_ofNat', UInt8.toNat_ofNat', Nat.and_two_pow_sub_one_eq_mod n 8, Nat.mod_mod]

/-- `sys_color` casts where its siblings mask. -/
theorem sysColor_eq (fg bg : Nat) : sysColor fg bg = .sysColor (ofColor fg) (ofColor bg) := by
  simp only [sysColor, ofColor, ofNat_and_low]

theorem packPair_shiftRight (x y : Int) : asU32 (packPair x y >>> 16) = asU64 x % 2 ^ 16 := by
  have hx := Nat.mod_lt (asU64 x) (Nat.two_pow_pos 16)
  rw [packPair, show (0xFFFF : Nat) = 2 ^ 16 - 1 from rfl, pack_shiftRight (and_mask_lt 16 _),
    asU32, Nat.and_two_pow_sub_one_eq_mod]
  exact Nat.mod_eq_of_lt (by omega)

theorem packPair_and (x y : Int) : asU32 (packPair x y &&& 0xFFFF) = asU64 y % 2 ^ 16 := by
  have hy := Nat.mod_lt (asU64 y) (Nat.two_pow_pos 16)
  rw [packPair, show (0xFFFF : Nat) = 2 ^ 16 - 1 from rfl, pack_and (and_mask_lt 16 _), asU32,
    Nat.and_two_pow_sub_one_eq_mod]
  exact Nat.mod_eq_of_lt (by omega)

/-- The flag of the two filled shapes never gets out of its shift. -/
theorem intShl_eq_none {v : Int} {n : Nat} (h : 32 ≤ n) : intShl v n = none :=
  if_neg fun hlt => absurd hlt.1 (Nat.not_lt.mpr h)

theorem truth_asU64 {n : Int} (h : IsLongLong n) :
    UserCall.truth (asU64 n) = UserCall.truth n := by
  have hzero : (asU64 n : Int) = 0 ↔ n = 0 := by
    unfold IsLongLong at h
    unfold asU64
    omega
  simp only [UserCall.truth, ne_eq, hzero]

/-! ## Agreement -/

namespace UserCall

/-- A call gets through to its handler with its own parameters exactly when it is one
that the kernel understands. -/
theorem agrees_iff_understood {u : UserCall} (h : u.Typed) : u.Agrees ↔ u.Understood := by
  cases u with
  | memoryAllocate size flags =>
      show some (UserCall.memoryAllocate (asU64 size) (asU64 flags)) = some _ ↔ _
      simp only [Option.some.injEq, normal, memoryAllocate.injEq, Understood, asU64_eq_iff h.1,
        asU64_eq_iff h.2]
  | memoryFree addr =>
      show some (UserCall.memoryFree (asU64 addr)) = some _ ↔ _
      simp only [Option.some.injEq, normal, memoryFree.injEq, Understood, asU64_eq_iff h]
  | createProcess elfImage =>
      show some (UserCall.createProcess (asU64 elfImage)) = some _ ↔ _
      simp only [Option.some.injEq, normal, createProcess.injEq, Understood, asU64_eq_iff h]
  | createThread entry stack =>
      show some (UserCall.createThread (asU64 entry) (asU64 stack)) = some _ ↔ _
      simp only [Option.some.injEq, normal, createThread.injEq, Understood, asU64_eq_iff h.1,
        asU64_eq_iff h.2]
  | yieldCpu | receiveIpc | sysStat | ticks | cls | reboot | getScreenInfo =>
      exact iff_of_true rfl trivial
  | exitProcess code =>
      show some (UserCall.exitProcess (asU64 code)) = some _ ↔ _
      simp only [Option.some.injEq, normal, exitProcess.injEq, Understood, asU64_eq_iff h]
  | sendIpc targetProc msgPtr =>
      show some (UserCall.sendIpc (asU64 targetProc) msgPtr) = some _ ↔ _
      simp only [Option.some.injEq, normal, sendIpc.injEq, Understood, asU64_eq_iff h.1, and_true]
  | replyIpc targetProc msgPtr =>
      show some (UserCall.replyIpc (asU64 targetProc) msgPtr) = some _ ↔ _
      simp only [Option.some.injEq, normal, replyIpc.injEq, Understood, asU64_eq_iff h.1, and_true]
  | execElf elfData size =>
      show some (UserCall.execElf elfData (asU64 size)) = some _ ↔ _
      simp only [Option.some.injEq, normal, execElf.injEq, Understood, asU64_eq_iff h.2, true_and]
  | sysWrite fd buf len =>
      show some (UserCall.sysWrite (asU32 (asU64 fd)) buf (asU64 len)) = some _ ↔ _
      simp only [Option.some.injEq, normal, sysWrite.injEq, Understood, asU32_asU64_eq_iff h.1,
        asU64_eq_iff h.2.2, true_and]
  | sysRead fd buf len =>
      show some (UserCall.sysRead (asU32 (asU64 fd)) buf (asU64 len)) = some _ ↔ _
      simp only [Option.some.injEq, normal, sysRead.injEq, Understood, asU32_asU64_eq_iff h.1,
        asU64_eq_iff h.2.2, true_and]
  | sysOpen path flags =>
      -- The handler's path is the wrapper's flags, and the other way round.
      show some (UserCall.sysOpen (asU64 flags) path) = some _ ↔ _
      simp only [Option.some.injEq, normal, sysOpen.injEq, Understood]
      refine ⟨fun heq => heq.2, fun heq => ⟨?_, heq⟩⟩
      have hback := asU64_of_nonneg h.2 (heq ▸ Int.natCast_nonneg path)
      omega
  | sysClose fd =>
      show some (UserCall.sysClose (asU32 (asU64 fd))) = some _ ↔ _
      simp only [Option.some.injEq, normal, sysClose.injEq, Understood, asU32_asU64_eq_iff h]
  | sysDup fd =>
      show some (UserCall.sysDup (asU32 (asU64 fd))) = some _ ↔ _
      simp only [Option.some.injEq, normal, sysDup.injEq, Understood, asU32_asU64_eq_iff h]
  | sysLseek fd offset whence =>
      show some (UserCall.sysLseek (asU32 (asU64 fd)) (asI64 (asU64 offset))
        (asU32 (asU64 whence))) = some _ ↔ _
      simp only [Option.some.injEq, normal, sysLseek.injEq, Understood, asU32_asU64_eq_iff h.1,
        asU32_asU64_eq_iff h.2.2, asI64_asU64 h.2.1, true_and]
  | sysFcntl fd cmd arg =>
      show some (UserCall.sysFcntl (asU32 (asU64 fd)) (asU32 (asU64 cmd)) (asU64 arg)) = some _ ↔ _
      simp only [Option.some.injEq, normal, sysFcntl.injEq, Understood, asU32_asU64_eq_iff h.1,
        asU32_asU64_eq_iff h.2.1, asU64_eq_iff h.2.2]
  | print s len =>
      -- The handler's buffer is the length, and its length the unused register.
      show some (UserCall.print (asU64 len) ((0 : Nat) : Int)) = some _ ↔ _
      simp only [Option.some.injEq, normal, print.injEq, Understood]
      have hback := asU64_of_nonneg h.2.1 h.2.2
      omega
  | println s len =>
      show some (UserCall.println (asU64 len) ((0 : Nat) : Int)) = some _ ↔ _
      simp only [Option.some.injEq, normal, println.injEq, Understood]
      have hback := asU64_of_nonneg h.2.1 h.2.2
      omega
  | input buf maxlen =>
      show some (UserCall.input buf (asU64 maxlen)) = some _ ↔ _
      simp only [Option.some.injEq, normal, input.injEq, Understood, asU64_eq_iff h.2, true_and]
  | setCursor row col =>
      show some (UserCall.setCursor (asU32 (asU64 row)) (asU32 (asU64 col))) = some _ ↔ _
      simp only [Option.some.injEq, normal, setCursor.injEq, Understood, asU32_asU64_eq_iff h.1,
        asU32_asU64_eq_iff h.2]
  | pureosColor fg bg =>
      show (sysColor (asU32 (asU64 fg)) (asU32 (asU64 bg))).meaning = some _ ↔ _
      rw [sysColor_eq]
      have hlow : ∀ n, colorOf (ofColor (asU32 n)) = colorOf (ofColor n) := by
        intro n
        rw [colorOf_ofColor, colorOf_ofColor, asU32]
        omega
      simp only [KernelCall.meaning, hlow, Option.some.injEq, normal, pureosColor.injEq,
        Understood, color_eq_iff h.1, color_eq_iff h.2]
  | printNum val newline =>
      show some (UserCall.printNum (asU64 val) (truth (asU64 newline))) = some _ ↔ _
      simp only [Option.some.injEq, normal, printNum.injEq, Understood, asU64_eq_iff h.1,
        truth_asU64 h.2, and_true]
  | drawPixel x y color =>
      show some (UserCall.drawPixel (asU32 (asU64 x)) (asU32 (asU64 y))
        (colorOf (ofColor (asU64 color)))) = some _ ↔ _
      simp only [Option.some.injEq, normal, drawPixel.injEq, Understood, asU32_asU64_eq_iff h.1,
        asU32_asU64_eq_iff h.2.1, color_eq_iff h.2.2]
  | drawLine x1 y1 x2 y2 color =>
      obtain ⟨hx1, hy1, hx2, hy2, hcolor⟩ := h
      show some (UserCall.drawLine (asU32 (packPair x1 y1 >>> 16)) (asU32 (packPair x1 y1 &&& 0xFFFF))
        (asU32 (packPair x2 y2 >>> 16)) (asU32 (packPair x2 y2 &&& 0xFFFF))
        (colorOf (ofColor (asU64 color)))) = some _ ↔ _
      rw [packPair_shiftRight, packPair_and, packPair_shiftRight, packPair_and]
      simp only [Option.some.injEq, normal, drawLine.injEq, Understood, asU64_mod_eq_iff hx1,
        asU64_mod_eq_iff hy1, asU64_mod_eq_iff hx2, asU64_mod_eq_iff hy2, color_eq_iff hcolor]
  | drawRect x y w h color fill =>
      simp [Agrees, encode, pureosDrawRect, intShl_eq_none, Understood]
  | drawCircle x y radius color fill =>
      simp [Agrees, encode, pureosDrawCircle, intShl_eq_none, Understood]
  | clearScreen color =>
      show some (UserCall.clearScreen (colorOf (ofColor (asU64 color)))) = some _ ↔ _
      simp only [Option.some.injEq, normal, clearScreen.injEq, Understood, color_eq_iff h]

/-- A line whose end points and colour fit their fields arrives. -/
theorem agrees_drawLine :
    (UserCall.drawLine 10 20 65535 40 0xFF8000).Agrees :=
  (agrees_iff_understood (by simp [Typed, IsLongLong])).mpr (by simp [Understood, Fits])

/-- Opening a file, printing a string, drawing a filled rectangle or circle and printing
a negative number do not arrive as they were asked for. -/
theorem not_agrees_on_open_print_fill :
    ¬(UserCall.sysOpen 0x100001000000 2).Agrees ∧ ¬(UserCall.print 0x100001000000 5).Agrees ∧
      ¬(UserCall.println 0x100001000000 5).Agrees ∧
      ¬(UserCall.drawRect 10 20 30 40 0xFF8000 1).Agrees ∧
      ¬(UserCall.drawCircle 100 100 50 0xFF8000 1).Agrees ∧ ¬(UserCall.printNum (-5) 1).Agrees := by
  decide +kernel

end UserCall

end PureOS.Abi
