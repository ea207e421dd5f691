import PureOS.Foundation.Word
import PureOS.Graphics.Framebuffer

set_option autoImplicit false

/-!
# Abi: the dispatcher (`sys_call_handler`)

The registers of a system call, and the handler that the dispatcher calls for them
with its parameters as the handler reads them: the narrowing casts of the dispatcher
are made here, and so is the unpacking at the head of the drawing handlers.
-/

namespace PureOS.Abi

open PureOS.Foundation
open PureOS.Graphics (Rgb)

/-- The registers that the trampoline hands to `sys_call_handler`, each a `u64`. -/
structure Regs where
  sysNo : Nat
  arg1 : Nat
  arg2 : Nat
  arg3 : Nat
  deriving DecidableEq, Repr

/-- `as u32`. -/
def asU32 (n : Nat) : Nat := n % 2 ^ 32

/-- `as i64`. -/
def asI64 (n : Nat) : Int := (n : Int).bmod (2 ^ 64)

/-- The colour that the handlers take from a number: `((color >> 16) & 0xFF) as u8` and its
siblings. -/
def ofColor (color : Nat) : Rgb where
  r := UInt8.ofNat ((color >>> 16) &&& 0xFF)
  g := UInt8.ofNat ((color >>> 8) &&& 0xFF)
  b := UInt8.ofNat (color &&& 0xFF)

/-- The number that the three bytes stand for, `0x00RRGGBB`. -/
def colorOf (c : Rgb) : Nat := c.r.toNat * 2 ^ 16 + c.g.toNat * 2 ^ 8 + c.b.toNat

/-- The handlers with their parameters. -/
inductive KernelCall where
  | memoryAllocate (size flags : Nat)
  | memoryFree (addr : Nat)
  | createProcess (entry : Nat)
  | createThread (entry stack : Nat)
  | yieldCpu
  | exitProcess (code : Nat)
  | sendIpc (targetProc msgPtr : Nat)
  | receiveIpc (msgPtr : Nat)
  | replyIpc (targetProc msgPtr : Nat)
  | shareMemory (targetProc addr size : Nat)
  | pciDeviceAccess (busSlotFunc offset : Nat)
  | mapPhysicalMemory (physAddr size : Nat)
  | createSharedBuffer (size flags : Nat)
  | waitForVblank
  | exec (dataPtr size : Nat)
  | sysWrite (fd buf len : Nat)
  | sysRead (fd buf len : Nat)
  | sysOpen (pathPtr flags : Nat)
  | sysClose (fd : Nat)
  | sysLseek (fd : Nat) (offset : Int) (whence : Nat)
  | sysStat (pathPtr statBuf : Nat)
  | sysDup (fd : Nat)
  | sysFcntl (fd cmd arg : Nat)
  | sysPrint (buf len : Nat)
  | sysPrintln (buf len : Nat)
  | sysInput (buf maxlen : Nat)
  | sysTicks
  | sysCls
  | sysSetCursor (row col : Nat)
  | sysColor (fg bg : Rgb)
  | sysReboot
  | sysPrintNum (value newline : Nat)
  | sysGetScreenInfo (buf : Nat)
  | sysDrawPixel (x y : Nat) (color : Rgb)
  | sysDrawLine (x1 y1 x2 y2 : Nat) (color : Rgb)
  | sysDrawRect (x y w h : Nat) (color : Rgb) (fill : Bool)
  | sysDrawCircle (x y radius : Nat) (color : Rgb) (fill : Bool)
  | sysDrawImage (x y data width height : Nat)
  | sysClearScreen (color : Rgb)
  | sysSetFontScale (scale : Nat)
  | invalid
  deriving DecidableEq, Repr

/-- The unpacking in `sys_color`: the casts take the low byte. -/
def sysColor (fg bg : Nat) : KernelCall :=
  .sysColor ⟨UInt8.ofNat (fg >>> 16), UInt8.ofNat (fg >>> 8), UInt8.ofNat fg⟩
    ⟨UInt8.ofNat (bg >>> 16), UInt8.ofNat (bg >>> 8), UInt8.ofNat bg⟩

/-- The unpacking in `sys_draw_pixel`. -/
def sysDrawPixel (x y color : Nat) : KernelCall :=
  .sysDrawPixel (asU32 x) (asU32 y) (ofColor color)

/-- The unpacking in `sys_draw_line`. -/
def sysDrawLine (arg1 arg2 color : Nat) : KernelCall :=
  .sysDrawLine (asU32 (arg1 >>> 16)) (asU32 (arg1 &&& 0xFFFF)) (asU32 (arg2 >>> 16))
    (asU32 (arg2 &&& 0xFFFF)) (ofColor color)

/-- The unpacking in `sys_draw_rect`. -/
def sysDrawRect (arg1 arg2 arg3 : Nat) : KernelCall :=
  .sysDrawRect (asU32 (arg1 >>> 16)) (asU32 (arg1 &&& 0xFFFF)) (asU32 (arg2 >>> 16))
    (asU32 (arg2 &&& 0xFFFF)) (ofColor (arg3 &&& 0xFFFFFFFF)) (arg3 >>> 32 ≠ 0)

/-- The unpacking in `sys_draw_circle`. -/
def sysDrawCircle (arg1 arg2 : Nat) : KernelCall :=
  .sysDrawCircle (asU32 (arg1 >>> 16)) (asU32 (arg1 &&& 0xFFFF))
    (asU32 ((arg2 >>> 24) &&& 0xFFFF)) (ofColor (arg2 &&& 0xFFFFFF)) (arg2 >>> 40 ≠ 0)

/-- The unpacking in `sys_draw_image`. -/
def sysDrawImage (arg1 data arg3 : Nat) : KernelCall :=
  .sysDrawImage (asU32 (arg1 >>> 16)) (asU32 (arg1 &&& 0xFFFF)) data (asU32 (arg3 >>> 16))
    (asU32 arg3)

/-- The `match` of `sys_call_handler`. -/
def dispatch (r : Regs) : KernelCall :=
  match r.sysNo with
  | 1 => .memoryAllocate r.arg1 r.arg2
  | 2 => .memoryFree r.arg1
  | 3 => .createProcess r.arg1
  | 4 => .createThread r.arg1 r.arg2
  | 5 => .yieldCpu
  | 6 => .exitProcess r.arg1
  | 7 => .sendIpc r.arg1 r.arg2
  | 8 => .receiveIpc r.arg1
  | 9 => .replyIpc r.arg1 r.arg2
  | 10 => .shareMemory r.arg1 r.arg2 r.arg3
  | 11 => .pciDeviceAccess r.arg1 r.arg2
  | 12 => .mapPhysicalMemory r.arg1 r.arg2
  | 13 => .createSharedBuffer r.arg1 r.arg2
  | 14 => .waitForVblank
  | 15 => .exec r.arg1 r.arg2
  | 16 => .sysWrite (asU32 r.arg1) r.arg2 r.arg3
  | 17 => .sysRead (asU32 r.arg1) r.arg2 r.arg3
  | 18 => .sysOpen r.arg2 r.arg1
  | 19 => .sysClose (asU32 r.arg1)
  | 20 => .sysLseek (asU32 r.arg1) (asI64 r.arg2) (asU32 r.arg3)
  | 21 => .sysStat r.arg1 r.arg2
  | 22 => .sysDup (asU32 r.arg1)
  | 23 => .sysFcntl (asU32 r.arg1) (asU32 r.arg2) r.arg3
  | 24 => .sysPrint r.arg2 r.arg3
  | 25 => .sysPrintln r.arg2 r.arg3
  | 26 => .sysInput r.arg1 r.arg2
  | 27 => .sysTicks
  | 28 => .sysCls
  | 29 => .sysSetCursor (asU32 r.arg1) (asU32 r.arg2)
  | 30 => sysColor (asU32 r.arg1) (asU32 r.arg2)
  | 31 => .sysReboot
  | 32 => .sysPrintNum r.arg1 r.arg2
  | 33 => .sysGetScreenInfo r.arg1
  | 34 => sysDrawPixel r.arg1 r.arg2 r.arg3
  | 35 => sysDrawLine r.arg1 r.arg2 r.arg3
  | 36 => sysDrawRect r.arg1 r.arg2 r.arg3
  | 37 => sysDrawCircle r.arg1 r.arg2
  | 38 => sysDrawImage r.arg1 r.arg2 r.arg3
  | 39 => .sysClearScreen (ofColor r.arg1)
  | 40 => .sysSetFontScale (asU32 r.arg1)
  | _ => .invalid

end PureOS.Abi
