import Mathlib.Algebra.Group.Even
import Mathlib.Algebra.Group.Nat.Defs
import PureOS.Foundation.Newton
import PureOS.Foundation.Profile
import PureOS.Graphics.Framebuffer

set_option autoImplicit false

/-!
# Desktop: the icons (`desktop.rs`)

An icon is a square of points of four bytes each.  Its side is the root of the number of points,
and it is stretched to 48 by 48 points.
-/

namespace PureOS.Desktop

open PureOS.Foundation PureOS.Graphics

/-! ## The code -/

section

variable (p : Profile)

/-- `/` on `u32`. -/
def quotient (a b : UInt32) : Except Fault UInt32 :=
  if b = 0 then .error .panic else .ok (a / b)

/-- `while y < x { x = y; y = (x + n / x) / 2; }`. -/
def isqrtLoop (n : UInt32) : Nat → UInt32 → UInt32 → Except Fault UInt32
  | 0, _, _ => .error .fuel
  | fuel + 1, x, y =>
      if y < x then do
        let q ← quotient n y
        let sum ← p.add y q
        isqrtLoop n fuel y (sum / 2)
      else .ok x

/-- `isqrt`. -/
def isqrt (n : UInt32) : Except Fault UInt32 :=
  if n = 0 then .ok 0
  else do
    let sum ← p.add n 1
    isqrtLoop p n (n.toNat + 1) n (sum / 2)

/-- `ICON_SIZE`. -/
def iconSize : UInt32 := 48

/-- `draw_raw_icon` up to its loops: the side of the icon, when it is a square. -/
def iconSide (data : List UInt8) : Except Fault (Option UInt32) :=
  let n := data.length / 4
  if n = 0 then .ok none
  else do
    let src ← isqrt p (UInt32.ofNat n)
    if src = 0 then .ok none
    else do
      let sq ← p.mul src src
      if sq.toNat ≠ n then .ok none else .ok (some src)

/-- `off`: the place in the buffer of the source of a point. -/
def sourceOffset (src row col : UInt32) : Except Fault UInt32 := do
  let top ← p.mul row src
  let sr ← quotient top iconSize
  let left ← p.mul col src
  let sc ← quotient left iconSize
  let line ← p.mul sr src
  let index ← p.add line sc
  p.mul index 4

/-- The body of the loops: the call of `put` for a point. -/
def iconPoint (x y : UInt32) (data : List UInt8) (src row col : UInt32) :
    Except Fault (Option Plot) := do
  let off ← sourceOffset p src row col
  if off.toNat + 3 ≥ data.length then .ok none
  else
    let byte := fun k => data.getD (off.toNat + k) 0
    if byte 3 < 128 then .ok none
    else do
      let px ← p.add x col
      let py ← p.add y row
      .ok (some ⟨px, py, ⟨byte 2, byte 1, byte 0⟩⟩)

/-- The loops over rows and columns. -/
def iconCells : List (UInt32 × UInt32) :=
  (List.range 48).flatMap fun row =>
    (List.range 48).map fun col => (UInt32.ofNat row, UInt32.ofNat col)

/-- `draw_raw_icon`: the calls of `put`. -/
def drawRawIcon (x y : UInt32) (data : List UInt8) : Except Fault (List Plot) := do
  match ← iconSide p data with
  | none => .ok []
  | some src => do
      let plots ← iconCells.mapM fun c => iconPoint p x y data src c.1 c.2
      .ok (plots.filterMap id)

end

/-! ## The root -/

variable {p : Profile}

/-- A point of the source lies in the square. -/
theorem index_lt {s a b : Nat} (ha : a < s) (hb : b < s) : a * s + b < s * s := by
  calc a * s + b < a * s + s := Nat.add_lt_add_left hb _
    _ = (a + 1) * s := (Nat.succ_mul a s).symm
    _ ≤ s * s := Nat.mul_le_mul_right s ha

end PureOS.Desktop
