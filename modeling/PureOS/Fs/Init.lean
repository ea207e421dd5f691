import PureOS.Foundation.Bytes
import PureOS.Fs.State

set_option autoImplicit false

/-!
# Fs: the initial tree (`fs::init`)

`init` clears the tables, installs the root and then builds the base tree with
the ordinary operations, so everything that the operations preserve holds of its
result as soon as it holds of the root alone.
-/

namespace PureOS.Fs

open PureOS.Foundation

/-- `to_ascii_lowercase` on one byte. -/
def toAsciiLowercase (b : UInt8) : UInt8 := if 65 ≤ b ∧ b ≤ 90 then b + 32 else b

/-- `to_ascii_uppercase` on one byte. -/
def toAsciiUppercase (b : UInt8) : UInt8 := if 97 ≤ b ∧ b ≤ 122 then b - 32 else b

/-- `eq_ignore_ascii_case`. -/
def eqIgnoreAsciiCase (a b : List UInt8) : Bool :=
  a.map toAsciiLowercase == b.map toAsciiLowercase

/-- The welcome text of `/etc/motd`. -/
def motdText : List UInt8 :=
  ascii "Welcome to PureOS Crystal Kernel v0.4\n" ++
  ascii "====================================\n" ++
  ascii "Preemptive round-robin via APIC timer\n" ++
  ascii "ATA PIO disk + block filesystem\n" ++
  ascii "Per-process FD tables, private PML4\n" ++
  ascii "Frame reclamation on exit\n" ++
  ascii "Barrel scripting + native compiler\n" ++
  ascii "Graphics primitives (40 syscalls)\n" ++
  ascii "Type 'help' for commands.\n"

/-- The text of `/etc/release`. -/
def releaseText : List UInt8 :=
  ascii "PureOS release 0.4 (crystal)\n" ++
  ascii "Kernel: pureos_kernel 0.4.0\n" ++
  ascii "Arch: x86_64 AMD64\n" ++
  ascii "Firmware: UEFI\n" ++
  ascii "Built: 2026-07\n"

/-- The text of `/etc/pureos-version`. -/
def versionText : List UInt8 := ascii "0.4.0\n"

namespace State

/-- The cleared tables with the root alone, which is its own parent. -/
def blank : State where
  nodes := Function.update (fun _ => Node.empty) root
    { name := nameBuf (ascii "/"), kind := .dir, parent := root,
      dataOff := 0, dataLen := 0, dataCap := 0 }
  data := fun _ => 0
  dataNext := 0
  cwd := root

/-- `if let Some(n) = create_file(dir, name) { let _ = write(n, text); }`. -/
def createAndWrite (s : State) (dir : NodeId) (name text : List UInt8) : State :=
  match s.createFile dir name with
  | (some n, s) => (s.write n text).2
  | (none, s) => s

/-! ## `scan_apps_for_shortcuts` -/

/-- `for &b in line { content[off] = b; off += 1; if off >= 120 { break; } }`. -/
def pushLine (content : List UInt8) : List UInt8 → List UInt8
  | [] => content
  | b :: line =>
      if (content ++ [b]).length ≥ 120 then content ++ [b] else pushLine (content ++ [b]) line

/-- The text of the shortcut for an application file. -/
def shortcutText (name base : List UInt8) : List UInt8 :=
  let glyph := match base with
    | b :: _ => toAsciiUppercase b
    | [] => 65
  let content := pushLine (pushLine [] (ascii "Name=")) name ++ [10]
  let content := pushLine (pushLine content (ascii "Exec=/apps/")) name ++ [10]
  let content := pushLine content (ascii "Icon=4488CC\n")
  pushLine content (ascii "Glyph=" ++ [glyph, 10]) ++ [10]

/-- The name of the shortcut: up to 20 bytes of the base name and `.desktop`, in a
zeroed buffer of 28, cut at its first zero. -/
def shortcutName (base : List UInt8) : List UInt8 :=
  let buf := base.take 20 ++ ascii ".desktop"
  (buf ++ List.replicate (nameMax - buf.length) 0).takeWhile (· ≠ 0)

/-- The callback: the state and the number of shortcuts made so far. -/
def scanEntry (desktopDir : NodeId) (acc : State × Nat) (idx : NodeId) : State × Nat :=
  let (s, count) := acc
  let name := (s.nodes idx).name.bytes
  let base := name.take (name.length - 4)
  let ext := name.drop (name.length - 4)
  if count ≥ 8 ∨ (s.nodes idx).kind ≠ .file ∨ name.length < 5 then (s, count)
  else if ¬(eqIgnoreAsciiCase ext (ascii ".pos") ∨ eqIgnoreAsciiCase ext (ascii ".elf")) then
    (s, count)
  else
    match s.createFile desktopDir (shortcutName base) with
    | (some shortcut, s) => ((s.write shortcut (shortcutText name base)).2, count + 1)
    | (none, s) => (s, count)

/-- `scan_apps_for_shortcuts`, without `/apps` the root itself is scanned. -/
def scanAppsForShortcuts (s : State) (desktopDir : NodeId) : State :=
  let appsDir := (s.findChild root (ascii "apps")).getD root
  if (s.nodes appsDir).kind ≠ .dir then s
  else
    ((List.finRange maxNodes).foldl (fun acc i =>
      if acc.1.IsChild appsDir i then scanEntry desktopDir acc i else acc) (s, 0)).1

/-! ## `init` -/

/-- The files of `/etc`. -/
def initEtc (s : State) : State :=
  match s.findChild root (ascii "etc") with
  | some etc =>
      ((s.createAndWrite etc (ascii "motd") motdText).createAndWrite etc
        (ascii "release") releaseText).createAndWrite etc (ascii "pureos-version") versionText
  | none => s

/-- The home directory of the user. -/
def initHome (s : State) : State :=
  match s.findChild root (ascii "home") with
  | some home => (s.mkdir home (ascii "user")).2
  | none => s

/-- The directory of the shortcuts. -/
def initDesktop (s : State) : State :=
  let s := (s.mkdir root (ascii "desktop")).2
  match s.findChild root (ascii "desktop") with
  | some desktop => s.scanAppsForShortcuts desktop
  | none => s

/-- `init`, as it runs the first time. -/
def init : State :=
  let s := ["bin", "dev", "etc", "home", "tmp"].foldl
    (fun s name => (s.mkdir root (ascii name)).2) blank
  s.initEtc.initHome.initDesktop

/-- The nodes that `init` makes. -/
def initNodes : List Node :=
  [freshNode root (ascii "/") .dir, freshNode root (ascii "bin") .dir,
    freshNode root (ascii "dev") .dir, freshNode root (ascii "etc") .dir,
    freshNode root (ascii "home") .dir, freshNode root (ascii "tmp") .dir,
    { freshNode 3 (ascii "motd") .file with dataOff := 0, dataLen := 302, dataCap := 302 },
    { freshNode 3 (ascii "release") .file with dataOff := 302, dataLen := 106, dataCap := 106 },
    { freshNode 3 (ascii "pureos-version") .file with dataOff := 408, dataLen := 6, dataCap := 6 },
    freshNode 4 (ascii "user") .dir, freshNode root (ascii "desktop") .dir]

theorem init_built : (∀ i : NodeId, init.nodes i = initNodes.getD i .empty) ∧
    init.dataNext = 414 ∧ init.cwd = root := by decide +kernel

theorem eq_of_fields {s : State} {nodes : NodeId → Node} {dataNext : Nat} {cwd : NodeId}
    (hnodes : ∀ i, s.nodes i = nodes i) (hnext : s.dataNext = dataNext) (hcwd : s.cwd = cwd) :
    s = { s with nodes := nodes, dataNext := dataNext, cwd := cwd } := by
  obtain rfl := funext hnodes
  rw [← hnext, ← hcwd]

/-- The base tree, over the bytes that `init` leaves in the pool. -/
def baseTree : State :=
  { init with nodes := fun i => initNodes.getD i .empty, dataNext := 414, cwd := root }

theorem init_eq : init = baseTree := eq_of_fields init_built.1 init_built.2.1 init_built.2.2

end State

end PureOS.Fs
