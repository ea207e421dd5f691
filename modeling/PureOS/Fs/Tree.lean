import Mathlib.Logic.Function.Basic

set_option autoImplicit false

/-!
# Fs: what the file system is for

The abstract file system: a finite map from handles to named entries, each with
the handle of its directory and, for a file, a byte string.  Of the storage it
knows the account only: how much room each file holds, and how much of the pool
has been given out.  Where the bytes lie it does not know.  `Step` fixes what an
operation may answer, a refusal with its reason, and what it does to the tree and
to the account.
-/

namespace PureOS.Fs

/-- What an entry holds. -/
inductive Content where
  | dir
  | file (bytes : List UInt8)
  deriving DecidableEq

/-- A named entry of the tree. -/
structure Entry (ι : Type) where
  name : List UInt8
  parent : ι
  content : Content

/-- The requests. -/
inductive Op (ι : Type) where
  | mkdir (dir : ι) (name : List UInt8)
  | createFile (dir : ι) (name : List UInt8)
  | write (node : ι) (bytes : List UInt8)
  | append (node : ι) (bytes : List UInt8)
  | read (node : ι)
  | unlink (node : ι)

/-- The answers. -/
inductive Answer (ι : Type) where
  | node (found : Option ι)
  | done (ok : Bool)
  | bytes (content : List UInt8)

/-- The answers that report a failure. -/
def Answer.Failed {ι : Type} : Answer ι → Prop
  | .node found => found = none
  | .done ok => ok = false
  | .bytes _ => False

/-- A tree of entries, indexed by their handles. -/
abbrev Tree (ι : Type) := ι → Option (Entry ι)

namespace Tree

variable {ι : Type} [DecidableEq ι]

/-- The entry `i` is a directory. -/
def IsDir (t : Tree ι) (i : ι) : Prop := ∃ e, t i = some e ∧ e.content = .dir

/-- The entry `i` is a file with the content `bytes`. -/
def IsFile (t : Tree ι) (i : ι) (bytes : List UInt8) : Prop :=
  ∃ e, t i = some e ∧ e.content = .file bytes

/-- The entry `i` stands in the directory `dir`.  The root, its own parent, is
not an entry of itself. -/
def Child (t : Tree ι) (dir i : ι) : Prop := ∃ e, t i = some e ∧ e.parent = dir ∧ i ≠ dir

/-- The entry `i` stands in the directory `dir` under `name`. -/
def ChildNamed (t : Tree ι) (dir : ι) (name : List UInt8) (i : ι) : Prop :=
  ∃ e, t i = some e ∧ e.parent = dir ∧ i ≠ dir ∧ e.name = name

/-- Put the content `c` into the entry `i`. -/
def setContent (t : Tree ι) (i : ι) (c : Content) : Tree ι :=
  Function.update t i ((t i).map fun e => { e with content := c })

/-- A handle other than the root's is free. -/
def Free (root : ι) (t : Tree ι) (i : ι) : Prop := i ≠ root ∧ t i = none

/-- A name that a new entry of `dir` may have. -/
def Allowed (nameMax : Nat) (t : Tree ι) (dir : ι) (name : List UInt8) : Prop :=
  name ≠ [] ∧ name.length ≤ nameMax ∧ t.IsDir dir

end Tree

/-- The abstract file system: its tree and the account of its storage. -/
structure Volume (ι : Type) where
  tree : Tree ι
  /-- The bytes that a file may hold where it lies. -/
  room : ι → Nat
  /-- The bytes of the pool that have been given out. -/
  taken : Nat

namespace Volume

variable {ι : Type} [DecidableEq ι]

/-- Put the entry `e` at the handle `i`, which holds no storage then. -/
def put (v : Volume ι) (i : ι) (e : Option (Entry ι)) : Volume ι :=
  { v with tree := Function.update v.tree i e, room := Function.update v.room i 0 }

/-- Give the file `i` the content `bytes` where it lies. -/
def overwrite (v : Volume ι) (i : ι) (bytes : List UInt8) : Volume ι :=
  { v with tree := v.tree.setContent i (.file bytes) }

/-- Give the file `i` the content `bytes` in storage that is taken for it. -/
def relocate (v : Volume ι) (i : ι) (bytes : List UInt8) : Volume ι where
  tree := v.tree.setContent i (.file bytes)
  room := Function.update v.room i bytes.length
  taken := v.taken + bytes.length

/-- The steps of the abstract file system: a request, its answer and the volume
afterwards. -/
inductive Step (root : ι) (nameMax pool : Nat) :
    Volume ι → Op ι × Answer ι → Volume ι → Prop
  /-- A directory is made at a free handle. -/
  | made {v : Volume ι} {dir i : ι} {name : List UInt8}
      (allowed : v.tree.Allowed nameMax dir name)
      (new : ∀ j, ¬v.tree.ChildNamed dir name j) (free : v.tree.Free root i) :
      Step root nameMax pool v (.mkdir dir name, .node (some i))
        (v.put i (some ⟨name, dir, .dir⟩))
  /-- No directory is made: not allowed, the name is taken, or no handle is free. -/
  | notMade {v : Volume ι} {dir : ι} {name : List UInt8}
      (why : ¬v.tree.Allowed nameMax dir name ∨ (∃ j, v.tree.ChildNamed dir name j) ∨
        ∀ i, ¬v.tree.Free root i) :
      Step root nameMax pool v (.mkdir dir name, .node none) v
  /-- An empty file is created at a free handle. -/
  | created {v : Volume ι} {dir i : ι} {name : List UInt8}
      (allowed : v.tree.Allowed nameMax dir name)
      (new : ∀ j, ¬v.tree.ChildNamed dir name j) (free : v.tree.Free root i) :
      Step root nameMax pool v (.createFile dir name, .node (some i))
        (v.put i (some ⟨name, dir, .file []⟩))
  /-- The file is there already. -/
  | existing {v : Volume ι} {dir i : ι} {name bytes : List UInt8}
      (allowed : v.tree.Allowed nameMax dir name) (found : v.tree.ChildNamed dir name i)
      (file : v.tree.IsFile i bytes) :
      Step root nameMax pool v (.createFile dir name, .node (some i)) v
  /-- No file is created: not allowed, a directory has the name, or no handle is
  free. -/
  | notCreated {v : Volume ι} {dir : ι} {name : List UInt8}
      (why : ¬v.tree.Allowed nameMax dir name ∨
        (∃ j, v.tree.ChildNamed dir name j ∧ v.tree.IsDir j) ∨ ∀ i, ¬v.tree.Free root i) :
      Step root nameMax pool v (.createFile dir name, .node none) v
  /-- A write replaces the content of a file, in the room that the file has. -/
  | wrote {v : Volume ι} {i : ι} {old bytes : List UInt8} (file : v.tree.IsFile i old)
      (fits : bytes.length ≤ v.room i) :
      Step root nameMax pool v (.write i bytes, .done true) (v.overwrite i bytes)
  /-- A write of more than that replaces it in room taken from the pool. -/
  | wroteAnew {v : Volume ι} {i : ι} {old bytes : List UInt8} (file : v.tree.IsFile i old)
      (more : v.room i < bytes.length) (left : v.taken + bytes.length ≤ pool) :
      Step root nameMax pool v (.write i bytes, .done true) (v.relocate i bytes)
  /-- A write is refused: not a file, or no room in the file and in the pool. -/
  | notWritten {v : Volume ι} {i : ι} {bytes : List UInt8}
      (why : (∀ old, ¬v.tree.IsFile i old) ∨
        (v.room i < bytes.length ∧ pool < v.taken + bytes.length)) :
      Step root nameMax pool v (.write i bytes, .done false) v
  /-- An append extends the content of a file, in room taken from the pool. -/
  | appended {v : Volume ι} {i : ι} {old bytes : List UInt8} (file : v.tree.IsFile i old)
      (left : v.taken + (old ++ bytes).length ≤ pool) :
      Step root nameMax pool v (.append i bytes, .done true) (v.relocate i (old ++ bytes))
  /-- An append is refused: not a file, or no room in the pool for the whole. -/
  | notAppended {v : Volume ι} {i : ι} {bytes : List UInt8}
      (why : (∀ old, ¬v.tree.IsFile i old) ∨
        ∃ old, v.tree.IsFile i old ∧ pool < v.taken + (old ++ bytes).length) :
      Step root nameMax pool v (.append i bytes, .done false) v
  /-- Reading a file gives its content. -/
  | readFile {v : Volume ι} {i : ι} {bytes : List UInt8} (file : v.tree.IsFile i bytes) :
      Step root nameMax pool v (.read i, .bytes bytes) v
  /-- Reading anything else gives nothing. -/
  | readOther {v : Volume ι} {i : ι} (notFile : ∀ bytes, ¬v.tree.IsFile i bytes) :
      Step root nameMax pool v (.read i, .bytes []) v
  /-- A file or an empty directory is removed. -/
  | unlinked {v : Volume ι} {i : ι} (notRoot : i ≠ root) (there : (v.tree i).isSome)
      (empty : v.tree.IsDir i → ∀ j, ¬v.tree.Child i j) :
      Step root nameMax pool v (.unlink i, .done true) (v.put i none)
  /-- Nothing is removed: the root, a free handle, or a directory with an entry. -/
  | notUnlinked {v : Volume ι} {i : ι}
      (why : i = root ∨ v.tree i = none ∨ (v.tree.IsDir i ∧ ∃ j, v.tree.Child i j)) :
      Step root nameMax pool v (.unlink i, .done false) v

end Volume

end PureOS.Fs
