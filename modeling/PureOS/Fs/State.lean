import PureOS.Foundation.Slice
import Mathlib.Data.List.FinRange

set_option autoImplicit false

/-!
# Fs: the RAM file system (`fs.rs`)

The node table `NODES`, the data pool `DATA` with its bump pointer `DATA_NEXT`,
and the operations on nodes, in the order of the source.  A node index is a
`Fin maxNodes`: the operations are modelled on existing indices, where the
source's array accesses do not panic.  The first `name_len` bytes of a name
buffer are all that any operation looks at, so a name is that list of bytes,
together with the bound that lets it fit the buffer.
-/

namespace PureOS.Fs

open PureOS.Foundation

/-- `MAX_NODES`. -/
abbrev maxNodes : Nat := 256
instance : NeZero maxNodes := ⟨by decide⟩

/-- `NAME_MAX`. -/
abbrev nameMax : Nat := 28
/-- `DATA_POOL`. -/
abbrev dataPool : Nat := 256 * 1024

/-- An index into the node table. -/
abbrev NodeId := Fin maxNodes

/-- `ROOT`. -/
abbrev root : NodeId := 0

/-- `Kind`. -/
inductive Kind where
  | free
  | dir
  | file
  deriving DecidableEq, Repr

/-- The used part of a name buffer: `name[..name_len]`. -/
structure Name where
  bytes : List UInt8
  fits : bytes.length ≤ nameMax
  deriving DecidableEq

/-- `name_buf`: at most `NAME_MAX` bytes are taken. -/
def nameBuf (s : List UInt8) : Name :=
  ⟨s.take nameMax, List.length_take_le _ _⟩

/-- `Node`. -/
structure Node where
  name : Name
  kind : Kind
  parent : NodeId
  dataOff : Nat
  dataLen : Nat
  dataCap : Nat
  deriving DecidableEq

/-- `Node::empty`. -/
def Node.empty : Node where
  name := ⟨[], Nat.zero_le _⟩
  kind := .free
  parent := 0
  dataOff := 0
  dataLen := 0
  dataCap := 0

/-- The statics of `fs.rs`: `NODES`, `DATA`, `DATA_NEXT` and `CWD`. -/
structure State where
  nodes : NodeId → Node
  data : Nat → UInt8
  dataNext : Nat
  cwd : NodeId

namespace State

/-- A node that is not a free slot. -/
def Live (s : State) (i : NodeId) : Prop := (s.nodes i).kind ≠ .free

instance (s : State) (i : NodeId) : Decidable (s.Live i) :=
  inferInstanceAs (Decidable (_ ≠ _))

/-- `NODES[i] = n`. -/
def setNode (s : State) (i : NodeId) (n : Node) : State :=
  { s with nodes := Function.update s.nodes i n }

@[simp] theorem setNode_self (s : State) (i : NodeId) (n : Node) :
    (s.setNode i n).nodes i = n := by
  simp [setNode]

@[simp] theorem setNode_of_ne (s : State) {i j : NodeId} (n : Node) (h : j ≠ i) :
    (s.setNode i n).nodes j = s.nodes j := by
  simp [setNode, h]

@[simp] theorem setNode_data (s : State) (i : NodeId) (n : Node) :
    (s.setNode i n).data = s.data := rfl

@[simp] theorem setNode_dataNext (s : State) (i : NodeId) (n : Node) :
    (s.setNode i n).dataNext = s.dataNext := rfl

@[simp] theorem setNode_cwd (s : State) (i : NodeId) (n : Node) :
    (s.setNode i n).cwd = s.cwd := rfl

/-! ## Nodes -/

/-- `alloc_node`: the first free slot after the root's. -/
def allocNode (s : State) : Option NodeId :=
  (List.finRange maxNodes).find? fun i => i ≠ root ∧ (s.nodes i).kind = .free

/-- `i` is a child of `dir`: the test that `find_child`, `unlink` and
`for_each_child` share. -/
def IsChild (s : State) (dir i : NodeId) : Prop :=
  s.Live i ∧ (s.nodes i).parent = dir ∧ i ≠ dir

instance (s : State) (dir i : NodeId) : Decidable (s.IsChild dir i) :=
  inferInstanceAs (Decidable (_ ∧ _ ∧ _))

/-- `find_child`. -/
def findChild (s : State) (dir : NodeId) (name : List UInt8) : Option NodeId :=
  (List.finRange maxNodes).find? fun i => s.IsChild dir i ∧ (s.nodes i).name.bytes = name

/-- The check on the arguments that `mkdir` and `create_file` share: a non-empty
name that fits, and a parent that is a directory. -/
def Creatable (s : State) (dir : NodeId) (name : List UInt8) : Prop :=
  name ≠ [] ∧ name.length ≤ nameMax ∧ (s.nodes dir).kind = .dir

instance (s : State) (dir : NodeId) (name : List UInt8) : Decidable (s.Creatable dir name) :=
  inferInstanceAs (Decidable (_ ∧ _ ∧ _))

/-- The node that `mkdir` and `create_file` put in a free slot. -/
def freshNode (dir : NodeId) (name : List UInt8) (kind : Kind) : Node where
  name := nameBuf name
  kind := kind
  parent := dir
  dataOff := 0
  dataLen := 0
  dataCap := 0

@[simp] theorem freshNode_kind (dir : NodeId) (name : List UInt8) (kind : Kind) :
    (freshNode dir name kind).kind = kind := rfl

@[simp] theorem freshNode_parent (dir : NodeId) (name : List UInt8) (kind : Kind) :
    (freshNode dir name kind).parent = dir := rfl

/-- The end of `mkdir` and `create_file`: `let idx = alloc_node()?; NODES[idx] = ...`. -/
def allocAs (s : State) (dir : NodeId) (name : List UInt8) (kind : Kind) :
    Option NodeId × State :=
  match s.allocNode with
  | none => (none, s)
  | some idx => (some idx, s.setNode idx (freshNode dir name kind))

/-- `mkdir`. -/
def mkdir (s : State) (dir : NodeId) (name : List UInt8) : Option NodeId × State :=
  if s.Creatable dir name then
    if (s.findChild dir name).isSome then (none, s) else s.allocAs dir name .dir
  else (none, s)

/-- `create_file`: a file of that name is returned as it is. -/
def createFile (s : State) (dir : NodeId) (name : List UInt8) : Option NodeId × State :=
  if s.Creatable dir name then
    match s.findChild dir name with
    | some existing =>
        if (s.nodes existing).kind = .file then (some existing, s) else (none, s)
    | none => s.allocAs dir name .file
  else (none, s)

/-! ## Contents -/

/-- `data.len() as u32`. -/
def asU32 (n : Nat) : Nat := n % 2 ^ 32

/-- `write`: in place while the new content fits the capacity, otherwise in a new
stretch of the pool. -/
def write (s : State) (node : NodeId) (bytes : List UInt8) : Bool × State :=
  let n := s.nodes node
  if n.kind ≠ .file then (false, s)
  else
    let len := asU32 bytes.length
    if len ≤ n.dataCap then
      (true, { s with data := blit s.data n.dataOff bytes }.setNode node
        { n with dataLen := len })
    else
      let off := s.dataNext
      if off + bytes.length > dataPool then (false, s)
      else
        (true, { s with data := blit s.data off bytes, dataNext := off + len }.setNode node
          { n with dataOff := off, dataLen := len, dataCap := len })

/-- `read`. -/
def read (s : State) (node : NodeId) : List UInt8 :=
  let n := s.nodes node
  if n.kind ≠ .file ∨ n.dataLen = 0 then [] else slice s.data n.dataOff n.dataLen

/-- `append`: the old content and the new bytes are laid out in a new stretch of
the pool. -/
def append (s : State) (node : NodeId) (bytes : List UInt8) : Bool × State :=
  let curLen := (s.read node).length
  let total := curLen + bytes.length
  let off := s.dataNext
  if off + total > dataPool then (false, s)
  else
    let n := s.nodes node
    if n.kind ≠ .file then (false, s)
    else
      let data := copyWithin s.data off n.dataOff curLen
      (true, { s with
          data := blit data (off + curLen) bytes
          dataNext := off + asU32 total }.setNode node
        { n with dataOff := off, dataLen := asU32 total, dataCap := asU32 total })

/-- `unlink`: a directory only when it has no child, the root never. -/
def unlink (s : State) (node : NodeId) : Bool × State :=
  if node = root then (false, s)
  else if (s.nodes node).kind = .free then (false, s)
  else if (s.nodes node).kind = .dir ∧ ∃ i, s.IsChild node i then (false, s)
  else (true, s.setNode node Node.empty)

/-- `kind`. -/
def kind (s : State) (node : NodeId) : Kind := (s.nodes node).kind

/-- `size_of`. -/
def sizeOf (s : State) (node : NodeId) : Nat := (s.nodes node).dataLen

/-- `set_cwd`: anything but a directory is ignored. -/
def setCwd (s : State) (node : NodeId) : State :=
  if (s.nodes node).kind = .dir then { s with cwd := node } else s

/-- `for_each_child`: each child is found by testing its slot when the scan gets
there, so the callback's own changes are seen by the rest of the scan. -/
def forEachChild (s : State) (dir : NodeId) (f : State → NodeId → State) : State :=
  if (s.nodes dir).kind ≠ .dir then s
  else (List.finRange maxNodes).foldl (fun s i => if s.IsChild dir i then f s i else s) s

end State

end PureOS.Fs
