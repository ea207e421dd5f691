import PureOS.Fs.Init

set_option autoImplicit false

/-!
# Fs: path resolution

A path is a list of bytes.  The scan of `resolve_from` skips separators, takes the
bytes up to the next one and stops at an empty component, so what it visits is the
non-empty pieces between the separators.
-/

namespace PureOS.Fs

open PureOS.Foundation

/-- The byte `/`. -/
def slash : UInt8 := 47

/-- The components that the scan of a path visits. -/
def components (path : List UInt8) : List (List UInt8) :=
  (path.splitOn slash).filter (· ≠ [])

namespace State

/-- One turn of the loop of `resolve_from`. -/
def enter (s : State) (cur : NodeId) (comp : List UInt8) : Option NodeId :=
  if comp = ascii "." then some cur
  else if comp = ascii ".." then some (s.nodes cur).parent
  else s.findChild cur comp

/-- `resolve_from`. -/
def resolveFrom (s : State) (start : NodeId) (path : List UInt8) : Option NodeId :=
  (components path).foldlM s.enter (if path.head? = some slash then root else start)

/-- `resolve`. -/
def resolve (s : State) (path : List UInt8) : Option NodeId := s.resolveFrom s.cwd path

end State

end PureOS.Fs
