import Dbos.Kernel.Util.GenericTree
import Dbos.Kernel.Vfs.Path

/-! # The mount tree

`mount_in_vfs` and `vfs_find_node` of `vfs.c`, after `initialise_vfs_layer`. The
`dir_find` operation of a node belongs to its file system and is a parameter. -/

namespace Dbos.Vfs

/-- The part of `vfs_gen_node_t` that mounting and lookup read. -/
structure VfsNode where
  name : Name
  /-- Whether `type_flags` is `VFS_NODE_TYPE_SDIR`. -/
  stub : Bool
  /-- What the file system keeps in the node. -/
  basePointer : Nat
deriving DecidableEq, Repr

def vfsCreateStubDirectory (name : Name) : VfsNode where
  name := name
  stub := true
  basePointer := 0

abbrev MountTree := GenTree VfsNode

/-- Whether the tree hangs at its parent under the given name. -/
def isNamed (name : Name) (tree : MountTree) : Bool := tree.data.name = name

/-! ## Mounting -/

/-- Change the last member of the list that satisfies `hit`. -/
def updateLast {α β : Type} (hit : α → Bool) (change : α → α × β) :
    List α → Option (List α × β)
  | [] => none
  | item :: rest =>
      match updateLast hit change rest with
      | some (rest, result) => some (item :: rest, result)
      | none =>
          if hit item then
            let changed := change item
            some (changed.1 :: rest, changed.2)
          else none

/-- The loop of `mount_in_vfs` over the segments, and what it does at their end.
The sibling loop goes on after a match, so it enters the last match; where there
is none it puts a stub. The stub or the mounted stub directory found at the end
is replaced by the node, if it has the node's name. -/
def mountAt (node : VfsNode) : List Name → MountTree → MountTree × Bool
  | [], .node here subTrees =>
      if here.name = node.name then
        if here.stub then (.node node subTrees, true) else (.node here subTrees, false)
      else (.node here subTrees, false)
  | segment :: segments, .node here subTrees =>
      match updateLast (isNamed segment) (mountAt node segments) subTrees with
      | some (subTrees, success) => (.node here subTrees, success)
      | none =>
          let created := mountAt node segments (.node (vfsCreateStubDirectory segment) [])
          (.node here (subTrees ++ [created.1]), created.2)

/-- `mount_in_vfs` at the root: only a stub is replaced. -/
def mountAtRoot (node : VfsNode) : MountTree → MountTree × Bool
  | .node here subTrees =>
      if here.stub then (.node node subTrees, true) else (.node here subTrees, false)

/-- The segments that `segments` steps of the iterator meet. -/
def readSegments : Nat → List Char → List Name
  | 0, _ => []
  | count + 1, iterator => readSegment iterator :: readSegments count (nextSegment iterator)

/-- `mount_in_vfs`, with the flag that tells success. -/
def mountInVfs (tree : MountTree) (node : VfsNode) (mountpoint : CString) : MountTree × Bool :=
  if mountpoint.chars.head? ≠ some '/' then (tree, false)
  else
    let parsed := parsePath mountpoint.chars
    if parsed.1 = 1 ∧ mountpoint.chars.length = 1 then mountAtRoot node tree
    else mountAt node (readSegments parsed.1 (parsed.2.drop 1)) tree

/-- The tree `initialise_vfs_layer` leaves. -/
def initialiseVfsLayer : MountTree := .node (vfsCreateStubDirectory ['/']) []

/-! ## Lookup -/

/-- The sibling loop of `vfs_find_node`: every sibling that does not match resets
`hit`, also after a match. -/
def siblingLoop (segment : Name) (workTree : MountTree) : Bool × MountTree :=
  workTree.subTrees.foldl
    (fun state child => if isNamed segment child then (true, child) else (false, state.2))
    (false, workTree)

/-- The loop of `vfs_find_node` over the segments and the lookup in the node it
ends at. `length` is the distance of the iterator from its start. -/
def findLoop (dirFind : VfsNode → List Char → Option VfsNode) (path : List Char) :
    Nat → MountTree → List Char → Nat → Option VfsNode
  | 0, workTree, _, _ => some workTree.data
  | segments + 1, workTree, iterator, length =>
      let segment := readSegment iterator
      let looped := siblingLoop segment workTree
      if looped.1 then
        findLoop dirFind path segments looped.2 (nextSegment iterator)
          (length + segment.length + 1)
      else if looped.2.data.stub then none
      else dirFind looped.2.data (path.drop length)

/-- `vfs_find_node`. The global `vfs_root_node` is always what the root of the
tree holds: the two places that set one of them set both. -/
def vfsFindNode (dirFind : VfsNode → List Char → Option VfsNode) (tree : MountTree)
    (path : CString) : Option VfsNode :=
  if path.chars.length = 1 ∧ path.chars.head? = some '/' then some tree.data
  else
    let parsed := parsePath path.chars
    findLoop dirFind path.chars parsed.1 tree (parsed.2.drop 1) 0

end Dbos.Vfs
