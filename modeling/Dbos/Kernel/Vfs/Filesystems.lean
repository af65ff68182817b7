import Dbos.Kernel.Vfs.Refused

/-! # Mounting file systems

`mount_filesystem_in_vfs` finds a registered file system and leaves the rest to
its own mount function, which also chooses the name of the new node: `mount_devfs`
takes the end of the mountpoint, `mount_tarfs` all of it. -/

namespace Dbos.Vfs

open Dbos.Pieces

/-! ## The operations -/

/-- `strrchr`: what is left of the string from the last occurrence on. -/
def strrchr : List Char → Char → Option (List Char)
  | [], _ => none
  | char :: string, character =>
      match strrchr string character with
      | some found => some found
      | none => if char = character then some (char :: string) else none

/-- The mount functions that are registered in the sources. -/
inductive MountFunction where
  | mountDevfs
  | mountTarfs
deriving DecidableEq, Repr

/-- `vfs_reg_filesys_t`. -/
structure RegisteredFilesystem where
  id : Name
  mountFunction : MountFunction
deriving DecidableEq, Repr

/-- What the mount functions read beside their arguments. -/
structure Surroundings where
  /-- The global `devices` of `devfs.c`. -/
  devices : Nat
  /-- The `base_pointer` of the `io_node_t` at an address. -/
  ioBasePointer : Nat → Nat
  /-- The `dir_find` operation of a node. -/
  dirFind : VfsNode → List Char → Option VfsNode

/-- The node of `mount_devfs`. For an absolute mountpoint there is a slash. -/
def devfsNode (surroundings : Surroundings) (mountpoint : CString) : VfsNode where
  name := ((strrchr mountpoint.chars '/').getD []).drop 1
  stub := false
  basePointer := surroundings.devices

def mountDevfs (surroundings : Surroundings) (tree : MountTree) (mountpoint : CString) :
    MountTree × Option VfsNode :=
  mountInVfsNode tree (some (devfsNode surroundings mountpoint)) (some mountpoint)

/-- The node of `mount_tarfs`. -/
def tarfsNode (surroundings : Surroundings) (device : VfsNode) (mountpoint : CString) :
    VfsNode where
  name := mountpoint.chars
  stub := false
  basePointer := surroundings.ioBasePointer device.basePointer

def mountTarfs (surroundings : Surroundings) (tree : MountTree) (device : VfsNode)
    (mountpoint : CString) : MountTree × Option VfsNode :=
  mountInVfsNode tree (some (tarfsNode surroundings device mountpoint)) (some mountpoint)

/-- `mount_filesystem_in_vfs`; there is no result if `mount_tarfs` is called
without a device, which it reads through a `NULL` pointer. -/
def mountFilesystemInVfs (surroundings : Surroundings)
    (registeredFilesystems : List RegisteredFilesystem) (tree : MountTree) (id : Option Name)
    (mountpoint devicePath : Option CString) : Option (MountTree × Option VfsNode) :=
  match id, mountpoint with
  | some id, some mountpoint =>
      match registeredFilesystems.find? fun registered => id = registered.id with
      | none => some (tree, none)
      | some registered =>
          let device := devicePath.bind (vfsFindNode surroundings.dirFind tree)
          match registered.mountFunction with
          | .mountDevfs => some (mountDevfs surroundings tree mountpoint)
          | .mountTarfs => device.map fun device => mountTarfs surroundings tree device mountpoint
  | _, _ => some (tree, none)

/-! ## Names of the nodes -/

theorem strrchr_of_notMem {string : List Char} {character : Char}
    (absent : character ∉ string) : strrchr string character = none := by
  induction string with
  | nil => rfl
  | cons char string induction =>
      rw [List.mem_cons, not_or] at absent
      rw [strrchr, induction absent.2]
      simp [Ne.symm absent.1]

theorem strrchr_append_cons (before : List Char) {after : List Char} {character : Char}
    (absent : character ∉ after) :
    strrchr (before ++ character :: after) character = some (character :: after) := by
  induction before with
  | nil => simp [strrchr, strrchr_of_notMem absent]
  | cons char before induction => rw [List.cons_append, strrchr, induction]

section Segments

variable {mountpoint : CString} (absolute : mountpoint.chars.head? = some '/')
  (below : segmentsOf mountpoint.chars ≠ [])

include absolute below

theorem exists_segmentsOf_eq :
    ∃ rest, mountpoint.chars = '/' :: rest ∧ segmentsOf mountpoint.chars = piecesOf '/' rest := by
  rcases List.head?_eq_some_iff.mp absolute with ⟨rest, split⟩
  cases rest with
  | nil =>
      rw [split] at below
      exact absurd rfl below
  | cons second more => exact ⟨second :: more, split, by rw [split]; rfl⟩

theorem name_devfsNode (surroundings : Surroundings) :
    (segmentsOf mountpoint.chars).getLast? = some (devfsNode surroundings mountpoint).name := by
  rcases exists_segmentsOf_eq absolute below with ⟨rest, split, segments⟩
  rcases Option.isSome_iff_exists.mp (List.getLast?_isSome.mpr below) with ⟨last, isLast⟩
  have absent : '/' ∉ last := by
    rw [segments] at isLast
    exact separator_notMem_of_mem_piecesOf '/' rest last (List.mem_of_getLast? isLast)
  have ends : mountpoint.chars =
      joined '/' (segmentsOf mountpoint.chars).dropLast ++ '/' :: last := by
    rw [← joined_of_getLast? '/' isLast, segments, ← separator_cons_eq, split]
  rw [isLast, devfsNode, ends, strrchr_append_cons _ absent]
  rfl

/-- Below the root, `mount_tarfs` never does. -/
theorem name_tarfsNode (surroundings : Surroundings) (device : VfsNode) :
    (segmentsOf mountpoint.chars).getLast? ≠
      some (tarfsNode surroundings device mountpoint).name := by
  intro isLast
  rcases exists_segmentsOf_eq absolute below with ⟨rest, split, segments⟩
  rw [segments] at isLast
  apply separator_notMem_of_mem_piecesOf '/' rest _ (List.mem_of_getLast? isLast)
  rw [tarfsNode, split]
  exact List.mem_cons_self

end Segments

/-! ## Finding a new node -/

/-- On the way down, every sibling that is entered is the last one. -/
def EntersLast : MountTree → List Name → Prop
  | _, [] => True
  | tree, segment :: segments =>
      match lastNamed segment tree with
      | none => True
      | some child => lastIsNamed segment tree = true ∧ EntersLast child segments

theorem siblingLoop_append {segment : Name} {data : VfsNode} (before : List MountTree)
    {child : MountTree} {after : List MountTree} (named : isNamed segment child)
    (unmatched : ∀ other ∈ after, ¬isNamed segment other) :
    siblingLoop segment (.node data (before ++ child :: after)) = (after.isEmpty, child) := by
  unfold siblingLoop
  rw [GenTree.subTrees_node, List.foldl_append, List.foldl_cons, if_pos named,
    foldl_unmatched unmatched]
  simp

theorem lastIsNamed_append {segment : Name} {data : VfsNode} (before : List MountTree)
    {child : MountTree} {after : List MountTree} (named : isNamed segment child)
    (unmatched : ∀ other ∈ after, ¬isNamed segment other) :
    lastIsNamed segment (.node data (before ++ child :: after)) = after.isEmpty := by
  cases after with
  | nil => simp [lastIsNamed, named]
  | cons next rest =>
      have last := unmatched ((next :: rest).getLast (by simp)) (List.getLast_mem _)
      simp only [Bool.not_eq_true] at last
      simp [lastIsNamed, List.getLast?_eq_some_getLast, last]

/-- The walk finds a node that has just been mounted exactly if it enters last
siblings only; no file system answers with the node itself. -/
theorem walk_mountAt_iff {dirFind : VfsNode → List Char → Option VfsNode} {node : VfsNode}
    (others : ∀ asked path, dirFind asked path ≠ some node) (path : List Char)
    {segments : List Name} {tree : MountTree} (success : (mountAt node segments tree).2 = true)
    (length : Nat) :
    walk dirFind path (mountAt node segments tree).1 segments length = some node ↔
      EntersLast tree segments := by
  induction segments generalizing tree length with
  | nil =>
      cases tree with
      | node here subTrees =>
          by_cases same : here.name = node.name <;> by_cases isStub : here.stub <;>
            simp [mountAt, same, isStub] at success
          simp [mountAt, same, isStub, walk, EntersLast]
  | cons segment segments induction =>
      cases found : lastNamed segment tree with
      | none =>
          have mounts := mountAt_of_missing node segments found
          have named : isNamed segment
              (mountAt node segments (.node (vfsCreateStubDirectory segment) [])).1 := by
            rw [isNamed, name_mountAt]
            exact decide_eq_true rfl
          have enters : EntersLast (.node (vfsCreateStubDirectory segment) []) segments := by
            cases segments <;> trivial
          rw [mounts] at success ⊢
          have looped := @siblingLoop_append segment tree.data tree.subTrees _ [] named (by simp)
          simp only [walk, looped, List.isEmpty_nil, if_true, EntersLast, found, iff_true]
          exact (induction success _).mpr enters
      | some child =>
          rcases mountAt_of_lastNamed node segments found with
            ⟨before, after, split, unmatched, mounts⟩
          have childNamed := (lastNamed_eq_some found).1
          have named : isNamed segment (mountAt node segments child).1 := by
            rw [isNamed, name_mountAt]
            exact childNamed
          have last : lastIsNamed segment tree = after.isEmpty := by
            rw [split]
            exact lastIsNamed_append before childNamed unmatched
          rw [mounts] at success ⊢
          simp only [walk, siblingLoop_append before named unmatched, EntersLast, found, last]
          cases after with
          | nil =>
              simp only [List.isEmpty_nil, if_true, true_and]
              exact induction success _
          | cons next rest =>
              simp only [List.isEmpty_cons, Bool.false_eq_true, if_false, false_and, iff_false]
              split
              · simp
              · exact others _ _

section MountAndFind

variable {tree : MountTree} {mountpoint : CString}
  (absolute : mountpoint.chars.head? = some '/')
  (free : ∀ found, descend tree (segmentsOf mountpoint.chars) = some found →
    found.data.stub = true)

include absolute free

/-- Whatever replaces a stub at the root is found there. -/
theorem mounted_and_found_root (dirFind : VfsNode → List Char → Option VfsNode)
    (node : VfsNode) (root : segmentsOf mountpoint.chars = []) :
    ∃ after, mountInVfsNode tree (some node) (some mountpoint) = (after, some node) ∧
      vfsFindNode dirFind after mountpoint = some node := by
  have isRoot := ((readSegments_parsePath absolute).1.mpr root).2
  rw [root] at free
  have isStub := free tree rfl
  cases tree with
  | node here subTrees =>
      refine ⟨.node node subTrees, ?_, ?_⟩
      · simp [mountInVfsNode, mountInVfs_eq _ _ _ absolute, root, mountAtRoot,
          show here.stub = true from isStub]
      · simp [vfsFindNode, isRoot, absolute]

variable (below : segmentsOf mountpoint.chars ≠ [])

include below

theorem mountInVfsNode_below (node : VfsNode) :
    mountInVfsNode tree (some node) (some mountpoint) =
      ((mountAt node (segmentsOf mountpoint.chars) tree).1,
        if (segmentsOf mountpoint.chars).getLast? = some node.name then some node else none) := by
  have success := mountAt_success_iff node (segmentsOf mountpoint.chars) tree
  rw [List.getLast?_cons_of_ne_nil below] at success
  simp only [mountInVfsNode, mountInVfs_eq _ _ _ absolute, if_neg below, Prod.mk.injEq,
    true_and]
  apply if_congr _ rfl rfl
  rw [success]
  exact and_iff_left free

theorem mounted_and_found_below_iff {dirFind : VfsNode → List Char → Option VfsNode}
    {node : VfsNode} (others : ∀ asked path, dirFind asked path ≠ some node)
    (named : (segmentsOf mountpoint.chars).getLast? = some node.name) :
    (∃ after, mountInVfsNode tree (some node) (some mountpoint) = (after, some node) ∧
        vfsFindNode dirFind after mountpoint = some node) ↔
      EntersLast tree (segmentsOf mountpoint.chars) := by
  have success : (mountAt node (segmentsOf mountpoint.chars) tree).2 = true := by
    rw [mountAt_success_iff, List.getLast?_cons_of_ne_nil below]
    exact ⟨named, free⟩
  rw [mountInVfsNode_below absolute free below, if_pos named,
    ← walk_mountAt_iff others mountpoint.chars success 0,
    ← vfsFindNode_eq_walk dirFind _ absolute below]
  constructor
  · rintro ⟨after, mounted, found⟩
    rw [(Prod.mk.inj mounted).1]
    exact found
  · intro found
    exact ⟨_, rfl, found⟩

end MountAndFind

/-! ## When a file system can be mounted -/

/-- The mount succeeds and the mountpoint then leads to the mounted node. -/
def MountsAndFinds (surroundings : Surroundings)
    (registeredFilesystems : List RegisteredFilesystem) (tree : MountTree) (id : Name)
    (mountpoint : CString) (devicePath : Option CString) : Prop :=
  ∃ after node, mountFilesystemInVfs surroundings registeredFilesystems tree (some id)
      (some mountpoint) devicePath = some (after, some node) ∧
    vfsFindNode surroundings.dirFind after mountpoint = some node

theorem exists_mounted_iff {tree : MountTree} {node : VfsNode} {mountpoint : CString}
    {property : MountTree → VfsNode → Prop} :
    (∃ after found, mountInVfsNode tree (some node) (some mountpoint) = (after, some found) ∧
        property after found) ↔
      ∃ after, mountInVfsNode tree (some node) (some mountpoint) = (after, some node) ∧
        property after node := by
  constructor
  · rintro ⟨after, found, mounted, holds⟩
    have same : found = node := by
      simp only [mountInVfsNode, Prod.mk.injEq, Option.ite_none_right_eq_some,
        Option.some.injEq] at mounted
      exact mounted.2.2.symm
    subst same
    exact ⟨after, mounted, holds⟩
  · rintro ⟨after, mounted, holds⟩
    exact ⟨after, node, mounted, holds⟩

theorem segmentsOf_eq_nil_iff {mountpoint : CString}
    (absolute : mountpoint.chars.head? = some '/') :
    segmentsOf mountpoint.chars = [] ↔ mountpoint.chars = ['/'] := by
  rcases List.head?_eq_some_iff.mp absolute with ⟨rest, split⟩
  rw [split]
  cases rest with
  | nil => simp [segmentsOf]
  | cons second more => simp [segmentsOf, piecesOf_ne_nil]

/-- At a place with at most a stub, a `devfs` can be mounted and found exactly if
the way there leads through last siblings, a `tarfs` exactly at the root, if its
device is found. Only the root of a `devfs` has the list of devices as its base
pointer, so no file system answers with it. -/
theorem mountsAndFinds_iff (surroundings : Surroundings)
    (answersBelow : ∀ asked path found,
      surroundings.dirFind asked path = some found → found.basePointer ≠ surroundings.devices)
    {registeredFilesystems : List RegisteredFilesystem} {id : Name}
    {registered : RegisteredFilesystem}
    (isRegistered :
      registeredFilesystems.find? (fun registered => id = registered.id) = some registered)
    {tree : MountTree} {mountpoint : CString} (absolute : mountpoint.chars.head? = some '/')
    (free : ∀ found, descend tree (segmentsOf mountpoint.chars) = some found →
      found.data.stub = true)
    (devicePath : Option CString) :
    MountsAndFinds surroundings registeredFilesystems tree id mountpoint devicePath ↔
      match registered.mountFunction with
      | .mountDevfs => EntersLast tree (segmentsOf mountpoint.chars)
      | .mountTarfs => mountpoint.chars = ['/'] ∧
          (devicePath.bind (vfsFindNode surroundings.dirFind tree)).isSome := by
  unfold MountsAndFinds mountFilesystemInVfs
  simp only [isRegistered]
  cases registered.mountFunction with
  | mountDevfs =>
      simp only [Option.some.injEq, mountDevfs]
      rw [exists_mounted_iff]
      by_cases root : segmentsOf mountpoint.chars = []
      · have found := mounted_and_found_root absolute free surroundings.dirFind
          (devfsNode surroundings mountpoint) root
        rw [root]
        exact ⟨fun _ => trivial, fun _ => found⟩
      · apply mounted_and_found_below_iff absolute free root
        · intro asked path answered
          exact answersBelow asked path _ answered rfl
        · exact name_devfsNode absolute root surroundings
  | mountTarfs =>
      rw [← segmentsOf_eq_nil_iff absolute]
      cases devicePath.bind (vfsFindNode surroundings.dirFind tree) with
      | none => simp
      | some device =>
          simp only [Option.map_some, Option.some.injEq, mountTarfs, Option.isSome_some, and_true]
          rw [exists_mounted_iff]
          constructor
          · rintro ⟨after, mounted, -⟩
            by_contra below
            rw [mountInVfsNode_below absolute free below,
              if_neg (name_tarfsNode absolute below surroundings device)] at mounted
            cases (Prod.mk.inj mounted).2
          · exact mounted_and_found_root absolute free surroundings.dirFind _

/-- A `devfs` that knows one device. -/
def oneDevice : Surroundings where
  devices := 7
  ioBasePointer := fun address => address + 1
  dirFind := fun asked path =>
    if asked.basePointer = 7 ∧ path = ['/', 'r', 'd'] then some ⟨['r', 'd'], false, 9⟩ else none

/-- The tree when a `devfs` has been mounted at `/dev`. -/
def withDev : MountTree :=
  .node (vfsCreateStubDirectory ['/']) [.node ⟨['d', 'e', 'v'], false, 7⟩ []]

def bothFilesystems : List RegisteredFilesystem :=
  [⟨['F', '0'], .mountDevfs⟩, ⟨['F', '1'], .mountTarfs⟩]

theorem mountsAndFinds_iff_mnt :
    MountsAndFinds oneDevice bothFilesystems withDev ['F', '0']
        ⟨['/', 'm', 'n', 't'], by decide⟩ none ↔
      EntersLast withDev (segmentsOf ['/', 'm', 'n', 't']) := by
  have answersBelow : ∀ asked path found,
      oneDevice.dirFind asked path = some found → found.basePointer ≠ oneDevice.devices := by
    intro asked path found answered
    simp only [oneDevice, Option.ite_none_right_eq_some, Option.some.injEq] at answered
    rw [← answered.2]
    decide
  have free : ∀ found, descend withDev (segmentsOf ['/', 'm', 'n', 't']) = some found →
      found.data.stub = true := by
    rintro found ⟨⟩
  exact @mountsAndFinds_iff oneDevice answersBelow bothFilesystems ['F', '0']
    ⟨['F', '0'], .mountDevfs⟩ rfl withDev ⟨['/', 'm', 'n', 't'], by decide⟩ rfl free none

/-- A `tarfs` is refused at `/mnt`: its node is named `/mnt` and not `mnt`. -/
theorem not_mountsAndFinds_mnt :
    ¬∀ (surroundings : Surroundings) (registeredFilesystems : List RegisteredFilesystem)
      (registered : RegisteredFilesystem) (tree : MountTree) (mountpoint devicePath : CString),
      registeredFilesystems.find? (fun other => registered.id = other.id) = some registered →
      mountpoint.chars.head? = some '/' → mountpoint.chars.getLast? ≠ some '/' →
      (∀ found, descend tree (segmentsOf mountpoint.chars) = some found →
        found.data.stub = true) →
      vfsFindNode surroundings.dirFind tree devicePath ≠ none →
      MountsAndFinds surroundings registeredFilesystems tree registered.id mountpoint
        (some devicePath) := by
  intro always
  rcases always oneDevice bothFilesystems ⟨['F', '1'], .mountTarfs⟩ withDev
    ⟨['/', 'm', 'n', 't'], by decide⟩ ⟨['/', 'd', 'e', 'v', '/', 'r', 'd'], by decide⟩
    (by decide) rfl (by decide) (by rintro found ⟨⟩) (by decide) with ⟨after, node, mounted, -⟩
  have refused : (mountFilesystemInVfs oneDevice bothFilesystems withDev (some ['F', '1'])
      (some ⟨['/', 'm', 'n', 't'], by decide⟩)
      (some ⟨['/', 'd', 'e', 'v', '/', 'r', 'd'], by decide⟩)).map Prod.snd = some none := by
    decide
  rw [mounted] at refused
  cases refused

end Dbos.Vfs
