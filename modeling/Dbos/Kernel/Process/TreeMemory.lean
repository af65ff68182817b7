import Dbos.Kernel.Util.GenericTree
import Dbos.Kernel.Util.LinkedList

/-! # The process tree in memory

The tree half of `process.c` on the level of its pointers: `proc_t` and
`gen_tree_t` structures refer to each other by address, and the `sub_trees` of a
tree node are a linked list. Following `NULL` or a pointer to something that has
been freed is `none`. The addresses that `kern_malloc` returns are arguments, and
any address that is not in use may be returned, also one that was freed before. -/

namespace Dbos.ProcessTree

open Dbos.LinkedList

abbrev Address := Nat

/-- `PROCESS_TYPE_*`. -/
inductive ProcType where
  | standalone
  | clone
deriving DecidableEq, Repr

/-- The fields of `proc_t` that place a process in the tree, and its list of open
nodes, which `proc_clone` copies. -/
structure ProcT where
  pid : BitVec 32
  /-- `NULL` for the kernel. -/
  nodes : Option (List Address)
  type : ProcType
  parent : Option Address
  whereAmI : Address
deriving DecidableEq, Repr

/-- `gen_tree_t`. Its `sub_trees` list is created with it and belongs to it alone. -/
structure GenTreeT where
  data : Address
  subTrees : LnkLst Address
  parentTree : Option Address
deriving DecidableEq, Repr

/-- The structures that are allocated, and the globals of `process.c`. -/
structure Memory where
  procs : Address → Option ProcT
  trees : Address → Option GenTreeT
  links : Nodes Address Address
  processTree : Address
  procPid : BitVec 32

/-- `kern_malloc` may return the address. -/
def Memory.Unused (memory : Memory) (address : Address) : Prop :=
  memory.procs address = none ∧ memory.trees address = none ∧ memory.links address = none

instance (memory : Memory) (address : Address) : Decidable (memory.Unused address) :=
  inferInstanceAs (Decidable (_ ∧ _))

def procCreateKernel (kernel tree : Address) : Memory where
  procs := Function.update (fun _ => none) kernel
    (some ⟨1, none, .standalone, none, tree⟩)
  trees := Function.update (fun _ => none) tree (some ⟨kernel, linkedListCreate, none⟩)
  links := fun _ => none
  processTree := tree
  procPid := 1

/-- `generic_tree_create` below `parentTree`. -/
def genericTreeCreate (memory : Memory) (data parentTree tree node : Address) :
    Option Memory := do
  let trees := Function.update memory.trees tree (some ⟨data, linkedListCreate, none⟩)
  let parent ← trees parentTree
  let (links, subTrees) ← linkedListAppend memory.links parent.subTrees node tree
  let trees := Function.update trees parentTree (some { parent with subTrees := subTrees })
  return { memory with
    links := links
    trees := Function.update trees tree (some ⟨data, linkedListCreate, some parentTree⟩) }

/-- What `kern_malloc` returns for a new process: its structure, its tree node and
the list node that holds the latter. -/
structure Blocks where
  process : Address
  tree : Address
  node : Address
deriving DecidableEq, Repr

/-- The blocks are distinct and none is in use. -/
def Blocks.Fresh (blocks : Blocks) (memory : Memory) : Prop :=
  memory.Unused blocks.process ∧ memory.Unused blocks.tree ∧ memory.Unused blocks.node ∧
    blocks.process ≠ blocks.tree ∧ blocks.process ≠ blocks.node ∧ blocks.tree ≠ blocks.node

instance (blocks : Blocks) (memory : Memory) : Decidable (blocks.Fresh memory) :=
  inferInstanceAs (Decidable (_ ∧ _))

/-- What `proc_create` and `proc_clone` have in common. -/
def addProcess (memory : Memory) (parent : Address) (nodes : Option (List Address))
    (type : ProcType) (blocks : Blocks) : Option Memory := do
  let pid := memory.procPid + 1
  let parentProc ← memory.procs parent
  let memory ← genericTreeCreate { memory with procPid := pid } blocks.process
    parentProc.whereAmI blocks.tree blocks.node
  return { memory with
    procs := Function.update memory.procs blocks.process
      (some ⟨pid, nodes, type, some parent, blocks.tree⟩) }

/-- `proc_create`, where `gtty` is what `vfs_find_node` returns for `/dev/gtty`. -/
def procCreate (gtty : Option Address) (memory : Memory) (parent : Address) (blocks : Blocks) :
    Option Memory :=
  addProcess memory parent (some gtty.toList) .standalone blocks

/-- `proc_clone`: its loop over the nodes of the parent follows a `NULL` list if the
parent is the kernel. -/
def procClone (memory : Memory) (parent : Address) (blocks : Blocks) : Option Memory := do
  let parentProc ← memory.procs parent
  let nodes ← parentProc.nodes
  addProcess memory parent (some nodes) .clone blocks

/-- The loop of `proc_destroy` over the children, from the list node `item` on. Every
child needs a list node from `kern_malloc` for the list of its new parent. -/
def reparentChildren (parent parentTree : Address) :
    List Address → Option Address → Memory → Option Memory
  | _, none, memory => some memory
  | [], some _, _ => none
  | block :: blocks, some item, memory =>
      if memory.Unused block then do
        let childTree := (← memory.links item).data
        let childNode ← memory.trees childTree
        let child ← memory.procs childNode.data
        let procs := Function.update memory.procs childNode.data
          (some { child with parent := some parent, type := .standalone })
        let trees := Function.update memory.trees childTree
          (some { childNode with parentTree := some parentTree })
        let parentNode ← trees parentTree
        let (links, subTrees) ← linkedListAppend memory.links parentNode.subTrees block childTree
        let trees := Function.update trees parentTree
          (some { parentNode with subTrees := subTrees })
        let next := (← links item).next
        reparentChildren parent parentTree blocks next
          { memory with procs := procs, trees := trees, links := links }
      else none

/-- `linked_list_find` and `linked_list_remove` on the `sub_trees` of the parent. -/
def detach (memory : Memory) (parentTree tree : Address) : Option Memory := do
  let parentNode ← memory.trees parentTree
  match ← linkedListFind memory.links parentNode.subTrees tree with
  | none => return memory
  | some node =>
      let (links, subTrees) ← linkedListRemove memory.links parentNode.subTrees node
      return { memory with
        links := links
        trees := Function.update memory.trees parentTree
          (some { parentNode with subTrees := subTrees }) }

def genericTreeDestroy (memory : Memory) (tree : Address) : Option Memory := do
  let node ← memory.trees tree
  let links ← linkedListDestroy memory.links node.subTrees
  return { memory with links := links, trees := Function.update memory.trees tree none }

/-- `proc_destroy`; `blocks` is what `kern_malloc` returns meanwhile. -/
def procDestroy (memory : Memory) (process : Address) (blocks : List Address) :
    Option Memory := do
  let proc ← memory.procs process
  if proc.pid = 1 then return memory
  else
    let parent ← proc.parent
    let parentProc ← memory.procs parent
    let node ← memory.trees proc.whereAmI
    let memory ←
      if 0 < node.subTrees.listLength then
        reparentChildren parent parentProc.whereAmI blocks node.subTrees.listHead memory
      else some memory
    let memory ← detach memory parentProc.whereAmI proc.whereAmI
    let memory ← genericTreeDestroy memory proc.whereAmI
    return { memory with procs := Function.update memory.procs process none }

/-- The operations on the tree. -/
inductive Operation where
  | create (parent : Address) (blocks : Blocks)
  | clone (parent : Address) (blocks : Blocks)
  | destroy (process : Address) (blocks : List Address)
deriving DecidableEq, Repr

/-- One operation; `kern_malloc` never returns a block that is in use. -/
def step (gtty : Option Address) (memory : Memory) : Operation → Option Memory
  | .create parent blocks =>
      if blocks.Fresh memory then procCreate gtty memory parent blocks else none
  | .clone parent blocks =>
      if blocks.Fresh memory then procClone memory parent blocks else none
  | .destroy process blocks => procDestroy memory process blocks

/-! ## The tree that is in memory -/

mutual
/-- The memory holds the tree at the address, below `parent`. -/
def HoldsTree (memory : Memory) : Option Address → Address → GenTree Address → Prop
  | parent, address, .node data subTrees =>
      ∃ node entries, memory.trees address = some node ∧ node.data = data ∧
        node.parentTree = parent ∧ Represents memory.links node.subTrees entries ∧
        HoldsTrees memory address (entries.map Prod.snd) subTrees

def HoldsTrees (memory : Memory) : Address → List Address → List (GenTree Address) → Prop
  | _, [], [] => True
  | parent, address :: addresses, tree :: trees =>
      HoldsTree memory (some parent) address tree ∧ HoldsTrees memory parent addresses trees
  | _, _, _ => False
end

/-- A process and its children as they refer to each other in memory. Process `p` has
its tree node at `place p`, and the list node for it at `slot p`. -/
structure Family (memory : Memory) (place slot : Address → Address) (process : Address)
    (children : List Address) : Prop where
  located : ∃ proc, memory.procs process = some proc ∧ proc.whereAmI = place process
  listed : ∃ node, memory.trees (place process) = some node ∧ node.data = process ∧
    Represents memory.links node.subTrees (children.map fun child => (slot child, place child))
  childProcs : ∀ child ∈ children, ∃ proc, memory.procs child = some proc ∧
    proc.parent = some process
  childTrees : ∀ child ∈ children, ∃ node, memory.trees (place child) = some node ∧
    node.parentTree = some (place process)

/-- The memory represents a tree of processes, and nothing else is allocated. -/
structure Represented (memory : Memory) (tree : GenTree Address)
    (place slot : Address → Address) : Prop where
  nodup : tree.values.Nodup
  families : ∀ process children, (process, children) ∈ tree.families →
    Family memory place slot process children
  root : memory.processTree = place tree.data
  rootProc : ∃ proc, memory.procs tree.data = some proc ∧ proc.parent = none
  rootTree : ∃ node, memory.trees (place tree.data) = some node ∧ node.parentTree = none
  procs : ∀ address, memory.procs address ≠ none → address ∈ tree.values
  trees : ∀ address, memory.trees address ≠ none → ∃ process ∈ tree.values,
    address = place process
  links : ∀ address, memory.links address ≠ none → ∃ process ∈ tree.values,
    process ≠ tree.data ∧ address = slot process

theorem holdsTree_of_families {memory : Memory} {place slot : Address → Address}
    {tree : GenTree Address} {parent : Option Address}
    (families : ∀ process children, (process, children) ∈ tree.families →
      Family memory place slot process children)
    (isParent : ∃ node, memory.trees (place tree.data) = some node ∧ node.parentTree = parent) :
    HoldsTree memory parent (place tree.data) tree := by
  induction tree using GenTree.induct generalizing parent with
  | node process subTrees induction =>
      have family := families process _ (GenTree.mem_families_node.mpr (.inl rfl))
      rcases isParent with ⟨node, found, parentIs⟩
      rcases family.listed with ⟨same, sameFound, isProcess, list⟩
      cases found.symm.trans sameFound
      rw [HoldsTree]
      refine ⟨node, _, found, isProcess, parentIs, list, ?_⟩
      have children := family.childTrees
      have below : ∀ tree ∈ subTrees, ∀ process children, (process, children) ∈ tree.families →
          Family memory place slot process children := by
        intro tree member process children kin
        exact families process children (GenTree.mem_families_node.mpr (.inr ⟨tree, member, kin⟩))
      clear families family list found
      induction subTrees with
      | nil => trivial
      | cons tree rest restInduction =>
          constructor
          · apply induction tree (by simp) (below tree (by simp))
            exact children tree.data (by simp)
          · apply restInduction
            · intro other member
              exact induction other (by simp [member])
            · intro child member
              exact children child (by simp [List.mem_map.mp member])
            · intro other member
              exact below other (by simp [member])

namespace Represented

variable {memory : Memory} {tree : GenTree Address} {place slot : Address → Address}
  (represented : Represented memory tree place slot)
include represented

theorem holdsTree : HoldsTree memory none memory.processTree tree := by
  rw [represented.root]
  exact holdsTree_of_families represented.families represented.rootTree

theorem located {process : Address} (member : process ∈ tree.values) :
    ∃ proc, memory.procs process = some proc ∧ proc.whereAmI = place process := by
  rcases GenTree.exists_family member with ⟨children, isFamily⟩
  exact (represented.families process children isFamily).located

theorem node {process : Address} (member : process ∈ tree.values) :
    ∃ node, memory.trees (place process) = some node ∧ node.data = process := by
  rcases GenTree.exists_family member with ⟨children, isFamily⟩
  rcases (represented.families process children isFamily).listed with ⟨node, found, isData, _⟩
  exact ⟨node, found, isData⟩

theorem place_inj {process other : Address} (member : process ∈ tree.values)
    (otherMember : other ∈ tree.values) (same : place process = place other) :
    process = other := by
  rcases represented.node member with ⟨node, found, isData⟩
  rcases represented.node otherMember with ⟨otherNode, otherFound, otherData⟩
  rw [same, otherFound] at found
  cases found
  exact isData.symm.trans otherData

theorem link {parent child : Address} {children : List Address}
    (isFamily : (parent, children) ∈ tree.families) (isChild : child ∈ children) :
    ∃ node, memory.links (slot child) = some node ∧ node.data = place child := by
  rcases (represented.families parent children isFamily).listed with ⟨node, _, _, list⟩
  exact list.segment.allocated (List.mem_map_of_mem isChild)

theorem parent_unique {parent other child : Address} {children others : List Address}
    (isFamily : (parent, children) ∈ tree.families) (isChild : child ∈ children)
    (otherFamily : (other, others) ∈ tree.families) (otherChild : child ∈ others) :
    parent = other := by
  rcases (represented.families parent children isFamily).childProcs child isChild with
    ⟨proc, found, isParent⟩
  rcases (represented.families other others otherFamily).childProcs child otherChild with
    ⟨otherProc, otherFound, otherParent⟩
  cases found.symm.trans otherFound
  exact Option.some.inj (isParent.symm.trans otherParent)

theorem slot_inj {parent other child sibling : Address} {children others : List Address}
    (isFamily : (parent, children) ∈ tree.families) (isChild : child ∈ children)
    (otherFamily : (other, others) ∈ tree.families) (otherChild : sibling ∈ others)
    (same : slot child = slot sibling) : child = sibling := by
  rcases represented.link isFamily isChild with ⟨node, found, isData⟩
  rcases represented.link otherFamily otherChild with ⟨otherNode, otherFound, otherData⟩
  rw [same, otherFound] at found
  cases found
  apply represented.place_inj (GenTree.child_mem_values isFamily isChild)
    (GenTree.child_mem_values otherFamily otherChild)
  exact isData.symm.trans otherData

theorem children_nodup {parent : Address} {children : List Address}
    (isFamily : (parent, children) ∈ tree.families) : children.Nodup := by
  rcases (represented.families parent children isFamily).listed with ⟨node, _, _, list⟩
  have slots := list.nodup
  rw [List.map_map] at slots
  exact List.Nodup.of_map _ slots

theorem root_not_child {parent : Address} {children : List Address}
    (isFamily : (parent, children) ∈ tree.families) : tree.data ∉ children := by
  intro isChild
  rcases (represented.families parent children isFamily).childProcs _ isChild with
    ⟨proc, found, isParent⟩
  rcases represented.rootProc with ⟨root, rootFound, noParent⟩
  cases found.symm.trans rootFound
  rw [noParent] at isParent
  cases isParent

end Represented

end Dbos.ProcessTree
