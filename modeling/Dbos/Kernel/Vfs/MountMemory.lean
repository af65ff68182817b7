import Mathlib.Data.List.Find
import Dbos.Kernel.Vfs.Lookup

/-! # The mount tree in memory

The tree that `mount_in_vfs` builds holds pointers to nodes, and the stub that a
mount replaces is given back with `kern_free`. Here the nodes are in memory, so
that a node can be mounted twice and a freed node can be overwritten by the next
one that is allocated. As long as no freed node is left in the tree, this is the
mounting of `Vfs.lean`. -/

namespace Dbos.Vfs.Memory

open Dbos.Execution

/-- A `vfs_gen_node_t *`. -/
abbrev Address := Nat

/-- What the kernel heap holds at the addresses of nodes. `kern_free` leaves the
contents as they are. -/
structure Heap where
  nodes : Address → VfsNode
  live : Address → Bool

/-- `kern_malloc`, which has returned `address`, and the assignments after it. -/
def Heap.create (heap : Heap) (address : Address) (node : VfsNode) : Heap where
  nodes other := if other = address then node else heap.nodes other
  live other := if other = address then true else heap.live other

/-- `kern_free`. -/
def Heap.free (heap : Heap) (address : Address) : Heap :=
  { heap with live := fun other => if other = address then false else heap.live other }

/-- The loop of `mount_in_vfs` and what it does at its end. `fresh` holds for every
segment the address that `kern_malloc` returns if a stub has to be created for
it. The last result is the stub that has been replaced and freed, if the mount
succeeds. -/
def mountAt (node : Address) :
    List Name → List Address → Heap → GenTree Address → GenTree Address × Heap × Option Address
  | [], _, heap, .node here subTrees =>
      if (heap.nodes here).name = (heap.nodes node).name then
        if (heap.nodes here).stub then (.node node subTrees, heap.free here, some here)
        else (.node here subTrees, heap, none)
      else (.node here subTrees, heap, none)
  | segment :: segments, fresh, heap, .node here subTrees =>
      match updateLast (fun child => (heap.nodes child.data).name = segment)
          (mountAt node segments fresh.tail heap) subTrees with
      | some (subTrees, result) => (.node here subTrees, result)
      | none =>
          let address := fresh.headD 0
          let created := mountAt node segments fresh.tail
            (heap.create address (vfsCreateStubDirectory segment)) (.node address [])
          (.node here (subTrees ++ [created.1]), created.2)

/-- `vfs_mountpoint_tree`, `vfs_root_node` and the nodes. -/
structure MountState where
  heap : Heap
  tree : GenTree Address
  rootNode : Address

/-- `mount_in_vfs`, with the flag that tells success. At the root the stub that is
replaced is not freed. -/
def mountInVfs (vfs : MountState) (node : Option Address) (mountpoint : Option CString)
    (fresh : List Address) : MountState × Bool :=
  match node, mountpoint with
  | some node, some mountpoint =>
      if mountpoint.chars.head? ≠ some '/' then (vfs, false)
      else
        let parsed := parsePath mountpoint.chars
        if parsed.1 = 1 ∧ mountpoint.chars.length = 1 then
          if (vfs.heap.nodes vfs.tree.data).stub then
            ({ vfs with tree := .node node vfs.tree.subTrees, rootNode := node }, true)
          else (vfs, false)
        else
          let mounted := mountAt node (readSegments parsed.1 (parsed.2.drop 1)) fresh vfs.heap
            vfs.tree
          ({ vfs with heap := mounted.2.1, tree := mounted.1 }, mounted.2.2.isSome)
  | _, _ => (vfs, false)

/-- What can happen to the mount tree. -/
inductive Action where
  /-- A file system allocates and fills a node. -/
  | create (address : Address) (node : VfsNode)
  | mount (node : Option Address) (mountpoint : Option CString) (fresh : List Address)

/-- Addresses `kern_malloc` can return one after the other. -/
def Heap.allocatable (heap : Heap) (fresh : List Address) : Prop :=
  fresh.Nodup ∧ ∀ address ∈ fresh, heap.live address = false

instance (heap : Heap) (fresh : List Address) : Decidable (heap.allocatable fresh) :=
  inferInstanceAs (Decidable (_ ∧ _))

/-- One action: `kern_malloc` returns addresses that are not in use, and what is
passed to `mount_in_vfs` is `NULL` or a node. -/
def step (vfs : MountState) : Action → Option MountState
  | .create address node =>
      if vfs.heap.live address = false then some { vfs with heap := vfs.heap.create address node }
      else none
  | .mount node mountpoint fresh =>
      if (∀ address ∈ node, vfs.heap.live address) ∧ vfs.heap.allocatable fresh ∧
          (∀ path ∈ mountpoint, fresh.length = (segmentsOf path.chars).length) then
        some (mountInVfs vfs node mountpoint fresh).1
      else none

/-- What `initialise_vfs_layer` leaves, with the root stub at `address`. -/
def initialiseVfsLayer (address : Address) : MountState where
  heap := ⟨fun _ => vfsCreateStubDirectory ['/'], fun other => other = address⟩
  tree := .node address []
  rootNode := address

/-! ## Reading the tree through memory -/

/-- A node as it is in memory, with a label in place of what the file system keeps
there. The labels tell nodes apart that are otherwise equal. -/
def Heap.look (heap : Heap) (label : Address → Nat) (address : Address) : VfsNode :=
  { heap.nodes address with basePointer := label address }

/-- The tree of nodes that the tree of pointers stands for. -/
def view (heap : Heap) (label : Address → Nat) (tree : GenTree Address) : MountTree :=
  tree.map (heap.look label)

theorem view_node (heap : Heap) (label : Address → Nat) (here : Address)
    (subTrees : List (GenTree Address)) :
    view heap label (.node here subTrees) =
      .node (heap.look label here) (subTrees.map (view heap label)) :=
  GenTree.map_node ..

theorem name_view (heap : Heap) (label : Address → Nat) (tree : GenTree Address) :
    (view heap label tree).data.name = (heap.nodes tree.data).name := by
  cases tree
  rw [view_node]
  rfl

theorem isNamed_view (heap : Heap) (label : Address → Nat) (segment : Name)
    (tree : GenTree Address) :
    isNamed segment (view heap label tree) = decide ((heap.nodes tree.data).name = segment) := by
  rw [isNamed, name_view]

theorem view_congr {heap other : Heap} (label : Address → Nat) {tree : GenTree Address}
    (same : ∀ address ∈ tree.values, other.nodes address = heap.nodes address) :
    view other label tree = view heap label tree := by
  apply GenTree.map_congr
  intro address member
  unfold Heap.look
  rw [same address member]

/-- The search for the last match does not depend on how the items are written. -/
theorem updateLast_map {α β γ δ : Type} {hit : α → Bool} (change : α → α × β)
    {otherHit : γ → Bool} (otherChange : γ → γ × δ) {write : α → γ} {items : List α}
    (hits : ∀ item ∈ items, otherHit (write item) = hit item) :
    match updateLast hit change items with
    | none => updateLast otherHit otherChange (items.map write) = none
    | some (changed, result) =>
        ∃ before item after, items = before ++ item :: after ∧
          changed = before ++ (change item).1 :: after ∧ result = (change item).2 ∧
          updateLast otherHit otherChange (items.map write) =
            some (before.map write ++ (otherChange (write item)).1 :: after.map write,
              (otherChange (write item)).2) := by
  induction items with
  | nil => rfl
  | cons item items induction =>
      have rest := induction fun other member => hits other (List.mem_cons_of_mem item member)
      have here := hits item List.mem_cons_self
      simp only [List.map_cons, updateLast]
      cases updated : updateLast hit change items with
      | some found =>
          rw [updated] at rest
          rcases rest with ⟨before, member, after, split, changed, result, written⟩
          refine ⟨item :: before, member, after, by rw [split]; rfl, by rw [changed]; rfl,
            result, ?_⟩
          rw [written]
          rfl
      | none =>
          rw [updated] at rest
          rw [rest, here]
          by_cases isHit : hit item
          · simp only [isHit, if_true]
            exact ⟨[], item, items, rfl, rfl, rfl, rfl⟩
          · simp [isHit]

/-! ## What one call changes -/

theorem mountAt_nil (node : Address) (fresh : List Address) (heap : Heap) (here : Address)
    (subTrees : List (GenTree Address)) :
    (heap.nodes here).name = (heap.nodes node).name ∧ (heap.nodes here).stub ∧
        mountAt node [] fresh heap (.node here subTrees) =
          (.node node subTrees, heap.free here, some here) ∨
      ¬((heap.nodes here).name = (heap.nodes node).name ∧ (heap.nodes here).stub) ∧
        mountAt node [] fresh heap (.node here subTrees) = (.node here subTrees, heap, none) := by
  unfold mountAt
  by_cases named : (heap.nodes here).name = (heap.nodes node).name
  · by_cases isStub : (heap.nodes here).stub
    · exact .inl ⟨named, isStub, by rw [if_pos named, if_pos isStub]⟩
    · exact .inr ⟨fun both => isStub both.2, by rw [if_pos named, if_neg isStub]⟩
  · exact .inr ⟨fun both => named both.1, by rw [if_neg named]⟩

/-- On its way the call enters a subtree with the name of the segment, or puts a
stub behind the others. -/
theorem mountAt_cons (node : Address) (segment : Name) (segments : List Name)
    (fresh : List Address) (heap : Heap) (here : Address) (subTrees : List (GenTree Address)) :
    (∃ before child after, subTrees = before ++ child :: after ∧
        (heap.nodes child.data).name = segment ∧
        mountAt node (segment :: segments) fresh heap (.node here subTrees) =
          (.node here (before ++ (mountAt node segments fresh.tail heap child).1 :: after),
            (mountAt node segments fresh.tail heap child).2)) ∨
      ∃ created, created = mountAt node segments fresh.tail
          (heap.create (fresh.headD 0) (vfsCreateStubDirectory segment)) (.node (fresh.headD 0) []) ∧
        mountAt node (segment :: segments) fresh heap (.node here subTrees) =
          (.node here (subTrees ++ [created.1]), created.2) := by
  rw [mountAt]
  split
  case h_1 updated =>
    rcases updateLast_eq_some updated with ⟨before, child, after, split, rfl, named, rfl⟩
    exact .inl ⟨before, child, after, split, of_decide_eq_true named, rfl⟩
  case h_2 => exact .inr ⟨_, rfl, rfl⟩

theorem nodes_mountAt (node : Address) {segments : List Name} {fresh : List Address}
    (enough : fresh.length = segments.length) (heap : Heap) (tree : GenTree Address)
    {address : Address} (old : address ∉ fresh) :
    (mountAt node segments fresh heap tree).2.1.nodes address = heap.nodes address := by
  induction segments generalizing fresh heap tree with
  | nil =>
      cases tree with
      | node here subTrees =>
          rcases mountAt_nil node fresh heap here subTrees with ⟨-, -, result⟩ | ⟨-, result⟩
          · rw [result]
            rfl
          · rw [result]
  | cons segment segments induction =>
      cases fresh with
      | nil => cases enough
      | cons created fresh =>
          rw [List.length_cons, List.length_cons, Nat.add_right_cancel_iff] at enough
          rw [List.mem_cons, not_or] at old
          cases tree with
          | node here subTrees =>
              rcases mountAt_cons node segment segments (created :: fresh) heap here subTrees with
                ⟨before, child, after, -, -, result⟩ | ⟨below, rfl, result⟩
              · rw [result]
                exact induction enough heap child old.2
              · rw [result]
                refine (induction enough _ _ old.2).trans ?_
                exact if_neg old.1

theorem data_mountAt (node : Address) {segments : List Name} (below : segments ≠ [])
    (fresh : List Address) (heap : Heap) (tree : GenTree Address) :
    (mountAt node segments fresh heap tree).1.data = tree.data := by
  cases segments with
  | nil => exact absurd rfl below
  | cons segment segments =>
      cases tree with
      | node here subTrees =>
          rcases mountAt_cons node segment segments fresh heap here subTrees with
            ⟨before, child, after, -, -, result⟩ | ⟨created, -, result⟩
          · rw [result]
            rfl
          · rw [result]
            rfl

/-- What is in use stays in use, except for the stub that is replaced. -/
theorem live_mountAt (node : Address) (segments : List Name) (fresh : List Address) (heap : Heap)
    (tree : GenTree Address) {address : Address} (live : heap.live address) :
    (mountAt node segments fresh heap tree).2.1.live address ∨
      (mountAt node segments fresh heap tree).2.2 = some address := by
  induction segments generalizing fresh heap tree with
  | nil =>
      cases tree with
      | node here subTrees =>
          rcases mountAt_nil node fresh heap here subTrees with ⟨-, -, result⟩ | ⟨-, result⟩
          · rw [result]
            by_cases same : address = here
            · exact .inr (congrArg some same.symm)
            · left
              simp [Heap.free, same, live]
          · rw [result]
            exact .inl live
  | cons segment segments induction =>
      cases tree with
      | node here subTrees =>
          rcases mountAt_cons node segment segments fresh heap here subTrees with
            ⟨before, child, after, -, -, result⟩ | ⟨below, rfl, result⟩
          · rw [result]
            exact induction fresh.tail heap child live
          · rw [result]
            apply induction
            simp [Heap.create, live]

/-- The pointers in the tree afterwards are in use, except perhaps to the stub that
is replaced. -/
theorem tree_live_mountAt {node : Address} {segments : List Name} {fresh : List Address}
    {heap : Heap} {tree : GenTree Address} (nodeLive : heap.live node)
    (treeLive : ∀ address ∈ tree.values, heap.live address) {address : Address}
    (member : address ∈ (mountAt node segments fresh heap tree).1.values) :
    (mountAt node segments fresh heap tree).2.1.live address ∨
      (mountAt node segments fresh heap tree).2.2 = some address := by
  by_cases live : heap.live address
  · exact live_mountAt node segments fresh heap tree live
  have notOld : address ∉ tree.values := fun isOld => live (treeLive address isOld)
  have notNode : address ≠ node := fun isNode => live (isNode ▸ nodeLive)
  clear treeLive nodeLive live
  induction segments generalizing fresh heap tree with
  | nil =>
      cases tree with
      | node here subTrees =>
          rw [GenTree.mem_values_node, not_or] at notOld
          rcases mountAt_nil node fresh heap here subTrees with ⟨-, -, result⟩ | ⟨-, result⟩
          · rw [result, GenTree.mem_values_node] at member
            exact absurd member (not_or.mpr ⟨notNode, notOld.2⟩)
          · rw [result, GenTree.mem_values_node] at member
            exact absurd member (not_or.mpr notOld)
  | cons segment segments induction =>
      cases tree with
      | node here subTrees =>
          rw [GenTree.mem_values_node, not_or] at notOld
          rcases notOld with ⟨notHere, notBelow⟩
          rcases mountAt_cons node segment segments fresh heap here subTrees with
            ⟨before, child, after, rfl, -, result⟩ | ⟨below, isBelow, result⟩
          · rw [result, GenTree.mem_values_node] at member
            rcases member with isHere | ⟨sub, subMember, inside⟩
            · exact absurd isHere notHere
            · have notIn : ∀ tree ∈ before ++ child :: after, address ∉ tree.values :=
                fun tree isSub isIn => notBelow ⟨tree, isSub, isIn⟩
              rw [result]
              rw [List.mem_append, List.mem_cons] at subMember
              rcases subMember with left | rfl | right
              · exact absurd inside (notIn sub (by simp [left]))
              · exact induction inside (notIn child (by simp))
              · exact absurd inside (notIn sub (by simp [right]))
          · rw [result, GenTree.mem_values_node] at member
            rw [result]
            rcases member with isHere | ⟨sub, subMember, inside⟩
            · exact absurd isHere notHere
            · rw [List.mem_append, List.mem_singleton] at subMember
              rcases subMember with old | rfl
              · exact absurd ⟨sub, old, inside⟩ notBelow
              · subst isBelow
                by_cases isCreated : address = fresh.headD 0
                · apply live_mountAt
                  simp [Heap.create, isCreated]
                · apply induction inside
                  simpa [GenTree.values, GenTree.valuesOfAll] using isCreated

theorem count_mountAt (node : Address) {segments : List Name} {fresh : List Address}
    (enough : fresh.length = segments.length) (heap : Heap) (tree : GenTree Address)
    (address : Address) :
    (mountAt node segments fresh heap tree).1.values.count address +
        [(mountAt node segments fresh heap tree).2.2].count (some address) ≤
      tree.values.count address + [node].count address + fresh.count address := by
  induction segments generalizing fresh heap tree with
  | nil =>
      cases tree with
      | node here subTrees =>
          rcases mountAt_nil node fresh heap here subTrees with ⟨-, -, result⟩ | ⟨-, result⟩
          · rw [result]
            simp only [GenTree.values, List.count_cons, List.count_nil]
            grind
          · rw [result]
            simp only [List.count_cons, List.count_nil]
            grind
  | cons segment segments induction =>
      cases fresh with
      | nil => cases enough
      | cons created fresh =>
          rw [List.length_cons, List.length_cons, Nat.add_right_cancel_iff] at enough
          cases tree with
          | node here subTrees =>
              rcases mountAt_cons node segment segments (created :: fresh) heap here subTrees with
                ⟨before, child, after, rfl, -, result⟩ | ⟨below, rfl, result⟩
              · have inside := induction enough heap child
                rw [result]
                simp only [GenTree.values, GenTree.valuesOfAll_append, GenTree.valuesOfAll,
                  List.count_cons, List.count_append, List.tail_cons] at inside ⊢
                omega
              · have inside := induction enough
                  (heap.create created (vfsCreateStubDirectory segment)) (.node created [])
                rw [result]
                simp only [GenTree.values, GenTree.valuesOfAll_append, GenTree.valuesOfAll,
                  List.count_cons, List.count_append, List.tail_cons, List.count_nil,
                  List.headD_cons] at inside ⊢
                omega

/-! ## The call is the mounting of nodes -/

theorem look_of_nodes {heap other : Heap} (label : Address → Nat) {address : Address}
    (same : other.nodes address = heap.nodes address) :
    other.look label address = heap.look label address := by
  unfold Heap.look
  rw [same]

theorem view_create (heap : Heap) {label : Address → Nat} {address : Address}
    (unlabelled : label address = 0) (name : Name) :
    view (heap.create address (vfsCreateStubDirectory name)) label (.node address []) =
      .node (vfsCreateStubDirectory name) [] := by
  rw [view_node]
  simp [Heap.look, Heap.create, unlabelled, vfsCreateStubDirectory]

/-- Seen through memory, the call mounts the node that it is given. -/
def Seen (label : Address → Nat) (node : Address) (segments : List Name) (fresh : List Address)
    (heap : Heap) (tree : GenTree Address) : Prop :=
  view (mountAt node segments fresh heap tree).2.1 label (mountAt node segments fresh heap tree).1 =
      (Vfs.mountAt (heap.look label node) segments (view heap label tree)).1 ∧
    (mountAt node segments fresh heap tree).2.2.isSome =
      (Vfs.mountAt (heap.look label node) segments (view heap label tree)).2

theorem seen_nil (label : Address → Nat) (node : Address) (fresh : List Address) (heap : Heap)
    (tree : GenTree Address) : Seen label node [] fresh heap tree := by
  cases tree with
  | node here subTrees =>
      rw [Seen, view_node, Vfs.mountAt]
      rcases mountAt_nil node fresh heap here subTrees with
        ⟨named, isStub, result⟩ | ⟨refused, result⟩
      · have sameName : (heap.look label here).name = (heap.look label node).name := named
        have isStubNode : (heap.look label here).stub = true := isStub
        rw [result, if_pos sameName, if_pos isStubNode]
        exact ⟨view_node .., rfl⟩
      · rw [result]
        by_cases sameName : (heap.look label here).name = (heap.look label node).name
        · have notStub : ¬(heap.look label here).stub = true :=
            fun isStub => refused ⟨sameName, isStub⟩
          rw [if_pos sameName, if_neg notStub]
          exact ⟨view_node .., rfl⟩
        · rw [if_neg sameName]
          exact ⟨view_node .., rfl⟩

section Segment

variable {label : Address → Nat} {node here created : Address} {segment : Name}
  {segments : List Name} {fresh : List Address} {heap : Heap}
  {subTrees : List (GenTree Address)} (enough : fresh.length = segments.length)
  (old : ∀ address ∈ (GenTree.node here subTrees).values, address ∉ created :: fresh)
include enough old

variable (label node segment) in
theorem view_kept :
    (mountAt node (segment :: segments) (created :: fresh) heap
        (.node here subTrees)).2.1.look label here = heap.look label here ∧
      ∀ tree ∈ subTrees, view (mountAt node (segment :: segments) (created :: fresh) heap
        (.node here subTrees)).2.1 label tree = view heap label tree := by
  have writes : ∀ address ∉ created :: fresh,
      (mountAt node (segment :: segments) (created :: fresh) heap
        (.node here subTrees)).2.1.nodes address = heap.nodes address :=
    fun address old => nodes_mountAt node (by simp [enough]) heap _ old
  refine ⟨look_of_nodes label (writes here (old here (GenTree.data_mem_values _))),
    fun tree member => view_congr label fun address inside => writes address ?_⟩
  exact old address (GenTree.mem_values_node.mpr (.inr ⟨tree, member, inside⟩))

theorem seen_existing {found : List (GenTree Address) × Heap × Option Address}
    (updated : updateLast (fun child => (heap.nodes child.data).name = segment)
      (mountAt node segments fresh heap) subTrees = some found)
    (inside : ∀ child ∈ subTrees, Seen label node segments fresh heap child) :
    Seen label node (segment :: segments) (created :: fresh) heap (.node here subTrees) := by
  have searched := updateLast_map (mountAt node segments fresh heap)
    (Vfs.mountAt (heap.look label node) segments)
    fun tree (_ : tree ∈ subTrees) => isNamed_view heap label segment tree
  rcases view_kept label node segment enough old with
    ⟨sameHere, sameBelow⟩
  rw [Seen, view_node, Vfs.mountAt]
  rw [mountAt, List.tail_cons] at sameHere sameBelow ⊢
  rw [updated] at searched sameHere sameBelow ⊢
  rcases searched with ⟨before, child, after, split, changed, result, written⟩
  have onChild := inside child (by simp [split])
  rw [written]
  change view found.2.1 label (.node here found.1) = _ ∧ found.2.2.isSome = _
  rw [changed, view_node, sameHere, result]
  refine ⟨?_, onChild.2⟩
  rw [List.map_append, List.map_cons, ← onChild.1]
  congr 2
  · apply List.map_congr_left
    intro tree member
    exact (congrArg (view · label tree) (congrArg Prod.fst result)).symm.trans
      (sameBelow tree (by simp [split, member]))
  · congr 1
    apply List.map_congr_left
    intro tree member
    exact (congrArg (view · label tree) (congrArg Prod.fst result)).symm.trans
      (sameBelow tree (by simp [split, member]))

theorem seen_created
    (updated : updateLast (fun child => (heap.nodes child.data).name = segment)
      (mountAt node segments fresh heap) subTrees = none)
    (nodeOld : node ≠ created) (unlabelled : label created = 0)
    (inside : Seen label node segments fresh
      (heap.create created (vfsCreateStubDirectory segment)) (.node created [])) :
    Seen label node (segment :: segments) (created :: fresh) heap (.node here subTrees) := by
  have searched := updateLast_map (mountAt node segments fresh heap)
    (Vfs.mountAt (heap.look label node) segments)
    fun tree (_ : tree ∈ subTrees) => isNamed_view heap label segment tree
  rcases view_kept label node segment enough old with
    ⟨sameHere, sameBelow⟩
  have sameNode : (heap.create created (vfsCreateStubDirectory segment)).look label node =
      heap.look label node := look_of_nodes label (if_neg nodeOld)
  rw [Seen, view_create heap unlabelled, sameNode] at inside
  rw [Seen, view_node, Vfs.mountAt]
  rw [mountAt, List.tail_cons] at sameHere sameBelow ⊢
  rw [updated] at searched sameHere sameBelow ⊢
  rw [searched]
  refine ⟨?_, inside.2⟩
  simp only [List.headD_cons] at sameHere sameBelow ⊢
  rw [view_node, sameHere, List.map_append, List.map_congr_left sameBelow, ← inside.1]
  rfl

end Segment

theorem view_mountAt {node : Address} {segments : List Name} {fresh : List Address}
    (heap : Heap) (tree : GenTree Address) {label : Address → Nat}
    (enough : fresh.length = segments.length) (distinct : fresh.Nodup)
    (nodeOld : node ∉ fresh) (treeOld : ∀ address ∈ tree.values, address ∉ fresh)
    (unlabelled : ∀ address ∈ fresh, label address = 0) :
    Seen label node segments fresh heap tree := by
  induction segments generalizing fresh heap tree with
  | nil => exact seen_nil label node fresh heap tree
  | cons segment segments induction =>
      cases fresh with
      | nil => cases enough
      | cons created fresh =>
          rw [List.length_cons, List.length_cons, Nat.add_right_cancel_iff] at enough
          rw [List.nodup_cons] at distinct
          rw [List.mem_cons, not_or] at nodeOld
          have labels : ∀ address ∈ fresh, label address = 0 :=
            fun address member => unlabelled address (List.mem_cons_of_mem created member)
          cases tree with
          | node here subTrees =>
              cases updated : updateLast (fun child => (heap.nodes child.data).name = segment)
                  (mountAt node segments fresh heap) subTrees with
              | some found =>
                  refine seen_existing enough treeOld updated fun child member => ?_
                  refine induction heap child enough distinct.2 nodeOld.2 (fun address inside => ?_)
                    labels
                  have isOld := treeOld address
                    (GenTree.mem_values_node.mpr (.inr ⟨child, member, inside⟩))
                  exact fun later => isOld (List.mem_cons_of_mem created later)
              | none =>
                  have treeNew : ∀ address ∈ (GenTree.node created []).values,
                      address ∉ fresh := by
                    simpa [GenTree.values, GenTree.valuesOfAll] using distinct.1
                  exact seen_created enough treeOld updated nodeOld.1
                    (unlabelled created List.mem_cons_self)
                    (induction _ _ enough distinct.2 nodeOld.2 treeNew labels)

theorem allocatable_notMem {heap : Heap} {fresh : List Address} (free : heap.allocatable fresh)
    {address : Address} (live : heap.live address) : address ∉ fresh := by
  intro member
  rw [free.2 address member] at live
  cases live

section Absolute

variable (vfs : MountState) (node : Address) {mountpoint : CString} (fresh : List Address)
  (absolute : mountpoint.chars.head? = some '/')
include absolute

theorem mountInVfs_root (root : segmentsOf mountpoint.chars = []) :
    mountInVfs vfs (some node) (some mountpoint) fresh =
      if (vfs.heap.nodes vfs.tree.data).stub then
        ({ vfs with tree := .node node vfs.tree.subTrees, rootNode := node }, true)
      else (vfs, false) := by
  simp only [mountInVfs, absolute, ne_eq, not_true_eq_false, if_false,
    (readSegments_parsePath absolute).1]
  rw [if_pos root]

theorem mountInVfs_below (below : segmentsOf mountpoint.chars ≠ []) :
    ∃ mounted, mounted = mountAt node (segmentsOf mountpoint.chars) fresh vfs.heap vfs.tree ∧
      mountInVfs vfs (some node) (some mountpoint) fresh =
        ({ vfs with heap := mounted.2.1, tree := mounted.1 }, mounted.2.2.isSome) := by
  refine ⟨_, rfl, ?_⟩
  simp only [mountInVfs, absolute, ne_eq, not_true_eq_false, if_false,
    (readSegments_parsePath absolute).1]
  rw [if_neg below, (readSegments_parsePath absolute).2 below]

end Absolute

theorem view_mountInVfs {vfs : MountState} {node : Address} {mountpoint : CString}
    {fresh : List Address} {label : Address → Nat} (nodeLive : vfs.heap.live node)
    (treeLive : ∀ address ∈ vfs.tree.values, vfs.heap.live address)
    (free : vfs.heap.allocatable fresh)
    (enough : fresh.length = (segmentsOf mountpoint.chars).length)
    (unlabelled : ∀ address ∈ fresh, label address = 0) :
    view (mountInVfs vfs (some node) (some mountpoint) fresh).1.heap label
          (mountInVfs vfs (some node) (some mountpoint) fresh).1.tree =
        (Vfs.mountInVfs (view vfs.heap label vfs.tree) (vfs.heap.look label node) mountpoint).1 ∧
      (mountInVfs vfs (some node) (some mountpoint) fresh).2 =
        (Vfs.mountInVfs (view vfs.heap label vfs.tree) (vfs.heap.look label node)
          mountpoint).2 := by
  by_cases absolute : mountpoint.chars.head? = some '/'
  · rw [Vfs.mountInVfs_eq _ _ _ absolute]
    by_cases root : segmentsOf mountpoint.chars = []
    · rw [mountInVfs_root vfs node fresh absolute root, if_pos root]
      cases tree : vfs.tree with
      | node here subTrees =>
          have sameStub : (vfs.heap.look label here).stub = (vfs.heap.nodes here).stub := rfl
          by_cases isStub : (vfs.heap.nodes here).stub
          · simp [mountAtRoot, view_node, sameStub, isStub]
          · simp [mountAtRoot, view_node, sameStub, isStub, tree]
    · rcases mountInVfs_below vfs node fresh absolute root with ⟨mounted, rfl, result⟩
      rw [result, if_neg root]
      apply view_mountAt vfs.heap vfs.tree enough free.1 (allocatable_notMem free nodeLive)
      · exact fun address member => allocatable_notMem free (treeLive address member)
      · exact unlabelled
  · simp [mountInVfs, Vfs.mountInVfs, absolute]

/-! ## Paths through memory -/

/-- The tree at the end of a path, with the names read from memory. -/
def reach (heap : Heap) : GenTree Address → List Name → Option (GenTree Address)
  | tree, [] => some tree
  | tree, segment :: segments =>
      (tree.subTrees.find? fun child => (heap.nodes child.data).name = segment).bind fun child =>
        reach heap child segments

theorem reach_view (heap : Heap) (label : Address → Nat) (tree : GenTree Address)
    (segments : List Name) :
    Vfs.reach (view heap label tree) segments = (reach heap tree segments).map (view heap label) := by
  induction segments generalizing tree with
  | nil => rfl
  | cons segment segments induction =>
      cases tree with
      | node here subTrees =>
          have finds : (subTrees.map (view heap label)).find? (isNamed segment) =
              (subTrees.find? fun child => (heap.nodes child.data).name = segment).map
                (view heap label) := by
            rw [List.find?_map]
            congr 2
            funext child
            exact isNamed_view heap label segment child
          rw [view_node]
          simp only [Vfs.reach, reach, GenTree.subTrees_node, finds]
          cases subTrees.find? fun child => (heap.nodes child.data).name = segment with
          | none => rfl
          | some child => exact induction child

theorem reach_congr {heap other : Heap} {tree : GenTree Address}
    (same : ∀ address ∈ tree.values, other.nodes address = heap.nodes address)
    (segments : List Name) : reach other tree segments = reach heap tree segments := by
  induction segments generalizing tree with
  | nil => rfl
  | cons segment segments induction =>
      cases tree with
      | node here subTrees =>
          have below : ∀ child ∈ subTrees, ∀ address ∈ child.values,
              other.nodes address = heap.nodes address := by
            intro child member address inside
            exact same address (GenTree.mem_values_node.mpr (.inr ⟨child, member, inside⟩))
          have finds : (subTrees.find? fun child => (other.nodes child.data).name = segment) =
              subTrees.find? fun child => (heap.nodes child.data).name = segment := by
            apply List.find?_congr
            intro child member
            rw [below child member child.data (GenTree.data_mem_values child)]
          simp only [reach, GenTree.subTrees_node, finds]
          cases found : subTrees.find? fun child => (heap.nodes child.data).name = segment with
          | none => rfl
          | some child => exact induction (below child (List.mem_of_find?_eq_some found))

theorem data_mem_of_reach {heap : Heap} {tree found : GenTree Address} {segments : List Name}
    (reached : reach heap tree segments = some found) : found.data ∈ tree.values := by
  induction segments generalizing tree with
  | nil =>
      cases reached
      exact GenTree.data_mem_values _
  | cons segment segments induction =>
      rcases Option.bind_eq_some_iff.mp reached with ⟨child, finds, rest⟩
      cases tree with
      | node here subTrees =>
          apply GenTree.mem_values_node.mpr
          exact .inr ⟨child, List.mem_of_find?_eq_some finds, induction rest⟩

theorem freed_of_childless {node here freed : Address} {segments : List Name}
    {fresh : List Address} {heap : Heap} (enough : fresh.length = segments.length)
    (frees : (mountAt node segments fresh heap (.node here [])).2.2 = some freed) :
    freed = here ∨ freed ∈ fresh := by
  induction segments generalizing fresh heap here with
  | nil =>
      rcases mountAt_nil node fresh heap here [] with ⟨-, -, result⟩ | ⟨-, result⟩
      · rw [result] at frees
        exact .inl (Option.some.inj frees).symm
      · rw [result] at frees
        cases frees
  | cons segment segments induction =>
      cases fresh with
      | nil => cases enough
      | cons created fresh =>
          rw [List.length_cons, List.length_cons, Nat.add_right_cancel_iff] at enough
          rcases mountAt_cons node segment segments (created :: fresh) heap here [] with
            ⟨before, child, after, split, -⟩ | ⟨below, rfl, result⟩
          · simp at split
          · rw [result] at frees
            exact .inr (List.mem_cons.mpr (induction enough frees))

theorem reach_of_freed {node freed : Address} {segments : List Name} {fresh : List Address}
    {heap : Heap} {tree : GenTree Address} (label : Address → Nat)
    (enough : fresh.length = segments.length) (distinct : Distinct (view heap label tree))
    (frees : (mountAt node segments fresh heap tree).2.2 = some freed) (old : freed ∉ fresh) :
    ∃ found, reach heap tree segments = some found ∧ found.data = freed ∧
      (heap.nodes freed).stub := by
  induction segments generalizing fresh tree with
  | nil =>
      cases tree with
      | node here subTrees =>
          rcases mountAt_nil node fresh heap here subTrees with ⟨-, isStub, result⟩ | ⟨-, result⟩
          · rw [result] at frees
            cases frees
            exact ⟨_, rfl, rfl, isStub⟩
          · rw [result] at frees
            cases frees
  | cons segment segments induction =>
      cases fresh with
      | nil => cases enough
      | cons created fresh =>
          rw [List.length_cons, List.length_cons, Nat.add_right_cancel_iff] at enough
          rw [List.mem_cons, not_or] at old
          cases tree with
          | node here subTrees =>
              rcases mountAt_cons node segment segments (created :: fresh) heap here subTrees with
                ⟨before, child, after, rfl, named, result⟩ | ⟨below, rfl, result⟩
              · rw [result] at frees
                rw [view_node] at distinct
                have inside := distinct.child (List.mem_map_of_mem
                  (show child ∈ before ++ child :: after by simp))
                rcases induction enough inside frees old.2 with ⟨found, reached, isFreed, isStub⟩
                have names := distinct.names
                rw [GenTree.subTrees_node, List.map_map] at names
                refine ⟨found, ?_, isFreed, isStub⟩
                simp only [reach, GenTree.subTrees_node]
                have sameNames : (fun tree : MountTree => tree.data.name) ∘ view heap label =
                    fun tree => (heap.nodes tree.data).name :=
                  funext (name_view heap label)
                rw [sameNames] at names
                rw [find?_of_names (fun tree => (heap.nodes (GenTree.data tree)).name) names named]
                exact reached
              · rw [result] at frees
                rcases freed_of_childless enough frees with isCreated | isFresh
                · exact absurd isCreated old.1
                · exact absurd isFresh old.2

/-! ## The invariant -/

theorem Distinct.relabel {heap : Heap} {label : Address → Nat} (other : Address → Nat)
    {tree : GenTree Address} (distinct : Distinct (view heap label tree)) :
    Distinct (view heap other tree) := by
  induction tree using GenTree.induct with
  | node here subTrees induction =>
      rw [view_node] at distinct ⊢
      have sameNames : (fun tree : MountTree => tree.data.name) ∘ view heap other =
          (fun tree => tree.data.name) ∘ view heap label := by
        funext tree
        exact (name_view heap other tree).trans (name_view heap label tree).symm
      refine .node ?_ fun tree member => ?_
      · have names := distinct.names
        rw [GenTree.subTrees_node, List.map_map] at names
        rw [List.map_map, sameNames]
        exact names
      · rcases List.mem_map.mp member with ⟨sub, subMember, rfl⟩
        exact induction sub subMember (distinct.child (List.mem_map_of_mem subMember))

/-- The state of the mount tree between two calls. -/
structure Sound (vfs : MountState) : Prop where
  distinct : ∀ label, Distinct (view vfs.heap label vfs.tree)
  root : vfs.rootNode = vfs.tree.data
  live : ∀ address ∈ vfs.tree.values, vfs.heap.live address

/-- The stub that the call replaces, if there is one already, is not the node itself
and is nowhere else in the tree: nothing refers to it when it is freed. -/
def replacesOnce (vfs : MountState) : Action → Prop
  | .mount (some node) (some mountpoint) _ =>
      segmentsOf mountpoint.chars ≠ [] →
      ∀ found ∈ reach vfs.heap vfs.tree (segmentsOf mountpoint.chars),
        (vfs.heap.nodes found.data).stub →
          found.data ≠ node ∧ vfs.tree.values.count found.data = 1
  | _ => True

instance (vfs : MountState) : DecidablePred (replacesOnce vfs)
  | .mount (some _) (some _) _ => inferInstanceAs (Decidable (_ → _))
  | .create _ _ => .isTrue trivial
  | .mount none _ _ => .isTrue trivial
  | .mount (some _) none _ => .isTrue trivial

theorem step_cases {vfs next : MountState} {action : Action}
    (stepped : step vfs action = some next) :
    (∃ address node, action = .create address node ∧ vfs.heap.live address = false ∧
        next = { vfs with heap := vfs.heap.create address node }) ∨
      next = vfs ∨
      ∃ node mountpoint fresh, action = .mount (some node) (some mountpoint) fresh ∧
        vfs.heap.live node ∧ vfs.heap.allocatable fresh ∧
        fresh.length = (segmentsOf mountpoint.chars).length ∧
        next = (mountInVfs vfs (some node) (some mountpoint) fresh).1 := by
  cases action with
  | create address node =>
      rcases Option.ite_none_right_eq_some.mp stepped with ⟨free, result⟩
      exact .inl ⟨address, node, rfl, free, (Option.some.inj result).symm⟩
  | mount node mountpoint fresh =>
      rcases Option.ite_none_right_eq_some.mp stepped with ⟨⟨nodeLive, free, enough⟩, result⟩
      have isNext := (Option.some.inj result).symm
      cases node with
      | none => exact .inr (.inl isNext)
      | some node =>
          cases mountpoint with
          | none => exact .inr (.inl isNext)
          | some mountpoint =>
              exact .inr (.inr ⟨node, mountpoint, fresh, rfl, nodeLive node rfl, free,
                enough mountpoint rfl, isNext⟩)

namespace Sound

variable {vfs next : MountState} (sound : Sound vfs)
include sound

theorem create {address : Address} (free : vfs.heap.live address = false) (node : VfsNode) :
    Sound { vfs with heap := vfs.heap.create address node } := by
  have old : ∀ other ∈ vfs.tree.values, other ≠ address := by
    intro other member same
    have live := sound.live other member
    rw [same, free] at live
    cases live
  refine ⟨fun label => ?_, sound.root, fun other member => ?_⟩
  · change Distinct (view (vfs.heap.create address node) label vfs.tree)
    rw [view_congr label fun other member => if_neg (old other member)]
    exact sound.distinct label
  · simp [Heap.create, sound.live other member]

theorem live_mountAt {node : Address} {segments : List Name} {fresh : List Address}
    (nodeLive : vfs.heap.live node) (free : vfs.heap.allocatable fresh)
    (enough : fresh.length = segments.length)
    (once : ∀ found ∈ reach vfs.heap vfs.tree segments, (vfs.heap.nodes found.data).stub →
      found.data ≠ node ∧ vfs.tree.values.count found.data = 1) :
    ∀ address ∈ (mountAt node segments fresh vfs.heap vfs.tree).1.values,
      (mountAt node segments fresh vfs.heap vfs.tree).2.1.live address := by
  intro address member
  rcases tree_live_mountAt nodeLive sound.live member with live | frees
  · exact live
  · have present := List.count_pos_iff.mpr member
    have count := count_mountAt node enough vfs.heap vfs.tree address
    rw [frees, List.count_singleton_self] at count
    by_cases old : address ∈ fresh
    · have notNode : node ≠ address := fun same => allocatable_notMem free (same ▸ nodeLive) old
      have notTree : address ∉ vfs.tree.values := fun inTree =>
        allocatable_notMem free (sound.live address inTree) old
      have single : fresh.count address ≤ 1 := List.nodup_iff_count_le_one.mp free.1 address
      rw [List.count_eq_zero_of_not_mem notTree, List.count_singleton, if_neg (by simp [notNode])]
        at count
      omega
    · rcases reach_of_freed _ enough (sound.distinct fun _ => 0) frees old with
        ⟨found, reached, rfl, isStub⟩
      rcases once found reached isStub with ⟨notNode, single⟩
      rw [single, List.count_eq_zero_of_not_mem old, List.count_singleton,
        if_neg (by simp [notNode.symm])] at count
      omega

theorem mount {node : Address} {mountpoint : CString} {fresh : List Address}
    (nodeLive : vfs.heap.live node) (free : vfs.heap.allocatable fresh)
    (enough : fresh.length = (segmentsOf mountpoint.chars).length)
    (once : replacesOnce vfs (.mount (some node) (some mountpoint) fresh)) :
    Sound (mountInVfs vfs (some node) (some mountpoint) fresh).1 := by
  have viewed := (view_mountInVfs nodeLive sound.live free enough
    fun address _ => (rfl : (fun _ : Address => 0) address = 0)).1
  have distinct : ∀ label, Distinct (view
      (mountInVfs vfs (some node) (some mountpoint) fresh).1.heap label
      (mountInVfs vfs (some node) (some mountpoint) fresh).1.tree) := by
    intro label
    apply Distinct.relabel
    rw [viewed]
    exact (sound.distinct fun _ => 0).mountInVfs _ _
  by_cases absolute : mountpoint.chars.head? = some '/'
  · by_cases root : segmentsOf mountpoint.chars = []
    · rw [mountInVfs_root vfs node fresh absolute root] at distinct ⊢
      by_cases isStub : (vfs.heap.nodes vfs.tree.data).stub
      case neg =>
        rw [if_neg isStub]
        exact sound
      case pos =>
        rw [if_pos isStub] at distinct ⊢
        refine ⟨distinct, rfl, fun address member => ?_⟩
        rcases GenTree.mem_values_node.mp member with rfl | below
        · exact nodeLive
        · apply sound.live
          cases tree : vfs.tree with
          | node here subTrees =>
              rw [tree] at below
              exact GenTree.mem_values_node.mpr (.inr below)
    · rcases mountInVfs_below vfs node fresh absolute root with ⟨mounted, rfl, result⟩
      rw [result] at distinct ⊢
      refine ⟨distinct, ?_, sound.live_mountAt nodeLive free enough (once root)⟩
      rw [sound.root]
      exact (data_mountAt node root fresh vfs.heap vfs.tree).symm
  · refine ⟨distinct, ?_, ?_⟩
    · simpa [mountInVfs, absolute] using sound.root
    · simpa [mountInVfs, absolute] using sound.live

theorem step {action : Action} (once : replacesOnce vfs action)
    (stepped : Memory.step vfs action = some next) : Sound next := by
  rcases step_cases stepped with ⟨address, node, -, free, rfl⟩ | rfl |
    ⟨node, mountpoint, fresh, rfl, nodeLive, free, enough, rfl⟩
  · exact sound.create free node
  · exact sound
  · exact sound.mount nodeLive free enough once

theorem reach_step {action : Action} (stepped : Memory.step vfs action = some next)
    {segments : List Name} {found : GenTree Address}
    (reached : reach vfs.heap vfs.tree segments = some found) :
    ∃ still, reach next.heap next.tree segments = some still ∧
      ((vfs.heap.nodes found.data).stub = false → still.data = found.data ∧
        (next.heap.nodes found.data).stub = false) := by
  have foundLive := sound.live _ (data_mem_of_reach reached)
  rcases step_cases stepped with ⟨address, node, -, free, rfl⟩ | rfl |
    ⟨node, mountpoint, fresh, rfl, nodeLive, free, enough, rfl⟩
  · have writes : ∀ other ∈ vfs.tree.values,
        (vfs.heap.create address node).nodes other = vfs.heap.nodes other := by
      intro other member
      apply if_neg
      intro same
      have live := sound.live other member
      rw [same, free] at live
      cases live
    refine ⟨found, (reach_congr writes segments).trans reached, fun notStub => ⟨rfl, ?_⟩⟩
    rw [writes _ (data_mem_of_reach reached)]
    exact notStub
  · exact ⟨found, reached, fun notStub => ⟨rfl, notStub⟩⟩
  · -- The label tells the node at the end of the path from all others.
    let label : Address → Nat := fun address => if address = found.data then 1 else 0
    have unlabelled : ∀ address ∈ fresh, label address = 0 := by
      intro address member
      apply if_neg
      rintro rfl
      exact allocatable_notMem free foundLive member
    have viewed := (view_mountInVfs nodeLive sound.live free enough unlabelled).1
    have viewReached := reach_view vfs.heap label vfs.tree segments
    rw [reached, Option.map_some] at viewReached
    rcases reach_of_mountInVfs (sound.distinct label) viewReached
      (vfs.heap.look label node) mountpoint with ⟨viewStill, stillReached, kept⟩
    rw [← viewed, reach_view] at stillReached
    rcases Option.map_eq_some_iff.mp stillReached with ⟨still, isStill, rfl⟩
    refine ⟨still, isStill, fun notStub => ?_⟩
    have same := kept (by rw [view, GenTree.data_map]; exact notStub)
    rw [view, view, GenTree.data_map, GenTree.data_map] at same
    have isFound : still.data = found.data := by
      by_contra different
      have labels : label still.data = label found.data := congrArg VfsNode.basePointer same
      simp [label, different] at labels
    refine ⟨isFound, ?_⟩
    rw [← isFound]
    exact (congrArg VfsNode.stub same).trans notStub

/-- A mount that succeeds puts the node at the end of its path. -/
theorem reach_mount {node : Address} {mountpoint : CString} {fresh : List Address}
    (nodeLive : vfs.heap.live node) (free : vfs.heap.allocatable fresh)
    (enough : fresh.length = (segmentsOf mountpoint.chars).length)
    (success : (mountInVfs vfs (some node) (some mountpoint) fresh).2) :
    ∃ found, reach (mountInVfs vfs (some node) (some mountpoint) fresh).1.heap
        (mountInVfs vfs (some node) (some mountpoint) fresh).1.tree
        (segmentsOf mountpoint.chars) = some found ∧
      found.data = node ∧
      ((mountInVfs vfs (some node) (some mountpoint) fresh).1.heap.nodes node).stub =
        (vfs.heap.nodes node).stub := by
  let label : Address → Nat := fun address => if address = node then 1 else 0
  have unlabelled : ∀ address ∈ fresh, label address = 0 := by
    intro address member
    apply if_neg
    rintro rfl
    exact allocatable_notMem free nodeLive member
  rcases view_mountInVfs nodeLive sound.live free enough unlabelled with ⟨viewed, sameFlag⟩
  have mounted : mountStep (view vfs.heap label vfs.tree)
      (vfs.heap.look label node, mountpoint) =
      some (Vfs.mountInVfs (view vfs.heap label vfs.tree) (vfs.heap.look label node)
        mountpoint).1 := by
    apply if_pos
    rw [← sameFlag]
    exact success
  rcases reach_mountStep (sound.distinct label) mounted with ⟨viewFound, reached, isNode⟩
  rw [← viewed, reach_view] at reached
  rcases Option.map_eq_some_iff.mp reached with ⟨found, isFound, rfl⟩
  rw [view, GenTree.data_map] at isNode
  have same : found.data = node := by
    by_contra different
    have labels : label found.data = label node := congrArg VfsNode.basePointer isNode
    simp [label, different] at labels
  refine ⟨found, isFound, same, ?_⟩
  have sameStub := congrArg VfsNode.stub isNode
  rw [same] at sameStub
  exact sameStub

end Sound

/-! ## Runs -/

theorem sound_initialiseVfsLayer (address : Address) : Sound (initialiseVfsLayer address) := by
  refine ⟨fun label => ?_, rfl, fun other member => ?_⟩
  · rw [initialiseVfsLayer, view_node]
    exact .node List.nodup_nil (by simp)
  · simp only [initialiseVfsLayer, GenTree.values, GenTree.valuesOfAll,
      List.mem_singleton] at member
    exact decide_eq_true member

theorem Sound.run {vfs final : MountState} {actions : List Action} (sound : Sound vfs)
    (allowed : Admissible Memory.step replacesOnce vfs actions)
    (reached : Execution.run Memory.step vfs actions = some final) : Sound final :=
  run_preserves (fun _ _ _ before once stepped => before.step once stepped) sound allowed reached

theorem Sound.reach_run {vfs final : MountState} {actions : List Action} (sound : Sound vfs)
    (allowed : Admissible Memory.step replacesOnce vfs actions)
    (reached : Execution.run Memory.step vfs actions = some final) {segments : List Name}
    {found : GenTree Address} (isFound : reach vfs.heap vfs.tree segments = some found) :
    ∃ still, reach final.heap final.tree segments = some still ∧
      ((vfs.heap.nodes found.data).stub = false → still.data = found.data) := by
  let invariant : MountState → Prop := fun state =>
    Sound state ∧ ∃ still, reach state.heap state.tree segments = some still ∧
      ((vfs.heap.nodes found.data).stub = false →
        still.data = found.data ∧ (state.heap.nodes found.data).stub = false)
  have preserved : ∀ state action next, invariant state → replacesOnce state action →
      Memory.step state action = some next → invariant next := by
    rintro state action next ⟨before, still, isStill, kept⟩ once stepped
    rcases before.reach_step stepped isStill with ⟨later, isLater, stays⟩
    refine ⟨before.step once stepped, later, isLater, fun notStub => ?_⟩
    rcases kept notStub with ⟨same, stillNotStub⟩
    rw [← same] at stillNotStub ⊢
    exact stays stillNotStub
  have initially : invariant vfs := ⟨sound, found, isFound, fun notStub => ⟨rfl, notStub⟩⟩
  rcases run_preserves preserved initially allowed reached with ⟨-, still, isStill, kept⟩
  exact ⟨still, isStill, fun notStub => (kept notStub).1⟩

/-- In every run in which no call frees a stub that is mounted somewhere else: names
of siblings are distinct, the root node is the data of the root tree, every path
stays and only stubs are replaced, and a node that is no stub stays where it has
been mounted. -/
theorem mount_tree_invariant {address : Address} {before after : List Action}
    {middle final : MountState}
    (allowed : Admissible step replacesOnce (initialiseVfsLayer address) (before ++ after))
    (reached : run step (initialiseVfsLayer address) before = some middle)
    (continued : run step middle after = some final) :
    (∀ label, Distinct (view final.heap label final.tree)) ∧
      final.rootNode = final.tree.data ∧
      (∀ segments found, reach middle.heap middle.tree segments = some found →
        ∃ still, reach final.heap final.tree segments = some still ∧
          ((middle.heap.nodes found.data).stub = false → still.data = found.data)) ∧
      ∀ node mountpoint fresh later,
        after = .mount (some node) (some mountpoint) fresh :: later →
        (mountInVfs middle (some node) (some mountpoint) fresh).2 →
        (middle.heap.nodes node).stub = false →
        ∃ found, reach final.heap final.tree (segmentsOf mountpoint.chars) = some found ∧
          found.data = node := by
  rcases allowed.append reached with ⟨first, second⟩
  have sound := (sound_initialiseVfsLayer address).run first reached
  have finalSound := sound.run second continued
  refine ⟨finalSound.distinct, finalSound.root, ?_, ?_⟩
  · intro segments found isFound
    exact sound.reach_run second continued isFound
  · rintro node mountpoint fresh later rfl success notStub
    rcases Option.bind_eq_some_iff.mp continued with ⟨next, stepped, rest⟩
    have nextSound := sound.step second.1 stepped
    rcases Option.ite_none_right_eq_some.mp stepped with ⟨⟨nodeLive, free, enough⟩, result⟩
    cases result
    rcases sound.reach_mount (nodeLive node rfl) free (enough mountpoint rfl) success with
      ⟨found, isFound, rfl, sameStub⟩
    rcases nextSound.reach_run (second.2 _ stepped) rest isFound with ⟨still, isStill, kept⟩
    exact ⟨still, isStill, kept (sameStub.trans notStub)⟩

/-- The path `/` followed by the characters. -/
def pathTo (chars : List Char) (noNul : nul ∉ '/' :: chars) : CString := ⟨'/' :: chars, noNul⟩

/-- Node 2, a directory `b`, is mounted at `/a/b`, and node 3, a directory `a`, in
place of the stub at `/a`. -/
def mountAboveMount : List Action :=
  [.create 2 ⟨['b'], false, 0⟩, .mount (some 2) (some (pathTo ['a', '/', 'b'] (by decide))) [4, 5],
    .create 3 ⟨['a'], false, 0⟩, .mount (some 3) (some (pathTo ['a'] (by decide))) [6]]

theorem mount_tree_invariant_mountAboveMount :
    ∃ final, run step (initialiseVfsLayer 1) mountAboveMount = some final ∧
      (∀ label, Distinct (view final.heap label final.tree)) ∧
      final.rootNode = final.tree.data := by
  have runs : (run step (initialiseVfsLayer 1) mountAboveMount).isSome := by decide
  rcases Option.isSome_iff_exists.mp runs with ⟨final, reached⟩
  have allowed : Admissible step replacesOnce (initialiseVfsLayer 1) (mountAboveMount ++ []) := by
    decide
  rcases mount_tree_invariant allowed (by simpa using reached) rfl with ⟨distinct, root, -, -⟩
  exact ⟨final, reached, distinct, root⟩

/-- Node 2, a stub directory `a`, is mounted at `/a` twice, and then node 3 at `/b/c`. -/
def mountedTwice : List Action :=
  [.create 2 (vfsCreateStubDirectory ['a']), .mount (some 2) (some (pathTo ['a'] (by decide))) [4],
    .mount (some 2) (some (pathTo ['a'] (by decide))) [5], .create 3 ⟨['c'], false, 0⟩,
    .mount (some 3) (some (pathTo ['b', '/', 'c'] (by decide))) [2, 6]]

/-- The second mount frees the node that it mounts, and the stub `b` takes its place
in memory: both siblings are named `b`. -/
theorem siblings_not_distinct :
    ¬∀ (address : Address) (actions : List Action) (final : MountState),
      run step (initialiseVfsLayer address) actions = some final →
      ∀ label, Distinct (view final.heap label final.tree) := by
  intro always
  have names : (run step (initialiseVfsLayer 1) mountedTwice).map (fun final =>
      final.tree.subTrees.map fun child => (final.heap.nodes child.data).name) =
      some [['b'], ['b']] := by decide
  rcases Option.map_eq_some_iff.mp names with ⟨final, reached, twice⟩
  have distinct := (always 1 mountedTwice final reached fun _ => 0).names
  have sameNames : (view final.heap (fun _ => 0) final.tree).subTrees.map
      (fun tree => tree.data.name) = [['b'], ['b']] := by
    rw [← twice]
    cases final.tree with
    | node here subTrees =>
        rw [view_node, GenTree.subTrees_node, List.map_map]
        exact List.map_congr_left fun child _ => name_view final.heap _ child
  rw [sameNames] at distinct
  exact absurd distinct (by decide)

end Dbos.Vfs.Memory
