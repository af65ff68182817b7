import Dbos.Kernel.Vfs.Lookup

/-! # Refused mounts

`mount_in_vfs` puts stubs on its way down and only then looks at the name of the
node. A mount that is refused there leaves its stubs behind. Nothing is assumed
about the tree: mounting and lookup both enter the last sibling with a name. -/

namespace Dbos.Vfs

/-! ## The descent of the code -/

/-- The last child with the name, where the sibling loops end. -/
def lastNamed (segment : Name) (tree : MountTree) : Option MountTree :=
  tree.subTrees.reverse.find? (isNamed segment)

/-- The subtree at the end of the segments, entering last matches only. -/
def descend : MountTree → List Name → Option MountTree
  | tree, [] => some tree
  | tree, segment :: segments =>
      (lastNamed segment tree).bind fun child => descend child segments

theorem lastNamed_eq_some {segment : Name} {tree child : MountTree}
    (found : lastNamed segment tree = some child) :
    isNamed segment child ∧ ∃ before after, tree.subTrees = before ++ child :: after ∧
      ∀ other ∈ after, ¬isNamed segment other := by
  rcases List.find?_eq_some_iff_append.mp found with ⟨named, after, before, split, unmatched⟩
  refine ⟨named, before.reverse, after.reverse, ?_, ?_⟩
  · rw [← List.reverse_reverse tree.subTrees, split]
    simp
  · intro other member
    simpa using unmatched other (by simpa using member)

theorem lastNamed_append {segment : Name} {data : VfsNode} (before : List MountTree)
    {child : MountTree} {after : List MountTree} (named : isNamed segment child)
    (unmatched : ∀ other ∈ after, ¬isNamed segment other) :
    lastNamed segment (.node data (before ++ child :: after)) = some child := by
  have missing : after.reverse.find? (isNamed segment) = none := by
    rw [List.find?_eq_none]
    intro other member
    exact unmatched other (by simpa using member)
  simp only [lastNamed, GenTree.subTrees_node, List.reverse_append, List.reverse_cons,
    List.append_assoc, List.find?_append, missing, Option.none_or]
  simp [named]

section UpdateLast

variable {α β : Type} {hit : α → Bool} (change : α → α × β)

theorem updateLast_of_none {items : List α} (unmatched : ∀ item ∈ items, ¬hit item) :
    updateLast hit change items = none := by
  induction items with
  | nil => rfl
  | cons item rest induction =>
      have here := unmatched item (by simp)
      have later := induction fun other member => unmatched other (by simp [member])
      simp [updateLast, later, here]

theorem updateLast_append (before : List α) {item : α} {after : List α} (isHit : hit item)
    (unmatched : ∀ other ∈ after, ¬hit other) :
    updateLast hit change (before ++ item :: after) =
      some (before ++ (change item).1 :: after, (change item).2) := by
  induction before with
  | nil => simp [updateLast, updateLast_of_none change unmatched, isHit]
  | cons first before induction =>
      rw [List.cons_append, updateLast, induction]
      rfl

end UpdateLast

theorem mountAt_of_lastNamed (node : VfsNode) {segment : Name} (segments : List Name)
    {tree child : MountTree} (found : lastNamed segment tree = some child) :
    ∃ before after, tree = .node tree.data (before ++ child :: after) ∧
      (∀ other ∈ after, ¬isNamed segment other) ∧
      mountAt node (segment :: segments) tree =
        (.node tree.data (before ++ (mountAt node segments child).1 :: after),
          (mountAt node segments child).2) := by
  rcases lastNamed_eq_some found with ⟨named, before, after, split, unmatched⟩
  cases tree with
  | node here subTrees =>
      refine ⟨before, after, ?_, unmatched, ?_⟩
      · exact congrArg (GenTree.node here) split
      · simp only [GenTree.subTrees_node] at split
        rw [mountAt, split, updateLast_append _ before named unmatched]
        rfl

theorem mountAt_of_missing (node : VfsNode) {segment : Name} (segments : List Name)
    {tree : MountTree} (missing : lastNamed segment tree = none) :
    mountAt node (segment :: segments) tree =
      (.node tree.data (tree.subTrees ++
          [(mountAt node segments (.node (vfsCreateStubDirectory segment) [])).1]),
        (mountAt node segments (.node (vfsCreateStubDirectory segment) [])).2) := by
  cases tree with
  | node here subTrees =>
      have unmatched : ∀ other ∈ subTrees, ¬isNamed segment other := by
        intro other member
        exact List.find?_eq_none.mp missing other (by simpa using member)
      rw [mountAt, updateLast_of_none _ unmatched]
      rfl

/-! ## What a refused mount leaves -/

/-- Mounting at a path that is there changes nothing but the node at its end. -/
theorem mountAt_of_descend (node : VfsNode) {segments : List Name} {tree found : MountTree}
    (arrives : descend tree segments = some found)
    (refused : (mountAt node segments tree).2 = false) :
    (mountAt node segments tree).1 = tree := by
  induction segments generalizing tree with
  | nil =>
      cases tree with
      | node here subTrees =>
          unfold mountAt at refused ⊢
          split
          case isTrue same =>
            rw [if_pos same] at refused
            split
            case isTrue isStub => simp [isStub] at refused
            case isFalse => rfl
          case isFalse => rfl
  | cons segment segments induction =>
      rcases Option.bind_eq_some_iff.mp arrives with ⟨child, named, rest⟩
      rcases mountAt_of_lastNamed node segments named with ⟨before, after, split, -, mounts⟩
      rw [mounts] at refused ⊢
      rw [induction rest refused]
      exact split.symm

/-- A mount succeeds if the node is named as the path ends and meets nothing but
a stub there. -/
theorem mountAt_success_iff (node : VfsNode) (segments : List Name) (tree : MountTree) :
    (mountAt node segments tree).2 = true ↔
      (tree.data.name :: segments).getLast? = some node.name ∧
        ∀ found, descend tree segments = some found → found.data.stub = true := by
  induction segments generalizing tree with
  | nil =>
      cases tree with
      | node here subTrees =>
          by_cases same : here.name = node.name <;> by_cases isStub : here.stub <;>
            simp [mountAt, descend, same, isStub]
  | cons segment segments induction =>
      rw [List.getLast?_cons_cons]
      cases found : lastNamed segment tree with
      | none =>
          rw [mountAt_of_missing node segments found, induction]
          have stubs : ∀ below, descend (.node (vfsCreateStubDirectory segment) []) segments =
              some below → below.data.stub = true := by
            intro below arrives
            cases segments with
            | nil =>
                cases arrives
                rfl
            | cons next segments => cases arrives
          simp only [descend, found, Option.bind_none, reduceCtorEq, false_implies,
            implies_true, and_true]
          exact and_iff_left stubs
      | some child =>
          rcases mountAt_of_lastNamed node segments found with ⟨_, _, -, -, mounts⟩
          have named : child.data.name = segment :=
            of_decide_eq_true (lastNamed_eq_some found).1
          rw [mounts, induction, named]
          simp only [descend, found, Option.bind_some]

theorem descend_mountAt (node : VfsNode) (segments : List Name) (tree : MountTree) :
    (descend (mountAt node segments tree).1 segments).isSome := by
  induction segments generalizing tree with
  | nil => rfl
  | cons segment segments induction =>
      cases found : lastNamed segment tree with
      | none =>
          have named : isNamed segment
              (mountAt node segments (.node (vfsCreateStubDirectory segment) [])).1 := by
            rw [isNamed, name_mountAt]
            exact decide_eq_true rfl
          rw [mountAt_of_missing node segments found, descend,
            lastNamed_append tree.subTrees named (by simp)]
          exact induction _
      | some child =>
          rcases mountAt_of_lastNamed node segments found with
            ⟨before, after, -, unmatched, mounts⟩
          have named : isNamed segment (mountAt node segments child).1 := by
            rw [isNamed, name_mountAt]
            exact (lastNamed_eq_some found).1
          rw [mounts, descend, lastNamed_append before named unmatched]
          exact induction _

theorem mountAt_unchanged_iff (node : VfsNode) {segments : List Name} (below : segments ≠ [])
    (tree : MountTree) :
    ((mountAt node segments tree).2 = false → (mountAt node segments tree).1 = tree) ↔
      (descend tree segments).isSome ∨ segments.getLast? = some node.name := by
  cases arrives : descend tree segments with
  | some found =>
      have kept : (mountAt node segments tree).2 = false →
          (mountAt node segments tree).1 = tree := mountAt_of_descend node arrives
      simpa using kept
  | none =>
      have there := descend_mountAt node segments tree
      have grown : (mountAt node segments tree).1 ≠ tree := by
        intro same
        rw [same, arrives] at there
        cases there
      have success := mountAt_success_iff node segments tree
      rw [List.getLast?_cons_of_ne_nil below] at success
      simp only [arrives, reduceCtorEq, false_implies, implies_true, and_true] at success
      simp only [grown, imp_false, Bool.not_eq_false, success, Option.isSome_none,
        Bool.false_eq_true, false_or]

/-! ## The operation with its arguments -/

/-- `mount_in_vfs` as its callers see it: a `NULL` argument is refused, and the
answer is the node or `NULL`. -/
def mountInVfsNode (tree : MountTree) (node : Option VfsNode) (mountpoint : Option CString) :
    MountTree × Option VfsNode :=
  match node, mountpoint with
  | some node, some mountpoint =>
      let mounted := mountInVfs tree node mountpoint
      (mounted.1, if mounted.2 then some node else none)
  | _, _ => (tree, none)

/-- The mountpoint, as far as the descent gets: not absolute, the root, or a path
that is in the tree already. -/
def Present (tree : MountTree) (mountpoint : CString) : Prop :=
  mountpoint.chars.head? = some '/' → (descend tree (segmentsOf mountpoint.chars)).isSome

/-- A refused mount leaves the tree alone exactly if an argument is `NULL`, the
mountpoint is in the tree already, or it ends in the name of the node. -/
theorem refused_unchanged_iff (tree : MountTree) (node : Option VfsNode)
    (mountpoint : Option CString) :
    ((mountInVfsNode tree node mountpoint).2 = none →
        (mountInVfsNode tree node mountpoint).1 = tree) ↔
      ∀ newNode path, node = some newNode → mountpoint = some path →
        Present tree path ∨ (segmentsOf path.chars).getLast? = some newNode.name := by
  cases node with
  | none => simp [mountInVfsNode]
  | some node =>
      cases mountpoint with
      | none => simp [mountInVfsNode]
      | some mountpoint =>
          have answered : (mountInVfsNode tree (some node) (some mountpoint)).2 = none ↔
              (mountInVfs tree node mountpoint).2 = false := by
            simp [mountInVfsNode]
          have condition : (∀ newNode path, some node = some newNode →
              some mountpoint = some path → Present tree path ∨
                (segmentsOf path.chars).getLast? = some newNode.name) ↔
              (Present tree mountpoint ∨
                (segmentsOf mountpoint.chars).getLast? = some node.name) := by
            constructor
            · intro all
              exact all node mountpoint rfl rfl
            · rintro this newNode path ⟨⟩ ⟨⟩
              exact this
          rw [answered, condition]
          change ((mountInVfs tree node mountpoint).2 = false →
            (mountInVfs tree node mountpoint).1 = tree) ↔ _
          by_cases absolute : mountpoint.chars.head? = some '/'
          · rw [mountInVfs_eq tree node mountpoint absolute]
            by_cases root : segmentsOf mountpoint.chars = []
            · have present : Present tree mountpoint := by
                intro _
                rw [root]
                rfl
              have kept : (mountAtRoot node tree).2 = false → (mountAtRoot node tree).1 = tree := by
                intro refused
                cases tree with
                | node here subTrees =>
                    by_cases isStub : here.stub
                    · simp [mountAtRoot, isStub] at refused
                    · simp [mountAtRoot, isStub]
              rw [if_pos root]
              exact ⟨fun _ => .inl present, fun _ => kept⟩
            · rw [if_neg root, mountAt_unchanged_iff node root]
              simp only [Present, absolute, forall_const]
          · have present : Present tree mountpoint := fun isAbsolute => absurd isAbsolute absolute
            have kept : (mountInVfs tree node mountpoint).1 = tree := by
              simp [mountInVfs, absolute]
            exact ⟨fun _ => .inl present, fun _ _ => kept⟩

/-- A node named `x` is refused at `/a/b`, and the stubs `a` and `b` stay. -/
theorem refused_not_unchanged :
    ¬∀ (tree : MountTree) (node : Option VfsNode) (mountpoint : Option CString),
      (mountInVfsNode tree node mountpoint).2 = none →
        (mountInVfsNode tree node mountpoint).1 = tree := by
  intro always
  have kept := always initialiseVfsLayer (some ⟨['x'], false, 1⟩)
    (some ⟨['/', 'a', '/', 'b'], by decide⟩) (by decide)
  have grown : (mountInVfsNode initialiseVfsLayer (some ⟨['x'], false, 1⟩)
      (some ⟨['/', 'a', '/', 'b'], by decide⟩)).1.subTrees.length = 1 := by decide
  rw [kept] at grown
  cases grown

end Dbos.Vfs
