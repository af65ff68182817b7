import Dbos.Foundation.Execution
import Dbos.Kernel.Vfs.Vfs

/-! # Lookup along mounts

What `vfs_find_node` is for: descend the mount tree along the segments of a path
for as long as names match, and leave the rest to the file system found there.
The code does that exactly if at every level the matching sibling is the last
one. -/

namespace Dbos.Vfs

open Dbos.Pieces

/-! ## The purpose -/

/-- Descend along the segments; the rest of the path, with its leading slash, is
for the file system of the last node. -/
def resolve (dirFind : VfsNode → List Char → Option VfsNode) :
    MountTree → List Name → Option VfsNode
  | tree, [] => some tree.data
  | tree, segment :: segments =>
      match tree.subTrees.find? (isNamed segment) with
      | some child => resolve dirFind child segments
      | none =>
          if tree.data.stub then none
          else dirFind tree.data (slashed (segment :: segments))

/-- The segments of an absolute path; the root has none. -/
def segmentsOf : List Char → List Name
  | [] => []
  | _ :: [] => []
  | _ :: rest => piecesOf '/' rest

/-- Lookup by the longest mounted prefix of the path. -/
def lookup (dirFind : VfsNode → List Char → Option VfsNode) (tree : MountTree)
    (path : CString) : Option VfsNode :=
  if path.chars.head? = some '/' then resolve dirFind tree (segmentsOf path.chars)
  else none

/-- The descent ends at a stub before the segments do. -/
def EndsAtStub : MountTree → List Name → Prop
  | _, [] => False
  | tree, segment :: segments =>
      match tree.subTrees.find? (isNamed segment) with
      | some child => EndsAtStub child segments
      | none => tree.data.stub = true

theorem resolve_of_endsAtStub (dirFind : VfsNode → List Char → Option VfsNode)
    {tree : MountTree} {segments : List Name} (ends : EndsAtStub tree segments) :
    resolve dirFind tree segments = none := by
  induction segments generalizing tree with
  | nil => cases ends
  | cons segment segments induction =>
      unfold EndsAtStub at ends
      unfold resolve
      cases found : tree.subTrees.find? (isNamed segment) with
      | some child =>
          rw [found] at ends
          exact induction ends
      | none =>
          rw [found] at ends
          simp [show tree.data.stub = true from ends]

theorem endsAtStub_of_resolve {dirFind : VfsNode → List Char → Option VfsNode}
    {tree : MountTree} {segments : List Name}
    (knows : ∀ node path, path.length ≤ (slashed segments).length → dirFind node path ≠ none)
    (missing : resolve dirFind tree segments = none) : EndsAtStub tree segments := by
  induction segments generalizing tree with
  | nil => cases missing
  | cons segment segments induction =>
      unfold resolve at missing
      unfold EndsAtStub
      cases found : tree.subTrees.find? (isNamed segment) with
      | some child =>
          rw [found] at missing
          refine induction (fun node path shorter => knows node path ?_) missing
          have split : (slashed (segment :: segments)).length =
              segment.length + 1 + (slashed segments).length :=
            length_joined_cons '/' segment segments
          omega
      | none =>
          rw [found] at missing
          by_contra notStub
          simp only [notStub] at missing
          exact knows _ _ (Nat.le_refl _) missing

/-! ## The walk of the code -/

/-- No two siblings of the tree have the same name. -/
inductive Distinct : MountTree → Prop
  | node {data : VfsNode} {subTrees : List MountTree}
      (names : (subTrees.map fun tree => tree.data.name).Nodup)
      (below : ∀ tree ∈ subTrees, Distinct tree) : Distinct (.node data subTrees)

theorem Distinct.names {tree : MountTree} (distinct : Distinct tree) :
    (tree.subTrees.map fun tree => tree.data.name).Nodup := by
  cases distinct with
  | node names _ => exact names

theorem Distinct.child {tree child : MountTree} (distinct : Distinct tree)
    (member : child ∈ tree.subTrees) : Distinct child := by
  cases distinct with
  | node _ below => exact below child member

/-- Whether the last sibling has the name. -/
def lastIsNamed (segment : Name) (tree : MountTree) : Bool :=
  tree.subTrees.getLast?.any (isNamed segment)

theorem foldl_unmatched {segment : Name} {siblings : List MountTree}
    (unmatched : ∀ tree ∈ siblings, ¬isNamed segment tree) (hit : Bool) (workTree : MountTree) :
    siblings.foldl
        (fun state child => if isNamed segment child then (true, child) else (false, state.2))
        (hit, workTree) =
      (hit && siblings.isEmpty, workTree) := by
  induction siblings generalizing hit with
  | nil => simp
  | cons tree siblings induction =>
      have here := unmatched tree (by simp)
      rw [List.foldl_cons, if_neg here,
        induction (fun other member => unmatched other (by simp [member]))]
      simp

theorem siblingLoop_of_none {segment : Name} {tree : MountTree}
    (missing : tree.subTrees.find? (isNamed segment) = none) :
    siblingLoop segment tree = (false, tree) := by
  rw [List.find?_eq_none] at missing
  exact foldl_unmatched missing false tree

/-- Where names are unique the loop ends in the match, but knows of it only if
that is the last sibling. -/
theorem siblingLoop_of_some {segment : Name} {tree child : MountTree}
    (distinct : Distinct tree) (found : tree.subTrees.find? (isNamed segment) = some child) :
    siblingLoop segment tree = (lastIsNamed segment tree, child) := by
  rcases List.find?_eq_some_iff_append.mp found with ⟨named, before, after, split, -⟩
  have names := distinct.names
  rw [split, List.map_append, List.map_cons, List.nodup_append, List.nodup_cons] at names
  have unmatched : ∀ other ∈ after, ¬isNamed segment other := by
    intro other member otherNamed
    have same : other.data.name = child.data.name :=
      (of_decide_eq_true otherNamed).trans (of_decide_eq_true named).symm
    exact names.2.1.1 (List.mem_map.mpr ⟨other, member, same⟩)
  unfold siblingLoop lastIsNamed
  rw [split, List.foldl_append, List.foldl_cons, if_pos named, foldl_unmatched unmatched]
  cases after with
  | nil => simp [named]
  | cons next rest =>
      have last := unmatched ((next :: rest).getLast (by simp)) (List.getLast_mem _)
      simp only [Bool.not_eq_true] at last
      simp [List.getLast?_eq_some_getLast, last]

/-- The loop of `vfs_find_node` over a list of segments. -/
def walk (dirFind : VfsNode → List Char → Option VfsNode) (path : List Char) :
    MountTree → List Name → Nat → Option VfsNode
  | workTree, [], _ => some workTree.data
  | workTree, segment :: segments, length =>
      let looped := siblingLoop segment workTree
      if looped.1 then walk dirFind path looped.2 segments (length + segment.length + 1)
      else if looped.2.data.stub then none
      else dirFind looped.2.data (path.drop length)

theorem findLoop_marked (dirFind : VfsNode → List Char → Option VfsNode) (path : List Char)
    {segments : List Name} (noNul : ∀ segment ∈ segments, nul ∉ segment) (more : List Name)
    (workTree : MountTree) (length : Nat) :
    findLoop dirFind path segments.length workTree (marked nul (segments ++ more)) length =
      walk dirFind path workTree segments length := by
  induction segments generalizing workTree length with
  | nil => rfl
  | cons segment segments induction =>
      have here := noNul segment (by simp)
      simp only [List.length_cons, List.cons_append, findLoop, walk, readSegment_marked here,
        nextSegment_marked here]
      rw [induction fun other member => noNul other (by simp [member])]

/-! ## When the walk resolves a path -/

/-- At every level of the descent the matching sibling is the last one; only if
the path ends at a stub anyway may the walk stop early, at a stub. -/
def MatchesLast : MountTree → List Name → Prop
  | _, [] => True
  | tree, segment :: segments =>
      match tree.subTrees.find? (isNamed segment) with
      | none => True
      | some child =>
          if lastIsNamed segment tree then MatchesLast child segments
          else child.data.stub = true ∧ EndsAtStub child segments

/-- For a path without leading slash: going down through last siblings, the walk
gets stuck at a stub before it has used up the segments. -/
def GetsStuck : MountTree → List Name → Prop
  | _, [] => False
  | tree, segment :: segments =>
      match tree.subTrees.find? (isNamed segment) with
      | none => tree.data.stub = true
      | some child =>
          if lastIsNamed segment tree then GetsStuck child segments
          else child.data.stub = true

/-- Asking a node for a path it has been reached by is right only if there is
nobody to ask: another file system would tell the two questions apart by their
length. -/
theorem asks_again_iff (child : MountTree) (segment : Name) (segments : List Name) :
    (∀ dirFind : VfsNode → List Char → Option VfsNode,
      (if child.data.stub then none else dirFind child.data (slashed (segment :: segments))) =
        resolve dirFind child segments) ↔
      child.data.stub = true ∧ EndsAtStub child segments := by
  constructor
  · intro equal
    have shorter : (slashed segments).length < (slashed (segment :: segments)).length := by
      have split : (slashed (segment :: segments)).length =
          segment.length + 1 + (slashed segments).length :=
        length_joined_cons '/' segment segments
      omega
    have ends : EndsAtStub child segments := by
      let short : VfsNode → List Char → Option VfsNode := fun node path =>
        if path.length < (slashed (segment :: segments)).length then some node else none
      have atLoss := equal short
      have missing : resolve short child segments = none := by
        rw [← atLoss]
        split <;> simp [short]
      refine endsAtStub_of_resolve (fun node path bound => ?_) missing
      simp [short, Nat.lt_of_le_of_lt bound shorter]
    refine ⟨?_, ends⟩
    by_contra notStub
    have asked := equal fun node _ => some node
    simp [notStub, resolve_of_endsAtStub _ ends] at asked
  · rintro ⟨isStub, ends⟩ dirFind
    simp [isStub, resolve_of_endsAtStub _ ends]

/-- The walk resolves a path, whatever the file systems are, exactly if it enters
last siblings only. -/
theorem walk_eq_resolve_iff {path : List Char} {tree : MountTree} {segments : List Name}
    {length : Nat} (distinct : Distinct tree) (rest : path.drop length = slashed segments) :
    (∀ dirFind, walk dirFind path tree segments length = resolve dirFind tree segments) ↔
      MatchesLast tree segments := by
  induction segments generalizing tree length with
  | nil => simp [walk, resolve, MatchesLast]
  | cons segment segments induction =>
      cases found : tree.subTrees.find? (isNamed segment) with
      | none =>
          simp only [walk, resolve, MatchesLast, siblingLoop_of_none found, found, rest]
          simp
      | some child =>
          have member := List.mem_of_find?_eq_some found
          simp only [walk, resolve, MatchesLast, siblingLoop_of_some distinct found, found, rest]
          by_cases last : lastIsNamed segment tree
          · simp only [last, if_true]
            apply induction (distinct.child member)
            rw [Nat.add_assoc, ← List.drop_drop, rest, drop_joined]
          · simp only [last]
            exact asks_again_iff child segment segments

/-- The walk over a path without leading slash finds nothing, whatever the file
systems are, exactly if it gets stuck. -/
theorem walk_eq_none_iff {path : List Char} {tree : MountTree} {segments : List Name}
    {length : Nat} (distinct : Distinct tree) :
    (∀ dirFind, walk dirFind path tree segments length = none) ↔ GetsStuck tree segments := by
  induction segments generalizing tree length with
  | nil => simp [walk, GetsStuck]
  | cons segment segments induction =>
      have asks : ∀ work : MountTree,
          (∀ dirFind : VfsNode → List Char → Option VfsNode,
            (if work.data.stub then none else dirFind work.data (path.drop length)) = none) ↔
          work.data.stub = true := by
        intro work
        constructor
        · intro missing
          by_contra notStub
          have asked := missing fun node _ => some node
          simp [notStub] at asked
        · intro isStub dirFind
          simp [isStub]
      cases found : tree.subTrees.find? (isNamed segment) with
      | none =>
          simp only [walk, GetsStuck, siblingLoop_of_none found, found]
          exact asks tree
      | some child =>
          have member := List.mem_of_find?_eq_some found
          simp only [walk, GetsStuck, siblingLoop_of_some distinct found, found]
          by_cases last : lastIsNamed segment tree
          · simp only [last, if_true]
            exact induction (distinct.child member)
          · simp only [last]
            exact asks child

/-- When `vfs_find_node` does what it is for. -/
def Walkable (tree : MountTree) (path : CString) : Prop :=
  if path.chars.head? = some '/' then MatchesLast tree (segmentsOf path.chars)
  else GetsStuck tree (piecesOf '/' path.chars.tail).dropLast

theorem vfsFindNode_eq_walk (dirFind : VfsNode → List Char → Option VfsNode) (tree : MountTree)
    {path : CString} (absolute : path.chars.head? = some '/')
    (below : segmentsOf path.chars ≠ []) :
    vfsFindNode dirFind tree path = walk dirFind path.chars tree (segmentsOf path.chars) 0 := by
  rcases path with ⟨chars, noNul⟩
  rcases List.head?_eq_some_iff.mp absolute with ⟨rest, rfl⟩
  cases rest with
  | nil => exact absurd rfl below
  | cons second more =>
      have pieces := notMem_of_mem_piecesOf '/' fun member => noNul (List.mem_cons_of_mem '/' member)
      have buffer : (parsePath ('/' :: second :: more)).2.drop 1 =
          marked nul (piecesOf '/' (second :: more)) := by
        simpa [parsePath] using map_append_mark '/' nul (second :: more)
      have count : (parsePath ('/' :: second :: more)).1 =
          (piecesOf '/' (second :: more)).length := by
        rw [length_piecesOf]
        simp [parsePath]
      have looped := findLoop_marked dirFind ('/' :: second :: more) pieces [] tree 0
      rw [List.append_nil] at looped
      simp only [vfsFindNode, count, buffer, segmentsOf]
      simpa using looped

theorem vfsFindNode_eq_lookup_iff {tree : MountTree} (distinct : Distinct tree)
    (path : CString) :
    (∀ dirFind, vfsFindNode dirFind tree path = lookup dirFind tree path) ↔
      Walkable tree path := by
  rcases path with ⟨chars, noNul⟩
  cases chars with
  | nil => simp [vfsFindNode, lookup, Walkable, parsePath, findLoop, piecesOf, GetsStuck]
  | cons char rest =>
      have pieces := notMem_of_mem_piecesOf '/' fun member => noNul (List.mem_cons_of_mem char member)
      have buffer : (parsePath (char :: rest)).2.drop 1 = marked nul (piecesOf '/' rest) := by
        simpa [parsePath] using map_append_mark '/' nul rest
      by_cases slash : char = '/'
      · subst slash
        cases rest with
        | nil => simp [vfsFindNode, lookup, Walkable, segmentsOf, resolve, MatchesLast]
        | cons second more =>
            have loops : ∀ dirFind, vfsFindNode dirFind tree ⟨_, noNul⟩ =
                walk dirFind ('/' :: second :: more) tree (piecesOf '/' (second :: more)) 0 :=
              fun dirFind => vfsFindNode_eq_walk dirFind tree rfl (piecesOf_ne_nil '/' _)
            simp only [loops, lookup, Walkable, segmentsOf, List.head?_cons, if_true]
            exact walk_eq_resolve_iff distinct (separator_cons_eq '/' (second :: more))
      · have count : (parsePath (char :: rest)).1 = (piecesOf '/' rest).dropLast.length := by
          rw [List.length_dropLast, length_piecesOf]
          simp [parsePath, List.count_cons_of_ne slash]
        have split : piecesOf '/' rest =
            (piecesOf '/' rest).dropLast ++ [(piecesOf '/' rest).getLast (piecesOf_ne_nil '/' rest)] :=
          (List.dropLast_append_getLast _).symm
        have loops : ∀ dirFind, vfsFindNode dirFind tree ⟨_, noNul⟩ =
            walk dirFind (char :: rest) tree (piecesOf '/' rest).dropLast 0 := by
          intro dirFind
          have looped := findLoop_marked dirFind (char :: rest)
            (fun segment member => pieces segment ((List.dropLast_sublist _).subset member))
            [(piecesOf '/' rest).getLast (piecesOf_ne_nil '/' rest)] tree 0
          rw [← split] at looped
          simp only [vfsFindNode, count, buffer]
          simpa [slash] using looped
        simp only [loops, lookup, Walkable, List.head?_cons, Option.some.injEq, slash,
          List.tail_cons, if_false]
        exact walk_eq_none_iff distinct

/-! ## Trees that mounting builds -/

section UpdateLast

variable {α β : Type} {hit : α → Bool} {change : α → α × β}

theorem updateLast_eq_none {items : List α} (missing : updateLast hit change items = none) :
    ∀ item ∈ items, ¬hit item := by
  induction items with
  | nil => simp
  | cons item rest induction =>
      unfold updateLast at missing
      split at missing
      case h_1 => cases missing
      case h_2 restMissing =>
        split at missing
        case isTrue => cases missing
        case isFalse unmatched =>
          intro other member
          rcases List.mem_cons.mp member with rfl | later
          · exact unmatched
          · exact induction restMissing other later

theorem updateLast_eq_some {items changed : List α} {result : β}
    (updated : updateLast hit change items = some (changed, result)) :
    ∃ before item after, items = before ++ item :: after ∧
      changed = before ++ (change item).1 :: after ∧ hit item ∧ result = (change item).2 := by
  induction items generalizing changed with
  | nil => cases updated
  | cons item rest induction =>
      unfold updateLast at updated
      split at updated
      case h_1 newRest newResult restUpdated =>
        cases updated
        rcases induction restUpdated with ⟨before, found, after, rfl, rfl, isHit, equal⟩
        exact ⟨item :: before, found, after, rfl, rfl, isHit, equal⟩
      case h_2 =>
        split at updated
        case isTrue isHit =>
          cases updated
          exact ⟨[], item, rest, rfl, rfl, isHit, rfl⟩
        case isFalse => cases updated

end UpdateLast

theorem name_mountAt (node : VfsNode) (segments : List Name) (tree : MountTree) :
    (mountAt node segments tree).1.data.name = tree.data.name := by
  cases tree with
  | node here subTrees =>
      cases segments with
      | nil =>
          unfold mountAt
          split
          case isTrue same =>
            split
            · exact same.symm
            · rfl
          case isFalse => rfl
      | cons segment segments =>
          unfold mountAt
          split <;> rfl

theorem Distinct.mountAt (node : VfsNode) (segments : List Name) {tree : MountTree}
    (distinct : Distinct tree) : Distinct (Vfs.mountAt node segments tree).1 := by
  induction segments generalizing tree with
  | nil =>
      cases distinct with
      | node names below =>
          unfold Vfs.mountAt
          split
          · split <;> exact .node names below
          · exact .node names below
  | cons segment segments induction =>
      cases distinct with
      | @node here subTrees names below =>
          unfold Vfs.mountAt
          split
          case h_1 changed success updated =>
            rcases updateLast_eq_some updated with ⟨before, child, after, rfl, rfl, -, -⟩
            refine .node ?_ fun tree member => ?_
            · simpa [name_mountAt] using names
            · rcases List.mem_append.mp member with left | right
              · exact below tree (by simp [left])
              · rcases List.mem_cons.mp right with rfl | later
                · exact induction (below child (by simp))
                · exact below tree (by simp [later])
          case h_2 missing =>
            have unmatched := updateLast_eq_none missing
            have fresh : Distinct (.node (vfsCreateStubDirectory segment) []) :=
              .node List.nodup_nil (by simp)
            refine .node ?_ fun tree member => ?_
            · rw [List.map_append, List.nodup_append]
              refine ⟨names, by simp, ?_⟩
              rintro name member _ isNew rfl
              rcases List.mem_map.mp member with ⟨child, childMember, named⟩
              refine unmatched child childMember (decide_eq_true ?_)
              simp only [List.map_cons, List.map_nil, List.mem_singleton, name_mountAt] at isNew
              rw [named, isNew]
              rfl
            · rcases List.mem_append.mp member with old | new
              · exact below tree old
              · rw [List.mem_singleton.mp new]
                exact induction fresh

/-- A mount that succeeds, as a step of the tree. -/
def mountStep (tree : MountTree) (mount : VfsNode × CString) : Option MountTree :=
  if (mountInVfs tree mount.1 mount.2).2 then some (mountInVfs tree mount.1 mount.2).1
  else none

theorem readSegments_marked {segments : List Name} (noNul : ∀ segment ∈ segments, nul ∉ segment) :
    readSegments segments.length (marked nul segments) = segments := by
  induction segments with
  | nil => rfl
  | cons segment segments induction =>
      have here := noNul segment (by simp)
      simp only [List.length_cons, readSegments, readSegment_marked here, nextSegment_marked here]
      rw [induction fun other member => noNul other (by simp [member])]

theorem readSegments_parsePath {mountpoint : CString}
    (absolute : mountpoint.chars.head? = some '/') :
    ((parsePath mountpoint.chars).1 = 1 ∧ mountpoint.chars.length = 1 ↔
        segmentsOf mountpoint.chars = []) ∧
      (segmentsOf mountpoint.chars ≠ [] →
        readSegments (parsePath mountpoint.chars).1 ((parsePath mountpoint.chars).2.drop 1) =
          segmentsOf mountpoint.chars) := by
  rcases mountpoint with ⟨chars, noNul⟩
  rcases List.head?_eq_some_iff.mp absolute with ⟨rest, rfl⟩
  cases rest with
  | nil => simp [parsePath, segmentsOf]
  | cons second more =>
      have pieces := notMem_of_mem_piecesOf '/' fun member => noNul (List.mem_cons_of_mem '/' member)
      have buffer : (parsePath ('/' :: second :: more)).2.drop 1 =
          marked nul (piecesOf '/' (second :: more)) := by
        simpa [parsePath] using map_append_mark '/' nul (second :: more)
      have count : (parsePath ('/' :: second :: more)).1 =
          (piecesOf '/' (second :: more)).length := by
        rw [length_piecesOf]
        simp [parsePath]
      have nonempty := piecesOf_ne_nil '/' (second :: more)
      refine ⟨by simp [segmentsOf, nonempty], fun _ => ?_⟩
      rw [buffer, count, readSegments_marked pieces]
      rfl

theorem mountInVfs_eq (tree : MountTree) (node : VfsNode) (mountpoint : CString)
    (absolute : mountpoint.chars.head? = some '/') :
    mountInVfs tree node mountpoint =
      if segmentsOf mountpoint.chars = [] then mountAtRoot node tree
      else mountAt node (segmentsOf mountpoint.chars) tree := by
  rcases readSegments_parsePath absolute with ⟨isRoot, reads⟩
  simp only [mountInVfs, absolute, ne_eq, not_true_eq_false, if_false, isRoot]
  split
  · rfl
  case isFalse below => rw [reads below]

theorem Distinct.mountInVfs {tree : MountTree} (distinct : Distinct tree) (node : VfsNode)
    (mountpoint : CString) : Distinct (Vfs.mountInVfs tree node mountpoint).1 := by
  by_cases absolute : mountpoint.chars.head? = some '/'
  · rw [mountInVfs_eq tree node mountpoint absolute]
    split
    · cases distinct with
      | @node here subTrees names below =>
          by_cases isStub : here.stub <;> simp only [mountAtRoot, isStub] <;>
            exact .node names below
    · exact distinct.mountAt _ _
  · simpa [Vfs.mountInVfs, absolute] using distinct

theorem Distinct.mountStep {tree next : MountTree} {mount : VfsNode × CString}
    (distinct : Distinct tree) (mounted : Vfs.mountStep tree mount = some next) :
    Distinct next := by
  unfold Vfs.mountStep at mounted
  split at mounted
  case isFalse => cases mounted
  case isTrue =>
    cases mounted
    exact distinct.mountInVfs mount.1 mount.2

theorem distinct_initialiseVfsLayer : Distinct initialiseVfsLayer :=
  .node List.nodup_nil (by simp)

theorem distinct_of_run {mounts : List (VfsNode × CString)} {tree : MountTree}
    (built : Execution.run mountStep initialiseVfsLayer mounts = some tree) : Distinct tree :=
  Execution.run_invariant (fun _ _ _ before mounted => before.mountStep mounted)
    distinct_initialiseVfsLayer built

/-! ## Mounted nodes stay mounted -/

def reach : MountTree → List Name → Option MountTree
  | tree, [] => some tree
  | tree, segment :: segments =>
      (tree.subTrees.find? (isNamed segment)).bind fun child => reach child segments

theorem resolve_of_reach (dirFind : VfsNode → List Char → Option VfsNode)
    {tree found : MountTree} {segments : List Name} (reached : reach tree segments = some found) :
    resolve dirFind tree segments = some found.data := by
  induction segments generalizing tree with
  | nil =>
      cases reached
      rfl
  | cons segment segments induction =>
      rcases Option.bind_eq_some_iff.mp reached with ⟨child, finds, rest⟩
      unfold resolve
      rw [finds]
      exact induction rest

theorem find?_of_names {α : Type} (nameOf : α → Name) {segment : Name} {before after : List α}
    {child : α} (names : ((before ++ child :: after).map nameOf).Nodup)
    (named : nameOf child = segment) :
    (before ++ child :: after).find? (fun item => nameOf item = segment) = some child := by
  rw [List.map_append, List.map_cons, List.nodup_append] at names
  have unmatched : ∀ other ∈ before, ¬decide (nameOf other = segment) = true := by
    intro other member otherNamed
    apply names.2.2 (nameOf other) (List.mem_map_of_mem member) (nameOf child) (by simp)
    exact (of_decide_eq_true otherNamed).trans named.symm
  rw [List.find?_append, List.find?_eq_none.mpr unmatched, Option.none_or]
  simp [named]

theorem find?_isNamed {segment : Name} {before after : List MountTree} {child : MountTree}
    (names : ((before ++ child :: after).map fun tree => tree.data.name).Nodup)
    (named : isNamed segment child) :
    (before ++ child :: after).find? (isNamed segment) = some child :=
  find?_of_names _ names (of_decide_eq_true named)

theorem reach_mountAt {node : VfsNode} {segments : List Name} {tree : MountTree}
    (distinct : Distinct tree) (success : (mountAt node segments tree).2) :
    ∃ mounted, reach (mountAt node segments tree).1 segments = some mounted ∧
      mounted.data = node := by
  induction segments generalizing tree with
  | nil =>
      cases tree with
      | node here subTrees =>
          unfold mountAt at success ⊢
          split at success
          case isTrue same =>
            split at success
            case isTrue isStub =>
              rw [if_pos same, if_pos isStub]
              exact ⟨_, rfl, rfl⟩
            case isFalse => cases success
          case isFalse => cases success
  | cons segment segments induction =>
      have after := distinct.mountAt node (segment :: segments)
      cases distinct with
      | @node here subTrees names below =>
          unfold mountAt at success after ⊢
          split at success
          case h_1 changed flag updated =>
            rw [updated] at after
            rcases updateLast_eq_some updated with
              ⟨before, child, later, rfl, rfl, named, rfl⟩
            rcases induction (below child (by simp)) success with ⟨mounted, reached, isNode⟩
            have renamed : isNamed segment (mountAt node segments child).1 := by
              rw [isNamed, name_mountAt]
              exact named
            refine ⟨mounted, ?_, isNode⟩
            simp only [reach, GenTree.subTrees_node]
            rw [find?_isNamed after.names renamed]
            exact reached
          case h_2 missing =>
            rw [missing] at after
            have fresh : Distinct (.node (vfsCreateStubDirectory segment) []) :=
              .node List.nodup_nil (by simp)
            rcases induction fresh success with ⟨mounted, reached, isNode⟩
            have named : isNamed segment (mountAt node segments
                (.node (vfsCreateStubDirectory segment) [])).1 := by
              rw [isNamed, name_mountAt]
              exact decide_eq_true rfl
            refine ⟨mounted, ?_, isNode⟩
            simp only [reach, GenTree.subTrees_node]
            rw [find?_isNamed after.names named]
            exact reached

theorem reach_of_mountAt (node : VfsNode) {mounts segments : List Name}
    {tree found : MountTree} (distinct : Distinct tree)
    (reached : reach tree segments = some found) :
    ∃ still, reach (mountAt node mounts tree).1 segments = some still ∧
      (found.data.stub = false → still.data = found.data) := by
  induction mounts generalizing tree segments with
  | nil =>
      cases tree with
      | node here subTrees =>
          have sameSubTrees : (mountAt node [] (.node here subTrees)).1.subTrees = subTrees := by
            unfold mountAt
            split
            · split <;> rfl
            · rfl
          cases segments with
          | nil =>
              cases reached
              refine ⟨_, rfl, fun notStub => ?_⟩
              unfold mountAt
              split
              · split
                case isTrue isStub => simp [isStub] at notStub
                case isFalse => rfl
              · rfl
          | cons segment segments =>
              refine ⟨found, ?_, fun _ => rfl⟩
              simp only [reach, sameSubTrees]
              exact reached
  | cons mount mounts induction =>
      have after := distinct.mountAt node (mount :: mounts)
      cases distinct with
      | @node here subTrees names below =>
          cases segments with
          | nil =>
              cases reached
              refine ⟨_, rfl, fun _ => ?_⟩
              unfold mountAt
              split <;> rfl
          | cons segment segments =>
              rcases Option.bind_eq_some_iff.mp reached with ⟨child, finds, rest⟩
              unfold mountAt at after ⊢
              split
              case h_1 changed flag updated =>
                rw [updated] at after
                rcases updateLast_eq_some updated with
                  ⟨before, entered, later, rfl, rfl, named, rfl⟩
                have renamed : isNamed mount (mountAt node mounts entered).1 := by
                  rw [isNamed, name_mountAt]
                  exact named
                by_cases same : segment = mount
                · subst same
                  have isEntered : child = entered :=
                    Option.some.inj (finds.symm.trans (find?_isNamed names named))
                  subst isEntered
                  rcases induction (below child (by simp)) rest with ⟨still, stays, kept⟩
                  refine ⟨still, ?_, kept⟩
                  simp only [reach, GenTree.subTrees_node]
                  rw [find?_isNamed after.names renamed]
                  exact stays
                · have other : ∀ tree : MountTree, isNamed mount tree → ¬isNamed segment tree :=
                    fun tree isMount isSegment => same <|
                      (of_decide_eq_true isSegment).symm.trans (of_decide_eq_true isMount)
                  refine ⟨found, ?_, fun _ => rfl⟩
                  simp only [GenTree.subTrees_node, List.find?_append,
                    List.find?_cons_of_neg (other _ named)] at finds
                  simp only [reach, GenTree.subTrees_node, List.find?_append,
                    List.find?_cons_of_neg (other _ renamed), finds]
                  exact rest
              case h_2 missing =>
                refine ⟨found, ?_, fun _ => rfl⟩
                simp only [reach, GenTree.subTrees_node] at finds ⊢
                rw [List.find?_append, finds]
                exact rest

theorem mountStep_eq_some {tree next : MountTree} {node : VfsNode} {mountpoint : CString}
    (mounted : mountStep tree (node, mountpoint) = some next) :
    mountpoint.chars.head? = some '/' ∧
      (segmentsOf mountpoint.chars = [] ∧ next = (mountAtRoot node tree).1 ∧
          (mountAtRoot node tree).2 ∨
        next = (mountAt node (segmentsOf mountpoint.chars) tree).1 ∧
          (mountAt node (segmentsOf mountpoint.chars) tree).2) := by
  unfold mountStep at mounted
  split at mounted
  case isFalse => cases mounted
  case isTrue success =>
    cases mounted
    by_cases absolute : mountpoint.chars.head? = some '/'
    · refine ⟨absolute, ?_⟩
      simp only [mountInVfs_eq tree node mountpoint absolute] at success ⊢
      split at success
      case isTrue root => exact .inl ⟨root, by rw [if_pos root], success⟩
      case isFalse below => exact .inr ⟨by rw [if_neg below], success⟩
    · simp [mountInVfs, absolute] at success

theorem reach_mountStep {tree next : MountTree} {node : VfsNode} {mountpoint : CString}
    (distinct : Distinct tree) (mounted : mountStep tree (node, mountpoint) = some next) :
    ∃ found, reach next (segmentsOf mountpoint.chars) = some found ∧ found.data = node := by
  rcases mountStep_eq_some mounted with ⟨-, ⟨root, rfl, success⟩ | ⟨rfl, success⟩⟩
  · rw [root]
    refine ⟨_, rfl, ?_⟩
    cases tree with
    | node here subTrees =>
        by_cases isStub : here.stub
        · simp [mountAtRoot, isStub]
        · simp [mountAtRoot, isStub] at success
  · exact reach_mountAt distinct success

theorem reach_of_mountInVfs {tree found : MountTree} {segments : List Name}
    (distinct : Distinct tree) (reached : reach tree segments = some found) (node : VfsNode)
    (mountpoint : CString) :
    ∃ still, reach (mountInVfs tree node mountpoint).1 segments = some still ∧
      (found.data.stub = false → still.data = found.data) := by
  by_cases absolute : mountpoint.chars.head? = some '/'
  · rw [mountInVfs_eq tree node mountpoint absolute]
    split
    case isFalse => exact reach_of_mountAt node distinct reached
    case isTrue =>
      cases tree with
      | node here subTrees =>
          cases segments with
          | nil =>
              cases reached
              refine ⟨_, rfl, fun notStub => ?_⟩
              simp [mountAtRoot, show here.stub = false from notStub]
          | cons segment segments =>
              refine ⟨found, ?_, fun _ => rfl⟩
              by_cases isStub : here.stub <;> simp only [mountAtRoot, isStub] <;> exact reached
  · simp only [mountInVfs, ne_eq, absolute, not_false_eq_true, if_true]
    exact ⟨found, reached, fun _ => rfl⟩

theorem reach_of_mountStep {tree next found : MountTree} {mount : VfsNode × CString}
    {segments : List Name} (distinct : Distinct tree)
    (reached : reach tree segments = some found) (notStub : found.data.stub = false)
    (mounted : mountStep tree mount = some next) :
    ∃ still, reach next segments = some still ∧ still.data = found.data := by
  unfold mountStep at mounted
  split at mounted
  case isFalse => cases mounted
  case isTrue =>
    cases mounted
    rcases reach_of_mountInVfs distinct reached mount.1 mount.2 with ⟨still, stays, kept⟩
    exact ⟨still, stays, kept notStub⟩

theorem reach_of_mounted {mounts : List (VfsNode × CString)} {tree : MountTree}
    (built : Execution.run mountStep initialiseVfsLayer mounts = some tree) {node : VfsNode}
    {mountpoint : CString} (member : (node, mountpoint) ∈ mounts) (notStub : node.stub = false) :
    mountpoint.chars.head? = some '/' ∧
      ∃ found, reach tree (segmentsOf mountpoint.chars) = some found ∧ found.data = node := by
  rcases List.append_of_mem member with ⟨before, after, rfl⟩
  rw [Execution.run_append] at built
  rcases Option.bind_eq_some_iff.mp built with ⟨earlier, reached, rest⟩
  rcases Option.bind_eq_some_iff.mp rest with ⟨middle, mounted, later⟩
  have distinct := distinct_of_run reached
  refine ⟨(mountStep_eq_some mounted).1, ?_⟩
  have preserved : ∀ tree mount next,
      (Distinct tree ∧ ∃ found, reach tree (segmentsOf mountpoint.chars) = some found ∧
        found.data = node) → mountStep tree mount = some next →
      (Distinct next ∧ ∃ found, reach next (segmentsOf mountpoint.chars) = some found ∧
        found.data = node) := by
    rintro tree mount next ⟨isDistinct, found, isReached, isNode⟩ steps
    rcases reach_of_mountStep isDistinct isReached (isNode ▸ notStub) steps with
      ⟨still, stays, same⟩
    exact ⟨isDistinct.mountStep steps, still, stays, same.trans isNode⟩
  exact (Execution.run_invariant preserved
    ⟨distinct.mountStep mounted, reach_mountStep distinct mounted⟩ later).2

/-- In every tree that mounting builds, `vfs_find_node` is the lookup by the
longest mounted prefix exactly for the walkable paths. That lookup finds what is
mounted. -/
theorem vfsFindNode_spec {mounts : List (VfsNode × CString)} {tree : MountTree}
    (built : Execution.run mountStep initialiseVfsLayer mounts = some tree) :
    (∀ path, (∀ dirFind, vfsFindNode dirFind tree path = lookup dirFind tree path) ↔
      Walkable tree path) ∧
    ∀ node mountpoint, (node, mountpoint) ∈ mounts → node.stub = false →
      ∀ dirFind, lookup dirFind tree mountpoint = some node := by
  refine ⟨vfsFindNode_eq_lookup_iff (distinct_of_run built), ?_⟩
  intro node mountpoint member notStub dirFind
  rcases reach_of_mounted built member notStub with ⟨absolute, found, reached, isNode⟩
  rw [lookup, if_pos absolute, resolve_of_reach dirFind reached, isNode]

/-- A disk with a directory `etc` mounted in it. -/
def etcOnly : List (VfsNode × CString) :=
  [(⟨['/'], false, 1⟩, ⟨['/'], by decide⟩),
    (⟨['e', 't', 'c'], false, 2⟩, ⟨['/', 'e', 't', 'c'], by decide⟩)]

theorem vfsFindNode_etcOnly :
    ∃ tree, Execution.run mountStep initialiseVfsLayer etcOnly = some tree ∧
      ((∀ dirFind, vfsFindNode dirFind tree ⟨['/', 'e', 't', 'c', '/', 'a'], by decide⟩ =
          lookup dirFind tree ⟨['/', 'e', 't', 'c', '/', 'a'], by decide⟩) ↔
        Walkable tree ⟨['/', 'e', 't', 'c', '/', 'a'], by decide⟩) := by
  rcases Option.isSome_iff_exists.mp (show (Execution.run mountStep initialiseVfsLayer
    etcOnly).isSome by decide) with ⟨tree, built⟩
  exact ⟨tree, built, (vfsFindNode_spec built).1 _⟩

/-- With a second directory mounted after it, `etc` itself is asked for `/etc`. -/
theorem vfsFindNode_not_lookup :
    ¬∀ (mounts : List (VfsNode × CString)) (tree : MountTree),
      Execution.run mountStep initialiseVfsLayer mounts = some tree →
      ∀ path dirFind, vfsFindNode dirFind tree path = lookup dirFind tree path := by
  intro always
  have missed : (Execution.run mountStep initialiseVfsLayer
      (etcOnly ++ [(⟨['v'], false, 3⟩, ⟨['/', 'v'], by decide⟩)])).map (fun tree =>
        (vfsFindNode (fun _ _ => none) tree ⟨['/', 'e', 't', 'c'], by decide⟩,
          (lookup (fun _ _ => none) tree ⟨['/', 'e', 't', 'c'], by decide⟩).isSome)) =
      some (none, true) := by decide
  rcases Option.map_eq_some_iff.mp missed with ⟨tree, built, found⟩
  rw [Prod.mk.injEq, ← always _ tree built] at found
  simp [found.1] at found

end Dbos.Vfs
