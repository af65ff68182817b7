import Dbos.Kernel.Process.Process

/-! # Finding a process

`proc_find` against a search of the whole tree. The loop of `proc_find_recur` returns in
its first round for a child that holds a process, whatever that round finds, so only one
line of first children is ever looked at. -/

namespace Dbos.GenTree

variable {α : Type}

/-! ## Searching a whole tree -/

mutual
def genericTreeTraverse (evaluate : GenTree α → Bool) : GenTree α → Option (GenTree α)
  | .node data subTrees =>
      if evaluate (.node data subTrees) then some (.node data subTrees)
      else traverseAll evaluate subTrees

/-- The loop of `generic_tree_traverse`. -/
def traverseAll (evaluate : GenTree α → Bool) : List (GenTree α) → Option (GenTree α)
  | [] => none
  | tree :: trees => (genericTreeTraverse evaluate tree).or (traverseAll evaluate trees)
end

theorem traverseAll_eq_none {evaluate : GenTree α → Bool} {trees : List (GenTree α)} :
    traverseAll evaluate trees = none ↔
      ∀ tree ∈ trees, genericTreeTraverse evaluate tree = none := by
  induction trees with
  | nil => simp [traverseAll]
  | cons tree trees induction => simp [traverseAll, induction]

theorem exists_of_traverseAll {evaluate : GenTree α → Bool} {trees : List (GenTree α)}
    {found : GenTree α} (finds : traverseAll evaluate trees = some found) :
    ∃ tree ∈ trees, genericTreeTraverse evaluate tree = some found := by
  induction trees with
  | nil => cases finds
  | cons tree trees induction =>
      rw [traverseAll, Option.or_eq_some_iff] at finds
      rcases finds with here | ⟨-, later⟩
      · exact ⟨tree, by simp, here⟩
      · rcases induction later with ⟨other, member, isFound⟩
        exact ⟨other, by simp [member], isFound⟩

variable [DecidableEq α]

/-- The evaluator that compares the data of a node. -/
def hasData (value : α) (tree : GenTree α) : Bool := tree.data = value

theorem data_of_traverse {value : α} {tree found : GenTree α}
    (finds : genericTreeTraverse (hasData value) tree = some found) : found.data = value := by
  induction tree using induct with
  | node data subTrees induction =>
      rw [genericTreeTraverse] at finds
      split at finds
      case isTrue here =>
        cases finds
        exact of_decide_eq_true here
      case isFalse =>
        rcases exists_of_traverseAll finds with ⟨tree, member, isFound⟩
        exact induction tree member isFound

theorem traverse_eq_none {value : α} {tree : GenTree α} :
    genericTreeTraverse (hasData value) tree = none ↔ value ∉ tree.values := by
  induction tree using induct with
  | node data subTrees induction =>
      rw [genericTreeTraverse, mem_values_node]
      split
      case isTrue here =>
        have isData : data = value := of_decide_eq_true here
        simp [isData]
      case isFalse other =>
        have notData : value ≠ data := fun equal => other (decide_eq_true equal.symm)
        rw [traverseAll_eq_none]
        constructor
        · rintro nowhere (isData | ⟨tree, member, inside⟩)
          · exact notData isData
          · exact (induction tree member).mp (nowhere tree member) inside
        · intro absent tree member
          apply (induction tree member).mpr
          intro inside
          exact absent (.inr ⟨tree, member, inside⟩)

theorem map_data_traverse (value : α) (tree : GenTree α) :
    (genericTreeTraverse (hasData value) tree).map data =
      if value ∈ tree.values then some value else none := by
  cases finds : genericTreeTraverse (hasData value) tree with
  | none => rw [if_neg (traverse_eq_none.mp finds), Option.map_none]
  | some found =>
      have inside : value ∈ tree.values := by
        by_contra absent
        rw [traverse_eq_none.mpr absent] at finds
        cases finds
      rw [if_pos inside, Option.map_some, data_of_traverse finds]

end Dbos.GenTree

namespace Dbos.Process

open Dbos.GenTree

/-! ## Trees whose data pointers may be null

A process is named by its pid. -/

mutual
/-- `proc_find_recur`. -/
def findRecur (pid : Pid) : GenTree (Option Pid) → Option Pid
  | .node data subTrees =>
      if pid = 0 then none
      else
        match data with
        | none => none
        | some process => if process = pid then some process else findChild pid subTrees

/-- The loop of `proc_find_recur`, which goes on only past a null pointer. -/
def findChild (pid : Pid) : List (GenTree (Option Pid)) → Option Pid
  | [] => none
  | child :: rest =>
      match child.data with
      | none => findChild pid rest
      | some process => if process = pid then some process else findRecur pid child
end

/-- `proc_find`, for the pointer `process_tree`. -/
def find (processTree : Option (GenTree (Option Pid))) (pid : Pid) : Option Pid :=
  processTree.bind (findRecur pid)

theorem findRecur_map_some (pid : Pid) (tree : GenTree Pid) :
    findRecur pid (tree.map some) = procFindRecur tree pid := by
  induction tree using GenTree.induct with
  | node process subTrees induction =>
      rw [map_node]
      unfold findRecur procFindRecur
      cases subTrees with
      | nil => rfl
      | cons child rest =>
          rw [List.map_cons]
          unfold findChild
          rw [data_map, induction child (by simp)]

/-! ## The line that is looked at -/

mutual
/-- The processes from the root to the first child that holds one, and so on. -/
def searchLine : GenTree (Option Pid) → List Pid
  | .node data subTrees =>
      match data with
      | none => []
      | some process => process :: lineOfAll subTrees

def lineOfAll : List (GenTree (Option Pid)) → List Pid
  | [] => []
  | child :: rest =>
      match child.data with
      | none => lineOfAll rest
      | some _ => searchLine child
end

theorem findChild_eq {pid : Pid} {subTrees : List (GenTree (Option Pid))}
    (children : ∀ tree ∈ subTrees,
      findRecur pid tree = if pid ∈ searchLine tree then some pid else none) :
    findChild pid subTrees = if pid ∈ lineOfAll subTrees then some pid else none := by
  induction subTrees with
  | nil => simp [findChild, lineOfAll]
  | cons child rest induction =>
      have later := induction fun tree member => children tree (by simp [member])
      have here := children child (by simp)
      rw [findChild, lineOfAll]
      cases child with
      | node data grandchildren =>
          cases data with
          | none => exact later
          | some process =>
              simp only [data_node]
              split
              case isTrue same => simp [searchLine, same]
              case isFalse => exact here

theorem findRecur_eq {pid : Pid} (nonzero : pid ≠ 0) (tree : GenTree (Option Pid)) :
    findRecur pid tree = if pid ∈ searchLine tree then some pid else none := by
  induction tree using GenTree.induct with
  | node data subTrees induction =>
      unfold findRecur searchLine
      rw [if_neg nonzero]
      cases data with
      | none => simp
      | some process =>
          simp only [List.mem_cons]
          split
          case isTrue same => simp [same]
          case isFalse other =>
            have notHere : pid ≠ process := fun equal => other equal.symm
            rw [findChild_eq induction]
            simp [notHere]

mutual
theorem mem_values_of_mem_searchLine {pid : Pid} :
    ∀ {tree : GenTree (Option Pid)}, pid ∈ searchLine tree → some pid ∈ tree.values
  | .node none _, onLine => by cases onLine
  | .node (some process) subTrees, onLine => by
      rw [searchLine, List.mem_cons] at onLine
      rw [values, List.mem_cons]
      rcases onLine with here | below
      · exact .inl (congrArg some here)
      · exact .inr (mem_valuesOfAll_of_mem_lineOfAll below)

theorem mem_valuesOfAll_of_mem_lineOfAll {pid : Pid} :
    ∀ {trees : List (GenTree (Option Pid))}, pid ∈ lineOfAll trees →
      some pid ∈ valuesOfAll trees
  | [], onLine => by cases onLine
  | .node none _ :: rest, onLine =>
      List.mem_append_right _ (mem_valuesOfAll_of_mem_lineOfAll onLine)
  | .node (some _) _ :: _, onLine =>
      List.mem_append_left _ (mem_values_of_mem_searchLine onLine)
end

/-! ## Completeness -/

/-- `proc_find` returns the process that has the pid, or `NULL` if there is none, as the
search of the whole tree does. -/
def FindsAny (tree : GenTree (Option Pid)) (pid : Pid) : Prop :=
  find (some tree) pid = (if some pid ∈ tree.values then some pid else none) ∧
    find (some tree) pid = (genericTreeTraverse (hasData (some pid)) tree).bind data

/-- `proc_find` misses exactly the processes that are off the line of first children. -/
theorem findsAny_iff (tree : GenTree (Option Pid))
    (nonzero : some 0 ∉ tree.values) (pid : Pid) :
    FindsAny tree pid ↔ (some pid ∈ tree.values → pid ∈ searchLine tree) := by
  have exhaustive : (genericTreeTraverse (hasData (some pid)) tree).bind data =
      if some pid ∈ tree.values then some pid else none := by
    show (genericTreeTraverse (hasData (some pid)) tree).bind (id ∘ data) = _
    rw [← Option.bind_map, map_data_traverse]
    split <;> rfl
  unfold FindsAny
  rw [exhaustive, and_self]
  by_cases zero : pid = 0
  · have absent : some pid ∉ tree.values := fun inside => nonzero (zero ▸ inside)
    have notFound : find (some tree) pid = none := by
      rcases tree with ⟨data, subTrees⟩
      simp [find, findRecur, zero]
    simp [absent, notFound]
  · have finds : find (some tree) pid = if pid ∈ searchLine tree then some pid else none :=
      findRecur_eq zero tree
    rw [finds]
    by_cases onLine : pid ∈ searchLine tree
    · simp [onLine, mem_values_of_mem_searchLine onLine]
    · by_cases inside : some pid ∈ tree.values <;> simp [onLine, inside]

/-- The kernel with two children, the first of which has a child of its own. -/
def twoChildren : GenTree (Option Pid) :=
  .node (some 1) [.node (some 2) [.node (some 4) []], .node (some 3) []]

theorem findsAny_iff_twoChildren :
    FindsAny twoChildren 4 ∧ FindsAny twoChildren 7 :=
  ⟨(findsAny_iff twoChildren (by decide) 4).mpr (by decide),
    (findsAny_iff twoChildren (by decide) 7).mpr (by decide)⟩

theorem not_findsAny_secondChild :
    twoChildren.values.Nodup ∧ some 0 ∉ twoChildren.values ∧
      ¬FindsAny twoChildren 3 := by
  refine ⟨by decide, by decide, ?_⟩
  unfold FindsAny
  decide

end Dbos.Process
