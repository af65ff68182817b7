import Mathlib.Data.List.Perm.Subperm
import Mathlib.Data.List.Nodup
import Dbos.Kernel.Process.Process

/-! # Listing the processes

`proc_get_next_in_tree` counts the nodes it comes across, but what a subtree has counted is
forgotten when the next sibling is looked at. The numbers are therefore those of an
enumeration only if no node but the last child of its parent has children. -/

namespace Dbos.GenTree

variable {α : Type}

mutual
/-- `proc_get_next_in_tree_recurs`. -/
def getNextRecurs (no : Int) : Int → GenTree α → Option α
  | curNo, .node data subTrees =>
      if no = curNo then some data else getNextInSubTrees no curNo subTrees

/-- The loop of `proc_get_next_in_tree_recurs`. -/
def getNextInSubTrees (no : Int) : Int → List (GenTree α) → Option α
  | _, [] => none
  | curNo, child :: rest =>
      (getNextRecurs no (curNo + 1) child).or (getNextInSubTrees no (curNo + 1) rest)
end

mutual
/-- The nodes in the order of the search, each with its number. -/
def numbered : Int → GenTree α → List (Int × α)
  | curNo, .node data subTrees => (curNo, data) :: numberedAll curNo subTrees

def numberedAll : Int → List (GenTree α) → List (Int × α)
  | _, [] => []
  | curNo, child :: rest => numbered (curNo + 1) child ++ numberedAll (curNo + 1) rest
end

mutual
/-- Only the last child of a node has children. -/
def Trailing : GenTree α → Prop
  | .node _ subTrees => TrailingAll subTrees

def TrailingAll : List (GenTree α) → Prop
  | [] => True
  | child :: rest => (rest = [] ∨ child.subTrees = []) ∧ Trailing child ∧ TrailingAll rest
end

theorem induct_all {motive : GenTree α → Prop} {motives : List (GenTree α) → Prop}
    (node : ∀ data subTrees, motives subTrees → motive (.node data subTrees))
    (nil : motives [])
    (cons : ∀ child rest, motive child → motives rest → motives (child :: rest)) :
    (∀ tree, motive tree) ∧ ∀ trees, motives trees :=
  ⟨fun tree => @GenTree.rec α motive motives node nil cons tree,
    fun trees => @GenTree.rec_1 α motive motives node nil cons trees⟩

/-! ## The search and the numbers -/

theorem getNext_eq (no : Int) :
    (∀ (tree : GenTree α) curNo, getNextRecurs no curNo tree =
        ((numbered curNo tree).find? fun entry => entry.1 = no).map Prod.snd) ∧
      ∀ (trees : List (GenTree α)) curNo, getNextInSubTrees no curNo trees =
        ((numberedAll curNo trees).find? fun entry => entry.1 = no).map Prod.snd := by
  apply induct_all
  · intro data subTrees subTreesHold curNo
    rw [getNextRecurs, numbered, List.find?_cons]
    by_cases here : no = curNo
    · simp [here]
    · have notHere : ¬curNo = no := fun same => here same.symm
      simp [here, notHere, subTreesHold]
  · intro curNo
    rfl
  · intro child rest childHolds restHolds curNo
    rw [getNextInSubTrees, numberedAll, List.find?_append, childHolds, restHolds]
    cases (numbered (curNo + 1) child).find? fun entry => entry.1 = no <;> rfl

theorem map_snd_numbered :
    (∀ (tree : GenTree α) curNo, (numbered curNo tree).map Prod.snd = tree.values) ∧
      ∀ (trees : List (GenTree α)) curNo,
        (numberedAll curNo trees).map Prod.snd = valuesOfAll trees := by
  apply induct_all
  · intro data subTrees subTreesHold curNo
    rw [numbered, List.map_cons, subTreesHold, values]
  · intro curNo
    rfl
  · intro child rest childHolds restHolds curNo
    rw [numberedAll, List.map_append, childHolds, restHolds, valuesOfAll]

def consecutive (first : Int) (count : Nat) : List Int :=
  (List.range count).map fun index : Nat => first + index

theorem consecutive_succ (first : Int) (count : Nat) :
    consecutive first (count + 1) = first :: consecutive (first + 1) count := by
  unfold consecutive
  rw [List.range_succ_eq_map, List.map_cons, List.map_map]
  congr 1
  · simp
  · apply List.map_congr_left
    intro index _
    simp only [Function.comp_apply]
    omega

theorem mem_consecutive {first number : Int} {count : Nat} :
    number ∈ consecutive first count ↔ first ≤ number ∧ number < first + count := by
  unfold consecutive
  rw [List.mem_map]
  constructor
  · rintro ⟨index, inRange, isNumber⟩
    rw [List.mem_range] at inRange
    omega
  · intro ⟨above, below⟩
    exact ⟨(number - first).toNat, List.mem_range.mpr (by omega), by omega⟩

theorem nodup_consecutive (first : Int) (count : Nat) : (consecutive first count).Nodup := by
  apply List.Nodup.map _ List.nodup_range
  intro left right same
  simp only at same
  omega

theorem map_fst_numbered :
    (∀ (tree : GenTree α), Trailing tree → ∀ curNo,
        (numbered curNo tree).map Prod.fst = consecutive curNo tree.values.length) ∧
      ∀ (trees : List (GenTree α)), TrailingAll trees → ∀ curNo,
        (numberedAll curNo trees).map Prod.fst =
          consecutive (curNo + 1) (valuesOfAll trees).length := by
  apply induct_all
  · intro data subTrees subTreesHold trailing curNo
    rw [Trailing] at trailing
    rw [numbered, List.map_cons, subTreesHold trailing, values, List.length_cons,
      consecutive_succ]
  · intro _ curNo
    rfl
  · intro child rest childHolds restHolds trailing curNo
    rw [TrailingAll] at trailing
    rw [numberedAll, List.map_append, valuesOfAll]
    rcases trailing.1 with isLast | noChildren
    · rw [isLast, numberedAll, valuesOfAll, List.map_nil, List.append_nil, List.append_nil]
      exact childHolds trailing.2.1 (curNo + 1)
    · cases child with
      | node data subTrees =>
          rw [subTrees_node] at noChildren
          rw [noChildren, numbered, numberedAll, List.map_cons, List.map_nil,
            restHolds trailing.2.2, values, valuesOfAll, List.singleton_append,
            List.singleton_append, List.length_cons, consecutive_succ]

theorem trailing_of_nodup :
    (∀ (tree : GenTree α) curNo, ((numbered curNo tree).map Prod.fst).Nodup → Trailing tree) ∧
      ∀ (trees : List (GenTree α)) curNo,
        ((numberedAll curNo trees).map Prod.fst).Nodup → TrailingAll trees := by
  apply induct_all
  · intro data subTrees subTreesHold curNo nodup
    rw [numbered, List.map_cons] at nodup
    rw [Trailing]
    exact subTreesHold curNo (List.nodup_cons.mp nodup).2
  · intro curNo _
    rw [TrailingAll]
    trivial
  · intro child rest childHolds restHolds curNo nodup
    rw [numberedAll, List.map_append, List.nodup_append] at nodup
    rw [TrailingAll]
    refine ⟨?_, childHolds _ nodup.1, restHolds _ nodup.2.1⟩
    cases rest with
    | nil => exact .inl rfl
    | cons next others =>
        cases child with
        | node data subTrees =>
            cases subTrees with
            | nil => exact .inr rfl
            | cons grandchild more =>
                -- Both the first grandchild and the next child get this number.
                have inChild : curNo + 1 + 1 ∈
                    (numbered (curNo + 1) (.node data (grandchild :: more))).map Prod.fst := by
                  cases grandchild
                  simp [numbered, numberedAll]
                have inRest : curNo + 1 + 1 ∈
                    (numberedAll (curNo + 1) (next :: others)).map Prod.fst := by
                  cases next
                  simp [numbered, numberedAll]
                exact absurd rfl (nodup.2.2 _ inChild _ inRest)

end Dbos.GenTree

namespace Dbos.Process

open Dbos.GenTree

/-! ## `ps` -/

/-- `proc_get_next_in_tree`. -/
def getNextInTree (processTree : GenTree Pid) (no : Int) : Option Pid :=
  getNextRecurs no 0 processTree

/-- The loop of `ps`, from the number `i` on: the processes that are listed before the first
failure. -/
def psLoop (processTree : GenTree Pid) : Nat → Int → Option (List Pid)
  | 0, _ => none
  | rounds + 1, i =>
      match getNextInTree processTree i with
      | none => some []
      | some process => (psLoop processTree rounds (i + 1)).map fun rest => process :: rest

/-- The numbers from 0 on name every process once, and `ps` lists them so. -/
def Enumerated (processTree : GenTree Pid) : Prop :=
  ∃ order : List Pid, order.Perm processTree.values ∧ order.Nodup ∧
    (∀ no : Nat, getNextInTree processTree no = order[no]?) ∧
    ∃ rounds, psLoop processTree rounds 0 = some order

theorem psLoop_eq {processTree : GenTree Pid} {order : List Pid}
    (named : ∀ no : Nat, getNextInTree processTree no = order[no]?) (count : Nat) :
    ∀ start : Nat, start + count = order.length →
      psLoop processTree (count + 1) start = some (order.drop start) := by
  induction count with
  | zero =>
      intro start atEnd
      rw [psLoop, named, List.getElem?_eq_none (by omega), List.drop_eq_nil_of_le (by omega)]
  | succ count induction =>
      intro start before
      have inside : start < order.length := by omega
      rw [psLoop, named, List.getElem?_eq_getElem inside]
      simp only
      rw [show (start : Int) + 1 = ((start + 1 : Nat) : Int) by omega,
        induction (start + 1) (by omega), List.drop_eq_getElem_cons inside, Option.map_some]

theorem getNextInTree_of_trailing {processTree : GenTree Pid} (trailing : Trailing processTree)
    (no : Nat) : getNextInTree processTree no = processTree.values[no]? := by
  have firsts := map_fst_numbered.1 processTree trailing 0
  have seconds := map_snd_numbered.1 processTree 0
  unfold getNextInTree
  rw [(getNext_eq no).1, ← seconds]
  rw [← seconds, List.length_map] at firsts
  generalize numbered 0 processTree = entries at firsts ⊢
  have numberOf : ∀ index, (inside : index < entries.length) →
      (entries.get ⟨index, inside⟩).1 = index := by
    intro index inside
    have atIndex := congrArg (fun numbers : List Int => numbers[index]?) firsts
    simp only [List.getElem?_map, List.getElem?_eq_getElem inside, Option.map_some] at atIndex
    rw [consecutive, List.getElem?_map, List.getElem?_range inside, Option.map_some,
      Option.some_inj] at atIndex
    rw [List.get_eq_getElem, atIndex, Int.zero_add]
  rw [List.getElem?_map]
  congr 1
  by_cases inside : no < entries.length
  · rw [List.getElem?_eq_getElem inside]
    apply List.find?_eq_some_iff_getElem.mpr
    refine ⟨by simpa using numberOf no inside, no, inside, rfl, ?_⟩
    intro earlier before
    have other := numberOf earlier (by omega)
    rw [List.get_eq_getElem] at other
    simp only [other, Bool.not_eq_true', decide_eq_false_iff_not]
    omega
  · rw [List.getElem?_eq_none (by omega), List.find?_eq_none]
    intro entry member
    rcases List.getElem_of_mem member with ⟨index, less, isEntry⟩
    have other := numberOf index less
    rw [List.get_eq_getElem, isEntry] at other
    simp only [other, decide_eq_true_eq]
    omega

theorem nodup_of_enumerated {processTree : GenTree Pid} (enumerated : Enumerated processTree) :
    ((numbered 0 processTree).map Prod.fst).Nodup := by
  rcases enumerated with ⟨order, perm, -, named, -⟩
  have sameLength : ((numbered 0 processTree).map Prod.fst).length = order.length := by
    rw [perm.length_eq, ← map_snd_numbered.1 processTree 0, List.length_map, List.length_map]
  have subset : consecutive 0 order.length ⊆ (numbered 0 processTree).map Prod.fst := by
    intro number member
    rw [mem_consecutive] at member
    have found := named number.toNat
    rw [Int.toNat_of_nonneg (by omega), List.getElem?_eq_getElem (by omega)] at found
    unfold getNextInTree at found
    rw [(getNext_eq number).1, Option.map_eq_some_iff] at found
    rcases found with ⟨entry, isFound, -⟩
    have isNumber : entry.1 = number := by simpa using List.find?_some isFound
    exact List.mem_map.mpr ⟨entry, List.mem_of_find?_eq_some isFound, isNumber⟩
  have subperm := List.subperm_of_subset (nodup_consecutive 0 order.length) subset
  have isPerm := subperm.perm_of_length_le (by simp [sameLength, consecutive])
  exact isPerm.nodup_iff.mp (nodup_consecutive 0 order.length)

/-- Every process is listed once if and only if no process but the last child of its parent
has children. -/
theorem enumerated_iff (processTree : GenTree Pid) (distinct : processTree.values.Nodup) :
    Enumerated processTree ↔ Trailing processTree := by
  constructor
  · intro enumerated
    exact trailing_of_nodup.1 processTree 0 (nodup_of_enumerated enumerated)
  · intro trailing
    have named := getNextInTree_of_trailing trailing
    refine ⟨processTree.values, .refl _, distinct, named, processTree.values.length + 1, ?_⟩
    exact psLoop_eq named processTree.values.length 0 (by omega)

/-- The kernel with a shell that runs a program, and a second child. -/
def busyShell : GenTree Pid := .node 1 [.node 2 [.node 3 []], .node 4 []]

theorem enumerated_iff_busyShell :
    busyShell.values.Nodup ∧ (Enumerated busyShell ↔ Trailing busyShell) :=
  ⟨by decide, enumerated_iff busyShell (by decide)⟩

/-- The second child has the number of the program and is never listed. -/
theorem not_enumerated_busyShell : ¬Enumerated busyShell := by
  intro enumerated
  have nodup := nodup_of_enumerated enumerated
  exact absurd nodup (by decide)

end Dbos.Process
