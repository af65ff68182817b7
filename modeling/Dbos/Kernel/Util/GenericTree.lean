import Mathlib.Data.List.Nodup

/-! # Generic trees

`generic_tree.c` keeps a data pointer and a linked list of subtrees in every
node. Both the process tree and the mount tree are such trees. The
`parent_tree` pointer is left implicit: a node's parent is the node whose
`sub_trees` list holds it. -/

namespace Dbos

/-- `gen_tree_t`. -/
inductive GenTree (α : Type) where
  | node (data : α) (subTrees : List (GenTree α))
deriving Repr

namespace GenTree

variable {α : Type}

def data : GenTree α → α
  | .node data _ => data

def subTrees : GenTree α → List (GenTree α)
  | .node _ subTrees => subTrees

@[simp] theorem data_node (data : α) (subTrees : List (GenTree α)) :
    (node data subTrees).data = data := rfl

@[simp] theorem subTrees_node (data : α) (subTrees : List (GenTree α)) :
    (node data subTrees).subTrees = subTrees := rfl

theorem induct {motive : GenTree α → Prop}
    (node : ∀ data subTrees, (∀ tree ∈ subTrees, motive tree) →
      motive (.node data subTrees)) (tree : GenTree α) : motive tree :=
  @GenTree.rec α motive (fun trees => ∀ tree ∈ trees, motive tree)
    node (by simp)
    (fun head rest headHolds restHolds tree member => by
      rcases List.mem_cons.mp member with equal | later
      · exact equal ▸ headHolds
      · exact restHolds tree later)
    tree

mutual
/-- Every data pointer of the tree, a node before its subtrees. -/
def values : GenTree α → List α
  | .node data subTrees => data :: valuesOfAll subTrees

def valuesOfAll : List (GenTree α) → List α
  | [] => []
  | tree :: trees => tree.values ++ valuesOfAll trees
end

mutual
/-- The tree with other data in the same places. -/
def map {β : Type} (change : α → β) : GenTree α → GenTree β
  | .node data subTrees => .node (change data) (mapAll change subTrees)

def mapAll {β : Type} (change : α → β) : List (GenTree α) → List (GenTree β)
  | [] => []
  | tree :: trees => tree.map change :: mapAll change trees
end

theorem mapAll_eq {β : Type} (change : α → β) (trees : List (GenTree α)) :
    mapAll change trees = trees.map (map change) := by
  induction trees with
  | nil => rfl
  | cons tree trees induction => simp [mapAll, induction]

@[simp] theorem map_node {β : Type} (change : α → β) (data : α) (subTrees : List (GenTree α)) :
    (node data subTrees).map change = .node (change data) (subTrees.map (map change)) := by
  rw [map, mapAll_eq]

@[simp] theorem data_map {β : Type} (change : α → β) (tree : GenTree α) :
    (tree.map change).data = change tree.data := by
  cases tree
  rw [map_node, data_node, data_node]

theorem mem_valuesOfAll {trees : List (GenTree α)} {value : α} :
    value ∈ valuesOfAll trees ↔ ∃ tree ∈ trees, value ∈ tree.values := by
  induction trees with
  | nil => simp [valuesOfAll]
  | cons tree trees induction => simp [valuesOfAll, induction]

theorem mem_values_node {data value : α} {subTrees : List (GenTree α)} :
    value ∈ (node data subTrees).values ↔
      value = data ∨ ∃ tree ∈ subTrees, value ∈ tree.values := by
  simp [values, mem_valuesOfAll]

theorem data_mem_values (tree : GenTree α) : tree.data ∈ tree.values := by
  cases tree
  simp [values]

theorem map_congr {β : Type} {change other : α → β} {tree : GenTree α}
    (same : ∀ value ∈ tree.values, change value = other value) :
    tree.map change = tree.map other := by
  induction tree using induct with
  | node data subTrees induction =>
      rw [map_node, map_node, same data (by simp [values])]
      congr 1
      apply List.map_congr_left
      intro tree member
      apply induction tree member
      intro value inside
      exact same value (mem_values_node.mpr (.inr ⟨tree, member, inside⟩))

theorem valuesOfAll_append (left right : List (GenTree α)) :
    valuesOfAll (left ++ right) = valuesOfAll left ++ valuesOfAll right := by
  induction left with
  | nil => rfl
  | cons tree left induction => simp [valuesOfAll, induction]

/-! ## Families -/

mutual
/-- Every value of the tree together with those of its children. -/
def families : GenTree α → List (α × List α)
  | .node data subTrees => (data, subTrees.map GenTree.data) :: familiesOfAll subTrees

def familiesOfAll : List (GenTree α) → List (α × List α)
  | [] => []
  | tree :: trees => tree.families ++ familiesOfAll trees
end

theorem mem_familiesOfAll {trees : List (GenTree α)} {family : α × List α} :
    family ∈ familiesOfAll trees ↔ ∃ tree ∈ trees, family ∈ tree.families := by
  induction trees with
  | nil => simp [familiesOfAll]
  | cons tree trees induction => simp [familiesOfAll, induction]

theorem mem_families_node {data : α} {subTrees : List (GenTree α)} {family : α × List α} :
    family ∈ (node data subTrees).families ↔
      family = (data, subTrees.map GenTree.data) ∨ ∃ tree ∈ subTrees, family ∈ tree.families := by
  simp [families, mem_familiesOfAll]

theorem map_fst_families (tree : GenTree α) : tree.families.map Prod.fst = tree.values := by
  induction tree using induct with
  | node data subTrees induction =>
      have children : (familiesOfAll subTrees).map Prod.fst = valuesOfAll subTrees := by
        induction subTrees with
        | nil => rfl
        | cons tree rest restInduction =>
            rw [familiesOfAll, valuesOfAll, List.map_append, induction tree (by simp),
              restInduction fun other member => induction other (by simp [member])]
      rw [families, values, List.map_cons, children]

theorem exists_family {tree : GenTree α} {value : α} (member : value ∈ tree.values) :
    ∃ children, (value, children) ∈ tree.families := by
  rw [← map_fst_families] at member
  rcases List.mem_map.mp member with ⟨⟨_, children⟩, isFamily, rfl⟩
  exact ⟨children, isFamily⟩

theorem family_unique {tree : GenTree α} (nodup : tree.values.Nodup) {value : α}
    {children others : List α} (isFamily : (value, children) ∈ tree.families)
    (isOther : (value, others) ∈ tree.families) : children = others := by
  rw [← map_fst_families] at nodup
  exact congrArg Prod.snd (List.inj_on_of_nodup_map nodup isFamily isOther rfl)

theorem mem_values_of_family {tree : GenTree α} {value : α} {children : List α}
    (isFamily : (value, children) ∈ tree.families) : value ∈ tree.values := by
  rw [← map_fst_families]
  exact List.mem_map_of_mem isFamily

theorem child_mem_values {tree : GenTree α} {value child : α} {children : List α}
    (isFamily : (value, children) ∈ tree.families) (isChild : child ∈ children) :
    child ∈ tree.values := by
  induction tree using induct with
  | node data subTrees induction =>
      rw [mem_values_node]
      right
      rcases mem_families_node.mp isFamily with same | ⟨tree, member, inside⟩
      · cases same
        rcases List.mem_map.mp isChild with ⟨tree, member, isData⟩
        exact ⟨tree, member, isData ▸ tree.data_mem_values⟩
      · exact ⟨tree, member, induction tree member inside⟩

/-- Every value but the root's is somebody's child. -/
theorem exists_parent {tree : GenTree α} {value : α} (member : value ∈ tree.values)
    (notRoot : value ≠ tree.data) :
    ∃ parent children, (parent, children) ∈ tree.families ∧ value ∈ children := by
  induction tree using induct with
  | node data subTrees induction =>
      rcases mem_values_node.mp member with same | ⟨tree, inside, below⟩
      · exact absurd same notRoot
      · by_cases isChild : value = tree.data
        · refine ⟨data, subTrees.map GenTree.data, mem_families_node.mpr (.inl rfl), ?_⟩
          exact List.mem_map.mpr ⟨tree, inside, isChild.symm⟩
        · rcases induction tree inside below isChild with ⟨parent, children, isFamily, among⟩
          exact ⟨parent, children, mem_families_node.mpr (.inr ⟨tree, inside, isFamily⟩), among⟩

theorem nodup_of_mem {trees : List (GenTree α)} (nodup : (valuesOfAll trees).Nodup)
    {tree : GenTree α} (member : tree ∈ trees) : tree.values.Nodup := by
  induction trees with
  | nil => cases member
  | cons head trees induction =>
      have parts := List.nodup_append.mp nodup
      rcases List.mem_cons.mp member with same | later
      · exact same ▸ parts.1
      · exact induction parts.2.1 later

theorem parent_notMem_children {tree : GenTree α} (nodup : tree.values.Nodup)
    {parent child : α} {children grandchildren : List α}
    (isFamily : (parent, children) ∈ tree.families) (isChild : child ∈ children)
    (childFamily : (child, grandchildren) ∈ tree.families) : parent ∉ grandchildren := by
  induction tree using induct generalizing grandchildren with
  | node here subTrees induction =>
      intro isGrandchild
      have distinct := nodup
      rw [values, List.nodup_cons] at distinct
      -- Whoever is a child is below the root.
      have below : ∀ {value : α} {kids : List α} {kid : α},
          (value, kids) ∈ (node here subTrees).families → kid ∈ kids →
          kid ∈ valuesOfAll subTrees := by
        intro value kids kid kin isKid
        apply mem_valuesOfAll.mpr
        rcases mem_families_node.mp kin with same | ⟨tree, member, inside⟩
        · cases same
          rcases List.mem_map.mp isKid with ⟨tree, member, isData⟩
          exact ⟨tree, member, isData ▸ tree.data_mem_values⟩
        · exact ⟨tree, member, child_mem_values inside isKid⟩
      rcases mem_families_node.mp isFamily with same | ⟨tree, member, inside⟩
      · cases same
        exact distinct.1 (below childFamily isGrandchild)
      · rcases exists_family (child_mem_values inside isChild) with ⟨kids, kin⟩
        have sameKids := family_unique nodup childFamily
          (mem_families_node.mpr (.inr ⟨tree, member, kin⟩))
        rw [sameKids] at isGrandchild
        exact induction tree member (nodup_of_mem distinct.2 member) inside kin isGrandchild

section Edit

variable [DecidableEq α]

mutual
/-- `generic_tree_create` below an existing node: the new leaf goes to the end
of the `sub_trees` of the node that holds `parent`. -/
def createUnder (parent data : α) : GenTree α → GenTree α
  | .node here subTrees =>
      if here = parent then .node here (subTrees ++ [.node data []])
      else .node here (createUnderAll parent data subTrees)

def createUnderAll (parent data : α) : List (GenTree α) → List (GenTree α)
  | [] => []
  | tree :: trees => tree.createUnder parent data :: createUnderAll parent data trees
end

mutual
/-- Take the node holding `value` out of the tree. Its subtrees are first
appended to the `sub_trees` of its parent, and only then is the node itself
unlinked from there. -/
def dissolve (value : α) : GenTree α → GenTree α
  | .node here subTrees =>
      match subTrees.find? fun tree => tree.data = value with
      | some found =>
          .node here ((subTrees ++ found.subTrees).eraseP fun tree => tree.data = value)
      | none => .node here (dissolveAll value subTrees)

def dissolveAll (value : α) : List (GenTree α) → List (GenTree α)
  | [] => []
  | tree :: trees => tree.dissolve value :: dissolveAll value trees
end

/-! ### Which values a tree holds after an edit -/

theorem count_createUnder_of_ne {parent data value : α} (different : value ≠ data)
    (tree : GenTree α) :
    (tree.createUnder parent data).values.count value = tree.values.count value := by
  induction tree using GenTree.induct with
  | node here subTrees induction =>
      have children : (valuesOfAll (createUnderAll parent data subTrees)).count value =
          (valuesOfAll subTrees).count value := by
        induction subTrees with
        | nil => rfl
        | cons tree rest restInduction =>
            have others := restInduction fun other member => induction other (by simp [member])
            simp only [createUnderAll, valuesOfAll, List.count_append, others,
              induction tree (by simp)]
      unfold createUnder
      split
      case isTrue => simp [values, valuesOfAll_append, valuesOfAll, List.count_cons,
        different.symm]
      case isFalse => simp only [values, List.count_cons, children]

theorem count_createUnder_self (parent data : α) (tree : GenTree α) :
    (tree.createUnder parent data).values.count data ≤
      tree.values.count data + tree.values.count parent := by
  induction tree using GenTree.induct with
  | node here subTrees induction =>
      have children : (valuesOfAll (createUnderAll parent data subTrees)).count data ≤
          (valuesOfAll subTrees).count data + (valuesOfAll subTrees).count parent := by
        induction subTrees with
        | nil => simp [createUnderAll, valuesOfAll]
        | cons tree rest restInduction =>
            have first := induction tree (by simp)
            have others := restInduction fun other member => induction other (by simp [member])
            simp only [createUnderAll, valuesOfAll, List.count_append]
            omega
      unfold createUnder
      split
      case isTrue found =>
        simp only [values, valuesOfAll_append, valuesOfAll, List.count_cons,
          List.count_append, List.count_nil, found, BEq.rfl, if_true]
        omega
      case isFalse =>
        simp only [values, List.count_cons]
        omega

theorem mem_createUnder {parent data value : α} {tree : GenTree α}
    (member : value ∈ (tree.createUnder parent data).values) :
    value ∈ tree.values ∨ value = data := by
  by_cases new : value = data
  · exact .inr new
  · rw [← List.count_pos_iff, count_createUnder_of_ne new] at member
    exact .inl (List.count_pos_iff.mp member)

theorem data_mem_createUnder {parent data : α} {tree : GenTree α}
    (member : parent ∈ tree.values) : data ∈ (tree.createUnder parent data).values := by
  induction tree using GenTree.induct with
  | node here subTrees induction =>
      rw [createUnder]
      split
      case isTrue =>
        apply mem_values_node.mpr
        exact .inr ⟨.node data [], by simp, by simp [values]⟩
      case isFalse notHere =>
        rcases mem_values_node.mp member with same | ⟨tree, inside, below⟩
        · exact absurd same.symm notHere
        · apply mem_values_node.mpr
          refine .inr ⟨tree.createUnder parent data, ?_, induction tree inside below⟩
          clear induction member
          induction subTrees with
          | nil => cases inside
          | cons head rest restInduction =>
              rw [createUnderAll]
              rcases List.mem_cons.mp inside with same | later
              · rw [same]
                exact List.mem_cons_self
              · exact List.mem_cons_of_mem _ (restInduction later)

theorem mem_createUnder_of_mem {parent data value : α} {tree : GenTree α}
    (member : value ∈ tree.values) (different : value ≠ data) :
    value ∈ (tree.createUnder parent data).values := by
  rw [← List.count_pos_iff, count_createUnder_of_ne different]
  exact List.count_pos_iff.mpr member

theorem nodup_createUnder {parent data : α} {tree : GenTree α} (nodup : tree.values.Nodup)
    (fresh : data ∉ tree.values) : (tree.createUnder parent data).values.Nodup := by
  rw [List.nodup_iff_count_le_one] at nodup ⊢
  intro value
  by_cases new : value = data
  · subst new
    have bound := tree.count_createUnder_self parent value
    have parents := nodup parent
    rw [List.count_eq_zero_of_not_mem fresh] at bound
    omega
  · rw [count_createUnder_of_ne new]
    exact nodup value

theorem createUnder_data (parent data : α) (tree : GenTree α) :
    (tree.createUnder parent data).data = tree.data := by
  cases tree
  unfold createUnder
  split <;> rfl

theorem perm_eraseP {value : α} {subTrees : List (GenTree α)} {found : GenTree α}
    (finds : subTrees.find? (fun tree => tree.data = value) = some found) :
    (valuesOfAll subTrees).Perm (value :: valuesOfAll
      ((subTrees ++ found.subTrees).eraseP fun tree => tree.data = value)) := by
  rcases List.find?_eq_some_iff_append.mp finds with ⟨isValue, left, right, split, others⟩
  have erased : (subTrees ++ found.subTrees).eraseP (fun tree => tree.data = value) =
      left ++ (right ++ found.subTrees) := by
    have unmatched : ∀ tree ∈ left, ¬decide (tree.data = value) = true :=
      fun tree member => by simpa using others tree member
    rw [split, List.append_assoc, List.eraseP_append_right _ unmatched, List.cons_append]
    simp only [List.eraseP_cons, isValue, cond_true]
  have opened : found.values = value :: valuesOfAll found.subTrees := by
    cases found
    simp only [decide_eq_true_eq] at isValue
    simp [values, ← isValue]
  rw [erased, split]
  simp only [valuesOfAll_append, valuesOfAll, opened]
  rw [List.perm_iff_count]
  intro other
  simp only [List.count_append, List.count_cons, List.cons_append]
  omega

/-- Everything but the dissolved node stays in the tree. -/
theorem count_dissolve_of_ne {value other : α} (different : other ≠ value)
    (tree : GenTree α) :
    (tree.dissolve value).values.count other = tree.values.count other := by
  induction tree using GenTree.induct with
  | node here subTrees induction =>
      have children : (valuesOfAll (dissolveAll value subTrees)).count other =
          (valuesOfAll subTrees).count other := by
        induction subTrees with
        | nil => rfl
        | cons tree rest restInduction =>
            have others := restInduction fun other member => induction other (by simp [member])
            simp only [dissolveAll, valuesOfAll, List.count_append, others,
              induction tree (by simp)]
      unfold dissolve
      split
      case h_1 found finds =>
        simp only [values, List.count_cons, (perm_eraseP finds).count_eq other]
        simp [different.symm]
      case h_2 => simp only [values, List.count_cons, children]

theorem notMem_dissolve {value : α} {tree : GenTree α} (nodup : tree.values.Nodup)
    (notRoot : tree.data ≠ value) : value ∉ (tree.dissolve value).values := by
  induction tree using GenTree.induct with
  | node here subTrees induction =>
      rw [values, List.nodup_cons] at nodup
      unfold dissolve
      split
      case h_1 found finds =>
        rw [values, List.mem_cons, not_or]
        refine ⟨notRoot.symm, ?_⟩
        exact (List.nodup_cons.mp ((perm_eraseP finds).nodup nodup.2)).1
      case h_2 finds =>
        rw [values, List.mem_cons, not_or]
        refine ⟨notRoot.symm, ?_⟩
        have distinct := nodup.2
        clear nodup
        induction subTrees with
        | nil => simp [dissolveAll, valuesOfAll]
        | cons tree rest restInduction =>
            rw [List.find?_eq_none] at finds
            simp only [dissolveAll, valuesOfAll, List.mem_append, not_or]
            rw [valuesOfAll, List.nodup_append] at distinct
            refine ⟨induction tree (by simp) distinct.1 (by simpa using finds tree), ?_⟩
            refine restInduction (fun other member => induction other (by simp [member]))
              notRoot ?_ distinct.2.1
            exact List.find?_eq_none.mpr fun other member => finds other (by simp [member])

theorem mem_of_mem_dissolve {value other : α} {tree : GenTree α}
    (nodup : tree.values.Nodup) (notRoot : tree.data ≠ value)
    (member : other ∈ (tree.dissolve value).values) : other ∈ tree.values ∧ other ≠ value := by
  have different : other ≠ value := by
    rintro rfl
    exact notMem_dissolve nodup notRoot member
  refine ⟨?_, different⟩
  rw [← List.count_pos_iff, count_dissolve_of_ne different] at member
  exact List.count_pos_iff.mp member

theorem mem_dissolve_of_mem {value other : α} {tree : GenTree α}
    (member : other ∈ tree.values) (different : other ≠ value) :
    other ∈ (tree.dissolve value).values := by
  rw [← List.count_pos_iff, count_dissolve_of_ne different]
  exact List.count_pos_iff.mpr member

theorem nodup_dissolve {value : α} {tree : GenTree α} (nodup : tree.values.Nodup)
    (notRoot : tree.data ≠ value) : (tree.dissolve value).values.Nodup := by
  rw [List.nodup_iff_count_le_one] at nodup ⊢
  intro other
  by_cases same : other = value
  · subst same
    rw [List.count_eq_zero_of_not_mem
      (notMem_dissolve (List.nodup_iff_count_le_one.mpr nodup) notRoot)]
    exact Nat.zero_le 1
  · rw [count_dissolve_of_ne same]
    exact nodup other

theorem dissolve_data (value : α) (tree : GenTree α) :
    (tree.dissolve value).data = tree.data := by
  cases tree
  unfold dissolve
  split <;> rfl

/-! ### Families after an edit -/

theorem map_data_createUnderAll (parent data : α) (trees : List (GenTree α)) :
    (createUnderAll parent data trees).map GenTree.data = trees.map GenTree.data := by
  induction trees with
  | nil => rfl
  | cons tree trees induction =>
      rw [createUnderAll, List.map_cons, List.map_cons, createUnder_data, induction]

theorem mem_createUnderAll {parent data : α} {trees : List (GenTree α)} {tree : GenTree α}
    (member : tree ∈ createUnderAll parent data trees) :
    ∃ before ∈ trees, tree = before.createUnder parent data := by
  induction trees with
  | nil => cases member
  | cons head trees induction =>
      rcases List.mem_cons.mp member with same | later
      · exact ⟨head, List.mem_cons_self, same⟩
      · rcases induction later with ⟨before, inside, same⟩
        exact ⟨before, List.mem_cons_of_mem _ inside, same⟩

theorem mem_families_createUnder {parent data value : α} {children : List α} {tree : GenTree α}
    (nodup : tree.values.Nodup)
    (isFamily : (value, children) ∈ (tree.createUnder parent data).families) :
    (value = data ∧ children = []) ∨
      (value = parent ∧ ∃ before, (parent, before) ∈ tree.families ∧
        children = before ++ [data]) ∨
      (value ≠ parent ∧ (value, children) ∈ tree.families) := by
  induction tree using GenTree.induct with
  | node here subTrees induction =>
      rw [values, List.nodup_cons] at nodup
      rw [createUnder] at isFamily
      split at isFamily
      case isTrue isParent =>
        rcases mem_families_node.mp isFamily with same | ⟨tree, member, inside⟩
        · cases same
          right
          left
          refine ⟨isParent, subTrees.map GenTree.data, ?_, by simp⟩
          exact mem_families_node.mpr (.inl (by rw [isParent]))
        · rcases List.mem_append.mp member with old | new
          · right
            right
            refine ⟨?_, mem_families_node.mpr (.inr ⟨tree, old, inside⟩)⟩
            intro same
            apply nodup.1
            rw [isParent, ← same]
            exact mem_valuesOfAll.mpr ⟨tree, old, mem_values_of_family inside⟩
          · left
            rw [List.mem_singleton.mp new, mem_families_node] at inside
            simpa using inside
      case isFalse notParent =>
        rcases mem_families_node.mp isFamily with same | ⟨tree, member, inside⟩
        · cases same
          right
          right
          refine ⟨notParent, mem_families_node.mpr (.inl ?_)⟩
          rw [map_data_createUnderAll]
        · rcases mem_createUnderAll member with ⟨before, old, isCreated⟩
          rw [isCreated] at inside
          have distinct : before.values.Nodup := nodup_of_mem nodup.2 old
          rcases induction before old distinct inside with new | ⟨isParent, kids, kin, same⟩ |
            ⟨other, kin⟩
          · exact .inl new
          · exact .inr (.inl ⟨isParent, kids, mem_families_node.mpr (.inr ⟨before, old, kin⟩),
              same⟩)
          · exact .inr (.inr ⟨other, mem_families_node.mpr (.inr ⟨before, old, kin⟩)⟩)

theorem map_data_dissolveAll (value : α) (trees : List (GenTree α)) :
    (dissolveAll value trees).map GenTree.data = trees.map GenTree.data := by
  induction trees with
  | nil => rfl
  | cons tree trees induction =>
      rw [dissolveAll, List.map_cons, List.map_cons, dissolve_data, induction]

theorem mem_dissolveAll {value : α} {trees : List (GenTree α)} {tree : GenTree α}
    (member : tree ∈ dissolveAll value trees) :
    ∃ before ∈ trees, tree = before.dissolve value := by
  induction trees with
  | nil => cases member
  | cons head trees induction =>
      rcases List.mem_cons.mp member with same | later
      · exact ⟨head, List.mem_cons_self, same⟩
      · rcases induction later with ⟨before, inside, same⟩
        exact ⟨before, List.mem_cons_of_mem _ inside, same⟩

theorem mem_families_dissolve {gone value : α} {children : List α} {tree : GenTree α}
    (nodup : tree.values.Nodup) (notRoot : tree.data ≠ gone)
    (isFamily : (value, children) ∈ (tree.dissolve gone).families) :
    ((value, children) ∈ tree.families ∧ gone ∉ children) ∨
      ∃ siblings orphans, (value, siblings) ∈ tree.families ∧ (gone, orphans) ∈ tree.families ∧
        gone ∈ siblings ∧ children = (siblings ++ orphans).erase gone := by
  induction tree using GenTree.induct with
  | node here subTrees induction =>
      rw [values, List.nodup_cons] at nodup
      rw [dissolve] at isFamily
      split at isFamily
      case h_1 found finds =>
        have isGone : found.data = gone := by simpa using List.find?_some finds
        have among : found ∈ subTrees := List.mem_of_find?_eq_some finds
        have erased : ∀ tree ∈ (subTrees ++ found.subTrees).eraseP
            (fun tree => tree.data = gone), gone ∉ tree.values := by
          intro tree member inside
          have perm := (perm_eraseP finds).nodup_iff.mp nodup.2
          exact (List.nodup_cons.mp perm).1 (mem_valuesOfAll.mpr ⟨tree, member, inside⟩)
        rcases mem_families_node.mp isFamily with same | ⟨tree, member, inside⟩
        · cases same
          right
          refine ⟨subTrees.map GenTree.data, found.subTrees.map GenTree.data,
            mem_families_node.mpr (.inl rfl), ?_, List.mem_map.mpr ⟨found, among, isGone⟩, ?_⟩
          · apply mem_families_node.mpr
            right
            refine ⟨found, among, ?_⟩
            cases found
            rw [← isGone]
            exact mem_families_node.mpr (.inl rfl)
          · rw [← List.map_append, List.erase_eq_eraseP, List.eraseP_map]
            congr 2
            funext tree
            apply Bool.eq_iff_iff.mpr
            rw [Function.comp_apply, beq_iff_eq, decide_eq_true_eq]
            exact eq_comm
        · left
          constructor
          · rcases List.mem_append.mp (List.mem_of_mem_eraseP member) with old | orphan
            · exact mem_families_node.mpr (.inr ⟨tree, old, inside⟩)
            · apply mem_families_node.mpr
              right
              refine ⟨found, among, ?_⟩
              cases found
              exact mem_families_node.mpr (.inr ⟨tree, orphan, inside⟩)
          · intro isChild
            exact erased tree member (child_mem_values inside isChild)
      case h_2 finds =>
        have absent : gone ∉ subTrees.map GenTree.data := by
          intro member
          rcases List.mem_map.mp member with ⟨tree, inside, isGone⟩
          have unmatched := List.find?_eq_none.mp finds tree inside
          exact unmatched (by simpa using isGone)
        rcases mem_families_node.mp isFamily with same | ⟨tree, member, inside⟩
        · cases same
          left
          rw [map_data_dissolveAll]
          exact ⟨mem_families_node.mpr (.inl rfl), absent⟩
        · rcases mem_dissolveAll member with ⟨before, old, isDissolved⟩
          rw [isDissolved] at inside
          have notChild : before.data ≠ gone := by
            intro same
            exact absent (List.mem_map.mpr ⟨before, old, same⟩)
          rcases induction before old (nodup_of_mem nodup.2 old) notChild inside with
            ⟨kin, apart⟩ | ⟨siblings, orphans, kin, kids, isSibling, same⟩
          · exact .inl ⟨mem_families_node.mpr (.inr ⟨before, old, kin⟩), apart⟩
          · exact .inr ⟨siblings, orphans, mem_families_node.mpr (.inr ⟨before, old, kin⟩),
              mem_families_node.mpr (.inr ⟨before, old, kids⟩), isSibling, same⟩

end Edit

end GenTree

end Dbos
