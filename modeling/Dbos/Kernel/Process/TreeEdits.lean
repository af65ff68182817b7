import Dbos.Kernel.Process.TreeMemory

/-! # Edits of the process tree in memory

Every operation on the tree in memory is the corresponding edit of the tree it
represents: a new process becomes a leaf below its parent, and a process that is
destroyed leaves its children to its parent. -/

namespace Dbos.ProcessTree

open Dbos.LinkedList

/-! ## Adding a process -/

/-- What is in memory once a process has been added below `parent`. -/
structure Added (memory : Memory) (place slot : Address → Address) (parent : Address)
    (parentNode : GenTreeT) (children : List Address) (nodes : Option (List Address))
    (type : ProcType) (blocks : Blocks) (subTrees : LnkLst Address) (after : Memory) : Prop where
  procs : after.procs = Function.update memory.procs blocks.process
    (some ⟨memory.procPid + 1, nodes, type, some parent, blocks.tree⟩)
  trees : after.trees = Function.update (Function.update memory.trees (place parent)
      (some { parentNode with subTrees := subTrees })) blocks.tree
    (some ⟨blocks.process, linkedListCreate, some (place parent)⟩)
  list : Represents after.links subTrees
    (children.map (fun child => (slot child, place child)) ++ [(blocks.node, blocks.tree)])
  links : ∀ address, address ≠ blocks.node → address ∉ children.map slot →
    after.links address = memory.links address
  processTree : after.processTree = memory.processTree
  procPid : after.procPid = memory.procPid + 1

namespace Represented

variable {memory : Memory} {tree : GenTree Address} {place slot : Address → Address}
  (represented : Represented memory tree place slot)
include represented

theorem unused_ne {address process : Address} (unused : memory.Unused address)
    (member : process ∈ tree.values) : process ≠ address ∧ place process ≠ address := by
  constructor
  · intro same
    rcases represented.located member with ⟨proc, found, _⟩
    rw [same, unused.1] at found
    cases found
  · intro same
    rcases represented.node member with ⟨node, found, _⟩
    rw [same, unused.2.1] at found
    cases found

theorem unused_ne_slot {address parent child : Address} {children : List Address}
    (unused : memory.Unused address) (isFamily : (parent, children) ∈ tree.families)
    (isChild : child ∈ children) : slot child ≠ address := by
  intro same
  rcases represented.link isFamily isChild with ⟨node, found, _⟩
  rw [same, unused.2.2] at found
  cases found

theorem addProcess_added {parent : Address} {children : List Address} {parentNode : GenTreeT}
    (isFamily : (parent, children) ∈ tree.families)
    (parentFound : memory.trees (place parent) = some parentNode) {blocks : Blocks}
    (fresh : blocks.Fresh memory) (nodes : Option (List Address)) (type : ProcType) :
    ∃ after subTrees, addProcess memory parent nodes type blocks = some after ∧
      Added memory place slot parent parentNode children nodes type blocks subTrees after := by
  have family := represented.families parent children isFamily
  have member := GenTree.mem_values_of_family isFamily
  rcases family.located with ⟨proc, found, isPlace⟩
  rcases family.listed with ⟨same, sameFound, _, list⟩
  cases parentFound.symm.trans sameFound
  have notTree := (represented.unused_ne fresh.2.1 member).2
  have slots : (children.map fun child => (slot child, place child)).map Prod.fst =
      children.map slot := by
    rw [List.map_map]
    rfl
  have notNode : blocks.node ∉ (children.map fun child => (slot child, place child)).map
      Prod.fst := by
    rw [slots]
    intro isSlot
    rcases List.mem_map.mp isSlot with ⟨child, isChild, same⟩
    exact represented.unused_ne_slot fresh.2.2.1 isFamily isChild same
  rcases linkedListAppend_spec list notNode blocks.tree with
    ⟨links, subTrees, appended, extended, others⟩
  rw [slots] at others
  have looked : Function.update memory.trees blocks.tree
      (some ⟨blocks.process, linkedListCreate, none⟩) (place parent) = some parentNode := by
    rw [Function.update_of_ne notTree, parentFound]
  have added : addProcess memory parent nodes type blocks = some
      { procs := Function.update memory.procs blocks.process
          (some ⟨memory.procPid + 1, nodes, type, some parent, blocks.tree⟩)
        trees := Function.update (Function.update memory.trees (place parent)
            (some { parentNode with subTrees := subTrees })) blocks.tree
          (some ⟨blocks.process, linkedListCreate, some (place parent)⟩)
        links := links
        processTree := memory.processTree
        procPid := memory.procPid + 1 } := by
    simp only [addProcess, found, isPlace, genericTreeCreate, looked, appended,
      Option.bind_eq_bind, Option.bind_some, Option.pure_def, Option.some.injEq,
      Memory.mk.injEq, true_and, and_true]
    rw [Function.update_comm notTree, Function.update_idem, Function.update_comm notTree.symm]
  exact ⟨_, subTrees, added, rfl, rfl, extended, others, rfl, rfl⟩

end Represented

namespace Added

variable {memory : Memory} {tree : GenTree Address} {place slot : Address → Address}
  {parent : Address} {parentNode : GenTreeT} {children : List Address}
  {nodes : Option (List Address)} {type : ProcType} {blocks : Blocks}
  {subTrees : LnkLst Address} {after : Memory}
  (added : Added memory place slot parent parentNode children nodes type blocks subTrees after)

section Kept

include added

theorem newProc : after.procs blocks.process =
    some ⟨memory.procPid + 1, nodes, type, some parent, blocks.tree⟩ := by
  rw [added.procs, Function.update_self]

theorem newTree : after.trees blocks.tree =
    some ⟨blocks.process, linkedListCreate, some (place parent)⟩ := by
  rw [added.trees, Function.update_self]

end Kept

variable (represented : Represented memory tree place slot) (fresh : blocks.Fresh memory)

section Fresh

include represented fresh

theorem notProcess {process : Address} (inside : process ∈ tree.values) :
    process ≠ blocks.process :=
  (represented.unused_ne fresh.1 inside).1

theorem newPlace {process : Address} (inside : process ∈ tree.values) :
    Function.update place blocks.process blocks.tree process = place process :=
  Function.update_of_ne (notProcess represented fresh inside) _ _

theorem newEntries {process : Address} {kids : List Address}
    (kin : (process, kids) ∈ tree.families) :
    kids.map (fun child => (Function.update slot blocks.process blocks.node child,
      Function.update place blocks.process blocks.tree child)) =
    kids.map fun child => (slot child, place child) := by
  apply List.map_congr_left
  intro child isChild
  have inside := GenTree.child_mem_values kin isChild
  rw [newPlace represented fresh inside,
    Function.update_of_ne (notProcess represented fresh inside)]

include added

theorem keptProc {process : Address} (inside : process ∈ tree.values) :
    after.procs process = memory.procs process := by
  rw [added.procs, Function.update_of_ne (notProcess represented fresh inside)]

theorem keptTree {process : Address} (inside : process ∈ tree.values)
    (different : place process ≠ place parent) :
    after.trees (place process) = memory.trees (place process) := by
  rw [added.trees, Function.update_of_ne (represented.unused_ne fresh.2.1 inside).2,
    Function.update_of_ne different]

theorem parentTree (member : parent ∈ tree.values) :
    after.trees (place parent) = some { parentNode with subTrees := subTrees } := by
  rw [added.trees, Function.update_of_ne (represented.unused_ne fresh.2.1 member).2,
    Function.update_self]

end Fresh

variable (parentFound : memory.trees (place parent) = some parentNode)
include added represented fresh parentFound

theorem keptParent (member : parent ∈ tree.values) {process : Address}
    (inside : process ∈ tree.values) {above : Option Address}
    (before : ∃ node, memory.trees (place process) = some node ∧ node.parentTree = above) :
    ∃ node, after.trees (place process) = some node ∧ node.parentTree = above := by
  rcases before with ⟨node, found, isAbove⟩
  by_cases isParent : place process = place parent
  · rw [isParent, parentFound] at found
    cases found
    rw [isParent, added.parentTree represented fresh member]
    exact ⟨_, rfl, isAbove⟩
  · rw [added.keptTree represented fresh inside isParent]
    exact ⟨node, found, isAbove⟩

omit represented fresh parentFound in
theorem newFamily : Family after (Function.update place blocks.process blocks.tree)
    (Function.update slot blocks.process blocks.node) blocks.process [] := by
  constructor
  · rw [Function.update_self]
    exact ⟨_, added.newProc, rfl⟩
  · rw [Function.update_self]
    exact ⟨_, added.newTree, rfl, Represents.empty⟩
  · exact fun child isChild => absurd isChild List.not_mem_nil
  · exact fun child isChild => absurd isChild List.not_mem_nil

variable (isFamily : (parent, children) ∈ tree.families)
include isFamily

theorem parentFamily : Family after (Function.update place blocks.process blocks.tree)
    (Function.update slot blocks.process blocks.node) parent (children ++ [blocks.process]) := by
  have member := GenTree.mem_values_of_family isFamily
  have family := represented.families parent children isFamily
  rcases family.listed with ⟨same, sameFound, isData, _⟩
  cases parentFound.symm.trans sameFound
  constructor
  · rw [added.keptProc represented fresh member, newPlace represented fresh member]
    exact family.located
  · rw [newPlace represented fresh member, added.parentTree represented fresh member]
    refine ⟨_, rfl, isData, ?_⟩
    rw [List.map_append, newEntries represented fresh isFamily, List.map_singleton,
      Function.update_self, Function.update_self]
    exact added.list
  · intro child isChild
    rcases List.mem_append.mp isChild with among | isNew
    · rw [added.keptProc represented fresh (GenTree.child_mem_values isFamily among)]
      exact family.childProcs child among
    · rw [List.mem_singleton.mp isNew]
      exact ⟨_, added.newProc, rfl⟩
  · intro child isChild
    rw [newPlace represented fresh member]
    rcases List.mem_append.mp isChild with among | isNew
    · have inside := GenTree.child_mem_values isFamily among
      rw [newPlace represented fresh inside]
      exact added.keptParent represented fresh parentFound member inside
        (family.childTrees child among)
    · rw [List.mem_singleton.mp isNew, Function.update_self]
      exact ⟨_, added.newTree, rfl⟩

omit parentFound in
theorem keptLink {process child : Address} {kids : List Address} (notParent : process ≠ parent)
    (old : (process, kids) ∈ tree.families) (isChild : child ∈ kids) :
    after.links (slot child) = memory.links (slot child) := by
  apply added.links
  · exact represented.unused_ne_slot fresh.2.2.1 old isChild
  · intro isSibling
    rcases List.mem_map.mp isSibling with ⟨sibling, among, same⟩
    have sameChild := represented.slot_inj isFamily among old isChild same
    subst sameChild
    exact notParent (represented.parent_unique old isChild isFamily among)

theorem otherFamily {process : Address} {kids : List Address} (notParent : process ≠ parent)
    (old : (process, kids) ∈ tree.families) :
    Family after (Function.update place blocks.process blocks.tree)
      (Function.update slot blocks.process blocks.node) process kids := by
  have member := GenTree.mem_values_of_family isFamily
  have inside := GenTree.mem_values_of_family old
  have kinship := represented.families process kids old
  constructor
  · rw [added.keptProc represented fresh inside, newPlace represented fresh inside]
    exact kinship.located
  · have apart : place process ≠ place parent :=
      fun same => notParent (represented.place_inj inside member same)
    rw [newPlace represented fresh inside, added.keptTree represented fresh inside apart,
      newEntries represented fresh old]
    rcases kinship.listed with ⟨node, found, isProcess, list⟩
    refine ⟨node, found, isProcess, list.congr ?_⟩
    intro address isSlot
    rw [List.map_map] at isSlot
    rcases List.mem_map.mp isSlot with ⟨child, isChild, isAddress⟩
    rw [← isAddress]
    exact added.keptLink represented fresh isFamily notParent old isChild
  · intro child isChild
    rw [added.keptProc represented fresh (GenTree.child_mem_values old isChild)]
    exact kinship.childProcs child isChild
  · intro child isChild
    have childInside := GenTree.child_mem_values old isChild
    rw [newPlace represented fresh inside, newPlace represented fresh childInside]
    exact added.keptParent represented fresh parentFound member childInside
      (kinship.childTrees child isChild)

omit represented fresh isFamily in
theorem allocatedTree {address : Address} (allocated : after.trees address ≠ none)
    (notNew : address ≠ blocks.tree) : memory.trees address ≠ none := by
  by_cases isParent : address = place parent
  · rw [isParent, parentFound]
    simp
  · rwa [added.trees, Function.update_of_ne notNew, Function.update_of_ne isParent] at allocated

omit fresh parentFound in
theorem allocatedLink {address : Address} (allocated : after.links address ≠ none)
    (notNew : address ≠ blocks.node) : memory.links address ≠ none := by
  by_cases isSlot : address ∈ children.map slot
  · rcases List.mem_map.mp isSlot with ⟨child, isChild, isAddress⟩
    rcases represented.link isFamily isChild with ⟨node, found, _⟩
    rw [← isAddress, found]
    simp
  · rwa [added.links address notNew isSlot] at allocated

theorem represented_after : Represented after (tree.createUnder parent blocks.process)
    (Function.update place blocks.process blocks.tree)
    (Function.update slot blocks.process blocks.node) := by
  have member := GenTree.mem_values_of_family isFamily
  have rootInside := tree.data_mem_values
  have isNewMember : blocks.process ∈ (tree.createUnder parent blocks.process).values :=
    GenTree.data_mem_createUnder member
  constructor
  · exact GenTree.nodup_createUnder represented.nodup fun inside =>
      notProcess represented fresh inside rfl
  · intro process kids kin
    rcases GenTree.mem_families_createUnder represented.nodup kin with
      ⟨isNew, noKids⟩ | ⟨isParent, before, old, more⟩ | ⟨notParent, old⟩
    · subst isNew noKids
      exact added.newFamily
    · cases GenTree.family_unique represented.nodup old isFamily
      subst isParent more
      exact added.parentFamily represented fresh parentFound isFamily
    · exact added.otherFamily represented fresh parentFound isFamily notParent old
  · rw [GenTree.createUnder_data, newPlace represented fresh rootInside, added.processTree]
    exact represented.root
  · rw [GenTree.createUnder_data, added.keptProc represented fresh rootInside]
    exact represented.rootProc
  · rw [GenTree.createUnder_data, newPlace represented fresh rootInside]
    exact added.keptParent represented fresh parentFound member rootInside represented.rootTree
  · intro address allocated
    by_cases isNew : address = blocks.process
    · rw [isNew]
      exact isNewMember
    · rw [added.procs, Function.update_of_ne isNew] at allocated
      exact GenTree.mem_createUnder_of_mem (represented.procs address allocated) isNew
  · intro address allocated
    by_cases isNew : address = blocks.tree
    · exact ⟨blocks.process, isNewMember, by rw [isNew, Function.update_self]⟩
    · rcases represented.trees address (added.allocatedTree parentFound allocated isNew) with
        ⟨process, inside, isPlace⟩
      exact ⟨process, GenTree.mem_createUnder_of_mem inside (notProcess represented fresh inside),
        isPlace.trans (newPlace represented fresh inside).symm⟩
  · intro address allocated
    rw [GenTree.createUnder_data]
    by_cases isNew : address = blocks.node
    · exact ⟨blocks.process, isNewMember, (notProcess represented fresh rootInside).symm,
        by rw [isNew, Function.update_self]⟩
    · rcases represented.links address (added.allocatedLink represented isFamily allocated isNew)
        with ⟨process, inside, notRoot, isSlot⟩
      have different := notProcess represented fresh inside
      exact ⟨process, GenTree.mem_createUnder_of_mem inside different, notRoot,
        isSlot.trans (Function.update_of_ne different _ _).symm⟩

end Added

theorem Represented.addProcess {memory : Memory} {tree : GenTree Address}
    {place slot : Address → Address} (represented : Represented memory tree place slot)
    {parent : Address} (member : parent ∈ tree.values) {blocks : Blocks}
    (fresh : blocks.Fresh memory) (nodes : Option (List Address)) (type : ProcType) :
    ∃ after, ProcessTree.addProcess memory parent nodes type blocks = some after ∧
      Represented after (tree.createUnder parent blocks.process)
        (Function.update place blocks.process blocks.tree)
        (Function.update slot blocks.process blocks.node) ∧
      after.procPid = memory.procPid + 1 ∧
      after.procs = Function.update memory.procs blocks.process
        (some ⟨memory.procPid + 1, nodes, type, some parent, blocks.tree⟩) := by
  rcases GenTree.exists_family member with ⟨children, isFamily⟩
  rcases represented.node member with ⟨parentNode, parentFound, _⟩
  rcases represented.addProcess_added isFamily parentFound fresh nodes type with
    ⟨after, subTrees, isAfter, added⟩
  exact ⟨after, isAfter, added.represented_after represented fresh parentFound isFamily,
    added.procPid, added.procs⟩

/-! ## Destroying a process -/

/-- The loop of `proc_destroy` has given the children `adopted` to `parent`, behind
the `siblings` that were there before. Child `c` has its list node at `slots c`. -/
structure Reparented (memory : Memory) (place slot : Address → Address) (parent : Address)
    (parentNode : GenTreeT) (siblings adopted : List Address) (after : Memory)
    (slots : Address → Address) : Prop where
  procs : ∀ process, after.procs process =
    if process ∈ adopted then (memory.procs process).map fun proc =>
      { proc with parent := some parent, type := .standalone }
    else memory.procs process
  trees : ∃ subTrees, (∀ address, after.trees address =
      if address = place parent then some { parentNode with subTrees := subTrees }
      else if address ∈ adopted.map place then (memory.trees address).map fun node =>
        { node with parentTree := some (place parent) }
      else memory.trees address) ∧
    Represents after.links subTrees
      ((siblings ++ adopted).map fun child => (slots child, place child))
  links : ∀ address, memory.links address ≠ none → address ∉ siblings.map slot →
    after.links address = memory.links address
  fresh : ∀ child ∈ adopted, memory.links (slots child) = none
  same : ∀ child ∉ adopted, slots child = slot child
  others : ∀ address, after.links address ≠ none →
    memory.links address ≠ none ∨ address ∈ adopted.map slots
  processTree : after.processTree = memory.processTree
  procPid : after.procPid = memory.procPid

/-- A round of the loop has handed over a child: its structure and its node refer to the new
parent, whose list goes on from the `listed` children to the block that was allocated. -/
structure Handed (after : Memory) (place slots : Address → Address) (parent child block : Address)
    (parentNode childNode : GenTreeT) (childProc : ProcT) (listed : List Address)
    (subTrees : LnkLst Address) (next : Memory) : Prop where
  procs : next.procs = Function.update after.procs child
    (some { childProc with parent := some parent, type := .standalone })
  trees : next.trees = Function.update (Function.update after.trees (place child)
      (some { childNode with parentTree := some (place parent) })) (place parent)
    (some { parentNode with subTrees := subTrees })
  list : Represents next.links subTrees
    ((listed.map fun other => (slots other, place other)) ++ [(block, place child)])
  links : ∀ address, address ≠ block → address ∉ listed.map slots →
    next.links address = after.links address
  processTree : next.processTree = after.processTree
  procPid : next.procPid = after.procPid

section Destroy

variable {memory : Memory} {tree : GenTree Address} {place slot : Address → Address}
  (represented : Represented memory tree place slot)
  {process parent : Address} {children siblings : List Address}
  (isFamily : (process, children) ∈ tree.families)
  (parentFamily : (parent, siblings) ∈ tree.families) (isSibling : process ∈ siblings)
include represented isFamily parentFamily isSibling

theorem parent_apart : process ≠ parent ∧ parent ∉ children ∧ process ∉ children ∧
    ∀ child ∈ children, child ∉ siblings := by
  have different : process ≠ parent := by
    intro same
    subst same
    exact GenTree.parent_notMem_children represented.nodup parentFamily isSibling parentFamily
      isSibling
  refine ⟨different, ?_, ?_, ?_⟩
  · exact GenTree.parent_notMem_children represented.nodup parentFamily isSibling isFamily
  · intro isChild
    exact GenTree.parent_notMem_children represented.nodup isFamily isChild isFamily isChild
  · intro child isChild among
    exact different (represented.parent_unique isFamily isChild parentFamily among)

section Adopted

variable {parentNode : GenTreeT} {adopted : List Address} {after : Memory}
  {slots : Address → Address}
  (reparented : Reparented memory place slot parent parentNode siblings adopted after slots)
  (within : ∀ child ∈ adopted, child ∈ children)
include reparented within

theorem slots_sibling {sibling : Address} (among : sibling ∈ siblings) :
    slots sibling = slot sibling := by
  have apart := parent_apart represented isFamily parentFamily isSibling
  apply reparented.same
  intro member
  exact apart.2.2.2 sibling (within sibling member) among

theorem outside_list {address : Address} (allocated : memory.links address ≠ none)
    (notTheirs : address ∉ siblings.map slot) :
    address ∉ (siblings ++ adopted).map slots := by
  intro member
  rcases List.mem_map.mp member with ⟨other, among, isAddress⟩
  rcases List.mem_append.mp among with old | new
  · apply notTheirs
    rw [← isAddress, slots_sibling represented isFamily parentFamily isSibling reparented within
      old]
    exact List.mem_map_of_mem old
  · rw [← isAddress] at allocated
    exact allocated (reparented.fresh other new)

end Adopted

section Round

variable {parentNode : GenTreeT} {adopted rest : List Address} {child : Address}
  {after : Memory} {slots : Address → Address}
  (reparented : Reparented memory place slot parent parentNode siblings adopted after slots)
  (split : children = adopted ++ child :: rest)
include reparented split

omit reparented in
theorem child_apart : child ∈ children ∧ child ∉ adopted ∧ child ∉ siblings ∧
    place child ≠ place parent ∧ place child ∉ adopted.map place := by
  have apart := parent_apart represented isFamily parentFamily isSibling
  have isChild : child ∈ children := by simp [split]
  have inside := GenTree.child_mem_values isFamily isChild
  have distinct : (adopted ++ child :: rest).Nodup :=
    split ▸ represented.children_nodup isFamily
  have notAdopted : child ∉ adopted := by
    intro member
    exact (List.nodup_append.mp distinct).2.2 child member child (by simp) rfl
  refine ⟨isChild, notAdopted, apart.2.2.2 child isChild, ?_, ?_⟩
  · intro same
    have isParent := represented.place_inj inside (GenTree.mem_values_of_family parentFamily) same
    exact apart.2.1 (isParent ▸ isChild)
  · intro member
    rcases List.mem_map.mp member with ⟨other, among, same⟩
    have otherInside := GenTree.child_mem_values isFamily (by simp [split, among] :
      other ∈ children)
    exact notAdopted (represented.place_inj otherInside inside same ▸ among)

omit reparented in
theorem child_link : slot child ∉ siblings.map slot ∧ ∃ previous, memory.links (slot child) =
    some ⟨previous, headOr none (rest.map fun child => (slot child, place child)),
      place child⟩ := by
  have apart := child_apart represented isFamily parentFamily isSibling split
  constructor
  · intro member
    rcases List.mem_map.mp member with ⟨sibling, among, same⟩
    exact apart.2.2.1 (represented.slot_inj parentFamily among isFamily apart.1 same ▸ among)
  · rcases (represented.families process children isFamily).listed with ⟨_, _, _, ownList⟩
    have segment := ownList.segment
    rw [split, List.map_append, List.map_cons] at segment
    exact ⟨_, segment.at⟩

theorem unused_before {block : Address} (unused : after.Unused block) :
    memory.links block = none := by
  by_contra allocated
  by_cases theirs : block ∈ siblings.map slot
  · rcases List.mem_map.mp theirs with ⟨sibling, among, isBlock⟩
    rcases reparented.trees with ⟨subTrees, _, list⟩
    have entry : (slots sibling, place sibling) ∈
        (siblings ++ adopted).map fun child => (slots child, place child) :=
      List.mem_map.mpr ⟨sibling, List.mem_append_left _ among, rfl⟩
    rcases list.segment.allocated entry with ⟨node, found, _⟩
    have within : ∀ child ∈ adopted, child ∈ children := by
      intro child member
      simp [split, member]
    rw [slots_sibling represented isFamily parentFamily isSibling reparented within among,
      isBlock, unused.2.2] at found
    cases found
  · have kept := reparented.links block allocated theirs
    rw [unused.2.2] at kept
    exact allocated kept.symm

omit represented isFamily parentFamily isSibling split in
theorem listed_allocated {address : Address} (member : address ∈ (siblings ++ adopted).map slots) :
    after.links address ≠ none := by
  rcases reparented.trees with ⟨subTrees, _, list⟩
  rcases List.mem_map.mp member with ⟨other, among, isAddress⟩
  have entry : (slots other, place other) ∈
      (siblings ++ adopted).map fun child => (slots child, place child) :=
    List.mem_map_of_mem among
  rcases list.segment.allocated entry with ⟨node, found, _⟩
  rw [← isAddress, found]
  simp

theorem child_before : after.procs child = memory.procs child ∧
    after.trees (place child) = memory.trees (place child) := by
  have apart := child_apart represented isFamily parentFamily isSibling split
  rcases reparented.trees with ⟨subTrees, trees, _⟩
  constructor
  · rw [reparented.procs, if_neg apart.2.1]
  · rw [trees, if_neg apart.2.2.2.1, if_neg apart.2.2.2.2]

/-- What was allocated in the beginning is neither the block nor in the parent's list, unless
it is a list node of a sibling. -/
theorem outside_round {block address : Address} (unused : after.Unused block)
    (allocated : memory.links address ≠ none) (notTheirs : address ∉ siblings.map slot) :
    address ≠ block ∧ address ∉ (siblings ++ adopted).map slots := by
  have within : ∀ child ∈ adopted, child ∈ children := by
    intro child member
    simp [split, member]
  have blockNew := unused_before represented isFamily parentFamily isSibling reparented split
    unused
  exact ⟨fun same => allocated (same ▸ blockNew),
    outside_list represented isFamily parentFamily isSibling reparented within allocated
      notTheirs⟩

theorem reparentChildren_handed {block : Address} (unused : after.Unused block) :
    ∃ next childNode childProc subTrees, memory.trees (place child) = some childNode ∧
      memory.procs child = some childProc ∧
      (∀ blocks, reparentChildren parent (place parent) (block :: blocks)
        (some (slot child)) after =
          reparentChildren parent (place parent) blocks
            (headOr none (rest.map fun child => (slot child, place child))) next) ∧
      Handed after place slots parent child block parentNode childNode childProc
        (siblings ++ adopted) subTrees next := by
  have apart := child_apart represented isFamily parentFamily isSibling split
  have before := child_before represented isFamily parentFamily isSibling reparented split
  have inside := GenTree.child_mem_values isFamily apart.1
  rcases child_link represented isFamily parentFamily isSibling split with
    ⟨slotNotTheirs, previous, ownLink⟩
  rcases outside_round represented isFamily parentFamily isSibling reparented split unused
    (show memory.links (slot child) ≠ none by simp [ownLink]) slotNotTheirs with
    ⟨slotNotBlock, slotNotListed⟩
  rcases reparented.trees with ⟨subTrees, trees, list⟩
  have slotted : ((siblings ++ adopted).map fun child => (slots child, place child)).map
      Prod.fst = (siblings ++ adopted).map slots := by
    rw [List.map_map]
    rfl
  have link : after.links (slot child) = some _ :=
    (reparented.links _ (by simp [ownLink]) slotNotTheirs).trans ownLink
  rcases represented.node inside with ⟨⟨data, ownTrees, above⟩, childFound, isData⟩
  replace isData : data = child := isData
  rw [isData] at childFound
  have childTree := before.2.trans childFound
  rcases represented.located inside with ⟨childProc, procFound, _⟩
  have childProcess := before.1.trans procFound
  have notListed : block ∉ ((siblings ++ adopted).map
      fun child => (slots child, place child)).map Prod.fst := by
    rw [slotted]
    exact fun member => listed_allocated reparented member unused.2.2
  rcases linkedListAppend_spec list notListed (place child) with
    ⟨links, extendedTrees, appended, extended, others⟩
  rw [slotted] at others
  have linkAfter : links (slot child) = some _ :=
    (others _ slotNotBlock slotNotListed).trans link
  have parentTree : Function.update after.trees (place child)
      (some ⟨child, ownTrees, some (place parent)⟩) (place parent) =
      some { parentNode with subTrees := subTrees } := by
    rw [Function.update_of_ne apart.2.2.2.1.symm, trees, if_pos rfl]
  refine ⟨{ after with
    procs := Function.update after.procs child
      (some { childProc with parent := some parent, type := .standalone })
    trees := Function.update (Function.update after.trees (place child)
      (some ⟨child, ownTrees, some (place parent)⟩)) (place parent)
      (some { parentNode with subTrees := extendedTrees })
    links := links }, _, childProc, extendedTrees, childFound, procFound, ?_,
    rfl, rfl, extended, others, rfl, rfl⟩
  intro blocks
  simp only [reparentChildren, if_pos unused, link, childTree, childProcess,
    parentTree, appended, linkAfter, Option.bind_eq_bind, Option.bind_some]

section Handed

variable {block : Address} {childNode : GenTreeT} {childProc : ProcT} {subTrees : LnkLst Address}
  {next : Memory} (unused : after.Unused block)
  (childFound : memory.trees (place child) = some childNode)
  (procFound : memory.procs child = some childProc)
  (handed : Handed after place slots parent child block parentNode childNode childProc
    (siblings ++ adopted) subTrees next)
include handed

omit represented isFamily parentFamily isSibling split in
include procFound in
theorem procs_handed (other : Address) : next.procs other =
    if other ∈ adopted ++ [child] then (memory.procs other).map fun proc =>
      { proc with parent := some parent, type := .standalone }
    else memory.procs other := by
  rw [handed.procs]
  by_cases isChild : other = child
  · rw [isChild]
    simp [procFound]
  · simp only [Function.update_of_ne isChild, reparented.procs, List.mem_append,
      List.mem_singleton, isChild, or_false]

omit represented isFamily parentFamily isSibling split in
include childFound in
theorem trees_handed (address : Address) : next.trees address =
    if address = place parent then some { parentNode with subTrees := subTrees }
    else if address ∈ (adopted ++ [child]).map place then (memory.trees address).map fun node =>
      { node with parentTree := some (place parent) }
    else memory.trees address := by
  rcases reparented.trees with ⟨_, trees, _⟩
  rw [handed.trees]
  by_cases isParent : address = place parent
  · rw [isParent, Function.update_self, if_pos rfl]
  · rw [Function.update_of_ne isParent, if_neg isParent]
    by_cases isChild : address = place child
    · rw [isChild, Function.update_self, if_pos (by simp), childFound]
      rfl
    · simp only [Function.update_of_ne isChild, trees, if_neg isParent, List.map_append,
        List.map_cons, List.map_nil, List.mem_append, List.mem_singleton, isChild, or_false]

omit reparented in
theorem list_handed : Represents next.links subTrees
    ((siblings ++ (adopted ++ [child])).map fun other =>
      (Function.update slots child block other, place other)) := by
  have apart := child_apart represented isFamily parentFamily isSibling split
  have renamed : (siblings ++ (adopted ++ [child])).map (fun other =>
      (Function.update slots child block other, place other)) =
      (siblings ++ adopted).map (fun child => (slots child, place child)) ++
        [(block, place child)] := by
    rw [← List.append_assoc, List.map_append, List.map_singleton, Function.update_self]
    congr 1
    apply List.map_congr_left
    intro other among
    have different : other ≠ child := by
      intro same
      rw [same] at among
      exact (List.mem_append.mp among).elim apart.2.2.1 apart.2.1
    rw [Function.update_of_ne different]
  rw [renamed]
  exact handed.list

theorem others_handed {address : Address} (allocated : next.links address ≠ none) :
    memory.links address ≠ none ∨
      address ∈ (adopted ++ [child]).map (Function.update slots child block) := by
  have apart := child_apart represented isFamily parentFamily isSibling split
  by_cases isBlock : address = block
  · right
    rw [isBlock]
    exact List.mem_map.mpr ⟨child, by simp, Function.update_self ..⟩
  have before : after.links address ≠ none := by
    by_cases theirs : address ∈ (siblings ++ adopted).map slots
    · exact listed_allocated reparented theirs
    · rwa [← handed.links address isBlock theirs]
  rcases reparented.others address before with old | new
  · exact .inl old
  · right
    rcases List.mem_map.mp new with ⟨other, among, isAddress⟩
    have different : other ≠ child := fun same => apart.2.1 (same ▸ among)
    refine List.mem_map.mpr ⟨other, List.mem_append_left _ among, ?_⟩
    rw [Function.update_of_ne different, isAddress]

include unused childFound procFound in
theorem reparented_of_handed :
    Reparented memory place slot parent parentNode siblings (adopted ++ [child]) next
      (Function.update slots child block) := by
  constructor
  · exact procs_handed reparented procFound handed
  · exact ⟨subTrees, trees_handed reparented childFound handed,
      list_handed represented isFamily parentFamily isSibling split handed⟩
  · intro address allocated notTheirs
    rcases outside_round represented isFamily parentFamily isSibling reparented split unused
      allocated notTheirs with ⟨notBlock, notListed⟩
    exact (handed.links address notBlock notListed).trans
      (reparented.links address allocated notTheirs)
  · intro other member
    by_cases isChild : other = child
    · rw [isChild, Function.update_self]
      exact unused_before represented isFamily parentFamily isSibling reparented split unused
    · rw [Function.update_of_ne isChild]
      exact reparented.fresh other (by simpa [isChild] using member)
  · intro other notMember
    have different : other ≠ child := fun same => notMember (by simp [same])
    rw [Function.update_of_ne different]
    exact reparented.same other fun member => notMember (by simp [member])
  · intro address allocated
    exact others_handed represented isFamily parentFamily isSibling reparented split handed
      allocated
  · exact handed.processTree.trans reparented.processTree
  · exact handed.procPid.trans reparented.procPid

include childFound procFound in
/-- A round takes nothing but the block. -/
theorem unused_handed {address : Address} (different : address ≠ block)
    (free : after.Unused address) : next.Unused address := by
  have before := child_before represented isFamily parentFamily isSibling reparented split
  rcases reparented.trees with ⟨_, trees, _⟩
  have notChild : address ≠ child := by
    intro same
    have noProc := free.1
    rw [same, before.1, procFound] at noProc
    cases noProc
  have notPlace : address ≠ place child := by
    intro same
    have noTree := free.2.1
    rw [same, before.2, childFound] at noTree
    cases noTree
  have notParent : address ≠ place parent := by
    intro same
    have noTree := free.2.1
    rw [same, trees, if_pos rfl] at noTree
    cases noTree
  refine ⟨?_, ?_, ?_⟩
  · rw [handed.procs, Function.update_of_ne notChild, free.1]
  · rw [handed.trees, Function.update_of_ne notParent, Function.update_of_ne notPlace, free.2.1]
  · exact (handed.links address different fun member =>
      listed_allocated reparented member free.2.2).trans free.2.2

end Handed

theorem reparented_next {block : Address} (unused : after.Unused block) :
    ∃ next, (∀ blocks, reparentChildren parent (place parent) (block :: blocks)
        (some (slot child)) after =
          reparentChildren parent (place parent) blocks
            (headOr none (rest.map fun child => (slot child, place child))) next) ∧
      Reparented memory place slot parent parentNode siblings (adopted ++ [child]) next
        (Function.update slots child block) ∧
      ∀ address, address ≠ block → after.Unused address → next.Unused address := by
  rcases reparentChildren_handed represented isFamily parentFamily isSibling reparented split
    unused with ⟨next, childNode, childProc, subTrees, childFound, procFound, goesOn, handed⟩
  refine ⟨next, goesOn, ?_, fun address different free => ?_⟩
  · exact reparented_of_handed represented isFamily parentFamily isSibling reparented split
      unused childFound procFound handed
  · exact unused_handed represented isFamily parentFamily isSibling reparented split childFound
      procFound handed different free

end Round

omit isFamily isSibling represented parentFamily in
theorem reparented_initial {parentNode : GenTreeT}
    (found : memory.trees (place parent) = some parentNode)
    (list : Represents memory.links parentNode.subTrees
      (siblings.map fun child => (slot child, place child))) :
    Reparented memory place slot parent parentNode siblings [] memory slot := by
  constructor
  · intro other
    rw [if_neg List.not_mem_nil]
  · refine ⟨parentNode.subTrees, ?_, ?_⟩
    · intro address
      split
      case isTrue isParent => rw [isParent, found]
      case isFalse => rw [if_neg (by simp)]
    · rw [List.append_nil]
      exact list
  · intro address _ _
    rfl
  · intro child member
    exact absurd member List.not_mem_nil
  · intro child _
    rfl
  · intro address allocated
    exact .inl allocated
  · rfl
  · rfl

theorem reparented_loop {parentNode : GenTreeT} {adopted rest : List Address}
    {after final : Memory} {slots : Address → Address} {blocks : List Address}
    (reparented : Reparented memory place slot parent parentNode siblings adopted after slots)
    (split : children = adopted ++ rest)
    (ends : reparentChildren parent (place parent) blocks
      (headOr none (rest.map fun child => (slot child, place child))) after = some final) :
    ∃ slots, Reparented memory place slot parent parentNode siblings children final slots := by
  induction rest generalizing adopted after slots blocks with
  | nil =>
      rw [List.append_nil] at split
      rw [List.map_nil, headOr, reparentChildren] at ends
      cases ends
      exact ⟨slots, split ▸ reparented⟩
  | cons child rest induction =>
      cases blocks with
      | nil => cases ends
      | cons block blocks =>
          by_cases unused : after.Unused block
          · rcases reparented_next represented isFamily parentFamily isSibling reparented split
              unused with ⟨next, goesOn, adopts, _⟩
            rw [List.map_cons, headOr, goesOn blocks] at ends
            exact induction adopts (by simpa using split) ends
          · rw [List.map_cons, headOr, reparentChildren, if_neg unused] at ends
            cases ends

theorem reparentChildren_ends {parentNode : GenTreeT} {adopted rest : List Address}
    {after : Memory} {slots : Address → Address} {blocks : List Address}
    (reparented : Reparented memory place slot parent parentNode siblings adopted after slots)
    (split : children = adopted ++ rest) (enough : rest.length ≤ blocks.length)
    (unused : ∀ block ∈ blocks, after.Unused block) (nodup : blocks.Nodup) :
    ∃ final, reparentChildren parent (place parent) blocks
      (headOr none (rest.map fun child => (slot child, place child))) after = some final := by
  induction rest generalizing adopted after slots blocks with
  | nil =>
      rw [List.map_nil, headOr, reparentChildren]
      exact ⟨after, rfl⟩
  | cons child rest induction =>
      cases blocks with
      | nil => simp at enough
      | cons block blocks =>
          rcases reparented_next represented isFamily parentFamily isSibling reparented split
            (unused block (by simp)) with ⟨next, goesOn, adopts, free⟩
          rw [List.map_cons, headOr, goesOn blocks]
          apply induction adopts (by simpa using split) (by simpa using enough)
          · intro other member
            have different : other ≠ block := by
              intro same
              exact (List.nodup_cons.mp nodup).1 (same ▸ member)
            exact free other different (unused other (by simp [member]))
          · exact (List.nodup_cons.mp nodup).2

/-- What is in memory once the process has been unlinked and freed. -/
structure Unlinked (memory : Memory) (place slot : Address → Address) (process parent : Address)
    (parentNode : GenTreeT) (siblings children : List Address) (final : Memory)
    (slots : Address → Address) : Prop where
  procs : ∀ other, final.procs other =
    if other = process then none
    else if other ∈ children then (memory.procs other).map fun proc =>
      { proc with parent := some parent, type := .standalone }
    else memory.procs other
  trees : ∃ subTrees, (∀ address, final.trees address =
      if address = place process then none
      else if address = place parent then some { parentNode with subTrees := subTrees }
      else if address ∈ children.map place then (memory.trees address).map fun node =>
        { node with parentTree := some (place parent) }
      else memory.trees address) ∧
    Represents final.links subTrees
      (((siblings ++ children).erase process).map fun child => (slots child, place child))
  links : ∀ address, memory.links address ≠ none → address ∉ siblings.map slot →
    address ∉ children.map slot → final.links address = memory.links address
  same : ∀ child ∉ children, slots child = slot child
  others : ∀ address, final.links address ≠ none → address ∉ children.map slot ∧
    address ≠ slot process ∧ (memory.links address ≠ none ∨ address ∈ children.map slots)
  processTree : final.processTree = memory.processTree
  procPid : final.procPid = memory.procPid

theorem place_apart : place process ≠ place parent ∧ place process ∉ children.map place := by
  have apart := parent_apart represented isFamily parentFamily isSibling
  have inside := GenTree.mem_values_of_family isFamily
  refine ⟨fun same => apart.1 (represented.place_inj inside
    (GenTree.mem_values_of_family parentFamily) same), fun member => ?_⟩
  rcases List.mem_map.mp member with ⟨child, isChild, same⟩
  have childInside := GenTree.child_mem_values isFamily isChild
  exact apart.2.2.1 (represented.place_inj childInside inside same ▸ isChild)

theorem own_slot {address : Address} (own : address ∈ children.map slot) :
    memory.links address ≠ none ∧ address ∉ siblings.map slot := by
  have apart := parent_apart represented isFamily parentFamily isSibling
  rcases List.mem_map.mp own with ⟨child, isChild, isAddress⟩
  constructor
  · rcases represented.link isFamily isChild with ⟨node, found, _⟩
    rw [← isAddress, found]
    simp
  · intro isTheirs
    rcases List.mem_map.mp isTheirs with ⟨sibling, among, same⟩
    have sameChild := represented.slot_inj parentFamily among isFamily isChild
      (same.trans isAddress.symm)
    exact apart.2.2.2 child isChild (sameChild ▸ among)

section Unlinking

variable {parentNode : GenTreeT} {after : Memory} {slots : Address → Address}
  (reparented : Reparented memory place slot parent parentNode siblings children after slots)
include reparented

theorem slots_kept {child : Address} (among : child ∈ siblings ++ children) :
    slots child ∉ children.map slot := by
  have apart := parent_apart represented isFamily parentFamily isSibling
  intro member
  rcases List.mem_map.mp member with ⟨other, isChild, same⟩
  rcases List.mem_append.mp among with old | new
  · have sameSlot := slots_sibling represented isFamily parentFamily isSibling reparented
      (fun _ => id) old
    have sameChild := represented.slot_inj isFamily isChild parentFamily old
      (same.trans sameSlot)
    exact apart.2.2.2 other isChild (sameChild ▸ old)
  · rcases represented.link isFamily isChild with ⟨node, found, _⟩
    rw [same, reparented.fresh child new] at found
    cases found

theorem outside_reparented {address : Address} (allocated : memory.links address ≠ none)
    (notTheirs : address ∉ siblings.map slot) :
    address ∉ (siblings ++ children).map slots ∧
      after.links address = memory.links address :=
  ⟨outside_list represented isFamily parentFamily isSibling reparented (fun _ => id) allocated
    notTheirs, reparented.links address allocated notTheirs⟩

theorem detach_reparented : ∃ removed subTrees,
    detach after (place parent) (place process) = some { after with
      links := removed
      trees := Function.update after.trees (place parent)
        (some { parentNode with subTrees := subTrees }) } ∧
    Represents removed subTrees
      (((siblings ++ children).erase process).map fun child => (slots child, place child)) ∧
    removed (slot process) = none ∧
    ∀ address, address ∉ (siblings ++ children).map slots →
      removed address = after.links address := by
  have apart := parent_apart represented isFamily parentFamily isSibling
  have inside := GenTree.mem_values_of_family isFamily
  rcases reparented.trees with ⟨subTrees, trees, list⟩
  have parentTree : after.trees (place parent) = some { parentNode with subTrees := subTrees } := by
    rw [trees, if_pos rfl]
  -- The process stands somewhere among its siblings.
  rcases List.append_of_mem isSibling with ⟨left, right, isSplit⟩
  have notLeft : process ∉ left := by
    have distinct := represented.children_nodup parentFamily
    rw [isSplit] at distinct
    intro member
    exact (List.nodup_append.mp distinct).2.2 process member process (by simp) rfl
  have erased : (siblings ++ children).erase process = left ++ (right ++ children) := by
    rw [isSplit, List.append_assoc, List.erase_append_right _ notLeft, List.cons_append,
      List.erase_cons_head]
  rw [isSplit, List.append_assoc, List.cons_append, List.map_append, List.map_cons] at list
  have unmatched : ∀ entry ∈ left.map (fun child => (slots child, place child)),
      entry.2 ≠ place process := by
    intro entry member same
    rcases List.mem_map.mp member with ⟨child, isLeft, isEntry⟩
    rw [← isEntry] at same
    have childInside : child ∈ tree.values :=
      GenTree.child_mem_values parentFamily (by simp [isSplit, isLeft])
    exact notLeft (represented.place_inj childInside inside same ▸ isLeft)
  have finds := linkedListFind_spec list unmatched
  rcases linkedListRemove_spec list with ⟨removed, shortened, removes, short, freed, kept⟩
  rw [← List.map_append, ← erased] at short
  rw [reparented.same process apart.2.2.1] at freed
  refine ⟨removed, shortened, ?_, short, freed, fun address away => ?_⟩
  · simp only [detach, parentTree, finds, removes, Option.bind_eq_bind, Option.bind_some,
      Option.pure_def]
  · apply kept
    rw [isSplit] at away
    simpa [Function.comp_def] using away

variable {removed : Nodes Address Address}
  (kept : ∀ address, address ∉ (siblings ++ children).map slots →
    removed address = after.links address)
include kept

/-- The own list of the process is still there when it is destroyed. -/
theorem destroy_ownList {ownNode : GenTreeT}
    (ownFound : memory.trees (place process) = some ownNode) :
    ∃ links, linkedListDestroy removed ownNode.subTrees = some links ∧
      ∀ address, links address = if address ∈ children.map slot then none
        else removed address := by
  rcases (represented.families process children isFamily).listed with
    ⟨same, sameFound, _, ownList⟩
  cases ownFound.symm.trans sameFound
  have slotted : (children.map fun child => (slot child, place child)).map Prod.fst =
      children.map slot := by
    rw [List.map_map]
    rfl
  have own : ∀ address ∈ (children.map fun child => (slot child, place child)).map Prod.fst,
      removed address = memory.links address := by
    rw [slotted]
    intro address member
    have slotApart := own_slot represented isFamily parentFamily isSibling member
    have outside := outside_reparented represented isFamily parentFamily isSibling reparented
      slotApart.1 slotApart.2
    exact (kept address outside.1).trans outside.2
  rcases linkedListDestroy_spec (ownList.congr own) with ⟨links, destroys, linksAt⟩
  rw [slotted] at linksAt
  exact ⟨links, destroys, linksAt⟩

theorem others_unlinked {address : Address} (allocated : removed address ≠ none) :
    memory.links address ≠ none ∨ address ∈ children.map slots := by
  by_cases theirs : address ∈ (siblings ++ children).map slots
  · rcases List.mem_map.mp theirs with ⟨child, among, isAddress⟩
    rcases List.mem_append.mp among with old | new
    · left
      rw [← isAddress, slots_sibling represented isFamily parentFamily isSibling reparented
        (fun _ => id) old]
      rcases represented.link parentFamily old with ⟨node, found, _⟩
      rw [found]
      simp
    · exact .inr (isAddress ▸ List.mem_map_of_mem new)
  · rw [kept address theirs] at allocated
    exact reparented.others address allocated

end Unlinking

/-- The end of `proc_destroy`: the process leaves its parent's list, and its node, its
list and its structure are freed. -/
theorem unlinked_of_reparented {parentNode : GenTreeT} {after : Memory}
    {slots : Address → Address}
    (reparented : Reparented memory place slot parent parentNode siblings children after slots) :
    ∃ final, ((detach after (place parent) (place process)).bind fun memory =>
        (genericTreeDestroy memory (place process)).map fun memory =>
          { memory with procs := Function.update memory.procs process none }) = some final ∧
      Unlinked memory place slot process parent parentNode siblings children final slots := by
  have placeApart := place_apart represented isFamily parentFamily isSibling
  rcases reparented.trees with ⟨_, trees, _⟩
  rcases represented.node (GenTree.mem_values_of_family isFamily) with ⟨ownNode, ownFound, _⟩
  rcases detach_reparented represented isFamily parentFamily isSibling reparented with
    ⟨removed, shortened, detaches, short, freed, kept⟩
  rcases destroy_ownList represented isFamily parentFamily isSibling reparented kept ownFound with
    ⟨links, destroys, linksAt⟩
  have ownTree : Function.update after.trees (place parent)
      (some { parentNode with subTrees := shortened }) (place process) = some ownNode := by
    rw [Function.update_of_ne placeApart.1, trees, if_neg placeApart.1, if_neg placeApart.2,
      ownFound]
  refine ⟨{ after with
    procs := Function.update after.procs process none
    trees := Function.update (Function.update after.trees (place parent)
      (some { parentNode with subTrees := shortened })) (place process) none
    links := links }, ?_, ?_⟩
  · simp only [detaches, genericTreeDestroy, ownTree, destroys, Option.bind_eq_bind,
      Option.bind_some, Option.pure_def, Option.map_some]
  constructor
  · intro other
    simp only
    by_cases isProcess : other = process
    · rw [isProcess, Function.update_self, if_pos rfl]
    · rw [Function.update_of_ne isProcess, if_neg isProcess, reparented.procs]
  · refine ⟨shortened, fun address => ?_, short.congr ?_⟩
    · simp only
      by_cases isProcess : address = place process
      · rw [isProcess, Function.update_self, if_pos rfl]
      · rw [Function.update_of_ne isProcess, if_neg isProcess]
        by_cases isParent : address = place parent
        · rw [isParent, Function.update_self, if_pos rfl]
        · rw [Function.update_of_ne isParent, if_neg isParent, trees, if_neg isParent]
    · rw [List.map_map]
      intro address member
      rcases List.mem_map.mp member with ⟨child, among, isAddress⟩
      have notOwn : address ∉ children.map slot :=
        isAddress ▸ slots_kept represented isFamily parentFamily isSibling reparented
          (List.mem_of_mem_erase among)
      exact (linksAt address).trans (if_neg notOwn)
  · intro address allocated notTheirs notOwn
    have outside := outside_reparented represented isFamily parentFamily isSibling reparented
      allocated notTheirs
    simp only
    rw [linksAt, if_neg notOwn, kept address outside.1, outside.2]
  · exact reparented.same
  · intro address allocated
    simp only at allocated
    have notOwn : address ∉ children.map slot := by
      intro member
      rw [linksAt, if_pos member] at allocated
      exact allocated rfl
    rw [linksAt, if_neg notOwn] at allocated
    refine ⟨notOwn, fun same => ?_, ?_⟩
    · rw [same, freed] at allocated
      exact allocated rfl
    · exact others_unlinked represented isFamily parentFamily isSibling reparented kept allocated
  · exact reparented.processTree
  · exact reparented.procPid

section Gone

variable {parentNode : GenTreeT} {final : Memory} {slots : Address → Address}
  (parentFound : memory.trees (place parent) = some parentNode)
  (unlinked : Unlinked memory place slot process parent parentNode siblings children final slots)
include unlinked

omit isSibling in
theorem tree_unlinked : ∃ subTrees,
    Represents final.links subTrees
      (((siblings ++ children).erase process).map fun child => (slots child, place child)) ∧
    ∀ other ∈ tree.values, other ≠ process → final.trees (place other) =
      if other = parent then some { parentNode with subTrees := subTrees }
      else if other ∈ children then (memory.trees (place other)).map fun node =>
        { node with parentTree := some (place parent) }
      else memory.trees (place other) := by
  have inside := GenTree.mem_values_of_family isFamily
  have parentInside := GenTree.mem_values_of_family parentFamily
  rcases unlinked.trees with ⟨subTrees, trees, list⟩
  refine ⟨subTrees, list, fun other otherInside different => ?_⟩
  have isChild_iff : place other ∈ children.map place ↔ other ∈ children := by
    constructor
    · intro member
      rcases List.mem_map.mp member with ⟨child, isChild, same⟩
      have childInside := GenTree.child_mem_values isFamily isChild
      exact represented.place_inj childInside otherInside same ▸ isChild
    · exact List.mem_map_of_mem
  have notPlace : place other ≠ place process :=
    fun same => different (represented.place_inj otherInside inside same)
  rw [trees, if_neg notPlace]
  by_cases isParent : other = parent
  · rw [isParent, if_pos rfl, if_pos rfl]
  · have notParent : place other ≠ place parent :=
      fun same => isParent (represented.place_inj otherInside parentInside same)
    rw [if_neg notParent, if_neg isParent]
    simp only [isChild_iff]

omit represented isFamily parentFamily isSibling in
theorem keptProc_unlinked {other : Address} (different : other ≠ process)
    (notChild : other ∉ children) : final.procs other = memory.procs other := by
  rw [unlinked.procs, if_neg different, if_neg notChild]

omit isSibling in
include parentFound in
theorem keptTree_unlinked {other : Address} (otherInside : other ∈ tree.values)
    (different : other ≠ process) (notChild : other ∉ children) {above : Option Address}
    (before : ∃ node, memory.trees (place other) = some node ∧ node.parentTree = above) :
    ∃ node, final.trees (place other) = some node ∧ node.parentTree = above := by
  rcases before with ⟨node, found, isAbove⟩
  rcases tree_unlinked represented isFamily parentFamily unlinked with ⟨_, _, treeAt⟩
  rw [treeAt other otherInside different, if_neg notChild]
  split
  case isTrue isParent =>
    rw [isParent, parentFound] at found
    cases found
    exact ⟨_, rfl, isAbove⟩
  case isFalse => exact ⟨node, found, isAbove⟩

omit isFamily parentFamily isSibling in
theorem located_unlinked {other : Address} (otherInside : other ∈ tree.values)
    (different : other ≠ process) :
    ∃ proc, final.procs other = some proc ∧ proc.whereAmI = place other := by
  rcases represented.located otherInside with ⟨proc, found, isPlace⟩
  rw [unlinked.procs, if_neg different]
  split
  · rw [found]
    exact ⟨_, rfl, isPlace⟩
  · exact ⟨proc, found, isPlace⟩

section Other

variable {other : Address} {kids : List Address} (old : (other, kids) ∈ tree.families)
  (different : other ≠ process) (notAmong : process ∉ kids)
include old different notAmong

omit parentFamily isSibling unlinked notAmong in
theorem notAdopted {kid : Address} (isKid : kid ∈ kids) : kid ∉ children :=
  fun isChild => different (represented.parent_unique old isKid isFamily isChild)

theorem list_unlinked {subTrees : LnkLst Address}
    (list : Represents memory.links subTrees (kids.map fun child => (slot child, place child))) :
    Represents final.links subTrees (kids.map fun child => (slots child, place child)) := by
  have notParent : other ≠ parent := by
    intro same
    subst same
    cases GenTree.family_unique represented.nodup old parentFamily
    exact notAmong isSibling
  have renamed : kids.map (fun child => (slots child, place child)) =
      kids.map fun child => (slot child, place child) := by
    apply List.map_congr_left
    intro kid isKid
    rw [unlinked.same kid (notAdopted represented isFamily old different isKid)]
  rw [renamed]
  apply list.congr
  rw [List.map_map]
  intro address member
  rcases List.mem_map.mp member with ⟨kid, isKid, isAddress⟩
  rw [← isAddress]
  apply unlinked.links
  · rcases represented.link old isKid with ⟨link, linkFound, _⟩
    simp [linkFound]
  · intro theirs
    rcases List.mem_map.mp theirs with ⟨sibling, isTheirs, same⟩
    have sameKid := represented.slot_inj parentFamily isTheirs old isKid same
    subst sameKid
    exact notParent (represented.parent_unique old isKid parentFamily isTheirs)
  · intro own
    rcases List.mem_map.mp own with ⟨child, isChild, same⟩
    exact notAdopted represented isFamily old different isKid
      (represented.slot_inj isFamily isChild old isKid same ▸ isChild)

include parentFound in
theorem otherFamily_unlinked : Family final place slots other kids := by
  have kinship := represented.families other kids old
  have otherInside := GenTree.mem_values_of_family old
  have stays : ∀ kid ∈ kids, kid ≠ process ∧ kid ∉ children := fun kid isKid =>
    ⟨fun same => notAmong (same ▸ isKid), notAdopted represented isFamily old different isKid⟩
  rcases tree_unlinked represented isFamily parentFamily unlinked with ⟨_, _, treeAt⟩
  constructor
  · exact located_unlinked represented unlinked otherInside different
  · rcases kinship.listed with ⟨node, found, isData, list⟩
    have kept := list_unlinked represented isFamily parentFamily isSibling unlinked old different
      notAmong list
    have notParent : other ≠ parent := by
      intro same
      subst same
      cases GenTree.family_unique represented.nodup old parentFamily
      exact notAmong isSibling
    rw [treeAt other otherInside different, if_neg notParent, found]
    split
    · exact ⟨_, rfl, isData, kept⟩
    · exact ⟨node, rfl, isData, kept⟩
  · intro kid isKid
    rw [keptProc_unlinked unlinked (stays kid isKid).1 (stays kid isKid).2]
    exact kinship.childProcs kid isKid
  · intro kid isKid
    exact keptTree_unlinked represented isFamily parentFamily parentFound unlinked
      (GenTree.child_mem_values old isKid) (stays kid isKid).1 (stays kid isKid).2
      (kinship.childTrees kid isKid)

end Other

omit unlinked in
theorem mem_erase_process {kid : Address} (isKid : kid ∈ (siblings ++ children).erase process) :
    (kid ∈ siblings ∧ kid ≠ process ∧ kid ∉ children) ∨ kid ∈ children := by
  have apart := parent_apart represented isFamily parentFamily isSibling
  rcases List.mem_append.mp (List.mem_of_mem_erase isKid) with isOld | isNew
  · left
    refine ⟨isOld, ?_, fun isChild => apart.2.2.2 kid isChild isOld⟩
    intro same
    have both : (siblings ++ children).Nodup := by
      apply List.nodup_append.mpr
      refine ⟨represented.children_nodup parentFamily, represented.children_nodup isFamily, ?_⟩
      intro one isOne two isTwo equal
      exact apart.2.2.2 two isTwo (equal ▸ isOne)
    exact both.not_mem_erase (same ▸ isKid)
  · exact .inr isNew

theorem adopted_unlinked {child : Address} (isChild : child ∈ children) :
    (∃ proc, final.procs child = some proc ∧ proc.parent = some parent) ∧
      ∃ node, final.trees (place child) = some node ∧
        node.parentTree = some (place parent) := by
  have apart := parent_apart represented isFamily parentFamily isSibling
  have inside := GenTree.child_mem_values isFamily isChild
  have stays : child ≠ process := fun same => apart.2.2.1 (same ▸ isChild)
  have notParent : child ≠ parent := fun same => apart.2.1 (same ▸ isChild)
  rcases tree_unlinked represented isFamily parentFamily unlinked with ⟨_, _, treeAt⟩
  constructor
  · rcases represented.located inside with ⟨proc, found, _⟩
    rw [unlinked.procs, if_neg stays, if_pos isChild, found]
    exact ⟨_, rfl, rfl⟩
  · rcases represented.node inside with ⟨node, found, _⟩
    rw [treeAt child inside stays, if_neg notParent, if_pos isChild, found]
    exact ⟨_, rfl, rfl⟩

include parentFound in
theorem parentFamily_unlinked :
    Family final place slots parent ((siblings ++ children).erase process) := by
  have apart := parent_apart represented isFamily parentFamily isSibling
  have parentInside := GenTree.mem_values_of_family parentFamily
  have kinship := represented.families parent siblings parentFamily
  rcases tree_unlinked represented isFamily parentFamily unlinked with ⟨_, list, treeAt⟩
  constructor
  · exact located_unlinked represented unlinked parentInside apart.1.symm
  · rcases kinship.listed with ⟨node, found, isData, _⟩
    cases parentFound.symm.trans found
    rw [treeAt parent parentInside apart.1.symm, if_pos rfl]
    exact ⟨_, rfl, isData, list⟩
  · intro kid isKid
    rcases mem_erase_process represented isFamily parentFamily isSibling isKid with
      ⟨isOld, stays, notChild⟩ | isChild
    · rw [keptProc_unlinked unlinked stays notChild]
      exact kinship.childProcs kid isOld
    · exact (adopted_unlinked represented isFamily parentFamily isSibling unlinked isChild).1
  · intro kid isKid
    rcases mem_erase_process represented isFamily parentFamily isSibling isKid with
      ⟨isOld, stays, notChild⟩ | isChild
    · exact keptTree_unlinked represented isFamily parentFamily parentFound unlinked
        (GenTree.child_mem_values parentFamily isOld) stays notChild
        (kinship.childTrees kid isOld)
    · exact (adopted_unlinked represented isFamily parentFamily isSibling unlinked isChild).2

omit represented isFamily parentFamily isSibling in
include parentFound in
/-- Nothing has been allocated but list nodes. -/
theorem allocated_unlinked {address : Address} :
    (final.procs address ≠ none → address ≠ process ∧ memory.procs address ≠ none) ∧
      (final.trees address ≠ none → address ≠ place process ∧ memory.trees address ≠ none) := by
  constructor
  · intro allocated
    rw [unlinked.procs] at allocated
    split at allocated
    · exact absurd rfl allocated
    case isFalse different =>
      refine ⟨different, fun absent => ?_⟩
      rw [absent] at allocated
      split at allocated <;> exact allocated rfl
  · intro allocated
    rcases unlinked.trees with ⟨subTrees, trees, _⟩
    rw [trees] at allocated
    split at allocated
    · exact absurd rfl allocated
    case isFalse different =>
      refine ⟨different, ?_⟩
      split at allocated
      case isTrue isParent =>
        rw [isParent, parentFound]
        simp
      case isFalse =>
        intro absent
        rw [absent] at allocated
        split at allocated <;> exact allocated rfl

theorem link_unlinked {address : Address} (allocated : final.links address ≠ none) :
    ∃ other ∈ tree.values, other ≠ process ∧ other ≠ tree.data ∧ address = slots other := by
  have apart := parent_apart represented isFamily parentFamily isSibling
  have rootStays := represented.root_not_child isFamily
  rcases unlinked.others address allocated with ⟨notOwn, notProcess, old | new⟩
  · rcases represented.links address old with ⟨other, otherInside, otherNotRoot, isSlot⟩
    have notChild : other ∉ children := by
      intro isChild
      exact notOwn (isSlot ▸ List.mem_map_of_mem isChild)
    exact ⟨other, otherInside, fun same => notProcess (same ▸ isSlot), otherNotRoot,
      isSlot.trans (unlinked.same other notChild).symm⟩
  · rcases List.mem_map.mp new with ⟨child, isChild, isAddress⟩
    exact ⟨child, GenTree.child_mem_values isFamily isChild,
      fun same => apart.2.2.1 (same ▸ isChild), fun same => rootStays (same ▸ isChild),
      isAddress.symm⟩

include parentFound in
theorem unlinked_represented (notRoot : process ≠ tree.data) :
    Represented final (tree.dissolve process) place slots := by
  have rootStays : tree.data ∉ children := represented.root_not_child isFamily
  constructor
  · exact GenTree.nodup_dissolve represented.nodup notRoot.symm
  · intro other kids kin
    have otherMember := GenTree.mem_values_of_family kin
    rcases GenTree.mem_of_mem_dissolve represented.nodup notRoot.symm otherMember with
      ⟨otherInside, different⟩
    rcases GenTree.mem_families_dissolve represented.nodup notRoot.symm kin with
      ⟨old, notAmong⟩ | ⟨before, orphans, old, ownFamily, among, isErased⟩
    · exact otherFamily_unlinked represented isFamily parentFamily isSibling parentFound unlinked
        old different notAmong
    · have isParent : other = parent :=
        represented.parent_unique old among parentFamily isSibling
      subst isParent
      cases GenTree.family_unique represented.nodup old parentFamily
      cases GenTree.family_unique represented.nodup ownFamily isFamily
      subst isErased
      exact parentFamily_unlinked represented isFamily parentFamily isSibling parentFound unlinked
  · rw [GenTree.dissolve_data, unlinked.processTree]
    exact represented.root
  · rw [GenTree.dissolve_data, keptProc_unlinked unlinked notRoot.symm rootStays]
    exact represented.rootProc
  · rw [GenTree.dissolve_data]
    exact keptTree_unlinked represented isFamily parentFamily parentFound unlinked
      tree.data_mem_values notRoot.symm rootStays represented.rootTree
  · intro address inUse
    rcases (allocated_unlinked parentFound unlinked).1 inUse with ⟨different, before⟩
    exact GenTree.mem_dissolve_of_mem (represented.procs address before) different
  · intro address inUse
    rcases (allocated_unlinked parentFound unlinked).2 inUse with ⟨notPlace, before⟩
    rcases represented.trees address before with ⟨other, otherInside, isPlace⟩
    have different : other ≠ process := fun same => notPlace (same ▸ isPlace)
    exact ⟨other, GenTree.mem_dissolve_of_mem otherInside different, isPlace⟩
  · intro address inUse
    rw [GenTree.dissolve_data]
    rcases link_unlinked represented isFamily parentFamily isSibling unlinked inUse with
      ⟨other, otherInside, different, otherNotRoot, isSlot⟩
    exact ⟨other, GenTree.mem_dissolve_of_mem otherInside different, otherNotRoot, isSlot⟩

end Gone

theorem procDestroy_eq {proc : ProcT} (found : memory.procs process = some proc)
    (notKernel : proc.pid ≠ 1) (blocks : List Address) :
    procDestroy memory process blocks =
      (reparentChildren parent (place parent) blocks
        (headOr none (children.map fun child => (slot child, place child))) memory).bind
          fun memory => (detach memory (place parent) (place process)).bind fun memory =>
            (genericTreeDestroy memory (place process)).map fun memory =>
              { memory with procs := Function.update memory.procs process none } := by
  have family := represented.families process children isFamily
  rcases family.located with ⟨same, sameFound, isPlace⟩
  cases found.symm.trans sameFound
  rcases (represented.families parent siblings parentFamily).childProcs process isSibling with
    ⟨same, sameFound, isParent⟩
  cases found.symm.trans sameFound
  rcases represented.located (GenTree.mem_values_of_family parentFamily) with
    ⟨parentProc, parentFound, parentPlace⟩
  rcases family.listed with ⟨node, nodeFound, _, list⟩
  have loops : (if 0 < node.subTrees.listLength then
        reparentChildren parent (place parent) blocks node.subTrees.listHead memory
      else some memory) =
      reparentChildren parent (place parent) blocks
        (headOr none (children.map fun child => (slot child, place child))) memory := by
    rw [list.head]
    split
    case isTrue => rfl
    case isFalse noChildren =>
      have isEmpty : children = [] := by
        have length := list.length
        rw [List.length_map] at length
        exact List.length_eq_zero_iff.mp (by omega)
      rw [isEmpty, List.map_nil, headOr, reparentChildren]
  simp only [procDestroy, found, if_neg notKernel, isParent, parentFound, isPlace, parentPlace,
    nodeFound, ← loops, Option.bind_eq_bind, Option.bind_some, Option.pure_def,
    Option.map_eq_bind, Function.comp_def]
  split <;> rfl

end Destroy

namespace Represented

variable {memory : Memory} {tree : GenTree Address} {place slot : Address → Address}
  (represented : Represented memory tree place slot)
include represented

/-- A destroyed process leaves its children to its parent, and everybody else as it is. -/
theorem procDestroy {process : Address} {proc : ProcT} {blocks : List Address} {final : Memory}
    (found : memory.procs process = some proc) (notKernel : proc.pid ≠ 1)
    (notRoot : process ≠ tree.data)
    (destroyed : ProcessTree.procDestroy memory process blocks = some final) :
    (∃ slots, Represented final (tree.dissolve process) place slots) ∧
      final.procPid = memory.procPid ∧
      ∀ address later, final.procs address = some later → ∃ before,
        memory.procs address = some before ∧ later.pid = before.pid ∧
          later.nodes = before.nodes := by
  have member := represented.procs process (by simp [found])
  rcases GenTree.exists_family member with ⟨children, isFamily⟩
  rcases GenTree.exists_parent member notRoot with ⟨parent, siblings, parentFamily, isSibling⟩
  rcases (represented.families parent siblings parentFamily).listed with
    ⟨parentNode, parentFound, _, list⟩
  rw [procDestroy_eq represented isFamily parentFamily isSibling found notKernel] at destroyed
  rcases Option.bind_eq_some_iff.mp destroyed with ⟨after, looped, rest⟩
  rcases reparented_loop represented isFamily parentFamily isSibling
    (reparented_initial parentFound list) (List.nil_append _).symm looped with
    ⟨slots, reparented⟩
  rcases unlinked_of_reparented represented isFamily parentFamily isSibling reparented with
    ⟨same, ends, unlinked⟩
  cases rest.symm.trans ends
  refine ⟨⟨slots, unlinked_represented represented isFamily parentFamily isSibling parentFound
    unlinked notRoot⟩, unlinked.procPid, ?_⟩
  intro address later isLater
  rw [unlinked.procs] at isLater
  split at isLater
  · cases isLater
  · split at isLater
    · rcases Option.map_eq_some_iff.mp isLater with ⟨before, isBefore, changed⟩
      exact ⟨before, isBefore, by rw [← changed], by rw [← changed]⟩
    · exact ⟨later, isLater, rfl, rfl⟩

/-- `proc_destroy` returns, whatever blocks `kern_malloc` hands out meanwhile. -/
theorem procDestroy_returns {process : Address} {proc : ProcT} {node : GenTreeT}
    {blocks : List Address} (found : memory.procs process = some proc)
    (notRoot : process ≠ tree.data) (nodeFound : memory.trees proc.whereAmI = some node)
    (enough : node.subTrees.listLength ≤ blocks.length)
    (unused : ∀ block ∈ blocks, memory.Unused block) (nodup : blocks.Nodup) :
    ∃ final, ProcessTree.procDestroy memory process blocks = some final := by
  by_cases isKernel : proc.pid = 1
  · refine ⟨memory, ?_⟩
    rw [ProcessTree.procDestroy, found]
    simp [isKernel]
  have member := represented.procs process (by simp [found])
  rcases GenTree.exists_family member with ⟨children, isFamily⟩
  rcases GenTree.exists_parent member notRoot with ⟨parent, siblings, parentFamily, isSibling⟩
  rcases (represented.families parent siblings parentFamily).listed with
    ⟨parentNode, parentFound, _, list⟩
  have length : children.length ≤ blocks.length := by
    rcases represented.located member with ⟨same, sameFound, isPlace⟩
    cases found.symm.trans sameFound
    rcases (represented.families process children isFamily).listed with
      ⟨ownNode, ownFound, _, ownList⟩
    rw [isPlace, ownFound] at nodeFound
    cases nodeFound
    have counted := ownList.length
    rw [List.length_map] at counted
    omega
  rcases reparentChildren_ends represented isFamily parentFamily isSibling
    (reparented_initial parentFound list) (List.nil_append _).symm length unused nodup with
    ⟨after, looped⟩
  rcases reparented_loop represented isFamily parentFamily isSibling
    (reparented_initial parentFound list) (List.nil_append _).symm looped with
    ⟨slots, reparented⟩
  rcases unlinked_of_reparented represented isFamily parentFamily isSibling reparented with
    ⟨final, ends, _⟩
  refine ⟨final, ?_⟩
  rw [procDestroy_eq represented isFamily parentFamily isSibling found isKernel, looped,
    Option.bind_some]
  exact ends

end Represented

end Dbos.ProcessTree
