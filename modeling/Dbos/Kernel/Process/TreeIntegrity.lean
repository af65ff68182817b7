import Mathlib.Algebra.Group.Nat.Defs
import Dbos.Foundation.Execution
import Dbos.Kernel.Process.TreeEdits

/-! # Integrity of the process tree

In every run of `proc_create`, `proc_clone` and `proc_destroy` after
`proc_create_kernel`, the tree holds the processes that have been created and not
destroyed, and their pointers to each other and to their nodes are right. -/

namespace Dbos.ProcessTree

open Dbos.LinkedList Dbos.Execution

/-- How many processes the operations create. -/
def creations : List Operation → Nat
  | [] => 0
  | .create _ _ :: operations | .clone _ _ :: operations => creations operations + 1
  | .destroy _ _ :: operations => creations operations

/-- Who is alive after an operation; the kernel cannot be destroyed. -/
def survivors (kernel : Address) (living : List Address) : Operation → List Address
  | .create _ blocks | .clone _ blocks => blocks.process :: living
  | .destroy process _ =>
      if process = kernel then living else living.filter fun other => other ≠ process

/-- The processes that have been created and not yet destroyed. -/
def livingAfter (kernel : Address) (operations : List Operation) : List Address :=
  operations.foldl (survivors kernel) [kernel]

/-- What the process tree should be: it holds exactly the living processes, each once
and with a pid of its own. Every process points to its node, and every process but the
one at the root to the process in the node above. -/
structure Integrity (memory : Memory) (living : List Address) : Prop where
  tree : ∃ tree, HoldsTree memory none memory.processTree tree ∧ tree.values.Nodup ∧
    ∀ process, process ∈ tree.values ↔ process ∈ living
  pids : ∀ process ∈ living, ∀ other ∈ living, ∀ proc otherProc,
    memory.procs process = some proc → memory.procs other = some otherProc →
      proc.pid = otherProc.pid → process = other
  pointers : ∀ process ∈ living, ∃ proc node, memory.procs process = some proc ∧
    memory.trees proc.whereAmI = some node ∧ node.data = process ∧
    (proc.whereAmI ≠ memory.processTree → ∃ parentTree parentNode,
      node.parentTree = some parentTree ∧ memory.trees parentTree = some parentNode ∧
        proc.parent = some parentNode.data)

/-- The pids handed out so far, and who has a list of open nodes. -/
structure Numbered (memory : Memory) (kernel : Address) (created : Nat) : Prop where
  counter : memory.procPid.toNat = created + 1
  bounded : ∀ address proc, memory.procs address = some proc → proc.pid.toNat ≤ created + 1
  distinct : ∀ address other proc otherProc, memory.procs address = some proc →
    memory.procs other = some otherProc → proc.pid = otherProc.pid → address = other
  first : ∀ address proc, memory.procs address = some proc → (proc.pid = 1 ↔ address = kernel)
  nodes : ∀ address proc, memory.procs address = some proc → address ≠ kernel →
    proc.nodes ≠ none

/-- The invariant of the runs. -/
structure Sound (memory : Memory) (kernel : Address) (living : List Address)
    (created : Nat) : Prop where
  represented : ∃ tree place slot, Represented memory tree place slot ∧ tree.data = kernel ∧
    ∀ process, process ∈ tree.values ↔ process ∈ living
  numbered : Numbered memory kernel created

theorem Sound.integrity {memory : Memory} {kernel : Address} {living : List Address}
    {created : Nat} (sound : Sound memory kernel living created) : Integrity memory living := by
  rcases sound.represented with ⟨tree, place, slot, represented, _, members⟩
  constructor
  · exact ⟨tree, represented.holdsTree, represented.nodup, members⟩
  · intro process _ other _ proc otherProc found otherFound
    exact sound.numbered.distinct process other proc otherProc found otherFound
  · intro process isLiving
    have member := (members process).mpr isLiving
    rcases represented.located member with ⟨proc, found, isPlace⟩
    rcases represented.node member with ⟨node, nodeFound, isData⟩
    refine ⟨proc, node, found, isPlace ▸ nodeFound, isData, ?_⟩
    intro notTop
    have notRoot : process ≠ tree.data := by
      intro same
      exact notTop (by rw [isPlace, same, represented.root])
    rcases GenTree.exists_parent member notRoot with ⟨parent, siblings, isFamily, isChild⟩
    have family := represented.families parent siblings isFamily
    rcases family.listed with ⟨parentNode, parentFound, isParent, _⟩
    rcases family.childTrees process isChild with ⟨same, sameFound, above⟩
    cases nodeFound.symm.trans sameFound
    rcases family.childProcs process isChild with ⟨same, sameFound, parentIs⟩
    cases found.symm.trans sameFound
    exact ⟨place parent, parentNode, above, parentFound, isParent ▸ parentIs⟩

/-! ## The operations keep the invariant -/

namespace Numbered

variable {memory final : Memory} {kernel : Address} {created : Nat}
  (numbered : Numbered memory kernel created)
include numbered

theorem add {process : Address} {proc : ProcT} (few : created + 1 < 2 ^ 31)
    (isNext : proc.pid = memory.procPid + 1) (hasNodes : proc.nodes ≠ none)
    (notKernel : process ≠ kernel) (procPid : final.procPid = memory.procPid + 1)
    (procs : final.procs = Function.update memory.procs process (some proc)) :
    Numbered final kernel (created + 1) := by
  have next : (memory.procPid + 1).toNat = created + 2 := by
    rw [BitVec.toNat_add, numbered.counter]
    have one : (1 : BitVec 32).toNat = 1 := rfl
    rw [one]
    omega
  have cases : ∀ address other, final.procs address = some other →
      (address = process ∧ other = proc) ∨
        (address ≠ process ∧ memory.procs address = some other) := by
    intro address other found
    rw [procs] at found
    by_cases isNew : address = process
    · rw [isNew, Function.update_self] at found
      exact .inl ⟨isNew, (Option.some.inj found).symm⟩
    · rw [Function.update_of_ne isNew] at found
      exact .inr ⟨isNew, found⟩
  have newer : ∀ address other, memory.procs address = some other → other.pid ≠ proc.pid := by
    intro address other found same
    have bound := numbered.bounded address other found
    rw [same, isNext, next] at bound
    omega
  constructor
  · rw [procPid, next]
  · intro address other found
    rcases cases address other found with ⟨_, isNew⟩ | ⟨_, old⟩
    · have isLast : proc.pid.toNat = created + 2 := by rw [isNext, next]
      rw [isNew]
      omega
    · have bound := numbered.bounded address other old
      omega
  · intro address other one two found otherFound same
    rcases cases address one found with ⟨isNew, isProc⟩ | ⟨_, old⟩
    · rcases cases other two otherFound with ⟨otherNew, _⟩ | ⟨_, otherOld⟩
      · rw [isNew, otherNew]
      · exact absurd (same.symm.trans (by rw [isProc])) (newer other two otherOld)
    · rcases cases other two otherFound with ⟨_, isProc⟩ | ⟨_, otherOld⟩
      · exact absurd (same.trans (by rw [isProc])) (newer address one old)
      · exact numbered.distinct address other one two old otherOld same
  · intro address other found
    rcases cases address other found with ⟨isNew, isProc⟩ | ⟨_, old⟩
    · rw [isNew, isProc]
      constructor
      · intro isOne
        have large := congrArg BitVec.toNat isOne
        rw [isNext, next] at large
        have one : (1 : BitVec 32).toNat = 1 := rfl
        omega
      · intro same
        exact absurd same notKernel
    · exact numbered.first address other old
  · intro address other found different
    rcases cases address other found with ⟨_, isProc⟩ | ⟨_, old⟩
    · rw [isProc]
      exact hasNodes
    · exact numbered.nodes address other old different

theorem shrink (procPid : final.procPid = memory.procPid)
    (kept : ∀ address later, final.procs address = some later → ∃ before,
      memory.procs address = some before ∧ later.pid = before.pid ∧ later.nodes = before.nodes) :
    Numbered final kernel created := by
  constructor
  · rw [procPid, numbered.counter]
  · intro address proc found
    rcases kept address proc found with ⟨before, isBefore, samePid, _⟩
    rw [samePid]
    exact numbered.bounded address before isBefore
  · intro address other proc otherProc found otherFound same
    rcases kept address proc found with ⟨before, isBefore, samePid, _⟩
    rcases kept other otherProc otherFound with ⟨otherBefore, otherIs, otherPid, _⟩
    apply numbered.distinct address other before otherBefore isBefore otherIs
    rw [← samePid, ← otherPid, same]
  · intro address proc found
    rcases kept address proc found with ⟨before, isBefore, samePid, _⟩
    rw [samePid]
    exact numbered.first address before isBefore
  · intro address proc found different
    rcases kept address proc found with ⟨before, isBefore, _, sameNodes⟩
    rw [sameNodes]
    exact numbered.nodes address before isBefore different

end Numbered

namespace Sound

variable {gtty : Option Address} {memory final : Memory} {kernel : Address}
  {living : List Address} {created : Nat} (sound : Sound memory kernel living created)
include sound

theorem procs_iff {process : Address} : memory.procs process ≠ none ↔ process ∈ living := by
  rcases sound.represented with ⟨tree, place, slot, represented, _, members⟩
  rw [← members process]
  constructor
  · exact represented.procs process
  · intro member absent
    rcases represented.located member with ⟨proc, found, _⟩
    rw [absent] at found
    cases found

theorem addProcess {parent : Address} (isLiving : parent ∈ living) {blocks : Blocks}
    (fresh : blocks.Fresh memory) (nodes : List Address) (type : ProcType)
    (few : created + 1 < 2 ^ 31) :
    ∃ after, ProcessTree.addProcess memory parent (some nodes) type blocks = some after ∧
      Sound after kernel (blocks.process :: living) (created + 1) := by
  rcases sound.represented with ⟨tree, place, slot, represented, isKernel, members⟩
  have member := (members parent).mpr isLiving
  rcases represented.addProcess member fresh (some nodes) type with
    ⟨after, added, holds, procPid, procs⟩
  have unused : blocks.process ∉ tree.values := by
    intro inside
    exact (represented.unused_ne fresh.1 inside).1 rfl
  refine ⟨after, added, ⟨_, _, _, holds, ?_, ?_⟩, ?_⟩
  · rw [GenTree.createUnder_data, isKernel]
  · intro process
    rw [List.mem_cons, ← members process]
    constructor
    · intro inside
      exact (GenTree.mem_createUnder inside).symm
    · intro cases
      rcases cases with isNew | old
      · rw [isNew]
        exact GenTree.data_mem_createUnder member
      · exact GenTree.mem_createUnder_of_mem old fun same => unused (same ▸ old)
  · apply sound.numbered.add few _ _ _ procPid procs
    · rfl
    · simp
    · intro same
      exact unused (same.trans isKernel.symm ▸ tree.data_mem_values)

theorem destroy {process : Address} {blocks : List Address}
    (destroyed : procDestroy memory process blocks = some final) :
    Sound final kernel (survivors kernel living (.destroy process blocks)) created := by
  rcases sound.represented with ⟨tree, place, slot, represented, isKernel, members⟩
  cases found : memory.procs process with
  | none => simp [procDestroy, found] at destroyed
  | some proc =>
      by_cases isFirst : process = kernel
      · have pid := (sound.numbered.first process proc found).mpr isFirst
        simp only [procDestroy, found, pid, Option.bind_eq_bind, Option.bind_some, if_true,
          Option.pure_def, Option.some.injEq] at destroyed
        rw [survivors, if_pos isFirst, ← destroyed]
        exact sound
      · have pid : proc.pid ≠ 1 := by
          intro isOne
          exact isFirst ((sound.numbered.first process proc found).mp isOne)
        have notRoot : process ≠ tree.data := fun same => isFirst (same.trans isKernel)
        rcases represented.procDestroy found pid notRoot destroyed with
          ⟨⟨slots, holds⟩, procPid, kept⟩
        rw [survivors, if_neg isFirst]
        refine ⟨⟨_, _, _, holds, ?_, ?_⟩, sound.numbered.shrink procPid kept⟩
        · rw [GenTree.dissolve_data, isKernel]
        · intro other
          rw [List.mem_filter, ← members other, decide_eq_true_eq]
          constructor
          · exact GenTree.mem_of_mem_dissolve represented.nodup notRoot.symm
          · intro stays
            exact GenTree.mem_dissolve_of_mem stays.1 stays.2

theorem step {operation : Operation} (few : created + creations [operation] < 2 ^ 31)
    (stepped : ProcessTree.step gtty memory operation = some final) :
    Sound final kernel (survivors kernel living operation)
      (created + creations [operation]) := by
  cases operation with
  | create parent blocks =>
      rw [ProcessTree.step] at stepped
      split at stepped
      case isFalse => cases stepped
      case isTrue fresh =>
        have isLiving : parent ∈ living := by
          apply sound.procs_iff.mp
          intro absent
          simp [procCreate, ProcessTree.addProcess, absent] at stepped
        rcases sound.addProcess isLiving fresh gtty.toList .standalone few with
          ⟨after, added, later⟩
        cases added.symm.trans stepped
        exact later
  | clone parent blocks =>
      rw [ProcessTree.step] at stepped
      split at stepped
      case isFalse => cases stepped
      case isTrue fresh =>
        rcases Option.bind_eq_some_iff.mp stepped with ⟨parentProc, found, copies⟩
        rcases Option.bind_eq_some_iff.mp copies with ⟨nodes, _, adds⟩
        have isLiving : parent ∈ living := sound.procs_iff.mp (by simp [found])
        rcases sound.addProcess isLiving fresh nodes .clone few with ⟨after, added, later⟩
        cases added.symm.trans adds
        exact later
  | destroy process blocks => exact sound.destroy stepped

end Sound

theorem sound_procCreateKernel (kernel root : Address) :
    Sound (procCreateKernel kernel root) kernel [kernel] 0 := by
  have onlyProc : ∀ address proc, (procCreateKernel kernel root).procs address = some proc →
      address = kernel ∧ proc = ⟨1, none, .standalone, none, root⟩ := by
    intro address proc found
    by_cases isKernel : address = kernel
    · subst isKernel
      simp only [procCreateKernel, Function.update_self] at found
      exact ⟨rfl, (Option.some.inj found).symm⟩
    · simp [procCreateKernel, Function.update_of_ne isKernel] at found
  have found : (procCreateKernel kernel root).procs kernel =
      some ⟨1, none, .standalone, none, root⟩ := by
    simp [procCreateKernel]
  have rootFound : (procCreateKernel kernel root).trees root =
      some ⟨kernel, linkedListCreate, none⟩ := by
    simp [procCreateKernel]
  constructor
  · refine ⟨.node kernel [], fun _ => root, id, ?_, rfl, ?_⟩
    · constructor
      · exact List.nodup_singleton _
      · intro process children kin
        simp only [GenTree.families, GenTree.familiesOfAll, List.map_nil,
          List.mem_singleton, Prod.mk.injEq] at kin
        rw [kin.1, kin.2]
        constructor
        · exact ⟨_, found, rfl⟩
        · exact ⟨_, rootFound, rfl, Represents.empty⟩
        · intro child member
          cases member
        · intro child member
          cases member
      · rfl
      · exact ⟨_, found, rfl⟩
      · exact ⟨_, rootFound, rfl⟩
      · intro address allocated
        rcases Option.ne_none_iff_exists'.mp allocated with ⟨proc, isProc⟩
        rw [(onlyProc address proc isProc).1]
        exact List.mem_singleton_self _
      · intro address allocated
        refine ⟨kernel, List.mem_singleton_self _, ?_⟩
        by_contra different
        apply allocated
        simp [procCreateKernel, different]
      · intro address allocated
        exact absurd rfl allocated
    · intro process
      rfl
  · constructor
    · rfl
    · intro address proc isProc
      rw [(onlyProc address proc isProc).2]
      exact Nat.le_refl 1
    · intro address other proc otherProc isProc isOther _
      rw [(onlyProc address proc isProc).1, (onlyProc other otherProc isOther).1]
    · intro address proc isProc
      rw [(onlyProc address proc isProc).1, (onlyProc address proc isProc).2]
      simp
    · intro address proc isProc different
      exact absurd (onlyProc address proc isProc).1 different

theorem creations_cons (operation : Operation) (operations : List Operation) :
    creations (operation :: operations) = creations [operation] + creations operations := by
  cases operation <;> simp [creations] <;> omega

theorem Sound.run {gtty : Option Address} {kernel : Address} {operations : List Operation}
    {memory final : Memory} {living : List Address} {created : Nat}
    (sound : Sound memory kernel living created)
    (few : created + creations operations < 2 ^ 31)
    (reached : Execution.run (ProcessTree.step gtty) memory operations = some final) :
    Sound final kernel (operations.foldl (survivors kernel) living)
      (created + creations operations) := by
  induction operations generalizing memory living created with
  | nil =>
      cases reached
      exact sound
  | cons operation operations induction =>
      rcases Option.bind_eq_some_iff.mp reached with ⟨next, stepped, rest⟩
      rw [creations_cons] at few ⊢
      have later := sound.step (by omega) stepped
      rw [← Nat.add_assoc]
      exact induction later (by omega) rest

/-! ## Every run -/

/-- The operations that may be asked for: the parent or the process to destroy is
allocated, and `kern_malloc` returns what is needed. The kernel is never cloned. -/
def Legal (memory : Memory) (kernel : Address) : Operation → Prop
  | .create parent blocks => memory.procs parent ≠ none ∧ blocks.Fresh memory
  | .clone parent blocks =>
      memory.procs parent ≠ none ∧ parent ≠ kernel ∧ blocks.Fresh memory
  | .destroy process blocks => ∃ proc node, memory.procs process = some proc ∧
      memory.trees proc.whereAmI = some node ∧ node.subTrees.listLength ≤ blocks.length ∧
      (∀ block ∈ blocks, memory.Unused block) ∧ blocks.Nodup

theorem Sound.step_isSome {gtty : Option Address} {memory : Memory} {kernel : Address}
    {living : List Address} {created : Nat} (sound : Sound memory kernel living created)
    {operation : Operation} (few : created + 1 < 2 ^ 31)
    (legal : Legal memory kernel operation) :
    (ProcessTree.step gtty memory operation).isSome = true := by
  cases operation with
  | create parent blocks =>
      rcases sound.addProcess (sound.procs_iff.mp legal.1) legal.2 gtty.toList .standalone few
        with ⟨after, added, _⟩
      rw [ProcessTree.step, if_pos legal.2, procCreate, added]
      rfl
  | clone parent blocks =>
      rcases Option.ne_none_iff_exists'.mp legal.1 with ⟨parentProc, found⟩
      have hasNodes := sound.numbered.nodes parent parentProc found legal.2.1
      rcases Option.ne_none_iff_exists'.mp hasNodes with ⟨nodes, isNodes⟩
      rcases sound.addProcess (sound.procs_iff.mp legal.1) legal.2.2 nodes .clone few with
        ⟨after, added, _⟩
      rw [ProcessTree.step, if_pos legal.2.2, procClone, found]
      simp [isNodes, added]
  | destroy process blocks =>
      rcases legal with ⟨proc, node, found, nodeFound, enough, unused, nodup⟩
      rcases sound.represented with ⟨tree, place, slot, represented, isKernel, _⟩
      rw [ProcessTree.step]
      by_cases isFirst : process = kernel
      · have pid := (sound.numbered.first process proc found).mpr isFirst
        simp [procDestroy, found, pid]
      · have notRoot : process ≠ tree.data := fun same => isFirst (same.trans isKernel)
        rcases represented.procDestroy_returns found notRoot nodeFound enough unused nodup with
          ⟨final, destroyed⟩
        rw [destroyed]
        rfl

/-- After every sequence of operations the tree is intact, and whatever operation is
asked for next will be carried out. -/
theorem integrity_of_run (gtty : Option Address) (kernel root : Address)
    (operations : List Operation) (few : creations operations < 2 ^ 31) {final : Memory}
    (reached : run (step gtty) (procCreateKernel kernel root) operations = some final) :
    Integrity final (livingAfter kernel operations) ∧
      ∀ operation, creations operations + 1 < 2 ^ 31 → Legal final kernel operation →
        (step gtty final operation).isSome = true := by
  have sound := (sound_procCreateKernel kernel root).run (by omega) reached
  rw [Nat.zero_add] at sound
  constructor
  · exact sound.integrity
  · intro operation room legal
    exact sound.step_isSome room legal

/-- The kernel at 1 creates process 10, which is cloned as 20 and then destroyed. -/
theorem integrity_of_run_orphan :
    ∃ final, run (step (some 7)) (procCreateKernel 1 2)
        [.create 1 ⟨10, 11, 12⟩, .clone 10 ⟨20, 21, 22⟩, .destroy 10 [30]] = some final ∧
      Integrity final [20, 1] := by
  have runs : (run (step (some 7)) (procCreateKernel 1 2)
      [.create 1 ⟨10, 11, 12⟩, .clone 10 ⟨20, 21, 22⟩, .destroy 10 [30]]).isSome = true := by
    decide
  rcases Option.isSome_iff_exists.mp runs with ⟨final, reached⟩
  exact ⟨final, reached, (integrity_of_run (some 7) 1 2 _ (by decide) reached).1⟩

end Dbos.ProcessTree
