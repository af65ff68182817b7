import Mathlib.Data.List.Nodup
import Mathlib.Logic.Function.Basic
import Dbos.Foundation.Execution

/-! # The open nodes of a process

The file system calls of `syscall.c`. A process keeps the nodes it has opened in
a linked list, and a file id is a position in that list. The list of a new
process holds the terminal, that of a forked one a copy of its parent's nodes.

What `vfs_find_node` finds and where `kern_malloc` puts a list node are
parameters of the calls. -/

namespace Dbos.Nodes

open Dbos.Execution

variable {Node : Type}

/-- `lnk_lst_node_t`: where the list node is allocated and what it points to. -/
structure Item (Node : Type) where
  address : Nat
  data : Node
deriving DecidableEq, Repr

/-- The loop over `process->nodes` that counts up to `nodeId`. -/
def itemAt : List (Item Node) → Int → Int → Option (Item Node)
  | [], _, _ => none
  | item :: rest, count, nodeId =>
      if count = nodeId then some item else itemAt rest (count + 1) nodeId

def syscGetProcNode (nodes : List (Item Node)) (nodeId : Int) : Option Node :=
  (itemAt nodes 0 nodeId).map Item.data

def linkedListAppend (nodes : List (Item Node)) (node : Node) (address : Nat) :
    List (Item Node) :=
  nodes ++ [⟨address, node⟩]

/-- `linked_list_remove`: a pointer that is not in the list removes nothing. -/
def linkedListRemove (nodes : List (Item Node)) (address : Nat) : List (Item Node) :=
  nodes.eraseP fun item => item.address = address

def syscSetProcessNode (nodes : List (Item Node)) (node : Node) (address : Nat) :
    Int × List (Item Node) :=
  let nodes := linkedListAppend nodes node address
  (nodes.length - 1, nodes)

def syscOpen (nodes : List (Item Node)) (found : Option Node) (address : Nat) :
    Int × List (Item Node) :=
  match found with
  | none => (-1, nodes)
  | some node => syscSetProcessNode nodes node address

/-- `sysc_close`. The local variable that the loop assigns has no initial value:
if the loop finds nothing, it is whatever was on the stack (`stale`, with `none`
for `NULL`). -/
def syscClose (nodes : List (Item Node)) (nodeId : Int) (stale : Option Nat) :
    Int × List (Item Node) :=
  let node :=
    match itemAt nodes 0 nodeId with
    | some item => some item.address
    | none => stale
  match node with
  | none => (-1, nodes)
  | some address => (0, linkedListRemove nodes address)

/-- The operations that go through a node. -/
inductive Operation where
  | read
  | write
  | ioctl
  | list
deriving DecidableEq, Repr

/-- What a system call ends with: a value in `eax`, or a call of the node's own
operation, whose result then goes to `eax`. -/
inductive Reply (Node : Type) where
  | eax (value : Int)
  | calls (operation : Operation) (node : Node)
  /-- `sysc_list` on a node that is not a directory: -1. -/
  | refused (node : Node)
deriving DecidableEq, Repr

/-- The node a call has got hold of. -/
def Reply.node? : Reply Node → Option Node
  | .eax _ => none
  | .calls _ node => some node
  | .refused node => some node

/-- The common part of the system calls that take a file id. -/
def throughNode (operation : Operation) (nodes : List (Item Node)) (nodeId : Int) :
    Reply Node :=
  match syscGetProcNode nodes nodeId with
  | none => .eax (-1)
  | some node => .calls operation node

def syscRead (nodes : List (Item Node)) (nodeId : Int) : Reply Node :=
  throughNode .read nodes nodeId

def syscWrite (nodes : List (Item Node)) (nodeId : Int) : Reply Node :=
  throughNode .write nodes nodeId

def syscIoctl (nodes : List (Item Node)) (nodeId : Int) : Reply Node :=
  throughNode .ioctl nodes nodeId

/-- `sysc_list`, which first looks at the type of the node. -/
def syscList (isDirectory : Node → Bool) (nodes : List (Item Node)) (nodeId : Int) :
    Reply Node :=
  match syscGetProcNode nodes nodeId with
  | none => .eax (-1)
  | some node => if isDirectory node then .calls .list node else .refused node

def syscUse (isDirectory : Node → Bool) (nodes : List (Item Node)) (nodeId : Int) :
    Operation → Reply Node
  | .read => syscRead nodes nodeId
  | .write => syscWrite nodes nodeId
  | .ioctl => syscIoctl nodes nodeId
  | .list => syscList isDirectory nodes nodeId

/-! ## What file ids are for -/

inductive Call (Node : Type) where
  | open (found : Option Node) (address : Nat)
  | close (nodeId : Int) (stale : Option Nat)
  | use (operation : Operation) (nodeId : Int)
deriving DecidableEq, Repr

/-- The node list together with the ledger a caller keeps: which ids it has been
given and not closed yet, and for which nodes. -/
structure World (Node : Type) where
  nodes : List (Item Node)
  opened : Int → Option Node

/-- One system call. An `open` does not happen at an address that is in use:
`kern_malloc` returns no such block. -/
def step (isDirectory : Node → Bool) (world : World Node) :
    Call Node → Option (Reply Node × World Node)
  | .open found address =>
      if address ∈ world.nodes.map Item.address then none
      else
        let result := syscOpen world.nodes found address
        some (.eax result.1,
          { nodes := result.2
            opened :=
              match found with
              | none => world.opened
              | some node => Function.update world.opened result.1 (some node) })
  | .close nodeId stale =>
      let result := syscClose world.nodes nodeId stale
      some (.eax result.1,
        { nodes := result.2, opened := Function.update world.opened nodeId none })
  | .use operation nodeId => some (syscUse isDirectory world.nodes nodeId operation, world)

def advance (isDirectory : Node → Bool) (world : World Node) (call : Call Node) :
    Option (World Node) :=
  (step isDirectory world call).map Prod.snd

def Consistent (world : World Node) : Prop :=
  ∀ nodeId, syscGetProcNode world.nodes nodeId = world.opened nodeId

/-- The reply a caller may expect from its ledger. -/
def Right (world : World Node) (reply : Reply Node) (next : World Node) : Call Node → Prop
  | .open found _ =>
      ∀ node, found = some node → ∃ nodeId, reply = .eax nodeId ∧ world.opened nodeId = none
  | .close nodeId _ =>
      world.opened nodeId = none → reply = .eax (-1) ∧ next.nodes = world.nodes
  | .use _ nodeId =>
      (∀ node, world.opened nodeId = some node → reply.node? = some node) ∧
        (world.opened nodeId = none → reply = .eax (-1) ∧ next.nodes = world.nodes)

/-- Every call of the list gets the reply it should, and after every call all ids
that are open denote the nodes they were opened on. -/
def Stable (isDirectory : Node → Bool) : World Node → List (Call Node) → Prop
  | _, [] => True
  | world, call :: calls =>
      ∀ reply next, step isDirectory world call = some (reply, next) →
        Right world reply next call ∧ Consistent next ∧ Stable isDirectory next calls

/-- A `close` names the id at the end of the list, or finds `NULL` in its
uninitialised variable. -/
def closesLast (world : World Node) : Call Node → Prop
  | .close nodeId stale =>
      if 0 ≤ nodeId ∧ nodeId < world.nodes.length then nodeId + 1 = world.nodes.length
      else stale = none
  | _ => True

instance (world : World Node) (call : Call Node) : Decidable (closesLast world call) :=
  match call with
  | .open _ _ => .isTrue trivial
  | .use _ _ => .isTrue trivial
  | .close _ stale => inferInstanceAs (Decidable (ite _ _ (stale = none)))

/-! ## Lookup by position -/

theorem itemAt_eq (nodes : List (Item Node)) (count nodeId : Int) :
    itemAt nodes count nodeId =
      if count ≤ nodeId then nodes[(nodeId - count).toNat]? else none := by
  induction nodes generalizing count with
  | nil => simp [itemAt]
  | cons item rest induction =>
      unfold itemAt
      split
      case isTrue here => simp [here]
      case isFalse other =>
        rw [induction]
        by_cases before : count ≤ nodeId
        · have later : count + 1 ≤ nodeId := by omega
          have shift : (nodeId - count).toNat = (nodeId - (count + 1)).toNat + 1 := by omega
          simp [before, later, shift]
        · have notLater : ¬count + 1 ≤ nodeId := by omega
          simp [before, notLater]

theorem syscGetProcNode_ofNat (nodes : List (Item Node)) (index : Nat) :
    syscGetProcNode nodes index = nodes[index]?.map Item.data := by
  simp [syscGetProcNode, itemAt_eq]

theorem syscGetProcNode_neg (nodes : List (Item Node)) {nodeId : Int} (negative : nodeId < 0) :
    syscGetProcNode nodes nodeId = none := by
  have notNatural : ¬0 ≤ nodeId := by omega
  simp [syscGetProcNode, itemAt_eq, notNatural]

theorem Consistent.opened_eq_none_iff {world : World Node} (consistent : Consistent world)
    {nodeId : Int} :
    world.opened nodeId = none ↔ ¬(0 ≤ nodeId ∧ nodeId < world.nodes.length) := by
  rw [← consistent nodeId]
  rcases Int.lt_or_le nodeId 0 with negative | natural
  · rw [syscGetProcNode_neg _ negative]
    simp only [true_iff]
    omega
  · rcases Int.eq_ofNat_of_zero_le natural with ⟨index, rfl⟩
    rw [syscGetProcNode_ofNat, Option.map_eq_none_iff, List.getElem?_eq_none_iff]
    omega

theorem itemAt_of_mem_range {nodes : List (Item Node)} {nodeId : Int}
    (range : 0 ≤ nodeId ∧ nodeId < nodes.length) :
    ∃ item ∈ nodes, itemAt nodes 0 nodeId = some item := by
  rcases Int.eq_ofNat_of_zero_le range.1 with ⟨index, rfl⟩
  have bound : index < nodes.length := by omega
  refine ⟨nodes[index], List.getElem_mem bound, ?_⟩
  simp [itemAt_eq]

theorem itemAt_of_notMem_range {nodes : List (Item Node)} {nodeId : Int}
    (range : ¬(0 ≤ nodeId ∧ nodeId < nodes.length)) : itemAt nodes 0 nodeId = none := by
  rw [itemAt_eq]
  split
  · rw [List.getElem?_eq_none_iff]
    omega
  · rfl

/-! ## One call -/

theorem Consistent.append {world : World Node} (consistent : Consistent world) (node : Node)
    (address : Nat) :
    Consistent {
      nodes := linkedListAppend world.nodes node address
      opened := Function.update world.opened world.nodes.length (some node) } := by
  intro nodeId
  dsimp only
  rcases Int.lt_or_le nodeId 0 with negative | natural
  · have different : nodeId ≠ world.nodes.length := by omega
    rw [syscGetProcNode_neg _ negative, Function.update_of_ne different, ← consistent nodeId,
      syscGetProcNode_neg _ negative]
  · rcases Int.eq_ofNat_of_zero_le natural with ⟨index, rfl⟩
    rw [syscGetProcNode_ofNat, linkedListAppend]
    by_cases last : index = world.nodes.length
    · simp [last]
    · have different : (index : Int) ≠ world.nodes.length := by omega
      rw [Function.update_of_ne different, ← consistent index, syscGetProcNode_ofNat]
      by_cases inside : index < world.nodes.length
      · rw [List.getElem?_append_left inside]
      · have outside : world.nodes.length < index := by omega
        rw [List.getElem?_eq_none (by simp; omega), List.getElem?_eq_none (by omega)]

theorem Consistent.removeLast {world : World Node} (consistent : Consistent world)
    (distinct : (world.nodes.map Item.address).Nodup) {front : List (Item Node)}
    {item : Item Node} (isLast : world.nodes = front ++ [item]) :
    Consistent {
      nodes := linkedListRemove world.nodes item.address
      opened := Function.update world.opened front.length none } := by
  have unmatched : ∀ other ∈ front, ¬decide (other.address = item.address) = true := by
    intro other member same
    rw [isLast, List.map_append, List.nodup_append] at distinct
    exact distinct.2.2 other.address (List.mem_map_of_mem member) item.address (by simp)
      (of_decide_eq_true same)
  have removed : linkedListRemove world.nodes item.address = front := by
    rw [linkedListRemove, isLast, List.eraseP_append_right _ unmatched]
    simp
  intro nodeId
  dsimp only
  rw [removed]
  by_cases last : nodeId = front.length
  · subst last
    rw [Function.update_self, syscGetProcNode_ofNat]
    simp
  · rw [Function.update_of_ne last, ← consistent nodeId, isLast]
    rcases Int.lt_or_le nodeId 0 with negative | natural
    · rw [syscGetProcNode_neg _ negative, syscGetProcNode_neg _ negative]
    · rcases Int.eq_ofNat_of_zero_le natural with ⟨index, rfl⟩
      rw [syscGetProcNode_ofNat, syscGetProcNode_ofNat]
      by_cases inside : index < front.length
      · rw [List.getElem?_append_left inside]
      · rw [List.getElem?_eq_none (by omega), List.getElem?_eq_none (by simp; omega)]

theorem not_consistent_remove {world : World Node} (consistent : Consistent world)
    {nodeId : Int} {item : Item Node} (member : item ∈ world.nodes)
    (notLast : nodeId + 1 ≠ world.nodes.length) :
    ¬Consistent {
      nodes := linkedListRemove world.nodes item.address
      opened := Function.update world.opened nodeId none } := by
  intro still
  have shorter : (linkedListRemove world.nodes item.address).length =
      world.nodes.length - 1 :=
    List.length_eraseP_of_mem member (by simp)
  have nonempty : 0 < world.nodes.length := List.length_pos_of_mem member
  have lastOpen := still (world.nodes.length - 1 : Nat)
  dsimp only at lastOpen
  have different : ((world.nodes.length - 1 : Nat) : Int) ≠ nodeId := by omega
  rw [Function.update_of_ne different, syscGetProcNode_ofNat,
    List.getElem?_eq_none (by omega)] at lastOpen
  have closed := consistent.opened_eq_none_iff.mp lastOpen.symm
  omega

theorem right_use (isDirectory : Node → Bool) {world : World Node}
    (consistent : Consistent world) (operation : Operation) (nodeId : Int) :
    Right world (syscUse isDirectory world.nodes nodeId operation) world
      (.use operation nodeId) := by
  refine ⟨fun node isOpen => ?_, fun closed => ⟨?_, rfl⟩⟩
  · rw [← consistent nodeId] at isOpen
    cases operation with
    | list =>
        simp only [syscUse, syscList, isOpen]
        split <;> rfl
    | _ => simp [syscUse, syscRead, syscWrite, syscIoctl, throughNode, isOpen, Reply.node?]
  · rw [← consistent nodeId] at closed
    cases operation <;>
      simp [syscUse, syscRead, syscWrite, syscIoctl, syscList, throughNode, closed]

/-- A call gets the right reply and keeps the ids stable exactly if it does not
close an id in the middle and does not trust an uninitialised variable. -/
theorem step_stable_iff (isDirectory : Node → Bool) {world : World Node} (call : Call Node)
    (distinct : (world.nodes.map Item.address).Nodup) (consistent : Consistent world) :
    (∀ reply next, step isDirectory world call = some (reply, next) →
      Right world reply next call ∧ Consistent next) ↔ closesLast world call := by
  cases call with
  | «open» found address =>
      simp only [closesLast, iff_true]
      intro reply next stepped
      simp only [step] at stepped
      split at stepped
      · cases stepped
      · cases stepped
        cases found with
        | none => exact ⟨nofun, consistent⟩
        | some node =>
            have nodeId : (syscSetProcessNode world.nodes node address).1 =
                world.nodes.length := by
              simp [syscSetProcessNode, linkedListAppend]
            refine ⟨fun opened isNode => ⟨_, rfl, ?_⟩, ?_⟩
            · simp only [syscOpen, nodeId]
              exact consistent.opened_eq_none_iff.mpr (by omega)
            · simp only [syscOpen, nodeId]
              exact consistent.append node address
  | use operation nodeId =>
      simp only [closesLast, iff_true]
      intro reply next stepped
      cases stepped
      exact ⟨right_use isDirectory consistent operation nodeId, consistent⟩
  | close nodeId stale =>
      by_cases range : 0 ≤ nodeId ∧ nodeId < world.nodes.length
      · rcases itemAt_of_mem_range range with ⟨item, member, found⟩
        have result : syscClose world.nodes nodeId stale =
            (0, linkedListRemove world.nodes item.address) := by
          simp [syscClose, found]
        have isOpen : world.opened nodeId ≠ none := fun closed =>
          consistent.opened_eq_none_iff.mp closed range
        simp only [closesLast, if_pos range, step, result]
        constructor
        · intro stable
          by_contra notLast
          exact not_consistent_remove consistent member notLast (stable _ _ rfl).2
        · rintro last reply next stepped
          cases stepped
          refine ⟨fun closed => absurd closed isOpen, ?_⟩
          have atEnd : world.nodes.getLast? = some item := by
            rw [itemAt_eq, if_pos range.1] at found
            rw [List.getLast?_eq_getElem?, ← found]
            congr 1
            omega
          rcases List.getLast?_eq_some_iff.mp atEnd with ⟨front, isLast⟩
          have position : nodeId = front.length := by
            rw [isLast, List.length_append] at last
            simpa using last
          subst position
          exact consistent.removeLast distinct isLast
      · have closed := consistent.opened_eq_none_iff.mpr range
        have missing := itemAt_of_notMem_range range
        simp only [closesLast, if_neg range, step, syscClose, missing]
        constructor
        · intro stable
          cases stale with
          | none => rfl
          | some address =>
              have reply := ((stable _ _ rfl).1 closed).1
              cases reply
        · rintro rfl reply next stepped
          cases stepped
          refine ⟨fun _ => ⟨rfl, rfl⟩, ?_⟩
          rw [Function.update_eq_self_iff.mpr closed.symm]
          exact consistent

theorem distinct_advance (isDirectory : Node → Bool) {world next : World Node}
    {call : Call Node} (distinct : (world.nodes.map Item.address).Nodup)
    (advances : advance isDirectory world call = some next) :
    (next.nodes.map Item.address).Nodup := by
  have removes : ∀ address, ((linkedListRemove world.nodes address).map Item.address).Nodup :=
    fun _ => distinct.sublist (List.eraseP_sublist.map Item.address)
  rcases Option.map_eq_some_iff.mp advances with ⟨⟨reply, _⟩, stepped, rfl⟩
  cases call with
  | «open» found address =>
      simp only [step] at stepped
      split at stepped
      case isTrue => cases stepped
      case isFalse fresh =>
        cases stepped
        cases found with
        | none => exact distinct
        | some node =>
            simp only [syscOpen, syscSetProcessNode, linkedListAppend, List.map_append]
            rw [List.nodup_append]
            refine ⟨distinct, List.nodup_singleton _, ?_⟩
            rintro other member _ isNew rfl
            have equal : other = address := List.mem_singleton.mp isNew
            exact fresh (equal ▸ member)
  | close nodeId stale =>
      cases stepped
      dsimp only [syscClose]
      split
      · exact distinct
      · exact removes _
  | use operation nodeId =>
      cases stepped
      exact distinct

/-! ## Whole runs -/

/-- File ids are stable in a run exactly if each `close` of an open id names the
node at the end of the list, and each other `close` finds `NULL` in its
uninitialised variable. -/
theorem stable_iff (isDirectory : Node → Bool) (start : World Node)
    (calls : List (Call Node)) (distinct : (start.nodes.map Item.address).Nodup)
    (consistent : Consistent start) :
    Stable isDirectory start calls ↔
      Admissible (advance isDirectory) closesLast start calls := by
  induction calls generalizing start with
  | nil => exact Iff.rfl
  | cons call calls induction =>
      have first := step_stable_iff isDirectory call distinct consistent
      constructor
      · intro stable
        have allowed := first.mp fun reply next stepped =>
          ⟨(stable reply next stepped).1, (stable reply next stepped).2.1⟩
        refine ⟨allowed, fun next advances => ?_⟩
        rcases Option.map_eq_some_iff.mp advances with ⟨⟨reply, _⟩, stepped, rfl⟩
        rcases stable reply _ stepped with ⟨-, nextConsistent, rest⟩
        exact (induction _ (distinct_advance isDirectory distinct advances)
          nextConsistent).mp rest
      · rintro ⟨allowed, rest⟩ reply next stepped
        rcases first.mpr allowed reply next stepped with ⟨right, nextConsistent⟩
        have advances : advance isDirectory start call = some next := by
          rw [advance, stepped]
          rfl
        refine ⟨right, nextConsistent, ?_⟩
        exact (induction _ (distinct_advance isDirectory distinct advances)
          nextConsistent).mpr (rest next advances)

def newProcess : World String where
  nodes := [⟨0x1000, "gtty"⟩]
  opened := Function.update (fun _ => none) 0 (some "gtty")

theorem consistent_newProcess : Consistent newProcess := by
  intro nodeId
  simp only [newProcess, syscGetProcNode, itemAt]
  by_cases zero : nodeId = 0
  · simp [zero]
  · have different : ¬(0 : Int) = nodeId := fun equal => zero equal.symm
    simp [zero, different]

/-- Files that are closed in the opposite order keep their ids. -/
theorem stable_newProcess :
    Stable (fun _ => false) newProcess
      [.open (some "motd") 0x2000, .open (some "log") 0x3000, .use .read 1, .close 2 none,
        .use .read 1, .close 7 none, .close 1 none] :=
  (stable_iff _ _ _ (by decide) consistent_newProcess).mpr (by decide)

/-- A file that is closed before a later one takes the id of the later one away. -/
theorem not_stable :
    ¬∀ (isDirectory : String → Bool) (start : World String) (calls : List (Call String)),
      (start.nodes.map Item.address).Nodup → Consistent start →
      Stable isDirectory start calls := by
  intro always
  have stable := always (fun _ => false) newProcess
    [.open (some "motd") 0x2000, .open (some "log") 0x3000, .close 1 none] (by decide)
    consistent_newProcess
  have closed := ((stable _ _ rfl).2.2 _ _ rfl).2.2 _ _ rfl
  have denotes := closed.2.1 2
  exact absurd denotes (by decide)

end Dbos.Nodes
