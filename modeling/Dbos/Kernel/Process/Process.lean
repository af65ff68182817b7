import Dbos.Kernel.Util.GenericTree
import Dbos.Kernel.Util.Queue

/-! # Processes as the scheduler sees them

The fields of `proc_t` that `scheduler.c`, `syscall.c` and the tree half of
`process.c` read and write, together with the global containers that refer to
processes. A `proc_t` pointer is represented by the process id: ids come from
an increasing counter and are never handed out twice. -/

namespace Dbos.Process

/-- `int pid`. -/
abbrev Pid := Int

/-- `kernel_process`, created with id 1 by `proc_create_kernel`. -/
def kernelPid : Pid := 1

/-- The `PROCESS_STATE_*` constants. -/
inductive ProcState where
  | ready
  | living
  | napping
  | dead
deriving DecidableEq, Repr

/-- The part of `proc_t` that scheduling depends on. -/
structure Proc where
  pid : Pid
  state : ProcState
  /-- The `waiters` list, or `none` for the `NULL` that `proc_create_kernel`
  leaves there. -/
  waiters : Option (List Pid)
  /-- The saved `eax` of `proc_regs`, as the signed value user code sees. -/
  eax : Int
deriving DecidableEq, Repr

/-- The processes on the waiters list; nobody is on a `NULL` list. -/
def Proc.waiting (proc : Proc) : List Pid := proc.waiters.getD []

/-- A `t_process_t`: a napping process and its remaining ticks. -/
structure Nap where
  process : Pid
  counter : Int
deriving DecidableEq, Repr

/-- The globals of `process.c` and `scheduler.c`. -/
structure Sched where
  /-- The `proc_t` structures that are allocated, in order of creation. -/
  procs : List Proc
  processTree : GenTree Pid
  procPid : Pid
  current : Pid
  readyQueue : List Pid
  deadQueue : List Pid
  nappingList : List Nap
deriving Repr

namespace Sched

/-- Follow a `proc_t` pointer; `none` if the structure has been freed. -/
def proc? (sched : Sched) (pid : Pid) : Option Proc :=
  sched.procs.find? fun proc => proc.pid = pid

def state? (sched : Sched) (pid : Pid) : Option ProcState :=
  (sched.proc? pid).map Proc.state

def eax? (sched : Sched) (pid : Pid) : Option Int :=
  (sched.proc? pid).map Proc.eax

/-- The processes waiting for `pid`. -/
def waitersOf (sched : Sched) (pid : Pid) : List Pid :=
  ((sched.proc? pid).map Proc.waiting).getD []

/-- Write through a `proc_t` pointer. -/
def modifyProc (sched : Sched) (pid : Pid) (change : Proc → Proc) : Sched :=
  { sched with
    procs := sched.procs.map fun proc => if proc.pid = pid then change proc else proc }

def setState (sched : Sched) (pid : Pid) (state : ProcState) : Sched :=
  sched.modifyProc pid fun proc => { proc with state := state }

def setEax (sched : Sched) (pid : Pid) (value : Int) : Sched :=
  sched.modifyProc pid fun proc => { proc with eax := value }

/-- `linked_list_append` on a waiters list; appending to `NULL` does nothing. -/
def appendWaiter (sched : Sched) (pid waiter : Pid) : Sched :=
  sched.modifyProc pid fun proc =>
    { proc with waiters := proc.waiters.map fun waiters => waiters ++ [waiter] }

/-- `kern_free` of the process structure. -/
def freeProc (sched : Sched) (pid : Pid) : Sched :=
  { sched with procs := sched.procs.filter fun proc => proc.pid ≠ pid }

/-! ## Reading after writing -/

section Access

variable (sched : Sched)

theorem proc?_eq_some {pid : Pid} {proc : Proc} (found : sched.proc? pid = some proc) :
    proc ∈ sched.procs ∧ proc.pid = pid := by
  refine ⟨List.mem_of_find?_eq_some found, ?_⟩
  simpa using List.find?_some found

theorem proc?_modifyProc (pid other : Pid) (change : Proc → Proc)
    (keepsPid : ∀ proc, (change proc).pid = proc.pid) :
    (sched.modifyProc pid change).proc? other =
      if other = pid then (sched.proc? other).map change else sched.proc? other := by
  have samePid : ∀ proc : Proc,
      (if proc.pid = pid then change proc else proc).pid = proc.pid := by
    intro proc
    split
    · exact keepsPid proc
    · rfl
  unfold proc? modifyProc
  simp only [List.find?_map, Function.comp_def, samePid]
  cases found : sched.procs.find? fun proc => proc.pid = other with
  | none => simp
  | some proc =>
      have here : proc.pid = other := by simpa using List.find?_some found
      simp only [Option.map_some, here]
      split <;> rfl

theorem proc?_freeProc (pid other : Pid) :
    (sched.freeProc pid).proc? other =
      if other = pid then none else sched.proc? other := by
  unfold proc? freeProc
  rw [List.find?_filter]
  split
  case isTrue same =>
    simp only [List.find?_eq_none]
    intro proc _
    simp [same]
  case isFalse different =>
    congr 1
    funext proc
    by_cases here : proc.pid = other <;> simp [here, different]

theorem map_proc?_modifyProc {Field : Type} (read : Proc → Field) (pid other : Pid)
    (change : Proc → Proc) (keepsPid : ∀ proc, (change proc).pid = proc.pid)
    (keeps : ∀ proc, read (change proc) = read proc) :
    ((sched.modifyProc pid change).proc? other).map read = (sched.proc? other).map read := by
  rw [sched.proc?_modifyProc pid other change keepsPid]
  split
  · cases sched.proc? other <;> simp [keeps]
  · rfl

theorem map_procs_modifyProc {Field : Type} (read : Proc → Field) (pid : Pid)
    (change : Proc → Proc) (keeps : ∀ proc, read (change proc) = read proc) :
    (sched.modifyProc pid change).procs.map read = sched.procs.map read := by
  simp only [modifyProc, List.map_map]
  congr 1
  funext proc
  simp only [Function.comp_apply]
  split
  · exact keeps proc
  · rfl

theorem pids_setState (pid : Pid) (state : ProcState) :
    (sched.setState pid state).procs.map Proc.pid = sched.procs.map Proc.pid :=
  sched.map_procs_modifyProc Proc.pid pid _ fun _ => rfl

theorem pids_setEax (pid : Pid) (value : Int) :
    (sched.setEax pid value).procs.map Proc.pid = sched.procs.map Proc.pid :=
  sched.map_procs_modifyProc Proc.pid pid _ fun _ => rfl

theorem pids_appendWaiter (pid waiter : Pid) :
    (sched.appendWaiter pid waiter).procs.map Proc.pid = sched.procs.map Proc.pid :=
  sched.map_procs_modifyProc Proc.pid pid _ fun _ => rfl

@[simp] theorem state?_setState (pid other : Pid) (state : ProcState) :
    (sched.setState pid state).state? other =
      if other = pid then (sched.state? other).map fun _ => state
      else sched.state? other := by
  unfold state? setState
  rw [proc?_modifyProc]
  · split
    · cases sched.proc? other <;> rfl
    · rfl
  · exact fun _ => rfl

@[simp] theorem state?_setEax (pid other : Pid) (value : Int) :
    (sched.setEax pid value).state? other = sched.state? other :=
  sched.map_proc?_modifyProc Proc.state pid other _ (fun _ => rfl) (fun _ => rfl)

@[simp] theorem state?_appendWaiter (pid waiter other : Pid) :
    (sched.appendWaiter pid waiter).state? other = sched.state? other :=
  sched.map_proc?_modifyProc Proc.state pid other _ (fun _ => rfl) (fun _ => rfl)

@[simp] theorem state?_freeProc (pid other : Pid) :
    (sched.freeProc pid).state? other =
      if other = pid then none else sched.state? other := by
  unfold state?
  rw [proc?_freeProc]
  split <;> rfl

@[simp] theorem waitersOf_setState (pid other : Pid) (state : ProcState) :
    (sched.setState pid state).waitersOf other = sched.waitersOf other :=
  congrArg (Option.getD · []) <|
    sched.map_proc?_modifyProc Proc.waiting pid other _ (fun _ => rfl) (fun _ => rfl)

@[simp] theorem waitersOf_setEax (pid other : Pid) (value : Int) :
    (sched.setEax pid value).waitersOf other = sched.waitersOf other :=
  congrArg (Option.getD · []) <|
    sched.map_proc?_modifyProc Proc.waiting pid other _ (fun _ => rfl) (fun _ => rfl)

/-- Whether the process has a waiters list at all, which only the kernel lacks. -/
def hasWaiters (pid : Pid) : Prop :=
  ∃ proc, sched.proc? pid = some proc ∧ proc.waiters ≠ none

theorem waitersOf_appendWaiter_self {pid : Pid} (waiter : Pid)
    (present : sched.hasWaiters pid) :
    (sched.appendWaiter pid waiter).waitersOf pid = sched.waitersOf pid ++ [waiter] := by
  rcases present with ⟨proc, found, nonNull⟩
  rcases Option.ne_none_iff_exists'.mp nonNull with ⟨waiters, isList⟩
  unfold waitersOf appendWaiter
  rw [proc?_modifyProc]
  · simp [found, Proc.waiting, isList]
  · exact fun _ => rfl

theorem waitersOf_appendWaiter_other {pid other : Pid} (waiter : Pid)
    (different : other ≠ pid) :
    (sched.appendWaiter pid waiter).waitersOf other = sched.waitersOf other := by
  unfold waitersOf appendWaiter
  rw [proc?_modifyProc]
  · simp [different]
  · exact fun _ => rfl

theorem waitersOf_appendWaiter_null {pid : Pid} (waiter other : Pid)
    (absent : ¬sched.hasWaiters pid) :
    (sched.appendWaiter pid waiter).waitersOf other = sched.waitersOf other := by
  unfold waitersOf appendWaiter
  rw [proc?_modifyProc]
  · split
    case isTrue same =>
      subst same
      cases found : sched.proc? other with
      | none => rfl
      | some proc =>
          have isNull : proc.waiters = none := by
            by_contra nonNull
            exact absent ⟨proc, found, nonNull⟩
          simp [Proc.waiting, isNull]
    case isFalse => rfl
  · exact fun _ => rfl

@[simp] theorem waitersOf_freeProc (pid other : Pid) :
    (sched.freeProc pid).waitersOf other =
      if other = pid then [] else sched.waitersOf other := by
  unfold waitersOf
  rw [proc?_freeProc]
  split <;> rfl

theorem eax?_setEax (pid other : Pid) (value : Int) :
    (sched.setEax pid value).eax? other =
      if other = pid then (sched.eax? other).map fun _ => value else sched.eax? other := by
  unfold eax? setEax
  rw [proc?_modifyProc]
  · split
    · cases sched.proc? other <;> rfl
    · rfl
  · exact fun _ => rfl

@[simp] theorem eax?_setState (pid other : Pid) (state : ProcState) :
    (sched.setState pid state).eax? other = sched.eax? other :=
  sched.map_proc?_modifyProc Proc.eax pid other _ (fun _ => rfl) (fun _ => rfl)

@[simp] theorem eax?_appendWaiter (pid waiter other : Pid) :
    (sched.appendWaiter pid waiter).eax? other = sched.eax? other :=
  sched.map_proc?_modifyProc Proc.eax pid other _ (fun _ => rfl) (fun _ => rfl)

end Access

end Sched

/-! ## The process tree -/

/-- `proc_find_recur`. The loop over the subtrees returns in its first
iteration, whatever that iteration finds. -/
def procFindRecur : GenTree Pid → Pid → Option Pid
  | .node process subTrees, pid =>
      if pid = 0 then none
      else if process = pid then some process
      else
        match subTrees with
        | [] => none
        | child :: _ =>
            if child.data = pid then some child.data else procFindRecur child pid

def procFind (sched : Sched) (pid : Pid) : Option Pid :=
  procFindRecur sched.processTree pid

theorem procFindRecur_sound {tree : GenTree Pid} {pid found : Pid}
    (finds : procFindRecur tree pid = some found) :
    found = pid ∧ pid ∈ tree.values := by
  induction tree using GenTree.induct with
  | node process subTrees induction =>
      rw [GenTree.mem_values_node]
      unfold procFindRecur at finds
      split at finds
      · cases finds
      · split at finds
        case isTrue here =>
          cases finds
          exact ⟨here, .inl here.symm⟩
        case isFalse =>
          match subTrees with
          | [] => cases finds
          | child :: rest =>
              simp only at finds
              split at finds
              case isTrue here =>
                cases finds
                exact ⟨here, .inr ⟨child, by simp, here ▸ child.data_mem_values⟩⟩
              case isFalse =>
                rcases induction child (by simp) finds with ⟨same, member⟩
                exact ⟨same, .inr ⟨child, by simp, member⟩⟩

/-- A process below the second child of a node is not found. -/
example : procFindRecur (.node 1 [.node 2 [], .node 3 []]) 3 = none := by decide

end Dbos.Process
