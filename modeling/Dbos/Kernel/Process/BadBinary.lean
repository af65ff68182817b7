import Dbos.Kernel.Process.Executable
import Dbos.Kernel.Process.Requests
import Dbos.Kernel.Process.Syscall

/-! # Loading a file that is no executable

`elf_load_executable` returns the header it has read whether `validate_elf` accepts
it or not, and neither loader looks at it. Here the loaders are put together from
what they do to memory and what they do to the scheduler, with the fields of the
process that they write. -/

namespace Dbos.BadBinary

open Dbos.Paging Dbos.Loader Dbos.Process

/-! ## The loaders with their results -/

/-- The saved registers that the loaders write. -/
structure Registers where
  eip : Nat
  useresp : Nat
  intNo : Nat
  errCode : Nat
  eflags : Nat
deriving DecidableEq, Repr

/-- The `PROCESS_TYPE_*` constants. -/
inductive ProcessType where
  | standalone
  | clone
deriving DecidableEq, Repr

/-- The other fields of `proc_t` that the loaders write. -/
structure Context where
  name : List UInt8
  details : List UInt8
  type : ProcessType
  procRegs : Registers
deriving DecidableEq, Repr

/-- The kernel: the memory and what the processes own of it, the scheduler, and the
fields of the processes. Ids are handed out from 1 on. -/
structure Kernel where
  system : System
  sched : Sched
  contexts : Pid → Context
  positive : 0 < sched.procPid

/-- `"USER PROCESS"`. -/
def userProcess : List UInt8 :=
  [0x55, 0x53, 0x45, 0x52, 0x20, 0x50, 0x52, 0x4F, 0x43, 0x45, 0x53, 0x53]

/-- `e_entry` of the header that `elf_load_executable` returns. -/
def eEntry (file : File) (leftover : Leftover) : Nat :=
  word (fillBuffer leftover.header (readNodeTarfs file 0 52)) 24

/-- `PROCESS_STACK + (PROCESS_STACK_PAGES * 0x1000)`, and four words have been pushed. -/
def initialUseresp : Nat := 0x40000000 + processStackPages * 0x1000 - 16

/-- What both loaders write to the structure of the process. -/
def startContext (binary : File) (leftover : Leftover) : Context where
  name := binary.name
  details := userProcess
  type := .standalone
  procRegs := {
    eip := eEntry binary leftover
    useresp := initialUseresp
    intNo := 0x20
    errCode := 0
    eflags := 0x202 }

theorem positive_loaderSpawn {sched : Sched} (positive : 0 < sched.procPid) (parent : Pid) :
    0 < (Process.loaderSpawn sched parent true).1 ∧
      0 < (Process.loaderSpawn sched parent true).2.procPid := by
  have next : 0 < sched.procPid + 1 := Int.add_pos positive Int.one_pos
  exact ⟨next, next⟩

/-- `loader_spawn` for what `vfs_find_node` returns; without a result if the
arguments do not fit into their page. -/
def loaderSpawn (kernel : Kernel) (parent : Paging.Process) (binary : Option File)
    (argv : List (List UInt8)) (growth : Growth) (leftover : Leftover) :
    Option (Int × Kernel) :=
  match binary with
  | none => some (-1, kernel)
  | some binary =>
      (Loader.loaderSpawn kernel.system parent.pdir binary argv growth leftover).map fun system =>
        let spawned := Process.loaderSpawn kernel.sched parent.pid true
        (spawned.1,
          { system
            sched := spawned.2
            contexts := Function.update kernel.contexts spawned.1 (startContext binary leftover)
            positive := (positive_loaderSpawn kernel.positive parent.pid).2 })

/-- `loader_exec`, likewise. -/
def loaderExec (kernel : Kernel) (process : Paging.Process) (binary : Option File)
    (argv : List (List UInt8)) (growth : Nat) (leftover : Leftover) : Option (Int × Kernel) :=
  match binary with
  | none => some (-1, kernel)
  | some binary =>
      (Loader.loaderExec kernel.system process binary argv growth leftover).map fun system =>
        (0,
          { kernel with
            system
            contexts := Function.update kernel.contexts process.pid
              (startContext binary leftover) })

/-! ## What a refusal is -/

/-- `loader_spawn` returns -1, and the process tree, the ready queue and the counts of
the frames are as before. -/
def SpawnRefused (kernel : Kernel) (result : Option (Int × Kernel)) : Prop :=
  ∃ after, result = some (-1, after) ∧
    after.sched.processTree = kernel.sched.processTree ∧
    after.sched.readyQueue = kernel.sched.readyQueue ∧
    ∀ frame, after.system.machine.phys.getRefcount frame =
      kernel.system.machine.phys.getRefcount frame

/-- `loader_exec` returns something else than 0, and the address space, the name and
the registers of the process are as before. -/
def ExecRefused (kernel : Kernel) (process : Paging.Process) (result : Option (Int × Kernel)) :
    Prop :=
  ∃ status after, result = some (status, after) ∧ status ≠ 0 ∧
    (∀ address < userEnd, userLoad after.system.machine.memory process.pdir address =
      userLoad kernel.system.machine.memory process.pdir address) ∧
    (after.contexts process.pid).name = (kernel.contexts process.pid).name ∧
    (after.contexts process.pid).procRegs = (kernel.contexts process.pid).procRegs

/-! ## What the loaders do instead -/

section Loaders

variable (kernel : Kernel) (process : Paging.Process) (binary : File)
  (argv : List (List UInt8)) (leftover : Leftover)

theorem spawned_of_loaderSpawn {growth : Growth} {result : Int × Kernel}
    (returned : loaderSpawn kernel process (some binary) argv growth leftover = some result) :
    0 < result.1 ∧ result.1 = kernel.sched.procPid + 1 ∧
      result.2.sched = schedMakeReady (procCreate kernel.sched process.pid).2 result.1 := by
  rcases Option.map_eq_some_iff.mp returned with ⟨system, -, rfl⟩
  exact ⟨(positive_loaderSpawn kernel.positive process.pid).1, rfl, rfl⟩

theorem started_of_loaderExec {growth : Nat} {result : Int × Kernel}
    (returned : loaderExec kernel process (some binary) argv growth leftover = some result) :
    result.1 = 0 ∧ result.2.contexts process.pid = startContext binary leftover := by
  rcases Option.map_eq_some_iff.mp returned with ⟨system, -, rfl⟩
  exact ⟨rfl, Function.update_self _ _ _⟩

theorem not_spawnRefused (growth : Growth) :
    ¬SpawnRefused kernel (loaderSpawn kernel process (some binary) argv growth leftover) := by
  rintro ⟨after, returned, -⟩
  have spawned := (spawned_of_loaderSpawn kernel process binary argv leftover returned).1
  exact absurd (show (0 : Int) < -1 from spawned) (by decide)

theorem not_execRefused (growth : Nat) :
    ¬ExecRefused kernel process
      (loaderExec kernel process (some binary) argv growth leftover) := by
  rintro ⟨status, after, returned, nonzero, -⟩
  exact nonzero (started_of_loaderExec kernel process binary argv leftover returned).1

end Loaders

/-- Of a file that `validate_elf` does not accept nothing is loaded, and still no
loader refuses it. -/
theorem bad_binary_not_refused (kernel : Kernel) (process : Paging.Process) {binary : File}
    {leftover : Leftover} (invalid : validateElf (readHeader binary leftover) = false)
    (argv : List (List UInt8)) (growth : Growth) (heapGrowth : Nat) :
    (∀ pdir machine, elfLoadExecutable binary leftover pdir machine = some machine) ∧
      ¬SpawnRefused kernel (loaderSpawn kernel process (some binary) argv growth leftover) ∧
      ¬ExecRefused kernel process
        (loaderExec kernel process (some binary) argv heapGrowth leftover) := by
  refine ⟨fun pdir machine => ?_, ?_, ?_⟩
  · rw [elfLoadExecutable, invalid]
    rfl
  · exact not_spawnRefused kernel process binary argv leftover growth
  · exact not_execRefused kernel process binary argv leftover heapGrowth

def textFile : File := ⟨[0x74], [0x68, 0x69], by decide⟩

/-- The kernel before its first process. -/
def bootKernel : Kernel where
  system := System.boot kernelMachine 1 0
  sched := initialiseScheduler
  contexts := fun _ => ⟨[], [], .standalone, ⟨0, 0, 0, 0, 0⟩⟩
  positive := by decide

theorem bad_binary_not_refused_textFile :
    ¬SpawnRefused bootKernel (loaderSpawn bootKernel ⟨1, 1, [], 0⟩ (some textFile) []
      ⟨0, 0, 0⟩ noLeftover) :=
  (bad_binary_not_refused bootKernel ⟨1, 1, [], 0⟩ (by decide) [] ⟨0, 0, 0⟩ 0).2.1

/-- The kernel spawns the text file: the process 2 is ready. -/
theorem not_refused_textFile :
    ¬∀ (kernel : Kernel) (process : Paging.Process) (binary : File) (leftover : Leftover),
      validateElf (readHeader binary leftover) = false →
      ∀ (argv : List (List UInt8)) (growth : Growth) (heapGrowth : Nat),
        SpawnRefused kernel (loaderSpawn kernel process (some binary) argv growth leftover) ∧
          ExecRefused kernel process
            (loaderExec kernel process (some binary) argv heapGrowth leftover) := by
  intro always
  rcases (always bootKernel ⟨1, 1, [], 0⟩ textFile noLeftover (by decide) [] ⟨0, 0, 0⟩ 0).1 with
    ⟨after, refused, -⟩
  have spawned : (loaderSpawn bootKernel ⟨1, 1, [], 0⟩ (some textFile) [] ⟨0, 0, 0⟩
      noLeftover).map (fun result => (result.1, result.2.sched.readyQueue)) = some (2, [2]) := by
    decide +kernel
  rw [refused] at spawned
  cases spawned

end Dbos.BadBinary
