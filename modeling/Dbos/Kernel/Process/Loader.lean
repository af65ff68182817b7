import Dbos.Foundation.Execution
import Dbos.Kernel.Process.Image
import Dbos.Kernel.Memory.CopyOnWrite

/-! # Requests of processes

`loader_spawn`, `loader_exec` and `sysc_sbrk`, and the system that serves them. A
request has no result if the kernel reads or writes outside of its own arrays. -/

namespace Dbos.Loader

open Dbos.Loop Dbos.Paging Dbos.Execution

/-! ## `sysc_sbrk` -/

/-- `bytes / PAGE_BYTE_LEN`, and one more for a positive remainder. -/
def sbrkPages (bytes : Int) : Int := bytes.tdiv 4096 + if bytes.tmod 4096 > 0 then 1 else 0

/-- The body of the loop for a positive number of bytes. The frame is not cleared. -/
def extendHeap (pdir : Nat) (state : Machine × Nat) (_ : Nat) : Machine × Nat :=
  ((mapPage state.1 pdir (state.2 / 4096) id).2, (state.2 + 4096) % space)

/-- `unset_page_table_entry` for the page of this number. -/
def unsetPageTableEntry (machine : Machine) (directory page : Nat) : Machine :=
  let pageTab := pageAddr (machine.memory directory (page / 1024))
  if pageTab ≠ 0 then
    { machine with memory := setWord machine.memory pageTab (page % 1024) 0 }
  else machine

/-- The body of the loop for a negative number of bytes. -/
def shrinkHeap (pdir : Nat) (state : Machine × Nat) (_ : Nat) : Machine × Nat :=
  let heapEnd := (state.2 + space - 4096) % space
  let phys := getMappedAddress state.1 pdir (heapEnd / 4096)
  let machine := unsetPageTableEntry state.1 pdir (heapEnd / 4096)
  ({ machine with phys := machine.phys.free phys }, heapEnd)

/-- `sysc_sbrk`: the machine and the new `heap_end`. -/
def syscSbrk (machine : Machine) (process : Process) (bytes : Int) : Machine × Nat :=
  if bytes = 0 then (machine, process.heapEnd)
  else if bytes > 0 then
    loop (sbrkPages bytes).toNat (extendHeap process.pdir) (machine, process.heapEnd)
  else loop (sbrkPages bytes).toNat (shrinkHeap process.pdir) (machine, process.heapEnd)

theorem sbrkPages_of_neg {bytes : Int} (negative : bytes < 0) : (sbrkPages bytes).toNat = 0 := by
  have rest := Int.tmod_nonneg (a := -bytes) 4096 (by omega)
  have quotient := Int.tdiv_nonneg (a := -bytes) (b := 4096) (by omega) (by omega)
  rw [Int.neg_tmod] at rest
  rw [Int.neg_tdiv] at quotient
  unfold sbrkPages
  rw [if_neg (by omega)]
  omega

theorem syscSbrk_of_not_pos {machine : Machine} {process : Process} {bytes : Int}
    (notPositive : ¬bytes > 0) :
    syscSbrk machine process bytes = (machine, process.heapEnd) := by
  unfold syscSbrk
  split
  · rfl
  · rw [sbrkPages_of_neg (by omega), loop_zero]

theorem syscSbrk_of_pos {machine : Machine} {process : Process} {bytes : Int}
    (positive : bytes > 0) :
    syscSbrk machine process bytes =
      loop (sbrkPages bytes).toNat (extendHeap process.pdir) (machine, process.heapEnd) := by
  unfold syscSbrk
  rw [if_neg (by omega), if_pos positive]

/-! ## The loader -/

/-- `PROCESS_HEAP`, as an address. -/
def processHeap : Nat := 0x50000000

/-- The name and the arguments are copied one behind the other, each with its 0. -/
def copyStrings (strings : List (List UInt8)) (words : Nat → Nat) : Nat → Nat :=
  (strings.foldl (fun (state : (Nat → Nat) × Nat) string =>
    (copyBytes state.1 state.2 (string ++ [0]), state.2 + (string.length + 1))) (words, 0)).1

/-- `argv_total_length` when the name has been added. -/
def argvTotalLength (strings : List (List UInt8)) : Nat :=
  (strings.map fun string => string.length + 1).sum

/-- The page with the arguments, if they fit in. -/
def mapArguments (machine : Machine) (pdir : Nat) (strings : List (List UInt8)) :
    Option Machine :=
  if argvTotalLength strings ≤ 4096 then
    some (mapPage machine pdir (processHeap / 4096) (copyStrings strings)).2
  else none

/-- The four words on top of the stack, whose last frame is given. -/
def pushWords (memory : Memory) (frame heapEnd totalLength argc : Nat) : Memory :=
  let memory := setWord memory frame 1020 0xDB05DB05
  let memory := setWord memory frame 1021 heapEnd
  let memory := setWord memory frame 1022 totalLength
  setWord memory frame 1023 argc

def updateProcess (system : System) (process : Process) : System :=
  { system with
    processes := system.processes.map fun other =>
      if other.pid = process.pid then process else other }

/-- What both functions do when the executable and the stack are there. -/
def startProcess (system : System) (process : Process) (strings : List (List UInt8)) :
    Option System :=
  (mapArguments system.machine process.pdir strings).map fun machine =>
    let heapEnd := processHeap + 4096
    let frame := process.ustackPhys.getD (processStackPages - 1) 0
    let memory := pushWords machine.memory frame heapEnd (argvTotalLength strings) strings.length
    updateProcess { system with machine := { machine with memory } } { process with heapEnd }

/-- `loader_spawn` by a process whose directory is `current`. -/
def loaderSpawn (system : System) (current : Nat) (binary : File) (argv : List (List UInt8))
    (growth : Growth) (leftover : Leftover) : Option System :=
  let created := procCreate system current growth
  created.processes.getLast?.bind fun process =>
    (elfLoadExecutable binary leftover process.pdir created.machine).bind fun machine =>
      startProcess { created with machine } process (binary.name :: argv)

/-- The beginning of `loader_exec`: the arguments are copied to the kernel heap, which
takes `growth` frames, and the address space is removed. -/
def leaveAddressSpace (machine : Machine) (pdir growth : Nat) : Machine :=
  removeAddressSpace (growHeap machine growth) pdir

def loaderExec (system : System) (process : Process) (binary : File) (argv : List (List UInt8))
    (growth : Nat) (leftover : Leftover) : Option System :=
  let machine := leaveAddressSpace system.machine process.pdir growth
  (elfLoadExecutable binary leftover process.pdir machine).bind fun machine =>
    let mapped := loop processStackPages (mapStackPage process.pdir) (machine, [])
    startProcess { system with machine := mapped.1 } { process with ustackPhys := mapped.2 }
      (binary.name :: argv)

/-! ## The system -/

/-- What the kernel does for the processes, with the file that `vfs_find_node` has
found. `create`, `loadExecutable` and `leaveAddressSpace` are also parts of `spawn`
and `execve`. -/
inductive Operation where
  | create (parent : Nat) (growth : Growth)
  | loadExecutable (pid : Nat) (file : File) (leftover : Leftover)
  | leaveAddressSpace (pid growth : Nat)
  | spawn (pid : Nat) (binary : Option File) (argv : List (List UInt8)) (growth : Growth)
      (leftover : Leftover)
  | execve (pid : Nat) (binary : Option File) (argv : List (List UInt8)) (growth : Nat)
      (leftover : Leftover)
  | sbrk (pid : Nat) (bytes : Int)
  | fork (pid : Nat) (growth : Growth)
  | store (pid address : Nat) (value : UInt8)
  | writeFault (pid address : Nat)
  | destroy (pid : Nat)

/-- An operation is carried out. A file that is not found changes nothing. -/
def step (system : System) : Operation → Option System
  | .create parent growth => system.step (.create parent growth)
  | .loadExecutable pid file leftover =>
      (system.find pid).bind fun process =>
        (elfLoadExecutable file leftover process.pdir system.machine).map fun machine =>
          { system with machine }
  | .leaveAddressSpace pid growth =>
      (system.find pid).map fun process =>
        { system with machine := leaveAddressSpace system.machine process.pdir growth }
  | .spawn pid binary argv growth leftover =>
      (system.find pid).bind fun process =>
        match binary with
        | none => some system
        | some file => loaderSpawn system process.pdir file argv growth leftover
  | .execve pid binary argv growth leftover =>
      (system.find pid).bind fun process =>
        match binary with
        | none => some system
        | some file => loaderExec system process file argv growth leftover
  | .sbrk pid bytes =>
      (system.find pid).map fun process =>
        let served := syscSbrk system.machine process bytes
        updateProcess { system with machine := served.1 } { process with heapEnd := served.2 }
  | .fork pid growth => system.step (.fork pid growth)
  | .store pid address value => system.step (.store pid address value)
  | .writeFault pid address => system.step (.writeFault pid address)
  | .destroy pid => system.step (.destroy pid)

end Dbos.Loader
