import Mathlib.Data.Set.Basic
import Dbos.Kernel.Process.Requests

/-! # Giving heap pages back

`sysc_sbrk` for a positive number of bytes and then for its negative. The division of C
rounds towards zero and the remainder has the sign of the dividend, so `pages` of a
negative request is not positive and the loop that gives pages back is never entered. -/

namespace Dbos.Loader

open Dbos.Loop Dbos.Paging

/-- `sysc_sbrk` with the field `heap_end` written. -/
def sbrk (state : Machine × Process) (bytes : Int) : Machine × Process :=
  let served := syscSbrk state.1 state.2 bytes
  (served.1, { state.2 with heapEnd := served.2 })

/-- The pages from `PROCESS_HEAP` on that are mapped. -/
def heapPages (machine : Machine) (pdir : Nat) : Set Nat :=
  { page | processHeap / 4096 ≤ page ∧ (userEntry machine.memory pdir page).isSome = true }

/-- Growing by some bytes and shrinking by as many leaves everything as it was. -/
structure Undone (machine : Machine) (process : Process) (bytes : Int) : Prop where
  heapEnd : (sbrk (sbrk (machine, process) bytes) (-bytes)).2.heapEnd = process.heapEnd
  pages : heapPages (sbrk (sbrk (machine, process) bytes) (-bytes)).1 process.pdir =
    heapPages machine process.pdir
  refcounts : ∀ frame, (sbrk (sbrk (machine, process) bytes) (-bytes)).1.phys.getRefcount frame =
    machine.phys.getRefcount frame

/-- A frame that another directory maps is not free afterwards, unless it was before. -/
def KeepsShared (machine : Machine) (process : Process) (bytes : Int) : Prop :=
  ∀ other ≠ process.pdir, ∀ page entry, userEntry machine.memory other page = some entry →
    (sbrk (machine, process) bytes).1.phys.refcount (pageAddr entry) = 0 →
      machine.phys.refcount (pageAddr entry) = 0

theorem sbrk_of_neg (state : Machine × Process) {bytes : Int} (negative : bytes < 0) :
    sbrk state bytes = state := by
  unfold sbrk
  rw [syscSbrk_of_not_pos (by omega)]

theorem keepsShared_of_neg (machine : Machine) (process : Process) {bytes : Int}
    (negative : bytes < 0) : KeepsShared machine process bytes := by
  intro other _ page entry _ free
  rw [sbrk_of_neg _ negative] at free
  exact free

theorem sbrkPages_of_pos {bytes : Int} (positive : 0 < bytes) (isInt : bytes < 2 ^ 31) :
    0 < (sbrkPages bytes).toNat ∧ (sbrkPages bytes).toNat ≤ 2 ^ 19 := by
  rcases Int.eq_ofNat_of_zero_le (show 0 ≤ bytes by omega) with ⟨count, isCount⟩
  subst isCount
  unfold sbrkPages
  rw [Int.tdiv_eq_ediv_of_nonneg (by omega), Int.tmod_eq_emod_of_nonneg (by omega)]
  split <;> omega

theorem heapEnd_sbrk_of_pos (machine : Machine) {process : Process}
    (small : process.heapEnd < space) {bytes : Int} (positive : 0 < bytes) :
    (sbrk (machine, process) bytes).2.heapEnd =
      (process.heapEnd + (sbrkPages bytes).toNat * 4096) % space := by
  unfold sbrk
  rw [syscSbrk_of_pos positive, extendHeap_loop _ _ small]

/-- The loop moves `heap_end` by less than the address space, but not by nothing. -/
theorem heapEnd_sbrk_ne (machine : Machine) {process : Process} (small : process.heapEnd < space)
    {bytes : Int} (positive : 0 < bytes) (isInt : bytes < 2 ^ 31) :
    (sbrk (machine, process) bytes).2.heapEnd ≠ process.heapEnd := by
  have pages := sbrkPages_of_pos positive isInt
  rw [heapEnd_sbrk_of_pos machine small positive]
  unfold space at *
  omega

theorem not_undone_of_heapEnd {machine : Machine} {process : Process} {bytes : Int}
    (positive : 0 < bytes)
    (moved : (sbrk (machine, process) bytes).2.heapEnd ≠ process.heapEnd) :
    ¬Undone machine process bytes := by
  intro undone
  have heapEnd := undone.heapEnd
  rw [sbrk_of_neg _ (by omega)] at heapEnd
  exact moved heapEnd

/-- A process never gets rid of what it has asked for: the second call changes nothing,
so it leaves alone what other processes share, and `heap_end` stays where the first
call has moved it. -/
theorem sbrk_not_undone (machine : Machine) (process : Process) (small : process.heapEnd < space)
    (bytes : Int) (positive : 0 < bytes) (isInt : bytes < 2 ^ 31) :
    ¬Undone machine process bytes ∧
      sbrk (sbrk (machine, process) bytes) (-bytes) = sbrk (machine, process) bytes ∧
      KeepsShared machine process (-bytes) := by
  refine ⟨?_, ?_, ?_⟩
  · exact not_undone_of_heapEnd positive (heapEnd_sbrk_ne machine small positive isInt)
  · exact sbrk_of_neg _ (by omega)
  · exact keepsShared_of_neg machine process (by omega)

/-- A process whose heap is the page with its arguments. -/
def newProcess : Process := ⟨2, 3, [], processHeap + 4096⟩

theorem sbrk_not_undone_newProcess :
    newProcess.heapEnd < space ∧ ¬Undone smallMachine newProcess 4097 ∧
      sbrk (sbrk (smallMachine, newProcess) 4097) (-4097) = sbrk (smallMachine, newProcess) 4097 ∧
      KeepsShared smallMachine newProcess (-4097) :=
  ⟨by decide, sbrk_not_undone smallMachine newProcess (by decide) 4097 (by decide) (by decide)⟩

theorem not_undone_newProcess :
    ¬∀ machine process bytes, process.heapEnd < space → 0 < bytes → bytes < 2 ^ 31 →
      Undone machine process bytes ∧ KeepsShared machine process (-bytes) := by
  intro always
  have undone := always smallMachine newProcess 1 (by decide) (by decide) (by decide)
  refine not_undone_of_heapEnd (by decide) ?_ undone.1
  rw [heapEnd_sbrk_of_pos _ (by decide) (by decide)]
  decide

end Dbos.Loader
