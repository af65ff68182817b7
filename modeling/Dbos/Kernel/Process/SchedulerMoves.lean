import Mathlib.Logic.Relation
import Dbos.Kernel.Process.SchedulerInvariant

/-! # What the scheduler can do to a process

Every handler is a sequence of moves, each of which touches one process that
is in no container at that moment. An invariant, or a property of one process
that is to survive for ever, is proved move by move. -/

namespace Dbos.Process

open Dbos.Queue

/-- The smallest changes the handlers are made of. -/
inductive Move : Sched → Sched → Prop
  /-- Containers lose members; registers, the tree and the current process may
  change in any way. -/
  | shrink {sched next : Sched} (states : ∀ pid, next.state? pid = sched.state? pid)
      (waiters : ∀ target, next.waitersOf target = sched.waitersOf target)
      (ready : next.readyQueue.Sublist sched.readyQueue)
      (dead : next.deadQueue.Sublist sched.deadQueue)
      (naps : next.nappingList.Sublist sched.nappingList)
      (pids : next.procs.map Proc.pid = sched.procs.map Proc.pid)
      (bound : next.procPid = sched.procPid) : Move sched next
  /-- The state of an idle process changes, but never away from dead. -/
  | setState {sched : Sched} {pid : Pid} {state : ProcState} (idle : Idle sched pid)
      (final : sched.state? pid = some .dead → state = .dead) :
      Move sched (sched.setState pid state)
  | enterReady {sched : Sched} {pid : Pid} (idle : Idle sched pid)
      (ready : sched.state? pid = some .ready) :
      Move sched { sched with readyQueue := enqueue schedMaxReady sched.readyQueue pid }
  | enterDead {sched : Sched} {pid : Pid} (idle : Idle sched pid)
      (dead : sched.state? pid = some .dead) :
      Move sched { sched with deadQueue := enqueue schedMaxDead sched.deadQueue pid }
  | enterNapping {sched : Sched} {pid : Pid} {counter : Int} (idle : Idle sched pid)
      (napping : sched.state? pid = some .napping) :
      Move sched { sched with nappingList := sched.nappingList ++ [⟨pid, counter⟩] }
  | enterWaiters {sched : Sched} {pid target : Pid} (idle : Idle sched pid)
      (napping : sched.state? pid = some .napping) :
      Move sched (sched.appendWaiter target pid)
  | create {sched : Sched} {parent : Pid} : Move sched (procCreate sched parent).2
  | free {sched : Sched} {pid : Pid} (idle : Idle sched pid) : Move sched (sched.freeProc pid)

abbrev Moves : Sched → Sched → Prop := Relation.ReflTransGen Move

theorem Wf.move {sched next : Sched} (wf : Wf sched) (move : Move sched next) :
    Wf next := by
  cases move with
  | shrink states waiters ready dead naps pids bound =>
      exact wf.shrink states waiters ready dead naps pids bound
  | setState idle _ => exact wf.setState idle _
  | enterReady idle ready => exact wf.enterReady idle ready
  | enterDead idle dead => exact wf.enterDead idle dead
  | enterNapping idle napping => exact wf.enterNapping idle napping _
  | enterWaiters idle napping => exact wf.enterWaiters idle napping
  | create => exact wf.procCreate _
  | free idle => exact wf.freeProc idle

theorem Moves.preserves {property : Sched → Prop} {sched next : Sched}
    (preserved : ∀ {before after}, Wf before → Move before after →
      property before → property after)
    (wf : Wf sched) (moves : Moves sched next) (holds : property sched) :
    Wf next ∧ property next := by
  induction moves with
  | refl => exact ⟨wf, holds⟩
  | tail _ move induction =>
      exact ⟨induction.1.move move, preserved induction.1 move induction.2⟩

theorem Wf.moves {sched next : Sched} (wf : Wf sched) (moves : Moves sched next) :
    Wf next :=
  (Moves.preserves (fun before move _ => before.move move) wf moves wf).1

/-! ## Two properties that survive -/

/-- Dead, or freed already: in both cases the process has been created. -/
def Gone (pid : Pid) (sched : Sched) : Prop :=
  sched.state? pid = some .dead ∨ sched.state? pid = none ∧ pid ≤ sched.procPid

theorem Gone.move {pid : Pid} {sched next : Sched} (wf : Wf sched)
    (move : Move sched next) (gone : Gone pid sched) : Gone pid next := by
  cases move with
  | shrink states _ _ _ _ _ bound =>
      unfold Gone
      rwa [states pid, bound]
  | @setState changed state idle final =>
      unfold Gone at gone ⊢
      rw [Sched.state?_setState]
      split
      case isTrue same =>
        subst same
        rcases gone with dead | ⟨absent, created⟩
        · exact .inl (by simp [dead, final dead])
        · exact .inr ⟨by simp [absent], created⟩
      case isFalse => exact gone
  | enterReady _ _ => exact gone
  | enterDead _ _ => exact gone
  | enterNapping _ _ => exact gone
  | enterWaiters _ _ =>
      unfold Gone at gone ⊢
      rw [Sched.state?_appendWaiter]
      exact gone
  | create =>
      unfold Gone at gone ⊢
      rw [state?_procCreate]
      rcases gone with dead | ⟨absent, created⟩
      · exact .inl (by simp [dead])
      · have old : pid ≠ sched.procPid + 1 := fun equal =>
          absurd (equal ▸ created) (Int.not_le.mpr (Int.lt_succ _))
        exact .inr ⟨by simp [absent, old],
          Int.le_trans created (Int.le_of_lt (Int.lt_succ _))⟩
  | @free freed idle =>
      unfold Gone at gone ⊢
      rw [Sched.state?_freeProc]
      split
      case isTrue same =>
        subst same
        refine .inr ⟨rfl, ?_⟩
        rcases gone with dead | ⟨_, created⟩
        · exact wf.pidsBounded pid (by simp [dead])
        · exact created
      case isFalse => exact gone

/-- On the waiters list of `target`, unless `target` has been freed. -/
def Awaits (pid target : Pid) (sched : Sched) : Prop :=
  pid ∈ sched.waitersOf target ∨ sched.state? target = none ∧ target ≤ sched.procPid

theorem state?_ne_none_of_waiter {sched : Sched} {pid target : Pid}
    (member : pid ∈ sched.waitersOf target) : sched.state? target ≠ none := by
  intro absent
  unfold Sched.state? at absent
  unfold Sched.waitersOf at member
  rw [Option.map_eq_none_iff.mp absent] at member
  cases member

theorem mem_waitersOf_appendWaiter {sched : Sched} {pid target other process : Pid}
    (member : process ∈ sched.waitersOf other) :
    process ∈ (sched.appendWaiter target pid).waitersOf other := by
  by_cases present : sched.hasWaiters target
  · by_cases same : other = target
    · subst same
      rw [sched.waitersOf_appendWaiter_self pid present]
      exact List.mem_append_left _ member
    · rwa [sched.waitersOf_appendWaiter_other pid same]
  · rwa [sched.waitersOf_appendWaiter_null pid other present]

theorem Awaits.move {pid target : Pid} {sched next : Sched} (wf : Wf sched)
    (move : Move sched next) (awaits : Awaits pid target sched) :
    Awaits pid target next := by
  cases move with
  | shrink states waiters _ _ _ _ bound =>
      unfold Awaits
      rwa [states target, waiters target, bound]
  | setState _ _ =>
      refine awaits.imp (fun member => by simpa using member) fun freed => ⟨?_, freed.2⟩
      simp [freed.1]
  | enterReady _ _ => exact awaits
  | enterDead _ _ => exact awaits
  | enterNapping _ _ => exact awaits
  | enterWaiters _ _ =>
      exact awaits.imp mem_waitersOf_appendWaiter
        fun freed => ⟨by simpa using freed.1, freed.2⟩
  | create =>
      refine awaits.imp (fun member => (waitersOf_procCreate ..).symm ▸ member)
        fun freed => ?_
      have old : target ≠ sched.procPid + 1 := fun equal =>
        absurd (equal ▸ freed.2) (Int.not_le.mpr (Int.lt_succ _))
      refine ⟨?_, Int.le_trans freed.2 (Int.le_of_lt (Int.lt_succ _))⟩
      rw [state?_procCreate]
      simp [freed.1, old]
  | @free freed idle =>
      unfold Awaits at awaits ⊢
      rw [Sched.state?_freeProc, Sched.waitersOf_freeProc]
      split
      case isTrue same =>
        subst same
        refine .inr ⟨rfl, ?_⟩
        rcases awaits with member | ⟨_, created⟩
        · exact wf.pidsBounded target (state?_ne_none_of_waiter member)
        · exact created
      case isFalse => exact awaits

end Dbos.Process
