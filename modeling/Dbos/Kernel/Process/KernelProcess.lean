import Dbos.Kernel.Process.Death

/-! # The kernel process

`sched_get_next` runs whatever it takes from `ready_queue` without looking
whether there was anything. What it relies on is the kernel process, which never
sleeps and never exits: as long as nobody kills it, it is running or ready. -/

namespace Dbos.Process

open Dbos.Queue Dbos.Execution

/-- The kernel is running or waiting for its turn. -/
def Schedulable (sched : Sched) : Prop :=
  sched.current = kernelPid ∨ kernelPid ∈ sched.readyQueue

theorem Wf.readyQueue_length_le {sched : Sched} (wf : Wf sched) :
    sched.readyQueue.length ≤ sched.procs.length := by
  have present : sched.readyQueue ⊆ sched.procs.map Proc.pid := by
    intro pid member
    apply state?_ne_none_iff.mp
    simp [wf.readyState pid member]
  simpa using (List.subperm_of_subset wf.readyNodup present).length_le

/-! ## The handlers keep the kernel schedulable -/

theorem mem_offer {sched : Sched} (wf : Wf sched)
    (living : sched.state? sched.current = some .living)
    (room : sched.procs.length < schedMaxReady) :
    sched.current ∈ (offer sched).readyQueue := by
  rw [offer, if_pos living]
  apply mem_enqueue_self
  exact Nat.lt_of_le_of_lt wf.readyQueue_length_le room

theorem mem_offer_of_mem {sched : Sched} {pid : Pid} (ready : pid ∈ sched.readyQueue) :
    pid ∈ (offer sched).readyQueue := by
  unfold offer
  split
  · exact mem_enqueue_of_mem ready
  · exact ready

theorem Preempted.current_or_ready {before after reaped : Sched} {next pid : Pid}
    {rest : List Pid} (preempted : Preempted before after next rest reaped)
    (ready : pid ∈ (offer before).readyQueue) :
    after.current = pid ∨ pid ∈ after.readyQueue := by
  rw [preempted.queue] at ready
  cases ready with
  | head => exact .inl preempted.current_eq
  | tail _ later =>
      right
      rw [preempted.switched]
      change pid ∈ (bury reaped before.current).readyQueue
      rw [readyQueue_bury]
      exact preempted.reaps.readyQueue pid later

namespace Schedulable

variable {sched next : Sched}

theorem offered (schedulable : Schedulable sched) (wf : Wf sched)
    (room : sched.procs.length < schedMaxReady)
    (living : sched.current = kernelPid → sched.state? sched.current = some .living) :
    kernelPid ∈ (offer sched).readyQueue := by
  rcases schedulable with current | ready
  · have member := mem_offer wf (living current) room
    rwa [current] at member
  · exact mem_offer_of_mem ready

theorem mono (schedulable : Schedulable sched) (current : next.current = sched.current)
    (ready : kernelPid ∈ sched.readyQueue → kernelPid ∈ next.readyQueue) :
    Schedulable next := by
  rcases schedulable with isCurrent | isReady
  · exact .inl (current.trans isCurrent)
  · exact .inr (ready isReady)

theorem makeReady (schedulable : Schedulable sched) (process : Pid) :
    Schedulable (schedMakeReady sched process) :=
  schedulable.mono rfl mem_enqueue_of_mem

/-- Taking anybody but the kernel out of the queues. -/
theorem purge (schedulable : Schedulable sched) {process : Pid} (notKernel : process ≠ kernelPid) :
    Schedulable (schedPurgeProcess sched process) := by
  refine schedulable.mono rfl ?_
  intro ready
  exact mem_forceRemove.mpr ⟨ready, notKernel.symm⟩

theorem schedTimekeeper (schedulable : Schedulable sched) :
    Schedulable (Process.schedTimekeeper sched) := by
  apply schedulable.mono
  · exact current_timekeeperLoop sched.nappingList sched
  · exact mem_timekeeperLoop sched.nappingList

theorem schedWakeup (schedulable : Schedulable sched) (wf : Wf sched) (pid : Pid) :
    Schedulable (Process.schedWakeup sched pid).2 := by
  unfold Process.schedWakeup
  split
  case h_2 => exact schedulable
  case h_1 nap found =>
    apply makeReady
    refine schedulable.mono rfl ?_
    intro ready
    have asleep := wf.napState nap (List.mem_of_find?_eq_some found)
    apply mem_forceRemove.mpr
    refine ⟨ready, ?_⟩
    intro equal
    rw [← equal, wf.readyState kernelPid ready] at asleep
    cases asleep

theorem loaderSpawn (schedulable : Schedulable sched) (parent : Pid) (binaryFound : Bool) :
    Schedulable (Process.loaderSpawn sched parent binaryFound).2 := by
  cases binaryFound with
  | false => exact schedulable
  | true =>
      apply makeReady
      exact schedulable

section Preemption

variable (schedulable : Schedulable sched) (inv : Inv sched)
  (room : sched.procs.length < schedMaxReady)
include schedulable inv room

theorem preempt (handled : schedPreemptHandler sched = some next) : Schedulable next := by
  rcases preempted_of_schedPreemptHandler inv.wf inv.idle (.inl inv.living) handled with
    ⟨chosen, rest, reaped, preempted⟩
  apply preempted.current_or_ready
  exact schedulable.offered inv.wf room fun _ => inv.living

theorem preempt_isSome : ∃ after, schedPreemptHandler sched = some after := by
  apply schedPreemptHandler_isSome inv.wf inv.linked inv.idle (.inl inv.living)
  exact List.ne_nil_of_mem (schedulable.offered inv.wf room fun _ => inv.living)

omit room in
theorem dying (notKernel : sched.current ≠ kernelPid) :
    Wf (sched.setState sched.current .dead) ∧ Linked (sched.setState sched.current .dead) ∧
      (sched.setState sched.current .dead).state? sched.current = some .dead ∧
      kernelPid ∈ (offer (sched.setState sched.current .dead)).readyQueue := by
  refine ⟨inv.wf.setState inv.idle .dead, ?_, by simp [inv.living], ?_⟩
  · exact inv.linked.of_sameTree (.setState sched sched.current .dead)
  · apply mem_offer_of_mem
    exact schedulable.resolve_left notKernel

omit room in
theorem syscExit (notKernel : sched.current ≠ kernelPid)
    (handled : Process.syscExit sched sched.current = some next) : Schedulable next := by
  rcases schedulable.dying inv notKernel with ⟨wf, -, dead, ready⟩
  rcases preempted_of_schedPreemptHandler wf (inv.idle.setState _ _) (.inr dead) handled with
    ⟨chosen, rest, reaped, preempted⟩
  exact preempted.current_or_ready ready

omit room in
theorem syscExit_isSome (notKernel : sched.current ≠ kernelPid) :
    ∃ after, Process.syscExit sched sched.current = some after := by
  rcases schedulable.dying inv notKernel with ⟨wf, linked, dead, ready⟩
  apply schedPreemptHandler_isSome wf linked (inv.idle.setState _ _) (.inr dead)
  exact List.ne_nil_of_mem ready

end Preemption

theorem schedWaitFor (schedulable : Schedulable sched) {process : Pid}
    (notKernel : process ≠ kernelPid) (pid : Pid) :
    Schedulable (Process.schedWaitFor sched process pid) := by
  unfold Process.schedWaitFor
  split
  · exact schedulable
  · apply purge _ notKernel
    exact schedulable

theorem schedMakeNapping (schedulable : Schedulable sched) {process : Pid}
    (notKernel : process ≠ kernelPid) {time : Int}
    (naps : Process.schedMakeNapping sched process time = some next) : Schedulable next := by
  rcases Option.map_eq_some_iff.mp naps with ⟨proc, -, parked⟩
  split at parked
  · rw [← parked]
    exact schedulable.purge notKernel
  · exact parked ▸ schedulable

theorem syscKill (schedulable : Schedulable sched) (process : Pid) {pid : Pid}
    (spared : ∀ target ∈ findLive sched pid, target ≠ kernelPid) :
    Schedulable (Process.syscKill sched process pid) := by
  unfold Process.syscKill
  split
  case h_2 => exact schedulable
  case h_1 target found => exact schedulable.purge (spared target found)

/-- Every handler keeps the kernel schedulable, unless it kills it. -/
theorem handle (schedulable : Schedulable sched) (inv : Inv sched)
    (room : sched.procs.length < schedMaxReady) {event : Event}
    (spared : ∀ target ∈ event.victim sched, target ≠ kernelPid)
    (mayOccur : event.mayOccur sched) (handled : Process.handle sched event = some next) :
    Schedulable next := by
  cases event with
  | tick =>
      rcases Option.map_eq_some_iff.mp handled with ⟨switched, preempts, timed⟩
      rw [← timed]
      exact (schedulable.preempt inv room preempts).schedTimekeeper
  | fatalFault => exact schedulable.syscExit inv (of_decide_eq_true mayOccur) handled
  | exit status => exact schedulable.syscExit inv (of_decide_eq_true mayOccur) handled
  | fork =>
      rw [← Option.some.inj handled]
      apply makeReady
      exact schedulable
  | spawn binaryFound =>
      rw [← Option.some.inj handled]
      exact schedulable.loaderSpawn sched.current binaryFound
  | wait pid =>
      rcases Option.map_eq_some_iff.mp handled with ⟨switched, preempts, waits⟩
      rw [← waits]
      exact (schedulable.preempt inv room preempts).schedWaitFor (of_decide_eq_true mayOccur) pid
  | wakeup pid =>
      rw [← Option.some.inj handled]
      exact schedulable.schedWakeup inv.wf pid
  | kill pid =>
      rw [← Option.some.inj handled]
      exact schedulable.syscKill sched.current spared
  | sleep time =>
      rcases Option.bind_eq_some_iff.mp handled with ⟨switched, preempts, naps⟩
      exact (schedulable.preempt inv room preempts).schedMakeNapping
        (of_decide_eq_true mayOccur) naps
  | execve binaryFound =>
      cases binaryFound with
      | true => exact schedulable.preempt inv room handled
      | false => exact schedulable.syscExit inv (of_decide_eq_true mayOccur) handled
  | kmainSpawn binaryFound =>
      rw [← Option.some.inj handled]
      exact schedulable.loaderSpawn sched.current binaryFound

theorem handle_isSome (schedulable : Schedulable sched) (inv : Inv sched)
    (room : sched.procs.length < schedMaxReady) {event : Event}
    (mayOccur : event.mayOccur sched) : ∃ next, Process.handle sched event = some next := by
  rcases schedulable.preempt_isSome inv room with ⟨switched, preempts⟩
  cases event with
  | tick => exact ⟨Process.schedTimekeeper switched, by rw [Process.handle, preempts]; rfl⟩
  | fatalFault => exact schedulable.syscExit_isSome inv (of_decide_eq_true mayOccur)
  | exit status => exact schedulable.syscExit_isSome inv (of_decide_eq_true mayOccur)
  | fork => exact ⟨_, rfl⟩
  | spawn binaryFound => exact ⟨_, rfl⟩
  | wait pid => exact ⟨_, by rw [Process.handle, syscWait, preempts]; rfl⟩
  | wakeup pid => exact ⟨_, rfl⟩
  | kill pid => exact ⟨_, rfl⟩
  | sleep time =>
      have ready : kernelPid ∈ sched.readyQueue :=
        schedulable.resolve_left (of_decide_eq_true mayOccur)
      rcases inv.yields (List.ne_nil_of_mem ready) preempts with ⟨-, isReady, -⟩
      have present : switched.state? sched.current ≠ none := by simp [isReady]
      rcases proc?_of_state?_ne_none present with ⟨proc, found⟩
      have naps : (Process.handle sched (.sleep time)).isSome := by
        simp [Process.handle, syscSleep, preempts, Process.schedMakeNapping, found]
      exact Option.isSome_iff_exists.mp naps
  | execve binaryFound =>
      cases binaryFound with
      | true => exact ⟨switched, preempts⟩
      | false => exact schedulable.syscExit_isSome inv (of_decide_eq_true mayOccur)
  | kmainSpawn binaryFound => exact ⟨_, rfl⟩

end Schedulable

/-! ## Runs -/

/-- There are fewer than 256 processes, and what is killed is not the kernel and
neither running nor asleep. -/
def spares (sched : Sched) (event : Event) : Prop :=
  sched.procs.length < 256 ∧
    ∀ target ∈ event.victim sched, target ≠ kernelPid ∧ killable sched target

instance (sched : Sched) (event : Event) : Decidable (spares sched event) :=
  inferInstanceAs (Decidable (_ ∧ _))

/-- A user process never blocks while nobody is ready: the kernel is. -/
theorem Schedulable.orderly {sched : Sched} (schedulable : Schedulable sched) {event : Event}
    (allowed : spares sched event) (mayOccur : event.mayOccur sched) :
    Process.orderly sched event := by
  refine ⟨fun blocks => ?_, fun target member => (allowed.2 target member).2⟩
  have user : sched.current ≠ kernelPid := by
    cases event with
    | sleep time => exact of_decide_eq_true mayOccur
    | wait pid => exact of_decide_eq_true mayOccur
    | _ => cases blocks
  exact List.ne_nil_of_mem (schedulable.resolve_left user)

theorem enter_cases (sched : Sched) (event : Event) :
    ∃ number, enter sched event = sched ∨ enter sched event = sched.setEax sched.current number := by
  unfold enter
  split
  case h_1 number _ => exact ⟨number, .inr rfl⟩
  case h_2 => exact ⟨0, .inl rfl⟩

theorem spares_enter {sched : Sched} {event : Event} (inv : Inv sched)
    (schedulable : Schedulable sched) (allowed : spares sched event)
    (mayOccur : event.mayOccur sched) :
    Inv (enter sched event) ∧ Schedulable (enter sched event) ∧
      (enter sched event).procs.length < schedMaxReady ∧
      (∀ target ∈ event.victim (enter sched event), target ≠ kernelPid) ∧
      event.mayOccur (enter sched event) := by
  rcases enter_cases sched event with ⟨number, same | written⟩
  · rw [same]
    exact ⟨inv, schedulable, allowed.1, fun target member => (allowed.2 target member).1, mayOccur⟩
  · rw [written]
    have finds : event.victim (sched.setEax sched.current number) = event.victim sched := by
      cases event with
      | kill pid => exact findLive_congr pid rfl (by simp)
      | _ => rfl
    refine ⟨(inv.setEax _ _).inv, schedulable, ?_, ?_, ?_⟩
    · simpa [Sched.setEax, Sched.modifyProc, schedMaxReady] using allowed.1
    · rw [finds]
      exact fun target member => (allowed.2 target member).1
    · cases event <;> exact mayOccur

theorem Schedulable.step {sched next : Sched} {event : Event} (inv : Inv sched)
    (schedulable : Schedulable sched) (allowed : spares sched event)
    (stepped : Process.step sched event = some next) : Inv next ∧ Schedulable next := by
  unfold Process.step at stepped
  split at stepped
  case isFalse => cases stepped
  case isTrue mayOccur =>
    have orderly := schedulable.orderly allowed mayOccur
    rcases spares_enter inv schedulable allowed mayOccur with
      ⟨entered, ready, room, spared, occurs⟩
    refine ⟨(inv.step orderly ?_).inv, ready.handle entered room spared occurs stepped⟩
    rw [Process.step, if_pos mayOccur, stepped]

theorem Schedulable.step_isSome {sched : Sched} {event : Event} (inv : Inv sched)
    (schedulable : Schedulable sched) (allowed : spares sched event)
    (mayOccur : event.mayOccur sched) : ∃ next, Process.step sched event = some next := by
  rcases spares_enter inv schedulable allowed mayOccur with ⟨entered, ready, room, -, occurs⟩
  rcases ready.handle_isSome entered room occurs with ⟨next, handled⟩
  refine ⟨next, ?_⟩
  rw [Process.step, if_pos mayOccur, handled]

/-- In every state that is reached without killing the kernel, or somebody who is
running or asleep, the kernel is running or ready. So there is always a process
to run next, and no handler of any event that can follow faults. -/
theorem kernel_schedulable {events : List Event} {final : Sched}
    (allowed : Admissible step spares initialiseScheduler events)
    (reached : run step initialiseScheduler events = some final) :
    Schedulable final ∧
      (final.procs.length < 256 → (dequeue (offer final).readyQueue).1 ≠ none) ∧
      ∀ event, event.mayOccur final → spares final event →
        ∃ next, step final event = some next := by
  have initially : Schedulable initialiseScheduler := .inl rfl
  have preserved : ∀ before event after, Inv before ∧ Schedulable before →
      spares before event → step before event = some after → Inv after ∧ Schedulable after := by
    intro before event after holds permitted stepped
    exact holds.2.step holds.1 permitted stepped
  rcases run_preserves preserved ⟨inv_initialiseScheduler, initially⟩ allowed reached with
    ⟨inv, schedulable⟩
  refine ⟨schedulable, ?_, ?_⟩
  · intro room
    have ready := schedulable.offered inv.wf room fun _ => inv.living
    rcases List.exists_cons_of_ne_nil (List.ne_nil_of_mem ready) with ⟨next, rest, queue⟩
    simp [queue]
  · intro event mayOccur permitted
    exact schedulable.step_isSome inv permitted mayOccur

theorem kernel_schedulable_killedReady :
    ∃ final, run step initialiseScheduler killedReady = some final ∧ Schedulable final ∧
      (final.procs.length < 256 → (dequeue (offer final).readyQueue).1 ≠ none) ∧
      ∀ event, event.mayOccur final → spares final event →
        ∃ next, step final event = some next := by
  have runs : (run step initialiseScheduler killedReady).isSome := by decide
  rcases Option.isSome_iff_exists.mp runs with ⟨final, reached⟩
  exact ⟨final, reached, kernel_schedulable (by decide) reached⟩

/-- `init` kills the kernel and exits: nobody is left to run. -/
def killedKernel : List Event := [.kmainSpawn true, .tick, .kill kernelPid, .exit 0]

/-- `sysc_kill` takes any process out of the queues, the kernel as well. -/
theorem kernel_not_schedulable :
    ¬∀ (events : List Event) (final : Sched),
      Admissible step (fun sched _ => sched.procs.length < 256) initialiseScheduler events →
      run step initialiseScheduler events = some final →
      Schedulable final ∧
        (final.procs.length < 256 → (dequeue (offer final).readyQueue).1 ≠ none) ∧
        ∀ event, event.mayOccur final → final.procs.length < 256 →
          ∃ next, step final event = some next := by
  intro always
  have killed : (run step initialiseScheduler (killedKernel.take 3)).map
      (fun final => (final.current, final.readyQueue)) = some (2, []) := by decide
  rcases Option.map_eq_some_iff.mp killed with ⟨final, reached, queues⟩
  rcases Prod.mk.inj queues with ⟨current, ready⟩
  rcases (always (killedKernel.take 3) final (by decide) reached).1 with isCurrent | isReady
  · rw [current] at isCurrent
    cases isCurrent
  · rw [ready] at isReady
    cases isReady

/-- The exit that follows dereferences the `NULL` of the empty queue. -/
example : run step initialiseScheduler killedKernel = none := by decide

end Dbos.Process
