import Dbos.Foundation.Execution
import Dbos.Kernel.Process.SchedulerRuns

/-! # Every process is in at most one container

The containers of the scheduler seen as one list. In a run without `sysc_kill`
nothing occurs twice in it, as long as no process blocks while nobody else is
ready. The kernel process is always ready to run, so this can only fail after
`queue_enqueue` has dropped it from a full `ready_queue`. -/

namespace Dbos.Process

open Dbos.Queue Dbos.Execution

/-- The current process and everything the containers refer to. -/
def Sched.members (sched : Sched) : List Pid :=
  sched.current :: (sched.readyQueue ++ sched.nappingList.map Nap.process ++
    sched.procs.flatMap Proc.waiting ++ sched.deadQueue)

/-- Every process has at most one place, and its state says which. -/
structure Placed (sched : Sched) : Prop where
  once : sched.members.Nodup
  current : sched.state? sched.current = some .living
  ready : ∀ pid ∈ sched.readyQueue, sched.state? pid = some .ready
  napping : ∀ pid ∈ sched.nappingList.map Nap.process, sched.state? pid = some .napping
  waiting : ∀ pid ∈ sched.procs.flatMap Proc.waiting, sched.state? pid = some .napping
  dead : ∀ pid ∈ sched.deadQueue, sched.state? pid = some .dead

theorem Wf.exists_waitersOf {sched : Sched} (wf : Wf sched) {pid : Pid}
    (member : pid ∈ sched.procs.flatMap Proc.waiting) :
    ∃ target, pid ∈ sched.waitersOf target := by
  rcases List.mem_flatMap.mp member with ⟨proc, procMember, waits⟩
  exact ⟨proc.pid, (wf.waitersOf_of_mem procMember).symm ▸ waits⟩

theorem Wf.nodup_waiting {sched : Sched} (wf : Wf sched) :
    (sched.procs.flatMap Proc.waiting).Nodup := by
  rw [List.nodup_flatMap]
  refine ⟨fun proc member => ?_, ?_⟩
  · rw [← wf.waitersOf_of_mem member]
    exact wf.waitersNodup proc.pid
  · have distinct : sched.procs.Pairwise fun first second => first.pid ≠ second.pid :=
      List.pairwise_map.mp wf.pidsNodup
    refine distinct.imp_of_mem fun {first second} firstMember secondMember different => ?_
    intro pid inFirst inSecond
    rw [← wf.waitersOf_of_mem firstMember] at inFirst
    rw [← wf.waitersOf_of_mem secondMember] at inSecond
    exact different (wf.waitsOnce _ _ pid inFirst inSecond)

theorem Inv.placed {sched : Sched} (inv : Inv sched) : Placed sched := by
  have wf := inv.wf
  have napping : ∀ pid ∈ sched.nappingList.map Nap.process,
      sched.state? pid = some .napping := by
    intro pid member
    rcases List.mem_map.mp member with ⟨nap, napMember, rfl⟩
    exact wf.napState nap napMember
  have waiting : ∀ pid ∈ sched.procs.flatMap Proc.waiting,
      sched.state? pid = some .napping := by
    intro pid member
    rcases wf.exists_waitersOf member with ⟨target, waits⟩
    exact wf.waiterState target pid waits
  refine ⟨?_, inv.living, wf.readyState, napping, waiting, wf.deadState⟩
  have apart : ∀ {pid first second}, sched.state? pid = some first →
      sched.state? pid = some second → first = second := fun one other =>
    Option.some.inj (one.symm.trans other)
  simp only [Sched.members, List.nodup_cons, List.nodup_append, List.mem_append, not_or]
  refine ⟨⟨⟨⟨?_, ?_⟩, ?_⟩, ?_⟩,
    ⟨⟨wf.readyNodup, wf.napNodup, ?_⟩, wf.nodup_waiting, ?_⟩, wf.deadNodup, ?_⟩
  · exact inv.idle.notReady
  · intro member
    cases apart inv.living (napping _ member)
  · intro member
    cases apart inv.living (waiting _ member)
  · exact inv.idle.notDead
  · rintro pid ready _ asleep rfl
    cases apart (wf.readyState pid ready) (napping pid asleep)
  · rintro pid earlier _ waits rfl
    rcases earlier with ready | asleep
    · cases apart (wf.readyState pid ready) (waiting pid waits)
    · rcases List.mem_map.mp asleep with ⟨nap, napMember, rfl⟩
      rcases wf.exists_waitersOf waits with ⟨target, onList⟩
      exact wf.napsOrWaits nap napMember target onList
  · rintro pid earlier _ corpse rfl
    rcases earlier with (ready | asleep) | waits
    · cases apart (wf.readyState pid ready) (wf.deadState pid corpse)
    · cases apart (napping pid asleep) (wf.deadState pid corpse)
    · cases apart (waiting pid waits) (wf.deadState pid corpse)

/-- Not a call of `sysc_kill`. -/
def Event.spares : Event → Bool
  | .kill _ => false
  | _ => true

/-- A process blocks only while another one is ready to run. -/
def blocksSafely (sched : Sched) (event : Event) : Prop :=
  event.blocks sched = true → sched.readyQueue ≠ []

instance (sched : Sched) (event : Event) : Decidable (blocksSafely sched event) :=
  inferInstanceAs (Decidable (_ → _))

theorem orderly_of_spares {sched : Sched} {event : Event} (safe : blocksSafely sched event)
    (spares : event.spares) : orderly sched event := by
  refine ⟨safe, fun target isVictim => ?_⟩
  cases event <;> first | cases isVictim | cases spares

/-- In a run without kills the containers are disjoint and agree with the states. -/
theorem placed_of_run {events : List Event} {final : Sched}
    (noKill : ∀ event ∈ events, event.spares)
    (allowed : Admissible step blocksSafely initialiseScheduler events)
    (reached : run step initialiseScheduler events = some final) : Placed final := by
  have orderlyRun : Admissible step orderly initialiseScheduler events :=
    (allowed.restrict noKill).mono fun _ _ holds => orderly_of_spares holds.1 holds.2
  exact (inv_initialiseScheduler.run orderlyRun reached).placed

/-- `init` waits for a child while a sleeper is woken by the timer. -/
theorem placed_of_run_waiting :
    ∃ final, run step initialiseScheduler
        [.kmainSpawn true, .tick, .fork, .spawn true, .wait 3, .tick, .sleep 1, .tick] =
          some final ∧ Placed final := by
  rcases Option.isSome_iff_exists.mp (show (run step initialiseScheduler
    [.kmainSpawn true, .tick, .fork, .spawn true, .wait 3, .tick, .sleep 1, .tick]).isSome
    by decide) with ⟨final, reached⟩
  exact ⟨final, reached, placed_of_run (by decide) (by decide) reached⟩

/-! ## A full ready queue loses the kernel -/

/-- What the run below keeps track of. -/
structure Snapshot (sched : Sched) (current : Pid) (ready : List Pid) (naps : List Nap)
    (dead : List Pid) : Prop where
  inv : Inv sched
  current_eq : sched.current = current
  ready_eq : sched.readyQueue = ready
  naps_eq : sched.nappingList = naps
  dead_eq : sched.deadQueue = dead

namespace Snapshot

variable {sched : Sched} {current : Pid} {ready dead : List Pid} {naps : List Nap}
  (snapshot : Snapshot sched current ready naps dead)
include snapshot

theorem spawn (user : current ≠ kernelPid) (count : Nat)
    (room : ready.length + count ≤ schedMaxReady) :
    ∃ next children, run step sched (List.replicate count (.spawn true)) = some next ∧
      children.length = count ∧ Snapshot next current (ready ++ children) naps dead := by
  induction count generalizing sched ready with
  | zero => exact ⟨sched, [], rfl, rfl, by simpa using snapshot⟩
  | succ count induction =>
      have mayOccur : (Event.spawn true).mayOccur sched = true := by
        simpa [Event.mayOccur, snapshot.current_eq] using user
      have stepped : step sched (.spawn true) =
          some (syscSpawn (sched.setEax sched.current 3) sched.current true) := by
        simp only [step, mayOccur, if_true]
        rfl
      have after := snapshot.inv.step (by simp [orderly, Event.blocks, Event.victim]) stepped
      have first : Snapshot (syscSpawn (sched.setEax sched.current 3) sched.current true)
          current (ready ++ [sched.procPid + 1]) naps dead := by
        refine ⟨after.inv, snapshot.current_eq, ?_, snapshot.naps_eq, snapshot.dead_eq⟩
        change enqueue schedMaxReady sched.readyQueue (sched.procPid + 1) = _
        rw [snapshot.ready_eq, enqueue, if_pos (by omega)]
      rcases induction first (by simp; omega) with ⟨next, children, reached, length, last⟩
      refine ⟨next, (sched.procPid + 1) :: children, ?_, by simp [length], by simpa using last⟩
      rw [List.replicate_succ, run_cons, stepped]
      exact reached

theorem exit (user : kernelPid ∉ current :: ready) :
    ∃ next corpses, run step sched (List.replicate ready.length (.exit 0)) = some next ∧
      Snapshot next ((current :: ready).getLast (by simp)) [] naps corpses := by
  induction ready generalizing sched current dead with
  | nil => exact ⟨sched, dead, rfl, snapshot⟩
  | cons head rest induction =>
      rw [List.mem_cons, not_or] at user
      let dying := (sched.setEax sched.current 1).setState sched.current .dead
      have inv := (snapshot.inv.setEax sched.current 1).inv
      have isDead : dying.state? dying.current = some .dead := by
        change dying.state? sched.current = _
        simp [dying, snapshot.inv.living]
      have queue : (offer dying).readyQueue = head :: rest := by
        simp only [offer, isDead]
        exact snapshot.ready_eq
      have notKernel : sched.current ≠ kernelPid := fun kernel =>
        user.1 (kernel.symm.trans snapshot.current_eq)
      have stepped : step sched (.exit 0) = schedPreemptHandler dying := by
        have mayOccur : (Event.exit 0).mayOccur sched = true := by
          simpa [Event.mayOccur] using notKernel
        simp only [step, mayOccur, if_true]
        rfl
      have wf : Wf dying := inv.wf.setState inv.idle .dead
      have idle : Idle dying dying.current := inv.idle.setState _ _
      rw [schedPreemptHandler_eq wf idle (by simp [isDead]) queue (.inr notKernel)] at stepped
      have after := snapshot.inv.step (by simp [orderly, Event.blocks, Event.victim]) stepped
      have first : Snapshot _ head rest naps _ :=
        ⟨after.inv, rfl, readyQueue_bury _ _, (nappingList_bury _ _).trans <|
          (nappingList_offer _).trans snapshot.naps_eq, rfl⟩
      rcases induction first user.2 with ⟨next, corpses, reached, last⟩
      refine ⟨next, corpses, ?_, by simpa using last⟩
      rw [List.length_cons, List.replicate_succ, run_cons, stepped]
      exact reached

theorem tick {next : Pid} {rest : List Pid}
    (queue : enqueue schedMaxReady ready current = next :: rest)
    (noReap : dead = [] ∨ current ≠ kernelPid) :
    ∃ switched after, step sched .tick = some after ∧ after = schedTimekeeper switched ∧
      Snapshot switched next rest naps dead.tail ∧ Inv after := by
  have offered : (offer sched).readyQueue = next :: rest := by
    rw [offer, if_pos snapshot.inv.living, ← queue, ← snapshot.ready_eq, ← snapshot.current_eq]
    rfl
  have handled := schedPreemptHandler_eq snapshot.inv.wf snapshot.inv.idle
    (by simp [snapshot.inv.living]) offered
    (by rw [snapshot.dead_eq, snapshot.current_eq]; exact noReap)
  have switched := snapshot.inv.preempt handled
  have stepped : step sched .tick = _ := congrArg (Option.map schedTimekeeper) handled
  have after := snapshot.inv.step (by simp [orderly, Event.blocks, Event.victim]) stepped
  refine ⟨_, _, stepped, rfl, ⟨switched.inv, rfl, readyQueue_bury _ _,
    (nappingList_bury _ _).trans ((nappingList_offer _).trans snapshot.naps_eq), ?_⟩, after.inv⟩
  have alive : (choose sched rest).state? sched.current ≠ some .dead := by
    change (offer sched).state? sched.current ≠ _
    simp [offer, snapshot.inv.living]
  change (bury (choose sched rest) sched.current).deadQueue = _
  rw [bury, if_neg alive]
  simp [choose, snapshot.dead_eq]

theorem timekeeper_nil (quiet : naps = []) (inv : Inv (schedTimekeeper sched)) :
    Snapshot (schedTimekeeper sched) current ready [] dead := by
  have same : schedTimekeeper sched = { sched with nappingList := [] } := by
    unfold schedTimekeeper
    rw [snapshot.naps_eq, quiet]
    rfl
  rw [same] at inv ⊢
  exact ⟨inv, snapshot.current_eq, snapshot.ready_eq, rfl, snapshot.dead_eq⟩

theorem timekeeper_crowds {pid : Pid} (last : naps = [⟨pid, 1⟩])
    (inv : Inv (schedTimekeeper sched)) :
    Snapshot (schedTimekeeper sched) current (enqueue schedMaxReady ready pid) [] dead := by
  have woken : schedTimekeeper sched =
      { schedMakeReady sched pid with nappingList := [] } := by
    unfold schedTimekeeper
    rw [snapshot.naps_eq, last]
    rfl
  rw [woken] at inv ⊢
  refine ⟨inv, snapshot.current_eq, ?_, rfl, snapshot.dead_eq⟩
  rw [← snapshot.ready_eq]
  rfl

theorem sleep (user : current ≠ kernelPid) (alone : ready = []) (time : Int) :
    ∃ next, step sched (.sleep time) = some next ∧ next.current = current ∧
      next.nappingList = naps ++ [⟨current, time⟩] := by
  have inv := (snapshot.inv.setEax sched.current 9).inv
  have offered : (offer (sched.setEax sched.current 9)).readyQueue = [sched.current] := by
    rw [offer, if_pos inv.living]
    change enqueue schedMaxReady sched.readyQueue sched.current = _
    rw [snapshot.ready_eq, alone]
    rfl
  have notKernel : sched.current ≠ kernelPid := snapshot.current_eq.symm ▸ user
  have handled := schedPreemptHandler_eq inv.wf inv.idle (by simp [inv.living]) offered
    (.inr notKernel)
  have living := (inv.preempt handled).inv.living
  rcases Option.map_eq_some_iff.mp living with ⟨proc, found, isLiving⟩
  have mayOccur : (Event.sleep time).mayOccur sched = true := by
    simpa [Event.mayOccur] using notKernel
  have stepped : step sched (.sleep time) =
      (schedPreemptHandler (sched.setEax sched.current 9)).bind
        fun switched => schedMakeNapping switched sched.current time := by
    simp only [step, mayOccur, if_true]
    rfl
  rw [handled, Option.bind_some, schedMakeNapping] at stepped
  change Sched.proc? _ sched.current = some proc at found
  rw [found, Option.map_some, if_pos (by simp [isLiving])] at stepped
  refine ⟨_, stepped, snapshot.current_eq, ?_⟩
  rw [← snapshot.current_eq, ← snapshot.naps_eq]
  exact congrArg (· ++ [_]) ((nappingList_bury _ _).trans (nappingList_offer _))

end Snapshot

/-- `init` goes to sleep while its first child runs. -/
def prelude : List Event := [.kmainSpawn true, .tick, .spawn true, .sleep 2, .tick]

theorem snapshot_prelude : ∃ sched, run step initialiseScheduler prelude = some sched ∧
    Snapshot sched 3 [kernelPid] [⟨2, 1⟩] [] := by
  have fields : (run step initialiseScheduler prelude).map (fun sched =>
      (sched.current, sched.readyQueue, sched.nappingList, sched.deadQueue)) =
      some (3, [kernelPid], [⟨2, 1⟩], []) := by decide
  rcases Option.map_eq_some_iff.mp fields with ⟨sched, reached, equal⟩
  simp only [Prod.mk.injEq] at equal
  have allowed : Admissible step orderly initialiseScheduler prelude := by decide
  exact ⟨sched, reached, inv_initialiseScheduler.run allowed reached,
    equal.1, equal.2.1, equal.2.2.1, equal.2.2.2⟩

/-- The child then spawns so many others that the queue is full when the timer
has made `init` ready again. -/
def crowd : List Event := prelude ++ (List.replicate 254 (.spawn true) ++ [.tick, .tick])

theorem snapshot_crowd : ∃ sched first children,
    run step initialiseScheduler crowd = some sched ∧ children.length = 253 ∧
      kernelPid ∉ first :: children ∧ Snapshot sched first (children ++ [3, 2]) [] [] := by
  rcases snapshot_prelude with ⟨sched, started, start⟩
  rcases start.spawn (by decide) 254 (by decide) with ⟨spawned, children, spawns, length, full⟩
  rcases List.exists_cons_of_length_pos (show 0 < children.length by omega) with
    ⟨first, others, rfl⟩
  have notKernel : kernelPid ∉ first :: others := by
    have nodup := full.inv.wf.readyNodup
    rw [full.ready_eq] at nodup
    exact (List.nodup_cons.mp nodup).1
  simp only [List.length_cons, Nat.succ.injEq] at length
  -- The kernel runs, and the timer fills the queue behind it.
  have offersChild : enqueue schedMaxReady ([kernelPid] ++ first :: others) 3 =
      kernelPid :: (first :: others ++ [3]) := by
    simp [enqueue, length, schedMaxReady]
  rcases full.tick offersChild (.inl rfl) with ⟨toKernel, woken, firstTick, rfl, switched, inv⟩
  have crowded := switched.timekeeper_crowds rfl inv
  have isFull : enqueue schedMaxReady (enqueue schedMaxReady (first :: others ++ [3]) 2)
      kernelPid = first :: (others ++ [3, 2]) := by
    simp [enqueue, length, schedMaxReady]
  -- There is no place for the kernel.
  rcases crowded.tick isFull (.inl rfl) with ⟨fromKernel, last, secondTick, rfl, left, lastInv⟩
  refine ⟨_, first, others, ?_, length, notKernel, left.timekeeper_nil rfl lastInv⟩
  rw [crowd, run_append, started, Option.bind_some, run_append, spawns, Option.bind_some,
    run_cons, firstTick, Option.bind_some, run_cons, secondTick]
  rfl

/-- When the other processes have exited, `init` goes to sleep and goes on running. -/
theorem not_placed_of_run :
    ¬∀ (events : List Event) (final : Sched), (∀ event ∈ events, event.spares) →
      run step initialiseScheduler events = some final → Placed final := by
  intro always
  rcases snapshot_crowd with ⟨sched, first, children, crowded, length, notKernel, snapshot⟩
  have users : kernelPid ∉ first :: (children ++ [3, 2]) := by
    rw [List.mem_cons, not_or] at notKernel
    simp only [List.mem_cons, List.mem_append, not_or, List.not_mem_nil]
    exact ⟨notKernel.1, notKernel.2, by decide, by decide, nofun⟩
  rcases snapshot.exit users with ⟨alone, corpses, exits, sole⟩
  have isInit : (first :: (children ++ [3, 2])).getLast (by simp) = 2 := by simp
  rw [isInit] at sole
  rcases sole.sleep (by decide) rfl 1 with ⟨final, sleeps, current, naps⟩
  let events := crowd ++ (List.replicate (children ++ [3, 2]).length (.exit 0) ++ [.sleep 1])
  have reached : run step initialiseScheduler events = some final := by
    rw [run_append, crowded, Option.bind_some, run_append, exits, Option.bind_some, run_cons,
      sleeps]
    rfl
  have spares : ∀ event ∈ events, event.spares := by
    intro event member
    have early : ∀ event ∈ prelude, event.spares := by decide
    have ticks : ∀ event ∈ [Event.tick, .tick], event.spares := by decide
    simp only [events, crowd, List.mem_append] at member
    rcases member with (start | spawn | tick) | exit | sleep
    · exact early event start
    · exact List.eq_of_mem_replicate spawn ▸ rfl
    · exact ticks event tick
    · exact List.eq_of_mem_replicate exit ▸ rfl
    · exact List.mem_singleton.mp sleep ▸ rfl
  have twice := (always events final spares reached).once
  simp [Sched.members, current, naps] at twice

end Dbos.Process
