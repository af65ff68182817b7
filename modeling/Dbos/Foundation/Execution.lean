import Mathlib.Data.List.Basic

/-! # Executions of partial machines

A machine is a partial step function: `none` stands for an event that cannot
happen in the state, or that makes the machine fault. Nothing here depends on
what the states and the events are. -/

namespace Dbos.Execution

variable {State Event : Type}

/-- The state a list of events leads to, or `none` as soon as one of them
cannot be executed. -/
def run (step : State → Event → Option State) : State → List Event → Option State
  | state, [] => some state
  | state, event :: events =>
      (step state event).bind fun next => run step next events

/-- Every event of the list satisfies `guard` in the state it is executed in. -/
def Admissible (step : State → Event → Option State)
    (guard : State → Event → Prop) : State → List Event → Prop
  | _, [] => True
  | state, event :: events =>
      guard state event ∧
        ∀ next, step state event = some next → Admissible step guard next events

variable {step : State → Event → Option State} {guard : State → Event → Prop}

@[simp] theorem run_nil (state : State) : run step state [] = some state := rfl

theorem run_cons (state : State) (event : Event) (events : List Event) :
    run step state (event :: events) =
      (step state event).bind fun next => run step next events := rfl

theorem run_append (state : State) (before after : List Event) :
    run step state (before ++ after) =
      (run step state before).bind fun middle => run step middle after := by
  induction before generalizing state with
  | nil => rfl
  | cons event before induction =>
      simp only [List.cons_append, run_cons, Option.bind_assoc]
      congr 1
      funext next
      exact induction next

/-- A machine that is never stuck comes to the end of every list. -/
theorem run_isSome (total : ∀ state event, (step state event).isSome = true) (state : State)
    (events : List Event) : (run step state events).isSome = true := by
  induction events generalizing state with
  | nil => rfl
  | cons event events induction =>
      rcases Option.isSome_iff_exists.mp (total state event) with ⟨next, stepped⟩
      rw [run_cons, stepped, Option.bind_some]
      exact induction next

theorem Admissible.append {state middle : State} {before after : List Event}
    (admissible : Admissible step guard state (before ++ after))
    (reached : run step state before = some middle) :
    Admissible step guard state before ∧ Admissible step guard middle after := by
  induction before generalizing state with
  | nil =>
      cases reached
      exact ⟨trivial, admissible⟩
  | cons event before induction =>
      rcases Option.bind_eq_some_iff.mp reached with ⟨next, stepped, rest⟩
      rcases induction (admissible.2 next stepped) rest with ⟨first, second⟩
      refine ⟨⟨admissible.1, ?_⟩, second⟩
      intro other otherStep
      rw [stepped] at otherStep
      cases otherStep
      exact first

theorem Admissible.cons {state next : State} {event : Event} {events : List Event}
    (allowed : guard state event) (stepped : step state event = some next)
    (rest : Admissible step guard next events) : Admissible step guard state (event :: events) := by
  refine ⟨allowed, fun other isOther => ?_⟩
  cases stepped.symm.trans isOther
  exact rest

theorem Admissible.mono {weaker : State → Event → Prop}
    (implies : ∀ state event, guard state event → weaker state event)
    {state : State} {events : List Event}
    (admissible : Admissible step guard state events) :
    Admissible step weaker state events := by
  induction events generalizing state with
  | nil => trivial
  | cons event events induction =>
      exact ⟨implies _ _ admissible.1,
        fun next stepped => induction (admissible.2 next stepped)⟩

theorem Admissible.restrict {property : Event → Prop} {state : State} {events : List Event}
    (holds : ∀ event ∈ events, property event)
    (admissible : Admissible step guard state events) :
    Admissible step (fun state event => guard state event ∧ property event) state events := by
  induction events generalizing state with
  | nil => trivial
  | cons event events induction =>
      refine ⟨⟨admissible.1, holds event (by simp)⟩, fun next stepped => ?_⟩
      exact induction (fun later member => holds later (by simp [member]))
        (admissible.2 next stepped)

theorem run_preserves {invariant : State → Prop}
    (preserved : ∀ state event next, invariant state → guard state event →
      step state event = some next → invariant next)
    {initial final : State} {events : List Event} (holds : invariant initial)
    (admissible : Admissible step guard initial events)
    (reached : run step initial events = some final) : invariant final := by
  induction events generalizing initial with
  | nil =>
      cases reached
      exact holds
  | cons event events induction =>
      rcases Option.bind_eq_some_iff.mp reached with ⟨next, stepped, rest⟩
      exact induction (preserved _ _ _ holds admissible.1 stepped)
        (admissible.2 next stepped) rest

theorem admissible_congr {other : State → Event → Prop} {invariant : State → Prop}
    (preserved : ∀ state event next, invariant state → step state event = some next →
      invariant next)
    (same : ∀ state event next, invariant state → step state event = some next →
      (guard state event ↔ other state event))
    {initial final : State} {events : List Event} (holds : invariant initial)
    (reached : run step initial events = some final) :
    Admissible step guard initial events ↔ Admissible step other initial events := by
  induction events generalizing initial with
  | nil => exact Iff.rfl
  | cons event events induction =>
      rcases Option.bind_eq_some_iff.mp reached with ⟨next, stepped, rest⟩
      have later := induction (preserved initial event next holds stepped) rest
      have first := same initial event next holds stepped
      constructor
      · intro admissible
        refine ⟨first.mp admissible.1, fun after isAfter => ?_⟩
        cases stepped.symm.trans isAfter
        exact later.mp (admissible.2 next stepped)
      · intro admissible
        refine ⟨first.mpr admissible.1, fun after isAfter => ?_⟩
        cases stepped.symm.trans isAfter
        exact later.mpr (admissible.2 next stepped)

theorem Admissible.of_invariant {other : State → Event → Prop} (invariant : State → Prop)
    {initial : State} {events : List Event} (admissible : Admissible step guard initial events)
    (implies : ∀ state event, invariant state → guard state event → other state event)
    (preserved : ∀ state event next, invariant state → guard state event →
      step state event = some next → invariant next)
    (holds : invariant initial) : Admissible step other initial events := by
  induction events generalizing initial with
  | nil => trivial
  | cons event events induction =>
      refine ⟨implies initial event holds admissible.1, fun next stepped => ?_⟩
      exact induction (admissible.2 next stepped)
        (preserved initial event next holds admissible.1 stepped)

theorem admissible_iff {other : State → Event → Prop} (invariant : State → Prop)
    {initial : State} {events : List Event}
    (same : ∀ state event, invariant state → (guard state event ↔ other state event))
    (preserved : ∀ state event next, invariant state → guard state event →
      step state event = some next → invariant next)
    (holds : invariant initial) :
    Admissible step guard initial events ↔ Admissible step other initial events := by
  constructor
  · intro admissible
    exact admissible.of_invariant invariant
      (fun state event before => (same state event before).mp) preserved holds
  · intro admissible
    exact admissible.of_invariant invariant
      (fun state event before => (same state event before).mpr)
      (fun state event next before isOther =>
        preserved state event next before ((same state event before).mpr isOther)) holds

theorem run_invariant {invariant : State → Prop}
    (preserved : ∀ state event next, invariant state → step state event = some next →
      invariant next)
    {initial final : State} {events : List Event} (holds : invariant initial)
    (reached : run step initial events = some final) : invariant final := by
  have unguarded : ∀ state events, Admissible step (fun _ _ => True) state events := by
    intro state events
    induction events generalizing state with
    | nil => trivial
    | cons event events induction => exact ⟨trivial, fun next _ => induction next⟩
  exact run_preserves (fun state event next before _ => preserved state event next before)
    holds (unguarded initial events) reached

section Simulation

variable {Abstract : Type} {good : State → Prop}

theorem run_back
    (back : ∀ state event next, step state event = some next → good next → good state)
    {initial final : State} {events : List Event} (reached : run step initial events = some final)
    (holds : good final) : good initial := by
  induction events generalizing initial with
  | nil =>
      cases reached
      exact holds
  | cons event events induction =>
      rcases Option.bind_eq_some_iff.mp reached with ⟨next, stepped, rest⟩
      exact back initial event next stepped (induction rest)

/-- The simulation rule: every step between good states is matched by a step of a
machine that is never stuck. -/
theorem run_simulates {abstractStep : Abstract → Event → Abstract}
    {relation : State → Abstract → Prop}
    (back : ∀ state event next, step state event = some next → good next → good state)
    (simulated : ∀ state event next abstract, relation state abstract →
      step state event = some next → good next → relation next (abstractStep abstract event))
    {initial final : State} {abstract : Abstract} {events : List Event}
    (holds : relation initial abstract) (reached : run step initial events = some final)
    (isGood : good final) : relation final (events.foldl abstractStep abstract) := by
  induction events generalizing initial abstract with
  | nil =>
      cases reached
      exact holds
  | cons event events induction =>
      rcases Option.bind_eq_some_iff.mp reached with ⟨next, stepped, rest⟩
      exact induction (simulated initial event next abstract holds stepped
        (run_back back rest isGood)) rest

end Simulation

instance Admissible.decidable [∀ state event, Decidable (guard state event)] :
    ∀ (state : State) (events : List Event),
      Decidable (Admissible step guard state events)
  | _, [] => .isTrue trivial
  | state, event :: events =>
      if allowed : guard state event then
        match stepped : step state event with
        | none => .isTrue ⟨allowed, fun next other => by simp [stepped] at other⟩
        | some next =>
            match Admissible.decidable next events with
            | .isTrue rest => .isTrue ⟨allowed, fun other reached => by
                rw [stepped] at reached
                cases reached
                exact rest⟩
            | .isFalse fails => .isFalse fun admissible =>
                fails (admissible.2 next stepped)
      else
        .isFalse fun admissible => allowed admissible.1

end Dbos.Execution
