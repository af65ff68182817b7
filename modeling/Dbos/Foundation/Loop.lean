import Mathlib.Data.List.Basic

/-! # Counting loops

The rules for a loop that runs a body for `0`, `1`, and so on. A guard that every
round keeps false once it is false may be assumed of all rounds if it holds at
the end. -/

namespace Dbos.Loop

/-- A state is brought in constructor form before it is handed on. The kernel can
then evaluate long loops, which it would otherwise unfold from the end. -/
class Strict (State : Type) where
  force {Result : Type} : State → (State → Result) → Result
  force_eq {Result : Type} (state : State) (next : State → Result) : force state next = next state

instance (priority := low) {State : Type} : Strict State := ⟨fun state next => next state,
  fun _ _ => rfl⟩

variable {State : Type} [Strict State]

def loopFrom (body : State → Nat → State) : Nat → Nat → State → State
  | 0, _, state => state
  | count + 1, index, state =>
      Strict.force (body state index) fun next => loopFrom body count (index + 1) next

/-- `for (i = 0; i < count; i++) body`. -/
@[irreducible] def loop (count : Nat) (body : State → Nat → State) (state : State) : State :=
  loopFrom body count 0 state

theorem loopFrom_succ (body : State → Nat → State) (count index : Nat) (state : State) :
    loopFrom body (count + 1) index state =
      body (loopFrom body count index state) (index + count) := by
  induction count generalizing index state with
  | zero => simp [loopFrom, Strict.force_eq]
  | succ count induction =>
      rw [loopFrom, Strict.force_eq, induction, loopFrom, Strict.force_eq]
      rw [show index + 1 + count = index + (count + 1) by omega]

theorem loop_succ (count : Nat) (body : State → Nat → State) (state : State) :
    loop (count + 1) body state = body (loop count body state) count := by
  unfold loop
  rw [loopFrom_succ, Nat.zero_add]

@[simp] theorem loop_zero (body : State → Nat → State) (state : State) :
    loop 0 body state = state := by
  simp [loop, loopFrom]

theorem loop_invariant {count : Nat} {body : State → Nat → State} {state : State}
    {motive : Nat → State → Prop} (initial : motive 0 state)
    (step : ∀ index < count, ∀ state, motive index state → motive (index + 1) (body state index)) :
    motive count (loop count body state) := by
  induction count with
  | zero => simpa using initial
  | succ count induction =>
      rw [loop_succ]
      exact step count (Nat.lt_succ_self count) _
        (induction fun index bound => step index (Nat.lt_succ_of_lt bound))

theorem loop_related {Other : Type} [Strict Other] {count : Nat} {body : State → Nat → State}
    {otherBody : Other → Nat → Other} {state : State} {other : Other}
    {motive : Nat → State → Other → Prop} (initial : motive 0 state other)
    (step : ∀ index < count, ∀ state other, motive index state other →
      motive (index + 1) (body state index) (otherBody other index)) :
    motive count (loop count body state) (loop count otherBody other) := by
  induction count with
  | zero => simpa using initial
  | succ count induction =>
      rw [loop_succ, loop_succ]
      exact step count (Nat.lt_succ_self count) _ _
        (induction fun index bound => step index (Nat.lt_succ_of_lt bound))

section Guarded

variable (guard : State → Prop) {body : State → Nat → State}

theorem guard_of_loop (back : ∀ state index, guard (body state index) → guard state)
    {count : Nat} {state : State} (holds : guard (loop count body state)) : guard state := by
  induction count with
  | zero => simpa using holds
  | succ count induction =>
      rw [loop_succ] at holds
      exact induction (back _ _ holds)

theorem loop_guarded (back : ∀ state index, guard (body state index) → guard state)
    {count : Nat} {state : State} {motive : Nat → State → Prop}
    (holds : guard (loop count body state)) (initial : motive 0 state)
    (step : ∀ index < count, ∀ state, guard (body state index) → motive index state →
      motive (index + 1) (body state index)) :
    motive count (loop count body state) := by
  induction count with
  | zero => simpa using initial
  | succ count induction =>
      rw [loop_succ] at holds ⊢
      exact step count (Nat.lt_succ_self count) _ holds
        (induction (back _ _ holds) fun index bound => step index (Nat.lt_succ_of_lt bound))

end Guarded

end Dbos.Loop
