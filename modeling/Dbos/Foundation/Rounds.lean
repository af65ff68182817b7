import Mathlib.Data.List.Basic

/-! # Loops without a bound

A loop `while (1)` is given by what one round does: it may not return, leave the
loop with a result, or go on in another state. Nothing here depends on what the
states are. -/

namespace Dbos.Rounds

variable {State Result : Type}

/-- At most `fuel` rounds; `none` if the loop has not been left by then. -/
def rounds (round : State → Option (Result ⊕ State)) : Nat → State → Option Result
  | 0, _ => none
  | fuel + 1, state =>
      match round state with
      | none => none
      | some (.inl result) => some result
      | some (.inr next) => rounds round fuel next

/-- The states in which these rounds begin. -/
def visited (round : State → Option (Result ⊕ State)) : Nat → State → List State
  | 0, _ => []
  | fuel + 1, state =>
      state :: match round state with
        | some (.inr next) => visited round fuel next
        | _ => []

/-- The loop is left after finitely many rounds, and all of them begin in a state
with the property. -/
def Safe (property : State → Prop) (round : State → Option (Result ⊕ State)) (state : State) :
    Prop :=
  ∃ fuel, (rounds round fuel state).isSome ∧ ∀ other ∈ visited round fuel state, property other

variable {property : State → Prop} {round : State → Option (Result ⊕ State)}

theorem Safe.done {state : State} {result : Result} (holds : property state)
    (leaves : round state = some (.inl result)) : Safe property round state := by
  refine ⟨1, ?_, ?_⟩
  · simp [rounds, leaves]
  · intro other member
    simp only [visited, leaves, List.mem_singleton] at member
    exact member ▸ holds

theorem Safe.again {state next : State} (holds : property state)
    (continues : round state = some (.inr next)) (rest : Safe property round next) :
    Safe property round state := by
  rcases rest with ⟨fuel, ends, all⟩
  refine ⟨fuel + 1, ?_, ?_⟩
  · simpa only [rounds, continues] using ends
  · intro other member
    simp only [visited, continues, List.mem_cons] at member
    rcases member with here | later
    · exact here ▸ holds
    · exact all other later

theorem Safe.induct {motive : State → Prop}
    (done : ∀ state result, property state → round state = some (.inl result) → motive state)
    (again : ∀ state next, property state → round state = some (.inr next) → motive next →
      motive state)
    {state : State} (safe : Safe property round state) : motive state := by
  rcases safe with ⟨fuel, ends, all⟩
  induction fuel generalizing state with
  | zero => cases ends
  | succ fuel induction =>
      have here := all state List.mem_cons_self
      cases outcome : round state with
      | none => simp [rounds, outcome] at ends
      | some outcome' =>
          cases outcome' with
          | inl result => exact done state result here outcome
          | inr next =>
              simp only [rounds, outcome] at ends
              simp only [visited, outcome, List.mem_cons] at all
              exact again state next here outcome
                (induction ends fun other member => all other (.inr member))

end Dbos.Rounds
