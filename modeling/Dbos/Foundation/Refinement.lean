import Mathlib.Data.List.Basic

/-! # Machines that answer

A partial machine answers each request; a total one says what the answers should be. Nothing
here depends on what the states, the requests and the answers are. -/

namespace Dbos.Refinement

variable {State Abstract Request Answer : Type}

/-- The answers to a list of requests and the state after them, or `none` as soon as one of
them cannot be served. -/
def serve (step : State → Request → Option (Answer × State)) :
    State → List Request → Option (List Answer × State)
  | state, [] => some ([], state)
  | state, request :: requests =>
      (step state request).bind fun (answer, next) =>
        (serve step next requests).map fun (answers, final) => (answer :: answers, final)

/-- The answers of a machine that serves everything. -/
def answer (step : Abstract → Request → Answer × Abstract) :
    Abstract → List Request → List Answer × Abstract
  | state, [] => ([], state)
  | state, request :: requests =>
      let first := step state request
      let rest := answer step first.2 requests
      (first.1 :: rest.1, rest.2)

/-- Every request satisfies `guard` in the state it is served in. -/
def Guarded (step : State → Request → Option (Answer × State)) (guard : State → Request → Prop) :
    State → List Request → Prop
  | _, [] => True
  | state, request :: requests =>
      guard state request ∧
        ∀ answer next, step state request = some (answer, next) → Guarded step guard next requests

/-- If related states serve every request that is allowed with the same answer and become
related states, then so do lists of requests. -/
theorem serve_refines {step : State → Request → Option (Answer × State)}
    {guard : State → Request → Prop} {model : Abstract → Request → Answer × Abstract}
    {relation : State → Abstract → Prop}
    (simulated : ∀ state abstract request, relation state abstract → guard state request →
      ∃ next, step state request = some ((model abstract request).1, next) ∧
        relation next (model abstract request).2)
    {initial : State} {abstract : Abstract} {requests : List Request}
    (related : relation initial abstract) (guarded : Guarded step guard initial requests) :
    ∃ final, serve step initial requests = some ((answer model abstract requests).1, final) ∧
      relation final (answer model abstract requests).2 := by
  induction requests generalizing initial abstract with
  | nil => exact ⟨initial, rfl, related⟩
  | cons request requests induction =>
      rcases simulated initial abstract request related guarded.1 with ⟨next, stepped, nextRelated⟩
      rcases induction nextRelated (guarded.2 _ next stepped) with ⟨final, served, finalRelated⟩
      refine ⟨final, ?_, finalRelated⟩
      rw [serve, stepped, Option.bind_some]
      simp only [served, Option.map_some]
      rfl

instance Guarded.decidable {step : State → Request → Option (Answer × State)}
    {guard : State → Request → Prop} [∀ state request, Decidable (guard state request)] :
    ∀ (state : State) (requests : List Request), Decidable (Guarded step guard state requests)
  | _, [] => .isTrue trivial
  | state, request :: requests =>
      if allowed : guard state request then
        match stepped : step state request with
        | none => .isTrue ⟨allowed, fun answer next other => by simp [stepped] at other⟩
        | some (answer, next) =>
            match Guarded.decidable next requests with
            | .isTrue rest => .isTrue ⟨allowed, fun other after reached => by
                rw [stepped] at reached
                cases reached
                exact rest⟩
            | .isFalse fails => .isFalse fun guarded => fails (guarded.2 answer next stepped)
      else .isFalse fun guarded => allowed guarded.1

end Dbos.Refinement
