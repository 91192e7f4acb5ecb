/-
This file is a small theory of solvers that collect constraints.

A solver state stands for the set of its models. A step of the solver adds a
condition: when it returns, the new state has exactly the old models that
satisfy the condition, and when it refuses, no old model satisfies it. Steps
compose, so a solver that is a sequence of such steps decides the conjunction of
their conditions. A fault is never an outcome of such a step.
-/

import HibanaChoreography.Library.Run

namespace Constraint

open Outcome

variable {State Error Model : Type} {models : State → Model → Prop}

/-- The step adds exactly the condition, and leaves a state that satisfies `post`. -/
def Adds (models : State → Model → Prop) (state : State) (post : State → Prop)
    (condition : Model → Prop) (result : Checked Error State) : Prop :=
  match result with
  | .ok next => post next ∧ ∀ model, models next model ↔ models state model ∧ condition model
  | .error (.refused _) => ∀ model, models state model → ¬ condition model
  | .error (.fault _) => False

/-- The same for a step that answers with a truth value instead of refusing. -/
def Decides (models : State → Model → Prop) (state : State) (post : State → Prop)
    (condition : Model → Prop) (result : Run (Bool × State)) : Prop :=
  match result with
  | .ok (true, next) =>
    post next ∧ ∀ model, models next model ↔ models state model ∧ condition model
  | .ok (false, _) => ∀ model, models state model → ¬ condition model
  | .error _ => False

variable {state : State} {post : State → Prop} {condition : Model → Prop}
  {result : Run (Bool × State)}

/-- Returning the state adds nothing. -/
theorem adds_ok (holds : post state) (free : ∀ model, models state model → condition model) :
    Adds models state post condition (.ok state : Checked Error State) :=
  ⟨holds, fun model => ⟨fun isModel => ⟨isModel, free model isModel⟩, And.left⟩⟩

/-- Refusing is right when no model satisfies the condition. -/
theorem adds_refuse (error : Error) (impossible : ∀ model, models state model → ¬ condition model) :
    Adds models state post condition (refuse error : Checked Error State) := impossible

variable {middle : State → Prop} {first second : Model → Prop} {next : State → Checked Error State}

/-- Two steps add both their conditions. -/
theorem Adds.bind {result : Checked Error State} (adds : Adds models state middle first result)
    (addsNext : ∀ reached, middle reached → Adds models reached post second (next reached)) :
    Adds models state post (fun model => first model ∧ second model) (result >>= next) := by
  match result with
  | .ok reached =>
    obtain ⟨holds, refined⟩ := adds
    have step := addsNext reached holds
    rw [Run.bind_ok]
    cases outcome : next reached with
    | ok final =>
      rw [outcome] at step
      refine ⟨step.1, fun model => ?_⟩
      rw [step.2 model, refined model, and_assoc]
    | error failure =>
      rw [outcome] at step
      cases failure with
      | fault fault => exact step
      | refused error =>
        rintro model isModel ⟨isFirst, isSecond⟩
        exact step model ((refined model).mpr ⟨isModel, isFirst⟩) isSecond
  | .error (.refused error) =>
    rintro model isModel ⟨isFirst, _⟩
    exact adds model isModel isFirst

variable {weaker : State → Prop} {other : Model → Prop}

/-- Only the models of the state matter for the condition, and a step may promise less. -/
theorem Adds.imp {result : Checked Error State} (adds : Adds models state post condition result)
    (imply : ∀ reached, post reached → weaker reached)
    (same : ∀ model, models state model → (condition model ↔ other model)) :
    Adds models state weaker other result := by
  match result with
  | .ok reached =>
    obtain ⟨holds, refined⟩ := adds
    refine ⟨imply reached holds, fun model => ?_⟩
    rw [refined model]
    exact and_congr_right (same model)
  | .error (.refused error) =>
    exact fun model isModel isOther => adds model isModel ((same model isModel).mpr isOther)

theorem Decides.imp (decides : Decides models state post condition result)
    (imply : ∀ reached, post reached → weaker reached)
    (same : ∀ model, models state model → (condition model ↔ other model)) :
    Decides models state weaker other result := by
  match result with
  | .ok (true, reached) =>
    obtain ⟨holds, refined⟩ := decides
    refine ⟨imply reached holds, fun model => ?_⟩
    rw [refined model]
    exact and_congr_right (same model)
  | .ok (false, _) =>
    exact fun model isModel isOther => decides model isModel ((same model isModel).mpr isOther)

/-- Two truth-valued steps, the second only when the first succeeds. -/
theorem Decides.bind {next : State → Run (Bool × State)}
    (decides : Decides models state middle first result)
    (decidesNext : ∀ reached, middle reached → Decides models reached post second (next reached)) :
    Decides models state post (fun model => first model ∧ second model)
      (result >>= fun answer => if answer.1 then next answer.2 else pure (false, answer.2)) := by
  match result with
  | .ok (true, reached) =>
    obtain ⟨holds, refined⟩ := decides
    have step := decidesNext reached holds
    rw [Run.bind_ok, if_pos rfl]
    match outcome : next reached with
    | .ok (true, final) =>
      rw [outcome] at step
      refine ⟨step.1, fun model => ?_⟩
      rw [step.2 model, refined model, and_assoc]
    | .ok (false, final) =>
      rw [outcome] at step
      rintro model isModel ⟨isFirst, isSecond⟩
      exact step model ((refined model).mpr ⟨isModel, isFirst⟩) isSecond
    | .error fault => rw [outcome] at step; exact step
  | .ok (false, reached) =>
    rintro model isModel ⟨isFirst, _⟩
    exact decides model isModel isFirst

/-- A truth-valued step whose failure is refused with an error. -/
theorem Decides.adds (decides : Decides models state post condition result) (error : Error)
    (final : State → Prop) (second : Model → Prop)
    (addsNext : ∀ reached, post reached → Adds models reached final second (next reached)) :
    Adds models state final (fun model => condition model ∧ second model)
      (result.checked >>= fun answer => if answer.1 then next answer.2 else refuse error) := by
  match result with
  | .ok (true, reached) =>
    have first : Adds models state post condition (.ok reached : Checked Error State) := decides
    exact first.bind addsNext
  | .ok (false, reached) =>
    rintro model isModel ⟨isCondition, _⟩
    exact decides model isModel isCondition

end Constraint
