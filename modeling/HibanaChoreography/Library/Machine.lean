/-
This file has machines: states with operations that return a reply and a new state,
or fail.

A caller may ask a machine for what it admits. A history is a list of such requests
with their replies. Two rules go through histories: an invariant of every step holds
in every state of a history, and a relation to an abstract state that every step keeps
relates the last state to the effects of the history. A script of requests that is
played to its end, each request behind a test, is a history.
-/

import HibanaChoreography.Library.Run

namespace Machines

open Outcome

/-- Operations on states. `admits` says what a caller may ask for. -/
structure Machine (State Op Reply : Type) where
  admits : State → Op → Prop
  run : State → Op → Run (Reply × State)

/-- A request, its reply, and the state behind it. -/
structure Visit (State Op Reply : Type) where
  op : Op
  reply : Reply
  state : State

variable {State Op Reply Abstract : Type}

/-- The histories from a state on. -/
inductive History (machine : Machine State Op Reply) (start : State) :
    List (Visit State Op Reply) → State → Prop
  | start : History machine start [] start
  | step {visits : List (Visit State Op Reply)} {state next : State} {reply : Reply} :
      History machine start visits state → ∀ op, machine.admits state op →
      machine.run state op = .ok (reply, next) →
      History machine start (visits ++ [⟨op, reply, next⟩]) next

/-- The effect of a history on an abstract state. -/
def effects (effect : Op → Reply → Abstract → Abstract) (abstract : Abstract)
    (visits : List (Visit State Op Reply)) : Abstract :=
  visits.foldl (fun abstract visit => effect visit.op visit.reply abstract) abstract

theorem effects_append (effect : Op → Reply → Abstract → Abstract) (abstract : Abstract)
    (visits : List (Visit State Op Reply)) (visit : Visit State Op Reply) :
    effects effect abstract (visits ++ [visit]) =
      effect visit.op visit.reply (effects effect abstract visits) := by
  rw [effects, List.foldl_append]
  rfl

namespace History

variable {machine : Machine State Op Reply} {start state : State}
  {visits : List (Visit State Op Reply)}

/-- What holds at the start and is kept by every step holds at the end. -/
theorem invariant (history : History machine start visits state) {holds : State → Prop}
    (atStart : holds start)
    (kept : ∀ state op reply next, holds state → machine.admits state op →
      machine.run state op = .ok (reply, next) → holds next) : holds state := by
  induction history with
  | start => exact atStart
  | step _ _ admitted isOk hyp => exact kept _ _ _ _ hyp admitted isOk

/-- A relation to an abstract state goes through a history. -/
theorem refines (history : History machine start visits state)
    {related : State → Abstract → Prop} {effect : Op → Reply → Abstract → Abstract}
    {abstract : Abstract} (atStart : related start abstract)
    (kept : ∀ state abstract op reply next, related state abstract → machine.admits state op →
      machine.run state op = .ok (reply, next) → related next (effect op reply abstract)) :
    related state (effects effect abstract visits) := by
  induction history with
  | start => exact atStart
  | step _ _ admitted isOk hyp =>
    rw [effects_append]
    exact kept _ _ _ _ _ hyp admitted isOk

/-- A history goes on with another one. -/
theorem append (history : History machine start visits state) {next : State}
    {more : List (Visit State Op Reply)} (onward : History machine state more next) :
    History machine start (visits ++ more) next := by
  induction onward with
  | start => rwa [List.append_nil]
  | step _ op admitted isOk hyp =>
    rw [← List.append_assoc]
    exact hyp.step op admitted isOk

end History

/-- Play a script of requests, each of which passes a test in the state it meets. -/
def play (run : State → Op → Run (Reply × State)) (test : State → Op → Bool) :
    State → List Op → Run (List (Visit State Op Reply) × State)
  | state, [] => .ok ([], state)
  | state, op :: ops =>
    if test state op then do
      let (reply, next) ← run state op
      let (visits, last) ← play run test next ops
      return (⟨op, reply, next⟩ :: visits, last)
    else .error .invariant

theorem History.of_play (machine : Machine State Op Reply) {test : State → Op → Bool}
    (sound : ∀ state op, test state op = true → machine.admits state op) {start state : State}
    {ops : List Op} {visits : List (Visit State Op Reply)}
    (isOk : play machine.run test start ops = .ok (visits, state)) :
    History machine start visits state ∧ visits.map Visit.op = ops := by
  induction ops generalizing start visits with
  | nil =>
    cases isOk
    exact ⟨.start, rfl⟩
  | cons op ops hyp =>
    rw [play] at isOk
    split at isOk
    · rename_i passes
      obtain ⟨⟨reply, next⟩, isRun, isOk⟩ := Run.of_bind isOk
      obtain ⟨⟨more, last⟩, isMore, isOk⟩ := Run.of_bind isOk
      cases isOk
      obtain ⟨onward, isOps⟩ := hyp isMore
      exact ⟨(History.start.step op (sound _ _ passes) isRun).append onward,
        congrArg (op :: ·) isOps⟩
    · cases isOk

end Machines
