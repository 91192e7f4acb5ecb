/-
This file proves that the possible actors of an event are exact.

The sweep over the pending decisions collects every actor at which a reference of
the event may end, without looking at which decisions can be taken together. That
loses nothing: an endpoint is lowered under the path that its decisions have
selected so far, a decision is only made about a route that this path leaves open,
and so each leaf has an assignment of the event's path that leads to it. The event
is present on every such assignment.
-/

import HibanaChoreography.Ownership.KnowledgeOfChoice

namespace Hibana

open Outcome

/-! ### Assignments on which an event is present -/

/-- An event is present on every assignment of its path. -/
theorem Located.mem_presentEvents {root : Source} {path : Context} {message : Message} {event : Nat}
    (located : Located root path (.send message) event) {env : Assignment}
    (agrees : path.Agrees env) : (event, message) ∈ root.presentEvents 0 env := by
  have window : root.Window env (.send message) event := located.window env agrees
  have inWindow : (event, message) ∈ (Source.send message).presentEvents event env :=
    List.mem_singleton_self _
  rw [← window] at inWindow
  exact List.mem_of_mem_filter inWindow

/-- Every assignment is written down by the selections of all routes. -/
theorem Source.exists_complete (source : Source) (env : Assignment) :
    ∃ selections, source.Complete selections env := by
  refine ⟨(source.routes 0).map fun scope => ⟨scope, env scope⟩, fun scope mem => ?_⟩
  have found : ((source.routes 0).find? fun other => other = scope) = some scope := by
    cases isFound : (source.routes 0).find? fun other => other = scope with
    | none => simpa using List.find?_eq_none.mp isFound scope mem
    | some other =>
      have same := List.find?_some isFound
      rw [of_decide_eq_true same]
  simp only [Context.get, Context.new, List.find?_nil, List.find?_map, Function.comp_def, found,
    Option.map_some]

/-- For an accepted source, the possible actors of an event are the senders and receivers that
the image gives it on the complete paths on which it is present. -/
theorem mem_possibleActors_iff_actorsAt (symbolCapacity eventCapacity decisionCapacity : Nat)
    (source : Source) (scratch : Scratch) (image : ActorImage)
    (isOk : compileActorImageInto symbolCapacity eventCapacity decisionCapacity source =
      .ok (scratch, image)) (event : Nat) (inside : event < source.eventCount) :
    ∃ actors, image.possibleActors event = .ok actors ∧
      ∀ actor, actor ∈ actors ↔ ∃ assignment selections sender receiver,
        source.Complete selections assignment ∧
        event ∈ source.positions 0 assignment ∧
        image.actorsAt event selections = .ok (some (sender, receiver)) ∧
        (actor = sender ∨ actor = receiver) := by
  have compiled := compiled_of_ok isOk
  obtain ⟨initial, isModel, _⟩ :=
    (Scratch.rooted_iff_existsUnique compiled.accepted.valid).mp compiled.accepted.rooted
  have conforms := (compiled.accepted.models initial).mp isModel
  obtain ⟨path, message, pair, lowered, _⟩ :=
    compiled.lowered initial conforms event (Nat.zero_le _) (by omega)
  obtain ⟨actors, isActors, found⟩ :=
    Checker.possibleActors_spec compiled.referenced compiled.eventLen inside lowered.present
  refine ⟨actors, isActors, fun actor => (found actor).trans ⟨fun leaf => ?_, ?_⟩⟩
  · -- A leaf is the holder on an assignment of the event's path.
    have attained : ∃ assignment, path.Agrees assignment ∧
        (source.holdersAt assignment initial event message.fromKey = actor ∨
          source.holdersAt assignment initial event message.toKey = actor) := by
      rcases leaf with ofSender | ofReceiver
      · obtain ⟨assignment, agrees, isHolder⟩ := lowered.sender.leaves actor ofSender
        exact ⟨assignment, agrees, .inl isHolder⟩
      · obtain ⟨assignment, agrees, isHolder⟩ := lowered.receiver.leaves actor ofReceiver
        exact ⟨assignment, agrees, .inr isHolder⟩
    obtain ⟨assignment, agrees, isHolder⟩ := attained
    have isPresent := lowered.located.mem_presentEvents agrees
    obtain ⟨selections, complete⟩ := source.exists_complete assignment
    exact ⟨assignment, selections, _, _, complete, List.mem_map_of_mem isPresent,
      compiled.actorsAt_eq conforms complete isPresent, isHolder.imp Eq.symm Eq.symm⟩
  · rintro ⟨assignment, selections, sender, receiver, complete, isPosition, isAnswer, isActor⟩
    obtain ⟨⟨position, found⟩, isPresent, isEvent⟩ := List.mem_map.mp isPosition
    obtain rfl : position = event := isEvent
    rw [compiled.actorsAt_eq conforms complete isPresent] at isAnswer
    cases Except.ok.inj isAnswer
    obtain ⟨named, isNamed, _, _, isSender, isReceiver⟩ := compiled.denotes conforms isPresent
    cases lowered.present.symm.trans isNamed
    rcases isActor with rfl | rfl
    · exact .inl isSender.leaf
    · exact .inr isReceiver.leaf

/-- The last sender of the branch is role 1 or role 2, on the path that carries endpoint 5 there. -/
theorem branchHandover_possible :
    branchImage.possibleActors 2 = .ok {2, 1, 3} ∧
      ∀ actor : UInt8, actor = 2 ∨ actor = 1 ∨ actor = 3 ↔ ∃ assignment selections sender receiver,
          branchHandover.Complete selections assignment ∧
          2 ∈ branchHandover.positions 0 assignment ∧
          branchImage.actorsAt 2 selections = .ok (some (sender, receiver)) ∧
          (actor = sender ∨ actor = receiver) := by
  have possible : branchImage.possibleActors 2 = .ok {2, 1, 3} := rfl
  refine ⟨possible, fun actor => ?_⟩
  obtain ⟨actors, isActors, exact_⟩ := mem_possibleActors_iff_actorsAt 5 3 1 branchHandover
    branchScratch branchImage branchHandover_compiled 2 (by decide)
  rw [possible] at isActors
  cases isActors
  rw [← exact_ actor]
  simp

end Hibana
