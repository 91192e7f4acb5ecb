/-
This file models the check of knowledge of choice, `g/source/ownership/actors/knowledge.rs`,
and the actor membership query of `g/source/ownership/actors.rs` that it uses.

A route is decided by the actor that sends its first event. Every other actor
that sends in an arm must have received an earlier message of that arm, and an
actor other than the controller takes part in both arms or in neither. Senders
and receivers are references into the actor image, so every question is asked
under a control path and splits on the decisions that the path leaves open.
-/

import HibanaChoreography.Ownership.Actors
import Mathlib.Data.Finset.Insert

namespace Hibana

open Outcome

namespace ActorImage

/-- The references of an event. -/
def pairAt (image : ActorImage) (event : Nat) : Run ActorPair :=
  match image.events[event]? with
  | some pair => .ok pair
  | none => .error (.panic "index out of bounds")

/-- The decision that a reference behind the actors names. -/
def choiceAt (image : ActorImage) (reference : Nat) (message : String) : Run ActorChoice :=
  match image.choices[reference - ActorRef.nodeBase]? with
  | some choice => .ok choice
  | none => .error (.panic message)

/-! ### Possible actors -/

/-- The work list of a membership query: the decisions still to be visited, and the actors found. -/
structure Membership where
  pending : Finset Nat
  actors : Finset UInt8
  deriving DecidableEq

/-- Note a reference: an actor is found, a decision below the limit is visited later. -/
def Membership.note (membership : Membership) (limit : Nat) (message : String) (reference : Nat) :
    Run Membership :=
  if reference < ActorRef.nodeBase then
    .ok { membership with actors := insert (UInt8.ofNat reference) membership.actors }
  else if limit ≤ reference - ActorRef.nodeBase then .error (.panic message)
  else
    .ok { membership with pending := insert (reference - ActorRef.nodeBase) membership.pending }

/-- Visit the pending decisions below the bound from the last to the first. -/
def visitPending (image : ActorImage) : Nat → Membership → Run (Finset UInt8)
  | 0, membership => .ok membership.actors
  | bound + 1, membership =>
    if bound ∈ membership.pending then
      match image.choices[bound]? with
      | none => .error (.panic "index out of bounds")
      | some choice => do
        let message := "actor membership reference is not backward"
        let membership ← membership.note bound message choice.left
        let membership ← membership.note bound message choice.right
        image.visitPending bound membership
    else image.visitPending bound membership

/-- Add every actor that may send or receive the event. -/
def includePossibleActors (image : ActorImage) (event : Nat) (actors : Finset UInt8) :
    Run (Finset UInt8) :=
  if image.eventLen ≤ event then .error (.panic "actor membership event outside source")
  else do
    let pair ← image.pairAt event
    let message := "actor membership reference outside source"
    let membership ← Membership.note ⟨∅, actors⟩ image.choices.length message pair.sender
    let membership ← membership.note image.choices.length message pair.receiver
    -- The bound is behind the last pending root; an actor leaves it at zero.
    image.visitPending
      (max (pair.sender + 1 - ActorRef.nodeBase) (pair.receiver + 1 - ActorRef.nodeBase))
      membership

/-- Every actor that may send or receive the event on some path. -/
def possibleActors (image : ActorImage) (event : Nat) : Run (Finset UInt8) :=
  image.includePossibleActors event ∅

end ActorImage

/-! ### The checker -/

/-- Whether a role takes part, or the route on which that depends. -/
inductive Presence where
  | known (isPresent : Bool)
  | choice (scope : Scope)
  deriving DecidableEq, Repr

/-- The route that a presence waits for. -/
def Presence.unresolved : Presence → Option Scope
  | .known _ => none
  | .choice scope => some scope

/-- A refused route, with the role and the event that it is refused for. -/
abbrev Conflict := Scope × Option UInt8 × Option Nat

namespace Checker

variable (image : ActorImage)

/-- The scope of a route, inside the `u16` event domain. -/
def scopeAt (start : Nat) (left right : Source) : Run Scope :=
  if 65535 < (routeScope start left right).stop then
    .error (.panic "choice source exceeds event domain")
  else .ok (routeScope start left right)

/-- The possible actors of the events from `event` on. -/
def participantsFrom (actors : Finset UInt8) : List Nat → Run (Finset UInt8)
  | [] => .ok actors
  | event :: events => do
    let pair ← image.pairAt event
    if pair.sender < ActorRef.nodeBase ∧ pair.receiver < ActorRef.nodeBase then
      participantsFrom
        (insert (UInt8.ofNat pair.receiver) (insert (UInt8.ofNat pair.sender) actors)) events
    else
      let candidates ← image.possibleActors event
      participantsFrom (actors ∪ candidates) events

/-- The roles that may take part in the route. -/
def participants (scope : Scope) : Run (Finset UInt8) :=
  participantsFrom image ∅ (List.range' scope.start (scope.stop - scope.start))

/-- `selected` with fuel for the decisions on the way. -/
def selectedFuel (path : Context) : Nat → Nat → Run Nat
  | 0, _ => .error .fuel
  | fuel + 1, reference =>
    if reference < ActorRef.nodeBase then .ok reference
    else do
      let choice ← image.choiceAt reference "choice reference outside image"
      match path.get choice.scope with
      | some arm => selectedFuel path fuel (choice.child arm)
      | none => return reference

/-- Follow the decisions that the path has made. -/
def selected (reference : Nat) (path : Context) : Run Nat :=
  selectedFuel image path (image.choices.length + 1) reference

/-- `equivalent` with fuel for its splits. -/
def equivalentFuel : Nat → Nat → Nat → Context → Run Bool
  | 0, _, _, _ => .error .fuel
  | fuel + 1, left, right, path => do
    let left ← selected image left path
    let right ← selected image right path
    if left = right then return true
    else if ActorRef.nodeBase ≤ left then
      let choice ← image.choiceAt left "index out of bounds"
      Run.both (equivalentFuel fuel choice.left right (path.select ⟨choice.scope, .left⟩))
        (equivalentFuel fuel choice.right right (path.select ⟨choice.scope, .right⟩))
    else if ActorRef.nodeBase ≤ right then
      let choice ← image.choiceAt right "index out of bounds"
      Run.both (equivalentFuel fuel left choice.left (path.select ⟨choice.scope, .left⟩))
        (equivalentFuel fuel left choice.right (path.select ⟨choice.scope, .right⟩))
    else return false

/-- The two references name one actor on every assignment that agrees with the path. -/
def equivalent (left right : Nat) (path : Context) : Run Bool :=
  equivalentFuel image (left + right + 1) left right path

/-- A message to the actor is certain by the end of the subtree. -/
def after (source : Source) (start actor : Nat) (path : Context) : Run Bool :=
  match source with
  | .send message =>
    if message.fromKey = message.toKey then .ok false
    else do
      let pair ← image.pairAt start
      equivalent image pair.receiver actor path
  | .seq left right | .par left right =>
    Run.either (after left start actor path)
      (after right (start + left.eventCount) actor path)
  | .route left right _ => do
    let scope ← scopeAt start left right
    Run.both (after left start actor (path.select ⟨scope, .left⟩))
      (after right scope.split actor (path.select ⟨scope, .right⟩))
  | .roll body => after body start actor path

/-- In front of the event the actor is the controller, or a message to it is certain. -/
def before (source : Source) (start event actor controller : Nat) (path : Context) : Run Bool :=
  Run.either (equivalent image actor controller path)
    (match source with
    | .send _ => .ok false
    | .seq left right =>
      let split := start + left.eventCount
      if event < split then before left start event actor controller path
      else
        Run.either (after image left start actor path)
          (before right split event actor controller path)
    | .par left right =>
      let split := start + left.eventCount
      -- A receive of the sibling cannot authorise a send in front of the join.
      if event < split then before left start event actor controller path
      else before right split event actor controller path
    | .route left right _ => do
      let scope ← scopeAt start left right
      if event < scope.split then
        before left start event actor controller (path.select ⟨scope, .left⟩)
      else before right scope.split event actor controller (path.select ⟨scope, .right⟩)
    | .roll body => before body start event actor controller path)

/-- The event of the arm is sent by the controller, or by an actor that knows the arm. -/
def informed (source : Source) (start event controller : Nat) (path : Context) : Run Bool := do
  let pair ← image.pairAt event
  before image source start event pair.sender controller path

/-- Every event of the arm is sent by an actor that knows the arm. -/
def arm (source : Source) (start controller : Nat) (path : Context) : Run Bool :=
  (List.range' start source.eventCount).allM fun event =>
    informed image source start event controller path

def referencePresence (reference : Nat) (role : UInt8) (path : Context) : Run Presence := do
  let reference ← selected image reference path
  if reference < ActorRef.nodeBase then return .known (reference = role.toNat)
  else
    let choice ← image.choiceAt reference "index out of bounds"
    return .choice choice.scope

/-- The loop of `member_presence`; the first decision met is kept. -/
def eventsPresence (role : UInt8) (path : Context) (unresolved : Option Scope) :
    List Nat → Run Presence
  | [] =>
    match unresolved with
    | some scope => .ok (.choice scope)
    | none => .ok (.known false)
  | event :: events => do
    let pair ← image.pairAt event
    let sender ← referencePresence image pair.sender role path
    if sender = .known true then return .known true
    else
      let receiver ← referencePresence image pair.receiver role path
      if receiver = .known true then return .known true
      else
        eventsPresence role path ((unresolved.or sender.unresolved).or receiver.unresolved) events

/-- Whether the role sends or receives an event from `start` to `stop`. -/
def memberPresence (start stop : Nat) (role : UInt8) (path : Context) : Run Presence :=
  eventsPresence image role path none (List.range' start (stop - start))

/-- The comparison of two known presences, unless it still depends on the controller. -/
def comparePresence (controller left right : Presence) : Option Bool :=
  match left, right with
  | .known left, .known right =>
    if left = right then some true
    else if controller = .known false then some false
    else none
  | _, _ => none

/-- `matching_presence` with fuel for its splits. -/
def matchingPresenceFuel (scope : Scope) (role : UInt8) (controller : Nat) :
    Nat → Context → Run Bool
  | 0, _ => .error .fuel
  | fuel + 1, path => do
    let controllerPresence ← referencePresence image controller role path
    if controllerPresence = .known true then return true
    else
      let left ← memberPresence image scope.start scope.split role path
      let right ← memberPresence image scope.split scope.stop role path
      match comparePresence controllerPresence left right with
      | some result => return result
      | none =>
        match controllerPresence.unresolved.or (left.unresolved.or right.unresolved) with
        | none => .error (.panic "unclassified actor participation")
        | some decision =>
          Run.both
            (matchingPresenceFuel scope role controller fuel (path.select ⟨decision, .left⟩))
            (matchingPresenceFuel scope role controller fuel (path.select ⟨decision, .right⟩))

/-- The role controls the route, or takes part in both arms or in neither, on every assignment
that agrees with the path. -/
def matchingPresence (scope : Scope) (role : UInt8) (controller : Nat) (path : Context) :
    Run Bool :=
  matchingPresenceFuel image scope role controller (image.choices.length + 1) path

/-- A participant that takes part in one arm only. -/
def roleConflict (scope : Scope) (controller : Nat) (path : Context) : Run (Option Conflict) := do
  let participants ← participants image scope
  (List.range 256).findSomeM? fun role => do
    if UInt8.ofNat role ∈ participants then
      if ← matchingPresence image scope (UInt8.ofNat role) controller path then return none
      else return some (scope, some (UInt8.ofNat role), none)
    else return none

/-- The first event of an arm whose sender does not know the arm. -/
def armConflict (scope : Scope) (controller : Nat) (body : Source) (start : Nat)
    (path : Context) : Run (Option Conflict) := do
  if ← arm image body start controller path then return none
  else
    (List.range' start body.eventCount).findSomeM? fun event => do
      if ← informed image body start event controller path then return none
      else
        let pair ← image.pairAt event
        let actor ← selected image pair.sender path
        return some (scope, if actor < ActorRef.nodeBase then some (UInt8.ofNat actor) else none,
          some event)

def nestedConflict (source : Source) (start : Nat) (path : Context) : Run (Option Conflict) :=
  match source with
  | .send _ => .ok none
  | .seq left right | .par left right =>
    Run.firstSome (nestedConflict left start path)
      (nestedConflict right (start + left.eventCount) path)
  | .roll body => nestedConflict body start path
  | .route left right _ => do
    let scope ← scopeAt start left right
    let controller := (← image.pairAt start).sender
    let leftPath := path.select ⟨scope, .left⟩
    let rightPath := path.select ⟨scope, .right⟩
    Run.firstSome (roleConflict image scope controller path) <|
    Run.firstSome (armConflict image scope controller left start leftPath) <|
    Run.firstSome (armConflict image scope controller right scope.split rightPath) <|
    Run.firstSome (nestedConflict left start leftPath)
      (nestedConflict right scope.split rightPath)

end Checker

namespace ActorImage

/-- The first route of the source that is refused. -/
def conflict (source : Source) (image : ActorImage) : Run (Option Conflict) :=
  if source.eventCount ≠ image.eventLen then
    .error (.panic "choice-knowledge source and actor image disagree")
  else Checker.nestedConflict image source 0 (Context.new [])

/-- Every actor that acts on a choice knows it. -/
def check (source : Source) (image : ActorImage) : Run Bool := do
  return (← image.conflict source).isNone

end ActorImage

end Hibana
