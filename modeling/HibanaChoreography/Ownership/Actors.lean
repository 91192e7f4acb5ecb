/-
This file models the actor image, `g/source/ownership/actors.rs`.

The compiler asks, for both sides of every event, who holds the endpoint there,
and lowers the answers into one shared, reduced decision diagram over the routes
of the source. A reference below 256 is an actor, a larger one names a decision
that was emitted before.
-/

import HibanaChoreography.Ownership.Validate

namespace Hibana

open Outcome

/-! ### References

A reference is a `u16`: an actor, or a decision behind the actors. -/

namespace ActorRef

def nodeBase : Nat := 256

def actor (actor : UInt8) : Nat := actor.toNat

/-- The reference of a decision; `u16::MAX` stays reserved for absence. -/
def node (index : Nat) : Option Nat :=
  if index < 65535 - nodeBase then some (index + nodeBase) else none

end ActorRef

structure ActorChoice where
  scope : Scope
  left : Nat
  right : Nat
  deriving DecidableEq, Repr

structure ActorPair where
  sender : Nat
  receiver : Nat
  deriving DecidableEq, Repr

/-- The child of a decision on an arm. -/
def ActorChoice.child (choice : ActorChoice) (arm : Arm) : Nat :=
  match arm with
  | .left => choice.left
  | .right => choice.right

/-- The compiled image: one pair of references for every event, over shared decisions. The event
array has its full capacity, of which the first `eventLen` entries are published. -/
structure ActorImage where
  events : List ActorPair
  choices : List ActorChoice
  eventLen : Nat
  deriving DecidableEq, Repr

namespace ActorImage

/-- An image with nothing published. -/
def new (eventCapacity : Nat) : ActorImage where
  events := List.replicate eventCapacity ⟨ActorRef.actor 0, ActorRef.actor 0⟩
  choices := []
  eventLen := 0

/-- `resolve` with fuel for the decisions on the way. -/
def resolveFuel (image : ActorImage) (context : Context) :
    Nat → Nat → Run (Option UInt8)
  | 0, _ => .error .fuel
  | fuel + 1, reference =>
    if reference < ActorRef.nodeBase then .ok (some (UInt8.ofNat reference))
    else
      match image.choices[reference - ActorRef.nodeBase]? with
      | none => .error (.panic "compiled actor decision reference")
      | some choice =>
        match context.get choice.scope with
        | some arm => image.resolveFuel context fuel (choice.child arm)
        | none => do
          match ← image.resolveFuel context fuel choice.left with
          | none => return none
          | some left =>
            match ← image.resolveFuel context fuel choice.right with
            | none => return none
            | some right => if left = right then return some left else return none

/-- The actor of a reference, when every selection that the path leaves open agrees on it. -/
def resolve (image : ActorImage) (reference : Nat) (context : Context) :
    Run (Option UInt8) :=
  image.resolveFuel context (image.choices.length + 1) reference

/-- The sending and the receiving actor of an event. -/
def actorsAt (image : ActorImage) (event : Nat) (selections : List Selection) :
    Run (Option (UInt8 × UInt8)) :=
  if image.eventLen ≤ event then .ok none
  else
    match image.events[event]? with
    | none => .error (.panic "index out of bounds")
    | some pair => do
      match ← image.resolve pair.sender (Context.new selections) with
      | none => return none
      | some sender =>
        match ← image.resolve pair.receiver (Context.new selections) with
        | none => return none
        | some receiver => return some (sender, receiver)

/-- The reference of a decision: nothing is decided between equal children, and a decision that
was emitted before is shared. -/
def choice (decisionCapacity : Nat) (image : ActorImage) (scope : Scope) (left right : Nat) :
    Checked Error (Nat × ActorImage) :=
  if left = right then .ok (left, image)
  else
    match image.choices.findIdx? fun choice => choice = ⟨scope, left, right⟩ with
    | some index =>
      match ActorRef.node index with
      | some reference => .ok (reference, image)
      | none => refuse ⟨.capacity, none⟩
    | none =>
      if image.choices.length = decisionCapacity then refuse ⟨.capacity, none⟩
      else
        match ActorRef.node image.choices.length with
        | some reference =>
          .ok (reference, { image with choices := image.choices ++ [⟨scope, left, right⟩] })
        | none => refuse ⟨.capacity, none⟩

/-- `lower_actor` with fuel for its splits on open routes. -/
def lowerActorFuel (decisionCapacity : Nat) (source : Source) (scratch : Scratch) (place : At) :
    Nat → ActorImage → Context → Checked Error (Nat × ActorImage)
  | 0, _, _ => .error (.fault .fuel)
  | fuel + 1, image, context => do
    match ← ((scratch.query source).owner place context).checked with
    | .atom (.actor actor) => return (ActorRef.actor actor, image)
    | .atom (.initial key) =>
      match symbolIndex scratch.symbols key with
      | none => .error (.fault (.panic "collected initial actor"))
      | some index =>
        match ← (scratch.resolve (.initial index)).checked with
        | some actor => return (ActorRef.actor actor, image)
        | none => refuse ⟨.unrootedInitialOwner, some key⟩
    | .choice scope =>
      let (left, image) ← lowerActorFuel decisionCapacity source scratch place fuel image
        (context.select ⟨scope, .left⟩)
      let (right, image) ← lowerActorFuel decisionCapacity source scratch place fuel image
        (context.select ⟨scope, .right⟩)
      image.choice decisionCapacity scope left right

/-- Lower the holder of an endpoint at a position, one decision for every route it depends on. -/
def lowerActor (decisionCapacity : Nat) (source : Source) (scratch : Scratch) (place : At)
    (image : ActorImage) (context : Context) : Checked Error (Nat × ActorImage) :=
  lowerActorFuel decisionCapacity source scratch place ((source.routes 0).length + 1) image context

def emit (decisionCapacity : Nat) (root : Source) (scratch : Scratch) (source : Source)
    (cut : Nat) (context : Context) (image : ActorImage) : Checked Error ActorImage :=
  match source with
  | .send message =>
    if image.events.length ≤ cut then refuse ⟨.capacity, none⟩
    else do
      let (sender, image) ←
        lowerActor decisionCapacity root scratch ⟨message.fromKey, cut⟩ image context
      let (receiver, image) ←
        lowerActor decisionCapacity root scratch ⟨message.toKey, cut⟩ image context
      return { image with events := image.events.set cut ⟨sender, receiver⟩ }
  | .seq left right | .par left right => do
    let image ← emit decisionCapacity root scratch left cut context image
    emit decisionCapacity root scratch right (cut + left.eventCount) context image
  | .route left right _ => do
    let scope := routeScope cut left right
    let image ← emit decisionCapacity root scratch left cut (context.select ⟨scope, .left⟩) image
    emit decisionCapacity root scratch right (cut + left.eventCount)
      (context.select ⟨scope, .right⟩) image
  | .roll body => emit decisionCapacity root scratch body cut context image

end ActorImage

/-- Validate a source and compile its actor image. A failure publishes no event and no decision,
so only an accepted image is a value of the model. -/
def compileActorImageInto (symbolCapacity eventCapacity decisionCapacity : Nat) (source : Source) :
    Checked Error (Scratch × ActorImage) := do
  let scratch ← validate symbolCapacity eventCapacity source
  let image ← (ActorImage.new eventCapacity).emit decisionCapacity source scratch source 0
    (Context.new [])
  return (scratch, { image with eventLen := scratch.events.length })

end Hibana
