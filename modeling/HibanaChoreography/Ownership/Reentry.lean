/-
This file models the dependency closures of `g/source/ownership/actors/reentry.rs`.

A fresh visit of a roll needs the actions that its marked actions depend on. An
action is one side of an event, and it depends on the earlier actions of its actor
in source order. The closure walks the events from the last to the first and marks
the actions that the marked sides of the event depend on; a receive depends on its
own send. The compiled closure stops at a floor and skips the events whose two sides
are marked already, by a set of bits; the reference closure asks about every pair of
events.

Both ask questions under a control path. A question that the path leaves open ends
the closure with the route that it waits for.
-/

import HibanaChoreography.Library.BitWords
import HibanaChoreography.Ownership.Knowledge
import HibanaChoreography.Source.Predecessors

namespace Hibana

open Outcome

namespace Reentry

variable (image : ActorImage)

/-- `actor` with fuel for the decisions on the way. -/
def actorFuel (path : Context) : Nat → Nat → Checked Scope UInt8
  | 0, _ => .error (.fault .fuel)
  | fuel + 1, reference =>
    if reference < ActorRef.nodeBase then .ok (UInt8.ofNat reference)
    else do
      let choice ← (image.choiceAt reference "index out of bounds").checked
      match path.get choice.scope with
      | some arm => actorFuel path fuel (choice.child arm)
      | none => refuse choice.scope

/-- The actor of a reference, or the first route that it waits for. -/
def actor (reference : Nat) (path : Context) : Checked Scope UInt8 :=
  actorFuel image path (image.choices.length + 1) reference

/-- Whether the event of the subtree is present, or the first route that this waits for. -/
def present (source : Source) (start event : Nat) (path : Context) : Checked Scope Bool :=
  match source with
  | .send _ => .ok true
  | .seq left right | .par left right =>
    if event < start + left.eventCount then present left start event path
    else present right (start + left.eventCount) event path
  | .route left right _ =>
    match path.get (routeScope start left right) with
    | none => refuse (routeScope start left right)
    | some .left =>
      if event < start + left.eventCount then present left start event path else .ok false
    | some .right =>
      if start + left.eventCount ≤ event then present right (start + left.eventCount) event path
      else .ok false
  | .roll body => present body start event path

/-- A side of an event: its send or its receive. -/
inductive Side where
  | sender
  | receiver
  deriving DecidableEq, Repr

/-- The bit of a side in the mark of an event. -/
def Side.bit : Side → UInt8
  | sender => 1
  | receiver => 2

/-- The sides, in the order in which they are visited. -/
def sides : List Side := [.sender, .receiver]

/-- The actor on a side of an event. -/
def side (event : Nat) (side : Side) (path : Context) : Checked Scope UInt8 := do
  let pair ← (image.pairAt event).checked
  match side with
  | .sender => actor image pair.sender path
  | .receiver => actor image pair.receiver path

/-- The mark of an event. -/
def markAt (needed : List UInt8) (event : Nat) : Checked Scope UInt8 :=
  match needed[event]? with
  | some mark => .ok mark
  | none => .error (.fault (.panic "index out of bounds"))

/-- Add bits to the mark of an event. -/
def mark (needed : List UInt8) (event : Nat) (bits : UInt8) : Checked Scope (List UInt8) := do
  let old ← markAt needed event
  return needed.set event (old ||| bits)

/-- A marked receive marks its own send. -/
def markSend (needed : List UInt8) (event : Nat) : Checked Scope (List UInt8) := do
  let old ← markAt needed event
  if old &&& Side.receiver.bit = 0 then return needed
  else mark needed event Side.sender.bit

section Close

variable (source : Source) (start : Nat) (path : Context)

/-- Mark a side of an earlier event if the actor is on it and the event is present. -/
def includeSide (actor : UInt8) (prior : Nat) (needed : List UInt8) (previousSide : Side) :
    Checked Scope (List UInt8) := do
  let previous ← side image prior previousSide path
  if previous = actor then
    if ← present source start prior path then mark needed prior previousSide.bit
    else return needed
  else return needed

/-! ### The reference closure -/

/-- Mark what the actor does in front of the event, event by event. -/
def referencePriors (event : Nat) (actor : UInt8) (needed : List UInt8) :
    Checked Scope (List UInt8) :=
  (List.range' start (event - start)).foldlM
    (fun needed prior =>
      if source.before (prior - start) (event - start) then
        sides.foldlM (includeSide image source start path actor prior) needed
      else return needed)
    needed

/-- Mark what one side of the event depends on. -/
def referenceSide (event : Nat) (needed : List UInt8) (marked : Side) :
    Checked Scope (List UInt8) := do
  if (← markAt needed event) &&& marked.bit = 0 then return needed
  else
    let actor ← side image event marked path
    referencePriors image source start path event actor needed

def referenceEvent (needed : List UInt8) (event : Nat) : Checked Scope (List UInt8) := do
  let needed ← markSend needed event
  sides.foldlM (referenceSide image source start path event) needed

/-- The closure that asks about every pair of events. -/
def referenceCloseDependencies (needed : List UInt8) : Checked Scope (List UInt8) :=
  (List.range' start source.eventCount).reverse.foldlM
    (referenceEvent image source start path) needed

/-! ### The compiled closure -/

/-- The loop of `next_remaining`, with fuel for the words. -/
def nextRemainingFuel (bits : List (BitVec 32)) (limit : Nat) : Nat → Nat → BitVec 32 → Run Nat
  | fuel, word, available =>
    if available ≠ 0#32 then
      .ok (if word * 32 + available.ctz.toNat < limit then word * 32 + available.ctz.toNat
        else limit)
    else
      match fuel with
      | 0 => .error .fuel
      | fuel + 1 =>
        if limit ≤ (word + 1) * 32 then .ok limit
        else
          match bits[word + 1]? with
          | some available => nextRemainingFuel bits limit fuel (word + 1) available
          | none => .error (.panic "index out of bounds")

/-- The first remaining event from `first` on, or the limit. -/
def nextRemaining (bits : List (BitVec 32)) (first limit : Nat) : Run Nat :=
  if limit ≤ first then .ok limit
  else
    match bits[first / 32]? with
    | some word =>
      nextRemainingFuel bits limit bits.length (first / 32) (BitWords.fromBit word (first % 32))
    | none => .error (.panic "index out of bounds")

/-- The marks of a closure, and the events that are not marked on both sides yet. -/
structure Closure where
  needed : List UInt8
  remaining : List (BitVec 32)
  deriving DecidableEq

/-- Mark the sides of an earlier event that are not marked yet. -/
def includeUnmarked (actor : UInt8) (prior : Nat) (needed : List UInt8) (previousSide : Side) :
    Checked Scope (List UInt8) := do
  if (← markAt needed prior) &&& previousSide.bit = 0 then
    includeSide image source start path actor prior needed previousSide
  else return needed

/-- Mark what the actor does in one earlier event; an event with both marks is skipped later. -/
def closePrior (actor : UInt8) (closure : Closure) (prior : Nat) : Checked Scope Closure := do
  let needed ← sides.foldlM (includeUnmarked image source start path actor prior) closure.needed
  if (← markAt needed prior) = 3 then
    return ⟨needed, BitWords.clear closure.remaining prior⟩
  else return ⟨needed, closure.remaining⟩

/-- The walk over the remaining events in front of `stop`, with fuel for its steps. -/
def closeRangeFuel (limit : Nat) (actor : UInt8) (stop : Nat) :
    Nat → Nat → Closure → Checked Scope Closure
  | 0, _, _ => .error (.fault .fuel)
  | fuel + 1, prior, closure =>
    if prior < stop then do
      let closure ← closePrior image source start path actor closure prior
      let next ← (nextRemaining closure.remaining (prior + 1) limit).checked
      closeRangeFuel limit actor stop fuel next closure
    else return closure

/-- The walk over the ranges of predecessors of the event, with fuel for the ranges. -/
def closeRangesFuel (limit event : Nat) (actor : UInt8) :
    Nat → Nat → Closure → Checked Scope Closure
  | 0, _, _ => .error (.fault .fuel)
  | fuel + 1, lower, closure =>
    match source.predecessorRange (event - start) lower with
    | none => return closure
    | some (first, stop) => do
      let prior ← (nextRemaining closure.remaining (start + first) limit).checked
      let closure ← closeRangeFuel image source start path limit actor (start + stop)
        (event + 1) prior closure
      closeRangesFuel limit event actor fuel stop closure

/-- Mark what one side of the event depends on, from `begin` on. -/
def closeSide (limit begin event : Nat) (closure : Closure) (marked : Side) :
    Checked Scope Closure := do
  if (← markAt closure.needed event) &&& marked.bit = 0 then return closure
  else
    let actor ← side image event marked path
    closeRangesFuel image source start path limit event actor (event + 1) (begin - start) closure

def closeEvent (limit begin : Nat) (closure : Closure) (event : Nat) : Checked Scope Closure := do
  let needed ← markSend closure.needed event
  sides.foldlM (closeSide image source start path limit begin event)
    ⟨needed, closure.remaining⟩

/-- The end of the marked events that lie behind `begin`. -/
def markedLimit (needed : List UInt8) (begin : Nat) : Nat → Checked Scope Nat
  | 0 => return 0
  | event + 1 =>
    if begin < event + 1 then do
      if (← markAt needed event) = 0 then markedLimit needed begin event
      else return event + 1
    else return event + 1

/-- The events that are not marked on both sides. -/
def initialRemaining (needed : List UInt8) (events : List Nat) :
    Checked Scope (List (BitVec 32)) :=
  events.foldlM
    (fun remaining event => do
      if (← markAt needed event) ≠ 3 then return BitWords.set remaining event
      else return remaining)
    (List.replicate needed.length 0#32)

/-- The closure that the compiler uses: nothing in front of the floor is asked or marked. -/
def closeDependenciesAfter (floor : Nat) (needed : List UInt8) : Checked Scope (List UInt8) := do
  let begin := max floor start
  let limit ← markedLimit needed begin (start + source.eventCount)
  let events := (List.range' begin (limit - begin)).reverse
  let remaining ← initialRemaining needed events
  let closure ← events.foldlM (closeEvent image source start path limit begin)
    ⟨needed, remaining⟩
  return closure.needed

end Close

end Reentry

end Hibana
