/-
This file models the lane allocation of a parallel composition,
`global/const_dsl/allocation/lane_matching.rs` and its `index.rs`.

The lanes of the two arms are colour classes. A class of the right arm may reuse
a lane of the left arm when the endpoints of the two classes are disjoint; an
augmenting path search finds a maximum matching, and every unmatched class of
the right arm gets a fresh lane.
-/

import HibanaChoreography.Lowering.EffList
import HibanaChoreography.Ownership.Knowledge

namespace Hibana

open Outcome

def byteDomain : Nat := 256

/-! ### Lane classes and their endpoints -/

/-- Add the endpoints of an event: its possible actors, or its two roles in a source without
delegation. -/
def includeEndpoints (eff : EffList) (actors : Option ActorImage) (event : Nat)
    (endpoints : Finset UInt8) : Run (Finset UInt8) :=
  match actors with
  | some image => image.includePossibleActors event endpoints
  | none => do
    let atom ← eff.atomAt event
    return insert atom.receiver (insert atom.sender endpoints)

/-- The participants of an event are its possible actors, or its sender and its receiver in a source
without delegation. -/
def EventParticipants (eff : EffList) (event : Nat) (roles : Finset UInt8) :
    Option ActorImage → Prop
  | some image => image.possibleActors event = .ok roles
  | none => ∃ atom, eff.events[event]? = some atom ∧ roles = {atom.sender, atom.receiver}

theorem includeEndpoints_eq_ok_iff {eff : EffList} {actors : Option ActorImage} {event : Nat}
    {roles : Finset UInt8} :
    includeEndpoints eff actors event ∅ = .ok roles ↔ EventParticipants eff event roles actors := by
  cases actors with
  | some image => exact Iff.rfl
  | none =>
    rw [includeEndpoints, EffList.atomAt, EventParticipants]
    cases eff.events[event]? with
    | none => simp
    | some atom => simp [Finset.pair_comm, eq_comm]

/-- The lanes of a range of events in order of first use, each with the endpoints of its events. -/
structure LaneEndpointIndex where
  slots : List (UInt8 × Finset UInt8)
  deriving DecidableEq

namespace LaneEndpointIndex

def new : LaneEndpointIndex := ⟨[]⟩

def containsLane (index : LaneEndpointIndex) (lane : UInt8) : Bool :=
  index.slots.any fun slot => slot.1 = lane

def endpointSet (index : LaneEndpointIndex) (lane : UInt8) : Finset UInt8 :=
  ((index.slots.find? fun slot => slot.1 = lane).map Prod.snd).getD ∅

def includeEvent (eff : EffList) (actors : Option ActorImage) (index : LaneEndpointIndex)
    (event : Nat) : Run LaneEndpointIndex := do
  let atom ← eff.atomAt event
  if index.containsLane atom.lane then
    let endpoints ← includeEndpoints eff actors event (index.endpointSet atom.lane)
    return ⟨index.slots.map fun slot => if slot.1 = atom.lane then (slot.1, endpoints) else slot⟩
  else if byteDomain ≤ index.slots.length then
    .error (.panic "parallel lane index exceeds wire domain")
  else
    let endpoints ← includeEndpoints eff actors event ∅
    return ⟨index.slots ++ [(atom.lane, endpoints)]⟩

def fromRange (eff : EffList) (actors : Option ActorImage) (start stop : Nat) :
    Run LaneEndpointIndex :=
  if 65535 < eff.capacity ∨ stop < start ∨ eff.len < stop then
    .error (.panic "parallel lane index range exceeds compact event domain")
  else (List.range' start (stop - start)).foldlM (includeEvent eff actors) new

end LaneEndpointIndex

/-! ### Matching -/

/-- A partial matching between the lanes of two arms, in both directions. -/
structure LaneMatching where
  rightToLeft : Nat → Option Nat
  leftToRight : Nat → Option Nat

namespace LaneMatching

def empty : LaneMatching := ⟨fun _ => none, fun _ => none⟩

/-- Match a right lane with a left lane, whatever they were matched with before. -/
def assign (matching : LaneMatching) (right left : Nat) : LaneMatching where
  rightToLeft := Function.update matching.rightToLeft right (some left)
  leftToRight := Function.update matching.leftToRight left (some right)

/-- One level of the search: a right lane, the next left lane to try, and the left lane through
which the search came here. -/
structure Frame where
  right : Nat
  nextLeft : Nat
  parentLeft : Option Nat
  deriving DecidableEq, Repr

/-- The first left lane that the search may still take from a right lane. -/
def selectLeft (allows : Nat → Nat → Bool) (leftSpan : Nat) (seen : Finset Nat) (right : Nat)
    (nextLeft : Nat) : Option Nat :=
  (List.range' nextLeft (leftSpan - nextLeft)).find? fun left => left ∉ seen ∧ allows right left

/-- Flip the path from the last frame, which takes a free left lane, back to the first. -/
def assignPath (matching : LaneMatching) (left : Nat) : List Frame → Run LaneMatching
  | [] => .ok matching
  | [frame] => .ok (matching.assign frame.right left)
  | frame :: earlier =>
    match frame.parentLeft with
    | none => .error (.panic "parallel lane matching path is incomplete")
    | some parent => assignPath (matching.assign frame.right left) parent earlier

/-- `augment_lane_matching` with fuel for its steps; the last frame comes first. -/
def augmentFuel (allows : Nat → Nat → Bool) (leftSpan : Nat) (matching : LaneMatching) :
    Nat → Finset Nat → List Frame → Run LaneMatching
  | 0, _, _ => .error .fuel
  | _ + 1, _, [] => .ok matching
  | fuel + 1, seen, frame :: earlier =>
    match selectLeft allows leftSpan seen frame.right frame.nextLeft with
    | some left =>
      match matching.leftToRight left with
      | none => assignPath matching left (frame :: earlier)
      | some occupant =>
        if byteDomain ≤ (frame :: earlier).length then
          .error (.panic "parallel lane matching path exceeds wire domain")
        else
          augmentFuel allows leftSpan matching fuel (insert left seen)
            (⟨occupant, 0, some left⟩ :: { frame with nextLeft := left + 1 } :: earlier)
    | none => augmentFuel allows leftSpan matching fuel seen earlier

/-- Extend the matching by one right lane along an alternating path, if there is one. -/
def augment (allows : Nat → Nat → Bool) (leftSpan : Nat) (matching : LaneMatching)
    (right : Nat) : Run LaneMatching :=
  augmentFuel allows leftSpan matching (2 * leftSpan + 2) ∅ [⟨right, 0, none⟩]

/-- `maximum_lane_matching`: the right lanes are visited in ascending order. -/
def maximum (allows : Nat → Nat → Bool) (leftSpan rightSpan : Nat) : Run LaneMatching :=
  if byteDomain < leftSpan ∨ byteDomain < rightSpan then
    .error (.panic "parallel lane matching span exceeds wire domain")
  else (List.range rightSpan).foldlM (augment allows leftSpan) empty

end LaneMatching

/-! ### Merging two arms -/

/-- Every event of the range is on a lane inside the span. -/
def validateLaneSpan (eff : EffList) (laneSpan : Nat) : List Nat → Run Unit
  | [] => .ok ()
  | event :: events => do
    let atom ← eff.atomAt event
    if laneSpan ≤ atom.lane.toNat then
      .error (.panic "parallel arm contains a lane outside its declared span")
    else validateLaneSpan eff laneSpan events

/-- Every lane inside the span is used. -/
def validateDenseLaneClasses (index : LaneEndpointIndex) (laneSpan : Nat) : Run Unit :=
  if (List.range laneSpan).all fun lane => index.containsLane (UInt8.ofNat lane) then .ok ()
  else .error (.panic "parallel arm lane classes must be dense")

/-- The new lane of every right lane, and the span of both arms together. -/
def remapLanes (matching : LaneMatching) (resultSpan : Nat) : List Nat → Run (List UInt8 × Nat)
  | [] => .ok ([], resultSpan)
  | right :: rights =>
    match matching.rightToLeft right with
    | some left => do
      let (remap, span) ← remapLanes matching resultSpan rights
      return (UInt8.ofNat left :: remap, span)
    | none =>
      if byteDomain ≤ resultSpan then
        .error (.panic "parallel endpoint lane coloring exceeds wire domain")
      else do
        let (remap, span) ← remapLanes matching (resultSpan + 1) rights
        return (UInt8.ofNat resultSpan :: remap, span)

/-- Move one event to its new lane. -/
def remapEvent (remap : List UInt8) (eff : EffList) (event : Nat) : Run EffList := do
  let atom ← eff.atomAt event
  eff.replaceAtom event { atom with lane := remap.getD atom.lane.toNat 0 }

/-- Colour two arms that run in parallel: the left arm keeps its lanes, and the lanes of the right
arm are matched with lanes of disjoint endpoints or moved to fresh ones. -/
def mergeParallelLanes (eff : EffList) (actors : Option ActorImage)
    (leftStart leftEnd rightEnd leftSpan rightSpan : Nat) : Run (Nat × EffList) :=
  if leftEnd ≤ leftStart ∨ rightEnd ≤ leftEnd ∨ eff.len < rightEnd ∨ leftSpan = 0 ∨
      rightSpan = 0 then
    .error (.panic "parallel lane merge requires two non-empty colored arms")
  else if byteDomain < leftSpan ∨ byteDomain < rightSpan then
    .error (.panic "parallel lane span exceeds wire domain")
  else do
    validateLaneSpan eff leftSpan (List.range' leftStart (leftEnd - leftStart))
    validateLaneSpan eff rightSpan (List.range' leftEnd (rightEnd - leftEnd))
    let left ← LaneEndpointIndex.fromRange eff actors leftStart leftEnd
    let right ← LaneEndpointIndex.fromRange eff actors leftEnd rightEnd
    validateDenseLaneClasses left leftSpan
    validateDenseLaneClasses right rightSpan
    let matching ← LaneMatching.maximum
      (fun rightLane leftLane => Disjoint (right.endpointSet (UInt8.ofNat rightLane))
        (left.endpointSet (UInt8.ofNat leftLane))) leftSpan rightSpan
    let (remap, resultSpan) ← remapLanes matching leftSpan (List.range rightSpan)
    let eff ← (List.range' leftEnd (rightEnd - leftEnd)).foldlM (remapEvent remap) eff
    return (resultSpan, eff)

end Hibana
